import ManDb.Lexgrog.Described
import ManDb.Lexgrog.Epilogue
import ManDb.TestedPage
import ManDb.WhatisLines

namespace ManDb

open Lexgrog

/-- `find_name_decompressed`, with what was in `newname` before. -/
def findNameDecompressed (before : Newname) (type : PageType) (page : Bytes) : Option Lexgrog.Found :=
  let s := Lexgrog.scan (some maxName) type page (3 * page.length + 1)
  epilogue (s.newname before) s.filters

/-- The file of a page, whose label cannot be mistaken for that of another one. -/
structure PageFile (compExts : List Bytes) (file base : Bytes) (found : Mandata) : Prop where
  parsed : filenameInfo compExts file = some found
  named : found.name = some base
  page : PageName base
  clean : tab ∉ file
  bare : base.head? ≠ some dash
  plainName : space ∉ base
  plainExt : space ∉ found.ext

variable {loc : Locale} {h : PageHost} {s : PageState} {comp file path base first text rest : Bytes}
  {more : List Bytes} {found : Mandata} {before : Newname} {answer : Lexgrog.Found}
  {desc : PageDescription}

/-- The filters are told by letters, or by a dash. -/
theorem filterText_clean (found : Filter → Bool) : tab ∉ filterText found := by
  have letters : ∀ f : Filter, f.letter ≠ tab := by
    intro f
    cases f <;> decide
  unfold filterText
  split
  · decide
  · intro member
    obtain ⟨f, _, same⟩ := List.mem_map.mp member
    exact letters f same

/-- If `find_name_decompressed` stays in its buffers on a plain page, it tells the names and their description. -/
theorem findNameDecompressed_plain (names : PlainNames first more) (plain : PlainText text)
    (fits : (plainWhatis first more text).length < maxName)
    (answered : findNameDecompressed before .manpage (plainPage first more text rest) = some answer) :
    answer.whatis = trimSpaces (plainWhatis first more text) ∧ tab ∉ answer.filters := by
  obtain ⟨_, whatis⟩ := scan_plainPage names plain fits rest
  obtain ⟨found, filters⟩ := scan_filters (some maxName) .manpage (plainPage first more text rest)
    (3 * (plainPage first more text rest).length + 1)
  have letter : ∃ c ∈ plainWhatis first more text, c ≠ space := ⟨dash, by simp [plainWhatis, ascii, dash], by decide⟩
  rw [findNameDecompressed, Scanner.newname, whatis, filters,
    epilogue_text (plainWhatis_nulFree names plain) (Or.inr letter), Option.map_eq_some_iff] at answered
  obtain ⟨text, collected, rfl⟩ := answered
  refine ⟨rfl, ?_⟩
  have table := collectFilters_pick (found .tbl) (found .eqn) (found .pic) (found .grap) (found .ref) (found .vgrind)
  rw [Filter.pick_eq, collected] at table
  split at table
  · cases table
  · rw [Option.some.inj table]
    exact filterText_clean found

/-- It does so if some filter is not found. -/
theorem findNameDecompressed_found {filters : Filter → Bool} (names : PlainNames first more) (plain : PlainText text)
    (fits : (plainWhatis first more text).length < maxName) (missing : ∃ f, filters f = false)
    (scanned : (Lexgrog.scan (some maxName) .manpage (plainPage first more text rest)
      (3 * (plainPage first more text rest).length + 1)).filters = filterBytes filters) :
    findNameDecompressed before .manpage (plainPage first more text rest) =
      some (trimmedFound (plainWhatis first more text) filters) := by
  obtain ⟨_, whatis⟩ := scan_plainPage names plain fits rest
  have letter : ∃ c ∈ plainWhatis first more text, c ≠ space := ⟨dash, by simp [plainWhatis, ascii, dash], by decide⟩
  rw [findNameDecompressed, Scanner.newname, whatis, scanned,
    epilogue_text (plainWhatis_nulFree names plain) (Or.inr letter), (collectFilters_eq_some_iff filters).mpr missing]
  rfl

/-- The names under which a plain page is described, and what is said of each of them. -/
theorem mem_descriptions :
    desc ∈ withBase base ((first :: more).map (⟨·, some text⟩)) ↔
      desc.name ∈ base :: first :: more ∧ desc.whatis = some text := by
  have plain : desc ∈ (first :: more).map (⟨·, some text⟩) ↔ desc.name ∈ first :: more ∧ desc.whatis = some text := by
    rw [List.mem_map]
    constructor
    · rintro ⟨name, member, rfl⟩
      exact ⟨member, rfl⟩
    · rintro ⟨member, same⟩
      exact ⟨desc.name, member, by rw [← same]⟩
  constructor
  · intro member
    unfold withBase at member
    split at member
    · exact ⟨List.mem_cons_of_mem _ (plain.mp member).1, (plain.mp member).2⟩
    · rcases List.mem_append.mp member with old | new
      · exact ⟨List.mem_cons_of_mem _ (plain.mp old).1, (plain.mp old).2⟩
      · rw [List.mem_singleton.mp new]
        exact ⟨List.mem_cons_self, rfl⟩
  · rintro ⟨member, same⟩
    by_cases listed : desc.name ∈ first :: more
    · exact subset_withBase _ _ (plain.mpr ⟨listed, same⟩)
    · obtain rfl : desc.name = base := (List.mem_cons.mp member).resolve_right listed
      rw [withBase, if_neg, List.mem_append, List.mem_singleton]
      · exact Or.inr (by rw [List.map_cons, List.head?_cons, Option.bind_some, ← same])
      · rw [List.map_map]
        simpa using listed

section Tested

variable (file_ : PageFile h.host.compExts file base found) (alike : found.comp.getD [dash] = comp)

include file_ alike

/-- Every record that a page leads to can be stored. -/
theorem PageFile.storable {filter : Option Bytes} (clean : ∀ s ∈ filter, tab ∉ s) {name : Bytes} (page : PageName name)
    (whatis : Option Bytes) :
    Storable comp (name, (h.request file path base found filter).recordFor ⟨name, whatis⟩) := by
  obtain ⟨ext, sec, compExt⟩ := filenameInfo_subset file_.parsed
  have plain : ∀ field, field ⊆ file → tab ∉ field := fun field inside member => file_.clean (inside member)
  have ids : (ultMan ≠ tab ∧ ultMan ≠ 0) ∧ whatisMan ≠ tab ∧ whatisMan ≠ 0 := by decide
  refine ⟨page, ?_, ?_⟩
  · unfold StoreRequest.recordFor
    split
    · exact ⟨plain _ ext, plain _ sec, ids.1.1, ids.1.2, nofun, fun e found => plain e (compExt e found), clean⟩
    · refine ⟨plain _ ext, plain _ sec, ids.2.1, ids.2.2, ?_, fun e found => plain e (compExt e found), clean⟩
      rintro pointer ⟨⟩
      exact file_.page.2.1
  · unfold StoreRequest.recordFor
    split
    · exact alike
    · exact alike

/-- When a plain page has been tested the index has the page with its description, and a reference to it under each of
its other names. -/
theorem PageFile.indexed (displayable : Displayable loc s.db) (orderly : Orderly loc comp s.db)
    (regular : h.Regular file) (unknown : s.Unknown file) (names : PlainNames first more) (plain : PlainText text)
    (fits : (plainWhatis first more text).length < maxName)
    (answered : findNameDecompressed before .manpage (plainPage first more text rest) = some answer)
    (scanned : h.findName file (baseName file) = (some answer.whatis, some answer.filters))
    (proper : ∀ name ∈ first :: more, name.head? ≠ some dollar)
    (newer : ∀ name ∈ base :: first :: more, ∀ old, entry loc s.db ⟨name, found.ext⟩ = some old →
      Prefers (stored ((h.request file path base found (some answer.filters)).recordFor ⟨name, some text⟩)) old) :
    ∃ s', (testManfile loc h false file path s).state = .ok s' ∧ Orderly loc comp s'.db ∧ Displayable loc s'.db ∧
      DescribedPage loc s'.db base found.ext text ∧
      ∀ name ∈ base :: first :: more, NamesPage loc s'.db base found.ext name := by
  obtain ⟨whatis, filters⟩ := findNameDecompressed_plain names plain fits answered
  have pages : ∀ name ∈ base :: first :: more, PageName name := by
    refine List.forall_mem_cons.mpr ⟨file_.page, fun name member => ?_⟩
    have word : PlainWord name := List.forall_mem_cons.mpr ⟨names.word, names.words⟩ name member
    exact ⟨word.nonempty, word.clean.2.1, proper name member⟩
  have described : parseDescriptions (some base) (some answer.whatis) =
      withBase base ((first :: more).map (⟨·, some text⟩)) := by
    rw [whatis]
    exact parseDescriptions_plain names plain base
  let r := h.request file path base found (some answer.filters)
  -- every call is made for a name of the page, with the one record for it
  have calls : ∀ call, call ∈ r.offers found (parseDescriptions (some base) (some answer.whatis)) ↔
      ∃ name ∈ base :: first :: more, call = (name, r.recordFor ⟨name, some text⟩) := by
    intro call
    rw [mem_request_offers file_.parsed file_.named, described]
    constructor
    · rintro ⟨⟨name, _⟩, member, rfl⟩
      obtain ⟨listed, rfl⟩ := mem_descriptions.mp member
      exact ⟨name, listed, rfl⟩
    · rintro ⟨name, listed, rfl⟩
      exact ⟨⟨name, some text⟩, mem_descriptions.mpr ⟨listed, rfl⟩, rfl⟩
  have ext : ∀ desc, (r.recordFor desc).ext = found.ext := by
    intro desc
    unfold StoreRequest.recordFor
    split <;> rfl
  have storable : ∀ call ∈ r.offers found (parseDescriptions (some base) (some answer.whatis)), Storable comp call := by
    intro call made
    obtain ⟨name, listed, rfl⟩ := (calls call).mp made
    exact file_.storable alike (by rintro _ ⟨⟩; exact filters) (pages name listed) (some text)
  obtain ⟨s', run, orderly', map⟩ := testManfile_regular orderly regular unknown file_.parsed file_.named
    file_.page alike scanned storable
  have present : ∀ name ∈ base :: first :: more,
      entry loc s'.db ⟨name, found.ext⟩ = some (stored (r.recordFor ⟨name, some text⟩)) := by
    intro name listed
    have once := @offerAll_same (stored (r.recordFor ⟨name, some text⟩)) (entry loc s.db) ⟨name, found.ext⟩
      (r.offers found (parseDescriptions (some base) (some answer.whatis))) ?_ ?_
    · rw [map, once]
      cases old : entry loc s.db ⟨name, found.ext⟩ with
      | none => rfl
      | some old_ => exact congrArg some (if_pos (newer name listed old_ old))
    · intro call made same
      obtain ⟨other, _, rfl⟩ := (calls call).mp made
      obtain rfl : other = name := congrArg NameExt.name same
      rfl
    · exact ⟨_, (calls _).mpr ⟨name, listed, rfl⟩, by rw [ext]⟩
  have own : r.recordFor ⟨base, some text⟩ = r.ownRecord (some text) := if_pos rfl
  have other : ∀ name, name ≠ base → r.recordFor ⟨name, some text⟩ = r.referenceRecord :=
    fun name differs => if_neg (Ne.symm differs)
  have nonempty : text ≠ [] := by
    obtain ⟨d, behind, shape, _⟩ := plain.head []
    rw [List.append_nil] at shape
    rw [shape]
    exact List.cons_ne_nil _ _
  have displayable' : Displayable loc s'.db := by
    refine ⟨orderly'.wf, fun ref info atRef pointer points => ?_⟩
    rcases offerAll_mem (map ▸ atRef) with old | ⟨call, made, _, rfl⟩
    · exact displayable.pointers ref info old pointer points
    · obtain ⟨name, _, rfl⟩ := (calls call).mp made
      by_cases same : name = base
      · rw [same, own] at points
        obtain rfl := Option.some.inj points
        exact Or.inl rfl
      · rw [other name same] at points
        obtain rfl := Option.some.inj points
        exact Or.inr file_.page
  have atBase := present base List.mem_cons_self
  rw [own] at atBase
  refine ⟨s', run, orderly', displayable', ⟨⟨_, atBase, rfl, rfl⟩, nonempty, file_.plainName, file_.plainExt⟩, ?_⟩
  intro name listed
  refine ⟨_, present name listed, ?_⟩
  by_cases same : name = base
  · exact Or.inl same
  · rw [other name same]
    exact Or.inr rfl

end Tested

/-- A page for a program with two names. -/
def listPage : Bytes := plainPage (ascii "ls") [ascii "dir"] (ascii "list files") (ascii " USE\n")

theorem listPage_filters :
    (Lexgrog.scan (some maxName) .manpage listPage (3 * listPage.length + 1)).filters = filterBytes fun _ => false := by
  decide +kernel

/-- What `find_name` tells of it. -/
def listPageFound : Lexgrog.Found :=
  trimmedFound (plainWhatis (ascii "ls") [ascii "dir"] (ascii "list files")) fun _ => false

/-- A system on which every file is this page. -/
def listHost : PageHost where
  host := ⟨[], fun _ => none, fun _ => true⟩
  gunzip := false
  links := ⟨[], fun _ => some ⟨.inprocess, listPage, 0, Nat.zero_le _⟩, fun _ => true, fun _ => true, some,
    fun _ => none, fun _ => none⟩
  lstat := fun _ => ⟨⟨5, 0⟩, 60, ⟨false, 1, 7⟩⟩
  findName := fun _ _ => (some listPageFound.whatis, some listPageFound.filters)

/-- Before the first page is tested. -/
def firstState : PageState := ⟨∅, fun _ => none, fun _ => none, 0⟩

/-- What is found out from the name of the file. -/
def listInfo : Mandata where
  name := some (ascii "list")
  ext := ascii "1"
  sec := ascii "1"
  id := 0
  pointer := none
  comp := none
  filter := none
  whatis := none
  mtime := ⟨0, 0⟩

end ManDb
