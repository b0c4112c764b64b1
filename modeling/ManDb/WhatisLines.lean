import ManDb.Filenames
import ManDb.Index.Resolve
import ManDb.Index.Search

namespace ManDb

/-- What `display` prints a line from. -/
structure WhatisLine where
  name : Option Bytes
  page : Bytes
  ext : Bytes
  pointer : Bytes
  whatis : Bytes
  deriving DecidableEq

/-- The key of a line in `display_seen`. -/
def WhatisLine.label (line : WhatisLine) : Bytes :=
  line.name.getD line.page ++ ascii " (" ++ line.ext ++ ascii ")"

/-- `get_whatis`, of the entry that the pointers lead to. -/
def getWhatis (newinfo : Option Mandata) : Bytes :=
  match newinfo.bind (·.whatis) with
  | none => ascii "(unknown subject)"
  | some whatis => if whatis = [] then ascii "(unknown subject)" else whatis

/-- The line for a match that leads to an entry. -/
def whatisLine (info : Mandata) (page : Bytes) (newinfo : Option Mandata) : WhatisLine where
  name := (newinfo.getD info).name
  page := page
  ext := (newinfo.getD info).ext
  pointer := (newinfo.getD info).pointer.getD []
  whatis := getWhatis newinfo

/-- `display`: `display_seen` has the labels of the lines that are printed. -/
def displayLine (loc : Locale) (db : Store) (page : Bytes) (printed : List WhatisLine) (info : Mandata) :
    Except Fatal (List WhatisLine) := do
  let newinfo ← resolvePointers loc db info page
  let line := whatisLine info page newinfo
  return if line.label ∈ printed.map (·.label) then printed else printed ++ [line]

/-- `do_whatis_section`: look up the page and display the results, of which it tells the number. -/
def doWhatisSection (loc : Locale) (db : Store) (page : Bytes) (section? : Option Bytes) (printed : List WhatisLine) :
    Except Fatal (Nat × List WhatisLine) := do
  let infos ← dblookupAll loc db page section? false
  let printed ← infos.foldlM (displayLine loc db page) printed
  return (infos.length, printed)

/-- What `do_whatis` asks of the system: whether a file can be executed and is no directory,
whether a directory is on `$PATH`, and whether the hierarchy is one for programs there. -/
structure WhatisHost where
  executable : Bytes → Bool
  onPath : Bytes → Bool
  suitable : Bytes → Bool

/-- The page to look up, unless it is a program with its pages elsewhere. -/
def WhatisHost.page (h : WhatisHost) (page : Bytes) : Option Bytes :=
  if slash ∈ page ∧ h.executable page ∧ h.onPath (dirName page) then
    if h.suitable (dirName page) then some (baseName page) else none
  else some page

/-- The sections in which a page is looked up, one after the other; `none` stands for any section. -/
def askedSections (sections : Option (List Bytes)) : List (Option Bytes) :=
  sections.elim [none] (·.map some)

/-- A turn of the loop over the pages: whether the page is found, and the lines. -/
def doWhatisPage (loc : Locale) (h : WhatisHost) (db : Store) (sections : Option (List Bytes)) (page : Bytes)
    (printed : List WhatisLine) : Except Fatal (Bool × List WhatisLine) :=
  match h.page page with
  | none => .ok (false, printed)
  | some page =>
    (askedSections sections).foldlM (fun (found, printed) section? => do
      let (count, printed) ← doWhatisSection loc db page section? printed
      return (found || 0 < count, printed)) (false, printed)

/-- `do_whatis`: for each page whether it is found, and the lines. -/
def doWhatis (loc : Locale) (h : WhatisHost) (db : Store) (sections : Option (List Bytes)) :
    List Bytes → List WhatisLine → Except Fatal (List Bool × List WhatisLine)
  | [], printed => .ok ([], printed)
  | page :: pages, printed => do
    let (found, printed) ← doWhatisPage loc h db sections page printed
    let (rest, printed) ← doWhatis loc h db sections pages printed
    return (found :: rest, printed)

/-- An entry that can be looked up again under its name. -/
structure LookedUp (loc : Locale) (db : Store) (info : Mandata) : Prop where
  again : ∃ name, info.name = some name ∧ dblookupExact loc db name (some info.ext) true = .ok (some info)
  followable : Followable info

variable {loc : Locale} {db : Store} {info found record : Mandata} {page name ext base text : Bytes}
  {section? : Option Bytes} {printed : List WhatisLine} {infos : List Mandata}

/-- An entry that is asked for in its own case is known by its name. -/
theorem nameKnown_entry (wf : WellFormed loc db) (present : entry loc db ⟨name, ext⟩ = some record)
    (section? : Option Bytes) (exact : Bool) : NameKnown loc db name section? exact := by
  have page : PageName name := entry_pageName (Option.ne_none_iff_exists'.mpr ⟨_, present⟩)
  intro cont atKey single
  have pageKey : PageName (nameToKey loc name) := pageName_nameToKey.mpr page
  rcases wf.simple _ cont pageKey atKey with ⟨info, isStored, field, _, rfl⟩ | ⟨refs, nonempty, _, rfl, _⟩
  · refine ⟨info, isStored.split field, fun _ => ⟨page, fun unnamed => ?_⟩⟩
    have shape : (if (⟨name, ext⟩ : NameExt) = info.ref (nameToKey loc name) then some info.unnamed else none) =
        some record := by
      rw [← present, entry, if_pos page, atKey, Option.bind_some, isIndex_makeContent field, isStored.split field]
      rfl
    split at shape
    · rename_i same
      simpa [Mandata.ref, unnamed] using congrArg NameExt.name same
    · cases shape
  · rw [isIndex_makeExtensionsReference nonempty] at single
    cases single

theorem Displayable.lookedUp (displayable : Displayable loc db) (present : entry loc db ⟨name, ext⟩ = some record) :
    LookedUp loc db (record.as name) ∧ record.ext = ext := by
  obtain ⟨found, isRecord, rfl⟩ := displayable.wf.record_home present
  have same : found.unnamed.ext = ext := isRecord.ext
  have looked := dblookupExact_entry displayable.wf present
  refine ⟨⟨⟨name, rfl, ?_⟩, fun pointer points => displayable.pointers _ _ present pointer points⟩, same⟩
  rwa [← same] at looked

/-- Where a pointer leads to is looked up too. -/
theorem Displayable.next (displayable : Displayable loc db) (followable : Followable info)
    (unresolved : resolved info page = false) :
    ∃ result, dblookupExact loc db (info.pointer.getD []) (some info.ext) true = .ok result ∧
      ∀ next ∈ result, LookedUp loc db next := by
  obtain ⟨result, run, later⟩ := displayable.follow followable unresolved
  refine ⟨result, run, fun next found => ⟨⟨info.pointer.getD [], ?_⟩, later next found⟩⟩
  cases atPointer : info.pointer with
  | none =>
    rw [atPointer, dblookupExact, Option.getD_none, dblookup_absent displayable.wf.nonempty] at run
    cases Except.ok.inj run
    cases found
  | some pointer =>
    have isPage : PageName pointer := by
      refine (followable pointer atPointer).resolve_left fun dashed => ?_
      simp [resolved, atPointer, dashed] at unresolved
    obtain ⟨other, again, is⟩ := dblookupExact_found displayable.wf isPage.2.1 (fun own => isPage.2.2 own.1) info.ext
    rw [atPointer, Option.getD_some, again] at run
    cases Except.ok.inj run
    have isFound := is next found
    rw [Option.getD_some, isFound.ext, again]
    exact ⟨isFound.name, congrArg _ found⟩

theorem Displayable.roundsLookedUp (displayable : Displayable loc db) (newpage : Bytes) (n : Nat)
    {result : Option Mandata} (lookedUp : ∀ info ∈ result, LookedUp loc db info) :
    ∃ last, ManDb.resolveRounds loc db newpage n result = .ok last ∧ ∀ info ∈ last, LookedUp loc db info := by
  induction n generalizing result with
  | zero => exact ⟨none, by cases result <;> rfl, nofun⟩
  | succ n ih =>
    cases result with
    | none => exact ⟨none, rfl, nofun⟩
    | some info =>
      cases ends : resolved info newpage with
      | true => exact ⟨some info, by simp [ManDb.resolveRounds, ends], lookedUp⟩
      | false =>
        obtain ⟨next, run, good⟩ := displayable.next (lookedUp info rfl).followable ends
        obtain ⟨last, rest, found⟩ := ih good
        exact ⟨last, by simp [ManDb.resolveRounds, ends, run, rest, bind, Except.bind], found⟩

/-- The entry that the pointers lead to is an entry that can be looked up under its own name. -/
theorem Displayable.resolvesLookedUp (displayable : Displayable loc db) (lookedUp : LookedUp loc db info)
    (page : Bytes) :
    ∃ last, ManDb.resolvePointers loc db info page = .ok last ∧ ∀ info ∈ last, LookedUp loc db info := by
  cases ends : resolved info page with
  | true => exact ⟨some info, by simp [ManDb.resolvePointers, ends], by simpa using lookedUp⟩
  | false =>
    obtain ⟨next, run, good⟩ := displayable.next lookedUp.followable ends
    obtain ⟨last, rest, found⟩ := displayable.roundsLookedUp (info.pointer.getD []) 10 good
    exact ⟨last, by simp [ManDb.resolvePointers, ends, run, rest, bind, Except.bind], found⟩

/-- A label without another space in it tells the name and the extension. -/
theorem label_inj (plainName : space ∉ base) (plainExt : space ∉ ext) {name ext' : Bytes}
    (same : name ++ ascii " (" ++ ext' ++ ascii ")" = base ++ ascii " (" ++ ext ++ ascii ")") :
    name = base ∧ ext' = ext := by
  have shape : name ++ space :: (40 :: (ext' ++ [41])) = base ++ space :: (40 :: (ext ++ [41])) := by
    simpa [ascii, space] using same
  have plainAfter : space ∉ (40 : UInt8) :: (ext ++ [41]) := by
    rw [List.mem_cons, List.mem_append, not_or, not_or]
    exact ⟨by decide, plainExt, by decide⟩
  have once : (name ++ space :: (40 :: (ext' ++ [41]))).count space = 1 := by
    rw [shape, List.count_append, List.count_cons_self, List.count_eq_zero.mpr plainName,
      List.count_eq_zero.mpr plainAfter]
  have plainBehind : space ∉ (40 : UInt8) :: (ext' ++ [41]) := by
    rw [List.count_append, List.count_cons_self] at once
    exact List.count_eq_zero.mp (by omega)
  obtain ⟨names, behind⟩ := Separated.append_cons_inj plainBehind plainAfter shape
  exact ⟨names, List.append_cancel_right (List.cons.inj behind).2⟩

/-- A page of the index with a description of its own, whose label cannot be mistaken for another one. -/
structure DescribedPage (loc : Locale) (db : Store) (base ext text : Bytes) : Prop where
  record : ∃ record, entry loc db ⟨base, ext⟩ = some record ∧ record.pointer = some [dash] ∧ record.whatis = some text
  nonempty : text ≠ []
  plainName : space ∉ base
  plainExt : space ∉ ext

/-- The label of a page. -/
def pageLabel (base ext : Bytes) : Bytes := base ++ ascii " (" ++ ext ++ ascii ")"

/-- Every line with the label has the description. -/
def Tells (printed : List WhatisLine) (label text : Bytes) : Prop :=
  ∀ line ∈ printed, line.label = label → line.whatis = text

/-- A line with the label of the page has its description. -/
theorem DescribedPage.line (described : DescribedPage loc db base ext text) (displayable : Displayable loc db)
    (lookedUp : LookedUp loc db info) {last : Option Mandata} (resolves : resolvePointers loc db info page = .ok last)
    (found : ∀ info ∈ last, LookedUp loc db info)
    (label : (whatisLine info page last).label = pageLabel base ext) : (whatisLine info page last).whatis = text := by
  obtain ⟨record, present, pointer, whatis⟩ := described.record
  have own : ∀ e : Mandata, LookedUp loc db e →
      e.name.getD page ++ ascii " (" ++ e.ext ++ ascii ")" = pageLabel base ext → e = record.as base := by
    intro e lookedUp same
    obtain ⟨name, named, again⟩ := lookedUp.again
    rw [named, Option.getD_some] at same
    obtain ⟨rfl, sameExt⟩ := label_inj described.plainName described.plainExt same
    rw [sameExt, dblookupExact_entry displayable.wf present, Except.ok.injEq, Option.some.injEq] at again
    exact again.symm
  cases last with
  | some newinfo =>
    obtain rfl := own newinfo (found newinfo rfl) label
    have shown : (record.as base).whatis = some text := whatis
    simp [whatisLine, getWhatis, shown, described.nonempty]
  | none =>
    obtain rfl := own info lookedUp label
    have ends : resolved (record.as base) page = true := by
      simp [resolved, Mandata.as, pointer]
    simp [resolvePointers, ends] at resolves

theorem DescribedPage.displayLine (described : DescribedPage loc db base ext text) (displayable : Displayable loc db)
    (lookedUp : LookedUp loc db info) (page : Bytes) (tells : Tells printed (pageLabel base ext) text) :
    ∃ last printed', resolvePointers loc db info page = .ok last ∧ displayLine loc db page printed info = .ok printed' ∧
      Tells printed' (pageLabel base ext) text ∧ printed <+: printed' ∧
      (whatisLine info page last).label ∈ printed'.map (·.label) := by
  obtain ⟨last, run, found⟩ := displayable.resolvesLookedUp lookedUp page
  have line := described.line displayable lookedUp run found
  refine ⟨last, _, run, by rw [ManDb.displayLine, run]; rfl, ?_⟩
  split
  · rename_i seen
    exact ⟨tells, List.prefix_refl _, seen⟩
  · refine ⟨fun other member label => ?_, List.prefix_append _ _, by simp⟩
    rcases List.mem_append.mp member with old | new
    · exact tells other old label
    · obtain rfl := List.mem_singleton.mp new
      exact line label

/-- The loop over the matches of a page prints the line of each of them, unless its label was printed before. -/
theorem DescribedPage.displayLines (described : DescribedPage loc db base ext text) (displayable : Displayable loc db)
    (lookedUp : ∀ info ∈ infos, LookedUp loc db info) (page : Bytes) (tells : Tells printed (pageLabel base ext) text) :
    ∃ printed', infos.foldlM (ManDb.displayLine loc db page) printed = .ok printed' ∧
      Tells printed' (pageLabel base ext) text ∧ printed <+: printed' ∧
      ∀ info ∈ infos, ∃ last, resolvePointers loc db info page = .ok last ∧
        (whatisLine info page last).label ∈ printed'.map (·.label) := by
  induction infos generalizing printed with
  | nil => exact ⟨printed, rfl, tells, List.prefix_refl _, nofun⟩
  | cons info infos ih =>
    obtain ⟨first, rest⟩ := List.forall_mem_cons.mp lookedUp
    obtain ⟨last, between, resolves, turn, tells₁, grows₁, shown⟩ := described.displayLine displayable first page tells
    obtain ⟨printed', run, tells₂, grows₂, later⟩ := ih rest tells₁
    refine ⟨printed', ?_, tells₂, grows₁.trans grows₂, List.forall_mem_cons.mpr ⟨⟨last, resolves, ?_⟩, later⟩⟩
    · rw [List.foldlM_cons, turn]
      exact run
    · exact (grows₂.map _).subset shown

/-- A name of the page: its own, or that of a reference to it. -/
def NamesPage (loc : Locale) (db : Store) (base ext name : Bytes) : Prop :=
  ∃ record, entry loc db ⟨name, ext⟩ = some record ∧ (name = base ∨ record.pointer = some base)

/-- From each of its names the pointers lead to the page. -/
theorem DescribedPage.resolves (described : DescribedPage loc db base ext text) (wf : WellFormed loc db)
    (bare : base.head? ≠ some dash) (present : entry loc db ⟨name, ext⟩ = some record)
    (names : name = base ∨ record.pointer = some base) (sameExt : record.ext = ext) :
    ∃ own, resolvePointers loc db (record.as name) name = .ok (some own) ∧ own.name = some base ∧ own.ext = ext := by
  obtain ⟨own, atBase, pointer, _⟩ := described.record
  have ends : ∀ page, resolved (own.as base) page = true := by
    intro page
    simp [resolved, Mandata.as, pointer]
  by_cases same : name = base
  · subst same
    obtain rfl := Option.some.inj (atBase.symm.trans present)
    exact ⟨own.as name, by simp [resolvePointers, ends], rfl, sameExt⟩
  · have points := names.resolve_left same
    have going : resolved (record.as name) name = false := by
      simp [resolved, Mandata.as, points, bare, Ne.symm same]
    have looked := dblookupExact_entry wf atBase
    have ownExt : (own.as base).ext = ext := by
      obtain ⟨found, isRecord, rfl⟩ := wf.record_home atBase
      exact isRecord.ext
    refine ⟨own.as base, ?_, rfl, ownExt⟩
    have target : (record.as name).pointer.getD [] = base := by simp [Mandata.as, points]
    have targetExt : (record.as name).ext = ext := sameExt
    simp [resolvePointers, going, target, targetExt, looked, resolveRounds, ends, bind, Except.bind]

/-- A look-up of one of the names of the page in a section. -/
theorem DescribedPage.whatisSection (described : DescribedPage loc db base ext text) (displayable : Displayable loc db)
    (bare : base.head? ≠ some dash) (names : NamesPage loc db base ext name) (section? : Option Bytes)
    (tells : Tells printed (pageLabel base ext) text) :
    ∃ count printed', doWhatisSection loc db name section? printed = .ok (count, printed') ∧
      Tells printed' (pageLabel base ext) text ∧ printed <+: printed' ∧
      (sectionMatches section? false ext = true → 0 < count ∧ pageLabel base ext ∈ printed'.map (·.label)) := by
  obtain ⟨record, present, leads⟩ := names
  obtain ⟨infos, looked, answers⟩ := (@dblookup_answers_iff loc db name section? false false displayable.wf).mpr
    (nameKnown_entry displayable.wf present section? false)
  have lookedUp : ∀ info ∈ infos, LookedUp loc db info := by
    intro info member
    obtain ⟨ref, found, atRef, _, rfl⟩ := (answers.mem info).mp member
    exact (@Displayable.lookedUp _ _ _ ref.name ref.ext displayable atRef).1
  obtain ⟨printed', run, tells', grows, shown⟩ := described.displayLines displayable lookedUp name tells
  refine ⟨infos.length, printed', ?_, tells', grows, fun suitable => ?_⟩
  · rw [doWhatisSection, dblookupAll, looked]
    simp only [bind, Except.bind, run]
    rfl
  · obtain ⟨_, sameExt⟩ := displayable.lookedUp present
    have member : record.as name ∈ infos := by
      refine (answers.mem _).mpr ⟨⟨name, ext⟩, record, present, ⟨rfl, nofun, suitable⟩, rfl⟩
    obtain ⟨last, resolves, label⟩ := shown _ member
    obtain ⟨own, toOwn, ownName, ownExt⟩ := described.resolves displayable.wf bare present leads sameExt
    obtain rfl : last = some own := Except.ok.inj (resolves.symm.trans toOwn)
    refine ⟨List.length_pos_of_mem member, ?_⟩
    rwa [WhatisLine.label, whatisLine, Option.getD_some, ownName, ownExt, Option.getD_some] at label

/-- The sections in which a page is looked up: it is found if one of them is that of the page. -/
theorem DescribedPage.whatisSections (described : DescribedPage loc db base ext text) (displayable : Displayable loc db)
    (bare : base.head? ≠ some dash) (names : NamesPage loc db base ext name) (sections : List (Option Bytes))
    (before : Bool) (tells : Tells printed (pageLabel base ext) text) :
    ∃ found printed', sections.foldlM (fun (found, printed) section? => do
        let (count, printed) ← doWhatisSection loc db name section? printed
        return (found || 0 < count, printed)) (before, printed) = Except.ok (found, printed') ∧
      Tells printed' (pageLabel base ext) text ∧ printed <+: printed' ∧ (before = true → found = true) ∧
      ((∃ section? ∈ sections, sectionMatches section? false ext = true) →
        found = true ∧ pageLabel base ext ∈ printed'.map (·.label)) := by
  induction sections generalizing before printed with
  | nil => exact ⟨before, printed, rfl, tells, List.prefix_refl _, id, by simp⟩
  | cons section? sections ih =>
    obtain ⟨count, between, turn, tells₁, grows₁, first⟩ :=
      described.whatisSection displayable bare names section? tells
    obtain ⟨found, printed', run, tells₂, grows₂, kept, later⟩ := ih (before || 0 < count) tells₁
    refine ⟨found, printed', ?_, tells₂, grows₁.trans grows₂, fun set => kept (by simp [set]), ?_⟩
    · simp only [List.foldlM_cons, turn, bind, Except.bind]
      exact run
    · rintro ⟨asked, member, suitable⟩
      rcases List.mem_cons.mp member with rfl | inRest
      · obtain ⟨some_, label⟩ := first suitable
        exact ⟨kept (by simp [some_]), (grows₂.map _).subset label⟩
      · exact later ⟨asked, inRest, suitable⟩

/-- `whatis` of names of a page finds all of them, and every line with the label of the page has its description. -/
theorem DescribedPage.doWhatis (described : DescribedPage loc db base ext text) (displayable : Displayable loc db)
    (bare : base.head? ≠ some dash) (h : WhatisHost) {sections : Option (List Bytes)}
    (suitable : ∃ section? ∈ askedSections sections, sectionMatches section? false ext = true) {pages : List Bytes}
    (names : ∀ name ∈ pages, NamesPage loc db base ext name ∧ slash ∉ name)
    (tells : Tells printed (pageLabel base ext) text) :
    ∃ printed', ManDb.doWhatis loc h db sections pages printed = .ok (pages.map fun _ => true, printed') ∧
      Tells printed' (pageLabel base ext) text ∧ printed <+: printed' ∧
      (pages ≠ [] → pageLabel base ext ∈ printed'.map (·.label)) := by
  induction pages generalizing printed with
  | nil => exact ⟨printed, rfl, tells, List.prefix_refl _, absurd rfl⟩
  | cons name pages ih =>
    obtain ⟨⟨known, plain⟩, names⟩ := List.forall_mem_cons.mp names
    obtain ⟨found, between, turn, tells₁, grows₁, _, first⟩ :=
      described.whatisSections displayable bare known (askedSections sections) false tells
    obtain ⟨rfl, label⟩ := first suitable
    obtain ⟨printed', run, tells₂, grows₂, _⟩ := ih names tells₁
    have itself : h.page name = some name := if_neg fun program => plain program.1
    have page : doWhatisPage loc h db sections name printed = .ok (true, between) := by
      rw [doWhatisPage, itself]
      exact turn
    refine ⟨printed', ?_, tells₂, grows₁.trans grows₂, fun _ => (grows₂.map _).subset label⟩
    simp only [ManDb.doWhatis, page, run, bind, Except.bind]
    rfl

end ManDb
