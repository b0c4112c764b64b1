import ManDb.Index.Lookup

namespace ManDb

/-- One call that changes the index. -/
inductive Op where
  | store (data : Mandata) (base : Bytes)
  | delete (name : Bytes) (info : Mandata)

namespace Op

def run (loc : Locale) (db : Store) : Op → Except Fatal (Nat × Store)
  | store data base => dbstore loc db data base
  | delete name info => dbdelete loc db name info

/-- The calls with a proper base and without tabs in names or fields. -/
def Allowed : Op → Prop
  | store data base => PageName base ∧ data.Clean
  | delete name _ => tab ∉ name

instance : (op : Op) → Decidable op.Allowed
  | store data base => inferInstanceAs (Decidable (PageName base ∧ data.Clean))
  | delete name _ => inferInstanceAs (Decidable (tab ∉ name))

/-- A page is stored where the only record is that of another page which ties with
it in id, mtime and pointer and has another compression extension. -/
def Clash (loc : Locale) (db : Store) : Op → Prop
  | store data base => ∃ cont old, db.fetch (nameToKey loc base) = some cont ∧ isIndex cont = false ∧
      splitContent cont = .ok old ∧ old.ref (nameToKey loc base) ≠ ⟨base, data.ext⟩ ∧
      old.id = data.id ∧ old.mtime = data.mtime ∧ old.pointer = some (dashIfUnset data.pointer) ∧
      old.comp ≠ some (dashIfUnset data.comp)
  | delete _ _ => False

end Op

/-- The stores that calls meeting a condition can make of an empty index. -/
inductive Reach (loc : Locale) (meets : Store → Op → Prop) : Store → Prop
  | start : Reach loc meets ∅
  | next {db db' op code} : Reach loc meets db → meets db op → op.run loc db = .ok (code, db') →
      Reach loc meets db'

/-- Records and sorted lists of pairs under the simple keys, a record for every
listed pair under its multi key, and no other multi keys. -/
structure IndexInvariant (loc : Locale) (db : Store) : Prop where
  simple : ∀ k cont, tab ∉ k → db.fetch k = some cont →
    (isIndex cont = false ∧ ∃ info, splitContent cont = .ok info) ∨
    (isIndex cont = true ∧ listExtensions cont.tail ≠ [] ∧
      SortedList.Strict nameExtCompare (listExtensions cont.tail) ∧
      cont = makeExtensionsReference (listExtensions cont.tail) ∧
      ∀ ref ∈ listExtensions cont.tail, nameToKey loc ref.name = k ∧
        ∃ multi info, db.fetch (makeMultiKey ref.name ref.ext) = some multi ∧
          splitContent multi = .ok info ∧ info.ext = ref.ext)
  multi : ∀ key cont, tab ∈ key → db.fetch key = some cont →
    ∃ (ref : NameExt) (index : Bytes), tab ∉ ref.name ∧ key = makeMultiKey ref.name ref.ext ∧
      db.fetch (nameToKey loc ref.name) = some index ∧ isIndex index = true ∧ ref ∈ listExtensions index.tail

/-- No lookup, deletion or scan ends in a fatal error, whatever it is asked for. -/
structure NeverFatal (loc : Locale) (db : Store) : Prop where
  lookup : ∀ page section? exact matchCase, ∃ infos, dblookup loc db page section? exact matchCase = .ok infos
  delete : ∀ name info, ∃ result, dbdelete loc db name info = .ok result
  pattern : ∀ pattern section? tryDescriptions,
    ∃ infos, dblookupPattern db pattern section? tryDescriptions = .ok infos

/-- Only pages are stored: the invariant of the runs. -/
structure PagesOnly (loc : Locale) (db : Store) : Prop where
  wf : WellFormed loc db
  plain : ∀ key, key.head? = some dollar → db.fetch key = none

variable {loc : Locale} {db db' : Store} {data info : Mandata} {base name : Bytes} {g : Group}

theorem PagesOnly.head_ne_dollar (only : PagesOnly loc db) {key cont : Bytes} (atKey : db.fetch key = some cont) :
    key.head? ≠ some dollar := by
  intro special
  rw [only.plain key special] at atKey
  cases atKey

theorem PagesOnly.pageName (only : PagesOnly loc db) {key cont : Bytes} (tabFree : tab ∉ key)
    (atKey : db.fetch key = some cont) : PageName key := by
  refine ⟨?_, tabFree, only.head_ne_dollar atKey⟩
  rintro rfl
  rw [only.wf.nonempty] at atKey
  cases atKey

theorem PagesOnly.content (only : PagesOnly loc db) {key cont : Bytes} (atKey : db.fetch key = some cont) :
    PageName key ∨ ∃ found : Mandata, found.Stored ∧ found.name = none ∧ cont = makeContent found := by
  by_cases tabbed : tab ∈ key
  · exact Or.inr (only.wf.tabbed_record tabbed (only.head_ne_dollar atKey) atKey)
  · exact Or.inl (only.pageName tabbed atKey)

theorem PagesOnly.invariant (only : PagesOnly loc db) : IndexInvariant loc db where
  simple k cont tabFree atKey := by
    obtain ⟨g, ok, holds⟩ := only.wf.group (only.pageName tabFree atKey)
    have simple := holds.simple
    rw [atKey] at simple
    match g, ok, holds, simple with
    | .singular found, ok, _, simple =>
      cases Option.some.inj simple
      exact Or.inl ⟨isIndex_makeContent ok.2.1, found, ok.1.split ok.2.1⟩
    | .indexed refs record, ok, holds, simple =>
      cases Option.some.inj simple
      rw [ok.members]
      refine Or.inr ⟨isIndex_makeExtensionsReference ok.1, ok.1, ok.2.1, rfl, fun ref member => ?_⟩
      obtain ⟨clean, belongs, isStored, unnamed, ext⟩ := ok.2.2 ref member
      have multi := holds.multi ref clean belongs
      simp only [Group.multiContent, if_pos member] at multi
      exact ⟨belongs, _, _, multi, isStored.split (unnamed ▸ nameField_none), ext⟩
  multi key cont tabbed atKey := by
    obtain ⟨ref, index, clean, same, listed⟩ := only.wf.multi key cont tabbed (only.head_ne_dollar atKey) atKey
    exact ⟨ref, index, clean.1.2.1, same, listed⟩

theorem mapM_ok {α β ε : Type} {f : α → Except ε β} {xs : List α} (each : ∀ x ∈ xs, ∃ y, f x = .ok y) :
    ∃ ys, xs.mapM f = .ok ys := by
  induction xs with
  | nil => exact ⟨[], rfl⟩
  | cons x xs ih =>
    obtain ⟨y, atHead⟩ := each x (List.mem_cons_self ..)
    obtain ⟨ys, atTail⟩ := ih (fun z member => each z (List.mem_cons_of_mem _ member))
    refine ⟨y :: ys, ?_⟩
    simp only [List.mapM_cons, atHead, atTail]
    rfl

theorem PagesOnly.lookup (only : PagesOnly loc db) (page : Bytes) (section? : Option Bytes) (exact matchCase : Bool) :
    ∃ infos, dblookup loc db page section? exact matchCase = .ok infos := by
  cases atKey : db.fetch (nameToKey loc page) with
  | none => exact ⟨[], dblookup_absent atKey⟩
  | some cont =>
    rcases only.content atKey with pageKey | ⟨found, isStored, unnamed, rfl⟩
    · obtain ⟨g, ok, holds⟩ := only.wf.group pageKey
      have simple := holds.simple
      match g, ok, holds, simple with
      | .absent, _, _, simple => exact ⟨[], dblookup_absent simple⟩
      | .singular found, ok, _, simple => exact ⟨_, dblookup_record ok.1 ok.2.1 simple⟩
      | .indexed refs record, ok, holds, _ =>
        obtain ⟨infos, run, _⟩ := dblookup_indexed (pageName_nameToKey.mp pageKey) ok holds
        exact ⟨infos, run⟩
    · exact ⟨_, dblookup_record isStored (unnamed ▸ nameField_none) atKey⟩

/-- What one deletion does to an index of pages. -/
theorem PagesOnly.delete (only : PagesOnly loc db) (name : Bytes) (info : Mandata) :
    ∃ code db', dbdelete loc db name info = .ok (code, db') ∧ (tab ∉ name → PagesOnly loc db') := by
  cases atKey : db.fetch (nameToKey loc name) with
  | none => exact ⟨_, _, dbdelete_absent atKey, fun _ => only⟩
  | some cont =>
    by_cases pageKey : PageName (nameToKey loc name)
    · obtain ⟨g, ok, holds⟩ := only.wf.group pageKey
      obtain ⟨code, after, g', run, frame, ok', holds'⟩ := dbdelete_group (pageName_nameToKey.mp pageKey) ok holds
      refine ⟨code, after, run, fun _ => ⟨only.wf.update pageKey frame ok' holds', fun key special => ?_⟩⟩
      rw [frame key (fun owned => owned.head_ne_dollar pageKey special), only.plain key special]
    · obtain ⟨found, _, unnamed, rfl⟩ := (only.content atKey).resolve_left pageKey
      refine ⟨_, _, dbdelete_record atKey (isIndex_makeContent (unnamed ▸ nameField_none)), fun tabFree => ?_⟩
      refine absurd ⟨?_, ?_, ?_⟩ pageKey
      · intro empty
        rw [empty, only.wf.nonempty] at atKey
        cases atKey
      · simpa [nameToKey] using tabFree
      · intro special
        rw [only.plain _ special] at atKey
        cases atKey

theorem WellFormed.pattern (wf : WellFormed loc db) (pattern : PatternTest) (section? : Option Bytes)
    (tryDescriptions : Bool) : ∃ infos, dblookupPattern db pattern section? tryDescriptions = .ok infos := by
  have turn : ∀ key ∈ db.keys, ∃ found, patternPage db pattern section? tryDescriptions key = .ok found := by
    intro key member
    obtain ⟨cont, atKey⟩ := Store.mem_keys_iff.mp member
    unfold patternPage
    simp only [atKey]
    by_cases special : key.head? = some dollar
    · exact ⟨none, by rw [if_pos special]⟩
    · rw [if_neg special]
      cases index : isIndex cont with
      | true => exact ⟨none, rfl⟩
      | false =>
        obtain ⟨found, split⟩ := wf.readable atKey special index
        simp only [Bool.false_eq_true, if_false, split, bind, Except.bind]
        split
        · exact ⟨none, rfl⟩
        · exact ⟨_, rfl⟩
  obtain ⟨found, run⟩ := mapM_ok turn
  exact ⟨found.reduceOption, by simp [dblookupPattern, run, bind, Except.bind, pure, Except.pure]⟩

theorem PagesOnly.neverFatal (only : PagesOnly loc db) : NeverFatal loc db where
  lookup := only.lookup
  delete name info := by
    obtain ⟨code, db', run, _⟩ := only.delete name info
    exact ⟨_, run⟩
  pattern := only.wf.pattern

/-- A refused write is a clash with the record already there. -/
theorem refuses_iff_clash (ok : g.Ok loc (nameToKey loc base))
    (holds : Holds loc db (nameToKey loc base) g) :
    g.Refuses (nameToKey loc base) ⟨base, data.ext⟩ (stored data) ↔ (Op.store data base).Clash loc db := by
  have simple := holds.simple
  match g, ok, simple with
  | .absent, _, simple =>
    refine iff_of_false nofun ?_
    rintro ⟨cont, old, atKey, _⟩
    rw [simple] at atKey
    cases atKey
  | .singular found, ok, simple =>
    have pointer : found.unnamed.pointer = some (found.pointer.getD [dash]) :=
      (congrArg Mandata.pointer ok.1.filled).symm
    have fails : replaceAction (stored data) found.unnamed = .fail ↔ _ := replaceAction_fail_iff rfl pointer
    constructor
    · rintro ⟨different, refused⟩
      obtain ⟨id, mtime, samePointer, comp⟩ := fails.mp refused
      refine ⟨_, found, simple, isIndex_makeContent ok.2.1, ok.1.split ok.2.1, different, id.symm, mtime.symm, ?_, ?_⟩
      · exact pointer.trans (congrArg some samePointer.symm)
      · exact fun same => comp same.symm
    · rintro ⟨cont, old, atKey, _, split, different, id, mtime, samePointer, comp⟩
      cases Option.some.inj (simple.symm.trans atKey)
      rw [ok.1.split ok.2.1, Except.ok.injEq] at split
      subst split
      refine ⟨different, fails.mpr ⟨id.symm, mtime.symm, ?_, fun same => comp same.symm⟩⟩
      exact Option.some.inj (samePointer.symm.trans pointer)
  | .indexed refs record, ok, simple =>
    refine iff_of_false nofun ?_
    rintro ⟨cont, old, atKey, notIndex, _⟩
    cases Option.some.inj (simple.symm.trans atKey)
    rw [isIndex_makeExtensionsReference ok.1] at notIndex
    cases notIndex

theorem not_invariant_of_unwritten {index : Bytes} (ref : NameExt) (tabFree : tab ∉ nameToKey loc ref.name)
    (atKey : db.fetch (nameToKey loc ref.name) = some index) (isIdx : isIndex index = true)
    (listed : ref ∈ listExtensions index.tail) (unwritten : db.fetch (makeMultiKey ref.name ref.ext) = none) :
    ¬IndexInvariant loc db := by
  intro invariant
  rcases invariant.simple _ index tabFree atKey with ⟨record, _⟩ | ⟨_, _, _, _, members⟩
  · rw [isIdx] at record
    cases record
  · obtain ⟨_, multi, _, present, _⟩ := members ref listed
    rw [unwritten] at present
    cases present

/-- A clash leaves the old record under its multi key, and lists a pair that has none. -/
theorem dbstore_clash (page : PageName base) (clean : data.Clean)
    (ok : (Group.singular info).Ok loc (nameToKey loc base))
    (holds : Holds loc db (nameToKey loc base) (.singular info))
    (refuses : (Group.singular info).Refuses (nameToKey loc base) ⟨base, data.ext⟩ (stored data)) :
    ∃ db', dbstore loc db data base = .ok (1, db') ∧
      db'.fetch (nameToKey loc base) = some (makeExtensionsReference (SortedList.add nameExtCompare ⟨base, data.ext⟩
        (SortedList.add nameExtCompare (info.ref (nameToKey loc base)) []))) ∧
      db'.fetch (makeMultiKey (info.ref (nameToKey loc base)).name (info.ref (nameToKey loc base)).ext) =
        some (makeContent info.unnamed) ∧
      db'.fetch (makeMultiKey base data.ext) = none := by
  have pageKey : PageName (nameToKey loc base) := pageName_nameToKey.mpr page
  obtain ⟨different, refused⟩ := refuses
  have run := dbstore_reformat page.1 ok.1 ok.2.1 holds.simple different
  rw [replaceIfNecessary_fail refused] at run
  have oldClean := (Mandata.ref_clean pageKey ok).1
  refine ⟨_, run, Store.fetch_replace_self, ?_, ?_⟩
  · rw [fetch_multi_replace_simple pageKey, Store.fetch_replace_self]
  rw [fetch_multi_replace_simple pageKey,
    fetch_multi_replace_multi _ ⟨base, data.ext⟩ oldClean.1.2.1 page.2.1, if_neg different.symm]
  exact holds.multi ⟨base, data.ext⟩ ⟨page, clean.ext⟩ rfl

theorem dbstore_breaks_invariant (page : PageName base) (clean : data.Clean) (ok : g.Ok loc (nameToKey loc base))
    (holds : Holds loc db (nameToKey loc base) g)
    (refuses : g.Refuses (nameToKey loc base) ⟨base, data.ext⟩ (stored data)) :
    ∃ code db', dbstore loc db data base = .ok (code, db') ∧ ¬IndexInvariant loc db' := by
  match g, ok, holds, refuses with
  | .singular found, ok, holds, refuses =>
    obtain ⟨db', run, atKey, _, unwritten⟩ := dbstore_clash page clean ok holds refuses
    have pageKey : PageName (nameToKey loc base) := pageName_nameToKey.mpr page
    have offered := ok.store page clean
    simp only [Group.offer, if_neg refuses.1] at offered
    refine ⟨1, db', run, not_invariant_of_unwritten ⟨base, data.ext⟩ pageKey.2.1 atKey
      (isIndex_makeExtensionsReference (SortedList.add_ne_nil _ _)) ?_ unwritten⟩
    rw [offered.members]
    simp

/-- What one step does to an index of pages: it returns, and it keeps the
invariant precisely when it does not clash. -/
theorem PagesOnly.step (only : PagesOnly loc db) (op : Op) (allowed : op.Allowed) :
    ∃ code db', op.run loc db = .ok (code, db') ∧ (¬op.Clash loc db → PagesOnly loc db') ∧
      (op.Clash loc db → ¬IndexInvariant loc db') := by
  cases op with
  | store data base =>
    obtain ⟨page, clean⟩ := allowed
    have pageKey : PageName (nameToKey loc base) := pageName_nameToKey.mpr page
    obtain ⟨g, ok, holds⟩ := only.wf.group pageKey
    have clash : g.Refuses _ _ _ ↔ (Op.store data base).Clash loc db := refuses_iff_clash ok holds
    by_cases refuses : g.Refuses (nameToKey loc base) ⟨base, data.ext⟩ (stored data)
    · obtain ⟨code, db', run, broken⟩ := dbstore_breaks_invariant page clean ok holds refuses
      exact ⟨code, db', run, fun calm => absurd (clash.mp refuses) calm, fun _ => broken⟩
    · obtain ⟨code, db', outcome⟩ := dbstore_group page clean ok holds
      refine ⟨code, db', outcome.run, fun _ => ⟨outcome.wellFormed only.wf page clean ok refuses, ?_⟩,
        fun clashes => absurd (clash.mpr clashes) refuses⟩
      intro key special
      rw [outcome.frame key (fun owned => owned.head_ne_dollar pageKey special), only.plain key special]
  | delete name info =>
    obtain ⟨code, db', run, after⟩ := only.delete name info
    exact ⟨code, db', run, fun _ => after allowed, False.elim⟩

theorem Reach.pagesOnly (reach : Reach loc (fun db op => op.Allowed ∧ ¬op.Clash loc db) db) : PagesOnly loc db := by
  induction reach with
  | start => exact ⟨wellFormed_empty loc, fun key _ => by simp⟩
  | next _ meets run ih =>
    obtain ⟨code, after, other, keeps, _⟩ := ih.step _ meets.1
    rw [run, Except.ok.injEq, Prod.mk.injEq] at other
    rw [other.2]
    exact keeps meets.2

/-- In every run without a clash every store reached satisfies the invariant and
is read without a fatal error; and the next call always returns, and keeps the
invariant precisely when it is no clash. -/
theorem reach_invariant_iff (reach : Reach loc (fun db op => op.Allowed ∧ ¬op.Clash loc db) db) :
    IndexInvariant loc db ∧ NeverFatal loc db ∧
    ∀ op : Op, op.Allowed → ∃ code db', op.run loc db = .ok (code, db') ∧
      (IndexInvariant loc db' ∧ NeverFatal loc db' ↔ ¬op.Clash loc db) := by
  have only := reach.pagesOnly
  refine ⟨only.invariant, only.neverFatal, fun op allowed => ?_⟩
  obtain ⟨code, db', run, keeps, breaks⟩ := only.step op allowed
  refine ⟨code, db', run, fun fine clash => breaks clash fine.1, fun calm => ?_⟩
  exact ⟨(keeps calm).invariant, (keeps calm).neverFatal⟩

theorem reach_sampleStore (meets : Store → Op → Prop)
    (first : meets ∅ (.store (samplePage "1" ultMan 5 "-") (ascii "foo"))) : Reach .posix meets sampleStore :=
  .next .start first (rfl : Op.run .posix ∅ (.store (samplePage "1" ultMan 5 "-") (ascii "foo")) = .ok
    (0, sampleStore))

theorem reach_invariant_iff_sample :
    Reach .posix (fun db op => op.Allowed ∧ ¬op.Clash .posix db) sampleStore ∧
    IndexInvariant .posix sampleStore ∧ NeverFatal .posix sampleStore := by
  have reach : Reach .posix (fun db op => op.Allowed ∧ ¬op.Clash .posix db) sampleStore := by
    refine reach_sampleStore _ ⟨by decide, ?_⟩
    rintro ⟨cont, old, atKey, _⟩
    rw [Store.fetch_empty] at atKey
    cases atKey
  exact ⟨reach, (reach_invariant_iff reach).1, (reach_invariant_iff reach).2.1⟩

/-- The compressed page foo(1x), of the same time as foo(1). -/
def clashingOp : Op := .store (samplePage "1x" ultMan 5 "gz") (ascii "foo")

/-- After foo(1) and the compressed foo(1x) the index lists foo(1x) without a
record, and every lookup of foo is fatal. -/
theorem reach_clash_fatal :
    ∃ db, Reach .posix (fun _ op => op.Allowed) db ∧ ¬IndexInvariant .posix db ∧
      dblookupAll .posix db (ascii "foo") none false = .error (.badFetch (ascii "foo\t1x")) := by
  have only : PagesOnly .posix sampleStore :=
    ⟨sampleStore_wellFormed, fun key special => Store.fetch_replace_of_ne (by rintro rfl; cases special)⟩
  have clash : clashingOp.Clash .posix sampleStore :=
    ⟨makeContent (stored (samplePage "1" ultMan 5 "-")), stored (samplePage "1" ultMan 5 "-"),
      by decide +kernel, by decide +kernel, by decide +kernel, by decide, rfl, rfl, rfl, by decide⟩
  have fatal : ((clashingOp.run .posix sampleStore).bind fun after =>
      dblookupAll .posix after.2 (ascii "foo") none false) = .error (.badFetch (ascii "foo\t1x")) := by
    decide +kernel
  obtain ⟨code, db, run, _, breaks⟩ := only.step clashingOp (by decide)
  rw [run] at fatal
  exact ⟨db, .next (reach_sampleStore _ (by decide)) (by decide : clashingOp.Allowed) run, breaks clash, fatal⟩

end ManDb
