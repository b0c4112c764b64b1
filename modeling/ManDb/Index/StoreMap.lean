import ManDb.Precedence
import ManDb.Index.StoreRefines

namespace ManDb

variable {loc : Locale} {db db' : Store} {data : Mandata} {base : Bytes}

/-- The record that stays for a pair: the new one if there was none, else the
preferred of the two. -/
def preferred (new : Mandata) : Option Mandata → Mandata
  | none => new
  | some old => if Prefers new old then new else old

/-- The abstract update of the map from pairs to records. -/
def offered (map : NameExt → Option Mandata) (ref : NameExt) (new : Mandata) : NameExt → Option Mandata :=
  Function.update map ref (some (preferred new (map ref)))

theorem settle_eq_preferred (new : Mandata) (old : Option Mandata) : settle new old = preferred new old := by
  cases old with
  | none => rfl
  | some old => simp only [settle, preferred, replaceAction_yes_iff]

theorem dbstore_accepted (wf : WellFormed loc db) (page : PageName base) (clean : data.Clean)
    (run : dbstore loc db data base = .ok (0, db')) :
    ∃ g : Group, g.Ok loc (nameToKey loc base) ∧ Holds loc db (nameToKey loc base) g ∧
      ¬g.Refuses (nameToKey loc base) ⟨base, data.ext⟩ (stored data) ∧ StoreOutcome loc db g data base 0 db' := by
  obtain ⟨g, ok, holds⟩ := wf.group (pageName_nameToKey.mpr page)
  obtain ⟨code, after, outcome⟩ := dbstore_group page clean ok holds
  have same := outcome.run
  rw [run, Except.ok.injEq, Prod.mk.injEq] at same
  obtain ⟨rfl, rfl⟩ := same
  refine ⟨g, ok, holds, fun refuses => ?_, outcome⟩
  exact absurd (outcome.refused refuses) (by decide)

theorem WellFormed.dbstore (wf : WellFormed loc db) (page : PageName base) (clean : data.Clean)
    (run : dbstore loc db data base = .ok (0, db')) : WellFormed loc db' := by
  obtain ⟨g, ok, _, accepted, outcome⟩ := dbstore_accepted wf page clean run
  exact outcome.wellFormed wf page clean ok accepted

/-- Whenever `dbstore` reports success the index is well-formed again and stands
for the old map with the new record offered for its pair, and for nothing else. -/
theorem dbstore_refines_offer (wf : WellFormed loc db) (page : PageName base) (clean : data.Clean)
    (run : dbstore loc db data base = .ok (0, db')) :
    WellFormed loc db' ∧ entry loc db' = offered (entry loc db) ⟨base, data.ext⟩ (stored data) := by
  obtain ⟨g, ok, holds, accepted, outcome⟩ := dbstore_accepted wf page clean run
  refine ⟨wf.dbstore page clean run, ?_⟩
  rw [outcome.entry wf page clean ok holds accepted, settle_eq_preferred]
  rfl

/-- A page in section 1 with the given extension, id, mtime and compression extension. -/
def samplePage (ext : String) (id : UInt8) (mtime : Int) (comp : String) : Mandata :=
  { name := none, ext := ascii ext, sec := ascii "1", id := id, pointer := none, comp := some (ascii comp)
    filter := none, whatis := none, mtime := ⟨mtime, 0⟩ }

/-- An index with one page, foo(1). -/
def sampleStore : Store :=
  Store.replace ∅ (ascii "foo") (makeContent (stored (samplePage "1" ultMan 5 "-")))

theorem sampleStore_wellFormed : WellFormed .posix sampleStore :=
  have run : dbstore .posix ∅ (samplePage "1" ultMan 5 "-") (ascii "foo") = .ok (0, sampleStore) := rfl
  (wellFormed_empty _).dbstore (by decide) (by decide) run

/-- The index that results from storing pages one after the other, as far as
`dbstore` accepts them. -/
def indexOf (loc : Locale) (pages : List (Bytes × Mandata)) : Store :=
  pages.foldl (fun db page =>
    match dbstore loc db page.2 page.1 with
    | .ok (0, db') => db'
    | _ => db) ∅

theorem indexOf_wellFormed {pages : List (Bytes × Mandata)}
    (proper : ∀ page ∈ pages, PageName page.1 ∧ page.2.Clean) :
    WellFormed loc (indexOf loc pages) := by
  refine List.foldlRecOn pages _ (wellFormed_empty loc) fun db wf page member => ?_
  split
  · rename_i run
    exact wf.dbstore (proper page member).1 (proper page member).2 run
  · exact wf

theorem exists_of_code {result : Except Fatal (Nat × Store)} {code : Nat}
    (returns : result.map Prod.fst = .ok code) : ∃ db, result = .ok (code, db) := by
  cases result with
  | error => cases returns
  | ok pair =>
    cases Except.ok.inj returns
    exact ⟨pair.2, rfl⟩

/-- Two case variants of one page, of which the second turns the first into an index. -/
theorem dbstore_refines_offer_variant :
    WellFormed .posix sampleStore ∧
    ∃ db, dbstore .posix sampleStore (samplePage "1" soMan 7 "gz") (ascii "Foo") = .ok (0, db) ∧
      WellFormed .posix db ∧
      entry .posix db = offered (entry .posix sampleStore) ⟨ascii "Foo", ascii "1"⟩
        (stored (samplePage "1" soMan 7 "gz")) := by
  have code : (dbstore .posix sampleStore (samplePage "1" soMan 7 "gz") (ascii "Foo")).map Prod.fst = .ok 0 := by
    decide +kernel
  obtain ⟨db, second⟩ := exists_of_code code
  exact ⟨sampleStore_wellFormed, db, second,
    dbstore_refines_offer sampleStore_wellFormed (by decide) (by decide) second⟩

end ManDb
