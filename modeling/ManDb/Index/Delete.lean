import Mathlib.Logic.Function.Basic
import ManDb.DbDelete
import ManDb.Index.StoreMap

namespace ManDb

/-- The group after the pair `ref` was deleted; a singular record goes whatever it is. -/
def Group.remove (ref : NameExt) : Group → Group
  | absent => absent
  | singular _ => absent
  | indexed refs record => if refs.erase ref = [] then absent else indexed (refs.erase ref) record

variable {loc : Locale} {db db' : Store} {g : Group} {ref : NameExt} {info : Mandata} {name k : Bytes}

theorem dbdelete_absent (atKey : db.fetch (nameToKey loc name) = none) :
    dbdelete loc db name info = .ok (noEntry, db) := by
  simp [dbdelete, atKey]

theorem dbdelete_record {cont : Bytes} (atKey : db.fetch (nameToKey loc name) = some cont)
    (record : isIndex cont = false) :
    dbdelete loc db name info = .ok (0, db.delete (nameToKey loc name)) := by
  simp [dbdelete, atKey, record]

theorem dbdelete_unlisted {refs : List NameExt} {record : NameExt → Mandata}
    (ok : (Group.indexed refs record).Ok loc (nameToKey loc name))
    (holds : Holds loc db (nameToKey loc name) (.indexed refs record)) (outside : ⟨name, info.ext⟩ ∉ refs) :
    dbdelete loc db name info = .ok (noEntry, db) := by
  have simple : db.fetch (nameToKey loc name) = some (makeExtensionsReference refs) := holds.simple
  have none : refs.idxOf? ⟨name, info.ext⟩ = none := List.idxOf?_eq_none_iff.mpr outside
  simp [dbdelete, simple, isIndex_makeExtensionsReference ok.1, ok.members, none]

theorem dbdelete_listed {refs : List NameExt} {record : NameExt → Mandata}
    (ok : (Group.indexed refs record).Ok loc (nameToKey loc name))
    (holds : Holds loc db (nameToKey loc name) (.indexed refs record)) (member : ⟨name, info.ext⟩ ∈ refs) :
    dbdelete loc db name info =
      .ok (0, if refs.erase ⟨name, info.ext⟩ = [] then
          (db.delete (makeMultiKey name info.ext)).delete (nameToKey loc name)
        else (db.delete (makeMultiKey name info.ext)).replace (nameToKey loc name)
          (makeExtensionsReference (refs.erase ⟨name, info.ext⟩))) := by
  have simple : db.fetch (nameToKey loc name) = some (makeExtensionsReference refs) := holds.simple
  have multi := holds.multi ⟨name, info.ext⟩ (ok.2.2 _ member).1 rfl
  simp only [Group.multiContent, if_pos member] at multi
  obtain ⟨i, atIndex⟩ : ∃ i, refs.idxOf? ⟨name, info.ext⟩ = some i := by
    rw [← Option.isSome_iff_exists, List.isSome_idxOf?]
    exact member
  have erased : refs.eraseIdx i = refs.erase ⟨name, info.ext⟩ := by
    rw [List.erase_eq_eraseIdx, atIndex]
  simp only [dbdelete, simple, isIndex_makeExtensionsReference ok.1, ok.members, atIndex, multi, erased]
  by_cases last : refs.erase ⟨name, info.ext⟩ = [] <;> simp [last]

theorem Group.Ok.remove (ok : g.Ok loc k) (ref : NameExt) : (g.remove ref).Ok loc k := by
  match g, ok with
  | .absent, _ => trivial
  | .singular _, _ => trivial
  | .indexed refs record, ok =>
    simp only [Group.remove]
    split
    · trivial
    · rename_i some
      exact ⟨some, ok.2.1.sublist List.erase_sublist,
        fun other member => ok.2.2 other (List.mem_of_mem_erase member)⟩

theorem Group.find_remove {refs : List NameExt} {record : NameExt → Mandata} (nodup : refs.Nodup)
    (other : NameExt) :
    ((Group.indexed refs record).remove ref).find k other =
      if other = ref then none else (Group.indexed refs record).find k other := by
  have inErased : other ∈ refs.erase ref ↔ other ≠ ref ∧ other ∈ refs := nodup.mem_erase_iff
  by_cases last : refs.erase ref = []
  · rw [last] at inErased
    simp only [Group.remove, if_pos last, Group.find]
    by_cases same : other = ref
    · simp [same]
    · have gone : other ∉ refs := fun member => by simpa using inErased.mpr ⟨same, member⟩
      simp [same, gone]
  · simp only [Group.remove, if_neg last, Group.find, inErased]
    by_cases same : other = ref <;> simp [same]

theorem dbdelete_holds {refs : List NameExt} {record : NameExt → Mandata} (page : PageName k)
    (ok : (Group.indexed refs record).Ok loc k) (holds : Holds loc db k (.indexed refs record)) (clean : ref.Clean) :
    Holds loc (if refs.erase ref = [] then (db.delete (makeMultiKey ref.name ref.ext)).delete k
      else (db.delete (makeMultiKey ref.name ref.ext)).replace k (makeExtensionsReference (refs.erase ref)))
      k ((Group.indexed refs record).remove ref) := by
  have nodup : refs.Nodup := ok.2.1.nodup
  have multi : ∀ other : NameExt, other.Clean → nameToKey loc other.name = k →
      (db.delete (makeMultiKey ref.name ref.ext)).fetch (makeMultiKey other.name other.ext) =
        if other ∈ refs.erase ref then some (makeContent (record other)) else none := by
    intro other otherClean belongs
    simp only [nodup.mem_erase_iff]
    by_cases same : other = ref
    · simp [same]
    · rw [Store.fetch_delete_of_ne, holds.multi other otherClean belongs]
      · simp [Group.multiContent, same]
      · intro sameKey
        obtain ⟨sameName, sameExt⟩ := makeMultiKey_inj otherClean.1.2.1 clean.1.2.1 sameKey
        exact same (by cases other; cases ref; simp_all)
  have away : ∀ other : NameExt, makeMultiKey other.name other.ext ≠ k :=
    fun other same => page.ne_multi _ _ same.symm
  by_cases last : refs.erase ref = []
  · simp only [if_pos last, Group.remove]
    refine ⟨by simp [Group.simpleContent], fun other otherClean belongs => ?_⟩
    rw [Store.fetch_delete_of_ne (away other), multi other otherClean belongs]
    simp [last, Group.multiContent]
  · simp only [if_neg last, Group.remove]
    refine ⟨by simp [Group.simpleContent], fun other otherClean belongs => ?_⟩
    rw [Store.fetch_replace_of_ne (away other), multi other otherClean belongs]
    rfl

theorem dbdelete_listed_frame (clean : ref.Clean) (belongs : nameToKey loc ref.name = k) (refs : List NameExt) :
    Frame loc k db (if refs.erase ref = [] then (db.delete (makeMultiKey ref.name ref.ext)).delete k
      else (db.delete (makeMultiKey ref.name ref.ext)).replace k (makeExtensionsReference (refs.erase ref))) := by
  have first := (Frame.refl loc k db).delete (owned_multi clean belongs)
  split
  · exact first.delete (owned_self _ _)
  · exact first.replace (owned_self _ _) _

/-- What one call of `dbdelete` does to the group of its key. -/
theorem dbdelete_group (page : PageName name) (ok : g.Ok loc (nameToKey loc name))
    (holds : Holds loc db (nameToKey loc name) g) :
    ∃ code db' g', dbdelete loc db name info = .ok (code, db') ∧ Frame loc (nameToKey loc name) db db' ∧
      g'.Ok loc (nameToKey loc name) ∧ Holds loc db' (nameToKey loc name) g' := by
  have pageKey : PageName (nameToKey loc name) := pageName_nameToKey.mpr page
  match g, ok, holds with
  | .absent, ok, holds => exact ⟨_, _, _, dbdelete_absent holds.simple, Frame.refl _ _ _, ok, holds⟩
  | .singular old, ok, holds =>
    refine ⟨_, _, .absent, dbdelete_record holds.simple (isIndex_makeContent ok.2.1),
      (Frame.refl _ _ _).delete (owned_self _ _), trivial, by simp [Group.simpleContent], ?_⟩
    intro ref clean belongs
    rw [Store.fetch_delete_of_ne (fun same => pageKey.ne_multi _ _ same.symm), holds.multi ref clean belongs]
    rfl
  | .indexed refs record, ok, holds =>
    by_cases member : (⟨name, info.ext⟩ : NameExt) ∈ refs
    · have clean := (ok.2.2 _ member).1
      exact ⟨_, _, _, dbdelete_listed ok holds member, dbdelete_listed_frame clean rfl refs,
        ok.remove ⟨name, info.ext⟩, dbdelete_holds pageKey ok holds clean⟩
    · exact ⟨_, _, _, dbdelete_unlisted ok holds member, Frame.refl _ _ _, ok, holds⟩

/-- `dbdelete` removes the entry it is asked for and no other, and reports an
entry that is not there without touching the index. -/
def DeletesExactly (loc : Locale) (db : Store) (name : Bytes) (info : Mandata) : Prop :=
  (entry loc db ⟨name, info.ext⟩ ≠ none → ∃ db', dbdelete loc db name info = .ok (0, db') ∧
    entry loc db' = Function.update (entry loc db) ⟨name, info.ext⟩ none) ∧
  (entry loc db ⟨name, info.ext⟩ = none → dbdelete loc db name info = .ok (noEntry, db))

/-- The content found under the lower-cased name is an index, or the record of
the very page that is asked for. -/
def SingularAsked (loc : Locale) (db : Store) (name : Bytes) (info : Mandata) : Prop :=
  ∀ cont, db.fetch (nameToKey loc name) = some cont → isIndex cont = false →
    PageName name ∧ ∃ found, splitContent cont = .ok found ∧
      found.ref (nameToKey loc name) = ⟨name, info.ext⟩

theorem deletesExactly_of_absent (atKey : db.fetch (nameToKey loc name) = none) :
    DeletesExactly loc db name info := by
  refine ⟨fun present => absurd ?_ present, fun _ => dbdelete_absent atKey⟩
  by_cases page : PageName name <;> simp [entry, page, atKey]

theorem not_deletesExactly_of_record {cont : Bytes} (atKey : db.fetch (nameToKey loc name) = some cont)
    (record : isIndex cont = false) (missing : entry loc db ⟨name, info.ext⟩ = none) :
    ¬DeletesExactly loc db name info := by
  intro exactly
  have same := exactly.2 missing
  rw [dbdelete_record atKey record, Except.ok.injEq, Prod.mk.injEq] at same
  exact absurd same.1 (by decide)

theorem deletesExactly_indexed {refs : List NameExt} {record : NameExt → Mandata} (wf : WellFormed loc db)
    (page : PageName name) (ok : (Group.indexed refs record).Ok loc (nameToKey loc name))
    (holds : Holds loc db (nameToKey loc name) (.indexed refs record)) : DeletesExactly loc db name info := by
  have pageKey : PageName (nameToKey loc name) := pageName_nameToKey.mpr page
  have found := entry_eq_find ⟨name, info.ext⟩ page ok holds
  by_cases member : (⟨name, info.ext⟩ : NameExt) ∈ refs
  · refine ⟨fun _ => ⟨_, dbdelete_listed ok holds member, ?_⟩, fun missing => ?_⟩
    · have clean := (ok.2.2 _ member).1
      exact entry_update wf pageKey (dbdelete_listed_frame clean rfl refs) ok holds (ok.remove _)
        (dbdelete_holds pageKey ok holds clean) page rfl (fun other => Group.find_remove ok.2.1.nodup other)
    · simp [found, Group.find, member] at missing
  · refine ⟨fun present => absurd ?_ present, fun _ => dbdelete_unlisted ok holds member⟩
    simp [found, Group.find, member]

theorem Mandata.ref_pageName {old : Mandata} (page : PageName k) (ok : (Group.singular old).Ok loc k) :
    PageName (old.ref k).name := by
  have belongs : nameToKey loc (old.ref k).name = k := ok.2.2
  rw [← belongs] at page
  exact pageName_nameToKey.mp page

theorem entry_delete_singular {old : Mandata} (wf : WellFormed loc db) (page : PageName k)
    (ok : (Group.singular old).Ok loc k) (holds : Holds loc db k (.singular old)) :
    WellFormed loc (db.delete k) ∧ entry loc (db.delete k) = Function.update (entry loc db) (old.ref k) none := by
  have frame : Frame loc k db (db.delete k) := (Frame.refl _ _ _).delete (owned_self _ _)
  have gone : Holds loc (db.delete k) k .absent := by
    refine ⟨by simp [Group.simpleContent], fun ref clean belongs => ?_⟩
    rw [Store.fetch_delete_of_ne (fun h => page.ne_multi _ _ h.symm), holds.multi ref clean belongs]
    rfl
  have absent : Group.absent.Ok loc k := trivial
  refine ⟨wf.update page frame absent gone, ?_⟩
  refine entry_update wf page frame ok holds absent gone (Mandata.ref_pageName page ok) ok.2.2 fun other => ?_
  by_cases same : other = old.ref k <;> simp [Group.find, same]

theorem deletesExactly_singular {old : Mandata} (wf : WellFormed loc db) (page : PageName name)
    (ok : (Group.singular old).Ok loc (nameToKey loc name))
    (holds : Holds loc db (nameToKey loc name) (.singular old)) :
    DeletesExactly loc db name info ↔ old.ref (nameToKey loc name) = ⟨name, info.ext⟩ := by
  have pageKey : PageName (nameToKey loc name) := pageName_nameToKey.mpr page
  have found := entry_eq_find ⟨name, info.ext⟩ page ok holds
  have record := isIndex_makeContent ok.2.1
  constructor
  · intro exactly
    by_contra different
    refine not_deletesExactly_of_record holds.simple record ?_ exactly
    rw [found]
    exact if_neg (fun same => different same.symm)
  · intro same
    refine ⟨fun _ => ⟨_, dbdelete_record holds.simple record, ?_⟩, fun missing => ?_⟩
    · rw [← same]
      exact (entry_delete_singular wf pageKey ok holds).2
    · simp [found, Group.find, same] at missing

/-- On a well-formed index the deletion is exact precisely when the singular
branch, which does not look at the request, meets the page it is asked for. -/
theorem dbdelete_exact_iff (wf : WellFormed loc db) (name : Bytes) (info : Mandata) :
    DeletesExactly loc db name info ↔ SingularAsked loc db name info := by
  cases atKey : db.fetch (nameToKey loc name) with
  | none => exact iff_of_true (deletesExactly_of_absent atKey) (fun cont h => by simp [atKey] at h)
  | some cont =>
    by_cases page : PageName name
    · have pageKey : PageName (nameToKey loc name) := pageName_nameToKey.mpr page
      obtain ⟨g, ok, holds⟩ := wf.group pageKey
      have simple := holds.simple
      match g, ok, holds, simple with
      | .absent, _, _, simple => simp [atKey, Group.simpleContent] at simple
      | .singular old, ok, holds, simple =>
        rw [deletesExactly_singular wf page ok holds]
        constructor
        · intro same found atFound _
          rw [simple, Group.simpleContent, Option.some.injEq] at atFound
          subst atFound
          exact ⟨page, old, ok.1.split ok.2.1, same⟩
        · intro asked
          obtain ⟨_, found, split, same⟩ := asked _ simple (isIndex_makeContent ok.2.1)
          rw [ok.1.split ok.2.1, Except.ok.injEq] at split
          exact split ▸ same
      | .indexed refs record, ok, holds, simple =>
        refine iff_of_true (deletesExactly_indexed wf page ok holds) (fun found atFound notIndex => ?_)
        rw [simple, Group.simpleContent, Option.some.injEq] at atFound
        rw [← atFound, isIndex_makeExtensionsReference ok.1] at notIndex
        cases notIndex
    · have record : isIndex cont = false := by
        rcases wf.not_pageName page atKey with ⟨_, plain⟩ | ⟨found, _, unnamed, rfl⟩
        · exact isIndex_plain plain
        · exact isIndex_makeContent (unnamed ▸ nameField_none)
      refine iff_of_false (not_deletesExactly_of_record atKey record (by simp [entry, page])) ?_
      intro asked
      exact page (asked cont atKey record).1

theorem dbdelete_exact_iff_asked :
    WellFormed .posix sampleStore ∧
    DeletesExactly .posix sampleStore (ascii "foo") (samplePage "1" ultMan 5 "-") := by
  refine ⟨sampleStore_wellFormed, (dbdelete_exact_iff sampleStore_wellFormed _ _).mpr ?_⟩
  intro cont atKey _
  have same : makeContent (stored (samplePage "1" ultMan 5 "-")) = cont := Option.some.inj atKey
  subst same
  exact ⟨by decide, stored (samplePage "1" ultMan 5 "-"), by decide +kernel, by decide⟩

/-- Updating foo(3) in an index that only has foo(1) deletes foo(1). -/
theorem dbdelete_removes_other_section :
    WellFormed .posix sampleStore ∧
    ¬DeletesExactly .posix sampleStore (ascii "foo") (samplePage "3" ultMan 5 "-") :=
  have atKey : sampleStore.fetch (nameToKey .posix (ascii "foo")) =
      some (makeContent (stored (samplePage "1" ultMan 5 "-"))) := by decide +kernel
  ⟨sampleStore_wellFormed, not_deletesExactly_of_record atKey (by decide +kernel) (by decide +kernel)⟩

end ManDb
