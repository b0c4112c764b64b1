import Mathlib.Logic.Function.Basic
import ManDb.Index.StoreSituations
import ManDb.Index.WellFormed

namespace ManDb

/-- The group after a record was offered for the pair `ref`. -/
def Group.offer (k : Bytes) (ref : NameExt) (new : Mandata) : Group → Group
  | absent => singular (new.named ref.name k)
  | singular info =>
    if info.ref k = ref then
      if replaceAction new info = .yes then singular (new.named ref.name k) else singular info
    else
      indexed (SortedList.add nameExtCompare ref (SortedList.add nameExtCompare (info.ref k) []))
        (Function.update (fun _ => info.unnamed) ref new)
  | indexed refs record =>
    if ref ∈ refs then
      if replaceAction new (record ref) = .yes then indexed refs (Function.update record ref new)
      else indexed refs record
    else indexed (SortedList.add nameExtCompare ref refs) (Function.update record ref new)

/-- The reformatting of a singular record in which `replace_if_necessary` compares
the new page with the page already there, and refuses the write. -/
def Group.Refuses (k : Bytes) (ref : NameExt) (new : Mandata) : Group → Prop
  | singular info => info.ref k ≠ ref ∧ replaceAction new info.unnamed = .fail
  | _ => False

/-- The record that stays for a pair when a new one is offered. -/
def settle (new : Mandata) : Option Mandata → Mandata
  | none => new
  | some old => if replaceAction new old = .yes then new else old

variable {loc : Locale} {db db' : Store} {g : Group} {ref : NameExt} {new data : Mandata} {base : Bytes}

theorem indexed_ok_add {refs : List NameExt} {record : NameExt → Mandata} {k : Bytes}
    (strict : SortedList.Strict nameExtCompare refs) (fresh : ref ∉ refs) (clean : ref.Clean)
    (belongs : nameToKey loc ref.name = k) (isStored : new.Stored) (unnamed : new.name = none)
    (ext : new.ext = ref.ext)
    (members : ∀ other ∈ refs, other.Clean ∧ nameToKey loc other.name = k ∧
      (record other).Stored ∧ (record other).name = none ∧ (record other).ext = other.ext) :
    (Group.indexed (SortedList.add nameExtCompare ref refs) (Function.update record ref new)).Ok loc k := by
  refine ⟨SortedList.add_ne_nil _ _, strict.add fresh, fun other member => ?_⟩
  rw [Function.update_apply]
  rcases SortedList.mem_add.mp member with same | old
  · rw [if_pos same]
    subst same
    exact ⟨clean, belongs, isStored, unnamed, ext⟩
  · have different : other ≠ ref := by rintro rfl; exact fresh old
    rw [if_neg different]
    exact members other old

theorem Mandata.ref_clean {info : Mandata} {k : Bytes} (page : PageName k)
    (ok : (Group.singular info).Ok loc k) : (info.ref k).Clean ∧ nameToKey loc (info.ref k).name = k := by
  obtain ⟨isStored, _, belongs⟩ := ok
  refine ⟨⟨?_, isStored.clean.ext⟩, belongs⟩
  rw [← belongs] at page
  exact pageName_nameToKey.mp page

theorem Group.Ok.offer (ok : g.Ok loc (nameToKey loc ref.name)) (clean : ref.Clean) (isStored : new.Stored)
    (unnamed : new.name = none) (ext : new.ext = ref.ext) :
    (g.offer (nameToKey loc ref.name) ref new).Ok loc (nameToKey loc ref.name) := by
  have single : (Group.singular (new.named ref.name (nameToKey loc ref.name))).Ok loc (nameToKey loc ref.name) := by
    refine ⟨isStored.named _ _, nameField_singularName clean.1, ?_⟩
    simp [Mandata.named, singularName_getD]
  cases g with
  | absent => exact single
  | singular info =>
    simp only [Group.offer]
    split
    · split
      · exact single
      · exact ok
    · rename_i different
      obtain ⟨oldClean, oldBelongs⟩ := Mandata.ref_clean (pageName_nameToKey.mpr clean.1) ok
      refine indexed_ok_add (by simp [SortedList.add, SortedList.Strict]) ?_ clean rfl isStored unnamed ext ?_
      · simpa [SortedList.add] using fun h => different h.symm
      · intro other member
        have same : other = info.ref (nameToKey loc ref.name) := by simpa [SortedList.add] using member
        subst same
        exact ⟨oldClean, oldBelongs, ok.1.unnamed, rfl, rfl⟩
  | indexed refs record =>
    simp only [Group.offer]
    split
    · rename_i member
      split
      · refine ⟨ok.1, ok.2.1, fun other inRefs => ?_⟩
        rw [Function.update_apply]
        split
        next same =>
          subst same
          exact ⟨clean, rfl, isStored, unnamed, ext⟩
        next => exact ok.2.2 other inRefs
      · exact ok
    · rename_i fresh
      exact indexed_ok_add ok.2.1 fresh clean rfl isStored unnamed ext ok.2.2

/-- Offering a record touches no other pair of the key. -/
theorem Group.find_offer (unnamed : new.name = none) (ext : new.ext = ref.ext) (k : Bytes) (other : NameExt) :
    (g.offer k ref new).find k other =
      if other = ref then some (settle new (g.find k ref)) else g.find k other := by
  have whole : (new.named ref.name k).ref k = ref := by simp [ext]
  have same : (new.named ref.name k).unnamed = new := by
    cases new
    simp_all [Mandata.named, Mandata.unnamed]
  cases g with
  | absent => simp [Group.offer, Group.find, whole, same, settle]
  | singular info =>
    simp only [Group.offer]
    by_cases sameRef : info.ref k = ref
    · have action : replaceAction new info.unnamed = replaceAction new info := rfl
      by_cases replaced : replaceAction new info = .yes
      · by_cases atRef : other = ref
        · simp [sameRef, replaced, Group.find, whole, same, settle, action, atRef]
        · simp [sameRef, replaced, Group.find, whole, atRef]
      · by_cases atRef : other = ref
        · simp [sameRef, replaced, Group.find, settle, action, atRef]
        · simp [sameRef, replaced, Group.find, atRef]
    · have apart : ref ≠ info.ref k := fun h => sameRef h.symm
      simp only [if_neg sameRef, Group.find, SortedList.add, Function.update_apply, apart,
        if_false, settle, List.orderedInsert_nil, List.mem_orderedInsert, List.mem_singleton]
      by_cases atRef : other = ref
      · simp [atRef]
      · simp [atRef]
  | indexed refs record =>
    simp only [Group.offer]
    by_cases member : ref ∈ refs
    · by_cases replaced : replaceAction new (record ref) = .yes
      · by_cases atRef : other = ref
        · subst atRef
          simp [member, replaced, Group.find, settle]
        · simp [member, replaced, Group.find, atRef]
      · by_cases atRef : other = ref
        · subst atRef
          simp [member, replaced, Group.find, settle]
        · simp [member, replaced, Group.find, atRef]
    · by_cases atRef : other = ref
      · subst atRef
        simp [member, Group.find, settle]
      · simp [member, Group.find, atRef]

theorem fetch_simple_replace_multi {k n e content : Bytes} (page : PageName k) :
    (db.replace (makeMultiKey n e) content).fetch k = db.fetch k :=
  Store.fetch_replace_of_ne (page.ne_multi n e)

theorem fetch_multi_replace_simple {k n e content : Bytes} (page : PageName k) :
    (db.replace k content).fetch (makeMultiKey n e) = db.fetch (makeMultiKey n e) :=
  Store.fetch_replace_of_ne (fun same => page.ne_multi n e same.symm)

theorem fetch_multi_replace_multi (ref other : NameExt) {content : Bytes} (clean : tab ∉ ref.name)
    (cleanOther : tab ∉ other.name) :
    (db.replace (makeMultiKey ref.name ref.ext) content).fetch (makeMultiKey other.name other.ext) =
      if other = ref then some content else db.fetch (makeMultiKey other.name other.ext) := by
  by_cases same : other = ref
  · subst same
    simp
  · rw [if_neg same, Store.fetch_replace_of_ne]
    intro sameKey
    obtain ⟨sameName, sameExt⟩ := makeMultiKey_inj cleanOther clean sameKey
    exact same (by cases other; cases ref; simp_all)

/-- What one call of `dbstore` does, seen from the group of its key: nothing
happens elsewhere, and unless the write is refused the record is offered. -/
structure StoreOutcome (loc : Locale) (db : Store) (g : Group) (data : Mandata) (base : Bytes)
    (code : Nat) (db' : Store) : Prop where
  run : dbstore loc db data base = .ok (code, db')
  frame : Frame loc (nameToKey loc base) db db'
  refused : g.Refuses (nameToKey loc base) ⟨base, data.ext⟩ (stored data) → code = 1
  held : ¬g.Refuses (nameToKey loc base) ⟨base, data.ext⟩ (stored data) →
    Holds loc db' (nameToKey loc base) (g.offer (nameToKey loc base) ⟨base, data.ext⟩ (stored data))

theorem dbstore_group_absent (page : PageName base) (holds : Holds loc db (nameToKey loc base) .absent) :
    ∃ code db', StoreOutcome loc db .absent data base code db' := by
  have pageKey : PageName (nameToKey loc base) := pageName_nameToKey.mpr page
  refine ⟨_, _, dbstore_absent page.1 holds.simple, (Frame.refl _ _ _).replace (owned_self _ _) _, nofun, ?_⟩
  intro _
  refine ⟨by simp [Group.offer, Group.simpleContent], fun ref clean belongs => ?_⟩
  rw [fetch_multi_replace_simple pageKey, holds.multi ref clean belongs]
  rfl

theorem dbstore_group_same {info : Mandata} (page : PageName base)
    (ok : (Group.singular info).Ok loc (nameToKey loc base))
    (holds : Holds loc db (nameToKey loc base) (.singular info))
    (same : info.ref (nameToKey loc base) = ⟨base, data.ext⟩) :
    ∃ code db', StoreOutcome loc db (.singular info) data base code db' := by
  have pageKey : PageName (nameToKey loc base) := pageName_nameToKey.mpr page
  have run := dbstore_same page.1 ok.1 ok.2.1 holds.simple same
  rw [replaceIfNecessary_present holds.simple] at run
  refine ⟨_, _, run, ?_, fun refuses => absurd same refuses.1, fun _ => ?_⟩
  · split
    · exact (Frame.refl _ _ _).replace (owned_self _ _) _
    · exact Frame.refl _ _ _
  · simp only [Group.offer, if_pos same]
    split
    · refine ⟨by simp [Group.simpleContent], fun ref clean belongs => ?_⟩
      rw [fetch_multi_replace_simple pageKey, holds.multi ref clean belongs]
      rfl
    · exact holds

theorem dbstore_group_reformat {info : Mandata} (page : PageName base) (clean : data.Clean)
    (ok : (Group.singular info).Ok loc (nameToKey loc base))
    (holds : Holds loc db (nameToKey loc base) (.singular info))
    (different : info.ref (nameToKey loc base) ≠ ⟨base, data.ext⟩) :
    ∃ code db', StoreOutcome loc db (.singular info) data base code db' := by
  have pageKey : PageName (nameToKey loc base) := pageName_nameToKey.mpr page
  have cleanRef : NameExt.Clean ⟨base, data.ext⟩ := ⟨page, clean.ext⟩
  have run := dbstore_reformat page.1 ok.1 ok.2.1 holds.simple different
  obtain ⟨oldClean, oldBelongs⟩ := Mandata.ref_clean pageKey ok
  have absent : (db.replace (makeMultiKey (info.ref (nameToKey loc base)).name
      (info.ref (nameToKey loc base)).ext) (makeContent info.unnamed)).fetch
      (makeMultiKey base data.ext) = none := by
    rw [fetch_multi_replace_multi _ ⟨base, data.ext⟩ oldClean.1.2.1 page.2.1, if_neg different.symm]
    exact holds.multi ⟨base, data.ext⟩ cleanRef rfl
  have moved := (Frame.refl loc _ db).replace (owned_multi oldClean oldBelongs) (makeContent info.unnamed)
  by_cases refused : replaceAction (stored data) info.unnamed = .fail
  · rw [replaceIfNecessary_fail refused] at run
    exact ⟨_, _, run, moved.replace (owned_self _ _) _, fun _ => rfl, fun h => absurd ⟨different, refused⟩ h⟩
  · rw [replaceIfNecessary_absent absent refused] at run
    have ownedMulti : Owned loc (nameToKey loc base) (makeMultiKey base data.ext) := owned_multi cleanRef rfl
    refine ⟨_, _, run, (moved.replace ownedMulti _).replace (owned_self _ _) _,
      fun refuses => absurd refuses.2 refused, fun _ => ?_⟩
    simp only [Group.offer, if_neg different]
    refine ⟨by simp [Group.simpleContent], fun ref refClean belongs => ?_⟩
    rw [fetch_multi_replace_simple pageKey,
      fetch_multi_replace_multi ⟨base, data.ext⟩ ref page.2.1 refClean.1.2.1,
      fetch_multi_replace_multi _ ref oldClean.1.2.1 refClean.1.2.1, holds.multi ref refClean belongs]
    simp only [Group.multiContent, Function.update_apply, SortedList.add,
      List.orderedInsert_nil, List.mem_orderedInsert, List.mem_singleton]
    by_cases atNew : ref = ⟨base, data.ext⟩
    · simp [atNew]
    · by_cases atOld : ref = info.ref (nameToKey loc base)
      · simp [atOld, different]
      · simp [atNew, atOld]

theorem dbstore_group_indexed {refs : List NameExt} {record : NameExt → Mandata} (page : PageName base)
    (clean : data.Clean) (ok : (Group.indexed refs record).Ok loc (nameToKey loc base))
    (holds : Holds loc db (nameToKey loc base) (.indexed refs record)) :
    ∃ code db', StoreOutcome loc db (.indexed refs record) data base code db' := by
  have pageKey : PageName (nameToKey loc base) := pageName_nameToKey.mpr page
  have cleanRef : NameExt.Clean ⟨base, data.ext⟩ := ⟨page, clean.ext⟩
  have ownedMulti : Owned loc (nameToKey loc base) (makeMultiKey base data.ext) := owned_multi cleanRef rfl
  have isIdx := isIndex_makeExtensionsReference ok.1
  have atMulti := holds.multi ⟨base, data.ext⟩ cleanRef rfl
  -- every multi key after the record was written under its own
  have written : ∀ content ref, NameExt.Clean ref → nameToKey loc ref.name = nameToKey loc base →
      (db.replace (makeMultiKey base data.ext) content).fetch (makeMultiKey ref.name ref.ext) =
        if ref = ⟨base, data.ext⟩ then some content else (Group.indexed refs record).multiContent ref := by
    intro content ref refClean belongs
    rw [fetch_multi_replace_multi ⟨base, data.ext⟩ ref page.2.1 refClean.1.2.1, holds.multi ref refClean belongs]
  by_cases member : (⟨base, data.ext⟩ : NameExt) ∈ refs
  · obtain ⟨_, _, oldStored, oldUnnamed, _⟩ := ok.2.2 _ member
    simp only [Group.multiContent, if_pos member] at atMulti
    have run := dbstore_listed page.1 holds.simple isIdx oldStored (oldUnnamed ▸ nameField_none) atMulti
    rw [replaceIfNecessary_present atMulti] at run
    refine ⟨_, _, run, ?_, False.elim, fun _ => ?_⟩
    · split
      · exact (Frame.refl _ _ _).replace ownedMulti _
      · exact Frame.refl _ _ _
    · simp only [Group.offer, if_pos member]
      split
      · refine ⟨?_, fun ref refClean belongs => ?_⟩
        · rw [fetch_simple_replace_multi pageKey, holds.simple]
          rfl
        · rw [written _ ref refClean belongs]
          simp only [Group.multiContent, Function.update_apply]
          by_cases atNew : ref = ⟨base, data.ext⟩
          · simp [atNew, member]
          · simp [atNew]
      · exact holds
  · simp only [Group.multiContent, if_neg member] at atMulti
    have run := dbstore_unlisted page.1 holds.simple isIdx atMulti
    refine ⟨_, _, run, ((Frame.refl _ _ _).replace ownedMulti _).replace (owned_self _ _) _, False.elim,
      fun _ => ?_⟩
    simp only [Group.offer, if_neg member]
    refine ⟨by simp [Group.simpleContent, ok.members], fun ref refClean belongs => ?_⟩
    rw [fetch_multi_replace_simple pageKey, written _ ref refClean belongs]
    simp only [Group.multiContent, SortedList.mem_add, Function.update_apply]
    by_cases atNew : ref = ⟨base, data.ext⟩
    · simp [atNew]
    · simp [atNew]

/-- One call of `dbstore`, whatever layout it finds. -/
theorem dbstore_group (page : PageName base) (clean : data.Clean) (ok : g.Ok loc (nameToKey loc base))
    (holds : Holds loc db (nameToKey loc base) g) : ∃ code db', StoreOutcome loc db g data base code db' := by
  match g, ok, holds with
  | .absent, _, holds => exact dbstore_group_absent page holds
  | .singular info, ok, holds =>
    by_cases same : info.ref (nameToKey loc base) = ⟨base, data.ext⟩
    · exact dbstore_group_same page ok holds same
    · exact dbstore_group_reformat page clean ok holds same
  | .indexed refs record, ok, holds => exact dbstore_group_indexed page clean ok holds

theorem Group.Ok.store (ok : g.Ok loc (nameToKey loc base)) (page : PageName base) (clean : data.Clean) :
    (g.offer (nameToKey loc base) ⟨base, data.ext⟩ (stored data)).Ok loc (nameToKey loc base) :=
  Group.Ok.offer ok ⟨page, clean.ext⟩ clean.toStored rfl rfl

theorem StoreOutcome.wellFormed {code : Nat} (outcome : StoreOutcome loc db g data base code db')
    (wf : WellFormed loc db) (page : PageName base) (clean : data.Clean) (ok : g.Ok loc (nameToKey loc base))
    (accepted : ¬g.Refuses (nameToKey loc base) ⟨base, data.ext⟩ (stored data)) : WellFormed loc db' :=
  wf.update (pageName_nameToKey.mpr page) outcome.frame (ok.store page clean) (outcome.held accepted)

theorem StoreOutcome.entry {code : Nat} (outcome : StoreOutcome loc db g data base code db')
    (wf : WellFormed loc db) (page : PageName base) (clean : data.Clean) (ok : g.Ok loc (nameToKey loc base))
    (holds : Holds loc db (nameToKey loc base) g)
    (accepted : ¬g.Refuses (nameToKey loc base) ⟨base, data.ext⟩ (stored data)) :
    entry loc db' = Function.update (entry loc db) ⟨base, data.ext⟩
      (some (settle (stored data) (entry loc db ⟨base, data.ext⟩))) := by
  refine entry_update wf (pageName_nameToKey.mpr page) outcome.frame ok holds (ok.store page clean)
    (outcome.held accepted) page rfl ?_
  intro other
  rw [Group.find_offer rfl rfl, entry_eq_find ⟨base, data.ext⟩ page ok holds]

end ManDb
