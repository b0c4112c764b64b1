import Mathlib.Tactic.Choose
import ManDb.Index.Group

namespace ManDb

/-- The representation invariant of the index. The content of a simple key is
one record, or a non-empty sorted list of pairs of which each has its multi key
with a record; every multi key is listed. Keys that start with '$' belong to the
database itself and hold a plain value. -/
structure WellFormed (loc : Locale) (db : Store) : Prop where
  simple : ∀ k cont, PageName k → db.fetch k = some cont →
    (∃ info : Mandata, info.Stored ∧ NameField info.name ∧ nameToKey loc (info.name.getD k) = k ∧
      cont = makeContent info) ∨
    (∃ refs, refs ≠ [] ∧ SortedList.Strict nameExtCompare refs ∧ cont = makeExtensionsReference refs ∧
      ∀ ref ∈ refs, ref.Clean ∧ nameToKey loc ref.name = k ∧
        ∃ info : Mandata, info.Stored ∧ info.name = none ∧ info.ext = ref.ext ∧
          db.fetch (makeMultiKey ref.name ref.ext) = some (makeContent info))
  multi : ∀ key cont, tab ∈ key → key.head? ≠ some dollar → db.fetch key = some cont →
    ∃ (ref : NameExt) (index : Bytes), ref.Clean ∧ key = makeMultiKey ref.name ref.ext ∧
      db.fetch (nameToKey loc ref.name) = some index ∧ isIndex index = true ∧
      ref ∈ listExtensions index.tail
  ident : ∀ key cont, key.head? = some dollar → db.fetch key = some cont → tab ∉ cont
  nonempty : db.fetch [] = none

/-- The finite map an index stands for: singular entries under their name field
or else their key, indexed entries under their multi key. -/
def entry (loc : Locale) (db : Store) (ref : NameExt) : Option Mandata :=
  if PageName ref.name then
    (db.fetch (nameToKey loc ref.name)).bind fun cont =>
      if isIndex cont then
        if ref ∈ listExtensions cont.tail then
          (db.fetch (makeMultiKey ref.name ref.ext)).bind (fun c => (splitContent c).toOption)
        else none
      else (splitContent cont).toOption.bind fun info =>
        if ref = info.ref (nameToKey loc ref.name) then some info.unnamed else none
  else none

variable {loc : Locale} {db db' : Store} {k key : Bytes} {g g' : Group}

theorem wellFormed_empty (loc : Locale) : WellFormed loc ∅ where
  simple k cont _ atKey := by simp at atKey
  multi key cont _ _ atKey := by simp at atKey
  ident key cont _ atKey := by simp at atKey
  nonempty := by simp

/-- The values the database keeps about itself are no part of the index. -/
theorem WellFormed.replace_ident (wf : WellFormed loc db) {cont : Bytes} (special : key.head? = some dollar)
    (plain : tab ∉ cont) : WellFormed loc (db.replace key cont) := by
  have kept : ∀ other, other.head? ≠ some dollar → (db.replace key cont).fetch other = db.fetch other := by
    intro other page
    refine Store.fetch_replace_of_ne ?_
    rintro rfl
    exact page special
  refine ⟨fun k content page atKey => ?_, fun other content tabbed page atKey => ?_,
    fun other content isSpecial atKey => ?_, ?_⟩
  · rw [kept k page.2.2] at atKey
    rcases wf.simple k content page atKey with single | ⟨refs, nonempty, strict, shape, members⟩
    · exact Or.inl single
    · refine Or.inr ⟨refs, nonempty, strict, shape, fun ref member => ?_⟩
      obtain ⟨clean, belongs, info, isStored, unnamed, ext, atMulti⟩ := members ref member
      exact ⟨clean, belongs, info, isStored, unnamed, ext, by rw [kept _ (head_makeMultiKey clean.1 _), atMulti]⟩
  · rw [kept other page] at atKey
    obtain ⟨ref, index, clean, same, atIndex, rest⟩ := wf.multi other content tabbed page atKey
    exact ⟨ref, index, clean, same, by rw [kept _ (pageName_nameToKey.mpr clean.1).2.2, atIndex], rest⟩
  · by_cases same : other = key
    · subst same
      rw [Store.fetch_replace_self] at atKey
      exact Option.some.inj atKey ▸ plain
    · rw [Store.fetch_replace_of_ne same] at atKey
      exact wf.ident other content isSpecial atKey
  · rw [kept [] (by simp), wf.nonempty]

theorem isIndex_makeContent {info : Mandata} (field : NameField info.name) :
    isIndex (makeContent info) = false := by
  simpa [isIndex] using head_makeContent field

theorem WellFormed.listed (wf : WellFormed loc db) {ref : NameExt} {cont : Bytes} (clean : ref.Clean)
    (present : db.fetch (makeMultiKey ref.name ref.ext) = some cont) :
    ∃ index, db.fetch (nameToKey loc ref.name) = some index ∧ isIndex index = true ∧
      ref ∈ listExtensions index.tail := by
  obtain ⟨other, index, otherClean, same, atIndex, indexed, member⟩ :=
    wf.multi _ cont tab_mem_makeMultiKey (head_makeMultiKey clean.1 _) present
  obtain ⟨sameName, sameExt⟩ := makeMultiKey_inj clean.1.2.1 otherClean.1.2.1 same
  have sameRef : other = ref := by cases other; cases ref; simp_all
  subst sameRef
  exact ⟨index, atIndex, indexed, member⟩

/-- Under every simple key a well-formed store holds a group. -/
theorem WellFormed.group (wf : WellFormed loc db) (page : PageName k) :
    ∃ g : Group, g.Ok loc k ∧ Holds loc db k g := by
  cases atKey : db.fetch k with
  | none =>
    refine ⟨.absent, trivial, atKey, fun ref clean belongs => ?_⟩
    by_contra present
    obtain ⟨cont, atMulti⟩ := Option.ne_none_iff_exists'.mp present
    obtain ⟨index, atIndex, _⟩ := wf.listed clean atMulti
    rw [belongs, atKey] at atIndex
    cases atIndex
  | some cont =>
    rcases wf.simple k cont page atKey with ⟨info, stored, field, belongs, rfl⟩ |
      ⟨refs, nonempty, strict, rfl, members⟩
    · refine ⟨.singular info, ⟨stored, field, belongs⟩, atKey, fun ref clean refKey => ?_⟩
      by_contra present
      obtain ⟨cont, atMulti⟩ := Option.ne_none_iff_exists'.mp present
      obtain ⟨index, atIndex, indexed, _⟩ := wf.listed clean atMulti
      rw [refKey, atKey, Option.some.injEq] at atIndex
      rw [← atIndex, isIndex_makeContent field] at indexed
      cases indexed
    · have records : ∀ ref, ∃ info : Mandata, ref ∈ refs → info.Stored ∧ info.name = none ∧
          info.ext = ref.ext ∧ db.fetch (makeMultiKey ref.name ref.ext) = some (makeContent info) := by
        intro ref
        by_cases member : ref ∈ refs
        · obtain ⟨info, facts⟩ := (members ref member).2.2
          exact ⟨info, fun _ => facts⟩
        · exact ⟨default, fun h => absurd h member⟩
      choose record facts using records
      have clean : ∀ ref ∈ refs, ref.Clean := fun ref member => (members ref member).1
      refine ⟨.indexed refs record, ⟨nonempty, strict, fun ref member => ?_⟩, atKey, fun ref isClean refKey => ?_⟩
      · obtain ⟨stored, unnamed, ext, _⟩ := facts ref member
        exact ⟨clean ref member, (members ref member).2.1, stored, unnamed, ext⟩
      · simp only [Group.multiContent]
        split
        next member => exact (facts ref member).2.2.2
        next outside =>
          by_contra present
          obtain ⟨cont, atMulti⟩ := Option.ne_none_iff_exists'.mp present
          obtain ⟨index, atIndex, _, member⟩ := wf.listed isClean atMulti
          rw [refKey, atKey, Option.some.injEq] at atIndex
          rw [← atIndex, listExtensions_sorted clean strict] at member
          exact outside member

theorem Group.Ok.members {refs : List NameExt} {record : NameExt → Mandata}
    (ok : (Group.indexed refs record).Ok loc k) : listExtensions (makeExtensionsReference refs).tail = refs :=
  listExtensions_sorted (fun ref member => (ok.2.2 ref member).1) ok.2.1

/-- What the invariant asks of a page's key, from a good group there. -/
theorem Holds.simple_field {cont : Bytes} (holds : Holds loc db k g) (ok : g.Ok loc k)
    (atKey : db.fetch k = some cont) :
    (∃ info : Mandata, info.Stored ∧ NameField info.name ∧ nameToKey loc (info.name.getD k) = k ∧
      cont = makeContent info) ∨
    (∃ refs, refs ≠ [] ∧ SortedList.Strict nameExtCompare refs ∧ cont = makeExtensionsReference refs ∧
      ∀ ref ∈ refs, ref.Clean ∧ nameToKey loc ref.name = k ∧
        ∃ info : Mandata, info.Stored ∧ info.name = none ∧ info.ext = ref.ext ∧
          db.fetch (makeMultiKey ref.name ref.ext) = some (makeContent info)) := by
  rw [holds.simple] at atKey
  match g, ok, holds, atKey with
  | .singular info, ok, _, atKey => exact Or.inl ⟨info, ok.1, ok.2.1, ok.2.2, (Option.some.inj atKey).symm⟩
  | .indexed refs record, ok, holds, atKey =>
    refine Or.inr ⟨refs, ok.1, ok.2.1, (Option.some.inj atKey).symm, fun ref member => ?_⟩
    obtain ⟨clean, belongs, stored, unnamed, ext⟩ := ok.2.2 ref member
    refine ⟨clean, belongs, record ref, stored, unnamed, ext, ?_⟩
    rw [holds.multi ref clean belongs]
    exact if_pos member

/-- A multi key of the group is listed in its index. -/
theorem Holds.multi_field {ref : NameExt} {cont : Bytes} (holds : Holds loc db k g) (ok : g.Ok loc k)
    (clean : ref.Clean) (belongs : nameToKey loc ref.name = k)
    (atKey : db.fetch (makeMultiKey ref.name ref.ext) = some cont) :
    ∃ index, db.fetch k = some index ∧ isIndex index = true ∧ ref ∈ listExtensions index.tail := by
  rw [holds.multi ref clean belongs] at atKey
  match g, ok, holds, atKey with
  | .indexed refs record, ok, holds, atKey =>
    have member : ref ∈ refs := by
      by_contra outside
      simp [Group.multiContent, outside] at atKey
    exact ⟨_, holds.simple, isIndex_makeExtensionsReference ok.1, ok.members.symm ▸ member⟩

/-- Conversely, a change under one key that leaves a good group there keeps the invariant. -/
theorem WellFormed.update (wf : WellFormed loc db) (page : PageName k) (frame : Frame loc k db db')
    (ok : g.Ok loc k) (holds : Holds loc db' k g) : WellFormed loc db' where
  simple key cont pageKey atKey := by
    by_cases same : key = k
    · subst same
      exact holds.simple_field ok atKey
    · rw [frame key (fun owned => same ((owned_pageName_iff pageKey).mp owned))] at atKey
      rcases wf.simple key cont pageKey atKey with single | ⟨refs, nonempty, strict, shape, members⟩
      · exact Or.inl single
      · refine Or.inr ⟨refs, nonempty, strict, shape, fun ref member => ?_⟩
        obtain ⟨clean, belongs, info, stored, unnamed, ext, atMulti⟩ := members ref member
        refine ⟨clean, belongs, info, stored, unnamed, ext, ?_⟩
        rw [frame _ (not_owned_multi page clean (belongs ▸ same)), atMulti]
  multi key cont tabbed plain atKey := by
    by_cases owned : Owned loc k key
    · rcases owned with rfl | ⟨ref, clean, belongs, rfl⟩
      · exact absurd tabbed page.2.1
      · obtain ⟨index, atIndex, listed⟩ := holds.multi_field ok clean belongs atKey
        exact ⟨ref, index, clean, rfl, belongs ▸ atIndex, listed⟩
    · rw [frame key owned] at atKey
      obtain ⟨ref, index, clean, rfl, atIndex, rest⟩ := wf.multi key cont tabbed plain atKey
      have elsewhere : nameToKey loc ref.name ≠ k := fun belongs => owned (owned_multi clean belongs)
      refine ⟨ref, index, clean, rfl, ?_, rest⟩
      rw [frame _ (fun h => elsewhere ((owned_pageName_iff (pageName_nameToKey.mpr clean.1)).mp h)), atIndex]
  ident key cont special atKey := by
    rw [frame key (fun owned => owned.head_ne_dollar page special)] at atKey
    exact wf.ident key cont special atKey
  nonempty := by
    rw [frame [] (fun owned => owned.ne_nil page rfl)]
    exact wf.nonempty

/-- The abstract map reads off the group of the pair's key. -/
theorem entry_eq_find (ref : NameExt) (page : PageName ref.name) (ok : g.Ok loc (nameToKey loc ref.name))
    (holds : Holds loc db (nameToKey loc ref.name) g) :
    entry loc db ref = g.find (nameToKey loc ref.name) ref := by
  unfold entry
  rw [if_pos page, holds.simple]
  match g, ok, holds with
  | .absent, _, _ => rfl
  | .singular info, ok, _ =>
    simp [Group.simpleContent, isIndex_makeContent ok.2.1, ok.1.split ok.2.1, Except.toOption, Group.find]
  | .indexed refs record, ok, holds =>
    simp only [Group.simpleContent, Option.bind_some, isIndex_makeExtensionsReference ok.1, if_true,
      ok.members, Group.find]
    split
    next member =>
      obtain ⟨clean, belongs, stored, unnamed, _⟩ := ok.2.2 ref member
      rw [holds.multi ref clean belongs]
      simp [Group.multiContent, member, stored.split (unnamed ▸ nameField_none), Except.toOption]
    next => rfl

theorem entry_frame (wf : WellFormed loc db) (page : PageName k) (frame : Frame loc k db db')
    {ref : NameExt} (elsewhere : nameToKey loc ref.name ≠ k) : entry loc db' ref = entry loc db ref := by
  by_cases pageRef : PageName ref.name
  · have pageKey : PageName (nameToKey loc ref.name) := pageName_nameToKey.mpr pageRef
    obtain ⟨g, ok, holds⟩ := wf.group pageKey
    rw [entry_eq_find ref pageRef ok holds,
      entry_eq_find ref pageRef ok (holds.frame frame page pageKey elsewhere)]
  · simp [entry, pageRef]

/-- A change under one key changes the abstract map as it changes that key's group. -/
theorem entry_update (wf : WellFormed loc db) (page : PageName k) (frame : Frame loc k db db')
    (ok : g.Ok loc k) (holds : Holds loc db k g) (ok' : g'.Ok loc k) (holds' : Holds loc db' k g')
    {ref : NameExt} {value : Option Mandata} (pageRef : PageName ref.name) (belongs : nameToKey loc ref.name = k)
    (effect : ∀ other, g'.find k other = if other = ref then value else g.find k other) :
    entry loc db' = Function.update (entry loc db) ref value := by
  funext other
  rw [Function.update_apply]
  by_cases same : nameToKey loc other.name = k
  · by_cases pageOther : PageName other.name
    · subst same
      rw [entry_eq_find other pageOther ok' holds', entry_eq_find other pageOther ok holds, effect]
    · have different : other ≠ ref := by rintro rfl; exact pageOther pageRef
      simp [entry, pageOther, different]
  · have different : other ≠ ref := by rintro rfl; exact same belongs
    rw [if_neg different, entry_frame wf page frame same]

theorem splitContent_plain {cont : Bytes} (plain : tab ∉ cont) : splitContent cont = .error (.onlyFields 1) := by
  simp [splitContent, fieldCount, splitData, Separated.cut_of_not_mem plain, Functor.map, Except.map]

theorem isIndex_plain {cont : Bytes} (plain : tab ∉ cont) : isIndex cont = false := by
  cases cont with
  | nil => rfl
  | cons b rest =>
    have different : b ≠ tab := fun same => plain (by simp [same])
    simp [isIndex, different]

/-- A name with a tab is a key of some page, or of none. -/
theorem WellFormed.tabbed_record (wf : WellFormed loc db) {key cont : Bytes} (tabbed : tab ∈ key)
    (plain : key.head? ≠ some dollar) (atKey : db.fetch key = some cont) :
    ∃ found : Mandata, found.Stored ∧ found.name = none ∧ cont = makeContent found := by
  obtain ⟨ref, index, clean, rfl, atIndex, indexed, member⟩ := wf.multi key cont tabbed plain atKey
  obtain ⟨g, ok, holds⟩ := wf.group (pageName_nameToKey.mpr clean.1)
  have simple := holds.simple
  rw [atIndex] at simple
  have multi := holds.multi ref clean rfl
  rw [atKey] at multi
  match g, ok, simple, multi with
  | .indexed refs record, ok, _, multi =>
    by_cases inRefs : ref ∈ refs
    · simp only [Group.multiContent, if_pos inRefs, Option.some.injEq] at multi
      obtain ⟨_, _, isStored, unnamed, _⟩ := ok.2.2 ref inRefs
      exact ⟨record ref, isStored, unnamed, multi⟩
    · simp [Group.multiContent, inRefs] at multi

/-- Under a name no page can have there is a plain value of the database, or the
record of some multi key. -/
theorem WellFormed.not_pageName (wf : WellFormed loc db) {page cont : Bytes} (notPage : ¬PageName page)
    (atKey : db.fetch (nameToKey loc page) = some cont) :
    ((nameToKey loc page).head? = some dollar ∧ tab ∉ cont) ∨
      ∃ found : Mandata, found.Stored ∧ found.name = none ∧ cont = makeContent found := by
  by_cases special : (nameToKey loc page).head? = some dollar
  · exact Or.inl ⟨special, wf.ident _ cont special atKey⟩
  · have tabbed : tab ∈ nameToKey loc page := by
      by_contra clean
      have pageKey : PageName (nameToKey loc page) :=
        ⟨fun empty => by simp [empty, wf.nonempty] at atKey, clean, special⟩
      exact notPage (pageName_nameToKey.mp pageKey)
    exact Or.inr (wf.tabbed_record tabbed special atKey)

/-- What the scans find under a key that is not the database's own. -/
theorem WellFormed.readable (wf : WellFormed loc db) {key cont : Bytes} (atKey : db.fetch key = some cont)
    (plain : key.head? ≠ some dollar) (notIndex : isIndex cont = false) : ∃ found, splitContent cont = .ok found := by
  by_cases tabbed : tab ∈ key
  · obtain ⟨found, isStored, unnamed, rfl⟩ := wf.tabbed_record tabbed plain atKey
    exact ⟨found, isStored.split (unnamed ▸ nameField_none)⟩
  · have page : PageName key := by
      refine ⟨?_, tabbed, plain⟩
      rintro rfl
      rw [wf.nonempty] at atKey
      cases atKey
    rcases wf.simple key cont page atKey with ⟨found, isStored, field, _, rfl⟩ | ⟨refs, nonempty, _, rfl, _⟩
    · exact ⟨found, isStored.split field⟩
    · rw [isIndex_makeExtensionsReference nonempty] at notIndex
      cases notIndex

end ManDb
