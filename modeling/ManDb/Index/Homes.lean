import ManDb.Index.Delete

namespace ManDb

/-- The key under which the record of a pair is kept: its multi key where the
simple key holds an index, else the simple key. -/
def home (loc : Locale) (db : Store) (ref : NameExt) : Bytes :=
  if (db.fetch (nameToKey loc ref.name)).any isIndex then makeMultiKey ref.name ref.ext
  else nameToKey loc ref.name

/-- A scan of the keys reads this record at `key`, and takes it for that of `ref`. -/
structure RecordAt (db : Store) (key : Bytes) (ref : NameExt) (info : Mandata) : Prop where
  plain : key.head? ≠ some dollar
  content : ∃ cont, db.fetch key = some cont ∧ isIndex cont = false ∧ splitContent cont = .ok info
  name : info.name.getD (Separated.cut tab key).1 = ref.name
  ext : info.ext = ref.ext

variable {loc : Locale} {db db' : Store} {g : Group} {ref other : NameExt} {info : Mandata} {k key cont : Bytes}

theorem RecordAt.unique {other : NameExt} {found : Mandata} (first : RecordAt db key ref info)
    (second : RecordAt db key other found) : ref = other ∧ info = found := by
  obtain ⟨cont, atKey, _, split⟩ := first.content
  obtain ⟨cont', atKey', _, split'⟩ := second.content
  have same : cont = cont' := Option.some.inj (atKey.symm.trans atKey')
  subst same
  have equal : info = found := Except.ok.inj (split.symm.trans split')
  subst equal
  refine ⟨?_, rfl⟩
  have names := first.name.symm.trans second.name
  have exts := first.ext.symm.trans second.ext
  cases ref
  cases other
  simp_all

theorem Holds.home_singular {old : Mandata} (ok : (Group.singular old).Ok loc k)
    (holds : Holds loc db k (.singular old))
    (belongs : nameToKey loc ref.name = k) : home loc db ref = k := by
  simp [home, belongs, holds.simple, Group.simpleContent, isIndex_makeContent ok.2.1]

theorem Holds.home_indexed {refs : List NameExt} {record : NameExt → Mandata}
    (ok : (Group.indexed refs record).Ok loc k) (holds : Holds loc db k (.indexed refs record))
    (belongs : nameToKey loc ref.name = k) : home loc db ref = makeMultiKey ref.name ref.ext := by
  simp [home, belongs, holds.simple, Group.simpleContent, isIndex_makeExtensionsReference ok.1]

theorem entry_pageName (present : entry loc db ref ≠ none) : PageName ref.name := by
  by_contra notPage
  exact present (by simp [entry, notPage])

/-- Every entry has its record at home. -/
theorem WellFormed.record_home (wf : WellFormed loc db) (present : entry loc db ref = some info) :
    ∃ found : Mandata, RecordAt db (home loc db ref) ref found ∧ found.unnamed = info := by
  have isThere : entry loc db ref ≠ none := by simp [present]
  have page : PageName ref.name := entry_pageName isThere
  have pageKey : PageName (nameToKey loc ref.name) := pageName_nameToKey.mpr page
  obtain ⟨g, ok, holds⟩ := wf.group pageKey
  rw [entry_eq_find ref page ok holds] at present
  have simple := holds.simple
  match g, ok, holds, simple, present with
  | .singular old, ok, holds, simple, present =>
    simp only [Group.find] at present
    split at present
    · rename_i same
      rw [holds.home_singular ok rfl]
      refine ⟨old, ⟨pageKey.2.2, ⟨_, simple, isIndex_makeContent ok.2.1, ok.1.split ok.2.1⟩, ?_,
        (congrArg NameExt.ext same).symm⟩, Option.some.inj present⟩
      rw [Separated.cut_of_not_mem pageKey.2.1]
      exact (congrArg NameExt.name same).symm
    · cases present
  | .indexed refs record, ok, holds, _, present =>
    simp only [Group.find] at present
    split at present
    · rename_i member
      obtain ⟨clean, belongs, isStored, unnamed, ext⟩ := ok.2.2 ref member
      have multi := holds.multi ref clean belongs
      simp only [Group.multiContent, if_pos member] at multi
      have field : NameField (record ref).name := unnamed ▸ nameField_none
      rw [holds.home_indexed ok rfl]
      refine ⟨record ref, ⟨head_makeMultiKey clean.1 _,
        ⟨_, multi, isIndex_makeContent field, isStored.split field⟩, ?_,
        ext⟩, ?_⟩
      · rw [unnamed, makeMultiKey, Separated.cut_append_cons clean.1.2.1]
        rfl
      · rw [← Option.some.inj present]
        simp [Mandata.unnamed, ← unnamed]
    · cases present

theorem WellFormed.home_inj {first second : Mandata} (wf : WellFormed loc db)
    (present : entry loc db ref = some first)
    (present' : entry loc db other = some second) (same : home loc db ref = home loc db other) : ref = other := by
  obtain ⟨_, record, _⟩ := wf.record_home present
  obtain ⟨_, record', _⟩ := wf.record_home present'
  rw [same] at record
  exact (record.unique record').1

/-- What a scan can find at a key: a record of its group. -/
inductive Kept (loc : Locale) (db : Store) (key : Bytes) (info : Mandata) : Prop
  | singular (page : PageName key) (ok : (Group.singular info).Ok loc key) (holds : Holds loc db key (.singular info))
  | indexed (ref : NameExt) (refs : List NameExt) (record : NameExt → Mandata) (clean : ref.Clean)
      (member : ref ∈ refs)
      (ok : (Group.indexed refs record).Ok loc (nameToKey loc ref.name))
      (holds : Holds loc db (nameToKey loc ref.name) (.indexed refs record))
      (atKey : key = makeMultiKey ref.name ref.ext) (isRecord : info = record ref)

theorem WellFormed.kept (wf : WellFormed loc db) (plain : key.head? ≠ some dollar) (atKey : db.fetch key = some cont)
    (notIndex : isIndex cont = false) (split : splitContent cont = .ok info) : Kept loc db key info := by
  by_cases tabbed : tab ∈ key
  · obtain ⟨ref, index, clean, rfl, atIndex, indexed, member⟩ := wf.multi key cont tabbed plain atKey
    obtain ⟨g, ok, holds⟩ := wf.group (pageName_nameToKey.mpr clean.1)
    have multi := holds.multi ref clean rfl
    rw [atKey] at multi
    cases g with
    | absent | singular => cases multi
    | indexed refs record =>
      by_cases inRefs : ref ∈ refs
      · simp only [Group.multiContent, if_pos inRefs, Option.some.injEq] at multi
        obtain ⟨_, _, isStored, unnamed, _⟩ := ok.2.2 ref inRefs
        rw [multi, isStored.split (unnamed ▸ nameField_none), Except.ok.injEq] at split
        exact .indexed ref refs record clean inRefs ok holds rfl split.symm
      · simp [Group.multiContent, inRefs] at multi
  · have page : PageName key := by
      refine ⟨?_, tabbed, plain⟩
      rintro rfl
      rw [wf.nonempty] at atKey
      cases atKey
    obtain ⟨g, ok, holds⟩ := wf.group page
    have simple := holds.simple
    rw [atKey] at simple
    cases g with
    | absent => cases simple
    | singular old =>
      rw [Option.some.inj simple, ok.1.split ok.2.1, Except.ok.injEq] at split
      subst split
      exact .singular page ok holds
    | indexed refs record =>
      rw [Option.some.inj simple, isIndex_makeExtensionsReference ok.1] at notIndex
      cases notIndex

/-- A record that a scan reads is the entry of the pair it is taken for. -/
theorem WellFormed.home_record (wf : WellFormed loc db) (record : RecordAt db key ref info) :
    entry loc db ref = some info.unnamed ∧ home loc db ref = key := by
  obtain ⟨cont, atKey, notIndex, split⟩ := record.content
  have name := record.name
  have ext := record.ext
  cases wf.kept record.plain atKey notIndex split with
  | singular page ok holds =>
    rw [Separated.cut_of_not_mem page.2.1] at name
    have same : info.ref key = ref := by
      cases ref
      simp_all [Mandata.ref]
    subst same
    have belongs : nameToKey loc (info.ref key).name = key := ok.2.2
    refine ⟨?_, holds.home_singular ok belongs⟩
    rw [entry_eq_find _ (Mandata.ref_pageName page ok) (belongs.symm ▸ ok) (belongs.symm ▸ holds), belongs]
    exact if_pos rfl
  | indexed found refs rec clean member ok holds key isRecord =>
    subst key isRecord
    obtain ⟨_, _, _, unnamed, extFound⟩ := ok.2.2 found member
    rw [unnamed, makeMultiKey, Separated.cut_append_cons clean.1.2.1] at name
    have same : found = ref := by
      cases ref
      cases found
      simp_all
    subst same
    refine ⟨?_, holds.home_indexed ok rfl⟩
    rw [entry_eq_find _ clean.1 ok holds, Group.find, if_pos member]
    simp [Mandata.unnamed, ← unnamed]

/-- ISO C: `tolower` gives lower case letters, which it leaves alone. -/
def Locale.Settled (loc : Locale) : Prop := ∀ b, loc.tolower (loc.tolower b) = loc.tolower b

theorem Locale.Settled.lower (settled : loc.Settled) (s : Bytes) : loc.lower (loc.lower s) = loc.lower s := by
  simp [Locale.lower, Function.comp_def, settled _]

theorem nameToKey_key (settled : loc.Settled) (belongs : nameToKey loc ref.name = k) : nameToKey loc k = k := by
  rw [← belongs]
  exact settled.lower _

/-- The call of `dbdelete` that a scan makes for the record it is at. -/
structure DeletesRecord (loc : Locale) (db : Store) (key : Bytes) (ref : NameExt) (info : Mandata) (db' : Store) :
    Prop where
  run : dbdelete loc db (Separated.cut tab key).1 info = .ok (0, db')
  wf : WellFormed loc db'
  entry : entry loc db' = Function.update (entry loc db) ref none
  home : ∀ other, ManDb.entry loc db' other ≠ none → home loc db' other = home loc db other
  ident : ∀ key, key.head? = some dollar → db'.fetch key = db.fetch key

theorem home_frame (frame : Frame loc k db db') (pageOther : PageName other.name)
    (elsewhere : nameToKey loc other.name ≠ k) : home loc db' other = home loc db other := by
  have pageKey : PageName (nameToKey loc other.name) := pageName_nameToKey.mpr pageOther
  unfold home
  rw [frame _ (fun owned => elsewhere ((owned_pageName_iff pageKey).mp owned))]

theorem deletesRecord_singular (wf : WellFormed loc db) (settled : loc.Settled) (page : PageName k)
    (ok : (Group.singular info).Ok loc k) (holds : Holds loc db k (.singular info)) :
    DeletesRecord loc db k (info.ref k) info (db.delete k) := by
  have belongs : nameToKey loc (info.ref k).name = k := ok.2.2
  have key : nameToKey loc k = k := nameToKey_key settled belongs
  have frame : Frame loc k db (db.delete k) := (Frame.refl _ _ _).delete (owned_self _ _)
  obtain ⟨wf', update⟩ := entry_delete_singular wf page ok holds
  refine ⟨?_, wf', update, fun other present => ?_, fun key special => frame key fun owned => ?_⟩
  · rw [Separated.cut_of_not_mem page.2.1]
    have atKey : db.fetch (nameToKey loc k) = some (makeContent info) := by rw [key]; exact holds.simple
    rw [dbdelete_record atKey (isIndex_makeContent ok.2.1), key]
  · by_cases same : nameToKey loc other.name = k
    · refine absurd ?_ present
      simp [entry, same]
    · exact home_frame frame (entry_pageName present) same
  · exact owned.head_ne_dollar page special

theorem deletesRecord_indexed {refs : List NameExt} {record : NameExt → Mandata} (wf : WellFormed loc db)
    (clean : ref.Clean) (member : ref ∈ refs) (ok : (Group.indexed refs record).Ok loc (nameToKey loc ref.name))
    (holds : Holds loc db (nameToKey loc ref.name) (.indexed refs record)) :
    ∃ db', DeletesRecord loc db (makeMultiKey ref.name ref.ext) ref (record ref) db' := by
  have pageKey : PageName (nameToKey loc ref.name) := pageName_nameToKey.mpr clean.1
  have ext : (record ref).ext = ref.ext := (ok.2.2 ref member).2.2.2.2
  have run : dbdelete loc db ref.name (record ref) = _ := dbdelete_listed ok holds (by rw [ext]; exact member)
  rw [ext] at run
  have frame := @dbdelete_listed_frame loc db ref _ clean rfl refs
  have ok' := ok.remove ref
  have holds' := dbdelete_holds pageKey ok holds clean
  refine ⟨_, ?_, wf.update pageKey frame ok' holds', ?_, fun other isThere => ?_,
    fun key special => frame key fun owned => owned.head_ne_dollar pageKey special⟩
  · rw [makeMultiKey, Separated.cut_append_cons clean.1.2.1]
    exact run
  · exact entry_update wf pageKey frame ok holds ok' holds' clean.1 rfl
      (fun other => Group.find_remove ok.2.1.nodup other)
  · have page : PageName other.name := entry_pageName isThere
    by_cases belongs : nameToKey loc other.name = nameToKey loc ref.name
    · rw [holds.home_indexed ok belongs]
      rw [entry_eq_find other page (belongs.symm ▸ ok') (belongs.symm ▸ holds')] at isThere
      simp only [Group.remove] at isThere ok' holds'
      split at isThere
      · exact absurd rfl isThere
      · rename_i more
        simp only [if_neg more] at ok' holds'
        simpa only [if_neg more] using holds'.home_indexed ok' belongs
    · exact home_frame frame page belongs

/-- The record a scan is at can be deleted, and nothing else goes with it. -/
theorem WellFormed.deletesRecord (wf : WellFormed loc db) (settled : loc.Settled)
    (record : RecordAt db key ref info) :
    ∃ db', DeletesRecord loc db key ref info db' := by
  obtain ⟨cont, atKey, notIndex, split⟩ := record.content
  cases wf.kept record.plain atKey notIndex split with
  | singular page ok holds =>
    have deletes := deletesRecord_singular wf settled page ok holds
    have same : info.ref key = ref := by
      have name := record.name
      have ext := record.ext
      rw [Separated.cut_of_not_mem page.2.1] at name
      cases ref
      simp_all [Mandata.ref]
    exact ⟨_, same ▸ deletes⟩
  | indexed found refs rec clean member ok holds key isRecord =>
    subst key isRecord
    obtain ⟨db', deletes⟩ := deletesRecord_indexed wf clean member ok holds
    have own : RecordAt db (makeMultiKey found.name found.ext) found (rec found) := by
      obtain ⟨_, _, _, unnamed, ext⟩ := ok.2.2 found member
      refine ⟨record.plain, record.content, ?_, ext⟩
      rw [unnamed, makeMultiKey, Separated.cut_append_cons clean.1.2.1]
      rfl
    exact ⟨db', (own.unique record).1 ▸ deletes⟩

end ManDb
