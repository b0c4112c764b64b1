import ManDb.DbStore
import ManDb.Index.Group

namespace ManDb

/-- The record `dbstore` makes of the data it is given. -/
def stored (data : Mandata) : Mandata := setDefaults data.unnamed

/-- The record with the name field it has in the singular layout. -/
def Mandata.named (base key : Bytes) (info : Mandata) : Mandata := { info with name := singularName base key }

variable {loc : Locale} {db : Store} {data info old : Mandata} {base : Bytes}

theorem Mandata.Clean.toStored (clean : data.Clean) : (stored data).Stored :=
  Mandata.Clean.filledStored ⟨clean.ext, clean.sec, clean.idTab, clean.idNul, clean.pointer, clean.comp, clean.filter⟩

theorem Mandata.Stored.named (isStored : info.Stored) (base key : Bytes) : (info.named base key).Stored where
  clean := ⟨isStored.clean.ext, isStored.clean.sec, isStored.clean.idTab, isStored.clean.idNul,
    isStored.clean.pointer, isStored.clean.comp, isStored.clean.filter⟩
  filled := congrArg (Mandata.named base key) isStored.filled

theorem nameField_singularName (page : PageName base) : NameField (singularName base (nameToKey loc base)) := by
  unfold singularName
  split
  · exact nameField_none
  · rename_i differs
    rintro n ⟨⟩
    refine ⟨page.1, ?_, page.2.1⟩
    rintro rfl
    exact differs (loc.lower_dash.mpr rfl).symm

theorem singularName_getD (base key : Bytes) : (singularName base key).getD key = base := by
  unfold singularName
  split
  next same => exact same.symm
  next => rfl

@[simp] theorem ref_named (key : Bytes) : (info.named base key).ref key = ⟨base, info.ext⟩ := by
  simp [Mandata.ref, Mandata.named, singularName_getD]

/-- Situation (1). -/
theorem dbstore_absent (page : base ≠ []) (atKey : db.fetch (nameToKey loc base) = none) :
    dbstore loc db data base =
      .ok (0, db.replace (nameToKey loc base) (makeContent ((stored data).named base (nameToKey loc base)))) := by
  unfold dbstore
  simp only [if_neg page, atKey]
  rfl

/-- Situation (2) with the multi key already there. -/
theorem dbstore_listed (page : base ≠ []) {index : Bytes} (atKey : db.fetch (nameToKey loc base) = some index)
    (indexed : isIndex index = true) (isStored : old.Stored) (field : NameField old.name)
    (atMulti : db.fetch (makeMultiKey base data.ext) = some (makeContent old)) :
    dbstore loc db data base =
      .ok (replaceIfNecessary db (stored data) old (makeMultiKey base data.ext) (makeContent (stored data))) := by
  unfold dbstore dbstoreIndexed
  simp only [if_neg page, atKey, indexed, if_true, Store.insertNew_present atMulti, atMulti, Option.getD_some,
    isStored.split field]
  rfl

/-- Situation (2) with a new multi key. -/
theorem dbstore_unlisted (page : base ≠ []) {index : Bytes} (atKey : db.fetch (nameToKey loc base) = some index)
    (indexed : isIndex index = true) (atMulti : db.fetch (makeMultiKey base data.ext) = none) :
    dbstore loc db data base =
      .ok (0, (db.replace (makeMultiKey base data.ext) (makeContent (stored data))).replace
        (nameToKey loc base) (makeExtensionsReference
          (SortedList.add nameExtCompare ⟨base, data.ext⟩ (listExtensions index.tail)))) := by
  unfold dbstore dbstoreIndexed
  simp only [if_neg page, atKey, indexed, if_true, Store.insertNew_absent atMulti]
  rfl

/-- Situation (3) with identical multi keys. -/
theorem dbstore_same (page : base ≠ []) (isStored : info.Stored) (field : NameField info.name)
    (atKey : db.fetch (nameToKey loc base) = some (makeContent info))
    (same : info.ref (nameToKey loc base) = ⟨base, data.ext⟩) :
    dbstore loc db data base =
      .ok (replaceIfNecessary db (stored data) info (nameToKey loc base)
        (makeContent ((stored data).named base (nameToKey loc base)))) := by
  have sameName : info.name.getD (nameToKey loc base) = base := congrArg NameExt.name same
  have sameExt : info.ext = data.ext := congrArg NameExt.ext same
  have record : isIndex (makeContent info) = false := by simpa [isIndex] using head_makeContent field
  unfold dbstore dbstoreSingular
  simp only [if_neg page, atKey, record, Bool.false_eq_true, if_false, isStored.split field]
  simp only [bind, Except.bind, sameName, sameExt, and_self, if_true]
  rfl

/-- Situation (3) proper: the old record moves to a multi key of its own. -/
theorem dbstore_reformat (page : base ≠ []) (isStored : info.Stored) (field : NameField info.name)
    (atKey : db.fetch (nameToKey loc base) = some (makeContent info))
    (different : info.ref (nameToKey loc base) ≠ ⟨base, data.ext⟩) :
    dbstore loc db data base =
      .ok ((replaceIfNecessary
          (db.replace (makeMultiKey (info.ref (nameToKey loc base)).name (info.ref (nameToKey loc base)).ext)
            (makeContent info.unnamed))
          (stored data) info.unnamed (makeMultiKey base data.ext) (makeContent (stored data))).1,
        (replaceIfNecessary
          (db.replace (makeMultiKey (info.ref (nameToKey loc base)).name (info.ref (nameToKey loc base)).ext)
            (makeContent info.unnamed))
          (stored data) info.unnamed (makeMultiKey base data.ext) (makeContent (stored data))).2.replace
          (nameToKey loc base) (makeExtensionsReference (SortedList.add nameExtCompare ⟨base, data.ext⟩
            (SortedList.add nameExtCompare (info.ref (nameToKey loc base)) [])))) := by
  have apart : ¬(info.name.getD (nameToKey loc base) = base ∧ info.ext = data.ext) := by
    rintro ⟨sameName, sameExt⟩
    exact different (by rw [Mandata.ref, sameName, sameExt])
  have record : isIndex (makeContent info) = false := by simpa [isIndex] using head_makeContent field
  unfold dbstore dbstoreSingular
  simp only [if_neg page, atKey, record, Bool.false_eq_true, if_false, isStored.split field]
  simp only [bind, Except.bind, apart, if_false]
  rfl

/-- Writing over an absent key succeeds unless the compression extensions clash. -/
theorem replaceIfNecessary_absent {newkey newcont : Bytes} (absent : db.fetch newkey = none)
    (accepted : replaceAction data old ≠ .fail) :
    replaceIfNecessary db data old newkey newcont = (0, db.replace newkey newcont) := by
  unfold replaceIfNecessary
  split
  · rfl
  · simp [Store.insertNew_absent absent]
  · contradiction

theorem replaceIfNecessary_fail {newkey newcont : Bytes} (refused : replaceAction data old = .fail) :
    replaceIfNecessary db data old newkey newcont = (1, db) := by
  simp [replaceIfNecessary, refused]

theorem replaceIfNecessary_present {newkey newcont present : Bytes} (atKey : db.fetch newkey = some present) :
    replaceIfNecessary db data old newkey newcont =
      (if replaceAction data old = .fail then 1 else 0,
        if replaceAction data old = .yes then db.replace newkey newcont else db) := by
  unfold replaceIfNecessary
  cases replaceAction data old <;> simp [Store.insertNew_present atKey]

end ManDb
