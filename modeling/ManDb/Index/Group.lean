import ManDb.Dbm
import ManDb.Keys
import ManDb.Mandata

namespace ManDb

/-- A record as the index keeps it: printable, and with its defaults filled in. -/
structure Mandata.Stored (info : Mandata) : Prop where
  clean : info.Clean
  filled : setDefaults info = info

/-- What the index holds under one simple key, apart from how it is written. -/
inductive Group where
  | absent
  | singular (info : Mandata)
  | indexed (refs : List NameExt) (record : NameExt → Mandata)

/-- The pair a singular record stands for under the key `k`. -/
def Mandata.ref (k : Bytes) (info : Mandata) : NameExt := ⟨info.name.getD k, info.ext⟩

/-- The record of a page without its name, which is part of the pair it is found under. -/
def Mandata.unnamed (info : Mandata) : Mandata := { info with name := none }

namespace Group

def find (k : Bytes) : Group → NameExt → Option Mandata
  | absent, _ => none
  | singular info, ref => if ref = info.ref k then some info.unnamed else none
  | indexed refs record, ref => if ref ∈ refs then some (record ref) else none

def simpleContent : Group → Option Bytes
  | absent => none
  | singular info => some (makeContent info)
  | indexed refs _ => some (makeExtensionsReference refs)

def multiContent : Group → NameExt → Option Bytes
  | indexed refs record, ref => if ref ∈ refs then some (makeContent (record ref)) else none
  | _, _ => none

/-- The conditions on one key's group: a singular record belongs to the key, an
index is a strictly sorted list of pairs that belong to it and have a record each. -/
def Ok (loc : Locale) (k : Bytes) : Group → Prop
  | absent => True
  | singular info => info.Stored ∧ NameField info.name ∧ nameToKey loc (info.name.getD k) = k
  | indexed refs record => refs ≠ [] ∧ SortedList.Strict nameExtCompare refs ∧
      ∀ ref ∈ refs, ref.Clean ∧ nameToKey loc ref.name = k ∧
        (record ref).Stored ∧ (record ref).name = none ∧ (record ref).ext = ref.ext

end Group

/-- The store writes the group `g` under the simple key `k`, and nothing else there. -/
structure Holds (loc : Locale) (db : Store) (k : Bytes) (g : Group) : Prop where
  simple : db.fetch k = g.simpleContent
  multi : ∀ ref : NameExt, ref.Clean → nameToKey loc ref.name = k →
    db.fetch (makeMultiKey ref.name ref.ext) = g.multiContent ref

/-- The keys that belong to the simple key `k`: itself and its multi keys. -/
def Owned (loc : Locale) (k key : Bytes) : Prop :=
  key = k ∨ ∃ ref : NameExt, ref.Clean ∧ nameToKey loc ref.name = k ∧ key = makeMultiKey ref.name ref.ext

/-- Nothing changed but the keys that belong to `k`. -/
def Frame (loc : Locale) (k : Bytes) (db db' : Store) : Prop :=
  ∀ key, ¬Owned loc k key → db'.fetch key = db.fetch key

variable {loc : Locale} {db db' : Store} {k key : Bytes} {g g' : Group}

theorem Frame.refl (loc : Locale) (k : Bytes) (db : Store) : Frame loc k db db := fun _ _ => rfl

theorem Frame.replace (frame : Frame loc k db db') (owned : Owned loc k key) (content : Bytes) :
    Frame loc k db (db'.replace key content) := by
  intro other outside
  have different : other ≠ key := by rintro rfl; exact outside owned
  rw [Store.fetch_replace_of_ne different]
  exact frame other outside

theorem Frame.delete (frame : Frame loc k db db') (owned : Owned loc k key) :
    Frame loc k db (db'.delete key) := by
  intro other outside
  have different : other ≠ key := by rintro rfl; exact outside owned
  rw [Store.fetch_delete_of_ne different]
  exact frame other outside

theorem owned_self (loc : Locale) (k : Bytes) : Owned loc k k := Or.inl rfl

theorem owned_multi {ref : NameExt} (clean : ref.Clean) (belongs : nameToKey loc ref.name = k) :
    Owned loc k (makeMultiKey ref.name ref.ext) := Or.inr ⟨ref, clean, belongs, rfl⟩

theorem owned_pageName_iff (page : PageName key) : Owned loc k key ↔ key = k := by
  constructor
  · rintro (same | ⟨ref, _, _, multi⟩)
    · exact same
    · exact absurd multi (page.ne_multi _ _)
  · exact Or.inl

theorem not_owned_multi {ref : NameExt} (page : PageName k) (clean : ref.Clean)
    (elsewhere : nameToKey loc ref.name ≠ k) : ¬Owned loc k (makeMultiKey ref.name ref.ext) := by
  rintro (same | ⟨other, otherClean, belongs, same⟩)
  · exact page.ne_multi _ _ same.symm
  · obtain ⟨sameName, _⟩ := makeMultiKey_inj clean.1.2.1 otherClean.1.2.1 same
    exact elsewhere (sameName ▸ belongs)

theorem Owned.head_ne_dollar (page : PageName k) (owned : Owned loc k key) : key.head? ≠ some dollar := by
  rcases owned with rfl | ⟨ref, clean, _, rfl⟩
  · exact page.2.2
  · exact head_makeMultiKey clean.1 _

theorem Owned.ne_nil (page : PageName k) (owned : Owned loc k key) : key ≠ [] := by
  rcases owned with rfl | ⟨ref, clean, _, rfl⟩
  · exact page.1
  · simp [makeMultiKey]

/-- A group elsewhere is carried over by a change under the key `k`. -/
theorem Holds.frame (holds : Holds loc db key g) (frame : Frame loc k db db') (page : PageName k)
    (pageKey : PageName key) (different : key ≠ k) : Holds loc db' key g where
  simple := by
    rw [frame key (fun owned => different ((owned_pageName_iff pageKey).mp owned)), holds.simple]
  multi ref clean belongs := by
    rw [frame _ (not_owned_multi page clean (belongs ▸ different)), holds.multi ref clean belongs]

theorem Mandata.Stored.unnamed {info : Mandata} (stored : info.Stored) : info.unnamed.Stored where
  clean := ⟨stored.clean.ext, stored.clean.sec, stored.clean.idTab, stored.clean.idNul,
    stored.clean.pointer, stored.clean.comp, stored.clean.filter⟩
  filled := congrArg Mandata.unnamed stored.filled

theorem Mandata.Clean.filledStored {info : Mandata} (clean : info.Clean) : (setDefaults info).Stored where
  clean := clean.withDefaults
  filled := rfl

theorem Mandata.Stored.split {info : Mandata} (stored : info.Stored) (field : NameField info.name) :
    splitContent (makeContent info) = .ok info := by
  rw [splitContent_makeContent stored.clean field, stored.filled]

end ManDb
