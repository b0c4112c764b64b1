import Std.Data.ExtTreeMap.Lemmas
import ManDb.Text

namespace ManDb

/-- An open index cache: what the `MYDBM_` macros see of it. Keys are read in
`strcmp` order, as the ordered wrappers around the dbm libraries give them, and
no dbm operation fails other than an insertion over an existing key. -/
abbrev Store := Std.ExtTreeMap Bytes Bytes compare

namespace Store

/-- `MYDBM_FETCH`. -/
def fetch (db : Store) (key : Bytes) : Option Bytes := db[key]?

/-- `MYDBM_REPLACE`. -/
def replace (db : Store) (key content : Bytes) : Store := db.insert key content

/-- `MYDBM_INSERT`, which leaves an existing key alone and reports it. -/
def insertNew (db : Store) (key content : Bytes) : Option Store :=
  if (db.fetch key).isSome then none else some (db.replace key content)

/-- `MYDBM_DELETE`. -/
def delete (db : Store) (key : Bytes) : Store := db.erase key

/-- `VER_KEY` and `VER_ID`. -/
def verKey : Bytes := ascii "$version$"
def verId : Bytes := ascii "2.5.0"

/-- `dbver_rd`: is the version identifier missing or another one? -/
def dbverRd (db : Store) : Bool := db.fetch verKey != some verId

variable {db db' : Store} {key key' content : Bytes}

@[simp] theorem fetch_empty : fetch ∅ key = none := Std.ExtTreeMap.getElem?_empty

@[simp] theorem fetch_replace_self : (db.replace key content).fetch key = some content :=
  Std.ExtTreeMap.getElem?_insert_self

theorem fetch_replace_of_ne (different : key' ≠ key) :
    (db.replace key content).fetch key' = db.fetch key' := by
  unfold fetch replace
  rw [Std.ExtTreeMap.getElem?_insert, if_neg]
  rw [Std.compare_eq_iff_eq]
  exact different.symm

@[simp] theorem fetch_delete_self : (db.delete key).fetch key = none :=
  Std.ExtTreeMap.getElem?_erase_self

theorem fetch_delete_of_ne (different : key' ≠ key) : (db.delete key).fetch key' = db.fetch key' := by
  unfold fetch delete
  rw [Std.ExtTreeMap.getElem?_erase, if_neg]
  rw [Std.compare_eq_iff_eq]
  exact different.symm

theorem insertNew_present (present : db.fetch key = some content) (new : Bytes) :
    db.insertNew key new = none := by
  simp [insertNew, present]

theorem insertNew_absent (absent : db.fetch key = none) (new : Bytes) :
    db.insertNew key new = some (db.replace key new) := by
  simp [insertNew, absent]

@[ext] theorem ext_fetch (same : ∀ key, db.fetch key = db'.fetch key) : db = db' :=
  Std.ExtTreeMap.ext_getElem? same

theorem mem_keys_iff : key ∈ db.keys ↔ ∃ content, db.fetch key = some content := by
  unfold fetch
  rw [Std.ExtTreeMap.mem_keys, ← Option.isSome_iff_exists]
  exact Std.ExtTreeMap.mem_iff_isSome_getElem?

end Store

end ManDb
