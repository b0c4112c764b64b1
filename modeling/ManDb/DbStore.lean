import Mathlib.Data.Option.NAry
import ManDb.Dbm
import ManDb.Keys
import ManDb.Mandata

namespace ManDb

/-- Which of two ids is the more canonical database entry, the lesser being
preferred. `FAVOUR_STRAYCATS` is not defined. Every id is an ASCII letter, so the
signedness of `char` does not matter. -/
def compareIds (a b : UInt8) (promoteLinks : Bool) : Ordering :=
  if promoteLinks && ((a == ultMan && b == soMan) || (a == soMan && b == ultMan)) then .eq
  else compare a b

/-- `enum replace_action`. -/
inductive ReplaceAction where
  | yes
  | no
  | fail
  deriving DecidableEq, Repr

/-- Decide, for some existing key, whether it should be replaced with some new contents. -/
def replaceAction (newdata olddata : Mandata) : ReplaceAction :=
  if compareIds newdata.id olddata.id false = .lt then .yes
  else if (compareIds newdata.id olddata.id true).isLE ∧
      timespecCmp newdata.mtime olddata.mtime = .gt then .yes
  else if (compareIds newdata.id olddata.id true).isLE ∧
      timespecCmp newdata.mtime olddata.mtime = .lt then .no
  else if compareIds newdata.id olddata.id false = .gt then .no
  else if Option.map₂ compare newdata.pointer olddata.pointer = some .lt then .yes
  else if Option.map₂ compare newdata.pointer olddata.pointer = some .gt then .no
  else if some (dashIfUnset newdata.comp) ≠ olddata.comp then .fail
  else .no

/-- `replace_if_necessary`. The second branch inserts if missing, but ignores failures. -/
def replaceIfNecessary (db : Store) (newdata olddata : Mandata) (newkey newcont : Bytes) : Nat × Store :=
  match replaceAction newdata olddata with
  | .yes => (0, db.replace newkey newcont)
  | .no => (0, (db.insertNew newkey newcont).getD db)
  | .fail => (1, db)

/-- The name field of a singular content: only names that differ from their key need one. -/
def singularName (base key : Bytes) : Option Bytes := if base = key then none else some base

/-- Situation (2) of `dbstore`: the simple key exists and its content is an index. -/
def dbstoreIndexed (db : Store) (data : Mandata) (base oldkey oldcont : Bytes) :
    Except Fatal (Nat × Store) :=
  let newkey := makeMultiKey base data.ext
  let newcont := makeContent data
  match db.insertNew newkey newcont with
  | none => do
    let info ← splitContent ((db.fetch newkey).getD [])
    return replaceIfNecessary db (setDefaults data) info newkey newcont
  | some db =>
    let refs := SortedList.add nameExtCompare ⟨base, data.ext⟩ (listExtensions oldcont.tail)
    .ok (0, db.replace oldkey (makeExtensionsReference refs))

/-- Situation (3) of `dbstore`: the simple key exists and its content is a record. -/
def dbstoreSingular (db : Store) (data : Mandata) (base oldkey oldcont : Bytes) :
    Except Fatal (Nat × Store) := do
  let old ← splitContent oldcont
  let oldName := old.name.getD oldkey
  if oldName = base ∧ old.ext = data.ext then
    let data := { data with name := singularName base oldkey }
    return replaceIfNecessary db (setDefaults data) old oldkey (makeContent data)
  else
    let old := { old with name := none }
    let db := db.replace (makeMultiKey oldName old.ext) (makeContent old)
    let (ret, db) :=
      replaceIfNecessary db (setDefaults data) old (makeMultiKey base data.ext) (makeContent data)
    let refs := SortedList.add nameExtCompare ⟨base, data.ext⟩
      (SortedList.add nameExtCompare ⟨oldName, old.ext⟩ [])
    return (ret, db.replace oldkey (makeExtensionsReference refs))

/-- Store the data of a page under a name; the result is the return code and the
index afterwards. A name already set in the data is dropped with a warning. -/
def dbstore (loc : Locale) (db : Store) (data : Mandata) (base : Bytes) : Except Fatal (Nat × Store) :=
  let oldkey := nameToKey loc base
  if base = [] then .ok (2, db)
  else
    let data := { data with name := none }
    match db.fetch oldkey with
    | none =>
      .ok (0, db.replace oldkey (makeContent { data with name := singularName base oldkey }))
    | some oldcont =>
      if isIndex oldcont then dbstoreIndexed db data base oldkey oldcont
      else dbstoreSingular db data base oldkey oldcont

end ManDb
