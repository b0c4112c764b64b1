import Mathlib.Data.List.ReduceOption
import ManDb.DbDelete

namespace ManDb

/-- The start of a turn of the loops of `purge_missing` and `purge_pointers`: skip
the keys of the database itself and the lists of pairs, and read the entry of any
other key. The first component is `nicekey`, the key without what follows a tab. -/
def purgeEntry (db : Store) (key : Bytes) : Except Fatal (Option (Bytes × Mandata)) :=
  if key.head? = some dollar then .ok none
  else
    match db.fetch key with
    | none => .ok none
    | some cont =>
      if isIndex cont then .ok none
      else do
        let entry ← splitContent cont
        return some ((Separated.cut tab key).1, entry)

/-- The entries the two loops come to, before they decide what to delete. -/
def purgeScan (db : Store) : Except Fatal (List (Bytes × Mandata)) := do
  let found ← db.keys.mapM (purgeEntry db)
  return found.reduceOption

/-- The loop of `purge_pointers` over the keys that are left. A key that has gone
in the meantime ends it. -/
def purgePointersLoop (loc : Locale) (optTest : Bool) (name : Bytes) : List Bytes → Store → Except Fatal Store
  | [], db => .ok db
  | key :: rest, db =>
    if key.head? = some dollar then purgePointersLoop loc optTest name rest db
    else
      match db.fetch key with
      | none => .ok db
      | some content =>
        let nicekey := (Separated.cut tab key).1
        if isIndex content then purgePointersLoop loc optTest name rest db
        else do
          let entry ← splitContent content
          if entry.id ≠ soMan ∧ entry.id ≠ whatisMan then purgePointersLoop loc optTest name rest db
          else if entry.pointer = some name ∧ !optTest then do
            let (_, db) ← dbdelete loc db nicekey entry
            purgePointersLoop loc optTest name rest db
          else purgePointersLoop loc optTest name rest db

/-- Purge any entries pointing to name. -/
def purgePointers (loc : Locale) (optTest : Bool) (db : Store) (name : Bytes) : Except Fatal Store :=
  purgePointersLoop loc optTest name db.keys db

/-- What the purges ask of the file system: `look_for_file` with `LFF_MATCHCASE`,
the modification time `stat` gives, and `filename_info`. -/
structure FileSystem where
  lookForFile : (hier sec name : Bytes) → (cat : Bool) → List Bytes
  stat : Bytes → Option Timespec
  filenameInfo : Bytes → Option Mandata

/-- Does a file count, for an extension and a time it has to be newer than? There
is no such time if its seconds are -1. -/
def globMatch (fs : FileSystem) (ext : Bytes) (dbMtime : Timespec) (walk : Bytes) : Bool :=
  match fs.stat walk with
  | none => false
  | some mtime =>
    if dbMtime.sec ≠ -1 ∧ timespecCmp mtime dbMtime ≠ .gt then false
    else
      match fs.filenameInfo walk with
      | none => false
      | some info => ext == info.ext

/-- Count the number of exact extension matches returned from `look_for_file`. -/
def countGlobMatches (fs : FileSystem) (ext : Bytes) (source : List Bytes) (dbMtime : Timespec) : Nat :=
  source.countP (globMatch fs ext dbMtime)

def noTime : Timespec := ⟨-1, -1⟩

/-- The database, `force_rescan` and the number of entries purged so far. -/
structure PurgeState where
  db : Store
  forceRescan : Bool
  count : Nat

/-- Delete an entry, or only say so. -/
def purge (loc : Locale) (optTest : Bool) (name : Bytes) (info : Mandata) (s : PurgeState) :
    Except Fatal PurgeState :=
  if optTest then .ok { s with count := s.count + 1 }
  else do
    let (_, db) ← dbdelete loc s.db name info
    return { s with db := db, count := s.count + 1 }

/-- Decide whether to purge a reference to a "normal" (ULT_MAN or SO_MAN) page. -/
def purgeNormal (loc : Locale) (fs : FileSystem) (optTest : Bool) (name : Bytes) (info : Mandata) (found : List Bytes)
    (s : PurgeState) : Except Fatal PurgeState :=
  if countGlobMatches fs info.ext found noTime ≠ 0 then .ok s else purge loc optTest name info s

/-- Decide whether to purge a reference to a WHATIS_MAN or WHATIS_CAT page. -/
def purgeWhatis (loc : Locale) (fs : FileSystem) (optTest : Bool) (path : Bytes) (cat : Bool) (name : Bytes)
    (info : Mandata) (found : List Bytes) (dbMtime : Timespec) (s : PurgeState) : Except Fatal PurgeState :=
  if countGlobMatches fs info.ext found dbMtime ≠ 0 then .ok { s with forceRescan := true }
  else if info.pointer = some [dash] then do
    let s ← purge loc optTest name info s
    return { s with forceRescan := true }
  else
    let realFound := fs.lookForFile path info.ext (info.pointer.getD []) cat
    if countGlobMatches fs info.ext realFound noTime ≠ 0 then .ok s else purge loc optTest name info s

/-- The loop of `check_multi_key` over what is left of a list of pairs, which starts
with a tab; every turn takes a name and an extension. -/
def checkMultiKeyLoop (loc : Locale) (name : Bytes) : Nat → Bytes → Bool
  | 0, _ => false
  | _ + 1, [] => false
  | n + 1, _ :: walk =>
    match Separated.cut tab walk with
    | (field, none) => !loc.caseEq name field
    | (field, some rest) =>
      if loc.caseEq (name.take field.length) field then
        match (Separated.cut tab rest).2 with
        | none => false
        | some more => checkMultiKeyLoop loc name n (tab :: more)
      else true

/-- Check that multi keys are correctly constructed: is one of them broken? -/
def checkMultiKey (loc : Locale) (name content : Bytes) : Bool :=
  checkMultiKeyLoop loc name content.length content

/-- The hierarchy an entry of this kind is looked for in. -/
def entryHierarchy (manpath catpath : Bytes) (info : Mandata) : Bytes × Bool :=
  if info.id ≤ whatisMan then (manpath, false) else (catpath, true)

/-- One turn of the loop of `purge_missing`. -/
def purgeMissingTurn (loc : Locale) (fs : FileSystem) (optTest : Bool) (manpath catpath : Bytes) (dbMtime : Timespec)
    (key : Bytes) (s : PurgeState) : Except Fatal PurgeState :=
  if key.head? = some dollar then .ok s
  else
    match s.db.fetch key with
    | none => .ok s
    | some content =>
      let nicekey := (Separated.cut tab key).1
      if isIndex content then
        if checkMultiKey loc nicekey content then .ok { s with db := s.db.delete key, forceRescan := true } else .ok s
      else do
        let entry ← splitContent content
        let (hier, cat) := entryHierarchy manpath catpath entry
        let found := fs.lookForFile hier entry.ext (entry.name.getD nicekey) cat
        if entry.id = ultMan ∨ entry.id = soMan ∨ entry.id = strayCat then
          purgeNormal loc fs optTest nicekey entry found s
        else if entry.id = whatisMan then
          purgeWhatis loc fs optTest manpath false nicekey entry found dbMtime s
        else purgeWhatis loc fs optTest catpath true nicekey entry found dbMtime s

/-- The database has its version, and a content under every key. -/
def sanityCheckDb (db : Store) : Bool := !db.dbverRd && db.keys.all (fun key => (db.fetch key).isSome)

/-- Go through an open database and purge references to man pages that no longer
exist. The result counts the entries purged. -/
def purgeMissing (loc : Locale) (fs : FileSystem) (optTest : Bool) (manpath catpath : Bytes) (dbMtime : Timespec)
    (db : Store) (forceRescan : Bool) : Except Fatal PurgeState :=
  if sanityCheckDb db then
    db.keys.foldlM (fun s key => purgeMissingTurn loc fs optTest manpath catpath dbMtime key s) ⟨db, forceRescan, 0⟩
  else .ok ⟨db, forceRescan, 0⟩

end ManDb
