import ManDb.Iteration
import ManDb.Lib.Threads
import ManDb.Xcopy

namespace ManDb.Publication

open Threads

/-- What a file of the cat directory holds: a database that has been closed, one that is still open for
writing with what has been stored in it so far, or a part of one. -/
inductive Data where
  | database (db : Store)
  | unflushed (db : Store)
  | part

/-- The file system of the processes `ι`, with what `dbpaths_unlink_tmp` is to unlink for each of them.
`owner` is the process that has made a file, `finished` are the databases as they have been when a `mandb`
closed them, and `caught` tells whether any process has copied or read an index that was still open for writing. -/
structure Disk (ι : Type) where
  link : Bytes → Option Nat
  data : Nat → Data
  owner : Nat → ι
  fresh : Nat
  tmp : ι → Option Bytes
  finished : List Store
  caught : Bool

namespace Disk

variable {ι : Type}

def setLink (path : Bytes) (file : Option Nat) (s : Disk ι) : Disk ι :=
  { s with link := Function.update s.link path file }

def setData (file : Nat) (data : Data) (s : Disk ι) : Disk ι := { s with data := Function.update s.data file data }

/-- A process makes a new file. -/
def make (i : ι) (path : Bytes) (data : Data) (s : Disk ι) : Disk ι :=
  { s with
    link := Function.update s.link path (some s.fresh)
    data := Function.update s.data s.fresh data
    owner := Function.update s.owner s.fresh i
    fresh := s.fresh + 1 }

def setTmp [DecidableEq ι] (i : ι) (tmp : Option Bytes) (s : Disk ι) : Disk ι :=
  { s with tmp := Function.update s.tmp i tmp }

def finish (db : Store) (s : Disk ι) : Disk ι := { s with finished := db :: s.finished }

def catch_ (s : Disk ι) : Disk ι := { s with caught := true }

variable {path other : Bytes} {file : Option Nat} {n m : Nat} {data : Data} {i j : ι} {tmp : Option Bytes} {s : Disk ι}

@[simp] theorem setLink_self : (s.setLink path file).link path = file := Function.update_self ..

theorem setLink_of_ne (different : other ≠ path) : (s.setLink path file).link other = s.link other :=
  Function.update_of_ne different ..

@[simp] theorem setData_self : (s.setData n data).data n = data := Function.update_self ..

theorem setData_of_ne (different : m ≠ n) : (s.setData n data).data m = s.data m := Function.update_of_ne different ..

@[simp] theorem make_link_self : (s.make i path data).link path = some s.fresh := Function.update_self ..

theorem make_link_of_ne (different : other ≠ path) : (s.make i path data).link other = s.link other :=
  Function.update_of_ne different ..

@[simp] theorem make_data_self : (s.make i path data).data s.fresh = data := Function.update_self ..

theorem make_data_of_ne (different : n ≠ s.fresh) : (s.make i path data).data n = s.data n :=
  Function.update_of_ne different ..

@[simp] theorem make_owner_self : (s.make i path data).owner s.fresh = i := Function.update_self ..

theorem make_owner_of_ne (different : n ≠ s.fresh) : (s.make i path data).owner n = s.owner n :=
  Function.update_of_ne different ..

variable [DecidableEq ι]

@[simp] theorem setTmp_self : (s.setTmp i tmp).tmp i = tmp := Function.update_self ..

theorem setTmp_of_ne (different : j ≠ i) : (s.setTmp i tmp).tmp j = s.tmp j := Function.update_of_ne different ..

end Disk

/-- What `mandb` does to a database. -/
inductive Task where
  | purgeMissing
  | createDb
  | updateDb
  | updateOneFile
  | straycats
  deriving DecidableEq

/-- What a task returns, `force_rescan`, and `dbf->file` behind it. -/
structure Outcome where
  amount : Int
  forceRescan : Bool
  file : Option Nat

inductive Call where
  | setTmp (tmp : Option Bytes)
  | fopenRead (path : Bytes)
  | fopenWrite (path : Bytes)
  | copy (source target : Nat)
  | remove (path : Bytes)
  | rename (old new : Bytes)
  | chmod (path : Bytes)
  | run (task : Task) (database : Bytes) (file : Option Nat)
  | readDb (database : Bytes)
  | createDb (database : Bytes)
  | insert (file : Nat) (key content : Bytes)
  | close (file : Nat)
  | finish (file : Nat)

abbrev Answer : Call → Type
  | .fopenRead _ | .fopenWrite _ => Except ErrorNumber Nat
  | .copy _ _ => Int
  | .rename _ _ => Option ErrorNumber
  | .chmod _ | .insert _ _ _ => Bool
  | .run _ _ _ => Outcome
  | .readDb _ => Option Store
  | .createDb _ => Option Nat
  | .setTmp _ | .remove _ | .close _ | .finish _ => Unit

/-- What a task may return when it has not opened the database. -/
def Task.unopened : Task → Int → Prop
  | .createDb, amount => amount ≤ 0
  | .updateDb, amount => amount = -1
  | .updateOneFile, amount => amount = 1
  | .purgeMissing, amount => amount = 0
  | .straycats, _ => False

/-- What a call of a process does. Each call may fail; a copy that succeeds is whole, and databases are found
in a file once they are closed. -/
inductive Does {ι : Type} [DecidableEq ι] (i : ι) : (c : Call) → Disk ι → Answer c → Disk ι → Prop
  | setTmp {tmp s} : Does i (.setTmp tmp) s () (s.setTmp i tmp)
  | opened {path s n} (there : s.link path = some n) : Does i (.fopenRead path) s (.ok n) s
  | unopened {path s} {errno : ErrorNumber} (absent : errno.value = enoent.value → s.link path = none) :
      Does i (.fopenRead path) s (.error errno) s
  | made {path s} (absent : s.link path = none) : Does i (.fopenWrite path) s (.ok s.fresh) (s.make i path .part)
  | truncated {path s n} (there : s.link path = some n) : Does i (.fopenWrite path) s (.ok n) (s.setData n .part)
  | unmade {path s errno} : Does i (.fopenWrite path) s (.error errno) s
  | copied {source target s db} (whole : s.data source = .database db) :
      Does i (.copy source target) s (0 : Int) (s.setData target (.database db))
  | copiedOpen {source target s data} (unclosed : ∀ db, s.data source ≠ .database db) :
      Does i (.copy source target) s (0 : Int) (s.setData target data).catch_
  | uncopied {source target s} {ret : Int} (failed : ret < 0) : Does i (.copy source target) s ret
    (s.setData target .part)
  | removed {path s} : Does i (.remove path) s () (s.setLink path none)
  | unremoved {path s} : Does i (.remove path) s () s
  | renamed {old new s n} (there : s.link old = some n) :
      Does i (.rename old new) s none ((s.setLink new (some n)).setLink old none)
  | unrenamed {old new s errno} : Does i (.rename old new) s (some errno) s
  | chmod {path s} {ok : Bool} : Does i (.chmod path) s ok s
  | ran {task database file s n db amount forceRescan}
      (there : file = some n ∨ file = none ∧ s.link database = some n) :
      Does i (.run task database file) s ⟨amount, forceRescan, some n⟩ (s.setData n (.unflushed db))
  | ranNew {database s db amount forceRescan} (absent : s.link database = none) :
      Does i (.run .createDb database none) s ⟨amount, forceRescan, some s.fresh⟩ (s.make i database (.unflushed db))
  | ranUnopened {task database s amount} (unopened : task.unopened amount) :
      Does i (.run task database none) s ⟨amount, false, none⟩ s
  | ranAgain {database s n} :
      Does i (.run .createDb database (some n)) s ⟨-1, false, none⟩ (s.setData n .part)
  | read {database s n db} (there : s.link database = some n) (whole : s.data n = .database db) :
      Does i (.readDb database) s (some db) s
  | readOpen {database s n db} (there : s.link database = some n) (unclosed : ∀ db, s.data n ≠ .database db) :
      Does i (.readDb database) s (some db) s.catch_
  | unread {database s} : Does i (.readDb database) s none s
  | created {database s} (absent : s.link database = none) :
      Does i (.createDb database) s (some s.fresh) (s.make i database (.unflushed ∅))
  | recreated {database s n} (there : s.link database = some n) :
      Does i (.createDb database) s (some n) (s.setData n (.unflushed ∅))
  | uncreated {database s} : Does i (.createDb database) s none s
  | inserted {file key content s db db'} (open_ : s.data file = .unflushed db)
      (new : db.insertNew key content = some db') :
      Does i (.insert file key content) s true (s.setData file (.unflushed db'))
  | uninserted {file key content s} : Does i (.insert file key content) s false s
  | closed {file s db} (open_ : s.data file = .unflushed db) :
      Does i (.close file) s () (s.setData file (.database db))
  | finished {file s db} (open_ : s.data file = .unflushed db) :
      Does i (.finish file) s () ((s.setData file (.database db)).finish db)

abbrev Code := Program Call Answer

def call (c : Call) : Code (Answer c) := .perform c

/-- `remove` or `unlink`, where a failure is reported at most. -/
def checkRemove (path : Bytes) : Code Unit := call (.remove path)

def checkRename (old new : Bytes) : Code Unit := do
  match ← call (.rename old new) with
  | some errno => if errno.value ≠ enoent.value then checkRemove old else return ()
  | none => return ()

def checkChmod (path : Bytes) : Code Unit := do
  if ← call (.chmod path) then return () else checkRemove path

/-- The end of `xcopy`. -/
def finishCopy (target : Bytes) (ret : Int) : Code Int :=
  if ret < 0 then do
    checkRemove target
    return ret
  else do
    checkChmod target
    return ret

def xcopy (source target : Bytes) : Code Int := do
  match ← call (.fopenRead source) with
  | .error errno => return if errno.value = enoent.value then 0 else -errno.value
  | .ok ifp =>
    match ← call (.fopenWrite target) with
    | .error errno => return -errno.value
    | .ok ofp =>
      let ret ← call (.copy ifp ofp)
      finishCopy target ret

/-- The options, and the paths of `dbpaths_init`. -/
structure Options where
  create : Bool
  optTest : Bool
  purge : Bool
  checkForStrays : Bool
  singleFilename : Bool

section Paths

variable (xfile xtmpfile : Bytes) (options : Options)

def dbpathsRenameFromTmp : Code Unit := do
  checkRename xtmpfile xfile
  checkChmod xfile

/-- The insertions of `reorganize`, up to one that fails. -/
def copyItems (file : Nat) : List (Bytes × Bytes) → Code Bool
  | [] => return true
  | (key, content) :: items => do
    if ← call (.insert file key content) then copyItems file items else return false

def reorganize : Code Unit := do
  match ← call (.readDb xfile) with
  | none => checkRemove xtmpfile
  | some db =>
    if fileVersionRd db then checkRemove xtmpfile
    else
      match ← call (.createDb xtmpfile) with
      | none => checkRemove xtmpfile
      | some file =>
        if ← copyItems file db.toList then
          dbpathsRenameFromTmp xfile xtmpfile
          call (.close file)
        else
          call (.close file)
          checkRemove xtmpfile

/-- `MYDBM_FREE` in `mandb`. -/
def mydbmFree : Option Nat → Code Unit
  | none => return ()
  | some file => call (.finish file)

/-- What `update_db_wrapper` returns, and `dbf->file`. -/
def updateDbWrapper (file : Option Nat) : Code (Int × Option Nat) := do
  if options.singleFilename then
    let updated ← call (.run .updateOneFile xtmpfile file)
    return (updated.amount, updated.file)
  else
    let updated ← call (.run .updateDb xtmpfile file)
    if 0 ≤ updated.amount then return (updated.amount, updated.file)
    else
      let created ← call (.run .createDb xtmpfile updated.file)
      return (created.amount, created.file)

/-- Whether the database is to be created from scratch, when `mandb` has tried to copy the index. -/
def shouldCreate : Code Bool :=
  if options.create || options.optTest then return true
  else do
    let ret ← xcopy xfile xtmpfile
    return ret < 0

/-- The old entries that have been purged, `dbf->file`, and `should_create` from then on. -/
def purgeOld : Code (Int × Option Nat × Bool) :=
  if options.purge then do
    let purged ← call (.run .purgeMissing xtmpfile none)
    if purged.forceRescan then do
      mydbmFree purged.file
      checkRemove xtmpfile
      return (purged.amount, none, true)
    else return (purged.amount, purged.file, false)
  else return (0, none, false)

/-- What comes before the database is created or updated. -/
def prepare (should : Bool) : Code (Int × Option Nat × Bool) :=
  if should then do
    checkRemove xtmpfile
    return (0, none, true)
  else purgeOld xtmpfile options

def createOrUpdate (should : Bool) (file : Option Nat) : Code (Int × Option Nat) :=
  if should then do
    let created ← call (.run .createDb xtmpfile file)
    return (created.amount, created.file)
  else updateDbWrapper xtmpfile options file

def addStrays (file : Option Nat) : Code Int :=
  if options.checkForStrays && file.isSome then do
    let found ← call (.run .straycats xtmpfile file)
    return found.amount
  else return 0

/-- What `mandb` returns, and by how much it has raised `purged` and `strays`. -/
def mandb : Code (Int × Int × Int) := do
  call (.setTmp (some xtmpfile))
  let should ← shouldCreate xfile xtmpfile options
  let (purged, file, should) ← prepare xtmpfile options should
  let (amount, file) ← createOrUpdate xtmpfile options should file
  let strays ← addStrays xtmpfile options file
  mydbmFree file
  return (amount, purged, strays)

def processManpath : Code Unit := do
  call (.setTmp none)
  let (amount, purged, strays) ← mandb xfile xtmpfile options
  if 0 ≤ amount ∧ !options.optTest ∧ (amount ≠ 0 ∨ purged ≠ 0 ∨ strays ≠ 0) then
    dbpathsRenameFromTmp xfile xtmpfile
    call (.setTmp none)
    reorganize xfile xtmpfile
  else
    checkRemove xtmpfile
    call (.setTmp none)

end Paths

section Rules

variable {ι : Type} (xfile : Bytes) (xtmpfile : ι → Bytes)

/-- The file holds a finished update, closed or about to be closed, unless something was caught. -/
def Good (s : Disk ι) (n : Nat) : Prop :=
  s.caught = false → ∃ db ∈ s.finished, s.data n = .database db ∨ s.data n = .unflushed db

/-- The file holds a finished update that has been closed. -/
def Closed (s : Disk ι) (n : Nat) : Prop := s.caught = false → ∃ db ∈ s.finished, s.data n = .database db

/-- What always holds: each process has its own temporary files, and the index is what an update has left. -/
structure Kept (s : Disk ι) : Prop where
  made : ∀ path n, s.link path = some n → n < s.fresh
  single : ∀ path other n, s.link path = some n → s.link other = some n → path = other
  own : ∀ i n, s.link (xtmpfile i) = some n → s.owner n = i
  cleanup : ∀ i path, s.tmp i = some path → path = xtmpfile i
  index : ∀ n, s.link xfile = some n → Good s n

/-- What a process may do: to the temporary files of the others and to what they have made it does nothing, and
what is in nobody's temporary file stays there and stays good. -/
structure Changed (i : ι) (s t : Disk ι) : Prop where
  tmps : ∀ j, j ≠ i → t.link (xtmpfile j) = s.link (xtmpfile j)
  more : s.fresh ≤ t.fresh
  owners : ∀ n < s.fresh, t.owner n = s.owner n
  files : ∀ n < s.fresh, s.owner n ≠ i → t.data n = s.data n
  finished : ∀ db ∈ s.finished, db ∈ t.finished
  caught : t.caught = false → s.caught = false
  released : ∀ n < s.fresh, (∀ j, s.link (xtmpfile j) ≠ some n) →
    (∀ j, t.link (xtmpfile j) ≠ some n) ∧ (Good s n → Good t n)

def rules (i : ι) : Rules (Disk ι) where
  invariant := Kept xfile xtmpfile
  rely s t := ∃ j, j ≠ i ∧ Changed xtmpfile j s t
  guarantee := Changed xtmpfile i

end Rules

end ManDb.Publication
