import Mathlib.Data.Prod.Lex
import Mathlib.Order.Basic
import ManDb.Mandata
import ManDb.OrderFiles
import ManDb.Publication.Mandb

namespace ManDb.Incremental

open Threads

instance : LinearOrder Timespec :=
  LinearOrder.lift' (fun time => toLex (time.sec, time.nsec)) fun a b same => by
    obtain ⟨sec, nsec⟩ := Prod.mk.inj (toLex.injective same)
    cases a
    cases b
    congr

theorem timespecCmp_ne_gt_iff {a b : Timespec} : timespecCmp a b ≠ .gt ↔ a ≤ b := by
  have le : a ≤ b ↔ a.sec < b.sec ∨ a.sec = b.sec ∧ a.nsec ≤ b.nsec := Prod.Lex.toLex_le_toLex
  rw [le, timespecCmp]
  rcases lt_trichotomy a.sec b.sec with lt | eq | gt
  · simp [compare_lt_iff_lt.mpr lt, lt]
  · simp [eq, compare_gt_iff_gt]
  · simp [compare_gt_iff_gt.mpr gt, gt.not_gt, gt.ne']

/-- A directory of manual pages. -/
structure Directory where
  mtime : Timespec
  names : List Bytes

/-- What a run knows of the directories when it is done with the index: since when each of them may have been changed
without the run taking note of it, where `none` is always, and when the run has last written the index. -/
structure Visit where
  noted : Bytes → Option Timespec
  written : Timespec

/-- An index with what has led to it: the pages that `test_manfile` has been called for, with their directories, those
that `order_files` could not open, and the runs. -/
structure Database where
  mtime : Timespec
  tested : List (Bytes × Bytes)
  unopened : List (Bytes × Bytes)
  visits : List Visit

/-- A manual hierarchy, and the time. -/
structure Tree where
  clock : Timespec
  dirs : Bytes → Option Directory

/-- A manual hierarchy with its index, and the runs of `mandb` that are `ι`. A run has a temporary database; it has
`noted` the directories, and `looked` is when it has last called `stat`. The index may have a `holder`, the run that
has renamed it but not closed it yet. -/
structure World (ι : Type) extends Tree where
  index : Option Database
  holder : Option ι
  tmp : ι → Option Database
  noted : ι → Bytes → Option Timespec
  looked : ι → Timespec

namespace Database

/-- The database is written to, and its modification time may become this one. -/
def touch (time : Option Timespec) (db : Database) : Database := { db with mtime := time.getD db.mtime }

def visited (noted : Bytes → Option Timespec) (db : Database) : Database :=
  { db with visits := ⟨noted, db.mtime⟩ :: db.visits }

end Database

namespace World

variable {ι : Type}

/-- The clock, if the times of a file are changed by writing to it. -/
def stamp (written : Bool) (w : World ι) : Option Timespec := if written then some w.clock else none

variable [DecidableEq ι]

def setTmp (i : ι) (db : Option Database) (w : World ι) : World ι := { w with tmp := Function.update w.tmp i db }

def changeTmp (i : ι) (change : Database → Database) (w : World ι) : World ι := w.setTmp i ((w.tmp i).map change)

def setNoted (i : ι) (noted : Bytes → Option Timespec) (w : World ι) : World ι :=
  { w with noted := Function.update w.noted i noted }

variable {i j : ι} {db : Option Database} {noted : Bytes → Option Timespec} {w : World ι}

@[simp] theorem setTmp_self : (w.setTmp i db).tmp i = db := Function.update_self ..

theorem setTmp_of_ne (different : j ≠ i) : (w.setTmp i db).tmp j = w.tmp j := Function.update_of_ne different ..

@[simp] theorem setNoted_self : (w.setNoted i noted).noted i = noted := Function.update_self ..

theorem setNoted_of_ne (different : j ≠ i) : (w.setNoted i noted).noted j = w.noted j :=
  Function.update_of_ne different ..

/-- The temporary database of a run becomes the index. -/
def publish (i : ι) (open_ : Bool) (w : World ι) : World ι :=
  match w.tmp i with
  | none => w
  | some db =>
    { w.setTmp i none with
      index := some (db.visited (w.noted i))
      holder := if open_ then some i else none }

/-- The index is closed by the run that has renamed it, which may write it. -/
def closeIndex (i : ι) (written : Bool) (w : World ι) : World ι :=
  if w.holder = some i then
    { w with
      index := w.index.map fun db => if written then (db.touch (some w.clock)).visited fun _ => some db.mtime else db
      holder := none }
  else w

end World

/-- What comes of `MYDBM_CTRWOPEN`, with its error. -/
inductive Creation where
  | created
  | readOnly
  | failed
  deriving DecidableEq

/-- `forget` and `note` stand for no code: the run starts from an empty database, and what it does about a directory
is done. -/
inductive Call where
  | copyIndex
  | removeTmp
  | statDb
  | ensureDbOpen
  | sanityCheckDb
  | getTime
  | purgeEntries (dbMtime : Timespec)
  | forget
  | readPath
  | stat (name : Bytes)
  | note (name : Bytes)
  | ctrwopen
  | readDir (name : Bytes)
  | probeFiles (name : Bytes) (names : List Bytes)
  | testManfile (name page : Bytes)
  | updateOneFile
  | straycats
  | closeDb
  | rename (open_ : Bool)
  | readIndex
  | createCopy (db : Database)
  | insertItems
  | closeIndex

abbrev Answer : Call → Type
  | .copyIndex | .statDb | .ensureDbOpen | .sanityCheckDb | .createCopy _ | .insertItems => Bool
  | .getTime => Timespec
  | .purgeEntries _ => Int × Bool
  | .readPath | .readDir _ => Option (List Bytes)
  | .stat _ => Option Timespec
  | .ctrwopen => Creation
  | .probeFiles _ _ => DirectoryProbe × (Bytes → Probe)
  | .straycats => Int
  | .readIndex => Option Database
  | .removeTmp | .forget | .note _ | .testManfile _ _ | .updateOneFile | .closeDb | .rename _ | .closeIndex => Unit

abbrev Code := Program Call Answer

def call (c : Call) : Code (Answer c) := .perform c

def man : Bytes := ascii "man"

/-- "scanned already": when `testmandirs` leaves a directory out. -/
def scannedAlready (mtime last : Timespec) : Bool := last.sec ≠ 0 && timespecCmp mtime last ≠ .gt

/-- The entries that `add_dir_entries` leaves out. -/
def isDots (name : Bytes) : Bool := name.head? = some 46 && name.length < 3

section Code

variable (build : OrderBuild) (lists : GlSortedList) (options : Publication.Options)

def testFiles (name : Bytes) : List Bytes → Code Unit
  | [] => return ()
  | page :: pages => do
    call (.testManfile name page)
    testFiles name pages

def addDirEntries (name : Bytes) : Code Unit := do
  match ← call (.readDir name) with
  | none => return ()
  | some entries =>
    let names := entries.filter fun entry => !isDots entry
    let (dir, probe) ← call (.probeFiles name names)
    testFiles name (orderFiles build lists dir (names.map fun page => (page, probe page)))
    call (.note name)

/-- Whether the database is open for an entry to be added, and else what `testmandirs` returns. -/
def openFor (create : Bool) : Code (Except Int Unit) :=
  if create then do
    match ← call .ctrwopen with
    | .created => return .ok ()
    | .readOnly => return .error 0
    | .failed => return .error (-1)
  else do
    let ok ← call .ensureDbOpen
    return if ok then .ok () else .error 0

/-- The loop of `testmandirs` over the entries of the hierarchy, with `create && !created`. -/
def testmandirsLoop (last : Timespec) : List Bytes → Int → Bool → Code Int
  | [], amount, _ => return amount
  | name :: names, amount, create =>
    if !man.isPrefixOf name then testmandirsLoop last names amount create
    else do
      match ← call (.stat name) with
      | none =>
        call (.note name)
        testmandirsLoop last names amount create
      | some mtime =>
        if scannedAlready mtime last then
          call (.note name)
          testmandirsLoop last names amount create
        else
          match ← openFor create with
          | .error ret => return ret
          | .ok () =>
            addDirEntries build lists name
            testmandirsLoop last names (amount + 1) false

def testmandirs (last : Timespec) (create : Bool) : Code Int := do
  match ← call .readPath with
  | none => return 0
  | some names => testmandirsLoop build lists last names 0 create

def createDb : Code Int := do
  call .forget
  testmandirs build lists ⟨0, 0⟩ true

/-- `MYDBM_GET_TIME`, with `dbf->mtime`. -/
def getTime : Option Timespec → Code Timespec
  | some mtime => return mtime
  | none => call .getTime

/-- `ensure_db_open` and `sanity_check_db`. -/
def openSane : Code Bool := do
  if ← call .ensureDbOpen then call .sanityCheckDb else return false

def updateDb (memo : Option Timespec) : Code Int := do
  if ← openSane then
    let mtime ← getTime memo
    testmandirs build lists mtime false
  else return -1

/-- What `purge_missing` returns, whether it has set `force_rescan`, and `dbf->mtime` behind it. -/
def purgeMissing : Code (Int × Bool × Option Timespec) := do
  if ← call .statDb then
    if ← openSane then
      let dbMtime ← call .getTime
      let (count, forceRescan) ← call (.purgeEntries dbMtime)
      return (count, forceRescan, some dbMtime)
    else return (0, false, none)
  else return (0, false, none)

def updateDbWrapper (memo : Option Timespec) : Code Int := do
  if options.singleFilename then
    call .updateOneFile
    return 1
  else
    let amount ← updateDb build lists memo
    if 0 ≤ amount then return amount else createDb build lists

/-- Whether the database is to be created from scratch. -/
def shouldCreate : Code Bool :=
  if options.create || options.optTest then return true
  else do
    let copied ← call .copyIndex
    return !copied

/-- The old entries that have been purged, `dbf->mtime`, and `should_create` from then on. -/
def prepare (should : Bool) : Code (Int × Option Timespec × Bool) :=
  if should then do
    call .removeTmp
    return (0, none, true)
  else if options.purge then do
    let (purged, forceRescan, memo) ← purgeMissing
    if forceRescan then
      call .closeDb
      call .removeTmp
      return (purged, none, true)
    else return (purged, memo, false)
  else return (0, none, false)

def createOrUpdate (should : Bool) (memo : Option Timespec) : Code Int :=
  if should then createDb build lists else updateDbWrapper build lists options memo

def addStrays : Code Int := if options.checkForStrays then call .straycats else return 0

/-- What `mandb` returns, and by how much it has raised `purged` and `strays`. -/
def mandb : Code (Int × Int × Int) := do
  let should ← shouldCreate options
  let (purged, memo, should) ← prepare options should
  let amount ← createOrUpdate build lists options should memo
  let strays ← addStrays options
  call .closeDb
  return (amount, purged, strays)

/-- `reorganize`. The index is renamed before it is closed. -/
def reorganize : Code Unit := do
  match ← call .readIndex with
  | none => call .removeTmp
  | some db =>
    if ← call (.createCopy db) then
      if ← call .insertItems then
        call (.rename true)
        call .closeIndex
      else call .removeTmp
    else call .removeTmp

def processManpath : Code Unit := do
  let (amount, purged, strays) ← mandb build lists options
  if 0 ≤ amount ∧ !options.optTest ∧ (amount ≠ 0 ∨ purged ≠ 0 ∨ strays ≠ 0) then
    call (.rename false)
    reorganize
  else call .removeTmp

end Code

/-- What a call of a run does. The copy of an index keeps its modification time, and it does not change by opening
the copy; an absent index is copied without fail, but there is no copy then. -/
inductive Does {ι : Type} [DecidableEq ι] (i : ι) : (c : Call) → World ι → Answer c → World ι → Prop
  | copied {w db} (there : w.index = some db) :
      Does i .copyIndex w true ((w.setTmp i (some db)).setNoted i fun _ => some db.mtime)
  | copyAbsent {w} (absent : w.index = none) : Does i .copyIndex w true w
  | uncopied {w} : Does i .copyIndex w false (w.setTmp i none)
  | removed {w} : Does i .removeTmp w () (w.setTmp i none)
  | statDb {w ok} : Does i .statDb w ok w
  | ensured {w} {ok : Bool} (there : ok = true → (w.tmp i).isSome = true) : Does i .ensureDbOpen w ok w
  | checked {w ok} : Does i .sanityCheckDb w ok w
  | timed {w db} (there : w.tmp i = some db) : Does i .getTime w db.mtime w
  | purged {dbMtime w count forceRescan written} :
      Does i (.purgeEntries dbMtime) w (count, forceRescan) (w.changeTmp i (.touch (w.stamp written)))
  | forgot {w} : Does i .forget w () (w.setNoted i fun _ => none)
  | pathRead {w names} (all : ∀ name dir, w.dirs name = some dir → name ∈ names) :
      Does i .readPath w (some names)
        (w.setNoted i fun name => if name ∈ names then w.noted i name else some w.clock)
  | pathUnread {w} : Does i .readPath w none w
  | stat {name w} :
      Does i (.stat name) w ((w.dirs name).map Directory.mtime) { w with looked := Function.update w.looked i w.clock }
  | noted {name w} : Does i (.note name) w () (w.setNoted i (Function.update (w.noted i) name (some (w.looked i))))
  | created {w} : Does i .ctrwopen w .created (w.setTmp i (some ⟨w.clock, [], [], []⟩))
  | uncreated {w answer} (failed : answer ≠ .created) : Does i .ctrwopen w answer w
  | dirRead {name w dir} (there : w.dirs name = some dir) : Does i (.readDir name) w (some dir.names) w
  | dirUnread {name w} : Does i (.readDir name) w none w
  | probed {name names w dir probe} :
      Does i (.probeFiles name names) w (dir, probe) (w.changeTmp i fun db =>
        { db with
          unopened := (names.filter fun page => (openedName (page, probe page)).isNone).map (name, ·) ++ db.unopened })
  | tested {name page w written} :
      Does i (.testManfile name page) w () (w.changeTmp i fun db =>
        { db.touch (w.stamp written) with tested := (name, page) :: db.tested })
  | oneFile {w written} : Does i .updateOneFile w () (w.changeTmp i (.touch (w.stamp written)))
  | strays {w amount written} : Does i .straycats w amount (w.changeTmp i (.touch (w.stamp written)))
  | dbClosed {w written} : Does i .closeDb w () (w.changeTmp i (.touch (w.stamp written)))
  | renamed {open_ w} : Does i (.rename open_) w () (w.publish i open_)
  | unrenamed {open_ w} : Does i (.rename open_) w () (w.setTmp i none)
  | indexRead {w} : Does i .readIndex w w.index w
  | indexUnread {w} : Does i .readIndex w none w
  | copyCreated {db w} :
      Does i (.createCopy db) w true
        ((w.setTmp i (some (db.touch (some w.clock)))).setNoted i fun _ => some db.mtime)
  | copyUncreated {db w} : Does i (.createCopy db) w false w
  | inserted {w ok written} : Does i .insertItems w ok (w.changeTmp i (.touch (w.stamp written)))
  | indexClosed {w written} : Does i .closeIndex w () (w.closeIndex i written)

end ManDb.Incremental
