import ManDb.DbStore
import ManDb.Filenames

namespace ManDb

/-- `struct page_description`. -/
structure PageDescription where
  name : Bytes
  whatis : Option Bytes
  deriving DecidableEq

/-- What is asked of the system: the extensions in `comp_list`, the modification time
that `lstat` gives, and whether a file can be read. -/
structure Host where
  compExts : List Bytes
  lstat : Bytes → Option Timespec
  canAccess : Bytes → Bool

/-- Is `parent` a prefix of `child`, such that `child` is in the manual hierarchy
`parent`? -/
def isPrefix (parent child : Bytes) : Bool :=
  parent.isPrefixOf child && (ascii "/man").isPrefixOf (child.drop parent.length)

/-- The arguments of `store_descriptions` but for the database and the descriptions. -/
structure StoreRequest where
  host : Host
  info : Mandata
  path : Option Bytes
  base : Bytes
  trace : List Bytes

namespace StoreRequest

variable (r : StoreRequest)

def traceInfo (traceName : Bytes) : Option Mandata := filenameInfo r.host.compExts traceName

/-- What an entry takes from the page as such. -/
def entryFor (desc : PageDescription) : Mandata :=
  { r.info with name := none, pointer := none, whatis := desc.whatis }

/-- What an entry takes from the trace file of its name. -/
def realEntry (entry : Mandata) (traceName : Bytes) (traceInfo : Mandata) (isLast : Bool) : Mandata :=
  { entry with
    ext := traceInfo.ext
    sec := traceInfo.sec
    id :=
      if isLast then if r.info.id = soMan then ultMan else entry.id
      else if r.info.id = ultMan then soMan else entry.id
    comp := traceInfo.comp
    mtime := (r.host.lstat traceName).getD r.info.mtime }

/-- The loop that looks for the real page of a description. It ends with `none` at a
link outside this manual hierarchy. -/
def findRealPage (name : Bytes) : List Bytes → Mandata → Bool → Option (Mandata × Bool)
  | [], entry, found => some (entry, found)
  | traceName :: rest, entry, found =>
    match r.traceInfo traceName with
    | none => findRealPage name rest entry found
    | some traceInfo =>
      if traceInfo.name ≠ some name then findRealPage name rest entry found
      else if r.path.any (fun path => !isPrefix path traceName) then none
      else findRealPage name rest (r.realEntry entry traceName traceInfo rest.isEmpty) true

end StoreRequest

/-- Either it is the real thing or merely a reference, or it is skipped. -/
inductive Described where
  | real (entry : Mandata)
  | reference (entry : Mandata)
  | external

/-- The first half of the loop over the descriptions. -/
def StoreRequest.describe (r : StoreRequest) (desc : PageDescription) : Described :=
  if r.base = desc.name then .real (r.entryFor desc)
  else
    match r.findRealPage desc.name r.trace (r.entryFor desc) false with
    | none => .external
    | some (entry, true) => .real entry
    | some (entry, false) =>
      .reference { entry with
        name := some desc.name
        id := if r.info.id < strayCat then whatisMan else whatisCat
        whatis := none }

/-- How far a call got: the arguments of the calls of `dbstore` that were made, the
database, and whether it went to `out` or the process ended. -/
structure StoreRun where
  calls : List (Bytes × Mandata)
  db : Except Fatal Store
  stopped : Bool

/-- A call of `dbstore`, and the test of its result. -/
def StoreRun.store (loc : Locale) (run : StoreRun) (name : Bytes) (entry : Mandata) : StoreRun :=
  match run.stopped, run.db with
  | false, .ok db =>
    match dbstore loc db entry name with
    | .ok (code, db') => ⟨run.calls ++ [(name, entry)], .ok db', 0 < code⟩
    | .error fatal => ⟨run.calls ++ [(name, entry)], .error fatal, true⟩
  | _, _ => run

/-- One turn of the loop over the descriptions, with the list of references. -/
def storeDescriptionTurn (loc : Locale) (r : StoreRequest) (s : StoreRun × List Mandata) (desc : PageDescription) :
    StoreRun × List Mandata :=
  if s.1.stopped then s
  else
    match r.describe desc with
    | .external => s
    | .reference entry => (s.1, s.2 ++ [entry])
    | .real entry => (s.1.store loc desc.name entry, s.2)

/-- The last trace file with the section and extension of the starting page. -/
def StoreRequest.pointerInfo (r : StoreRequest) : Option Mandata :=
  r.trace.foldl (fun pointerInfo traceName =>
    match r.traceInfo traceName with
    | none => pointerInfo
    | some traceInfo =>
      if traceInfo.sec = r.info.sec ∧ traceInfo.ext = r.info.ext then some traceInfo else pointerInfo) none

def storeReference (loc : Locale) (pointerInfo : Mandata) (run : StoreRun) (entry : Mandata) : StoreRun :=
  run.store loc (entry.name.getD []) { entry with name := none, pointer := pointerInfo.name }

/-- Take a list of descriptions and store it into the database; `none` if an
assertion fails. -/
def storeDescriptions (loc : Locale) (r : StoreRequest) (descs : List PageDescription) (db : Store) :
    Option StoreRun :=
  if r.trace = [] then none
  else
    let (run, whatisInfos) := descs.foldl (storeDescriptionTurn loc r) (⟨[], .ok db, false⟩, [])
    if run.stopped then some run
    else r.pointerInfo.map fun pointerInfo => whatisInfos.foldl (storeReference loc pointerInfo) run

end ManDb
