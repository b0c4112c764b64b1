import Mathlib.Logic.Function.Basic
import ManDb.Dbm
import ManDb.Lib.SortedList

namespace ManDb

/-- `datum`: the `dsize` bytes it points to, or a null pointer. -/
abbrev Datum := Option Bytes

/-- `strncmp` on memory that holds so many bytes. -/
def strncmp : Nat → Bytes → Bytes → Ordering
  | n + 1, a :: left, b :: right =>
    if a = b then if a = 0 then .eq else strncmp n left right else compare a b
  | _, _, _ => .eq

/-- Null pointers sort to the end, and so do the shorter of two keys that agree
as far as they go. -/
def datumCompare : Datum → Datum → Ordering
  | none, _ => .gt
  | some _, none => .lt
  | some left, some right =>
    (strncmp (min left.length right.length) left right).then (compare right.length left.length)

/-- `firstkey` and `nextkey` of the dbm library, in an order of its own. -/
structure Unsorted where
  firstkey : Store → Datum
  nextkey : Store → Bytes → Datum

/-- What the manual of the library says: every stored key is given once. -/
def Unsorted.Enumerates (dbm : Unsorted) : Prop :=
  ∀ db : Store, ∃ keys : List Bytes, keys.Perm db.keys ∧ dbm.firstkey db = keys[0]? ∧
    ∀ (i : Nat) (key : Bytes), keys[i]? = some key → dbm.nextkey db key = keys[i + 1]?

/-- `gl_sortedlist_add` and `gl_sortedlist_search`; a node is its position. -/
structure GlList where
  add : (Datum → Datum → Ordering) → List Datum → Datum → List Datum
  search : (Datum → Datum → Ordering) → List Datum → Datum → Option Nat

/-- What gl_list.h says of the two, for a list sorted by a comparison that is
consistent on it and on the element in question. -/
structure GlList.Documented (lists : GlList) : Prop where
  add_perm : ∀ cmp xs x, (lists.add cmp xs x).Perm (x :: xs)
  add_sorted : ∀ cmp xs x, SortedList.Consistent cmp (x :: xs) → SortedList.Sorted cmp xs →
    SortedList.Sorted cmp (lists.add cmp xs x)
  search_some : ∀ cmp xs x, SortedList.Consistent cmp (x :: xs) → SortedList.Sorted cmp xs →
    (∃ y ∈ xs, cmp y x = .eq) → ∃ (i : Nat) (y : Datum), lists.search cmp xs x = some i ∧ xs[i]? = some y ∧
      cmp y x = .eq

/-- The databases of a process by their file names, and `parent_keys`. -/
structure Process where
  file : Bytes → Store
  parentKeys : Bytes → Option (List Datum)

/-- The loop that builds the sorted list of keys, for at most so many turns. -/
def collectKeys (dbm : Unsorted) (lists : GlList) (db : Store) : Nat → Datum → List Datum → Option (List Datum)
  | 0, _, _ => none
  | _ + 1, none, keys => some keys
  | n + 1, some key, keys =>
    collectKeys dbm lists db n (dbm.nextkey db key) (lists.add datumCompare keys (some key))

def manXdbmFirstkey (dbm : Unsorted) (lists : GlList) (p : Process) (name : Bytes) : Option (Datum × Process) := do
  let db := p.file name
  let keys ← collectKeys dbm lists db (db.keys.length + 1) (dbm.firstkey db) []
  return (keys[0]?.join, { p with parentKeys := Function.update p.parentKeys name (some keys) })

def manXdbmNextkey (lists : GlList) (p : Process) (name : Bytes) (key : Datum) : Datum :=
  match p.parentKeys name with
  | none => none
  | some keys =>
    match lists.search datumCompare keys key with
    | none => none
    | some node => keys[node + 1]?.join

/-- What a program does to its databases between two keys. -/
inductive XdbmOp where
  | insert (name key content : Bytes)
  | replace (name key content : Bytes)
  | delete (name key : Bytes)
  | firstkey (name : Bytes)

def Process.setFile (p : Process) (name : Bytes) (db : Store) : Process :=
  { p with file := Function.update p.file name db }

@[simp] theorem Process.setFile_self (p : Process) (name : Bytes) (db : Store) :
    (p.setFile name db).file name = db := Function.update_self ..

theorem Process.setFile_of_ne (p : Process) {name other : Bytes} (different : other ≠ name) (db : Store) :
    (p.setFile name db).file other = p.file other := Function.update_of_ne different ..

@[simp] theorem Process.setFile_parentKeys (p : Process) (name : Bytes) (db : Store) :
    (p.setFile name db).parentKeys = p.parentKeys := rfl

def XdbmOp.run (dbm : Unsorted) (lists : GlList) (p : Process) : XdbmOp → Option Process
  | insert name key content => some (p.setFile name (((p.file name).insertNew key content).getD (p.file name)))
  | replace name key content => some (p.setFile name ((p.file name).replace key content))
  | delete name key => some (p.setFile name ((p.file name).delete key))
  | firstkey name => (manXdbmFirstkey dbm lists p name).map Prod.snd

/-- The `n`-th datum of the sequence firstkey, nextkey, nextkey, ... of a database,
with other operations between one call and the next. -/
def nthKey (dbm : Unsorted) (lists : GlList) (p : Process) (name : Bytes) (between : Nat → List XdbmOp) :
    Nat → Option (Datum × Process)
  | 0 => manXdbmFirstkey dbm lists p name
  | n + 1 => do
    let (key, p) ← nthKey dbm lists p name between n
    let p ← (between n).foldlM (XdbmOp.run dbm lists) p
    return (manXdbmNextkey lists p name key, p)

/-- `dbver_rd` on a file whose keys and contents have their terminators. -/
def fileVersionRd (db : Store) : Bool := (db.fetch (Store.verKey ++ [0])).map cString != some Store.verId

/-- The copy loop of `reorganize`, for at most so many turns; a failed insertion
leaves it for good. -/
def copyLoop (lists : GlList) (dbname tmpdbname : Bytes) : Nat → Process → Datum → Option Process
  | 0, _, _ => none
  | _ + 1, p, none => some p
  | n + 1, p, some key => do
    let content ← (p.file dbname).fetch key
    let tmpdb ← (p.file tmpdbname).insertNew key content
    let p := p.setFile tmpdbname tmpdb
    copyLoop lists dbname tmpdbname n p (manXdbmNextkey lists p dbname (some key))

/-- `mkdbname`, with the extension of the back end. -/
def mkdbname (dbExt catpath : Bytes) : Bytes := catpath ++ ascii "/index" ++ dbExt

def tmpdbname (catpath : Bytes) (pid : Int) : Bytes := catpath ++ ascii "/" ++ printLong pid

/-- `reorganize`, up to the point where the copy has taken the place of the
database; `none` when it leaves the database alone. -/
def reorganize (dbm : Unsorted) (lists : GlList) (dbExt : Bytes) (p : Process) (catpath : Bytes) (pid : Int) :
    Option Process := do
  let dbname := mkdbname dbExt catpath
  let tmp := tmpdbname catpath pid
  if fileVersionRd (p.file dbname) then none
  else
    let p := p.setFile tmp ∅
    let (key, p) ← manXdbmFirstkey dbm lists p dbname
    let p ← copyLoop lists dbname tmp ((p.file dbname).keys.length + 1) p key
    let p := (p.setFile dbname (p.file tmp)).setFile tmp ∅
    return { p with parentKeys := Function.update (Function.update p.parentKeys tmp none) dbname none }

end ManDb
