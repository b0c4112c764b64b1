import ManDb.Text

namespace ManDb

/-- `struct timespec`. -/
structure Timespec where
  sec : Int
  nsec : Int
  deriving DecidableEq, Repr, Inhabited

/-- `timespec_cmp`. -/
def timespecCmp (a b : Timespec) : Ordering := (compare a.sec b.sec).then (compare a.nsec b.nsec)

/-- `struct mandata`. A null pointer is `none`; `ext` and `sec` are set in every
structure that reaches the index. -/
structure Mandata where
  name : Option Bytes
  ext : Bytes
  sec : Bytes
  id : UInt8
  pointer : Option Bytes
  comp : Option Bytes
  filter : Option Bytes
  whatis : Option Bytes
  mtime : Timespec
  deriving DecidableEq, Repr, Inhabited

def ultMan : UInt8 := 65
def soMan : UInt8 := 66
def whatisMan : UInt8 := 67
def strayCat : UInt8 := 68
def whatisCat : UInt8 := 69

/-- The ways in which the index routines end the process. -/
inductive Fatal where
  /-- "only %d fields in content", then `gripe_corrupt_data`. -/
  | onlyFields (count : Nat)
  /-- "bad fetch on multi key %s", then `gripe_corrupt_data`. -/
  | badFetch (key : Bytes)
  /-- "multi key %s does not exist", then `gripe_corrupt_data`. -/
  | noMultiKey (key : Bytes)
  /-- "Database %s corrupted; rebuild with mandb --create". -/
  | corrupted (key : Bytes)
  deriving DecidableEq, Repr, Inhabited

def copyIfSet (str : Bytes) : Option Bytes := if str = [dash] then none else some str

def dashIfUnset (str : Option Bytes) : Bytes := str.getD [dash]

/-- What `make_content` writes back into its argument before it prints it. -/
def setDefaults (info : Mandata) : Mandata :=
  { info with
    pointer := some (info.pointer.getD [dash])
    comp := some (info.comp.getD [dash])
    filter := some (info.filter.getD [dash])
    whatis := some (info.whatis.getD []) }

/-- The two parts of the printed content around the `%c` of the id. -/
def contentHead (info : Mandata) : Bytes :=
  dashIfUnset info.name ++ tab :: info.ext ++ tab :: info.sec ++ tab :: printLong info.mtime.sec ++
    tab :: printLong info.mtime.nsec ++ [tab]

def contentTail (info : Mandata) : Bytes :=
  tab :: info.pointer.getD [dash] ++ tab :: info.filter.getD [dash] ++ tab :: info.comp.getD [dash] ++
    tab :: info.whatis.getD []

/-- The complement of `splitContent`. `MYDBM_SET` takes the length with `strlen`,
so that an id of NUL would end the content there. -/
def makeContent (info : Mandata) : Bytes :=
  if info.id = 0 then contentHead info else contentHead info ++ info.id :: contentTail info

/-- `split_data`: `more` fields up to a tab each, and one with all that is left. -/
def splitData : (more count : Nat) → Option Bytes → Except Fatal (List Bytes)
  | _, count, none => .error (.onlyFields count)
  | 0, _, some content => .ok [content]
  | more + 1, count, some content =>
    ((Separated.cut tab content).1 :: ·) <$>
      splitData more (count + 1) (Separated.cut tab content).2

/-- `FIELDS`. -/
def fieldCount : Nat := 10

/-- Parse the db-returned data and put it into a mandata format. -/
def splitContent (content : Bytes) : Except Fatal Mandata :=
  match splitData (fieldCount - 1) 0 (some content) with
  | .ok [name, ext, sec, tvSec, tvNsec, id, pointer, filter, comp, whatis] =>
    .ok
      { name := copyIfSet name, ext := ext, sec := sec
        mtime := ⟨atol tvSec, atol tvNsec⟩
        id := id.headD 0
        pointer := some pointer, filter := some filter, comp := some comp, whatis := some whatis }
  | .ok fields => .error (.onlyFields fields.length)
  | .error fatal => .error fatal

/-- No tab in any field but the description, and an id that can be printed: the
records whose content has the ten fields it should have. -/
structure Mandata.Clean (info : Mandata) : Prop where
  ext : tab ∉ info.ext
  sec : tab ∉ info.sec
  idTab : info.id ≠ tab
  idNul : info.id ≠ 0
  pointer : ∀ s ∈ info.pointer, tab ∉ s
  comp : ∀ s ∈ info.comp, tab ∉ s
  filter : ∀ s ∈ info.filter, tab ∉ s

instance (info : Mandata) : Decidable info.Clean :=
  decidable_of_iff (tab ∉ info.ext ∧ tab ∉ info.sec ∧ info.id ≠ tab ∧ info.id ≠ 0 ∧
      (∀ s ∈ info.pointer, tab ∉ s) ∧ (∀ s ∈ info.comp, tab ∉ s) ∧ ∀ s ∈ info.filter, tab ∉ s)
    ⟨fun ⟨a, b, c, d, e, f, g⟩ => ⟨a, b, c, d, e, f, g⟩, fun ⟨a, b, c, d, e, f, g⟩ => ⟨a, b, c, d, e, f, g⟩⟩

/-- The name field of a content: absent, or a name that is not read back as absent. -/
def NameField (name : Option Bytes) : Prop := ∀ n ∈ name, n ≠ [] ∧ n ≠ [dash] ∧ tab ∉ n

@[simp] theorem nameField_none : NameField none := by simp [NameField]

theorem splitData_step {more count : Nat} {field rest : Bytes} (clean : tab ∉ field) :
    splitData (more + 1) count (some (field ++ tab :: rest)) =
      (field :: ·) <$> splitData more (count + 1) (some rest) := by
  simp only [splitData, Separated.cut_append_cons clean]

theorem tab_not_mem_default {field : Option Bytes} (clean : ∀ s ∈ field, tab ∉ s) :
    tab ∉ field.getD [dash] := by
  cases field with
  | none => decide
  | some s => exact clean s rfl

theorem tab_not_mem_dashIfUnset {name : Option Bytes} (field : NameField name) :
    tab ∉ dashIfUnset name :=
  tab_not_mem_default (fun n member => (field n member).2.2)

theorem copyIfSet_dashIfUnset {name : Option Bytes} (field : NameField name) :
    copyIfSet (dashIfUnset name) = name := by
  cases name with
  | none => rfl
  | some n => simp [dashIfUnset, copyIfSet, (field n rfl).2.1]

theorem makeContent_fields {info : Mandata} (printable : info.id ≠ 0) :
    makeContent info =
      dashIfUnset info.name ++ tab :: (info.ext ++ tab :: (info.sec ++ tab ::
        (printLong info.mtime.sec ++ tab :: (printLong info.mtime.nsec ++ tab :: ([info.id] ++ tab ::
          (info.pointer.getD [dash] ++ tab :: (info.filter.getD [dash] ++ tab ::
            (info.comp.getD [dash] ++ tab :: info.whatis.getD [])))))))) := by
  simp [makeContent, printable, contentHead, contentTail]

/-- Reading back what was printed gives the record with its defaults filled in. -/
theorem splitContent_makeContent {info : Mandata} (clean : info.Clean) (field : NameField info.name) :
    splitContent (makeContent info) = .ok (setDefaults info) := by
  have id : tab ∉ [info.id] := by simpa using clean.idTab.symm
  unfold splitContent fieldCount
  rw [makeContent_fields clean.idNul, splitData_step (tab_not_mem_dashIfUnset field),
    splitData_step clean.ext, splitData_step clean.sec, splitData_step (tab_not_mem_printLong _),
    splitData_step (tab_not_mem_printLong _), splitData_step id,
    splitData_step (tab_not_mem_default clean.pointer), splitData_step (tab_not_mem_default clean.filter),
    splitData_step (tab_not_mem_default clean.comp)]
  simp only [splitData, Functor.map, Except.map, List.headD_cons, atol_printLong,
    copyIfSet_dashIfUnset field, setDefaults]

theorem Mandata.Clean.withDefaults {info : Mandata} (clean : info.Clean) : (setDefaults info).Clean where
  ext := clean.ext
  sec := clean.sec
  idTab := clean.idTab
  idNul := clean.idNul
  pointer := by rintro s ⟨⟩; exact tab_not_mem_default clean.pointer
  comp := by rintro s ⟨⟩; exact tab_not_mem_default clean.comp
  filter := by rintro s ⟨⟩; exact tab_not_mem_default clean.filter

@[simp] theorem makeContent_setDefaults (info : Mandata) :
    makeContent (setDefaults info) = makeContent info := rfl

/-- A record never looks like an index. -/
theorem head_makeContent {info : Mandata} (field : NameField info.name) :
    (makeContent info).head? ≠ some tab := by
  have start : ∀ rest, (dashIfUnset info.name ++ rest).head? ≠ some tab := by
    intro rest
    have clean := tab_not_mem_dashIfUnset field
    cases shape : dashIfUnset info.name with
    | nil =>
      cases atName : info.name with
      | none => simp [dashIfUnset, atName] at shape
      | some n => exact absurd (by simpa [dashIfUnset, atName] using shape) (field n atName).1
    | cons b s =>
      rintro ⟨⟩
      simp [shape] at clean
  unfold makeContent contentHead
  split
  · simpa only [List.append_assoc] using start _
  · simpa only [List.append_assoc] using start _

end ManDb
