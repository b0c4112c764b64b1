import ManDb.Publication.Allowed

namespace ManDb.Publication

open Threads

variable {ι : Type} {xfile : Bytes} {xtmpfile : ι → Bytes} {i : ι} {s t : Disk ι} {m n : Nat} {db : Store}

/-- What the others leave as it is. -/
theorem relied (kept : Kept xfile xtmpfile s) (within : (rules xfile xtmpfile i).rely s t) :
    t.link (xtmpfile i) = s.link (xtmpfile i) ∧
      (∀ n < s.fresh, s.owner n = i → t.owner n = i ∧ t.data n = s.data n) ∧
      (∀ m, s.link (xtmpfile i) = some m → t.data m = s.data m) := by
  obtain ⟨j, other, changed⟩ := within
  have mine : ∀ n < s.fresh, s.owner n = i → t.owner n = i ∧ t.data n = s.data n := fun n old own =>
    ⟨(changed.owners n old).trans own, changed.files n old (own.symm ▸ other.symm)⟩
  exact ⟨changed.tmps i other.symm, mine, fun m there => (mine m (kept.made _ m there) (kept.own i m there)).2⟩

/-- The process has no temporary file. -/
def Absent (xtmpfile : ι → Bytes) (i : ι) (s : Disk ι) : Prop := s.link (xtmpfile i) = none

/-- The file may be copied: it is in nobody's temporary file, and it holds a finished update. -/
def Source (xtmpfile : ι → Bytes) (n : Nat) (s : Disk ι) : Prop :=
  n < s.fresh ∧ (∀ j, s.link (xtmpfile j) ≠ some n) ∧ Good s n

/-- The temporary file, if there is one, holds a finished update. -/
def Ready (xtmpfile : ι → Bytes) (i : ι) (s : Disk ι) : Prop := ∀ m, s.link (xtmpfile i) = some m → Closed s m

/-- The temporary file is open, and this is stored in it. -/
def Open (xtmpfile : ι → Bytes) (i : ι) (m : Nat) (db : Store) (s : Disk ι) : Prop :=
  s.link (xtmpfile i) = some m ∧ s.data m = .unflushed db

/-- A finished update has been read. -/
def Known (db : Store) (s : Disk ι) : Prop := s.caught = false → db ∈ s.finished

/-- The process has made a file, and it is still open. -/
def Mine (i : ι) (m : Nat) (db : Store) (s : Disk ι) : Prop := m < s.fresh ∧ s.owner m = i ∧ s.data m = .unflushed db

theorem Source.changed {j : ι} (source : Source xtmpfile n s) (changed : Changed xtmpfile j s t) :
    Source xtmpfile n t := by
  obtain ⟨old, outside, good⟩ := source
  obtain ⟨still, better⟩ := changed.released n old outside
  exact ⟨Nat.lt_of_lt_of_le old changed.more, still, better good⟩

theorem stable_absent : (rules xfile xtmpfile i).Stable (Absent xtmpfile i) :=
  fun _ _ kept _ within absent => (relied kept within).1.trans absent

theorem stable_source (n : Nat) : (rules xfile xtmpfile i).Stable (Source xtmpfile n) := by
  rintro s t _ _ ⟨j, _, changed⟩ source
  exact source.changed changed

theorem stable_made (m : Nat) : (rules xfile xtmpfile i).Stable fun s => s.link (xtmpfile i) = some m :=
  fun _ _ kept _ within there => (relied kept within).1.trans there

theorem stable_ready : (rules xfile xtmpfile i).Stable (Ready xtmpfile i) := by
  intro s t kept _ within ready m there
  obtain ⟨same, _, data⟩ := relied kept within
  obtain ⟨j, _, changed⟩ := within
  rw [same] at there
  exact (ready m there).mono (data m there) changed.finished changed.caught

theorem stable_open (m : Nat) (db : Store) : (rules xfile xtmpfile i).Stable (Open xtmpfile i m db) := by
  intro s t kept _ within open_
  obtain ⟨same, _, data⟩ := relied kept within
  exact ⟨same.trans open_.1, (data m open_.1).trans open_.2⟩

theorem stable_known (db : Store) : (rules xfile xtmpfile i).Stable (Known db) := by
  rintro s t _ _ ⟨j, _, changed⟩ known uncaught
  exact changed.finished db (known (changed.caught uncaught))

theorem stable_mine (m : Nat) (db : Store) : (rules xfile xtmpfile i).Stable (Mine i m db) := by
  rintro s t kept _ within ⟨old, own, data⟩
  obtain ⟨owner, same⟩ := (relied kept within).2.1 m old own
  obtain ⟨j, _, changed⟩ := within
  exact ⟨Nat.lt_of_lt_of_le old changed.more, owner, same.trans data⟩

/-- What is open and has been read from the index may become the index. -/
theorem Open.good (open_ : Open xtmpfile i m db s) (known : Known db s) : Good s m :=
  fun uncaught => ⟨db, known uncaught, Or.inr open_.2⟩

theorem Open.mine (kept : Kept xfile xtmpfile s) (open_ : Open xtmpfile i m db s) : Mine i m db s :=
  ⟨kept.made _ m open_.1, kept.own i m open_.1, open_.2⟩

/-- The temporary file is open if `dbf->file` is. -/
def Opened (xtmpfile : ι → Bytes) (i : ι) (file : Option Nat) (s : Disk ι) : Prop :=
  ∀ m, file = some m → ∃ db, Open xtmpfile i m db s

theorem stable_opened (file : Option Nat) : (rules xfile xtmpfile i).Stable (Opened xtmpfile i file) := by
  intro s t kept kept' within opened m same
  obtain ⟨db, open_⟩ := opened m same
  exact ⟨db, stable_open m db s t kept kept' within open_⟩

theorem opened_none (s : Disk ι) : Opened xtmpfile i none s := fun _ same => by cases same

theorem ready_removed (s : Disk ι) : Ready xtmpfile i (s.setLink (xtmpfile i) none) := fun m there => by
  rw [Disk.setLink_self] at there
  cases there

/-- What the copy holds are the items that have been copied. -/
def Filled (copied : List (Bytes × Bytes)) (db : Store) : Prop :=
  ∀ key content, db.fetch key = some content ↔ (key, content) ∈ copied

theorem Filled.empty : Filled [] ∅ := fun key content => by simp

theorem Filled.snoc {copied : List (Bytes × Bytes)} {db : Store} {key content : Bytes} (filled : Filled copied db)
    (new : ∀ item ∈ copied, item.1 ≠ key) : Filled (copied ++ [(key, content)]) (db.replace key content) := by
  intro other value
  rw [List.mem_append, List.mem_singleton, Prod.mk.injEq]
  by_cases same : other = key
  · subst same
    rw [Store.fetch_replace_self, Option.some.injEq, eq_comm]
    exact ⟨fun equal => Or.inr ⟨rfl, equal⟩, fun either => either.elim (fun old => absurd rfl (new _ old)) And.right⟩
  · rw [Store.fetch_replace_of_ne same, filled]
    exact ⟨Or.inl, fun either => either.resolve_right fun both => same both.1⟩

theorem Filled.whole {db db' : Store} (filled : Filled db.toList db') : db' = db := by
  refine Store.ext_fetch fun key => Option.ext fun content => ?_
  rw [filled, Store.fetch]
  exact Std.ExtTreeMap.mem_toList_iff_getElem?_eq_some

end ManDb.Publication
