import ManDb.Publication.Outlines

namespace ManDb.Publication

open Threads

variable {ι : Type}

/-- What becomes of a process that is interrupted: the handler of a signal that is trapped unlinks the temporary
database that is registered, and nothing is done otherwise. -/
inductive Interrupted (i : ι) (s : Disk ι) : Code Unit → Prop
  | handled {path : Bytes} (registered : s.tmp i = some path) : Interrupted i s (checkRemove path)
  | killed : Interrupted i s (pure ())

/-- Processes with one cat directory, each in the middle of what it does for its hierarchy. -/
abbrev Processes (ι : Type) := Pool Call Answer (Disk ι) ι

/-- A process makes a call, or it is interrupted. -/
abbrev Turn [DecidableEq ι] : Processes ι → Processes ι → Prop := Step Does Interrupted fun _ _ => False

def startProcesses (dbExt catpath : Bytes) (pid : ι → Int) (options : ι → Options) (s : Disk ι) : Processes ι where
  state := s
  threads i := processManpath (mkdbname dbExt catpath) (tmpdbname catpath (pid i)) (options i)

/-- How the processes find the cat directory: there are no temporary databases of theirs, and the index, if there
is one, has been finished. -/
structure Found (dbExt catpath : Bytes) (pid : ι → Int) (s : Disk ι) : Prop where
  made : ∀ path n, s.link path = some n → n < s.fresh
  single : ∀ path other n, s.link path = some n → s.link other = some n → path = other
  noTmp : ∀ i, s.link (tmpdbname catpath (pid i)) = none
  unregistered : ∀ i, s.tmp i = none
  index : ∀ n, s.link (mkdbname dbExt catpath) = some n → ∃ db ∈ s.finished, s.data n = .database db

variable {dbExt catpath : Bytes} {pid : ι → Int} {options : ι → Options} {s : Disk ι} {pool : Processes ι}

theorem tmpdbname_injective (distinct : Function.Injective pid) :
    Function.Injective fun i => tmpdbname catpath (pid i) := by
  intro i j same
  apply distinct
  have text : printLong (pid i) = printLong (pid j) := List.append_cancel_left same
  rw [← atol_printLong (pid i), text, atol_printLong]

theorem Found.kept (found : Found dbExt catpath pid s) :
    Kept (mkdbname dbExt catpath) (fun i => tmpdbname catpath (pid i)) s where
  made := found.made
  single := found.single
  own i n there := by
    rw [found.noTmp i] at there
    cases there
  cleanup i path registered := by
    rw [found.unregistered i] at registered
    cases registered
  index n there _ := by
    obtain ⟨db, member, data⟩ := found.index n there
    exact ⟨db, member, Or.inl data⟩

variable [DecidableEq ι]

/-- The rules of the processes fit together. -/
theorem rules_fit (distinct : Function.Injective pid) :
    Fit Does Interrupted (fun _ _ => False) (rules (mkdbname dbExt catpath) fun i => tmpdbname catpath (pid i))
      (Kept (mkdbname dbExt catpath) fun i => tmpdbname catpath (pid i)) where
  shared _ := rfl
  apart i j different s t _ _ changed := ⟨i, different, changed⟩
  others _ _ _ never := never.elim
  handlers i s p kept handles := by
    have apart (j : ι) : tmpdbname catpath (pid j) ≠ mkdbname dbExt catpath := tmpdbname_ne dbExt catpath (pid j)
    cases handles with
    | handled registered =>
      obtain rfl := kept.cleanup i _ registered
      exact (lines_checkRemoveTmp apart (tmpdbname_injective distinct)).weaken fun _ _ _ => trivial
    | killed => exact (lines_pure (.const True) fun _ => id).weaken fun _ _ _ => trivial

/-- An empty cat directory. -/
def emptyDisk : Disk Bool where
  link _ := none
  data _ := .part
  owner _ := false
  fresh := 0
  tmp _ := none
  finished := []
  caught := false

/-- Two processes that both create the database. -/
def twoPids : Bool → Int := fun i => if i then 10 else 11

def createAnew : Options := ⟨true, false, false, false, false⟩

end ManDb.Publication
