import Mathlib.Data.List.TakeDrop
import Mathlib.Logic.Function.Basic

namespace ManDb

/-- The signals that are trapped. -/
inductive Signal where
  | hup
  | int
  | term
  deriving DecidableEq, Repr

/-- A handler: `SIG_DFL`, `SIG_IGN`, `sighandler` of this module, or any other. -/
inductive Handler where
  | dfl
  | ign
  | sighandler
  | other (address : Nat)
  deriving DecidableEq, Repr

/-- `struct sigaction`. -/
structure SigAction where
  handler : Handler
  mask : Nat
  flags : Nat
  deriving DecidableEq, Repr

/-- A cleanup function with its argument. -/
structure Slot where
  function : Nat
  arg : Nat
  sigsafe : Bool
  deriving DecidableEq, Repr, Inhabited

/-- The dispositions of the process and the variables of the module. The stack has
`nslots` slots of which the first `tos` are in use. -/
structure CleanupState where
  action : Signal → SigAction
  saved : Signal → SigAction
  stack : List Slot
  tos : Nat
  bounded : tos ≤ stack.length
  handlerInstalled : Bool

/-- The action that installs `sighandler`. -/
def sighandlerAction : SigAction := ⟨.sighandler, 0, 0⟩

/-- Save signo's current action, and if its handler is `SIG_DFL` install `sighandler`. -/
def trapSignal (signo : Signal) (s : CleanupState) : CleanupState :=
  let oldact := s.action signo
  let s := { s with saved := Function.update s.saved signo oldact }
  if oldact.handler = .dfl then { s with action := Function.update s.action signo sighandlerAction } else s

def trapAbnormalExits (s : CleanupState) : CleanupState :=
  trapSignal .term (trapSignal .int (trapSignal .hup s))

/-- Restore signo's action if its current handler is `sighandler`. -/
def untrapSignal (signo : Signal) (s : CleanupState) : CleanupState :=
  if (s.action signo).handler = .sighandler then
    { s with action := Function.update s.action signo (s.saved signo) }
  else s

/-- Undo a previous `trap_abnormal_exits`. -/
def untrapAbnormalExits (s : CleanupState) : CleanupState :=
  untrapSignal .term (untrapSignal .int (untrapSignal .hup s))

/-- Call cleanup functions from top to bottom: the calls made for the lowest slots. -/
def callSlots (inSighandler : Bool) (stack : List Slot) : Nat → List (Nat × Nat)
  | 0 => []
  | i + 1 =>
    let slot := stack.getD i default
    (if !inSighandler || slot.sigsafe then [(slot.function, slot.arg)] else []) ++ callSlots inSighandler stack i

def doCleanupsSigsafe (inSighandler : Bool) (s : CleanupState) : List (Nat × Nat) :=
  callSlots inSighandler s.stack s.tos

/-- `do_cleanups`: the calls, and the stack freed. -/
def doCleanups (s : CleanupState) : List (Nat × Nat) × CleanupState :=
  (doCleanupsSigsafe false s, { s with tos := 0, stack := [], bounded := Nat.le_refl _ })

/-- Push a cleanup function on the stack: 0 on success, -1 on failure of `atexit`. -/
def pushCleanup (atexitOk : Bool) (slot : Slot) (s : CleanupState) : Int × CleanupState :=
  if !s.handlerInstalled && !atexitOk then (-1, s)
  else
    -- a full stack gets another slot
    let stack := if s.tos = s.stack.length then s.stack ++ [slot] else s.stack.set s.tos slot
    have bounded : s.tos + 1 ≤ stack.length := by
      have := s.bounded
      grind
    (0, trapAbnormalExits { s with handlerInstalled := true, stack, tos := s.tos + 1, bounded })

/-- The loop over the slots below `i`: one more than the index of the topmost match. -/
def findSlot (function arg : Nat) (stack : List Slot) : Nat → Option Nat
  | 0 => none
  | i + 1 =>
    if (stack.getD i default).function = function ∧ (stack.getD i default).arg = arg then some (i + 1)
    else findSlot function arg stack i

/-- Move some slots from `j` on down by one. -/
def moveDown (stack : List Slot) (j : Nat) : Nat → List Slot
  | 0 => stack
  | n + 1 => moveDown (stack.set (j - 1) (stack.getD j default)) (j + 1) n

@[simp] theorem moveDown_length (stack : List Slot) (j n : Nat) : (moveDown stack j n).length = stack.length := by
  induction n generalizing stack j with
  | zero => rfl
  | succ n ih => rw [moveDown, ih, List.length_set]

/-- Take a slot out of the stack, given one more than its index. -/
def removeSlot (s : CleanupState) : Option Nat → CleanupState
  | none => s
  | some i =>
    { s with
      stack := moveDown s.stack i (s.tos - i)
      tos := s.tos - 1
      bounded := by have := s.bounded; simp; omega }

/-- Remove the topmost cleanup function that matches the given values. The stack
must not be empty. -/
def popCleanup (function arg : Nat) (s : CleanupState) : Option CleanupState :=
  if s.tos = 0 then none
  else
    let popped := removeSlot s (findSlot function arg s.stack s.tos)
    some (if popped.tos = 0 then untrapAbnormalExits popped else popped)

/-- Pop all cleanup functions. -/
def popAllCleanups (s : CleanupState) : CleanupState :=
  untrapAbnormalExits { s with tos := 0, bounded := Nat.zero_le _ }

/-- A list without the last of its elements that matches. -/
def removeLast {α : Type} (matches_ : α → Bool) (xs : List α) : List α := (xs.reverse.eraseP matches_).reverse

def Slot.is (function arg : Nat) (slot : Slot) : Bool := slot.function == function && slot.arg == arg

/-- What was done in a run: the entries pushed and not yet popped, and since the stack
last became non-empty the dispositions before that push and the number of pushes. -/
structure CleanupHistory where
  registered : List Slot
  before : Signal → SigAction
  pushes : Nat

/-- The states of a process that calls `push_cleanup`, and `pop_cleanup` and
`pop_all_cleanups` on a stack that is not empty. -/
inductive CleanupRun : CleanupState → CleanupHistory → Prop
  | start {s : CleanupState} (empty : s.tos = 0) : CleanupRun s ⟨[], s.action, 0⟩
  | push {s s' : CleanupState} {h : CleanupHistory} {atexitOk : Bool} {slot : Slot} (run : CleanupRun s h)
      (pushed : pushCleanup atexitOk slot s = (0, s')) :
      CleanupRun s'
        { registered := h.registered ++ [slot]
          before := if h.registered = [] then s.action else h.before
          pushes := if h.registered = [] then 1 else h.pushes + 1 }
  | pushFails {s s' : CleanupState} {h : CleanupHistory} {atexitOk : Bool} {slot : Slot} (run : CleanupRun s h)
      (failed : pushCleanup atexitOk slot s = (-1, s')) : CleanupRun s' h
  | pop {s s' : CleanupState} {h : CleanupHistory} {function arg : Nat} (run : CleanupRun s h)
      (popped : popCleanup function arg s = some s') :
      CleanupRun s' { h with registered := removeLast (Slot.is function arg) h.registered }
  | popAll {s : CleanupState} {h : CleanupHistory} (run : CleanupRun s h) (nonempty : s.tos ≠ 0) :
      CleanupRun (popAllCleanups s) { h with registered := [] }

/-- A pop takes one state to the other. -/
def PopsTo (s s' : CleanupState) : Prop :=
  (∃ function arg, popCleanup function arg s = some s') ∨ (s.tos ≠ 0 ∧ s' = popAllCleanups s)

variable {s s' : CleanupState} {h : CleanupHistory} {stack : List Slot} {function arg : Nat}

/-- The entries in use. -/
def CleanupState.entries (s : CleanupState) : List Slot := s.stack.take s.tos

theorem removeLast_of_match {α : Type} {matches_ : α → Bool} {before after : List α} {x : α}
    (isMatch : matches_ x = true) (later : ∀ y ∈ after, matches_ y = false) :
    removeLast matches_ (before ++ x :: after) = before ++ after := by
  have none : ∀ y ∈ after.reverse, ¬matches_ y = true := by
    intro y member
    simp [later y (List.mem_reverse.mp member)]
  rw [removeLast, List.reverse_append, List.reverse_cons, List.append_assoc, List.eraseP_append_right _ none,
    List.singleton_append, List.eraseP_cons_of_pos isMatch]
  simp

theorem removeLast_of_none {α : Type} {matches_ : α → Bool} {xs : List α} (none : ∀ y ∈ xs, matches_ y = false) :
    removeLast matches_ xs = xs := by
  have absent : ∀ y ∈ xs.reverse, ¬matches_ y = true := by
    intro y member
    simp [none y (List.mem_reverse.mp member)]
  rw [removeLast, List.eraseP_of_forall_not absent, List.reverse_reverse]

theorem findSlot_succ (function arg : Nat) (stack : List Slot) (i : Nat) :
    findSlot function arg stack (i + 1) =
      if (stack.getD i default).is function arg then some (i + 1) else findSlot function arg stack i := by
  simp [findSlot, Slot.is]

theorem findSlot_none {i : Nat} (missed : findSlot function arg stack i = none) :
    ∀ j < i, (stack.getD j default).is function arg = false := by
  induction i with
  | zero => simp
  | succ i ih =>
    rw [findSlot_succ] at missed
    cases isMatch : (stack.getD i default).is function arg with
    | true => simp only [isMatch, if_true, reduceCtorEq] at missed
    | false =>
      rw [isMatch, if_neg Bool.false_ne_true] at missed
      intro j below
      rcases Nat.lt_succ_iff_lt_or_eq.mp below with lower | rfl
      · exact ih missed j lower
      · exact isMatch

/-- The search finds the topmost match. -/
theorem findSlot_some {i k : Nat} (found : findSlot function arg stack i = some k) :
    0 < k ∧ k ≤ i ∧ (stack.getD (k - 1) default).is function arg = true ∧
      ∀ j, k ≤ j → j < i → (stack.getD j default).is function arg = false := by
  induction i with
  | zero => cases found
  | succ i ih =>
    rw [findSlot_succ] at found
    cases isMatch : (stack.getD i default).is function arg with
    | true =>
      rw [isMatch, if_pos rfl] at found
      cases found
      exact ⟨Nat.succ_pos i, Nat.le_refl _, isMatch, fun j above below => by omega⟩
    | false =>
      rw [isMatch, if_neg Bool.false_ne_true] at found
      obtain ⟨positive, within, atMatch, later⟩ := ih found
      refine ⟨positive, by omega, atMatch, fun j above below => ?_⟩
      rcases Nat.lt_succ_iff_lt_or_eq.mp below with lower | rfl
      · exact later j above lower
      · exact isMatch

theorem moveDown_take {j n : Nat} (within : j + 1 + n ≤ stack.length) :
    (moveDown stack (j + 1) n).take (j + n) = stack.take j ++ (stack.drop (j + 1)).take n := by
  induction n generalizing stack j with
  | zero => simp [moveDown]
  | succ n ih =>
    have inside : j + 1 < stack.length := by omega
    have next := @ih (stack.set j (stack.getD (j + 1) default)) (j + 1) (by simp; omega)
    have head : (stack.set j (stack.getD (j + 1) default)).take (j + 1) = stack.take j ++ [stack[j + 1]] := by
      rw [List.take_add_one, List.take_set_of_le (Nat.le_refl _)]
      simp [inside, show j < stack.length by omega]
    have tail : (stack.set j (stack.getD (j + 1) default)).drop (j + 1 + 1) = stack.drop (j + 1 + 1) :=
      List.drop_set_of_lt (by omega)
    rw [head, tail] at next
    rw [moveDown, Nat.add_sub_cancel, show j + (n + 1) = j + 1 + n by omega, next, List.drop_eq_getElem_cons inside,
      List.take_succ_cons, List.append_assoc, List.singleton_append]

/-- A slot of the stack that is in use. -/
theorem getD_entries {j : Nat} (below : j < s.tos) :
    ∃ within : j < s.entries.length, s.entries[j] = s.stack.getD j default := by
  have bounded := s.bounded
  refine ⟨by rw [CleanupState.entries, List.length_take]; omega, ?_⟩
  simp [CleanupState.entries, show j < s.stack.length by omega]

section Signals

variable {signo other : Signal}

@[simp] theorem trapSignal_action :
    (trapSignal signo s).action other =
      if other = signo ∧ (s.action signo).handler = .dfl then sighandlerAction else s.action other := by
  by_cases same : other = signo
  · subst same
    by_cases isDfl : (s.action other).handler = .dfl <;> simp [trapSignal, isDfl]
  · by_cases isDfl : (s.action signo).handler = .dfl <;> simp [trapSignal, isDfl, same]

@[simp] theorem trapSignal_saved :
    (trapSignal signo s).saved other = if other = signo then s.action signo else s.saved other := by
  by_cases isDfl : (s.action signo).handler = .dfl <;> simp [trapSignal, isDfl, Function.update_apply]

@[simp] theorem trapSignal_entries : (trapSignal signo s).entries = s.entries := by
  by_cases isDfl : (s.action signo).handler = .dfl <;> simp [trapSignal, isDfl, CleanupState.entries]

@[simp] theorem untrapSignal_action :
    (untrapSignal signo s).action other =
      if other = signo ∧ (s.action signo).handler = .sighandler then s.saved signo else s.action other := by
  by_cases same : other = signo
  · subst same
    by_cases trapped : (s.action other).handler = .sighandler <;> simp [untrapSignal, trapped]
  · by_cases trapped : (s.action signo).handler = .sighandler <;> simp [untrapSignal, trapped, same]

@[simp] theorem untrapSignal_saved : (untrapSignal signo s).saved = s.saved := by
  by_cases trapped : (s.action signo).handler = .sighandler <;> simp [untrapSignal, trapped]

@[simp] theorem untrapSignal_entries : (untrapSignal signo s).entries = s.entries := by
  by_cases trapped : (s.action signo).handler = .sighandler <;> simp [untrapSignal, trapped, CleanupState.entries]

theorem trapAbnormalExits_action :
    (trapAbnormalExits s).action signo =
      if (s.action signo).handler = .dfl then sighandlerAction else s.action signo := by
  cases signo <;> simp [trapAbnormalExits]

theorem trapAbnormalExits_saved : (trapAbnormalExits s).saved signo = s.action signo := by
  cases signo <;> simp [trapAbnormalExits]

theorem untrapAbnormalExits_action :
    (untrapAbnormalExits s).action signo =
      if (s.action signo).handler = .sighandler then s.saved signo else s.action signo := by
  cases signo <;> simp [untrapAbnormalExits]

@[simp] theorem untrapAbnormalExits_saved : (untrapAbnormalExits s).saved = s.saved := by simp [untrapAbnormalExits]

@[simp] theorem trapAbnormalExits_entries : (trapAbnormalExits s).entries = s.entries := by simp [trapAbnormalExits]

@[simp] theorem untrapAbnormalExits_entries : (untrapAbnormalExits s).entries = s.entries := by
  simp [untrapAbnormalExits]

end Signals

@[simp] theorem entries_eq_nil : s.entries = [] ↔ s.tos = 0 := by
  have bounded := s.bounded
  rw [CleanupState.entries, List.take_eq_nil_iff]
  constructor
  · rintro (none | empty)
    · exact none
    · rw [empty] at bounded
      exact Nat.le_zero.mp bounded
  · exact Or.inl

/-- What a pop leaves of the signals. -/
structure Untraps (s s' : CleanupState) : Prop where
  saved : s'.saved = s.saved
  action : ∀ signo, s'.action signo =
    if s'.entries = [] ∧ (s.action signo).handler = .sighandler then s.saved signo else s.action signo

theorem pushCleanup_spec {atexitOk : Bool} {slot : Slot} (pushed : pushCleanup atexitOk slot s = (0, s')) :
    s'.entries = s.entries ++ [slot] ∧ (∀ signo, s'.saved signo = s.action signo) ∧
      ∀ signo, s'.action signo = if (s.action signo).handler = .dfl then sighandlerAction else s.action signo := by
  have bounded := s.bounded
  unfold pushCleanup at pushed
  split at pushed
  · cases pushed
  · cases pushed
    refine ⟨?_, fun _ => trapAbnormalExits_saved, fun _ => trapAbnormalExits_action⟩
    rw [trapAbnormalExits_entries]
    simp only [CleanupState.entries]
    split
    · rename_i full
      rw [full, List.take_length, List.take_of_length_le (by simp)]
    · rename_i room
      rw [List.take_add_one, List.take_set_of_le (Nat.le_refl _)]
      simp [show s.tos < s.stack.length by omega]

theorem pushCleanup_fails {atexitOk : Bool} {slot : Slot} (failed : pushCleanup atexitOk slot s = (-1, s')) :
    s' = s := by
  unfold pushCleanup at failed
  split at failed
  · cases failed
    rfl
  · cases failed

/-- The topmost match goes, and the entries above it move down. -/
theorem removed_entries {i : Nat} (found : findSlot function arg s.stack s.tos = some i) :
    (moveDown s.stack i (s.tos - i)).take (s.tos - 1) = removeLast (Slot.is function arg) s.entries := by
  obtain ⟨positive, within, isMatch, later⟩ := findSlot_some found
  obtain ⟨j, rfl⟩ : ∃ j, i = j + 1 := ⟨i - 1, by omega⟩
  have bounded := s.bounded
  obtain ⟨inside, atSlot⟩ := getD_entries (show j < s.tos by omega)
  have split : s.entries = s.entries.take j ++ s.entries[j] :: s.entries.drop (j + 1) := by
    rw [← List.drop_eq_getElem_cons inside, List.take_append_drop]
  have above : ∀ slot ∈ s.entries.drop (j + 1), slot.is function arg = false := by
    intro slot member
    obtain ⟨k, lower, rfl⟩ := List.mem_iff_getElem.mp member
    have below : j + 1 + k < s.tos := by
      simp only [CleanupState.entries, List.length_drop, List.length_take] at lower
      omega
    rw [List.getElem_drop, (getD_entries below).2]
    exact later _ (by omega) below
  have atMatch : Slot.is function arg s.entries[j] = true := by
    rw [atSlot]
    exact isMatch
  rw [split, removeLast_of_match atMatch above]
  have moved := moveDown_take (show j + 1 + (s.tos - (j + 1)) ≤ s.stack.length by omega)
  rw [show j + (s.tos - (j + 1)) = s.tos - 1 by omega] at moved
  rw [moved, CleanupState.entries, List.take_take, List.drop_take, Nat.min_eq_left (by omega)]

theorem untraps_popped {popped : CleanupState} (action : popped.action = s.action) (saved : popped.saved = s.saved) :
    (if popped.tos = 0 then untrapAbnormalExits popped else popped).entries = popped.entries ∧
      Untraps s (if popped.tos = 0 then untrapAbnormalExits popped else popped) := by
  by_cases empty : popped.tos = 0
  · rw [if_pos empty]
    refine ⟨untrapAbnormalExits_entries, by simp [saved], fun signo => ?_⟩
    rw [untrapAbnormalExits_action, untrapAbnormalExits_entries, action, saved]
    simp [empty]
  · rw [if_neg empty]
    exact ⟨rfl, saved, fun signo => by simp [empty, action]⟩

theorem popCleanup_spec (popped : popCleanup function arg s = some s') :
    s'.entries = removeLast (Slot.is function arg) s.entries ∧ Untraps s s' := by
  unfold popCleanup at popped
  split at popped
  · cases popped
  · cases found : findSlot function arg s.stack s.tos with
    | none =>
      have absent : ∀ slot ∈ s.entries, slot.is function arg = false := by
        intro slot member
        obtain ⟨j, inside, rfl⟩ := List.mem_iff_getElem.mp member
        have below : j < s.tos := by
          rw [CleanupState.entries, List.length_take] at inside
          omega
        rw [(getD_entries below).2]
        exact findSlot_none found j below
      rw [found] at popped
      cases popped
      obtain ⟨entries, untraps⟩ := @untraps_popped s (removeSlot s none) rfl rfl
      exact ⟨entries.trans (removeLast_of_none absent).symm, untraps⟩
    | some i =>
      rw [found] at popped
      cases popped
      obtain ⟨entries, untraps⟩ := @untraps_popped s (removeSlot s (some i)) rfl rfl
      exact ⟨entries.trans (removed_entries found), untraps⟩

theorem popAllCleanups_spec (s : CleanupState) : (popAllCleanups s).entries = [] ∧ Untraps s (popAllCleanups s) := by
  have entries : (popAllCleanups s).entries = [] := by rw [popAllCleanups, untrapAbnormalExits_entries]; rfl
  refine ⟨entries, by simp [popAllCleanups], fun signo => ?_⟩
  rw [popAllCleanups, untrapAbnormalExits_action]
  simp

/-- The actions in force and saved while the stack is not empty: a second push saves
the action that the first one installed. -/
structure Trapped (s : CleanupState) (h : CleanupHistory) : Prop where
  entries : s.entries = h.registered
  pushed : h.registered ≠ [] → 0 < h.pushes
  action : h.registered ≠ [] → ∀ signo, s.action signo =
    if (h.before signo).handler = .dfl then sighandlerAction else h.before signo
  saved : h.registered ≠ [] → ∀ signo, s.saved signo =
    if (h.before signo).handler = .dfl ∧ h.pushes ≠ 1 then sighandlerAction else h.before signo

/-- A pop that does not leave the stack empty leaves the signals alone. -/
theorem Trapped.untraps (trapped : Trapped s h) (untraps : Untraps s s') {registered : List Slot}
    (entries : s'.entries = registered) (fewer : h.registered = [] → registered = []) :
    Trapped s' { h with registered } := by
  have within : registered ≠ [] → h.registered ≠ [] := fun some_ none => some_ (fewer none)
  refine ⟨entries, fun nonempty => trapped.pushed (within nonempty), fun nonempty signo => ?_,
    fun nonempty signo => ?_⟩
  · rw [untraps.action, if_neg (by simp [entries, nonempty])]
    exact trapped.action (within nonempty) signo
  · rw [untraps.saved]
    exact trapped.saved (within nonempty) signo

theorem CleanupRun.trapped (run : CleanupRun s h) : Trapped s h := by
  induction run with
  | start empty => exact ⟨entries_eq_nil.mpr empty, by simp, by simp, by simp⟩
  | @push s s' h atexitOk slot run pushed ih =>
    obtain ⟨entries, saved, action⟩ := pushCleanup_spec pushed
    refine ⟨by rw [entries, ih.entries], fun _ => ?_, fun _ signo => ?_, fun _ signo => ?_⟩
    · dsimp only
      split <;> omega
    · rw [action signo]
      by_cases empty : h.registered = []
      · simp [empty]
      · have before := ih.action empty signo
        by_cases isDfl : (h.before signo).handler = .dfl
        · rw [if_pos isDfl] at before
          simp [before, empty, isDfl, sighandlerAction]
        · rw [if_neg isDfl] at before
          simp [before, empty, isDfl]
    · rw [saved signo]
      by_cases empty : h.registered = []
      · simp [empty]
      · have pushes := ih.pushed empty
        have before := ih.action empty signo
        have again : h.pushes ≠ 0 := by omega
        simpa [empty, again] using before
  | pushFails run failed ih =>
    rw [pushCleanup_fails failed]
    exact ih
  | @pop s s' h function arg run popped ih =>
    obtain ⟨entries, untraps⟩ := popCleanup_spec popped
    refine ih.untraps untraps (by rw [entries, ih.entries]) fun none => ?_
    rw [none]
    rfl
  | @popAll s h run nonempty ih =>
    obtain ⟨entries, untraps⟩ := popAllCleanups_spec s
    exact ih.untraps untraps entries fun _ => rfl

theorem callSlots_eq (s : CleanupState) (inSighandler : Bool) {i : Nat} (below : i ≤ s.tos) :
    callSlots inSighandler s.stack i =
      ((s.entries.take i).reverse.filter fun slot => !inSighandler || slot.sigsafe).map fun slot =>
        (slot.function, slot.arg) := by
  induction i with
  | zero => rfl
  | succ i ih =>
    obtain ⟨inside, atSlot⟩ := getD_entries (show i < s.tos by omega)
    rw [callSlots, ih (by omega), List.take_succ_eq_append_getElem inside, List.reverse_append,
      List.reverse_singleton, List.singleton_append, List.filter_cons, atSlot]
    split <;> simp

/-- A pop leaves the list of entries non-empty only if it was so before. -/
theorem PopsTo.untraps (pops : PopsTo s s') : s.entries ≠ [] ∧ Untraps s s' := by
  rcases pops with ⟨function, arg, popped⟩ | ⟨nonempty, rfl⟩
  · refine ⟨fun none => ?_, (popCleanup_spec popped).2⟩
    rw [entries_eq_nil] at none
    simp [popCleanup, none] at popped
  · exact ⟨fun none => nonempty (entries_eq_nil.mp none), (popAllCleanups_spec s).2⟩

/-- The dispositions after the last entry is popped: those saved by the last push. -/
theorem Trapped.left (trapped : Trapped s h) (pops : PopsTo s s') (empty : s'.tos = 0) (signo : Signal) :
    s'.action signo =
      if (h.before signo).handler = .dfl ∧ h.pushes ≠ 1 then sighandlerAction else h.before signo := by
  obtain ⟨some_, untraps⟩ := pops.untraps
  have nonempty : h.registered ≠ [] := trapped.entries ▸ some_
  rw [untraps.action, trapped.action nonempty, trapped.saved nonempty]
  by_cases isDfl : (h.before signo).handler = .dfl
  · simp [isDfl, sighandlerAction, entries_eq_nil.mpr empty]
  · simp [isDfl]

/-- Popping the last entry gives the signals back the dispositions they had before the
first push if and only if that was the only push, or none of them was `SIG_DFL`. -/
theorem cleanups_restored_iff (run : CleanupRun s h) :
    s.entries = h.registered ∧
      (∀ inSighandler, doCleanupsSigsafe inSighandler s =
        (h.registered.reverse.filter fun slot => !inSighandler || slot.sigsafe).map fun slot =>
          (slot.function, slot.arg)) ∧
      ∀ s', PopsTo s s' → s'.tos = 0 →
        (s'.action = h.before ↔ h.pushes = 1 ∨ ∀ signo, (h.before signo).handler ≠ .dfl) := by
  have trapped := run.trapped
  refine ⟨trapped.entries, fun inSighandler => ?_, fun s' pops empty => ?_⟩
  · rw [doCleanupsSigsafe, callSlots_eq s inSighandler (Nat.le_refl _), ← trapped.entries]
    simp [CleanupState.entries, List.take_take]
  · have left := trapped.left pops empty
    constructor
    · intro restored
      by_contra wrong
      obtain ⟨again, signo, isDfl⟩ : h.pushes ≠ 1 ∧ ∃ signo, (h.before signo).handler = .dfl := by
        simpa using wrong
      have same := left signo
      rw [if_pos ⟨isDfl, again⟩, restored] at same
      rw [same] at isDfl
      cases isDfl
    · intro once
      funext signo
      rw [left signo, if_neg]
      rintro ⟨isDfl, again⟩
      rcases once with one | notDfl
      · exact again one
      · exact notDfl signo isDfl

/-- A process before its first push. -/
def freshProcess (action : SigAction) : CleanupState :=
  ⟨fun _ => action, fun _ => action, [], 0, Nat.le_refl _, false⟩

def defaultAction : SigAction := ⟨.dfl, 0, 0⟩

/-- The process after one more push. -/
def pushOne (s : CleanupState) : CleanupState := (pushCleanup true ⟨1, 2, true⟩ s).2

theorem pushOne_pushed (s : CleanupState) : pushCleanup true ⟨1, 2, true⟩ s = (0, pushOne s) := by
  simp [pushOne, pushCleanup]

theorem cleanups_restored_iff_once :
    (popAllCleanups (pushOne (freshProcess defaultAction))).action = fun _ => defaultAction := by
  have run := CleanupRun.push (.start (s := freshProcess defaultAction) rfl) (pushOne_pushed _)
  exact ((cleanups_restored_iff run).2.2 _ (Or.inr ⟨by decide, rfl⟩) (by decide)).mpr (Or.inl rfl)

/-- After two pushes `sighandler` stays installed. -/
theorem cleanups_not_restored :
    ¬∀ s h, CleanupRun s h → ∀ s', PopsTo s s' → s'.tos = 0 → s'.action = h.before := by
  intro restored
  have run := CleanupRun.push (.push (.start (s := freshProcess defaultAction) rfl) (pushOne_pushed _))
    (pushOne_pushed _)
  have same := congrFun (restored _ _ run _ (Or.inr ⟨by decide, rfl⟩) (by decide)) .int
  revert same
  decide

end ManDb
