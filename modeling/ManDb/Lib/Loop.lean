import Mathlib.Logic.Basic
import Mathlib.Logic.Function.Iterate

namespace Loop

variable {S R : Type*}

/-- A loop whose turns either end it with a result or give another state, for at
most so many turns. -/
def run (step : S → R ⊕ S) : Nat → S → Option R
  | 0, _ => none
  | n + 1, s =>
    match step s with
    | .inl r => some r
    | .inr s => run step n s

/-- So many turns lead from one state to another. -/
inductive Turns (step : S → R ⊕ S) : Nat → S → S → Prop
  | refl {s} : Turns step 0 s s
  | turn {n s t u} : step s = .inr t → Turns step n t u → Turns step (n + 1) s u

variable {step : S → R ⊕ S} {s t u : S} {r : R} {m n k : Nat}

theorem run_ends (ends : step s = .inl r) (n : Nat) : run step (n + 1) s = some r := by
  simp only [run, ends]

theorem run_turn (turn : step s = .inr t) (n : Nat) : run step (n + 1) s = run step n t := by
  simp only [run, turn]

theorem Turns.run (turns : Turns step k s t) (n : Nat) : run step (n + k) s = run step n t := by
  induction turns with
  | refl => rfl
  | turn first _ ih => rw [← Nat.add_assoc, run_turn first, ih]

/-- Two states with the same turn have the same runs. -/
theorem run_congr (same : step s = step t) (n : Nat) : run step n s = run step n t := by
  cases n with
  | zero => rfl
  | succ n => simp only [run, same]

/-- A run that gives a result has taken all of the turns on its way. -/
theorem Turns.of_run (turns : Turns step k s t) (returns : Loop.run step n s = some r) :
    ∃ m, n = m + k ∧ Loop.run step m t = some r := by
  induction turns generalizing n with
  | refl => exact ⟨n, rfl, returns⟩
  | turn first _ ih =>
    cases n with
    | zero => cases returns
    | succ n =>
      rw [run_turn first] at returns
      obtain ⟨m, rfl, rest⟩ := ih returns
      exact ⟨m, rfl, rest⟩

theorem Turns.ends_run {r' : R} (turns : Turns step k s t) (ends : step t = .inl r')
    (returns : Loop.run step n s = some r) : r = r' := by
  obtain ⟨m, _, rest⟩ := turns.of_run returns
  cases m with
  | zero => cases rest
  | succ m =>
    rw [run_ends ends] at rest
    exact (Option.some.inj rest).symm

theorem Turns.snoc (turns : Turns step k s t) (last : step t = .inr u) : Turns step (k + 1) s u := by
  induction turns with
  | refl => exact .turn last .refl
  | turn first _ ih => exact .turn first (ih last)

theorem run_mono (returns : run step n s = some r) (k : Nat) : run step (n + k) s = some r := by
  induction n generalizing s with
  | zero => cases returns
  | succ n ih =>
    rw [Nat.add_right_comm]
    cases turn : step s with
    | inl r' =>
      rw [run_ends turn] at returns ⊢
      exact returns
    | inr t =>
      rw [run_turn turn] at returns ⊢
      exact ih returns

/-- A loop on images of states, where the turns are images too. -/
theorem run_map {S' R' : Type*} {step' : S' → R' ⊕ S'} {f : S → S'} {g : R → R'}
    (turns : ∀ s, step' (f s) = Sum.map g f (step s)) (n : Nat) (s : S) :
      run step' n (f s) = (run step n s).map g := by
  induction n generalizing s with
  | zero => rfl
  | succ n ih =>
    have turn := turns s
    cases first : step s with
    | inl r =>
      rw [first] at turn
      rw [run_ends turn, run_ends first]
      rfl
    | inr t =>
      rw [first] at turn
      rw [run_turn turn, run_turn first, ih]

/-- A step that makes a measure smaller until something holds, which then stays. -/
theorem iterate_reaches {next : S → S} (done : S → Prop) (measure : S → Nat) (stays : ∀ s, done s → done (next s))
    (less : ∀ s, ¬done s → done (next s) ∨ measure (next s) < measure s) (enough : measure s < n) :
    done (next^[n] s) := by
  have kept (n : Nat) {s : S} (already : done s) : done (next^[n] s) := by
    induction n generalizing s with
    | zero => exact already
    | succ n ih => exact ih (stays s already)
  induction n generalizing s with
  | zero => exact absurd enough (Nat.not_lt_zero _)
  | succ n ih =>
    rw [Function.iterate_succ_apply]
    by_cases already : done s
    · exact kept n (stays s already)
    · rcases less s already with now | smaller
      · exact kept n now
      · exact ih (Nat.lt_of_lt_of_le smaller (Nat.le_of_lt_succ enough))

end Loop
