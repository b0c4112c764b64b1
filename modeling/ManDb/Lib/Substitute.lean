import ManDb.Lib.Loop
import ManDb.Lib.Separated
import Mathlib.Data.List.Count

namespace Substitute

variable {α : Type*} [DecidableEq α]

/-- A turn of the substitution of the first occurrence of a text, which ends where there is none. -/
def turn (needle value xs : List α) : List α ⊕ List α :=
  match Separated.cutAt needle xs with
  | none => .inl xs
  | some (before, after) => .inr (before ++ value ++ after)

variable {needle value xs ys : List α} {c : α}

theorem turn_ends (ends : turn needle value xs = .inl ys) : ys = xs ∧ ¬needle <:+: ys := by
  unfold turn at ends
  split at ends
  · rename_i absent
    cases ends
    exact ⟨rfl, Separated.cutAt_eq_none_iff.mp absent⟩
  · cases ends

/-- Every turn takes away an element that the text has and its value has not. -/
theorem turn_count (next : turn needle value xs = .inr ys) (placed : c ∈ needle) (fresh : c ∉ value) :
    ys.count c < xs.count c := by
  unfold turn at next
  split at next
  · cases next
  · rename_i before after found
    cases next
    have whole : xs = before ++ (needle ++ after) := Separated.cutAt_join found
    have some := List.count_pos_iff.mpr placed
    rw [whole, List.count_append, List.count_append, List.count_append, List.count_append,
      List.count_eq_zero_of_not_mem fresh]
    omega

/-- Substitution comes to an end, whatever it puts together on its way, if some element of
the text is not in its value. -/
theorem run_ends (placed : c ∈ needle) (fresh : c ∉ value) (xs : List α) : ∃ turns ys,
    turns ≤ xs.count c + 1 ∧ Loop.run (turn needle value) turns xs = some ys ∧ ¬needle <:+: ys := by
  generalize left : xs.count c = k
  induction k using Nat.strongRecOn generalizing xs with
  | ind k ih =>
    cases next : turn needle value xs with
    | inl ys => exact ⟨1, ys, Nat.le_add_left 1 k, Loop.run_ends next 0, (turn_ends next).2⟩
    | inr zs =>
      have fewer := turn_count next placed fresh
      obtain ⟨turns, ys, bound, run, absent⟩ := ih _ (left ▸ fewer) zs rfl
      exact ⟨turns + 1, ys, by omega, by rw [Loop.run_turn next, run], absent⟩

end Substitute
