import Mathlib.Order.Defs.Unbundled

namespace Cascade

open Std

variable {α β : Type*} {f g : α → α → Ordering} {a b c : α}

/-- Each of the three comes before the next, and the last before the first. -/
def Cycle (cmp : α → α → Ordering) (a b c : α) : Prop := cmp a b = .lt ∧ cmp b c = .lt ∧ cmp c a = .lt

theorem Cycle.rotate (cycle : Cycle f a b c) : Cycle f b c a := ⟨cycle.2.1, cycle.2.2, cycle.1⟩

theorem not_cycle [TransCmp f] : ¬Cycle f a b c := by
  rintro ⟨ab, bc, ca⟩
  have ac : f a c = .lt := TransCmp.lt_trans ab bc
  have swap : f a c = (f c a).swap := OrientedCmp.eq_swap
  rw [swap, ca] at ac
  cases ac

/-- In a cycle, a criterion that is consulted first and is an order cannot tell the
three apart. -/
theorem cycle_then [TransCmp f] :
    Cycle (fun a b => (f a b).then (g a b)) a b c ↔
      (f a b = .eq ∧ f b c = .eq ∧ f c a = .eq) ∧ Cycle g a b c := by
  constructor
  · rintro ⟨ab, bc, ca⟩
    simp only [Ordering.then_eq_lt] at ab bc ca
    have equal : ∀ {x y z : α}, f x y = .lt ∨ f x y = .eq ∧ g x y = .lt → (f y z).isLE → (f z x).isLE →
      f x y = .eq := by
      intro x y z first second third
      refine (first.resolve_left fun less => ?_).1
      have less' : f x z = .lt := TransCmp.lt_of_lt_of_isLE less second
      have swap : f x z = (f z x).swap := OrientedCmp.eq_swap
      rw [swap, Ordering.swap_eq_lt] at less'
      rw [less'] at third
      cases third
    have le : ∀ {x y : α}, f x y = .lt ∨ f x y = .eq ∧ g x y = .lt → (f x y).isLE := by
      rintro x y (less | ⟨same, _⟩)
      · rw [less]; rfl
      · rw [same]; rfl
    have eqAb := equal ab (le bc) (le ca)
    have eqBc := equal bc (le ca) (le ab)
    have eqCa := equal ca (le ab) (le bc)
    simp only [eqAb, eqBc, eqCa, reduceCtorEq, false_or, true_and] at ab bc ca
    exact ⟨⟨eqAb, eqBc, eqCa⟩, ab, bc, ca⟩
  · rintro ⟨⟨ab, bc, ca⟩, cycle⟩
    simp only [Cycle, ab, bc, ca, Ordering.eq_then]
    exact cycle

/-- A comparison of what elements are mapped to. -/
theorem transCmp_map {cmp : β → β → Ordering} [TransCmp cmp] (key : α → β) : TransCmp fun a b => cmp (key a)
    (key b) where
  eq_swap := OrientedCmp.eq_swap
  isLE_trans := TransCmp.isLE_trans

/-- A comparison that never finds different elements equal is transitive exactly if
it has no cycles. -/
theorem trans_iff_no_cycle {xs : List α} (swap : ∀ a b, f a b = (f b a).swap)
    (zero : ∀ a ∈ xs, ∀ b ∈ xs, f a b = .eq → a = b) :
    (∀ a ∈ xs, ∀ b ∈ xs, ∀ c ∈ xs, f a b = .lt → f b c = .lt → f a c = .lt) ↔
      ¬∃ a ∈ xs, ∃ b ∈ xs, ∃ c ∈ xs, Cycle f a b c := by
  constructor
  · rintro trans ⟨a, inA, b, inB, c, inC, ab, bc, ca⟩
    have ac := trans a inA b inB c inC ab bc
    rw [swap, ca] at ac
    cases ac
  · intro none a inA b inB c inC ab bc
    cases ac : f a c with
    | lt => rfl
    | eq =>
      rw [← zero a inA c inC ac, swap, ab] at bc
      cases bc
    | gt => exact absurd ⟨a, inA, b, inB, c, inC, ab, bc, by rw [swap, ac]; rfl⟩ none

end Cascade
