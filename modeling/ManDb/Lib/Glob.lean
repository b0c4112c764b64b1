import Mathlib.Data.List.Basic
import Mathlib.Data.List.Forall2
import Mathlib.Data.List.Infix

namespace Glob

variable {α : Type*}

/-- A part of a pattern: one letter that passes a test, or any text. -/
inductive Part (α : Type*) where
  | one (test : α → Bool)
  | many

/-- Does a pattern cover a whole text? -/
def covers : List (Part α) → List α → Bool
  | [], text => text.isEmpty
  | .one _ :: _, [] => false
  | .one test :: parts, a :: text => test a && covers parts text
  | .many :: parts, text => text.tails.any (covers parts)

/-- A letter for which a given one stands, where `fold` takes letters for the same. -/
def literal {β : Type*} [BEq β] (fold : α → β) (a : α) : Part α := .one fun b => fold b == fold a

theorem covers_many (text : List α) : covers [.many] text = true := by
  rw [covers, List.any_eq_true]
  exact ⟨[], by simp, rfl⟩

variable {β : Type*} [BEq β] [LawfulBEq β] {fold : α → β} {start text : List α} {parts : List (Part α)}

/-- What is covered by a pattern that begins with literal letters begins with these. -/
theorem covers_literals : covers (start.map (literal fold) ++ parts) text = true ↔
    ∃ before after, text = before ++ after ∧ before.map fold = start.map fold ∧ covers parts after = true := by
  induction start generalizing text with
  | nil => simp
  | cons a start ih =>
    cases text with
    | nil =>
      refine iff_of_false (by simp [literal, covers]) ?_
      rintro ⟨before, after, same, folded, _⟩
      obtain ⟨rfl, rfl⟩ := List.append_eq_nil_iff.mp same.symm
      simp at folded
    | cons b text =>
      rw [List.map_cons, List.cons_append, literal, covers, Bool.and_eq_true, beq_iff_eq, ih]
      constructor
      · rintro ⟨same, before, after, rfl, folded, rest⟩
        exact ⟨b :: before, after, rfl, by simp [same, folded], rest⟩
      · rintro ⟨before, after, same, folded, rest⟩
        cases before with
        | nil => simp at folded
        | cons first before =>
          obtain ⟨rfl, rfl⟩ := List.cons.inj same
          obtain ⟨same, folded⟩ := List.cons.inj folded
          exact ⟨same, before, after, rfl, folded, rest⟩

theorem covers_literals_starts (covered : covers (start.map (literal fold) ++ parts) text = true) :
    start.map fold <+: text.map fold := by
  obtain ⟨before, after, rfl, folded, _⟩ := covers_literals.mp covered
  exact ⟨after.map fold, by rw [← folded, List.map_append]⟩

/-- With any text behind them, the letters are all that is asked. -/
theorem covers_literals_many :
    covers (start.map (literal fold) ++ [.many]) text = true ↔ start.map fold <+: text.map fold := by
  refine ⟨covers_literals_starts, fun ⟨rest, same⟩ => covers_literals.mpr ?_⟩
  obtain ⟨before, after, rfl, folded, _⟩ := List.map_eq_append_iff.mp same.symm
  exact ⟨before, after, rfl, folded, covers_many after⟩

end Glob
