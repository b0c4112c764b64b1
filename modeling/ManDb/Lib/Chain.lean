import Mathlib.Logic.Basic

namespace Chain

variable {α : Type*}

/-- The first element of a chain, after at most `n` steps, at which it stops. -/
def firstStop (next : α → Option α) (stop : α → Prop) [DecidablePred stop] : Nat → α → Option α
  | 0, a => if stop a then some a else none
  | n + 1, a => if stop a then some a else (next a).bind (firstStop next stop n)

/-- An element that a chain gets to in `k` steps without stopping before. -/
inductive Reaches (next : α → Option α) (stop : α → Prop) : α → Nat → α → Prop
  | here (a : α) : Reaches next stop a 0 a
  | step {a b c : α} {k : Nat} : ¬stop a → next a = some b → Reaches next stop b k c → Reaches next stop a (k + 1) c

/-- The chain has not stopped after `n` steps. -/
def GoesOn (next : α → Option α) (stop : α → Prop) (n : Nat) (a : α) : Prop :=
  ∃ b, Reaches next stop a n b ∧ ¬stop b

variable {next : α → Option α} {stop : α → Prop} {a b c : α} {n k : Nat}

theorem reaches_zero_iff : Reaches next stop a 0 c ↔ c = a := by
  constructor
  · rintro ⟨⟩
    rfl
  · rintro rfl
    exact .here _

theorem reaches_succ_iff :
    Reaches next stop a (k + 1) c ↔ ¬stop a ∧ ∃ b, next a = some b ∧ Reaches next stop b k c := by
  constructor
  · rintro (_ | ⟨going, follows, rest⟩)
    exact ⟨going, _, follows, rest⟩
  · rintro ⟨going, b, follows, rest⟩
    exact .step going follows rest

theorem Reaches.of_stop (stops : stop a) (reaches : Reaches next stop a k c) : k = 0 ∧ c = a := by
  cases reaches with
  | here => exact ⟨rfl, rfl⟩
  | step going => exact absurd stops going

theorem goesOn_zero_iff : GoesOn next stop 0 a ↔ ¬stop a := by
  simp [GoesOn, reaches_zero_iff]

theorem goesOn_succ_iff : GoesOn next stop (n + 1) a ↔ ¬stop a ∧ ∃ b, next a = some b ∧ GoesOn next stop n b := by
  constructor
  · rintro ⟨c, reaches, going⟩
    obtain ⟨start, b, follows, rest⟩ := reaches_succ_iff.mp reaches
    exact ⟨start, b, follows, c, rest, going⟩
  · rintro ⟨start, b, follows, c, rest, going⟩
    exact ⟨c, .step start follows rest, going⟩

theorem not_goesOn_of_stop (stops : stop a) : ¬GoesOn next stop n a := by
  rintro ⟨c, reaches, going⟩
  obtain ⟨_, rfl⟩ := reaches.of_stop stops
  exact going stops

/-- A property of what a chain reaches in `n + 1` steps, from its first element on. -/
theorem forall_reaches_succ {good : Nat → α → Prop} (going : ¬stop a) :
    (∀ k ≤ n + 1, ∀ c, Reaches next stop a k c → good k c) ↔
      good 0 a ∧ ∀ b, next a = some b → ∀ k ≤ n, ∀ c, Reaches next stop b k c → good (k + 1) c := by
  constructor
  · intro all
    exact ⟨all 0 (by omega) a (.here a), fun b follows k bound c reaches =>
      all (k + 1) (by omega) c (.step going follows reaches)⟩
  · rintro ⟨first, rest⟩ k bound c reaches
    cases reaches with
    | here => exact first
    | step _ follows reaches => exact rest _ follows _ (by omega) _ reaches

theorem forall_reaches_zero {good : Nat → α → Prop} :
    (∀ k ≤ 0, ∀ c, Reaches next stop a k c → good k c) ↔ good 0 a := by
  constructor
  · exact fun all => all 0 (Nat.le_refl 0) a (.here a)
  · intro first k bound c reaches
    obtain rfl : k = 0 := by omega
    obtain rfl := reaches_zero_iff.mp reaches
    exact first

theorem forall_reaches_stop {good : Nat → α → Prop} (stops : stop a) :
    (∀ k ≤ n, ∀ c, Reaches next stop a k c → good k c) ↔ good 0 a := by
  constructor
  · exact fun all => all 0 (Nat.zero_le n) a (.here a)
  · intro first k _ c reaches
    obtain ⟨rfl, rfl⟩ := reaches.of_stop stops
    exact first

section First

variable [DecidablePred stop]

theorem firstStop_stop (stops : stop a) : firstStop next stop n a = some a := by
  cases n <;> simp [firstStop, stops]

theorem firstStop_zero (going : ¬stop a) : firstStop next stop 0 a = none := if_neg going

theorem firstStop_succ (going : ¬stop a) : firstStop next stop (n + 1) a = (next a).bind (firstStop next stop n) :=
  if_neg going

/-- What is found is reached, and stops the chain. -/
theorem firstStop_eq_some_iff : firstStop next stop n a = some c ↔ (∃ k ≤ n, Reaches next stop a k c) ∧ stop c := by
  induction n generalizing a with
  | zero =>
    by_cases stops : stop a
    · rw [firstStop_stop stops, Option.some.injEq]
      constructor
      · rintro rfl
        exact ⟨⟨0, Nat.le_refl 0, .here _⟩, stops⟩
      · rintro ⟨⟨k, _, reaches⟩, _⟩
        exact (reaches.of_stop stops).2.symm
    · rw [firstStop_zero stops]
      refine iff_of_false (by simp) ?_
      rintro ⟨⟨k, bound, reaches⟩, isStop⟩
      obtain rfl : k = 0 := by omega
      obtain rfl := reaches_zero_iff.mp reaches
      exact stops isStop
  | succ n ih =>
    by_cases stops : stop a
    · rw [firstStop_stop stops, Option.some.injEq]
      constructor
      · rintro rfl
        exact ⟨⟨0, Nat.zero_le _, .here _⟩, stops⟩
      · rintro ⟨⟨k, _, reaches⟩, _⟩
        exact (reaches.of_stop stops).2.symm
    · rw [firstStop_succ stops, Option.bind_eq_some_iff]
      constructor
      · rintro ⟨b, follows, found⟩
        obtain ⟨⟨k, bound, reaches⟩, isStop⟩ := ih.mp found
        exact ⟨⟨k + 1, by omega, .step stops follows reaches⟩, isStop⟩
      · rintro ⟨⟨k, bound, reaches⟩, isStop⟩
        cases reaches with
        | here => exact absurd isStop stops
        | step _ follows reaches => exact ⟨_, follows, ih.mpr ⟨⟨_, by omega, reaches⟩, isStop⟩⟩

end First

end Chain
