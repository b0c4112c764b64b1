import Mathlib.Data.List.Induction

namespace Contest

variable {α : Type*} {beats : α → α → Prop} [DecidableRel beats]

/-- The newcomer takes the place if it is free, or if it beats the one who has it. -/
def challenge (beats : α → α → Prop) [DecidableRel beats] (new : α) : Option α → α
  | none => new
  | some old => if beats new old then new else old

/-- Who has the place after all have challenged in turn. -/
def champion (beats : α → α → Prop) [DecidableRel beats] (xs : List α) : Option α :=
  xs.foldl (fun place x => some (challenge beats x place)) none

@[simp] theorem champion_nil : champion beats [] = none := rfl

@[simp] theorem champion_snoc (xs : List α) (x : α) :
    champion beats (xs ++ [x]) = some (challenge beats x (champion beats xs)) := by
  simp only [champion, List.foldl_append, List.foldl_cons, List.foldl_nil]

theorem champion_mem {xs : List α} {x : α} (champ : champion beats xs = some x) : x ∈ xs := by
  induction xs using List.reverseRecOn generalizing x with
  | nil => cases champ
  | append_singleton xs y ih =>
    rw [champion_snoc, Option.some.injEq] at champ
    cases before : champion beats xs with
    | none =>
      rw [before] at champ
      simp [← champ, challenge]
    | some old =>
      rw [before] at champ
      simp only [challenge] at champ
      split at champ
      · simp [champ]
      · exact List.mem_append_left _ (ih (champ ▸ before))

/-- The last one to challenge wins if it beats everybody. -/
theorem champion_last {xs : List α} {w : α} (all : ∀ x ∈ xs, beats w x) :
    champion beats (xs ++ [w]) = some w := by
  rw [champion_snoc]
  cases before : champion beats xs with
  | none => rfl
  | some old =>
    have better : beats w old := all old (champion_mem before)
    simp [challenge, better]

/-- One that beats all others and is beaten by none wins in every order. -/
theorem champion_of_best {xs : List α} {w : α} (member : w ∈ xs)
    (best : ∀ x ∈ xs, x ≠ w → beats w x ∧ ¬beats x w) : champion beats xs = some w := by
  induction xs using List.reverseRecOn with
  | nil => cases member
  | append_singleton xs y ih =>
    by_cases earlier : w ∈ xs
    · have before := ih earlier (fun x inside => best x (List.mem_append_left _ inside))
      rw [champion_snoc, before]
      by_cases same : y = w
      · simp [challenge, same]
      · have weaker := (best y (by simp) same).2
        simp [challenge, weaker]
    · have last : w = y := by simpa [earlier] using member
      subst last
      refine champion_last (fun x inside => ?_)
      have different : x ≠ w := by rintro rfl; exact earlier inside
      exact (best x (List.mem_append_left _ inside) different).1

end Contest
