import Mathlib.Data.List.Basic

namespace Batches

/-- Batches that are closed as soon as they are full, and the one that is being filled. -/
structure Filling (α : Type) where
  closed : List (List α)
  current : List α

variable {α : Type} {full : List α → Bool} {xs batch front : List α}

/-- One more element. -/
def Filling.add (full : List α → Bool) (s : Filling α) (x : α) : Filling α :=
  if full (s.current ++ [x]) then ⟨s.closed ++ [s.current ++ [x]], []⟩
  else ⟨s.closed, s.current ++ [x]⟩

/-- All batches: the last one need not be full. -/
def Filling.all (s : Filling α) : List (List α) :=
  if s.current.isEmpty then s.closed else s.closed ++ [s.current]

def fill (full : List α → Bool) (s : Filling α) (xs : List α) : Filling α := xs.foldl (Filling.add full) s

/-- The batches of a list. -/
def batches (full : List α → Bool) (xs : List α) : List (List α) := (fill full ⟨[], []⟩ xs).all

/-- No batch is full before its end. -/
def Early (full : List α → Bool) (batch : List α) : Prop :=
  ∀ front, front <+: batch → front ≠ [] → front ≠ batch → full front = false

/-- What is kept while a list is cut into batches. -/
structure Filling.Right (full : List α → Bool) (xs : List α) (s : Filling α) : Prop where
  whole : s.closed.flatten ++ s.current = xs
  nonempty : ∀ batch ∈ s.closed, batch ≠ []
  early : ∀ batch ∈ s.closed, Early full batch
  shut : ∀ batch ∈ s.closed, full batch = true
  open_ : ∀ front, front <+: s.current → front ≠ [] → full front = false

theorem Filling.Right.add {s : Filling α} (right : s.Right full xs) (x : α) :
    (s.add full x).Right full (xs ++ [x]) := by
  have before : Early full (s.current ++ [x]) := by
    intro front starts nonempty other
    rcases List.prefix_concat_iff.mp starts with same | inside
    · exact absurd same other
    · exact right.open_ front inside nonempty
  unfold Filling.add
  split
  · rename_i isFull
    refine ⟨?_, ?_, ?_, ?_, ?_⟩
    · simp [← right.whole]
    · intro batch member
      rcases List.mem_append.mp member with old | new
      · exact right.nonempty batch old
      · rw [List.mem_singleton.mp new]
        simp
    · intro batch member
      rcases List.mem_append.mp member with old | new
      · exact right.early batch old
      · rw [List.mem_singleton.mp new]
        exact before
    · intro batch member
      rcases List.mem_append.mp member with old | new
      · exact right.shut batch old
      · rwa [List.mem_singleton.mp new]
    · intro front starts nonempty
      exact absurd (List.prefix_nil.mp starts) nonempty
  · rename_i room
    refine ⟨by simp [← right.whole], right.nonempty, right.early, right.shut, fun front starts nonempty => ?_⟩
    by_cases same : front = s.current ++ [x]
    · rw [same]
      simpa using room
    · exact before front starts nonempty same

theorem Filling.Right.fill {s : Filling α} (right : s.Right full front) (xs : List α) :
    (fill full s xs).Right full (front ++ xs) := by
  induction xs generalizing s front with
  | nil => rwa [List.append_nil]
  | cons x xs ih =>
    have after := ih (right.add x)
    rwa [List.append_assoc, List.singleton_append] at after

theorem right_fill (full : List α → Bool) (xs : List α) : (fill full ⟨[], []⟩ xs).Right full xs :=
  have begins : (⟨[], []⟩ : Filling α).Right full [] :=
    ⟨rfl, nofun, nofun, nofun, fun _ starts nonempty => absurd (List.prefix_nil.mp starts) nonempty⟩
  begins.fill xs

/-- The batches hold the list, in its order. -/
theorem batches_flatten (full : List α → Bool) (xs : List α) : (batches full xs).flatten = xs := by
  have whole := (right_fill full xs).whole
  unfold batches Filling.all
  split
  · rename_i empty
    rwa [List.isEmpty_iff.mp empty, List.append_nil] at whole
  · rwa [List.flatten_append, List.flatten_singleton]

theorem batches_nonempty (member : batch ∈ batches full xs) : batch ≠ [] := by
  have right := right_fill full xs
  unfold batches Filling.all at member
  split at member
  · exact right.nonempty batch member
  · rename_i filled
    rcases List.mem_append.mp member with closed | current
    · exact right.nonempty batch closed
    · rw [List.mem_singleton.mp current]
      simpa using filled

/-- Without its last element no batch is full. -/
theorem batches_early (member : batch ∈ batches full xs) : Early full batch := by
  have right := right_fill full xs
  have open_ : Early full (fill full ⟨[], []⟩ xs).current := fun front starts nonempty _ =>
    right.open_ front starts nonempty
  unfold batches Filling.all at member
  split at member
  · exact right.early batch member
  · rcases List.mem_append.mp member with closed | current
    · exact right.early batch closed
    · exact List.mem_singleton.mp current ▸ open_

/-- Only the last batch may have room left. -/
theorem batches_full (member : batch ∈ (batches full xs).dropLast) : full batch = true := by
  have right := right_fill full xs
  unfold batches Filling.all at member
  split at member
  · exact right.shut batch ((List.dropLast_sublist _).subset member)
  · rw [List.dropLast_concat] at member
    exact right.shut batch member

/-- What is closed stays closed. -/
theorem closed_fill (s : Filling α) (xs : List α) : s.closed <+: (fill full s xs).closed := by
  induction xs generalizing s with
  | nil => exact List.prefix_refl _
  | cons x xs ih =>
    refine List.IsPrefix.trans ?_ (ih (s.add full x))
    unfold Filling.add
    split
    · exact List.prefix_append _ _
    · exact List.prefix_refl _

theorem closed_all (s : Filling α) : s.closed <+: s.all := by
  unfold Filling.all
  split
  · exact List.prefix_refl _
  · exact List.prefix_append _ _

end Batches
