import Mathlib.Data.List.Sort
import Mathlib.Order.Defs.Unbundled

namespace SortedList

open Std

variable {α : Type*} {cmp : α → α → Ordering}

/-- Add an element to a list sorted by `cmp`, before the elements it does not exceed. -/
def add (cmp : α → α → Ordering) (x : α) (xs : List α) : List α :=
  xs.orderedInsert (fun a b => (cmp a b).isLE) x

/-- A list that gains its elements one by one, starting from the empty one. -/
def addAll (cmp : α → α → Ordering) (xs : List α) : List α :=
  xs.foldl (fun sorted x => add cmp x sorted) []

/-- Sorted without duplicates. -/
def Strict (cmp : α → α → Ordering) (xs : List α) : Prop := xs.Pairwise (fun a b => cmp a b = .lt)

/-- Sorted, as far as the comparison can tell. -/
def Sorted (cmp : α → α → Ordering) (xs : List α) : Prop := xs.Pairwise (fun a b => (cmp a b).isLE)

/-- The comparison orders the elements of a list: it may do anything elsewhere. -/
structure Consistent (cmp : α → α → Ordering) (xs : List α) : Prop where
  swap : ∀ a ∈ xs, ∀ b ∈ xs, cmp a b = (cmp b a).swap
  trans : ∀ a ∈ xs, ∀ b ∈ xs, ∀ c ∈ xs, (cmp a b).isLE → (cmp b c).isLE → (cmp a c).isLE

theorem Consistent.subset {xs ys : List α} (consistent : Consistent cmp xs) (subset : ys ⊆ xs) :
    Consistent cmp ys where
  swap a inA b inB := consistent.swap a (subset inA) b (subset inB)
  trans a inA b inB c inC := consistent.trans a (subset inA) b (subset inB) c (subset inC)

theorem Consistent.perm {xs ys : List α} (consistent : Consistent cmp xs) (perm : xs.Perm ys) :
    Consistent cmp ys := consistent.subset perm.symm.subset

theorem add_perm (x : α) (xs : List α) : (add cmp x xs).Perm (x :: xs) :=
  List.perm_orderedInsert _ _ _

@[simp] theorem mem_add {x y : α} {xs : List α} : y ∈ add cmp x xs ↔ y = x ∨ y ∈ xs :=
  List.mem_orderedInsert _

theorem add_ne_nil (x : α) (xs : List α) : add cmp x xs ≠ [] := by
  intro empty
  have member : x ∈ add cmp x xs := mem_add.mpr (Or.inl rfl)
  simp [empty] at member

theorem addAll_perm (cmp : α → α → Ordering) (xs : List α) : (addAll cmp xs).Perm xs := by
  have general : ∀ sorted : List α,
      (xs.foldl (fun sorted x => add cmp x sorted) sorted).Perm (sorted ++ xs) := by
    induction xs with
    | nil => intro sorted; simp
    | cons x xs ih =>
      intro sorted
      refine (ih (add cmp x sorted)).trans ?_
      exact ((add_perm x sorted).append_right xs).trans List.perm_middle.symm
  simpa only [addAll, List.nil_append] using general []

theorem Consistent.add_sorted {x : α} {xs : List α} (consistent : Consistent cmp (x :: xs)) (sorted : Sorted cmp xs) :
    Sorted cmp (add cmp x xs) := by
  induction xs with
  | nil => exact List.pairwise_singleton _ _
  | cons y ys ih =>
    obtain ⟨first, rest⟩ := List.pairwise_cons.mp sorted
    have order := consistent.swap x (by simp) y (by simp)
    by_cases le : (cmp x y).isLE
    · have shape : add cmp x (y :: ys) = x :: y :: ys := if_pos le
      rw [shape]
      refine List.pairwise_cons.mpr ⟨fun z member => ?_, sorted⟩
      rcases List.mem_cons.mp member with rfl | later
      · exact le
      · exact consistent.trans x (by simp) y (by simp) z (by simp [later]) le (first z later)
    · have shape : add cmp x (y :: ys) = y :: add cmp x ys := if_neg le
      have ge : (cmp y x).isLE := by
        rw [order] at le
        cases shape : cmp y x <;> simp_all
      rw [shape]
      refine List.pairwise_cons.mpr ⟨fun z member => ?_, ih (consistent.subset ?_) rest⟩
      · rcases mem_add.mp member with rfl | later
        · exact ge
        · exact first z later
      · intro z member
        rcases List.mem_cons.mp member with rfl | later
        · exact List.mem_cons_self ..
        · exact List.mem_cons_of_mem _ (List.mem_cons_of_mem _ later)

theorem Strict.le {xs : List α} (strict : Strict cmp xs) :
    xs.Pairwise (fun a b => (cmp a b).isLE) :=
  List.Pairwise.imp (fun lt => by simp [lt]) strict

theorem strict_of_sorted [LawfulEqCmp cmp] {xs : List α} (sorted : xs.Pairwise (fun a b => (cmp a b).isLE))
    (nodup : xs.Nodup) : Strict cmp xs := by
  refine List.Pairwise.imp ?_ (List.Pairwise.and sorted nodup)
  rintro a b ⟨le, different⟩
  cases order : cmp a b with
  | lt => rfl
  | eq => exact absurd (LawfulEqCmp.eq_of_compare order) different
  | gt => simp [order] at le

section Order

variable [TransCmp cmp]

theorem consistent (cmp : α → α → Ordering) [TransCmp cmp] (xs : List α) : Consistent cmp xs where
  swap _ _ _ _ := OrientedCmp.eq_swap
  trans _ _ _ _ _ _ := TransCmp.isLE_trans

theorem add_sorted {xs : List α} (sorted : xs.Pairwise (fun a b => (cmp a b).isLE)) (x : α) :
    (add cmp x xs).Pairwise (fun a b => (cmp a b).isLE) :=
  (consistent cmp (x :: xs)).add_sorted sorted

theorem addAll_sorted (xs : List α) : (addAll cmp xs).Pairwise (fun a b => (cmp a b).isLE) := by
  have general : ∀ sorted : List α, sorted.Pairwise (fun a b => (cmp a b).isLE) →
      (xs.foldl (fun sorted x => add cmp x sorted) sorted).Pairwise (fun a b => (cmp a b).isLE) := by
    induction xs with
    | nil => exact fun _ sorted => sorted
    | cons x xs ih => exact fun _ sorted => ih _ (add_sorted sorted x)
  exact general [] .nil

theorem exists_least {xs : List α} (nonempty : xs ≠ []) : ∃ w ∈ xs, ∀ x ∈ xs, (cmp w x).isLE := by
  have perm := addAll_perm cmp xs
  cases sorted : addAll cmp xs with
  | nil =>
    rw [sorted] at perm
    exact absurd perm.nil_eq.symm nonempty
  | cons w rest =>
    rw [sorted] at perm
    have order := @addAll_sorted α cmp _ xs
    rw [sorted, List.pairwise_cons] at order
    refine ⟨w, perm.mem_iff.mp (by simp), fun x member => ?_⟩
    rcases List.mem_cons.mp (perm.mem_iff.mpr member) with same | later
    · simp [same, ReflCmp.compare_self]
    · exact order.1 x later

theorem Strict.nodup {xs : List α} (strict : Strict cmp xs) : xs.Nodup :=
  List.Pairwise.imp (fun {a b} lt same => by subst same; simp [ReflCmp.compare_self] at lt) strict

/-- A strictly sorted list is determined by its elements. -/
theorem Strict.eq_of_perm {xs ys : List α} (first : Strict cmp xs) (second : Strict cmp ys)
    (perm : xs.Perm ys) : xs = ys := by
  refine perm.eq_of_pairwise ?_ first second
  intro a b _ _ lt gt
  rw [@OrientedCmp.eq_swap α cmp, gt] at lt
  cases lt

variable [LawfulEqCmp cmp]

theorem Strict.add {xs : List α} (strict : Strict cmp xs) {x : α} (fresh : x ∉ xs) :
    Strict cmp (add cmp x xs) := by
  refine strict_of_sorted (add_sorted strict.le x) ?_
  exact (add_perm x xs).nodup_iff.mpr (List.nodup_cons.mpr ⟨fresh, strict.nodup⟩)

theorem addAll_strict {xs : List α} (strict : Strict cmp xs) : addAll cmp xs = xs := by
  have perm := addAll_perm cmp xs
  exact (strict_of_sorted (addAll_sorted xs) (perm.nodup_iff.mpr strict.nodup)).eq_of_perm strict perm

end Order

end SortedList
