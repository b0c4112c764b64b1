import Mathlib.Data.List.Basic
import Mathlib.Data.List.TakeWhile

namespace Stretch

variable {α : Type*} {f : α → Ordering} {xs : List α} {x : α} {i : Nat}

/-- The elements below a key come first, then those equal to it, then those above: `f`
tells how the key compares with an element. -/
def Partitioned (f : α → Ordering) (xs : List α) : Prop :=
  ∃ below equal above, xs = below ++ equal ++ above ∧ (∀ x ∈ below, f x = .gt) ∧ (∀ x ∈ equal, f x = .eq) ∧
    ∀ x ∈ above, f x = .lt

/-- The key compares with the elements of a list in no other order. -/
theorem partitioned_of_pairwise (ordered : xs.Pairwise fun a b => (f b = .gt → f a = .gt) ∧ (f a = .lt → f b = .lt)) :
    Partitioned f xs := by
  induction xs with
  | nil => exact ⟨[], [], [], by simp⟩
  | cons x xs ih =>
    obtain ⟨first, rest⟩ := List.pairwise_cons.mp ordered
    obtain ⟨below, equal, above, rfl, gt, eq, lt⟩ := ih rest
    cases order : f x with
    | gt => exact ⟨x :: below, equal, above, by simp, List.forall_mem_cons.mpr ⟨order, gt⟩, eq, lt⟩
    | eq =>
      have noBelow : below = [] := by
        refine List.eq_nil_iff_forall_not_mem.mpr fun y member => ?_
        have isBelow := (first y (by simp [member])).1 (gt y member)
        rw [order] at isBelow
        cases isBelow
      exact ⟨[], x :: equal, above, by simp [noBelow], by simp, List.forall_mem_cons.mpr ⟨order, eq⟩, lt⟩
    | lt =>
      have allAbove : ∀ y ∈ x :: (below ++ equal ++ above), f y = .lt :=
        List.forall_mem_cons.mpr ⟨order, fun y member => (first y member).2 order⟩
      exact ⟨[], [], x :: (below ++ equal ++ above), by simp, by simp, by simp, allAbove⟩

/-- Back from a position over the elements before it that are equal to the key. -/
def rewind (f : α → Ordering) (xs : List α) : Nat → Nat
  | 0 => 0
  | i + 1 => if xs[i]?.any fun x => f x == .eq then rewind f xs i else i + 1

/-- The elements equal to the key from there on. -/
def stretch (f : α → Ordering) (xs : List α) (i : Nat) : List α :=
  (xs.drop (rewind f xs i)).takeWhile fun x => f x == .eq

theorem rewind_partition {below equal above : List α} (gt : ∀ x ∈ below, f x = .gt) (eq : ∀ x ∈ equal, f x = .eq)
    {k : Nat} (inside : k ≤ equal.length) :
    rewind f (below ++ equal ++ above) (below.length + k) = below.length := by
  induction k with
  | zero =>
    cases atLast : below.length with
    | zero => rfl
    | succ n =>
      have inBelow : n < below.length := by omega
      have last : below[n]? = some below[n] := List.getElem?_eq_getElem inBelow
      have before := gt _ (List.mem_of_getElem? last)
      rw [Nat.add_zero, rewind, List.append_assoc, List.getElem?_append_left (by omega), last, Option.any_some,
        before]
      rfl
  | succ k ih =>
    have inEqual : k < equal.length := by omega
    have here : equal[k]? = some equal[k] := List.getElem?_eq_getElem inEqual
    have position : (below ++ equal ++ above)[below.length + k]? = equal[k]? := by
      rw [List.append_assoc, List.getElem?_append_right (by omega), Nat.add_sub_cancel_left,
        List.getElem?_append_left (by omega)]
    rw [← Nat.add_assoc, rewind, position, here, Option.any_some, eq _ (List.mem_of_getElem? here)]
    exact ih (by omega)

/-- From any element equal to the key the stretch of all of them is found. -/
theorem stretch_eq_filter (partitioned : Partitioned f xs) (atHit : xs[i]? = some x) (hit : f x = .eq) :
    stretch f xs i = xs.filter fun x => f x == .eq := by
  obtain ⟨below, equal, above, rfl, gt, eq, lt⟩ := partitioned
  obtain ⟨k, rfl, inside⟩ : ∃ k, i = below.length + k ∧ k ≤ equal.length := by
    refine ⟨i - below.length, ?_, ?_⟩
    · by_contra before
      rw [List.append_assoc, List.getElem?_append_left (by omega)] at atHit
      rw [gt x (List.mem_of_getElem? atHit)] at hit
      cases hit
    · by_contra after
      rw [List.getElem?_append_right (by rw [List.length_append]; omega)] at atHit
      rw [lt x (List.mem_of_getElem? atHit)] at hit
      cases hit
  have noneBelow : below.filter (fun x => f x == .eq) = [] := by
    rw [List.filter_eq_nil_iff]
    intro y member
    rw [gt y member]
    decide
  have allEqual : equal.filter (fun x => f x == .eq) = equal := by
    rw [List.filter_eq_self]
    intro y member
    rw [eq y member]
    rfl
  have noneAbove : above.filter (fun x => f x == .eq) = [] := by
    rw [List.filter_eq_nil_iff]
    intro y member
    rw [lt y member]
    decide
  rw [stretch, rewind_partition gt eq inside, List.append_assoc, List.drop_left, List.filter_append,
    List.filter_append, noneBelow, allEqual, noneAbove, List.nil_append, List.append_nil,
      List.takeWhile_append_of_pos]
  · cases above with
    | nil => simp
    | cons y above => simp [lt y (List.mem_cons_self ..)]
  · intro y member
    rw [eq y member]
    rfl

section Prefix

variable {β : Type*} [Ord α] [Std.TransOrd α] {key : β → List α}

omit [Std.TransOrd α] in
/-- Beginnings of one length are in the order of the lists. -/
theorem isLE_take {a b : List α} (le : (compare a b).isLE) (n : Nat) :
    (compare (a.take n) (b.take n)).isLE := by
  induction n generalizing a b with
  | zero => simp
  | succ n ih =>
    match a, b with
    | [], b => simpa only [List.take_nil] using List.isLE_compare_nil_left
    | a :: as, [] => simp at le
    | a :: as, b :: bs =>
      rw [List.take_succ_cons, List.take_succ_cons, List.compare_cons_cons]
      rw [List.compare_cons_cons] at le
      cases order : compare a b with
      | lt => rfl
      | eq =>
        rw [order] at le
        exact ih le
      | gt => simp [order] at le

/-- The lists that begin as a given one does form a stretch of a sorted list. -/
theorem partitioned_prefix {xs : List β}
    (sorted : xs.Pairwise fun a b => (compare (key a) (key b)).isLE) (start : List α) :
    Partitioned (fun x => compare start ((key x).take start.length)) xs := by
  refine partitioned_of_pairwise (sorted.imp fun {a b} le => ?_)
  have before := isLE_take le start.length
  constructor
  · intro above
    have below : compare ((key b).take start.length) start = .lt := Std.OrientedCmp.lt_of_gt above
    exact Std.OrientedCmp.gt_of_lt (Std.TransCmp.lt_of_isLE_of_lt before below)
  · intro below
    exact Std.TransCmp.lt_of_lt_of_isLE below before

omit [Std.TransOrd α] in
theorem compare_take_iff [Std.LawfulEqOrd α] {start list : List α} :
    compare start (list.take start.length) = .eq ↔ start <+: list := by
  rw [Std.compare_eq_iff_eq, List.prefix_iff_eq_take]

end Prefix

end Stretch
