import Mathlib.Algebra.GroupWithZero.Nat
import Mathlib.Data.List.Basic

namespace Separated

variable {α : Type*} [DecidableEq α] {sep : α}

/-- The text up to the first separator, and what follows that separator. The
second component is absent when there is no separator at all. -/
def cut (sep : α) : List α → List α × Option (List α)
  | [] => ([], none)
  | x :: xs => if x = sep then ([], some xs) else ((x :: (cut sep xs).1), (cut sep xs).2)

theorem cut_of_not_mem {xs : List α} (absent : sep ∉ xs) : cut sep xs = (xs, none) := by
  induction xs with
  | nil => rfl
  | cons x xs ih =>
    have different : x ≠ sep := fun same => absent (by simp [same])
    have rest := ih (fun member => absent (List.mem_cons_of_mem _ member))
    simp only [cut, if_neg different, rest]

theorem cut_append_cons {xs : List α} (absent : sep ∉ xs) (ys : List α) :
    cut sep (xs ++ sep :: ys) = (xs, some ys) := by
  induction xs with
  | nil => simp [cut]
  | cons x xs ih =>
    have different : x ≠ sep := fun same => absent (by simp [same])
    have rest := ih (fun member => absent (List.mem_cons_of_mem _ member))
    simp only [List.cons_append, cut, if_neg different, rest]

theorem cut_fst_clean (sep : α) (xs : List α) : sep ∉ (cut sep xs).1 := by
  induction xs with
  | nil => simp [cut]
  | cons x xs ih =>
    by_cases same : x = sep
    · simp [cut, same]
    · simp only [cut, if_neg same, List.mem_cons, not_or]
      exact ⟨fun h => same h.symm, ih⟩

/-- Cutting loses nothing: the two parts with the separator between them are
the whole text. -/
theorem cut_join (sep : α) (xs : List α) :
    xs = (cut sep xs).1 ++ ((cut sep xs).2.elim [] (sep :: ·)) := by
  induction xs with
  | nil => rfl
  | cons x xs ih =>
    by_cases same : x = sep
    · simp [cut, same]
    · simp only [cut, if_neg same, List.cons_append]
      exact congrArg (x :: ·) ih

theorem length_cut_lt {xs rest : List α} (found : (cut sep xs).2 = some rest) : rest.length < xs.length := by
  have whole := congrArg List.length (cut_join sep xs)
  simp only [found, Option.elim_some, List.length_append, List.length_cons] at whole
  omega

/-- The text up to the first occurrence of a separator of any length, and what
follows that occurrence. -/
def cutAt (needle : List α) : List α → Option (List α × List α)
  | [] => if needle = [] then some ([], []) else none
  | x :: xs =>
    if needle <+: x :: xs then some ([], (x :: xs).drop needle.length)
    else (cutAt needle xs).map fun cut => (x :: cut.1, cut.2)

theorem cutAt_eq_none_iff {needle xs : List α} : cutAt needle xs = none ↔ ¬needle <:+: xs := by
  induction xs with
  | nil => simp [cutAt]
  | cons x xs ih =>
    rw [List.infix_cons_iff, ← ih.not_left, cutAt]
    split <;> simp_all

theorem cutAt_join {needle xs : List α} {found : List α × List α} (cut : cutAt needle xs = some found) :
    xs = found.1 ++ (needle ++ found.2) := by
  induction xs generalizing found with
  | nil =>
    unfold cutAt at cut
    split at cut
    · rename_i empty
      rw [← Option.some.inj cut, empty]
      rfl
    · cases cut
  | cons x xs ih =>
    unfold cutAt at cut
    split at cut
    · rename_i starts
      obtain ⟨after, whole⟩ := starts
      rw [← Option.some.inj cut, ← whole, List.drop_left]
      rfl
    · obtain ⟨later, rest, rfl⟩ := Option.map_eq_some_iff.mp cut
      rw [List.cons_append, ← ih rest]

theorem cutAt_cons {needle xs : List α} {x : α} (other : ¬needle <+: x :: xs) :
    cutAt needle (x :: xs) = (cutAt needle xs).map fun cut => (x :: cut.1, cut.2) := by
  rw [cutAt, if_neg other]

theorem cutAt_append {needle : List α} (nonempty : needle ≠ []) (xs : List α) :
    cutAt needle (needle ++ xs) = some ([], xs) := by
  obtain ⟨x, needle, rfl⟩ := List.exists_cons_of_ne_nil nonempty
  have starts : x :: needle <+: x :: (needle ++ xs) := List.prefix_append (x :: needle) xs
  rw [List.cons_append, cutAt, if_pos starts, ← List.cons_append, List.drop_left]

/-- A part without the first element of the separator is passed. -/
theorem cutAt_clean_append {c : α} {needle xs : List α} (clean : c ∉ xs) (ys : List α) :
    cutAt (c :: needle) (xs ++ ys) = (cutAt (c :: needle) ys).map fun cut => (xs ++ cut.1, cut.2) := by
  induction xs with
  | nil => simp
  | cons x xs ih =>
    rw [List.mem_cons, not_or] at clean
    have other : ¬c :: needle <+: x :: (xs ++ ys) := fun starts => clean.1 (List.cons_prefix_cons.mp starts).1
    rw [List.cons_append, cutAt_cons other, ih clean.2, Option.map_map]
    rfl

/-- A separator that is found stays where it is, whatever more of the text there is. -/
theorem cutAt_found_append {needle xs : List α} {found : List α × List α} (cut : cutAt needle xs = some found)
    (nonempty : needle ≠ []) (ys : List α) : cutAt needle (xs ++ ys) = some (found.1, found.2 ++ ys) := by
  induction xs generalizing found with
  | nil =>
    rw [cutAt, if_neg nonempty] at cut
    cases cut
  | cons x xs ih =>
    by_cases starts : needle <+: x :: xs
    · have longer : needle <+: x :: (xs ++ ys) := starts.trans (List.prefix_append (x :: xs) ys)
      rw [cutAt, if_pos starts, Option.some.injEq] at cut
      subst cut
      rw [List.cons_append, cutAt, if_pos longer, ← List.cons_append, List.drop_append_of_le_length starts.length_le]
    · rw [cutAt_cons starts] at cut
      obtain ⟨later, rest, rfl⟩ := Option.map_eq_some_iff.mp cut
      have fits : needle.length ≤ (x :: xs).length := by
        rw [cutAt_join rest, List.length_cons, List.length_append, List.length_append]
        omega
      have other : ¬needle <+: x :: (xs ++ ys) := fun longer =>
        starts (List.prefix_of_prefix_length_le longer (List.prefix_append (x :: xs) ys) fits)
      rw [List.cons_append, cutAt_cons other, ih rest]
      rfl

theorem cut_found_append {xs line rest : List α} (found : cut sep xs = (line, some rest)) (ys : List α) :
    cut sep (xs ++ ys) = (line, some (rest ++ ys)) := by
  have whole := cut_join sep xs
  have clean := cut_fst_clean sep xs
  rw [found] at whole clean
  rw [whole, Option.elim_some, List.append_assoc, List.cons_append, cut_append_cons clean]

omit [DecidableEq α] in
/-- What has no separator and starts a text starts the first part of it. -/
theorem prefix_of_clean {needle xs ys : List α} (clean : sep ∉ needle) (starts : needle <+: xs ++ sep :: ys) :
    needle <+: xs := by
  have first : xs ++ [sep] <+: xs ++ sep :: ys := ⟨ys, by rw [List.append_assoc, List.singleton_append]⟩
  rcases List.prefix_or_prefix_of_prefix starts first with inside | beyond
  · exact (List.prefix_concat_iff.mp inside).resolve_left fun same => clean (by rw [same]; simp)
  · exact absurd (beyond.subset (by simp)) clean

/-- The same at the last separator. -/
def cutLast (sep : α) (xs : List α) : List α × Option (List α) :=
  match cut sep xs.reverse with
  | (_, none) => (xs, none)
  | (after, some before) => (before.reverse, some after.reverse)

theorem cutLast_join {xs before after : List α} (last : cutLast sep xs = (before, some after)) :
    xs = before ++ sep :: after := by
  have whole := cut_join sep xs.reverse
  unfold cutLast at last
  split at last
  · cases last
  · rename_i found left split
    rw [split] at whole
    obtain ⟨rfl, same⟩ := Prod.mk.inj last
    rw [← Option.some.inj same, ← List.reverse_inj, whole]
    simp

theorem cutLast_append_cons {after : List α} (absent : sep ∉ after) (before : List α) :
    cutLast sep (before ++ sep :: after) = (before, some after) := by
  have reversed : (before ++ sep :: after).reverse = after.reverse ++ sep :: before.reverse := by simp
  have clean : sep ∉ after.reverse := fun member => absent (List.mem_reverse.mp member)
  rw [cutLast, reversed, cut_append_cons clean]
  simp

/-- What stands before and behind the last separator is unique. -/
theorem append_cons_inj {before before' after after' : List α} (absent : sep ∉ after) (absent' : sep ∉ after')
    (same : before ++ sep :: after = before' ++ sep :: after') : before = before' ∧ after = after' := by
  have cuts := congrArg (cutLast sep) same
  rw [cutLast_append_cons absent, cutLast_append_cons absent'] at cuts
  obtain ⟨fronts, backs⟩ := Prod.mk.inj cuts
  exact ⟨fronts, Option.some.inj backs⟩

theorem cutLast_of_not_mem {xs : List α} (absent : sep ∉ xs) : cutLast sep xs = (xs, none) := by
  rw [cutLast, cut_of_not_mem fun member => absent (List.mem_reverse.mp member)]

omit [DecidableEq α] in
theorem exists_last_of_mem {xs : List α} (member : sep ∈ xs) :
    ∃ before after, xs = before ++ sep :: after ∧ sep ∉ after := by
  obtain ⟨after, before, reversed, clean⟩ := List.eq_append_cons_of_mem (List.mem_reverse.mpr member)
  refine ⟨before.reverse, after.reverse, ?_, fun later => clean (List.mem_reverse.mp later)⟩
  rw [← List.reverse_inj, reversed]
  simp

theorem cutLast_none_iff {xs : List α} : (cutLast sep xs).2 = none ↔ sep ∉ xs := by
  cases last : cutLast sep xs with
  | mk before rest =>
    cases rest with
    | some after => simp [cutLast_join last]
    | none =>
      refine iff_of_true rfl fun member => ?_
      have whole := cut_join sep xs.reverse
      have clean := cut_fst_clean sep xs.reverse
      unfold cutLast at last
      split at last
      · rename_i found split
        rw [split] at whole clean
        simp only [Option.elim_none, List.append_nil] at whole
        exact clean (whole ▸ List.mem_reverse.mpr member)
      · cases last

/-- The fields a list is made of, two at a time; a last single field is dropped. -/
def pairUp : List (List α) → List (List α × List α)
  | a :: b :: rest => (a, b) :: pairUp rest
  | _ => []

/-- Every pair of fields with a separator before each of the two. -/
def joinPairs (sep : α) (pairs : List (List α × List α)) : List α :=
  pairs.flatMap (fun p => sep :: p.1 ++ sep :: p.2)

theorem pairUp_splitOn_joinPairs {first : List α × List α} {pairs : List (List α × List α)}
    (clean : ∀ p ∈ first :: pairs, sep ∉ p.1 ∧ sep ∉ p.2) :
    pairUp ((first.1 ++ sep :: first.2 ++ joinPairs sep pairs).splitOn sep) = first :: pairs := by
  induction pairs generalizing first with
  | nil =>
    have ends := clean first (by simp)
    simp only [joinPairs, List.flatMap_nil, List.append_nil]
    rw [List.splitOn_append_cons_self_of_not_mem ends.1, List.splitOn_eq_singleton ends.2]
    rfl
  | cons second pairs ih =>
    have ends := clean first (by simp)
    have rest := @ih second (fun p member => clean p (List.mem_cons_of_mem _ member))
    have shape : first.1 ++ sep :: first.2 ++ joinPairs sep (second :: pairs) =
        first.1 ++ sep :: (first.2 ++ sep :: (second.1 ++ sep :: second.2 ++ joinPairs sep pairs)) := by
      simp [joinPairs]
    rw [shape, List.splitOn_append_cons_self_of_not_mem ends.1,
      List.splitOn_append_cons_self_of_not_mem ends.2]
    simp only [pairUp, rest]

omit [DecidableEq α] in
theorem mem_of_mem_pairUp {fields : List (List α)} {p : List α × List α} (member : p ∈ pairUp fields) :
    p.1 ∈ fields ∧ p.2 ∈ fields := by
  induction fields using pairUp.induct with
  | case1 a b rest ih =>
    rcases List.mem_cons.mp member with rfl | later
    · simp
    · exact ⟨by simp [(ih later).1], by simp [(ih later).2]⟩
  | case2 fields short =>
    rw [pairUp] at member
    · simp at member
    · exact short

omit [DecidableEq α] in
theorem not_mem_of_mem_splitOnP {p : α → Bool} {x : α} (separator : p x = true) {xs field : List α}
    (member : field ∈ xs.splitOnP p) : x ∉ field := by
  induction xs generalizing field with
  | nil => simp_all
  | cons y xs ih =>
    rw [List.splitOnP_cons_eq_if_modifyHead] at member
    split at member
    · rcases List.mem_cons.mp member with rfl | later
      · simp
      · exact ih later
    · rename_i different
      cases shape : xs.splitOnP p with
      | nil => exact absurd shape (List.splitOnP_ne_nil p xs)
      | cons first rest =>
        rw [shape, List.modifyHead_cons] at member
        rcases List.mem_cons.mp member with rfl | later
        · have clean := ih (shape ▸ List.mem_cons_self ..)
          simp only [List.mem_cons, not_or]
          exact ⟨fun same => different (same ▸ separator), clean⟩
        · exact ih (by simp [shape, later])

theorem not_mem_of_mem_splitOn {xs field : List α} (member : field ∈ xs.splitOn sep) : sep ∉ field := by
  rw [List.splitOn_eq_splitOnP] at member
  exact not_mem_of_mem_splitOnP (by simp) member

theorem length_splitOn (sep : α) (xs : List α) : (xs.splitOn sep).length = xs.count sep + 1 := by
  induction xs with
  | nil => rfl
  | cons x xs ih =>
    rw [List.splitOn_cons_eq_if_modifyHead, List.count_cons]
    split <;> simp [ih]

/-- The parts of a list are all of it but its separators. -/
theorem sum_length_splitOn (sep : α) (xs : List α) :
    ((xs.splitOn sep).map List.length).sum + xs.count sep = xs.length := by
  induction xs with
  | nil => rfl
  | cons x xs ih =>
    rw [List.splitOn_cons_eq_if_modifyHead, List.count_cons, List.length_cons, ← ih]
    split
    · rw [List.map_cons, List.sum_cons, List.length_nil]
      omega
    · obtain ⟨first, rest, parts⟩ := List.exists_cons_of_ne_nil (List.splitOn_ne_nil sep xs)
      rw [parts, List.modifyHead_cons, List.map_cons, List.map_cons, List.sum_cons, List.sum_cons, List.length_cons]
      omega
/-- The segments that a separator ends, and what follows the last separator. -/
def segments (sep : α) : List α → List (List α) × List α
  | [] => ([], [])
  | x :: xs =>
    match segments sep xs with
    | (ended, last) =>
      if x = sep then ([] :: ended, last)
      else
        match ended with
        | [] => ([], x :: last)
        | first :: ended => ((x :: first) :: ended, last)

/-- The list with these segments. -/
def ofSegments (sep : α) (ended : List (List α)) (last : List α) : List α := ended.flatMap (· ++ [sep]) ++ last

omit [DecidableEq α] in
@[simp] theorem ofSegments_nil (last : List α) : ofSegments sep [] last = last := rfl

omit [DecidableEq α] in
@[simp] theorem ofSegments_cons (first : List α) (ended : List (List α)) (last : List α) :
    ofSegments sep (first :: ended) last = first ++ sep :: ofSegments sep ended last := by
  simp [ofSegments]

theorem splitOn_ofSegments {ended : List (List α)} (clean : ∀ segment ∈ ended, sep ∉ segment) (last : List α) :
    (ofSegments sep ended last).splitOn sep = ended ++ last.splitOn sep := by
  induction ended with
  | nil => rfl
  | cons first ended ih =>
    rw [ofSegments_cons, List.splitOn_append_cons_self_of_not_mem (clean first (List.mem_cons_self ..)),
      ih fun segment member => clean segment (List.mem_cons_of_mem _ member), List.cons_append]

omit [DecidableEq α] in
theorem ofSegments_append (ended : List (List α)) (last after : List α) :
    ofSegments sep ended last ++ after = ofSegments sep ended (last ++ after) := List.append_assoc _ _ _

omit [DecidableEq α] in
theorem ofSegments_append_left (ended ended' : List (List α)) (last : List α) :
    ofSegments sep (ended ++ ended') last = ofSegments sep ended (ofSegments sep ended' last) := by
  simp only [ofSegments, List.flatMap_append, List.append_assoc]

omit [DecidableEq α] in
/-- Fields with the separator between them. -/
theorem intercalate_eq_ofSegments (ended : List (List α)) (last : List α) :
    [sep].intercalate (ended ++ [last]) = ofSegments sep ended last := by
  induction ended with
  | nil => rw [List.nil_append, List.intercalate_singleton, ofSegments_nil]
  | cons first ended ih =>
    have more : ended ++ [last] ≠ [] := List.append_ne_nil_of_right_ne_nil _ (List.cons_ne_nil _ _)
    rw [List.cons_append, List.intercalate_cons_of_ne_nil more, ih, ofSegments_cons]
    simp

theorem splitOn_clean_append {xs : List α} (clean : sep ∉ xs) (ys : List α) :
    (xs ++ ys).splitOn sep = (ys.splitOn sep).modifyHead (xs ++ ·) := by
  induction xs with
  | nil =>
    rw [List.nil_append]
    cases ys.splitOn sep <;> rfl
  | cons x xs ih =>
    rw [List.mem_cons, not_or] at clean
    have other : (x == sep) = false := by simpa using Ne.symm clean.1
    rw [List.cons_append, List.splitOn_cons_eq_if_modifyHead, if_neg (by simp [other]), ih clean.2]
    cases ys.splitOn sep <;> rfl

/-- The last part of a list and the first part of what follows it become one part. -/
theorem splitOn_append {xs ys last first : List α} {init rest : List (List α)}
    (left : xs.splitOn sep = init ++ [last])
    (right : ys.splitOn sep = first :: rest) : (xs ++ ys).splitOn sep = init ++ (last ++ first) :: rest := by
  have whole : xs = ofSegments sep init last := by
    rw [← intercalate_eq_ofSegments, ← left, List.intercalate_splitOn]
  have clean : ∀ segment ∈ init ++ [last], sep ∉ segment := fun segment member =>
    not_mem_of_mem_splitOn (left ▸ member)
  rw [whole, ofSegments_append, splitOn_ofSegments fun segment member =>
    clean segment (List.mem_append_left _ member),
    splitOn_clean_append (clean last (List.mem_append_right _ (List.mem_singleton_self _))), right]
  rfl

/-- The parts of two lists stay apart exactly if the second starts with a separator. -/
theorem splitOn_append_eq_iff_left (xs ys : List α) (fields : List (List α)) :
    (xs ++ ys).splitOn sep = xs.splitOn sep ++ fields ↔ ys.splitOn sep = [] :: fields := by
  obtain ⟨init, last, left⟩ := (List.eq_nil_or_concat (xs.splitOn sep)).resolve_left (List.splitOn_ne_nil sep xs)
  obtain ⟨first, rest, right⟩ := List.exists_cons_of_ne_nil (List.splitOn_ne_nil sep ys)
  rw [List.concat_eq_append] at left
  rw [splitOn_append left right, left, right, List.append_assoc, List.append_cancel_left_eq, List.singleton_append,
    List.cons_eq_cons, List.append_right_eq_self, List.cons_eq_cons]

theorem splitOn_append_eq_iff_right (xs ys : List α) (fields : List (List α)) :
    (xs ++ ys).splitOn sep = fields ++ ys.splitOn sep ↔ xs.splitOn sep = fields ++ [[]] := by
  obtain ⟨init, last, left⟩ := (List.eq_nil_or_concat (xs.splitOn sep)).resolve_left (List.splitOn_ne_nil sep xs)
  obtain ⟨first, rest, right⟩ := List.exists_cons_of_ne_nil (List.splitOn_ne_nil sep ys)
  rw [List.concat_eq_append] at left
  rw [splitOn_append left right, left, right]
  constructor
  · intro same
    obtain ⟨rfl, ends⟩ := List.append_inj' same rfl
    rw [List.append_left_eq_self.mp (List.cons_eq_cons.mp ends).1]
  · intro same
    obtain ⟨rfl, ends⟩ := List.append_inj' same rfl
    rw [List.singleton_inj.mp ends, List.nil_append]

theorem splitOn_append_flatMap (xs : List α) (fields : List (List α)) :
    (xs ++ fields.flatMap (sep :: ·)).splitOn sep = xs.splitOn sep ++ fields.flatMap (·.splitOn sep) := by
  induction fields generalizing xs with
  | nil => simp
  | cons field fields ih =>
    have next := ih (xs ++ sep :: field)
    rw [List.splitOn_append_cons_self, List.append_assoc, List.append_assoc] at next
    exact next

/-- What stands right before a separator is at the end of a part that is not the last one. -/
theorem mem_dropLast_splitOn_of_found {needle xs : List α} (clean : sep ∉ needle)
    (found : needle ++ [sep] <:+: xs) :
    ∃ field ∈ (xs.splitOn sep).dropLast, needle <:+ field := by
  obtain ⟨before, after, rfl⟩ := found
  obtain ⟨init, last, left⟩ :=
    (List.eq_nil_or_concat (before.splitOn sep)).resolve_left (List.splitOn_ne_nil sep before)
  rw [List.concat_eq_append] at left
  have joined := splitOn_append left (List.splitOn_eq_singleton clean)
  have shape : before ++ (needle ++ [sep]) ++ after = before ++ needle ++ sep :: after := by simp
  rw [shape, List.splitOn_append_cons_self, joined,
    List.dropLast_append_of_ne_nil (List.splitOn_ne_nil sep after)]
  exact ⟨last ++ needle, by simp, List.suffix_append last needle⟩

theorem segments_join (sep : α) (xs : List α) : ofSegments sep (segments sep xs).1 (segments sep xs).2 = xs := by
  induction xs with
  | nil => rfl
  | cons x xs ih =>
    cases shape : segments sep xs with
    | mk ended last =>
      rw [shape] at ih
      simp only [segments, shape]
      split
      · rename_i same
        rw [ofSegments_cons, ih, same]
        rfl
      · cases ended with
        | nil =>
          simp only [ofSegments_nil] at ih ⊢
          rw [ih]
        | cons first ended =>
          simp only [ofSegments_cons, List.cons_append] at ih ⊢
          rw [ih]

theorem segments_clean (sep : α) (xs : List α) :
    (∀ segment ∈ (segments sep xs).1, sep ∉ segment) ∧ sep ∉ (segments sep xs).2 := by
  induction xs with
  | nil => simp [segments]
  | cons x xs ih =>
    cases shape : segments sep xs with
    | mk ended last =>
      rw [shape] at ih
      obtain ⟨clean, cleanLast⟩ := ih
      simp only [segments, shape]
      split
      · refine ⟨fun segment member => ?_, cleanLast⟩
        rcases List.mem_cons.mp member with rfl | later
        · simp
        · exact clean segment later
      · rename_i other
        cases ended with
        | nil =>
          refine ⟨by simp, ?_⟩
          simp only [List.mem_cons, not_or]
          exact ⟨fun same => other same.symm, cleanLast⟩
        | cons first ended =>
          refine ⟨fun segment member => ?_, cleanLast⟩
          rcases List.mem_cons.mp member with rfl | later
          · simp only [List.mem_cons, not_or]
            exact ⟨fun same => other same.symm, clean first (List.mem_cons_self ..)⟩
          · exact clean segment (List.mem_cons_of_mem _ later)

theorem segments_of_not_mem {xs : List α} (absent : sep ∉ xs) : segments sep xs = ([], xs) := by
  induction xs with
  | nil => rfl
  | cons x xs ih =>
    have different : x ≠ sep := fun same => absent (by simp [same])
    simp [segments, ih fun member => absent (List.mem_cons_of_mem _ member), different]

theorem segments_append_cons {xs : List α} (absent : sep ∉ xs) (ys : List α) :
    segments sep (xs ++ sep :: ys) = (xs :: (segments sep ys).1, (segments sep ys).2) := by
  induction xs with
  | nil => simp [segments]
  | cons x xs ih =>
    have different : x ≠ sep := fun same => absent (by simp [same])
    simp [segments, ih fun member => absent (List.mem_cons_of_mem _ member), different]

theorem segments_ofSegments {ended : List (List α)} {last : List α} (clean : ∀ segment ∈ ended, sep ∉ segment)
    (cleanLast : sep ∉ last) : segments sep (ofSegments sep ended last) = (ended, last) := by
  induction ended with
  | nil => exact segments_of_not_mem cleanLast
  | cons first ended ih =>
    rw [ofSegments_cons, segments_append_cons (clean first (List.mem_cons_self ..)),
      ih fun segment member => clean segment (List.mem_cons_of_mem _ member)]

end Separated
