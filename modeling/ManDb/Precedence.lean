import ManDb.DbStore

namespace ManDb

/-- The precedence among records for the same page: a stronger id; the same id, or
the two kinds of real page, with a newer mtime; the same id and mtime with a
smaller pointer. -/
def Prefers (new old : Mandata) : Prop :=
  new.id < old.id ∨
  ((new.id = old.id ∨ (new.id = ultMan ∧ old.id = soMan) ∨ (new.id = soMan ∧ old.id = ultMan)) ∧
    timespecCmp new.mtime old.mtime = .gt) ∨
  (new.id = old.id ∧ new.mtime = old.mtime ∧ Option.map₂ compare new.pointer old.pointer = some .lt)

instance (new old : Mandata) : Decidable (Prefers new old) := inferInstanceAs (Decidable (_ ∨ _ ∨ _))

variable {a b : UInt8} {s t : Timespec} {new old : Mandata}

theorem timespecCmp_eq_iff : timespecCmp s t = .eq ↔ s = t := by
  cases s
  cases t
  simp [timespecCmp, Ordering.then_eq_eq]

theorem compareIds_plain : compareIds a b false = compare a b := by simp [compareIds]

theorem compareIds_promote_le :
    (compareIds a b true).isLE ↔ a < b ∨ a = b ∨ (a = soMan ∧ b = ultMan) := by
  have links : ultMan < soMan := by decide
  by_cases up : a = ultMan ∧ b = soMan
  · obtain ⟨rfl, rfl⟩ := up
    simp [compareIds, links]
  · by_cases down : a = soMan ∧ b = ultMan
    · obtain ⟨rfl, rfl⟩ := down
      simp [compareIds]
    · have plain : compareIds a b true = compare a b := by
        unfold compareIds
        rw [if_neg]
        simpa using ⟨fun h => fun h' => up ⟨h, h'⟩, fun h => fun h' => down ⟨h, h'⟩⟩
      rw [plain, Std.isLE_compare, UInt8.le_iff_lt_or_eq]
      simp [down]

theorem replaceAction_yes_iff : replaceAction new old = .yes ↔ Prefers new old := by
  unfold replaceAction Prefers
  simp only [compareIds_plain, compareIds_promote_le]
  cases ids : compare new.id old.id with
  | lt =>
    have stronger : new.id < old.id := Std.compare_eq_lt.mp ids
    simp [stronger]
  | eq =>
    have same : new.id = old.id := Std.compare_eq_iff_eq.mp ids
    cases order : timespecCmp new.mtime old.mtime with
    | lt =>
      have differ : new.mtime ≠ old.mtime := by
        intro eq
        rw [timespecCmp_eq_iff.mpr eq] at order
        cases order
      simp [same, differ]
    | eq =>
      have mtime := timespecCmp_eq_iff.mp order
      by_cases comp : some (dashIfUnset new.comp) = old.comp
      · cases Option.map₂ compare new.pointer old.pointer with
        | none => simp [same, mtime, comp]
        | some pointers => cases pointers <;> simp [same, mtime, comp]
      · cases Option.map₂ compare new.pointer old.pointer with
        | none => simp [same, mtime, comp]
        | some pointers => cases pointers <;> simp [same, mtime, comp]
    | gt => simp [same]
  | gt =>
    have weaker : old.id < new.id := Std.compare_eq_gt.mp ids
    have still : ¬new.id < old.id := UInt8.lt_asymm weaker
    have differ : new.id ≠ old.id := (UInt8.ne_of_lt weaker).symm
    have notUp : ¬(new.id = ultMan ∧ old.id = soMan) := by
      rintro ⟨h, h'⟩
      rw [h, h'] at weaker
      exact absurd weaker (by decide)
    cases order : timespecCmp new.mtime old.mtime <;> simp [still, differ, notUp]

/-- A write is refused only between records that tie in everything but the
compression extension. -/
theorem replaceAction_fail_iff {p q : Bytes} (newPointer : new.pointer = some p) (oldPointer : old.pointer = some q) :
    replaceAction new old = .fail ↔
      new.id = old.id ∧ new.mtime = old.mtime ∧ p = q ∧ some (dashIfUnset new.comp) ≠ old.comp := by
  unfold replaceAction
  simp only [compareIds_plain, compareIds_promote_le, newPointer, oldPointer, Option.map₂_some_some,
    Option.some.injEq]
  cases ids : compare new.id old.id with
  | lt =>
    have differ : new.id ≠ old.id := UInt8.ne_of_lt (Std.compare_eq_lt.mp ids)
    simp [differ]
  | eq =>
    have same : new.id = old.id := Std.compare_eq_iff_eq.mp ids
    cases order : timespecCmp new.mtime old.mtime with
    | eq =>
      have mtime := timespecCmp_eq_iff.mp order
      by_cases comp : some (dashIfUnset new.comp) = old.comp
      · cases pointers : compare p q <;> simp [same, comp]
      · cases pointers : compare p q with
        | lt =>
          have apart : p ≠ q := by rintro rfl; simp [Std.ReflCmp.compare_self] at pointers
          simp [same, apart]
        | eq => simp [same, mtime, comp, Std.compare_eq_iff_eq.mp pointers]
        | gt =>
          have apart : p ≠ q := by rintro rfl; simp [Std.ReflCmp.compare_self] at pointers
          simp [same, apart]
    | lt =>
      have differ : new.mtime ≠ old.mtime := fun eq => by simp [timespecCmp_eq_iff.mpr eq] at order
      simp [same, differ]
    | gt =>
      have differ : new.mtime ≠ old.mtime := fun eq => by simp [timespecCmp_eq_iff.mpr eq] at order
      simp [same, differ]
  | gt =>
    have differ : new.id ≠ old.id := (UInt8.ne_of_lt (Std.compare_eq_gt.mp ids)).symm
    by_cases links : new.id < old.id ∨ (new.id = soMan ∧ old.id = ultMan)
    · cases order : timespecCmp new.mtime old.mtime <;> simp [links, differ]
    · simp [links, differ]

end ManDb
