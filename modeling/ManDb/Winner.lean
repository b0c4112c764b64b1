import ManDb.Precedence
import ManDb.Lib.Contest
import ManDb.Lib.SortedList

namespace ManDb

/-- The strict order the precedence follows but for the two kinds of real page:
the stronger id first, then the newer page, then the smaller pointer. -/
def rank (a b : Mandata) : Ordering :=
  (compare a.id b.id).then ((timespecCmp b.mtime a.mtime).then
    (compare (dashIfUnset a.pointer) (dashIfUnset b.pointer)))

/-- The two records are told apart by nothing the precedence looks at. -/
def Mandata.Ties (a b : Mandata) : Prop :=
  a.id = b.id ∧ a.mtime = b.mtime ∧ dashIfUnset a.pointer = dashIfUnset b.pointer

instance (a b : Mandata) : Decidable (a.Ties b) := inferInstanceAs (Decidable (_ ∧ _ ∧ _))

/-- Among the records for one page a link by `.so` is newer than every real page,
and there is a real page but no record with a stronger id. -/
def Upset (infos : List Mandata) : Prop :=
  (∃ u ∈ infos, u.id = ultMan) ∧ (∀ info ∈ infos, ultMan ≤ info.id) ∧
  ∃ s ∈ infos, s.id = soMan ∧ ∀ info ∈ infos, info.id = ultMan → timespecCmp info.mtime s.mtime = .lt

instance (infos : List Mandata) : Decidable (Upset infos) := inferInstanceAs (Decidable (_ ∧ _ ∧ _))

variable {a b w x : Mandata} {infos : List Mandata}

instance : Std.TransCmp timespecCmp :=
  inferInstanceAs (Std.TransCmp (compareLex (compareOn Timespec.sec) (compareOn Timespec.nsec)))

instance : Std.TransCmp (fun a b : Mandata => timespecCmp b.mtime a.mtime) where
  eq_swap {_ _} := @Std.OrientedCmp.eq_swap _ timespecCmp _ _ _
  isLE_trans first second := @Std.TransCmp.isLE_trans _ timespecCmp _ _ _ _ second first

instance : Std.TransCmp rank :=
  inferInstanceAs (Std.TransCmp (compareLex (compareOn Mandata.id)
    (compareLex (fun a b => timespecCmp b.mtime a.mtime) (compareOn (fun info => dashIfUnset info.pointer)))))

theorem rank_eq_iff : rank a b = .eq ↔ a.Ties b := by
  simp only [rank, Ordering.then_eq_eq, timespecCmp_eq_iff, Std.compare_eq_iff_eq, Mandata.Ties, @eq_comm _ b.mtime]

theorem rank_lt_iff : rank a b = .lt ↔ a.id < b.id ∨ (a.id = b.id ∧ (timespecCmp a.mtime b.mtime = .gt ∨
    (a.mtime = b.mtime ∧ compare (dashIfUnset a.pointer) (dashIfUnset b.pointer) = .lt))) := by
  have swap : timespecCmp b.mtime a.mtime = .lt ↔ timespecCmp a.mtime b.mtime = .gt :=
    Std.OrientedCmp.gt_iff_lt.symm
  simp only [rank, Ordering.then_eq_lt, Std.compare_eq_lt, Std.compare_eq_iff_eq, swap, timespecCmp_eq_iff,
    @eq_comm _ b.mtime]

theorem not_before (le : (rank a b).isLE) : rank b a ≠ .lt := by
  intro before
  rw [@Std.OrientedCmp.eq_swap _ rank, before] at le
  cases le

/-- Within the same id the first in rank is the newest. -/
theorem newest_of_rank (le : (rank a b).isLE) (sameId : b.id = a.id) : (timespecCmp b.mtime a.mtime).isLE := by
  cases order : timespecCmp b.mtime a.mtime with
  | lt => rfl
  | eq => rfl
  | gt => exact absurd (rank_lt_iff.mpr (Or.inr ⟨sameId, Or.inl order⟩)) (not_before le)

/-- Who ranks first is preferred. -/
theorem prefers_of_rank (filledA : a.pointer.isSome) (filledB : b.pointer.isSome) (first : rank a b = .lt) :
    Prefers a b := by
  obtain ⟨p, atA⟩ := Option.isSome_iff_exists.mp filledA
  obtain ⟨q, atB⟩ := Option.isSome_iff_exists.mp filledB
  rcases rank_lt_iff.mp first with stronger | ⟨sameId, newer | ⟨sameTime, smaller⟩⟩
  · exact Or.inl stronger
  · exact Or.inr (Or.inl ⟨Or.inl sameId, newer⟩)
  · refine Or.inr (Or.inr ⟨sameId, sameTime, ?_⟩)
    simpa [atA, atB, dashIfUnset] using smaller

/-- The only way to be preferred over one who ranks first: a newer link by `.so`. -/
theorem link_of_prefers (filledA : a.pointer.isSome) (filledB : b.pointer.isSome) (first : rank a b = .lt)
    (preferred : Prefers b a) : a.id = ultMan ∧ b.id = soMan ∧ timespecCmp a.mtime b.mtime = .lt := by
  obtain ⟨p, atA⟩ := Option.isSome_iff_exists.mp filledA
  obtain ⟨q, atB⟩ := Option.isSome_iff_exists.mp filledB
  have notBefore : rank b a ≠ .lt := not_before (by simp [first])
  rcases preferred with stronger | ⟨sameId | ⟨real, link⟩ | ⟨link, real⟩, newer⟩ | ⟨sameId, sameTime, smaller⟩
  · exact absurd (rank_lt_iff.mpr (Or.inl stronger)) notBefore
  · exact absurd (rank_lt_iff.mpr (Or.inr ⟨sameId, Or.inl newer⟩)) notBefore
  · have stronger : b.id < a.id := by
      rw [real, link]
      decide
    exact absurd (rank_lt_iff.mpr (Or.inl stronger)) notBefore
  · exact ⟨real, link, Std.OrientedCmp.gt_iff_lt.mp newer⟩
  · refine absurd (rank_lt_iff.mpr (Or.inr ⟨sameId, Or.inr ⟨sameTime, ?_⟩⟩)) notBefore
    simpa [atA, atB, dashIfUnset] using smaller

/-- The records offered for one page: filled in, and told apart by the precedence. -/
structure Rivals (infos : List Mandata) : Prop where
  filled : ∀ info ∈ infos, info.pointer.isSome
  apart : ∀ a ∈ infos, ∀ b ∈ infos, a.Ties b → a = b

theorem Rivals.first (rivals : Rivals infos) (memberA : a ∈ infos) (memberB : b ∈ infos) (different : b ≠ a)
    (le : (rank a b).isLE) : rank a b = .lt := by
  cases order : rank a b with
  | lt => rfl
  | eq => exact absurd (rivals.apart a memberA b memberB (rank_eq_iff.mp order)).symm different
  | gt => simp [order] at le

/-- Without an upset one record beats all others and is beaten by none. -/
theorem Rivals.best (rivals : Rivals infos) (nonempty : infos ≠ []) (calm : ¬Upset infos) :
    ∃ w ∈ infos, ∀ x ∈ infos, x ≠ w → Prefers w x ∧ ¬Prefers x w := by
  obtain ⟨w, member, least⟩ := @SortedList.exists_least _ rank _ _ nonempty
  refine ⟨w, member, fun x inside different => ?_⟩
  have first := rivals.first member inside different (least x inside)
  refine ⟨prefers_of_rank (rivals.filled w member) (rivals.filled x inside) first, fun preferred => calm ?_⟩
  obtain ⟨real, link, newer⟩ :=
    link_of_prefers (rivals.filled w member) (rivals.filled x inside) first preferred
  refine ⟨⟨w, member, real⟩, fun info atInfo => ?_, x, inside, link, fun info atInfo isReal => ?_⟩
  · rw [← real]
    by_contra below
    exact absurd (rank_lt_iff.mpr (Or.inl (by simpa using below))) (not_before (least info atInfo))
  · have notNewer := newest_of_rank (least info atInfo) (isReal.trans real.symm)
    exact Std.TransCmp.lt_of_isLE_of_lt notNewer newer

/-- In an upset two records beat all others, and each the other. -/
theorem Rivals.upset (rivals : Rivals infos) (upset : Upset infos) :
    ∃ u ∈ infos, ∃ s ∈ infos, u.id ≠ s.id ∧ (∀ x ∈ infos, x ≠ u → Prefers u x) ∧
      ∀ x ∈ infos, x ≠ s → Prefers s x := by
  obtain ⟨⟨real, atReal, isReal⟩, none, link, atLink, isLink, newer⟩ := upset
  obtain ⟨u, atU, least⟩ := @SortedList.exists_least _ rank _ infos (List.ne_nil_of_mem atReal)
  have links : link ∈ infos.filter (fun info => info.id = soMan) := by simp [atLink, isLink]
  obtain ⟨s, atS, leastLink⟩ := @SortedList.exists_least _ rank _ _ (List.ne_nil_of_mem links)
  obtain ⟨inS, isS⟩ : s ∈ infos ∧ s.id = soMan := by simpa using atS
  have isU : u.id = ultMan := by
    refine UInt8.le_antisymm ?_ (none u atU)
    by_contra above
    exact absurd (rank_lt_iff.mpr (Or.inl (by simpa [isReal] using above))) (not_before (least real atReal))
  have newerS : (timespecCmp link.mtime s.mtime).isLE :=
    newest_of_rank (leastLink link links) (isLink.trans isS.symm)
  refine ⟨u, atU, s, inS, by rw [isU, isS]; decide, fun x inside different => ?_, fun x inside different => ?_⟩
  · exact prefers_of_rank (rivals.filled u atU) (rivals.filled x inside)
      (rivals.first atU inside different (least x inside))
  · by_cases isReal : x.id = ultMan
    · refine Or.inr (Or.inl ⟨Or.inr (Or.inr ⟨isS, isReal⟩), ?_⟩)
      rw [Std.OrientedCmp.gt_iff_lt]
      exact Std.TransCmp.lt_of_lt_of_isLE (newer x inside isReal) newerS
    · by_cases isLinkX : x.id = soMan
      · exact prefers_of_rank (rivals.filled s inS) (rivals.filled x inside)
          (rivals.first inS inside different (leastLink x (by simp [inside, isLinkX])))
      · have above := none x inside
        refine Or.inl ?_
        rw [isS]
        have aboveReal : ultMan < x.id := UInt8.lt_of_le_of_ne above (fun same => isReal same.symm)
        have next : soMan ≤ x.id := by
          rw [UInt8.lt_iff_toNat_lt] at aboveReal
          exact UInt8.le_iff_toNat_le.mpr aboveReal
        exact UInt8.lt_of_le_of_ne next (fun same => isLinkX same.symm)

end ManDb
