import Mathlib.Data.List.Induction
import ManDb.CandidateOrder

namespace ManDb

section Relations

variable (ctx : SortContext) (new old : Candidate)

/-- The new candidate makes an old duplicate go. -/
def Displaces : Prop := duplicateCandidates new old = true ∧ compareCandidates ctx new old = .lt

/-- An old duplicate that is at least as good makes the new candidate go. -/
def BlockedBy : Prop := duplicateCandidates new old = true ∧ (compareCandidates ctx new old).isGE

/-- A candidate stands for itself, and for its duplicates that are not better. -/
def StandsFor : Prop := new = old ∨ (duplicateCandidates old new = true ∧ (compareCandidates ctx new old).isLE)

end Relations

/-- The list of candidates, with all that were offered and could be resolved. -/
structure OfferedList where
  list : CandidateList
  offered : List Candidate

def OfferedList.add (ctx : SortContext) (resolver : Resolver) (s : OfferedList) (offer : Offer) : OfferedList where
  list := (addCandidate ctx resolver s.list offer).2
  offered :=
    match resolver.resolve offer with
    | none => s.offered
    | some ult => s.offered ++ [offer.candidate ult s.list.addIndex]

/-- The list after these calls of `add_candidate`, starting from the empty list. -/
def afterOffers (ctx : SortContext) (resolver : Resolver) (addIndex : Nat) (offers : List Offer) : OfferedList :=
  offers.foldl (OfferedList.add ctx resolver) ⟨⟨[], addIndex⟩, []⟩

/-- No two candidates are duplicates, and for each one offered some candidate in the
list stands. -/
structure ListKept (ctx : SortContext) (s : OfferedList) : Prop where
  distinct : s.list.candidates.Pairwise fun a b => duplicateCandidates a b = false
  stands : ∀ offered ∈ s.offered, ∃ c ∈ s.list.candidates, StandsFor ctx c offered

instance (ctx : SortContext) (new old : Candidate) : Decidable (Displaces ctx new old) :=
  inferInstanceAs (Decidable (_ ∧ _))

/-- What a call may do to the list: nothing if it returns 0, else put the candidate at
the end and take the displaced ones out. -/
structure CallKept (ctx : SortContext) (resolver : Resolver) (s : OfferedList) (offer : Offer) : Prop where
  refused : (addCandidate ctx resolver s.list offer).1 = false →
    (addCandidate ctx resolver s.list offer).2.candidates = s.list.candidates
  added : (addCandidate ctx resolver s.list offer).1 = true → ∃ ult, resolver.resolve offer = some ult ∧
    (addCandidate ctx resolver s.list offer).2.candidates =
      s.list.candidates.filter (fun c => ¬Displaces ctx (offer.candidate ult s.list.addIndex) c) ++
        [offer.candidate ult s.list.addIndex]

/-- The candidates before the first that blocks the new one are not displaced by it;
if none blocks it, all that a displaced candidate stands for passes to the new one or
to one that stays. -/
structure OfferFits (ctx : SortContext) (s : OfferedList) (new : Candidate) : Prop where
  blocked : ∀ left c right, s.list.candidates = left ++ c :: right → BlockedBy ctx new c →
    (∀ d ∈ left, ¬BlockedBy ctx new d) → ∀ d ∈ left, ¬Displaces ctx new d
  free : (∀ c ∈ s.list.candidates, ¬BlockedBy ctx new c) → ∀ c ∈ s.list.candidates, Displaces ctx new c →
    ∀ offered ∈ s.offered, StandsFor ctx c offered →
      StandsFor ctx new offered ∨ ∃ d ∈ s.list.candidates, ¬Displaces ctx new d ∧ StandsFor ctx d offered

variable {ctx : SortContext} {resolver : Resolver} {s : OfferedList} {offer : Offer} {new c d : Candidate}
  {passed xs left right : List Candidate}

theorem duplicateCandidates_comm (a b : Candidate) : duplicateCandidates a b = duplicateCandidates b a := by
  have ult : (a.ult ≠ none ∧ a.ult = b.ult) ↔ (b.ult ≠ none ∧ b.ult = a.ult) :=
    ⟨fun both => ⟨both.2 ▸ both.1, both.2.symm⟩, fun both => ⟨both.2 ▸ both.1, both.2.symm⟩⟩
  unfold duplicateCandidates
  simp only [ult, ne_comm (a := a.source.name), ne_comm (a := a.source.sec), ne_comm (a := a.source.ext),
    eq_comm (a := a.path)]
  cases Separated.cutLast slash a.path with
  | mk base1 rest1 =>
    cases Separated.cutLast slash b.path with
    | mk base2 rest2 =>
      cases rest1 with
      | none => cases rest2 <;> rfl
      | some dir1 =>
        cases rest2 with
        | none => rfl
        | some dir2 =>
          simp only [max_comm base1.length, ne_comm (a := a.path.take _),
            eq_comm (a := (unpackLocaleBits dir1).language),
            eq_comm (a := (unpackLocaleBits dir1).territory), eq_comm (a := (unpackLocaleBits dir1).modifier)]

/-- A duplicate is displaced or blocks. -/
theorem displaces_iff_of_not_blocked (notBlocked : ¬BlockedBy ctx new c) :
    Displaces ctx new c ↔ duplicateCandidates new c = true := by
  refine and_iff_left_of_imp fun duplicate => ?_
  cases order : compareCandidates ctx new c with
  | lt => rfl
  | eq => exact absurd ⟨duplicate, by simp [order]⟩ notBlocked
  | gt => exact absurd ⟨duplicate, by simp [order]⟩ notBlocked

/-- The search takes the displaced candidates out as long as none blocks. -/
theorem searchDuplicates_append (notBlocked : ∀ c ∈ left, ¬BlockedBy ctx new c) :
    searchDuplicates ctx new passed (left ++ right) =
      searchDuplicates ctx new (passed ++ left.filter (fun c => ¬Displaces ctx new c)) right := by
  induction left generalizing passed with
  | nil => simp
  | cons c left ih =>
    have here := notBlocked c (List.mem_cons_self ..)
    have rest := fun (passed : List Candidate) =>
      @ih passed fun d member => notBlocked d (List.mem_cons_of_mem _ member)
    rw [List.cons_append, searchDuplicates]
    by_cases duplicate : duplicateCandidates new c = true
    · have displaced := (displaces_iff_of_not_blocked here).mpr duplicate
      rw [if_pos duplicate, if_neg fun atLeast => here ⟨duplicate, atLeast⟩, rest,
        List.filter_cons_of_neg (by simpa using displaced)]
    · have stays : ¬Displaces ctx new c := fun displaced => duplicate displaced.1
      rw [if_neg duplicate, rest, List.filter_cons_of_pos (by simpa using stays), List.append_assoc,
        List.singleton_append]

theorem searchDuplicates_free (notBlocked : ∀ c ∈ xs, ¬BlockedBy ctx new c) :
    searchDuplicates ctx new [] xs = (true, xs.filter (fun c => ¬Displaces ctx new c) ++ [new]) := by
  have whole := @searchDuplicates_append ctx new [] xs [] notBlocked
  rwa [List.append_nil, List.nil_append] at whole

theorem searchDuplicates_blocked (blocks : BlockedBy ctx new c) (notBlocked : ∀ d ∈ left, ¬BlockedBy ctx new d) :
    searchDuplicates ctx new [] (left ++ c :: right) =
      (false, left.filter (fun d => ¬Displaces ctx new d) ++ c :: right) := by
  rw [searchDuplicates_append notBlocked, List.nil_append, searchDuplicates, if_pos blocks.1, if_pos blocks.2]

/-- Either no candidate blocks the new one, or there is a first that does. -/
theorem first_blocked (ctx : SortContext) (new : Candidate) (xs : List Candidate) :
    (∀ c ∈ xs, ¬BlockedBy ctx new c) ∨
      ∃ left c right, xs = left ++ c :: right ∧ BlockedBy ctx new c ∧ ∀ d ∈ left, ¬BlockedBy ctx new d := by
  induction xs with
  | nil => simp
  | cons c xs ih =>
    by_cases blocks : BlockedBy ctx new c
    · exact Or.inr ⟨[], c, xs, rfl, blocks, by simp⟩
    · rcases ih with none | ⟨left, d, right, rfl, isFirst, before⟩
      · exact Or.inl (List.forall_mem_cons.mpr ⟨blocks, none⟩)
      · exact Or.inr ⟨c :: left, d, right, rfl, isFirst, List.forall_mem_cons.mpr ⟨blocks, before⟩⟩

theorem first_blocked_unique {left' right' : List Candidate} (split : left ++ c :: right = left' ++ d :: right')
    (blocks : BlockedBy ctx new c) (before : ∀ e ∈ left, ¬BlockedBy ctx new e) (blocks' : BlockedBy ctx new d)
    (before' : ∀ e ∈ left', ¬BlockedBy ctx new e) : left = left' := by
  induction left generalizing left' with
  | nil =>
    cases left' with
    | nil => rfl
    | cons e left' =>
      rw [List.nil_append, List.cons_append, List.cons.injEq] at split
      exact absurd (split.1 ▸ blocks) (before' e (List.mem_cons_self ..))
  | cons e left ih =>
    cases left' with
    | nil =>
      rw [List.nil_append, List.cons_append, List.cons.injEq] at split
      exact absurd (split.1 ▸ blocks') (before e (List.mem_cons_self ..))
    | cons e' left' =>
      rw [List.cons_append, List.cons_append, List.cons.injEq] at split
      rw [split.1, ih split.2 (fun f member => before f (List.mem_cons_of_mem _ member))
        fun f member => before' f (List.mem_cons_of_mem _ member)]

theorem Displaces.stays (kept : ListKept ctx s) (notBlocked : ∀ c ∈ s.list.candidates, ¬BlockedBy ctx new c) :
    (s.list.candidates.filter (fun c => ¬Displaces ctx new c) ++ [new]).Pairwise
      fun a b => duplicateCandidates a b = false := by
  refine List.pairwise_append.mpr ⟨kept.distinct.filter _, List.pairwise_singleton _ _,
    fun c member last isLast => ?_⟩
  obtain ⟨inside, stays⟩ := List.mem_filter.mp member
  rw [List.mem_singleton.mp isLast, duplicateCandidates_comm, Bool.eq_false_iff]
  intro duplicate
  exact of_decide_eq_true stays ((displaces_iff_of_not_blocked (notBlocked c inside)).mpr duplicate)

/-- Where nothing blocks the candidate, it takes the place of the displaced ones. -/
theorem free_kept_iff {addIndex : Nat} (kept : ListKept ctx s)
    (notBlocked : ∀ c ∈ s.list.candidates, ¬BlockedBy ctx new c) :
    ListKept ctx ⟨⟨s.list.candidates.filter (fun c => ¬Displaces ctx new c) ++ [new], addIndex⟩,
      s.offered ++ [new]⟩ ↔ OfferFits ctx s new := by
  constructor
  · intro keeps
    refine ⟨fun left c right split blocks => ?_, fun _ c inside displaced offered member _ => ?_⟩
    · exact absurd blocks (notBlocked c (by simp [split]))
    · obtain ⟨d, inList, stands⟩ := keeps.stands offered (List.mem_append_left _ member)
      rcases List.mem_append.mp inList with stays | isLast
      · obtain ⟨inD, notDisplaced⟩ := List.mem_filter.mp stays
        exact Or.inr ⟨d, inD, of_decide_eq_true notDisplaced, stands⟩
      · exact Or.inl (List.mem_singleton.mp isLast ▸ stands)
  · intro fits
    refine ⟨Displaces.stays kept notBlocked, fun offered member => ?_⟩
    have own : StandsFor ctx new offered →
        ∃ d ∈ s.list.candidates.filter (fun c => ¬Displaces ctx new c) ++ [new], StandsFor ctx d offered :=
      fun stands => ⟨new, by simp, stands⟩
    have staying : ∀ d ∈ s.list.candidates, ¬Displaces ctx new d → StandsFor ctx d offered →
        ∃ d ∈ s.list.candidates.filter (fun c => ¬Displaces ctx new c) ++ [new], StandsFor ctx d offered :=
      fun d inD notDisplaced stands => ⟨d, List.mem_append_left _ (by simpa using ⟨inD, notDisplaced⟩), stands⟩
    rcases List.mem_append.mp member with old | isLast
    · obtain ⟨c, inside, stands⟩ := kept.stands offered old
      by_cases displaced : Displaces ctx new c
      · rcases fits.free notBlocked c inside displaced offered old stands with passes | ⟨d, inD, notDisplaced,
          other⟩
        · exact own passes
        · exact staying d inD notDisplaced other
      · exact staying c inside displaced stands
    · exact own (Or.inl (List.mem_singleton.mp isLast).symm)

/-- A blocked candidate is stood for by the one that blocks it. -/
theorem blocked_kept {addIndex : Nat} (kept : ListKept ctx s) (inside : c ∈ s.list.candidates)
    (blocks : BlockedBy ctx new c) : ListKept ctx ⟨⟨s.list.candidates, addIndex⟩, s.offered ++ [new]⟩ := by
  refine ⟨kept.distinct, fun offered member => ?_⟩
  rcases List.mem_append.mp member with old | isLast
  · exact kept.stands offered old
  · rw [List.mem_singleton.mp isLast]
    refine ⟨c, inside, Or.inr ⟨blocks.1, ?_⟩⟩
    rw [compareCandidates_swap, Ordering.isLE_swap]
    exact blocks.2

/-- The search has then left the list as it was exactly if the candidate fits. -/
theorem blocked_unchanged_iff (split : s.list.candidates = left ++ c :: right) (blocks : BlockedBy ctx new c)
    (before : ∀ d ∈ left, ¬BlockedBy ctx new d) :
    left.filter (fun d => ¬Displaces ctx new d) ++ c :: right = s.list.candidates ↔ OfferFits ctx s new := by
  have unchanged : left.filter (fun d => ¬Displaces ctx new d) ++ c :: right = s.list.candidates ↔
      ∀ d ∈ left, ¬Displaces ctx new d := by
    rw [split, List.append_cancel_right_eq, List.filter_eq_self]
    simp
  rw [unchanged]
  refine ⟨fun same => ⟨fun left' d right' split' blocks' before' => ?_, fun notBlocked => ?_⟩,
    fun fits => fits.blocked left c right split blocks before⟩
  · rw [← first_blocked_unique (split.symm.trans split') blocks before blocks' before']
    exact same
  · exact absurd blocks (notBlocked c (by simp [split]))

/-- One call keeps what is to be kept exactly if the candidate fits. -/
theorem offerFits_iff {ult : Option Bytes} (kept : ListKept ctx s) (resolved : resolver.resolve offer = some ult) :
    (ListKept ctx (s.add ctx resolver offer) ∧ CallKept ctx resolver s offer) ↔
      OfferFits ctx s (offer.candidate ult s.list.addIndex) := by
  generalize isNew : offer.candidate ult s.list.addIndex = new
  have call : addCandidate ctx resolver s.list offer =
      ((searchDuplicates ctx new [] s.list.candidates).1,
        ⟨(searchDuplicates ctx new [] s.list.candidates).2, s.list.addIndex + 1⟩) := by
    simp [addCandidate, resolved, isNew]
  have after : s.add ctx resolver offer =
      ⟨⟨(searchDuplicates ctx new [] s.list.candidates).2, s.list.addIndex + 1⟩, s.offered ++ [new]⟩ := by
    simp [OfferedList.add, call, resolved, isNew]
  rcases first_blocked ctx new s.list.candidates with notBlocked | ⟨left, c, right, split, blocks, before⟩
  · rw [searchDuplicates_free notBlocked] at call after
    have calls : CallKept ctx resolver s offer :=
      ⟨fun no => by simp [call] at no, fun _ => ⟨ult, resolved, by rw [call, isNew]⟩⟩
    rw [after, free_kept_iff kept notBlocked]
    exact and_iff_left calls
  · have search := @searchDuplicates_blocked ctx new c left right blocks before
    rw [← split] at search
    rw [search] at call after
    rw [← blocked_unchanged_iff split blocks before]
    constructor
    · rintro ⟨_, calls⟩
      have same := calls.refused (by rw [call])
      rwa [call] at same
    · intro same
      rw [same] at call after
      rw [after]
      exact ⟨blocked_kept kept (by simp [split]) blocks, fun _ => by rw [call], fun yes => by simp [call] at yes⟩

theorem listKept_unresolved (kept : ListKept ctx s) (unresolved : resolver.resolve offer = none) :
    ListKept ctx (s.add ctx resolver offer) ∧ CallKept ctx resolver s offer := by
  have call : addCandidate ctx resolver s.list offer = (false, s.list) := by simp [addCandidate, unresolved]
  have after : s.add ctx resolver offer = s := by simp [OfferedList.add, call, unresolved]
  rw [after]
  exact ⟨kept, fun _ => by rw [call], fun yes => by simp [call] at yes⟩

/-- One more call adds one state and one condition. -/
theorem forall_calls_concat {offers : List Offer} {last : Offer} {P : List Offer → Offer → Prop} :
    (∀ before offer, before ++ [offer] <+: offers ++ [last] → P before offer) ↔
      (∀ before offer, before ++ [offer] <+: offers → P before offer) ∧ P offers last := by
  constructor
  · intro every
    exact ⟨fun before offer earlier => every before offer (earlier.trans (List.prefix_append ..)),
      every offers last (List.prefix_refl _)⟩
  · rintro ⟨earlier, atLast⟩ before offer within
    rcases List.prefix_concat_iff.mp within with same | inside
    · obtain ⟨rfl, ends⟩ := List.append_inj' same rfl
      rw [List.cons.inj ends |>.1]
      exact atLast
    · exact earlier before offer inside

theorem forall_states_concat {offers : List Offer} {last : Offer} {P : List Offer → Prop} :
    (∀ before, before <+: offers ++ [last] → P before) ↔
      (∀ before, before <+: offers → P before) ∧ P (offers ++ [last]) := by
  simp only [List.prefix_concat_iff, or_imp, forall_and, forall_eq]
  exact And.comm

/-- Every call of `add_candidate` keeps what is to be kept exactly if every candidate
fits when it is offered. -/
theorem addCandidate_kept_iff (ctx : SortContext) (resolver : Resolver) (addIndex : Nat) (offers : List Offer) :
    ((∀ before, before <+: offers → ListKept ctx (afterOffers ctx resolver addIndex before)) ∧
      ∀ before offer, before ++ [offer] <+: offers →
        CallKept ctx resolver (afterOffers ctx resolver addIndex before) offer) ↔
    ∀ before offer, before ++ [offer] <+: offers → ∀ ult, resolver.resolve offer = some ult →
      OfferFits ctx (afterOffers ctx resolver addIndex before)
        (offer.candidate ult (afterOffers ctx resolver addIndex before).list.addIndex) := by
  induction offers using List.reverseRecOn with
  | nil =>
    have start : ListKept ctx (afterOffers ctx resolver addIndex []) := ⟨List.Pairwise.nil, by simp [afterOffers]⟩
    constructor
    · intro _ before offer atStart
      simp at atStart
    · refine fun _ => ⟨fun before atStart => ?_, fun before offer atStart => ?_⟩
      · rw [List.prefix_nil.mp atStart]
        exact start
      · simp at atStart
  | append_singleton offers last ih =>
    have state : afterOffers ctx resolver addIndex (offers ++ [last]) =
        (afterOffers ctx resolver addIndex offers).add ctx resolver last := by
      simp [afterOffers]
    rw [forall_calls_concat, forall_calls_concat, forall_states_concat, ← ih, state]
    constructor
    · rintro ⟨⟨kept, after⟩, made, call⟩
      refine ⟨⟨kept, made⟩, fun ult resolved => ?_⟩
      exact (offerFits_iff (kept offers (List.prefix_refl _)) resolved).mp ⟨after, call⟩
    · rintro ⟨⟨kept, made⟩, fits⟩
      have before := kept offers (List.prefix_refl _)
      have step : ListKept ctx ((afterOffers ctx resolver addIndex offers).add ctx resolver last) ∧
          CallKept ctx resolver (afterOffers ctx resolver addIndex offers) last := by
        cases resolved : resolver.resolve last with
        | none => exact listKept_unresolved before resolved
        | some ult => exact (offerFits_iff before resolved).mpr (fits ult resolved)
      exact ⟨⟨kept, step.1⟩, made, step.2⟩

/-- A page that was found in the file system, with its ultimate source. -/
def foundPage (ext ult : String) : Offer where
  fromDb := false
  cat := false
  reqName := ascii "foo"
  path := ascii "/man"
  ult := some (ascii ult)
  source := (samplePageIn "1" ext 0).source

def noFiles : Resolver := ⟨fun _ => false, fun _ _ _ _ => none⟩

/-- man1/foo.1p is a link to man1/foo.1.gz, and there is man1/foo.1 too: the call for
foo.1.gz returns 0, and has removed foo.1p from the list. -/
theorem addCandidate_loses_candidate :
    ¬((∀ before, before <+: [foundPage "1p" "/man/man1/foo.1.gz", foundPage "1" "/man/man1/foo.1",
          foundPage "1" "/man/man1/foo.1.gz"] → ListKept sampleContext (afterOffers sampleContext noFiles 0 before)) ∧
      ∀ before offer, before ++ [offer] <+: [foundPage "1p" "/man/man1/foo.1.gz", foundPage "1" "/man/man1/foo.1",
          foundPage "1" "/man/man1/foo.1.gz"] →
        CallKept sampleContext noFiles (afterOffers sampleContext noFiles 0 before) offer) := by
  rintro ⟨_, calls⟩
  have last := calls [foundPage "1p" "/man/man1/foo.1.gz", foundPage "1" "/man/man1/foo.1"]
    (foundPage "1" "/man/man1/foo.1.gz") (List.prefix_refl _)
  exact absurd (last.refused (by decide +kernel)) (by decide +kernel)

end ManDb
