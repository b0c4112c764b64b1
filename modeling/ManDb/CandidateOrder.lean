import ManDb.Candidates
import ManDb.Lib.Cascade
import ManDb.Lib.SortedList

namespace ManDb

open Cascade Std

/-- The criteria that come before the sections, and those of the extension alone. -/
def headCompare (ctx : SortContext) (left right : Candidate) : Ordering :=
  (firstIf (left.source.name = some left.reqName) (right.source.name = some right.reqName)).then <|
    (compareIds left.source.id right.source.id true).then <|
      (compareAsked ctx.askedSection left.source.ext right.source.ext).then <|
        compare (sectionIndex ctx.sectionList left.source.ext) (sectionIndex ctx.sectionList right.source.ext)

/-- The order of sections, then extensions. -/
def sectionOrder (left right : Candidate) : Ordering :=
  (compare left.source.sec right.source.sec).then (compare left.source.ext right.source.ext)

/-- What decides between candidates of one extension. -/
def tieBreak (ctx : SortContext) (left right : Candidate) : Ordering :=
  (compareOverrideDir ctx.overrideDir left.path right.path).then <|
    (compareLocales ctx left.path right.path).then (compare left.addIndex right.addIndex)

/-- What decides between candidates that the first criteria do not tell apart. -/
def tailCompare (ctx : SortContext) (left right : Candidate) : Ordering :=
  if left.source.ext ≠ right.source.ext then sectionOrder left right else tieBreak ctx left right

variable {ctx : SortContext} {a b c : Candidate}

theorem firstIf_eq (left right : Bool) : firstIf left right = compare (!left) (!right) := by
  cases left <;> cases right <;> rfl

/-- Of the ids, only those of pages and of links to pages are taken for the same. -/
def idRank (id : UInt8) : UInt8 := if id = soMan then ultMan else id

theorem compareIds_eq (left right : UInt8) : compareIds left right true = compare (idRank left) (idRank right) := by
  have link : ∀ other : UInt8, compareIds soMan other true = compare (idRank soMan) (idRank other) ∧
      compareIds other soMan true = compare (idRank other) (idRank soMan) := forall_byte (by decide)
  by_cases isLeft : left = soMan
  · rw [isLeft]
    exact (link right).1
  · by_cases isRight : right = soMan
    · rw [isRight]
      exact (link left).2
    · simp [compareIds, idRank, isLeft, isRight]

theorem firstIf_transCmp {α : Type} (test : α → Bool) : TransCmp fun a b => firstIf (test a) (test b) := by
  simp only [firstIf_eq]
  exact transCmp_map fun a => !test a

theorem compareIds_transCmp : TransCmp fun a b : Candidate => compareIds a.source.id b.source.id true := by
  simp only [compareIds_eq]
  exact transCmp_map fun a : Candidate => idRank a.source.id

theorem transCmp_then {α : Type} {f g : α → α → Ordering} (first : TransCmp f) (second : TransCmp g) :
    TransCmp fun a b => (f a b).then (g a b) := inferInstanceAs (TransCmp (compareLex f g))

instance headCompare_trans : TransCmp (headCompare ctx) := by
  refine transCmp_then (firstIf_transCmp fun a : Candidate => a.source.name = some a.reqName)
    (transCmp_then compareIds_transCmp (transCmp_then ?_ ?_))
  · cases ctx.askedSection with
    | none => exact { eq_swap := rfl, isLE_trans := fun _ _ => rfl }
    | some asked => exact firstIf_transCmp fun a : Candidate => a.source.ext = asked
  · exact transCmp_map fun a : Candidate => sectionIndex ctx.sectionList a.source.ext

instance sectionOrder_trans : TransCmp sectionOrder :=
  transCmp_then (transCmp_map fun a : Candidate => a.source.sec) (transCmp_map fun a : Candidate => a.source.ext)

theorem compareCandidates_eq (left right : Candidate) :
    compareCandidates ctx left right = (headCompare ctx left right).then (tailCompare ctx left right) := by
  unfold compareCandidates headCompare tailCompare compareSections sectionOrder tieBreak
  by_cases same : left.source.ext = right.source.ext
  · have asked : compareAsked ctx.askedSection right.source.ext right.source.ext = .eq := by
      cases ctx.askedSection with
      | none => rfl
      | some asked => exact (firstIf_eq _ _).trans ReflCmp.compare_self
    simp [same, asked, Ordering.then_assoc]
  · have differ : ∀ rest, (compare left.source.ext right.source.ext).then rest =
      compare left.source.ext right.source.ext := by
      intro rest
      cases order : compare left.source.ext right.source.ext with
      | eq => exact absurd (LawfulEqOrd.eq_of_compare order) same
      | lt => rfl
      | gt => rfl
    simp only [ne_eq, same, not_false_eq_true, if_true, differ, Ordering.then_assoc]

instance compareLocaleElements_trans (locale : Bytes) : TransCmp (compareLocaleElements locale) := by
  refine transCmp_then ?_ (inferInstanceAs (TransCmp (compare : Bytes → Bytes → Ordering)))
  by_cases unset : locale = []
  · simp only [if_pos unset]
    exact { eq_swap := rfl, isLE_trans := fun _ _ => rfl }
  · simp only [if_neg unset]
    exact firstIf_transCmp fun element => element = locale

instance compareLanguages_trans : TransCmp (compareLanguages ctx) := by
  refine transCmp_then ?_ (transCmp_then ?_ (transCmp_then ?_ ?_))
  · exact transCmp_map fun dir => (unpackLocaleBits dir).language
  · exact transCmp_map fun dir => (unpackLocaleBits dir).territory
  · exact transCmp_map fun dir => (unpackLocaleBits dir).modifier
  · exact firstIf_transCmp fun dir => ctx.isUtf8 (unpackLocaleBits dir)

theorem override_iff {dir long short : Bytes} :
    (long.take short.length = short ∧ long[short.length]? = some slash ∧ long.drop (short.length + 1) = dir) ↔
      long = short ++ slash :: dir := by
  constructor
  · rintro ⟨front, separator, rest⟩
    obtain ⟨within, atEnd⟩ := List.getElem?_eq_some_iff.mp separator
    calc long = long.take short.length ++ long.drop short.length := (List.take_append_drop ..).symm
      _ = short ++ long[short.length] :: long.drop
        (short.length + 1) := by rw [front, List.drop_eq_getElem_cons within]
      _ = short ++ slash :: dir := by rw [atEnd, rest]
  · rintro rfl
    simp

/-- A path is in the override directory of another, or the other in its own, or
neither. -/
theorem compareOverrideDir_eq (dir left right : Bytes) :
    compareOverrideDir dir left right =
      if dir ≠ [] ∧ left = right ++ slash :: dir then .lt
      else if dir ≠ [] ∧ right = left ++ slash :: dir then .gt
      else .eq := by
  have longer : ∀ {long short : Bytes}, long = short ++ slash :: dir → short.length < long.length := by
    rintro long short rfl
    simp
  unfold compareOverrideDir
  by_cases unset : dir = []
  · simp [unset]
  rw [if_neg unset]
  simp only [ne_eq, unset, not_false_eq_true, true_and]
  rcases Nat.lt_trichotomy right.length left.length with less | same | more
  · have notRight : right ≠ left ++ slash :: dir := fun other => by have := longer other; omega
    rw [Nat.min_eq_right less.le, List.take_length, if_neg notRight]
    simp only [less.ne', false_or, less, if_true, ← override_iff]
    split <;> split <;> simp_all
  · have notLeft : left ≠ right ++ slash :: dir := fun other => by have := longer other; omega
    have notRight : right ≠ left ++ slash :: dir := fun other => by have := longer other; omega
    simp [same, notLeft, notRight]
  · have notLeft : left ≠ right ++ slash :: dir := fun other => by have := longer other; omega
    rw [Nat.min_eq_left more.le, List.take_length, if_neg notLeft]
    have turned : left = right.take left.length ↔ right.take left.length = left := eq_comm
    simp only [more.ne, false_or, Nat.not_lt.mpr more.le, if_false, ← override_iff, turned]
    clear turned
    split <;> split <;> simp_all

theorem compareOverrideDir_lt {dir left right : Bytes} :
    compareOverrideDir dir left right = .lt ↔ dir ≠ [] ∧ left = right ++ slash :: dir := by
  rw [compareOverrideDir_eq]
  split
  · simp_all
  · split <;> simp_all

theorem compareOverrideDir_swap (dir left right : Bytes) :
    compareOverrideDir dir left right = (compareOverrideDir dir right left).swap := by
  rw [compareOverrideDir_eq, compareOverrideDir_eq]
  by_cases first : dir ≠ [] ∧ left = right ++ slash :: dir
  · have second : ¬(dir ≠ [] ∧ right = left ++ slash :: dir) := by
      rintro ⟨_, other⟩
      have lengths := congrArg List.length other
      rw [first.2] at lengths
      simp only [List.length_append, List.length_cons] at lengths
      omega
    rw [if_pos first, if_neg second, if_pos first]
    rfl
  · rw [if_neg first]
    by_cases second : dir ≠ [] ∧ right = left ++ slash :: dir
    · rw [if_pos second, if_pos second]
      rfl
    · rw [if_neg second, if_neg second, if_neg first]
      rfl

theorem compareLocales_swap (left right : Bytes) :
    compareLocales ctx left right = (compareLocales ctx right left).swap := by
  unfold compareLocales
  cases (Separated.cutLast slash left).2 with
  | none => cases (Separated.cutLast slash right).2 <;> rfl
  | some dir =>
    cases (Separated.cutLast slash right).2 with
    | none => rfl
    | some other =>
      have swap : compareLanguages ctx dir other = (compareLanguages ctx other dir).swap := OrientedCmp.eq_swap
      exact swap

theorem tieBreak_swap (left right : Candidate) : tieBreak ctx left right = (tieBreak ctx right left).swap := by
  unfold tieBreak
  rw [Ordering.swap_then, Ordering.swap_then, ← compareOverrideDir_swap, ← compareLocales_swap,
    ← OrientedOrd.eq_swap]

/-- The comparison of two candidates the other way round. -/
theorem compareCandidates_swap (left right : Candidate) :
    compareCandidates ctx left right = (compareCandidates ctx right left).swap := by
  have tail : tailCompare ctx left right = (tailCompare ctx right left).swap := by
    unfold tailCompare
    by_cases same : left.source.ext = right.source.ext
    · simp only [same, ne_eq, not_true_eq_false, if_false]
      exact tieBreak_swap left right
    · have swap : sectionOrder left right = (sectionOrder right left).swap := OrientedCmp.eq_swap
      rw [if_pos same, if_pos (Ne.symm same), swap]
  have head : headCompare ctx left right = (headCompare ctx right left).swap := OrientedCmp.eq_swap
  rw [compareCandidates_eq, compareCandidates_eq, Ordering.swap_then, ← head, ← tail]

/-- The first criteria do not tell the three apart. -/
def SameHead (ctx : SortContext) (a b c : Candidate) : Prop :=
  headCompare ctx a b = .eq ∧ headCompare ctx b c = .eq ∧ headCompare ctx c a = .eq

/-- `c` sorts between `a` and `b` by its section. These have one extension, so that
their sections are not compared, and other criteria put `b` first. -/
structure SectionTangle (ctx : SortContext) (a b c : Candidate) : Prop where
  head : SameHead ctx a b c
  same : a.source.ext = b.source.ext
  other : b.source.ext ≠ c.source.ext
  after : sectionOrder a c = .lt
  before : sectionOrder c b = .lt
  back : tieBreak ctx b a = .lt

/-- `a` is in the override directory of `b`, and otherwise `c` sorts after `b` and
before `a`. -/
structure OverrideTangle (ctx : SortContext) (a b c : Candidate) : Prop where
  head : SameHead ctx a b c
  ext : a.source.ext = b.source.ext ∧ b.source.ext = c.source.ext
  override : ctx.overrideDir ≠ [] ∧ a.path = b.path ++ slash :: ctx.overrideDir
  after : tieBreak ctx b c = .lt
  before : tieBreak ctx c a = .lt

/-- The path of `c` has no slash, so that only the order of discovery puts it between
`a` and `b`, which are in the wrong order for their languages. -/
structure PathTangle (ctx : SortContext) (a b c : Candidate) : Prop where
  head : SameHead ctx a b c
  ext : a.source.ext = b.source.ext ∧ b.source.ext = c.source.ext
  apart : compareOverrideDir ctx.overrideDir a.path c.path = .eq ∧
    compareOverrideDir ctx.overrideDir c.path b.path = .eq ∧ compareOverrideDir ctx.overrideDir b.path a.path = .eq
  plain : slash ∉ c.path
  after : a.addIndex < c.addIndex
  before : c.addIndex < b.addIndex
  back : compareLocales ctx b.path a.path = .lt

/-- The comparison goes round in a circle. -/
def Tangled (ctx : SortContext) (a b c : Candidate) : Prop :=
  SectionTangle ctx a b c ∨ OverrideTangle ctx a b c ∨ PathTangle ctx a b c

theorem SameHead.rotate (head : SameHead ctx a b c) : SameHead ctx b c a := ⟨head.2.1, head.2.2, head.1⟩

theorem SameHead.swap (head : SameHead ctx a b c) : SameHead ctx b a c := by
  have turn : ∀ {x y : Candidate}, headCompare ctx x y = .eq → headCompare ctx y x = .eq := OrientedCmp.eq_symm
  exact ⟨turn head.1, turn head.2.2, turn head.2.1⟩

theorem compareLocales_plain {left right : Bytes} (plain : slash ∉ left ∨ slash ∉ right) :
    compareLocales ctx left right = .eq := by
  unfold compareLocales
  rcases plain with none | none
  · rw [Separated.cutLast_none_iff.mpr none]
  · rw [Separated.cutLast_none_iff.mpr none]
    cases (Separated.cutLast slash left).2 <;> rfl

/-- Where languages are compared for all three there is no circle. -/
theorem not_cycle_languages (isA : slash ∈ a.path) (isB : slash ∈ b.path) (isC : slash ∈ c.path) :
    ¬Cascade.Cycle (fun x y : Candidate => (compareLocales ctx x.path y.path).then
      (compare x.addIndex y.addIndex)) a b c := by
  have dir : ∀ {x : Candidate}, slash ∈ x.path → ∃ d, (Separated.cutLast slash x.path).2 = some d := by
    intro x inPath
    refine Option.ne_none_iff_exists'.mp fun none => ?_
    exact Separated.cutLast_none_iff.mp none inPath
  obtain ⟨dirA, atA⟩ := dir isA
  obtain ⟨dirB, atB⟩ := dir isB
  obtain ⟨dirC, atC⟩ := dir isC
  have trans : TransCmp fun x y : Bytes × Nat => (compareLanguages ctx x.1 y.1).then (compare x.2 y.2) :=
    transCmp_then (transCmp_map Prod.fst) (transCmp_map Prod.snd)
  have none := @not_cycle _ _ (dirA, a.addIndex) (dirB, b.addIndex) (dirC, c.addIndex) trans
  simpa only [Cascade.Cycle, compareLocales, atA, atB, atC] using none

/-- With a path without a slash there is one only through the languages of the
others. -/
theorem pathTangle_of_plain (head : SameHead ctx a b c)
    (ext : a.source.ext = b.source.ext ∧ b.source.ext = c.source.ext)
    (apart : compareOverrideDir ctx.overrideDir a.path b.path = .eq ∧
      compareOverrideDir ctx.overrideDir b.path c.path = .eq ∧ compareOverrideDir ctx.overrideDir c.path a.path = .eq)
    (cycle : Cascade.Cycle (fun x y : Candidate => (compareLocales ctx x.path y.path).then
      (compare x.addIndex y.addIndex)) a b c)
    (plain : slash ∉ c.path) : PathTangle ctx b a c := by
  obtain ⟨ab, bc, ca⟩ := cycle
  simp only [compareLocales_plain (Or.inr plain), compareLocales_plain (Or.inl plain), Ordering.eq_then,
    Nat.compare_eq_lt] at bc ca
  simp only [Ordering.then_eq_lt, Nat.compare_eq_lt] at ab
  refine ⟨head.swap, ⟨ext.1.symm, ext.1.trans ext.2⟩, ⟨apart.2.1, apart.2.2, apart.1⟩, plain, bc, ca, ?_⟩
  exact ab.resolve_right fun tie => by have := tie.2; omega

section Circles

variable {xs : List Candidate} (inA : a ∈ xs) (inB : b ∈ xs) (inC : c ∈ xs)
include inA inB inC

theorem tangled_of_tie (head : SameHead ctx a b c) (ext : a.source.ext = b.source.ext ∧ b.source.ext = c.source.ext)
    (cycle : Cascade.Cycle (tieBreak ctx) a b c) : ∃ x ∈ xs, ∃ y ∈ xs, ∃ z ∈ xs, Tangled ctx x y z := by
  have extA : b.source.ext = c.source.ext ∧ c.source.ext = a.source.ext := ⟨ext.2, (ext.1.trans ext.2).symm⟩
  have extB : c.source.ext = a.source.ext ∧ a.source.ext = b.source.ext := ⟨extA.2, ext.1⟩
  obtain ⟨ab, bc, ca⟩ := cycle
  rcases Ordering.then_eq_lt.mp ab with override | ⟨apartAb, restAb⟩
  · exact ⟨a, inA, b, inB, c, inC, Or.inr (Or.inl ⟨head, ext, compareOverrideDir_lt.mp override, bc, ca⟩)⟩
  rcases Ordering.then_eq_lt.mp bc with override | ⟨apartBc, restBc⟩
  · exact ⟨b, inB, c, inC, a, inA, Or.inr (Or.inl ⟨head.rotate, extA, compareOverrideDir_lt.mp override, ca, ab⟩)⟩
  rcases Ordering.then_eq_lt.mp ca with override | ⟨apartCa, restCa⟩
  · exact ⟨c, inC, a, inA, b, inB,
      Or.inr (Or.inl ⟨head.rotate.rotate, extB, compareOverrideDir_lt.mp override, ab, bc⟩)⟩
  have cycle : Cascade.Cycle (fun x y : Candidate => (compareLocales ctx x.path y.path).then
    (compare x.addIndex y.addIndex)) a b c :=
    ⟨restAb, restBc, restCa⟩
  by_cases isC : slash ∈ c.path
  · by_cases isB : slash ∈ b.path
    · by_cases isA : slash ∈ a.path
      · exact absurd cycle (not_cycle_languages isA isB isC)
      · exact ⟨c, inC, b, inB, a, inA, Or.inr (Or.inr
          (pathTangle_of_plain head.rotate extA ⟨apartBc, apartCa, apartAb⟩ cycle.rotate isA))⟩
    · exact ⟨a, inA, c, inC, b, inB, Or.inr (Or.inr
        (pathTangle_of_plain head.rotate.rotate extB ⟨apartCa, apartAb, apartBc⟩ cycle.rotate.rotate isB))⟩
  · exact ⟨b, inB, a, inA, c, inC, Or.inr (Or.inr
      (pathTangle_of_plain head ext ⟨apartAb, apartBc, apartCa⟩ cycle isC))⟩

/-- Two of the three have one extension. -/
theorem tangled_of_pair (head : SameHead ctx a b c) (same : a.source.ext = b.source.ext)
    (cycle : Cascade.Cycle (tailCompare ctx) a b c) : ∃ x ∈ xs, ∃ y ∈ xs, ∃ z ∈ xs, Tangled ctx x y z := by
  by_cases other : b.source.ext = c.source.ext
  · refine tangled_of_tie inA inB inC head ⟨same, other⟩ ?_
    simpa [Cascade.Cycle, tailCompare, same, other] using cycle
  · obtain ⟨ab, bc, ca⟩ := cycle
    have otherA : c.source.ext ≠ a.source.ext := fun back => other (back.trans same).symm
    rw [tailCompare, if_neg (not_not.mpr same)] at ab
    rw [tailCompare, if_pos other] at bc
    rw [tailCompare, if_pos otherA] at ca
    exact ⟨b, inB, a, inA, c, inC, Or.inl ⟨head.swap, same.symm, otherA.symm, bc, ca, ab⟩⟩

theorem tangled_of_cycle (cycle : Cascade.Cycle (compareCandidates ctx) a b c) :
    ∃ x ∈ xs, ∃ y ∈ xs, ∃ z ∈ xs, Tangled ctx x y z := by
  have split : compareCandidates ctx = fun x y => (headCompare ctx x y).then (tailCompare ctx x y) := by
    funext x y
    exact compareCandidates_eq x y
  rw [split, cycle_then] at cycle
  obtain ⟨head, cycle⟩ := cycle
  change SameHead ctx a b c at head
  by_cases ab : a.source.ext = b.source.ext
  · exact tangled_of_pair inA inB inC head ab cycle
  by_cases bc : b.source.ext = c.source.ext
  · exact tangled_of_pair inB inC inA head.rotate bc cycle.rotate
  by_cases ca : c.source.ext = a.source.ext
  · exact tangled_of_pair inC inA inB head.rotate.rotate ca cycle.rotate.rotate
  · -- all extensions differ, and sections alone go round in no circle
    simp only [Cascade.Cycle, tailCompare, ne_eq, ab, bc, ca, not_false_eq_true, if_true] at cycle
    exact absurd cycle not_cycle

end Circles

theorem Tangled.cycle (tangled : Tangled ctx a b c) :
    Cascade.Cycle (compareCandidates ctx) a b c ∨ Cascade.Cycle (compareCandidates ctx) a c b := by
  have turn : ∀ {x y : Candidate}, headCompare ctx x y = .eq → headCompare ctx y x = .eq := OrientedCmp.eq_symm
  have tail : ∀ {x y : Candidate}, headCompare ctx x y = .eq → tailCompare ctx x y = .lt →
      compareCandidates ctx x y = .lt := by
    intro x y head less
    rw [compareCandidates_eq, head, less]
    rfl
  have tie : ∀ {x y : Candidate}, x.source.ext = y.source.ext → tieBreak ctx x y = .lt →
    tailCompare ctx x y = .lt := by
    intro x y same less
    rw [tailCompare, if_neg (not_not.mpr same), less]
  rcases tangled with t | t | t
  · refine Or.inr ⟨tail (turn t.head.2.2) ?_, tail (turn t.head.2.1) ?_,
      tail (turn t.head.1) (tie t.same.symm t.back)⟩
    · rw [tailCompare, if_pos (t.same ▸ t.other), t.after]
    · rw [tailCompare, if_pos (Ne.symm t.other), t.before]
  · refine Or.inl ⟨tail t.head.1 (tie t.ext.1 ?_), tail t.head.2.1 (tie t.ext.2 t.after),
      tail t.head.2.2 (tie (t.ext.1.trans t.ext.2).symm t.before)⟩
    rw [tieBreak, compareOverrideDir_lt.mpr t.override]
    rfl
  · refine Or.inr ⟨tail (turn t.head.2.2) (tie (t.ext.1.trans t.ext.2) ?_),
      tail (turn t.head.2.1) (tie t.ext.2.symm ?_),
      tail (turn t.head.1) (tie t.ext.1.symm ?_)⟩
    · rw [tieBreak, t.apart.1, compareLocales_plain (Or.inr t.plain), Nat.compare_eq_lt.mpr t.after]
      rfl
    · rw [tieBreak, t.apart.2.1, compareLocales_plain (Or.inl t.plain), Nat.compare_eq_lt.mpr t.before]
      rfl
    · rw [tieBreak, t.apart.2.2, t.back]
      rfl

/-- ISO C on `qsort`: with a comparison that orders the elements, the result has them
all, in order. -/
def DocumentedQsort (qsort : (Candidate → Candidate → Ordering) → List Candidate → List Candidate) : Prop :=
  ∀ cmp xs, SortedList.Consistent cmp xs → (qsort cmp xs).Perm xs ∧ SortedList.Sorted cmp (qsort cmp xs)

/-- The comparison is a strict total order on the candidates, and there is one way to
sort them. -/
structure OrdersStrictly (ctx : SortContext) (xs : List Candidate) : Prop where
  swap : ∀ a ∈ xs, ∀ b ∈ xs, compareCandidates ctx a b = .lt ↔ compareCandidates ctx b a = .gt
  zero : ∀ a ∈ xs, ∀ b ∈ xs, compareCandidates ctx a b = .eq → a = b
  trans : ∀ a ∈ xs, ∀ b ∈ xs, ∀ c ∈ xs, compareCandidates ctx a b = .lt → compareCandidates ctx b c = .lt →
    compareCandidates ctx a c = .lt
  sorts : ∀ qsort, DocumentedQsort qsort → (sortCandidates ctx qsort xs).Perm xs ∧
    (sortCandidates ctx qsort xs).Pairwise fun a b => compareCandidates ctx a b = .lt
  unique : ∀ qsort qsort', DocumentedQsort qsort → DocumentedQsort qsort' →
    sortCandidates ctx qsort xs = sortCandidates ctx qsort' xs

theorem compareCandidates_zero {xs : List Candidate} (distinct : (xs.map Candidate.addIndex).Nodup) (inA : a ∈ xs)
    (inB : b ∈ xs) (equal : compareCandidates ctx a b = .eq) : a = b := by
  simp only [compareCandidates, Ordering.then_eq_eq] at equal
  exact List.inj_on_of_nodup_map distinct inA inB (LawfulEqOrd.eq_of_compare equal.2.2.2.2.2.2)

/-- What a total order gives `qsort`. -/
theorem sortCandidates_sorted {xs : List Candidate} (distinct : (xs.map Candidate.addIndex).Nodup)
    (trans : ∀ a ∈ xs, ∀ b ∈ xs, ∀ c ∈ xs, compareCandidates ctx a b = .lt → compareCandidates ctx b c = .lt →
      compareCandidates ctx a c = .lt)
    {qsort : (Candidate → Candidate → Ordering) → List Candidate → List Candidate}
    (documented : DocumentedQsort qsort) :
    (sortCandidates ctx qsort xs).Perm xs ∧
      (sortCandidates ctx qsort xs).Pairwise fun a b => compareCandidates ctx a b = .lt := by
  have less : ∀ {a b : Candidate}, a ∈ xs → b ∈ xs → (compareCandidates ctx a b).isLE →
      a = b ∨ compareCandidates ctx a b = .lt := by
    intro a b inA inB le
    cases order : compareCandidates ctx a b with
    | lt => exact Or.inr rfl
    | eq => exact Or.inl (compareCandidates_zero distinct inA inB order)
    | gt => simp [order] at le
  have consistent : SortedList.Consistent (compareCandidates ctx) xs := by
    refine ⟨fun a _ b _ => compareCandidates_swap a b, fun a inA b inB c inC ab bc => ?_⟩
    rcases less inA inB ab with rfl | first
    · exact bc
    rcases less inB inC bc with rfl | second
    · exact ab
    rw [trans a inA b inB c inC first second]
    rfl
  by_cases empty : xs = []
  · simp [sortCandidates, empty]
  obtain ⟨perm, sorted⟩ := documented _ _ consistent
  rw [sortCandidates, if_neg empty]
  refine ⟨perm, ?_⟩
  have nodup : (qsort (compareCandidates ctx) xs).Nodup := perm.nodup_iff.mpr distinct.of_map
  refine (sorted.and nodup).imp_of_mem fun inA inB both => ?_
  exact (less (perm.subset inA) (perm.subset inB) both.1).resolve_left both.2

/-- With pairwise distinct indexes, the comparison is a strict total order on a list
of candidates exactly if no three of them are tangled. -/
theorem compareCandidates_strict_iff {xs : List Candidate} (distinct : (xs.map Candidate.addIndex).Nodup) :
    OrdersStrictly ctx xs ↔ ¬∃ a ∈ xs, ∃ b ∈ xs, ∃ c ∈ xs, Tangled ctx a b c := by
  have zero : ∀ a ∈ xs, ∀ b ∈ xs, compareCandidates ctx a b = .eq → a = b :=
    fun a inA b inB equal => compareCandidates_zero distinct inA inB equal
  constructor
  · rintro strict ⟨a, inA, b, inB, c, inC, tangled⟩
    refine (trans_iff_no_cycle compareCandidates_swap zero).mp strict.trans ?_
    rcases tangled.cycle with cycle | cycle
    · exact ⟨a, inA, b, inB, c, inC, cycle⟩
    · exact ⟨a, inA, c, inC, b, inB, cycle⟩
  · intro untangled
    have trans := (trans_iff_no_cycle compareCandidates_swap zero).mpr fun ⟨a, inA, b, inB, c, inC, cycle⟩ =>
      untangled (tangled_of_cycle inA inB inC cycle)
    refine ⟨fun a _ b _ => ?_, zero, trans, fun qsort documented =>
      sortCandidates_sorted distinct trans documented, ?_⟩
    · rw [compareCandidates_swap a b, Ordering.swap_eq_lt]
    · intro qsort qsort' documented documented'
      obtain ⟨perm, sorted⟩ := sortCandidates_sorted distinct trans documented
      obtain ⟨perm', sorted'⟩ := sortCandidates_sorted distinct trans documented'
      refine (perm.trans perm'.symm).eq_of_pairwise (fun a b _ _ ab ba => ?_) sorted sorted'
      rw [compareCandidates_swap, ba] at ab
      cases ab

/-- A page in a section directory, of the hierarchy /man. -/
def samplePageIn (sec ext : String) (addIndex : Nat) : Candidate where
  reqName := ascii "foo"
  fromDb := false
  cat := false
  path := ascii "/man"
  ult := none
  source :=
    { name := some (ascii "foo"), ext := ascii ext, sec := ascii sec, id := ultMan, pointer := none, comp := none
      filter := none, whatis := none, mtime := ⟨0, 0⟩ }
  addIndex := addIndex

def sampleContext : SortContext := ⟨[ascii "1", ascii "8", ascii "3"], none, ascii "C", [], id⟩

theorem compareCandidates_strict_iff_pages :
    OrdersStrictly sampleContext [samplePageIn "3" "3ssl" 0, samplePageIn "1" "1" 1, samplePageIn "3s" "3s" 2] := by
  refine (compareCandidates_strict_iff (by decide)).mpr ?_
  rintro ⟨a, inA, b, inB, c, inC, tangled⟩
  have none : ∀ a ∈ [samplePageIn "3" "3ssl" 0, samplePageIn "1" "1" 1, samplePageIn "3s" "3s" 2],
      ∀ b ∈ [samplePageIn "3" "3ssl" 0, samplePageIn "1" "1" 1, samplePageIn "3s" "3s" 2],
      ∀ c ∈ [samplePageIn "3" "3ssl" 0, samplePageIn "1" "1" 1, samplePageIn "3s" "3s" 2],
      ¬(compareCandidates sampleContext a b = .lt ∧ compareCandidates sampleContext b c = .lt ∧
        compareCandidates sampleContext c a = .lt) := by
    decide +kernel
  rcases tangled.cycle with cycle | cycle
  · exact none a inA b inB c inC cycle
  · exact none a inA c inC b inB cycle

/-- man3/foo.3ssl, man3s/foo.3s and man3ssl/foo.3ssl, of which the last was found
first. -/
theorem compareCandidates_circle :
    ([samplePageIn "3ssl" "3ssl" 0, samplePageIn "3s" "3s" 1,
      samplePageIn "3" "3ssl" 2].map Candidate.addIndex).Nodup ∧
      ¬OrdersStrictly sampleContext
        [samplePageIn "3ssl" "3ssl" 0, samplePageIn "3s" "3s" 1, samplePageIn "3" "3ssl" 2] := by
  refine ⟨by decide, fun strict => ?_⟩
  have back := strict.trans (samplePageIn "3" "3ssl" 2) (by simp) (samplePageIn "3s" "3s" 1) (by simp)
    (samplePageIn "3ssl" "3ssl" 0) (by simp) (by decide +kernel) (by decide +kernel)
  exact absurd back (by decide +kernel)

end ManDb
