import ManDb.Manconv.Buffers
import ManDb.Manconv.Lossless

namespace ManDb

variable {σ : Type} {ic : Iconv σ} {s : TryState σ} {max : Nat} {last ignoreErrors : Bool} {out mid out' : Bytes}

/-- There is space for the output to grow from one to the other, or it does not grow. -/
def Roomy (max : Nat) (out out' : Bytes) : Prop := out'.length < max ∨ out' = out

instance (max : Nat) (out out' : Bytes) : Decidable (Roomy max out out') := inferInstanceAs (Decidable (_ ∨ _))

theorem roomy_refl : Roomy max out out := Or.inr rfl

/-- Growth in two steps. -/
theorem roomy_trans (first : out <+: mid) (second : mid <+: out') :
    Roomy max out out' ↔ Roomy max out mid ∧ Roomy max mid out' := by
  have shorter := first.length_le
  have longer := second.length_le
  constructor
  · rintro (less | rfl)
    · exact ⟨Or.inl (by omega), Or.inl less⟩
    · have same := first.eq_of_length (by omega)
      exact ⟨Or.inr same.symm, Or.inr same⟩
  · rintro ⟨roomy, less | rfl⟩
    · exact Or.inl less
    · exact roomy

theorem addSome_space (text : Bytes) : addSome ⟨last, ignoreErrors, some max⟩ out text =
    if Roomy max out (out ++ text) then some (out ++ text) else none := by
  by_cases empty : text = []
  · subst empty
    rw [List.append_nil, if_pos roomy_refl]
    rfl
  · unfold addSome addOutput
    rw [if_neg empty]
    by_cases full : out.length + text.length ≥ max
    · have not : ¬Roomy max out (out ++ text) := by
        rintro (less | same)
        · rw [List.length_append] at less
          omega
        · exact empty (List.append_right_eq_self.mp same)
      simp only [if_pos full]
      rw [if_neg not]
    · have room : Roomy max out (out ++ text) := Or.inl (by rw [List.length_append]; omega)
      simp only [if_neg full]
      rw [if_pos room]

theorem addSome_unbounded (text : Bytes) : addSome ⟨last, ignoreErrors, none⟩ out text = some (out ++ text) := by
  rcases addSome_eq ⟨last, ignoreErrors, none⟩ out text with ⟨_, space⟩ | added
  · exact absurd rfl space
  · exact added

/-- The output stage with and without a bound on the space. -/
theorem outputStage_space (ic : Iconv σ) (s : TryState σ) (max : Nat) (last ignoreErrors : Bool)
    (errno : Option Errno) :
    ∃ t e, outputStage ic ⟨last, ignoreErrors, none⟩ s errno = some (t, e) ∧ s.out <+: t.out ∧
      outputStage ic ⟨last, ignoreErrors, some max⟩ s errno = if Roomy max s.out t.out then some
        (t, e) else none := by
  unfold outputStage
  cases errno with
  | some errno => exact ⟨s, some errno, rfl, List.prefix_rfl, (if_pos roomy_refl).symm⟩
  | none =>
    cases s.cd with
    | none =>
      simp only [addSome_unbounded, addSome_space]
      refine ⟨_, _, rfl, List.prefix_append _ _, ?_⟩
      split <;> simp_all
    | some cd =>
      simp only
      by_cases noText : s.utf8left = 0
      · rw [if_pos noText, if_pos noText]
        exact ⟨s, none, rfl, List.prefix_rfl, (if_pos roomy_refl).symm⟩
      · rw [if_neg noText, if_neg noText]
        simp only [addSome_unbounded, addSome_space]
        cases (ic.iconv cd s.pending bufSize).errno with
        | some errno =>
          refine ⟨_, _, rfl, List.prefix_append _ _, ?_⟩
          split <;> simp_all
        | none =>
          refine ⟨_, _, rfl, (List.prefix_append _ _).trans (List.prefix_append _ _), ?_⟩
          simp only [roomy_trans (List.prefix_append s.out (ic.iconv cd s.pending bufSize).out)
            (List.prefix_append _ _)]
          by_cases first : Roomy max s.out (s.out ++ (ic.iconv cd s.pending bufSize).out)
          · rw [if_pos first, Option.bind_eq_bind, Option.bind_some]
            by_cases second : Roomy max (s.out ++ (ic.iconv cd s.pending bufSize).out)
                (s.out ++ (ic.iconv cd s.pending bufSize).out ++ (ic.flush
                  (ic.iconv cd s.pending bufSize).next bufSize).1)
            · rw [if_pos second, if_pos ⟨first, second⟩]
              rfl
            · rw [if_neg second, if_neg (fun both => second both.2)]
              rfl
          · rw [if_neg first, if_neg (fun both => first both.1)]
            rfl

/-- The output after a turn. -/
def turnOut : (Tried × Decompress × Bytes) ⊕ TryState σ → Bytes
  | .inl result => result.2.2
  | .inr s => s.out

/-- What a bound on the space changes of a turn: nothing if there is space for what
the turn writes, and otherwise it is the last one. -/
structure Bounded (max : Nat) (out : Bytes) (unbounded bounded : (Tried × Decompress × Bytes) ⊕ TryState σ) :
    Prop where
  grows : out <+: turnOut unbounded
  same : Roomy max out (turnOut unbounded) → bounded = unbounded
  full : ¬Roomy max out (turnOut unbounded) → ∃ d out', bounded = .inl (.outOfSpace, d, out')

theorem Bounded.refl (turn : (Tried × Decompress × Bytes) ⊕ TryState σ) (grows : turnOut turn = out) :
    Bounded max out turn turn :=
  ⟨grows ▸ List.prefix_rfl, fun _ => rfl, fun full => absurd (Or.inr grows) full⟩

theorem finishTurn_space (ic : Iconv σ) (s : TryState σ) (max used : Nat) (last ignoreErrors : Bool)
    (errno : Option Errno) : Bounded max s.out (finishTurn ic ⟨last, ignoreErrors, none⟩ s used errno)
      (finishTurn ic ⟨last, ignoreErrors, some max⟩ s used errno) := by
  obtain ⟨t, e, unbounded, grows, bounded⟩ := outputStage_space ic s max last ignoreErrors errno
  have after : turnOut (finishTurn ic ⟨last, ignoreErrors, none⟩ s used errno) = t.out := by
    rw [finishTurn, unbounded]
    simp only
    split
    · rfl
    · exact (fetchNext_fields t used).2.2.2
  refine ⟨by rw [after]; exact grows, fun roomy => ?_, fun full => ?_⟩
  · rw [after] at roomy
    rw [finishTurn, finishTurn, bounded, unbounded, if_pos roomy]
  · rw [after] at full
    refine ⟨s.decomp, s.out, ?_⟩
    rw [finishTurn, bounded, if_neg full]

theorem toUtf8Stage_out {flags : TryFlags} {t : TryState σ} {used : Nat} {errno : Option Errno}
    (stage : toUtf8Stage ic flags s = some (t, used, errno)) : t.out = s.out := by
  unfold toUtf8Stage at stage
  split at stage
  · cases stage
    rfl
  · simp only at stage
    split at stage
    · cases stage
    · cases stage
      rfl

theorem tryTurn_space (ic : Iconv σ) (s : TryState σ) (max : Nat) (last ignoreErrors : Bool) :
    Bounded max s.out (tryTurn ic ⟨last, ignoreErrors, none⟩ s) (tryTurn ic ⟨last, ignoreErrors, some max⟩ s) := by
  have same : toUtf8Stage ic ⟨last, ignoreErrors, some max⟩ s = toUtf8Stage ic ⟨last, ignoreErrors, none⟩ s := rfl
  unfold tryTurn
  by_cases done : s.input = [] ∧ s.utf8left = 0
  · rw [if_pos done, if_pos done]
    exact .refl _ rfl
  · rw [if_neg done, if_neg done, same]
    cases stage : toUtf8Stage ic ⟨last, ignoreErrors, none⟩ s with
    | none => exact .refl _ rfl
    | some result =>
      obtain ⟨t, used, errno⟩ := result
      rw [← toUtf8Stage_out stage]
      exact finishTurn_space ic t max used last ignoreErrors errno

/-- A whole trial with and without a bound on the space. -/
theorem tryLoop_space {turns : Nat} {tried : Tried} {d : Decompress}
    (run : tryLoop ic ⟨last, ignoreErrors, none⟩ turns s = some (tried, d, out')) :
    s.out <+: out' ∧
    (Roomy max s.out out' → tryLoop ic ⟨last, ignoreErrors, some max⟩ turns s = some (tried, d, out')) ∧
    (¬Roomy max s.out out' → ∃ d₁ out₁, tryLoop ic ⟨last, ignoreErrors, some max⟩ turns s = some
      (.outOfSpace, d₁, out₁)) := by
  induction turns generalizing s with
  | zero => cases run
  | succ turns ih =>
    have bounded := tryTurn_space ic s max last ignoreErrors
    cases turn : tryTurn ic ⟨last, ignoreErrors, none⟩ s with
    | inl result =>
      rw [tryLoop, Loop.run_ends turn, Option.some.injEq] at run
      subst run
      rw [turn] at bounded
      refine ⟨bounded.grows, fun roomy => Loop.run_ends (bounded.same roomy) turns, fun full => ?_⟩
      obtain ⟨d₁, out₁, ends⟩ := bounded.full full
      exact ⟨d₁, out₁, Loop.run_ends ends turns⟩
    | inr t =>
      rw [tryLoop, Loop.run_turn turn] at run
      rw [turn] at bounded
      obtain ⟨grows, same, full⟩ := ih run
      refine ⟨bounded.grows.trans grows, fun roomy => ?_, fun notRoomy => ?_⟩
      · obtain ⟨first, second⟩ := (roomy_trans bounded.grows grows).mp roomy
        rw [tryLoop, Loop.run_turn (bounded.same first)]
        exact same second
      · by_cases first : Roomy max s.out t.out
        · obtain ⟨d₁, out₁, rest⟩ := full
            (fun second => notRoomy ((roomy_trans bounded.grows grows).mpr ⟨first, second⟩))
          refine ⟨d₁, out₁, ?_⟩
          rw [tryLoop, Loop.run_turn (bounded.same first)]
          exact rest
        · obtain ⟨d₁, out₁, ends⟩ := bounded.full first
          exact ⟨d₁, out₁, Loop.run_ends ends turns⟩

theorem tryIconv_space {turns : Nat} {tried : Tried} {d d' : Decompress} {code target : Bytes}
    (run : tryIconv ic turns d code target last none out = some (tried, d', out')) :
    out <+: out' ∧
    (Roomy max out out' → tryIconv ic turns d code target last (some max) out = some (tried, d', out')) ∧
    (¬Roomy max out out' → ∃ d₁ out₁, tryIconv ic turns d code target last (some max) out = some
      (.outOfSpace, d₁, out₁)) := by
  unfold tryIconv at run ⊢
  cases opens : openBoth ic code target last with
  | none =>
    rw [opens] at run
    cases run
    exact ⟨List.prefix_rfl, fun _ => rfl, fun full => absurd roomy_refl full⟩
  | some cds =>
    rw [opens] at run
    exact tryLoop_space run

/-- All the output after the trials of some encodings. -/
def totalOut (out : Bytes) (parts : List (Bytes × Bytes)) : Bytes := out ++ parts.flatMap Prod.snd

/-- The trials of an encoding list with and without a bound on the space. -/
theorem tryAll_space {turns : Nat} {target : Bytes} {codes : List Bytes} {d d' : Decompress} {ret : ManconvRet}
    {parts : List (Bytes × Bytes)} (run : tryAll ic turns target none codes d out = some (ret, d', parts)) :
    (Roomy max out (totalOut out parts) → tryAll ic turns target (some max) codes d out = some (ret, d', parts)) ∧
    (¬Roomy max out (totalOut out parts) → ∃ d₁ parts₁,
      tryAll ic turns target (some max) codes d out = some (.outOfSpace, d₁, parts₁)) := by
  induction codes generalizing d out parts with
  | nil =>
    cases run
    exact ⟨fun _ => rfl, fun full => absurd (Or.inr (List.append_nil _)) full⟩
  | cons code codes ih =>
    obtain ⟨tried, d₁, out₁, trial, goesOn⟩ := tryAll_cons run
    obtain ⟨grows, same, full⟩ := @tryIconv_space _ _ max _ _ _ _ _ _ _ _ _ trial
    have part : out ++ out₁.drop out.length = out₁ := by
      obtain ⟨more, rfl⟩ := grows
      rw [List.drop_left]
    have ends : ∀ d₁ out₁, tryIconv ic turns d code target codes.isEmpty (some max) out = some
      (.outOfSpace, d₁, out₁) →
        ∃ d₁ parts₁, tryAll ic turns target (some max) (code :: codes) d out = some (.outOfSpace, d₁, parts₁) :=
      fun d₁ out₁ trial => ⟨d₁, _, tryAll_of_trial trial ⟨rfl, rfl, rfl⟩⟩
    cases tried with
    | error =>
      obtain ⟨parts', rest, rfl⟩ := goesOn
      obtain ⟨sameRest, fullRest⟩ := ih rest
      have total : totalOut out ((code, out₁.drop out.length) :: parts') = totalOut out₁ parts' := by
        rw [totalOut, List.flatMap_cons, ← List.append_assoc, part]
        rfl
      have later : Roomy max out (totalOut out₁ parts') ↔ Roomy max out out₁ ∧
        Roomy max out₁ (totalOut out₁ parts') :=
        roomy_trans grows (List.prefix_append _ _)
      rw [total, later]
      refine ⟨fun roomy => tryAll_of_trial (same roomy.1) ⟨parts', sameRest roomy.2, rfl⟩, fun notRoomy => ?_⟩
      by_cases first : Roomy max out out₁
      · obtain ⟨d₂, parts₂, rest⟩ := fullRest (fun second => notRoomy ⟨first, second⟩)
        exact ⟨d₂, _, tryAll_of_trial (same first) ⟨parts₂, rest, rfl⟩⟩
      · obtain ⟨d₂, out₂, trial⟩ := full first
        exact ends d₂ out₂ trial
    | _ =>
      have total : totalOut out parts = out₁ := by
        rw [goesOn.2.2, totalOut, List.flatMap_singleton, part]
      rw [total]
      refine ⟨fun roomy => tryAll_of_trial (same roomy) goesOn, fun notRoomy => ?_⟩
      obtain ⟨d₂, out₂, trial⟩ := full notRoomy
      exact ends d₂ out₂ trial

theorem modifiedPpLine_ne_nil {loc : Locale} {d : Decompress} {toEncoding ppEncoding line : Bytes}
    (tagged : checkPreprocessorEncoding loc d toEncoding = some (ppEncoding, some line)) : line ≠ [] := by
  unfold checkPreprocessorEncoding at tagged
  rw [Option.map_eq_some_iff] at tagged
  obtain ⟨⟨first, value⟩, _, same⟩ := tagged
  simp only [Prod.mk.injEq] at same
  obtain ⟨_, modified⟩ := same
  split at modified
  · cases modified
  · cases modified
    simp [retaggedLine]

variable {loc : Locale} {turns : Nat} {d : Decompress} {codes : List Bytes} {target : Bytes} {c : Converted}

theorem converted_space {line : Bytes} (run : ((tryAll ic turns target none codes d line).map
      fun (ret, d, parts) => (⟨ret, d, line, parts⟩ : Converted)) = some c) :
    (Roomy max line c.output → ((tryAll ic turns target (some max) codes d line).map
      fun (ret, d, parts) => (⟨ret, d, line, parts⟩ : Converted)) = some c) ∧
    (¬Roomy max line c.output → ∃ c', ((tryAll ic turns target (some max) codes d line).map
      fun (ret, d, parts) => (⟨ret, d, line, parts⟩ : Converted)) = some c' ∧ c'.ret = .outOfSpace) := by
  rw [Option.map_eq_some_iff] at run
  obtain ⟨⟨ret, d', parts⟩, trials, rfl⟩ := run
  obtain ⟨same, full⟩ := @tryAll_space _ _ max _ _ _ _ _ _ _ _ trials
  refine ⟨fun roomy => ?_, fun notRoomy => ?_⟩
  · rw [same roomy]
    rfl
  · obtain ⟨d₁, parts₁, trials'⟩ := full notRoomy
    rw [trials']
    exact ⟨_, rfl, rfl⟩

/-- `manconv` with and without a bound on the space. -/
theorem manconv_space (run : manconv loc ic turns d codes target none = some c) :
    (Roomy max [] c.output → manconv loc ic turns d codes target (some max) = some c) ∧
    (¬Roomy max [] c.output → ∃ c', manconv loc ic turns d codes target (some max) = some c' ∧
      c'.ret = .outOfSpace) := by
  unfold manconv at run ⊢
  cases tagged : checkPreprocessorEncoding loc d (target.takeWhile (· ≠ slash)) with
  | none =>
    rw [tagged] at run
    exact converted_space run
  | some tag =>
    obtain ⟨ppEncoding, modified⟩ := tag
    cases modified with
    | none =>
      simp only [tagged, tryTag_eq] at run ⊢
      exact converted_space run
    | some line =>
      have nonempty := modifiedPpLine_ne_nil tagged
      have added : ∀ space, addOutput ⟨true, false, space⟩ [] line = addSome ⟨true, false, space⟩ [] line :=
        fun space => (if_neg nonempty).symm
      simp only [tagged, tryTag_eq, added, addSome_unbounded, addSome_space, List.nil_append] at run ⊢
      have starts : line <+: c.output := by
        rw [Converted.output, (tryAll_of_converted run).1]
        exact List.prefix_append _ _
      rw [roomy_trans List.nil_prefix starts]
      obtain ⟨same, full⟩ := @converted_space _ _ max _ _ _ _ _ _ run
      by_cases first : Roomy max [] line
      · simp only [if_pos first]
        exact ⟨fun roomy => same roomy.2, fun notRoomy => full (fun second => notRoomy ⟨first, second⟩)⟩
      · simp only [if_neg first]
        exact ⟨fun roomy => absurd roomy.1 first, fun _ => ⟨_, rfl, rfl⟩⟩

end ManDb
