import ManDb.Manconv.Buffers
import ManDb.Manconv.Lossless

namespace ManDb

variable {σ : Type} {ic : Iconv σ} {flags : TryFlags} {s : TryState σ} {tag : DecompressTag}

/-- The same place of the same content with the other back end. -/
def Decompress.retag (tag : DecompressTag) (d : Decompress) : Decompress := { d with tag := tag }

def TryState.retag (tag : DecompressTag) (s : TryState σ) : TryState σ := { s with decomp := s.decomp.retag tag }

def retagTried (tag : DecompressTag) (result : Tried × Decompress × Bytes) : Tried × Decompress × Bytes :=
  (result.1, result.2.1.retag tag, result.2.2)

def Converted.retag (tag : DecompressTag) (c : Converted) : Converted := { c with decomp := c.decomp.retag tag }

theorem fetchNext_retag (s : TryState σ) (used : Nat) :
    fetchNext (s.retag tag) used = (fetchNext s used).retag tag := by
  unfold fetchNext
  split <;> rename_i noText
  · rw [if_pos (show s.utf8left = 0 from noText)]
    rfl
  · rw [if_neg (show ¬s.utf8left = 0 from noText)]
    rfl

theorem outputStage_retag (s : TryState σ) (errno : Option Errno) : outputStage ic flags (s.retag tag) errno =
    (outputStage ic flags s errno).map fun result => (result.1.retag tag, result.2) := by
  have pending : (s.retag tag).pending = s.pending := rfl
  unfold outputStage
  rw [pending, show (s.retag tag).cd = s.cd from rfl, show (s.retag tag).utf8left = s.utf8left from rfl,
    show (s.retag tag).out = s.out from rfl]
  cases errno with
  | some errno => rfl
  | none =>
    cases s.cd with
    | none =>
      simp only
      cases addSome flags s.out s.pending <;> rfl
    | some cd =>
      simp only
      split
      · rfl
      · cases addSome flags s.out (ic.iconv cd s.pending bufSize).out with
        | none => rfl
        | some out =>
          simp only [Option.bind_eq_bind, Option.bind_some]
          cases (ic.iconv cd s.pending bufSize).errno with
          | some errno => rfl
          | none =>
            simp only
            cases addSome flags out (ic.flush (ic.iconv cd s.pending bufSize).next bufSize).1 <;> rfl

theorem finishTurn_retag (s : TryState σ) (used : Nat) (errno : Option Errno) :
    finishTurn ic flags (s.retag tag) used errno =
      Sum.map (retagTried tag) (TryState.retag tag) (finishTurn ic flags s used errno) := by
  unfold finishTurn
  rw [outputStage_retag]
  cases outputStage ic flags s errno with
  | none => rfl
  | some result =>
    obtain ⟨t, errno⟩ := result
    simp only [Option.map_some, fetchNext_retag, show (t.retag tag).input = t.input from rfl]
    split <;> rfl

theorem toUtf8Stage_retag (s : TryState σ) : toUtf8Stage ic flags (s.retag tag) =
    (toUtf8Stage ic flags s).map fun result => (result.1.retag tag, result.2) := by
  unfold toUtf8Stage
  rw [show (s.retag tag).utf8left = s.utf8left from rfl, show (s.retag tag).cdUtf8 = s.cdUtf8 from rfl,
    show (s.retag tag).input = s.input from rfl]
  split
  · rfl
  · simp only
    split <;> rfl

theorem tryTurn_retag (s : TryState σ) : tryTurn ic flags (s.retag tag) =
    Sum.map (retagTried tag) (TryState.retag tag) (tryTurn ic flags s) := by
  unfold tryTurn
  rw [show (s.retag tag).utf8left = s.utf8left from rfl, show (s.retag tag).input = s.input from rfl,
    toUtf8Stage_retag]
  split
  · rfl
  · cases toUtf8Stage ic flags s with
    | none => rfl
    | some result => exact finishTurn_retag result.1 result.2.1 result.2.2

/-- Trials do not depend on the back end. -/
theorem tryIconv_retag (turns : Nat) (d : Decompress) (code target : Bytes) (last : Bool) (space : Option Nat)
    (out : Bytes) : tryIconv ic turns (d.retag tag) code target last space out =
      (tryIconv ic turns d code target last space out).map (retagTried tag) := by
  unfold tryIconv
  cases openBoth ic code target last with
  | none => rfl
  | some cds => exact Loop.run_map tryTurn_retag turns (tryStart d cds out)

theorem tryAll_retag (turns : Nat) (target : Bytes) (space : Option Nat) (codes : List Bytes) (d : Decompress)
    (out : Bytes) : tryAll ic turns target space codes (d.retag tag) out =
      (tryAll ic turns target space codes d out).map fun (ret, d, parts) => (ret, d.retag tag, parts) := by
  induction codes generalizing d out with
  | nil => rfl
  | cons code codes ih =>
    unfold tryAll
    rw [tryIconv_retag]
    cases tryIconv ic turns d code target codes.isEmpty space out with
    | none => rfl
    | some result =>
      obtain ⟨tried, d₁, out₁⟩ := result
      simp only [Option.map_some, retagTried, Option.bind_eq_bind, Option.bind_some]
      cases tried with
      | error =>
        simp only [ih]
        cases tryAll ic turns target space codes d₁ out₁ <;> rfl
      | _ => rfl

/-- Neither does `manconv`, if the first-line check does not. -/
theorem manconv_retag {loc : Locale} {turns : Nat} {d : Decompress} {codes : List Bytes} {target : Bytes}
    {space : Option Nat} (check : checkPreprocessorEncoding loc (d.retag tag) (target.takeWhile (· ≠ slash)) =
      checkPreprocessorEncoding loc d (target.takeWhile (· ≠ slash)))
    (line : checkPreprocessorEncoding loc d (target.takeWhile (· ≠ slash)) ≠ none →
      (decompressReadline (d.retag tag)).2 = (decompressReadline d).2.retag tag) :
    manconv loc ic turns (d.retag tag) codes target space =
      (manconv loc ic turns d codes target space).map (Converted.retag tag) := by
  have converted : ∀ (codes : List Bytes) (d : Decompress) (line : Bytes),
      ((tryAll ic turns target space codes (d.retag tag) line).map
        fun (ret, d, parts) => (⟨ret, d, line, parts⟩ : Converted)) =
      ((tryAll ic turns target space codes d line).map
        fun (ret, d, parts) => (⟨ret, d, line, parts⟩ : Converted)).map (Converted.retag tag) := by
    intro codes d line
    rw [tryAll_retag]
    cases tryAll ic turns target space codes d line <;> rfl
  unfold manconv
  rw [check]
  cases tagged : checkPreprocessorEncoding loc d (target.takeWhile (· ≠ slash)) with
  | none => exact converted codes d []
  | some result =>
    obtain ⟨ppEncoding, modified⟩ := result
    cases modified with
    | none =>
      simp only [tryTag_eq]
      exact converted [ppEncoding] d []
    | some modifiedPpLine =>
      simp only [tryTag_eq]
      rw [line (by rw [tagged]; nofun)]
      cases addOutput ⟨true, false, space⟩ [] modifiedPpLine with
      | none => rfl
      | some line => exact converted [ppEncoding] (decompressReadline d).2 line

end ManDb
