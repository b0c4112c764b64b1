import ManDb.Manconv.TryIconv

namespace ManDb

variable {σ : Type} {ic : Iconv σ} {flags : TryFlags} {s t : TryState σ}

/-- The conversion of some UTF-8 text to the target, with the state flushed if
there was no error. -/
def onward (ic : Iconv σ) (cd : Option σ) (text : Bytes) : IconvResult (Option σ) :=
  match cd with
  | none => ⟨text.length, text, none, none⟩
  | some cd =>
    if text = [] then ⟨0, [], none, some cd⟩
    else
      let r := ic.iconv cd text bufSize
      match r.errno with
      | some errno => ⟨r.used, r.out, some errno, some r.next⟩
      | none => ⟨r.used, r.out ++ (ic.flush r.next bufSize).1, none, some (ic.flush r.next bufSize).2⟩

@[simp] theorem onward_utf8 (text : Bytes) : onward ic none text = ⟨text.length, text, none, none⟩ := rfl

@[simp] theorem onward_nil (cd : Option σ) : onward ic cd [] = ⟨0, [], none, cd⟩ := by
  cases cd <;> rfl

theorem onward_used_le (cd : Option σ) (text : Bytes) : (onward ic cd text).used ≤ text.length := by
  unfold onward
  cases cd with
  | none => exact Nat.le_refl _
  | some cd =>
    simp only
    split
    · exact Nat.zero_le _
    · split <;> exact ic.used_le _ _ _

@[simp] theorem givesUp_none (ignoreErrors : Bool) (input : Bytes) : givesUp ignoreErrors input none = false := rfl

/-- An input that is legal, and complete unless it fills the buffer, is neither
rejected nor given up. -/
theorem harmless {errno : Option Errno} {input : Bytes} (legal : errno ≠ some .eilseq)
    (complete : errno = some .einval → ¬input.length < bufSize) (last ignoreErrors : Bool) :
    rejects last input errno = false ∧ givesUp ignoreErrors input errno = false := by
  cases errno with
  | none => simp [rejects, givesUp]
  | some errno =>
    cases errno with
    | eilseq => exact absurd rfl legal
    | einval =>
      have long := Nat.not_lt.mp (complete rfl)
      simp [rejects, givesUp, long]
    | e2big => simp [rejects, givesUp]

theorem givesUp_of_accepted {errno : Option Errno} {input : Bytes} (accepted : rejects false input errno = false)
    (ignoreErrors : Bool) : givesUp ignoreErrors input errno = false := by
  refine (harmless (fun eilseq => ?_) (fun einval short => ?_) false ignoreErrors).2
  · rw [eilseq] at accepted
    cases accepted
  · rw [einval] at accepted
    simp [rejects, short] at accepted

@[simp] theorem skip_zero (d : Decompress) : d.skip 0 = d := by
  have within := d.within
  cases d
  simp only [Decompress.skip, Nat.add_zero, Decompress.mk.injEq, true_and]
  exact Nat.min_eq_left within

theorem addOutput_eq (flags : TryFlags) (out text : Bytes) :
    (addOutput flags out text = none ∧ flags.space ≠ none) ∨ addOutput flags out text = some (out ++ text) := by
  unfold addOutput
  cases flags.space with
  | none => exact Or.inr rfl
  | some max =>
    simp only
    split
    · exact Or.inl ⟨rfl, nofun⟩
    · exact Or.inr rfl

theorem addSome_eq (flags : TryFlags) (out text : Bytes) :
    (addSome flags out text = none ∧ flags.space ≠ none) ∨ addSome flags out text = some (out ++ text) := by
  unfold addSome
  by_cases empty : text = []
  · simp [empty]
  · rw [if_neg empty]
    exact addOutput_eq flags out text

/-- Without an error so far, what is written is the conversion of the text that is left. -/
theorem outputStage_onward (length : s.utf8left = s.pending.length) :
    (outputStage ic flags s none = none ∧ flags.space ≠ none) ∨
    outputStage ic flags s none =
      some ({ s with cd := (onward ic s.cd s.pending).next, utf8left := s.utf8left - (onward ic s.cd s.pending).used,
                     out := s.out ++ (onward ic s.cd s.pending).out }, (onward ic s.cd s.pending).errno) := by
  unfold outputStage
  cases atCd : s.cd with
  | none =>
    rcases addSome_eq flags s.out s.pending with ⟨full, space⟩ | added
    · exact Or.inl ⟨by simp [full], space⟩
    · refine Or.inr ?_
      simp [added, ← length]
  | some cd =>
    simp only
    by_cases empty : s.pending = []
    · have noText : s.utf8left = 0 := by rw [length, empty, List.length_nil]
      refine Or.inr ?_
      simp only [noText, if_true, empty, onward_nil, List.append_nil, Nat.sub_zero]
      rw [← atCd, ← noText]
    · have left : s.utf8left ≠ 0 := by
        rw [length]
        exact fun none => empty (List.length_eq_zero_iff.mp none)
      rw [if_neg left]
      rcases addSome_eq flags s.out (ic.iconv cd s.pending bufSize).out with ⟨full, space⟩ | added
      · exact Or.inl ⟨by simp [full], space⟩
      · cases error : (ic.iconv cd s.pending bufSize).errno with
        | some errno =>
          refine Or.inr ?_
          simp [added, onward, empty, error]
        | none =>
          rcases addSome_eq flags (s.out ++ (ic.iconv cd s.pending bufSize).out)
            (ic.flush (ic.iconv cd s.pending bufSize).next bufSize).1 with ⟨full, space⟩ | flushed
          · exact Or.inl ⟨by simp [added, full], space⟩
          · refine Or.inr ?_
            simp [added, flushed, onward, empty, error]

/-- The state is at the start of the next buffer of input. -/
structure Fresh (s : TryState σ) : Prop where
  noText : s.utf8left = 0
  input : s.input = decompressPeek s.decomp bufSize

theorem fetchNext_fresh (noText : s.utf8left = 0) (used : Nat) : Fresh (fetchNext s used) := by
  unfold fetchNext
  rw [if_pos noText]
  exact ⟨noText, rfl⟩

theorem fetchNext_fields (s : TryState σ) (used : Nat) : (fetchNext s used).cdUtf8 = s.cdUtf8 ∧
    (fetchNext s used).cd = s.cd ∧ (fetchNext s used).decomp = s.decomp.skip used ∧
    (fetchNext s used).out = s.out := by
  unfold fetchNext
  split <;> exact ⟨rfl, rfl, rfl, rfl⟩

/-- The conversion of this buffer of input meets no error that ends the trial. -/
structure Passes (ic : Iconv σ) (flags : TryFlags) (cdUtf8 : σ) (cd : Option σ) (input : Bytes) : Prop where
  some : input ≠ []
  accepted : rejects flags.last input (ic.iconv cdUtf8 input bufSize).errno = false
  converted : givesUp flags.ignoreErrors input (ic.iconv cdUtf8 input bufSize).errno = false
  written : givesUp flags.ignoreErrors input (onward ic cd (ic.iconv cdUtf8 input bufSize).out).errno = false

/-- The state at the next buffer, once one has been converted and written. -/
structure Follows (ic : Iconv σ) (s t : TryState σ) : Prop where
  fresh : Fresh t
  cdUtf8 : t.cdUtf8 = (ic.iconv s.cdUtf8 s.input bufSize).next
  cd : t.cd = (onward ic s.cd (ic.iconv s.cdUtf8 s.input bufSize).out).next
  decomp : t.decomp = s.decomp.skip (ic.iconv s.cdUtf8 s.input bufSize).used
  out : t.out = s.out ++ (onward ic s.cd (ic.iconv s.cdUtf8 s.input bufSize).out).out

/-- What can become of a buffer of input: the next encoding is to be tried, there is
no space, there is an error, text is left that was not written, or the next buffer
follows after some turns. -/
inductive BufferEnd (ic : Iconv σ) (flags : TryFlags) (s : TryState σ) : Prop
  | rejected : rejects flags.last s.input (ic.iconv s.cdUtf8 s.input bufSize).errno = true →
      tryTurn ic flags s = .inl (.error, s.decomp, s.out) → BufferEnd ic flags s
  | full {k t d out} : flags.space ≠ none → Loop.Turns (tryTurn ic flags) k s t →
      tryTurn ic flags t = .inl (.outOfSpace, d, out) → BufferEnd ic flags s
  | fatal {k t d out} : rejects flags.last s.input (ic.iconv s.cdUtf8 s.input bufSize).errno = false →
      ¬Passes ic flags s.cdUtf8 s.cd s.input → Loop.Turns (tryTurn ic flags) k s t →
      tryTurn ic flags t = .inl (.fatal, d, out) → BufferEnd ic flags s
  | short : Passes ic flags s.cdUtf8 s.cd s.input →
      (onward ic s.cd (ic.iconv s.cdUtf8 s.input bufSize).out).used < (ic.iconv s.cdUtf8 s.input bufSize).out.length →
      BufferEnd ic flags s
  | next {k t} : Passes ic flags s.cdUtf8 s.cd s.input →
      (onward ic s.cd (ic.iconv s.cdUtf8 s.input bufSize).out).used = (ic.iconv s.cdUtf8 s.input bufSize).out.length →
      Loop.Turns (tryTurn ic flags) (k + 1) s t → Follows ic s t → BufferEnd ic flags s

/-- The state after a buffer of input was converted to UTF-8. -/
def afterInput (ic : Iconv σ) (s : TryState σ) : TryState σ :=
  { s with cdUtf8 := (ic.iconv s.cdUtf8 s.input bufSize).next
           utf8 := (ic.iconv s.cdUtf8 s.input bufSize).out
           utf8left := (ic.iconv s.cdUtf8 s.input bufSize).out.length }

@[simp] theorem afterInput_pending (ic : Iconv σ) (s : TryState σ) :
    (afterInput ic s).pending = (ic.iconv s.cdUtf8 s.input bufSize).out := List.take_length

/-- The turn that writes the text of a buffer, whether it converted the buffer too or
follows the turn that did. -/
theorem bufferEnd_written {k used' : Nat} {d : Decompress}
    (skips : d.skip used' = s.decomp.skip (ic.iconv s.cdUtf8 s.input bufSize).used)
    (nonempty : s.input ≠ [])
    (accepted : rejects flags.last s.input (ic.iconv s.cdUtf8 s.input bufSize).errno = false)
    (converted : givesUp flags.ignoreErrors s.input (ic.iconv s.cdUtf8 s.input bufSize).errno = false)
    (turns : Loop.Turns (tryTurn ic flags) k s t)
    (turn : tryTurn ic flags t = finishTurn ic flags { afterInput ic s with decomp := d } used' none) :
    BufferEnd ic flags s := by
  have length : ({ afterInput ic s with decomp := d } : TryState σ).utf8left =
      ({ afterInput ic s with decomp := d } : TryState σ).pending.length :=
    congrArg List.length (afterInput_pending ic s).symm
  have pending : ({ afterInput ic s with decomp := d } : TryState σ).pending =
      (ic.iconv s.cdUtf8 s.input bufSize).out := afterInput_pending ic s
  unfold finishTurn at turn
  rcases @outputStage_onward _ ic flags _ length with ⟨full, space⟩ | stage
  · rw [full] at turn
    exact .full space turns turn
  · rw [stage, pending] at turn
    simp only at turn
    by_cases written : givesUp flags.ignoreErrors s.input
        (onward ic s.cd (ic.iconv s.cdUtf8 s.input bufSize).out).errno = true
    · rw [show (afterInput ic s).input = s.input from rfl, show (afterInput ic s).cd = s.cd from rfl,
        if_pos written] at turn
      refine .fatal accepted (fun passes => ?_) turns turn
      rw [passes.written] at written
      cases written
    · have passes : Passes ic flags s.cdUtf8 s.cd s.input :=
        ⟨nonempty, accepted, converted, Bool.eq_false_iff.mpr written⟩
      rw [show (afterInput ic s).input = s.input from rfl, show (afterInput ic s).cd = s.cd from rfl,
        if_neg written] at turn
      rcases Nat.lt_or_eq_of_le (@onward_used_le _ ic s.cd (ic.iconv s.cdUtf8 s.input bufSize).out) with short | whole
      · exact .short passes short
      · have noText : (afterInput ic s).utf8left -
          (onward ic s.cd (ic.iconv s.cdUtf8 s.input bufSize).out).used = 0 := by
          rw [whole]
          exact Nat.sub_self _
        refine .next passes whole (Loop.Turns.snoc turns turn) ?_
        refine ⟨fetchNext_fresh noText _, ?_, ?_, ?_, ?_⟩
        · rw [(fetchNext_fields _ _).1]
          rfl
        · rw [(fetchNext_fields _ _).2.1]
        · rw [(fetchNext_fields _ _).2.2.1]
          exact skips
        · rw [(fetchNext_fields _ _).2.2.2]
          rfl

theorem tryTurn_done (fresh : Fresh s) (empty : s.input = []) : tryTurn ic flags s = .inl (.ok, s.decomp, s.out) :=
  if_pos ⟨empty, fresh.noText⟩

theorem tryTurn_rejected (fresh : Fresh s) (nonempty : s.input ≠ [])
    (rejected : rejects flags.last s.input (ic.iconv s.cdUtf8 s.input bufSize).errno = true) :
    tryTurn ic flags s = .inl (.error, s.decomp, s.out) := by
  simp [tryTurn, nonempty, toUtf8Stage, fresh.noText, rejected]

theorem tryTurn_accepted (fresh : Fresh s) (nonempty : s.input ≠ [])
    (accepted : rejects flags.last s.input (ic.iconv s.cdUtf8 s.input bufSize).errno = false) :
    tryTurn ic flags s = finishTurn ic flags (afterInput ic s) (ic.iconv s.cdUtf8 s.input bufSize).used
      (ic.iconv s.cdUtf8 s.input bufSize).errno := by
  simp [tryTurn, nonempty, toUtf8Stage, fresh.noText, accepted, afterInput]

theorem tryTurn_left (left : s.utf8left ≠ 0) : tryTurn ic flags s = finishTurn ic flags s 0 none := by
  simp [tryTurn, toUtf8Stage, left]

theorem finishTurn_error (s : TryState σ) (used : Nat) (errno : Errno) : finishTurn ic flags s used (some errno) =
    if givesUp flags.ignoreErrors s.input (some errno) then .inl (.fatal, s.decomp, s.out)
    else .inr (fetchNext s used) := rfl

/-- Every buffer of input comes to one of these ends. -/
theorem bufferEnd (fresh : Fresh s) (nonempty : s.input ≠ []) : BufferEnd ic flags s := by
  by_cases rejected : rejects flags.last s.input (ic.iconv s.cdUtf8 s.input bufSize).errno = true
  · exact .rejected rejected (tryTurn_rejected fresh nonempty rejected)
  have accepted := Bool.eq_false_iff.mpr rejected
  have turn := tryTurn_accepted fresh nonempty accepted
  cases error : (ic.iconv s.cdUtf8 s.input bufSize).errno with
  | none =>
    rw [error] at turn
    exact bufferEnd_written rfl nonempty accepted (by rw [error, givesUp_none]) .refl turn
  | some errno =>
    rw [error, finishTurn_error] at turn
    by_cases converted : givesUp flags.ignoreErrors s.input (some errno) = true
    · rw [show (afterInput ic s).input = s.input from rfl, if_pos converted] at turn
      refine .fatal accepted (fun passes => ?_) .refl turn
      have fine := passes.converted
      rw [error, converted] at fine
      cases fine
    · have fine : givesUp flags.ignoreErrors s.input (ic.iconv s.cdUtf8 s.input bufSize).errno = false := by
        rw [error]
        exact Bool.eq_false_iff.mpr converted
      rw [show (afterInput ic s).input = s.input from rfl, if_neg converted] at turn
      by_cases empty : (ic.iconv s.cdUtf8 s.input bufSize).out = []
      · -- no text to write
        have written : onward ic s.cd (ic.iconv s.cdUtf8 s.input bufSize).out = ⟨0, [], none, s.cd⟩ := by
          rw [empty, onward_nil]
        have noText : (afterInput ic s).utf8left = 0 := List.length_eq_zero_iff.mpr empty
        obtain ⟨sameUtf8, sameCd, sameDecomp, sameOut⟩ := fetchNext_fields (afterInput ic s)
          (ic.iconv s.cdUtf8 s.input bufSize).used
        refine .next ⟨nonempty, accepted, fine, ?_⟩ ?_ (.turn turn .refl) ⟨fetchNext_fresh noText _, sameUtf8,
          ?_, sameDecomp, ?_⟩
        · rw [written, givesUp_none]
        · rw [written, empty, List.length_nil]
        · rw [sameCd, written]
          rfl
        · rw [sameOut, written, List.append_nil]
          rfl
      · -- the text is written in a turn of its own
        have left : (afterInput ic s).utf8left ≠ 0 := fun none => empty (List.length_eq_zero_iff.mp none)
        have same : fetchNext (afterInput ic s) (ic.iconv s.cdUtf8 s.input bufSize).used =
            { afterInput ic s with decomp := s.decomp.skip (ic.iconv s.cdUtf8 s.input bufSize).used } := if_neg left
        rw [same] at turn
        exact bufferEnd_written (skip_zero _) nonempty accepted fine (.turn turn .refl) (tryTurn_left left)

end ManDb
