import ManDb.Lib.Decoding
import ManDb.Manconv.Conversion

namespace ManDb

open Decoding (Decoder Decodes)

/-- A source encoding: a decoder whose characters fit into the buffers. -/
abbrev Charset : Type := { D : Decoder UInt8 UInt8 // D.Fits bufSize }

def stopErrno : Decoding.Stop → Errno
  | .illegal => .eilseq
  | .incomplete => .einval
  | .full => .e2big

theorem stopErrno_illegal {stop : Option Decoding.Stop} : stop.map stopErrno = some .eilseq ↔
    stop = some .illegal := by
  rcases stop with _ | _ | _ | _ <;> simp [stopErrno]

theorem stopErrno_incomplete {stop : Option Decoding.Stop} :
    stop.map stopErrno = some .einval ↔ stop = some .incomplete := by
  rcases stop with _ | _ | _ | _ <;> simp [stopErrno]

/-- The encodings that `iconv` knows: how each is decoded to UTF-8, and how UTF-8 is
encoded in each. -/
structure Codecs where
  decoders : Bytes → Option Charset
  encoders : Bytes → Option Charset

/-- An `iconv` with these codecs. With "//IGNORE" illegal input is skipped, and still
reported. -/
def codecIconv (codecs : Codecs) : Iconv (Bool × Charset) where
  iconvOpen tocode fromcode :=
    if tocode = utf8Code then (codecs.decoders fromcode).map (fun D => (false, D))
    else if tocode = ascii "UTF-8//IGNORE" then (codecs.decoders fromcode).map (fun D => (true, D))
    else if fromcode = utf8Code then
      (codecs.encoders (tocode.takeWhile (· ≠ 47))).map (fun E => (hasIgnore tocode, E))
    else none
  iconv cd input room :=
    let o := Decoding.call cd.2.1 cd.1 room input
    ⟨o.used, o.text, o.stop.map stopErrno, cd⟩
  flush cd _ := ([], cd)
  used_le cd input room := (Decoding.call_spec cd.2.1 cd.1 room input).used_le
  out_le cd input room := (Decoding.call_spec cd.2.1 cd.1 room input).text_le

variable {codecs : Codecs} {flags : TryFlags} {s : TryState (Bool × Charset)} {D : Charset}
  {input text ts left target : Bytes}

theorem openBoth_charset (utf8 : isUtf8Target target = true) (code : Bytes) (last : Bool) :
    openBoth (codecIconv codecs) code target last = (codecs.decoders code).map (fun D => ((last, D), none)) := by
  have other : ascii "UTF-8//IGNORE" ≠ utf8Code := by decide
  unfold openBoth
  cases last <;> cases known : codecs.decoders code <;> simp [codecIconv, known, utf8, other]

/-- A call that is neither rejected nor given up makes progress. -/
theorem charset_progress {skip : Bool} (last : skip = flags.last) (nonempty : input ≠ [])
    (accepted : rejects flags.last input ((codecIconv codecs).iconv (skip, D) input bufSize).errno = false)
    (converted : givesUp flags.ignoreErrors input ((codecIconv codecs).iconv (skip, D) input bufSize).errno = false) :
    0 < ((codecIconv codecs).iconv (skip, D) input bufSize).used := by
  by_contra stuck
  have spec := Decoding.call_spec D.1 skip bufSize input
  have errno : ((codecIconv codecs).iconv (skip, D) input bufSize).errno =
      (Decoding.call D.1 skip bufSize input).stop.map stopErrno := rfl
  rcases spec.stuck D.2 nonempty (Nat.eq_zero_of_not_pos stuck) with ⟨strict, illegal⟩ | ⟨incomplete, short⟩
  · rw [errno, illegal, ← last, strict] at accepted
    cases accepted
  · rw [errno, incomplete] at converted
    simp [givesUp, stopErrno, short] at converted

/-- Every trial comes to an end. -/
theorem tryLoop_returns (fresh : Fresh s) (cdUtf8 : s.cdUtf8 = (flags.last, D)) (cd : s.cd = none) :
    ∃ turns result, tryLoop (codecIconv codecs) flags turns s = some result := by
  generalize size : s.decomp.remaining.length = n
  induction n using Nat.strong_induction_on generalizing s with
  | _ n ih =>
    by_cases empty : s.input = []
    · exact ⟨1, _, Loop.run_ends (tryTurn_done fresh empty) 0⟩
    · cases @bufferEnd _ (codecIconv codecs) flags s fresh empty with
      | rejected _ ends => exact ⟨1, _, Loop.run_ends ends 0⟩
      | @full k _ _ _ _ turns ends => exact ⟨1 + k, _, (turns.run 1).trans (Loop.run_ends ends 0)⟩
      | @fatal k _ _ _ _ _ turns ends => exact ⟨1 + k, _, (turns.run 1).trans (Loop.run_ends ends 0)⟩
      | short _ short =>
        rw [cd] at short
        exact absurd short (Nat.lt_irrefl _)
      | @next k t passes _ turns follows =>
        have accepted := passes.accepted
        have converted := passes.converted
        rw [cdUtf8] at accepted converted
        have progress := charset_progress rfl empty accepted converted
        have some : s.decomp.remaining ≠ [] := by
          rw [fresh.input] at empty
          exact fun nothing => empty (window_eq_nil.mpr nothing)
        have smaller : t.decomp.remaining.length < n := by
          rw [follows.decomp, skip_remaining, List.length_drop, cdUtf8, size]
          have positive := List.length_pos_iff.mpr some
          omega
        obtain ⟨m, result, rest⟩ := ih _ smaller follows.fresh (by rw [follows.cdUtf8, cdUtf8]; rfl)
          (by rw [follows.cd, cd]; rfl) rfl
        exact ⟨m + (k + 1), result, (turns.run m).trans rest⟩

/-- What a strict trial writes decodes the input it used. -/
theorem Conversion.strict (conversion : Conversion (codecIconv codecs) flags (false, D) none input text left) :
    ∃ front, input = front ++ left ∧ Decodes D.1 front text := by
  generalize atCd : (false, D) = cdUtf8 at conversion
  generalize atOnward : (none : Option (Bool × Charset)) = cd at conversion
  induction conversion with
  | done => exact ⟨[], rfl, .nil⟩
  | rejected => exact ⟨[], rfl, .nil⟩
  | @buffer cdUtf8 cd input r o text left passes atR atO _ ih =>
    subst atCd atOnward atR atO
    obtain ⟨front, split, decodes⟩ := ih rfl rfl
    have spec := Decoding.call_spec D.1 false bufSize (input.take bufSize)
    have used := spec.used_le
    rw [List.length_take] at used
    have first := spec.decodes rfl
    rw [List.take_take, Nat.min_eq_left (by omega)] at first
    refine ⟨input.take (Decoding.call D.1 false bufSize (input.take bufSize)).used ++ front, ?_, first.append decodes⟩
    rw [List.append_assoc]
    exact (List.take_append_drop _ input).symm.trans (congrArg _ split)

/-- A strict trial that is rejected without having written anything was rejected at
the first buffer. -/
theorem Conversion.silent (strict : flags.last = false) (some : left ≠ [])
    (conversion : Conversion (codecIconv codecs) flags (false, D) none input [] left) :
    left = input ∧ rejects false (input.take bufSize)
      ((codecIconv codecs).iconv (false, D) (input.take bufSize) bufSize).errno = true := by
  generalize nothing : ([] : Bytes) = text at conversion
  cases conversion with
  | done => exact absurd rfl some
  | rejected _ rejected =>
    rw [strict] at rejected
    exact ⟨rfl, rejected⟩
  | @buffer _ _ _ r o text _ passes atR atO _ =>
    subst atR atO
    have silent := (List.append_eq_nil_iff.mp nothing.symm).1
    have progress := charset_progress strict.symm passes.some passes.accepted passes.converted
    have decodes := (Decoding.call_spec D.1 false bufSize (input.take bufSize)).decodes rfl
    have used : (input.take bufSize).take (Decoding.call D.1 false bufSize (input.take bufSize)).used ≠ [] := by
      rw [Ne, List.take_eq_nil_iff]
      rintro (none | empty)
      · exact absurd none (Nat.pos_iff_ne_zero.mp progress)
      · exact passes.some empty
    exact absurd silent (decodes.text_ne_nil used)

/-- A buffer without illegal input is converted in the last trial as in a strict one. -/
theorem last_call {window : Bytes} (legal : (Decoding.call D.1 false bufSize window).stop ≠ some .illegal) :
    Decoding.call D.1 flags.last bufSize window = Decoding.call D.1 false bufSize window := by
  cases flags.last with
  | false => rfl
  | true => exact Decoding.call_skip legal

/-- The first conversion call on what decodes meets no error that matters and makes
progress, and what is left decodes. -/
structure FirstCall (D : Charset) (input ts : Bytes) (o : Decoding.Outcome UInt8) : Prop where
  progress : 0 < o.used
  within : o.used ≤ (input.take bufSize).length
  decodes : Decodes D.1 (input.take o.used) o.text
  rest : ∃ rest, ts = o.text ++ rest ∧ Decodes D.1 (input.drop o.used) rest
  fine : ∀ last ignoreErrors, rejects last (input.take bufSize) (o.stop.map stopErrno) = false ∧
    givesUp ignoreErrors (input.take bufSize) (o.stop.map stopErrno) = false

theorem first_call (decodes : Decodes D.1 input ts) (nonempty : input ≠ []) (last : Bool) :
    FirstCall D input ts (Decoding.call D.1 last bufSize (input.take bufSize)) := by
  have some_ : input.take bufSize ≠ [] := fun nothing => nonempty (window_eq_nil.mp nothing)
  rw [← List.take_append_drop bufSize input] at decodes
  obtain ⟨legal, complete, vs, rest, same⟩ := @Decodes.call _ _ _ _ _ _ bufSize decodes
  rw [@last_call ⟨last, false, none⟩ D _ legal]
  have spec := Decoding.call_spec D.1 false bufSize (input.take bufSize)
  have used := spec.used_le
  have front := spec.decodes rfl
  rw [List.take_take, Nat.min_eq_left (used.trans (List.length_take_le _ _))] at front
  rw [← List.drop_append_of_le_length used, List.take_append_drop] at rest
  refine ⟨?_, used, front, ⟨vs, same, rest⟩, fun last ignoreErrors => ?_⟩
  · by_contra stuck
    rcases spec.stuck D.2 some_ (Nat.eq_zero_of_not_pos stuck) with ⟨_, illegal⟩ | ⟨incomplete, short⟩
    · exact legal illegal
    · refine complete incomplete (List.drop_eq_nil_of_le ?_)
      rw [List.length_take] at short
      omega
  · refine harmless (fun eilseq => legal (stopErrno_illegal.mp eilseq)) (fun einval short => ?_) _ _
    refine complete (stopErrno_incomplete.mp einval) (List.drop_eq_nil_of_le ?_)
    rw [List.length_take] at short
    omega

/-- What decodes is converted as a whole, by a strict trial as by the last one. -/
theorem decodes_conversion (decodes : Decodes D.1 input ts) :
    Conversion (codecIconv codecs) flags (flags.last, D) none input ts [] := by
  generalize size : input.length = n
  induction n using Nat.strong_induction_on generalizing input ts with
  | _ n ih =>
    by_cases empty : input = []
    · subst empty
      rw [decodes.eq_nil]
      exact .done
    · have first := first_call decodes empty flags.last
      obtain ⟨rest, rfl, later⟩ := first.rest
      have passes : Passes (codecIconv codecs) flags (flags.last, D) none (input.take bufSize) :=
        ⟨fun nothing => empty (window_eq_nil.mp nothing), (first.fine _ false).1, (first.fine false _).2,
          givesUp_none _ _⟩
      refine .buffer passes rfl rfl (ih _ ?_ later rfl)
      have positive := List.length_pos_iff.mpr empty
      have progress : 0 < ((codecIconv codecs).iconv (flags.last, D) (input.take bufSize) bufSize).used :=
          first.progress
      rw [List.length_drop]
      omega

/-- A strict trial is never given up. -/
theorem strict_total (strict : flags.last = false) (D : Charset) (input : Bytes) :
    ∃ text left, Conversion (codecIconv codecs) flags (false, D) none input text left := by
  generalize size : input.length = n
  induction n using Nat.strong_induction_on generalizing input with
  | _ n ih =>
    by_cases empty : input = []
    · subst empty
      exact ⟨[], [], .done⟩
    · have nonempty : input.take bufSize ≠ [] := fun nothing => empty (window_eq_nil.mp nothing)
      by_cases rejected : rejects flags.last (input.take bufSize)
          ((codecIconv codecs).iconv (false, D) (input.take bufSize) bufSize).errno = true
      · exact ⟨[], input, .rejected empty rejected⟩
      · have accepted := Bool.eq_false_iff.mpr rejected
        have converted : givesUp flags.ignoreErrors (input.take bufSize)
            ((codecIconv codecs).iconv (false, D) (input.take bufSize) bufSize).errno = false := by
          rw [strict] at accepted
          exact givesUp_of_accepted accepted _
        have progress := charset_progress strict.symm nonempty accepted converted
        have positive := List.length_pos_iff.mpr empty
        obtain ⟨text, left, rest⟩ := ih _ (by rw [← size, List.length_drop]; omega)
          (input.drop ((codecIconv codecs).iconv (false, D) (input.take bufSize) bufSize).used) rfl
        exact ⟨_, left, .buffer ⟨nonempty, accepted, converted, givesUp_none _ _⟩ rfl rfl rest⟩

end ManDb
