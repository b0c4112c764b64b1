import ManDb.Manconv.Targets

namespace ManDb

open Decoding (Decodes)
open Encoding (Encodes Whole CallSpec)

variable {S : Type} {codecs : TargetCodecs S} {T : Target S} {D : TextCharset} {d : Decompress} {flags : TryFlags}
  {s t : TryState (Descriptor S)} {state : S} {out text input pending : Bytes} {used : Nat} {ignore : Bool}
  {remaining : Bytes}

/-- What is left to do, in turns. -/
def weight (s : TryState (Descriptor S)) : Nat := s.decomp.remaining.length * (bufSize + 1) + s.utf8left

/-- The state is one of the loop, nothing was lost in it, and the text that is left in
the buffer is a sequence of characters. -/
structure Sound (T : Target S) (flags : TryFlags) (D : TextCharset) (out text : Bytes)
    (s : TryState (Descriptor S)) : Prop where
  cdUtf8 : s.cdUtf8 = .decode flags.last D
  length : s.utf8left = s.pending.length
  fetched : s.utf8left = 0 → s.input = decompressPeek s.decomp bufSize
  lost : NothingLost T flags.ignoreErrors D out text s
  whole : Whole T.enc true s.pending

/-- The first stage of a turn: it leads to some text for the second stage. -/
structure Staged (codecs : TargetCodecs S) (T : Target S) (flags : TryFlags) (D : TextCharset) (out text : Bytes)
    (s t : TryState (Descriptor S)) (used : Nat) (errno : Option Errno) : Prop where
  stage : toUtf8Stage (targetIconv codecs) flags s = some (t, used, errno)
  cdUtf8 : t.cdUtf8 = .decode flags.last D
  length : t.utf8left = t.pending.length
  some : t.pending ≠ []
  fine : givesUp flags.ignoreErrors t.input errno = false
  less : (t.decomp.skip used).remaining.length * (bufSize + 1) + t.utf8left ≤ weight s
  progress : errno ≠ none → (t.decomp.skip used).remaining.length * (bufSize + 1) + t.utf8left < weight s
  lost : NothingLost T flags.ignoreErrors D out text { t with decomp := t.decomp.skip used }
  whole : Whole T.enc true t.pending

theorem NothingLost.congr (cd : t.cd = s.cd) (output : t.out = s.out) (left : t.pending = s.pending)
    (rest : t.decomp.remaining = s.decomp.remaining) (lost : NothingLost T ignore D out text s) :
    NothingLost T ignore D out text t := by
  obtain ⟨state, atCd, kept⟩ := lost
  exact ⟨state, cd.trans atCd, by rw [output, left, rest]; exact kept⟩

/-- The state after the first stage has converted some input. -/
theorem toUtf8Stage_decoded {o : Decoding.Outcome UInt8} (fresh : s.utf8left = 0)
    (result : (targetIconv codecs).iconv s.cdUtf8 s.input bufSize =
      ⟨o.used, o.text, o.stop.map stopErrno, .decode flags.last D⟩)
    (accepted : rejects flags.last s.input (o.stop.map stopErrno) = false) :
    toUtf8Stage (targetIconv codecs) flags s =
      some ({ s with cdUtf8 := .decode flags.last D, utf8 := o.text, utf8left := o.text.length },
        o.used, o.stop.map stopErrno) := by
  rw [toUtf8Stage, if_neg (by simp [fresh])]
  simp only [result, accepted]
  rfl

/-- A buffer of text is less than the byte of input that is gone. -/
theorem weight_decoded {o : Decoding.Outcome UInt8} (progress : 0 < o.used) (more : s.decomp.remaining ≠ [])
    (bound : o.text.length ≤ bufSize) :
    (s.decomp.skip o.used).remaining.length * (bufSize + 1) + o.text.length < weight s := by
  have step : (s.decomp.skip o.used).remaining.length + 1 ≤ s.decomp.remaining.length := by
    have positive := List.length_pos_iff.mpr more
    rw [skip_remaining, List.length_drop]
    omega
  have scaled := Nat.mul_le_mul_right (bufSize + 1) step
  rw [Nat.add_mul] at scaled
  unfold weight
  omega

theorem FirstCall.nonempty {o : Decoding.Outcome UInt8} {input ts : Bytes} (first : FirstCall D.1 input ts o)
    (more : input ≠ []) : o.text ≠ [] := by
  refine first.decodes.text_ne_nil fun empty => ?_
  have progress := first.progress
  rw [List.take_eq_nil_iff] at empty
  rcases empty with none | empty
  · omega
  · exact more empty

/-- The first stage of a turn that converts a buffer of input. -/
theorem staged_fresh (sound : Sound T flags D out text s) (fresh : s.utf8left = 0) (nonempty : s.input ≠ []) :
    ∃ t used errno, Staged codecs T flags D out text s t used errno := by
  have window : s.input = s.decomp.remaining.take bufSize := sound.fetched fresh
  have nothing : s.pending = [] := List.length_eq_zero_iff.mp (sound.length.symm.trans fresh)
  have more : s.decomp.remaining ≠ [] := fun empty => nonempty (window.trans (window_eq_nil.mpr empty))
  obtain ⟨state, atCd, converted, written, ts, encodes, emitted, whole, decodes, _⟩ := sound.lost
  have first := first_call decodes more flags.last
  have bound := (Decoding.call_spec D.1.1 flags.last bufSize (s.decomp.remaining.take bufSize)).text_le
  have result : (targetIconv codecs).iconv s.cdUtf8 s.input bufSize =
      ⟨(Decoding.call D.1.1 flags.last bufSize (s.decomp.remaining.take bufSize)).used,
        (Decoding.call D.1.1 flags.last bufSize (s.decomp.remaining.take bufSize)).text,
        (Decoding.call D.1.1 flags.last bufSize (s.decomp.remaining.take bufSize)).stop.map stopErrno,
        .decode flags.last D⟩ := by
    rw [sound.cdUtf8, window]
    rfl
  generalize Decoding.call D.1.1 flags.last bufSize (s.decomp.remaining.take bufSize) = o at first bound result
  obtain ⟨rest, same, later⟩ := first.rest
  have accepted := (first.fine flags.last false).1
  have fine := (first.fine flags.last flags.ignoreErrors).2
  rw [← window] at accepted fine
  have less := weight_decoded first.progress more bound
  have kept : TextKept T flags.ignoreErrors D out text state s.out o.text (s.decomp.remaining.drop o.used) := by
    refine ⟨converted, written, rest, encodes, emitted, ?_, later, fun empty => absurd empty (first.nonempty more)⟩
    rw [whole, nothing, same, List.append_nil, List.append_assoc]
  have pending : o.text.take o.text.length = o.text := List.take_length
  refine ⟨_, _, _, toUtf8Stage_decoded fresh result accepted, rfl, ?_, ?_, fine, Nat.le_of_lt less, fun _ => less,
    ⟨state, atCd, ?_⟩, ?_⟩
  · exact congrArg List.length pending.symm
  · exact fun empty => first.nonempty more (pending.symm.trans empty)
  · simp only [TryState.pending, pending, skip_remaining]
    exact kept
  · simp only [TryState.pending, pending]
    exact whole_text first.decodes

/-- The first stage of any turn. -/
theorem staged (sound : Sound T flags D out text s) (going : ¬(s.input = [] ∧ s.utf8left = 0)) :
    ∃ t used errno, Staged codecs T flags D out text s t used errno := by
  by_cases fresh : s.utf8left = 0
  · exact staged_fresh sound fresh fun empty => going ⟨empty, fresh⟩
  · refine ⟨s, 0, none, by rw [toUtf8Stage, if_pos fresh], sound.cdUtf8, sound.length, ?_, givesUp_none _ _,
    ?_, nofun,
      ?_, sound.whole⟩
    · intro empty
      exact fresh (sound.length.trans (congrArg List.length empty))
    · rw [skip_zero]
      exact Nat.le_refl _
    · rw [skip_zero]
      exact sound.lost

/-- The shift state is flushed after a call that does not complain, and only then. -/
def Flushes (T : Target S) (o : Encoding.Outcome S UInt8) (state' : S) (flushed : Bytes) : Prop :=
  (o.stop = none ∧ state' = T.enc.initial ∧ flushed = T.enc.reset o.state) ∨
    (o.stop ≠ none ∧ flushed = [] ∧ state' = o.state)

/-- What the second stage does with some text. -/
theorem onward_target (nonempty : pending ≠ []) :
    (onward (targetIconv codecs) (some (.encode ignore T state)) pending).used =
      (Encoding.call T.enc ignore state bufSize pending).used ∧
    (onward (targetIconv codecs) (some (.encode ignore T state)) pending).errno =
      (Encoding.call T.enc ignore state bufSize pending).stop.map stopErrno ∧
    ∃ state' flushed, (onward (targetIconv codecs) (some (.encode ignore T state)) pending).next =
        some (.encode ignore T state') ∧
      (onward (targetIconv codecs) (some (.encode ignore T state)) pending).out =
        (Encoding.call T.enc ignore state bufSize pending).text ++ flushed ∧
      Flushes T (Encoding.call T.enc ignore state bufSize pending) state' flushed := by
  unfold onward
  simp only [if_neg nonempty, targetIconv]
  cases stop : (Encoding.call T.enc ignore state bufSize pending).stop with
  | none => exact ⟨rfl, rfl, _, _, rfl, rfl, Or.inl ⟨stop, rfl, rfl⟩⟩
  | some stop' => exact ⟨rfl, rfl, _, [], rfl, (List.append_nil _).symm, Or.inr ⟨by simp [stop], rfl, rfl⟩⟩

/-- A text that the target can represent is not given up. -/
theorem givesUp_target {o : Encoding.Outcome S UInt8} (spec : CallSpec T.enc ignore state pending o) :
    givesUp ignore input (o.stop.map stopErrno) = false := by
  cases stop : o.stop with
  | none => rfl
  | some stop' =>
    cases stop' with
    | illegal => simp [givesUp, stopErrno, spec.skips stop]
    | incomplete => exact absurd stop spec.complete
    | full => simp [givesUp, stopErrno]

/-- What one call writes, with the flush that follows if it does not complain. -/
theorem encodes_flushed {o : Encoding.Outcome S UInt8} {state' : S} {flushed : Bytes}
    (spec : CallSpec T.enc ignore state pending o)
    (flush : Flushes T o state' flushed) :
    Encodes T.enc ignore state (pending.take o.used) (o.text ++ flushed) state' := by
  rcases flush with ⟨_, rfl, rfl⟩ | ⟨_, rfl, rfl⟩
  · have whole := spec.encodes.append (.reset .nil)
    rwa [List.append_nil, List.append_nil] at whole
  · rw [List.append_nil]
    exact spec.encodes

/-- After a call nothing was lost if and only if what is pending then is what the call
left of the text, and the shift state is flushed at the end. -/
theorem TextKept.write {o : Encoding.Outcome S UInt8} {output left flushed : Bytes} {state' : S}
    (spec : CallSpec T.enc ignore state pending o)
    (flush : Flushes T o state' flushed) (size : left.length = pending.length - o.used)
    (kept : TextKept T ignore D out text state output pending remaining) :
    TextKept T ignore D out text state' (output ++ (o.text ++ flushed)) left remaining ↔
      left = pending.drop o.used ∧
        (o.used = pending.length → o.stop ≠ none → remaining = [] → o.state = T.enc.initial) := by
  obtain ⟨converted, written, rest, encodes, rfl, whole, decodes, _⟩ := kept
  constructor
  · rintro ⟨converted', written', rest', _, _, whole', decodes', ends⟩
    obtain rfl := decodes.unique decodes'
    have same : left = pending.drop o.used := by
      have joined : converted ++ pending.take o.used ++ pending.drop o.used = converted' ++ left := by
        rw [List.append_assoc, List.take_append_drop]
        exact List.append_cancel_right (whole.symm.trans whole')
      refine (List.append_inj' joined ?_).2.symm
      rw [List.length_drop, size]
    refine ⟨same, fun finished complains nothing => ?_⟩
    have initial := ends (by rw [same, finished, List.drop_length]) nothing
    rcases flush with ⟨silent, _⟩ | ⟨_, _, rfl⟩
    · exact absurd silent complains
    · exact initial
  · rintro ⟨rfl, initial⟩
    refine ⟨converted ++ pending.take o.used, written ++ (o.text ++ flushed), rest,
      encodes.append (encodes_flushed spec flush), List.append_assoc _ _ _, ?_, decodes, fun empty nothing => ?_⟩
    · rw [List.append_assoc converted, List.take_append_drop]
      exact whole
    · rcases flush with ⟨_, rfl, _⟩ | ⟨complains, _, rfl⟩
      · rfl
      · refine initial ?_ complains nothing
        have used : o.used ≤ pending.length := by
          by_cases full : o.stop = some .full
          · exact Nat.le_of_lt (spec.short full)
          · exact Nat.le_of_eq (spec.finished full)
        have long := List.drop_eq_nil_iff.mp empty
        omega

/-- What is pending of a text can be represented if the text can. -/
theorem TextKept.whole {output : Bytes} (kept : TextKept T ignore D out text state output pending remaining)
    (chars : Whole T.enc true pending) (whole : Whole T.enc ignore text) : Whole T.enc ignore pending := by
  obtain ⟨converted, _, rest, encodes, _, rfl, _, _⟩ := kept
  rw [List.append_assoc] at whole
  exact (chars.split (encodes.whole.mono.split whole).2).1

theorem fetchNext_pending (s : TryState (Descriptor S)) (used : Nat) :
    (fetchNext s used).pending = s.pending ∧ (fetchNext s used).utf8left = s.utf8left ∧
      (fetchNext s used).cdUtf8 = s.cdUtf8 := by
  unfold fetchNext
  split <;> exact ⟨rfl, rfl, rfl⟩

theorem nothingLost_at (atCd : s.cd = some (.encode ignore T state)) :
    NothingLost T ignore D out text s ↔ TextKept T ignore D out text state s.out s.pending s.decomp.remaining := by
  refine ⟨?_, fun kept => ⟨state, atCd, kept⟩⟩
  rintro ⟨state', atCd', kept⟩
  rw [atCd] at atCd'
  cases atCd'
  exact kept

theorem rightAt_iff (stage : toUtf8Stage (targetIconv codecs) flags s = some (t, used, none))
    (atCd : t.cd = some (.encode flags.ignoreErrors T state)) :
    RightAt codecs T flags s ↔ GoesOnRight T flags.ignoreErrors t used state := by
  refine ⟨fun right => right t used state stage atCd, fun right t' used' state' stage' atCd' => ?_⟩
  rw [stage] at stage'
  cases stage'
  rw [atCd] at atCd'
  cases atCd'
  exact right

theorem leftover_length (length : t.utf8left = t.pending.length) (used : Nat) :
    (t.utf8.take (t.utf8left - used)).length = t.utf8left - used := by
  rw [TryState.pending, List.length_take] at length
  rw [List.length_take]
  omega

/-- What is left of the buffer after a call of the second stage keeps all of the text
exactly if the stage goes on at the right place. -/
theorem kept_iff_goesOnRight {flushed : Bytes} {state' : S} (length : t.utf8left = t.pending.length)
    (spec : CallSpec T.enc ignore state t.pending (Encoding.call T.enc ignore state bufSize t.pending))
    (flush : Flushes T (Encoding.call T.enc ignore state bufSize t.pending) state' flushed)
    (kept : TextKept T ignore D out text state t.out t.pending (t.decomp.skip used).remaining) :
    TextKept T ignore D out text state'
      (t.out ++ ((Encoding.call T.enc ignore state bufSize t.pending).text ++ flushed))
      (t.utf8.take (t.utf8left - (Encoding.call T.enc ignore state bufSize t.pending).used))
      (t.decomp.skip used).remaining ↔
    GoesOnRight T ignore t used state := by
  have size := leftover_length length (Encoding.call T.enc ignore state bufSize t.pending).used
  rw [kept.write spec flush (length ▸ size), ← length]
  exact ⟨fun ⟨again, flushed⟩ => ⟨again, flushed⟩, fun right => ⟨right.again, right.flushed⟩⟩

/-- A turn that comes to its second stage. -/
theorem sound_output (unbounded : flags.space = none) (whole : Whole T.enc flags.ignoreErrors text)
    (staged : Staged codecs T flags D out text s t used none)
    (turn : tryTurn (targetIconv codecs) flags s = finishTurn (targetIconv codecs) flags t used none) :
    ∃ t, tryTurn (targetIconv codecs) flags s = .inr t ∧ weight t < weight s ∧
      (NothingLost T flags.ignoreErrors D out text t ↔ RightAt codecs T flags s) ∧
      (RightAt codecs T flags s → Sound T flags D out text t) := by
  obtain ⟨state, atCd, kept⟩ := staged.lost
  replace atCd : t.cd = some (.encode flags.ignoreErrors T state) := atCd
  replace kept : TextKept T flags.ignoreErrors D out text state t.out t.pending (t.decomp.skip used).remaining := kept
  have chars := kept.whole staged.whole whole
  have spec := Encoding.call_spec state bufSize chars
  have progress := Encoding.call_progress (s := state) chars T.fits staged.some
  obtain ⟨usedEq, errnoEq, state', flushed, nextEq, outEq, flush⟩ :=
    @onward_target _ codecs T state t.pending flags.ignoreErrors staged.some
  have written := kept_iff_goesOnRight staged.length spec flush kept
  rw [rightAt_iff staged.stage atCd]
  rcases @outputStage_onward _ (targetIconv codecs) flags t staged.length with ⟨_, space⟩ | stage
  · exact absurd unbounded space
  rw [atCd, usedEq, errnoEq, nextEq, outEq] at stage
  rw [finishTurn, stage] at turn
  simp only at turn
  rw [givesUp_target spec, if_neg Bool.false_ne_true] at turn
  obtain ⟨_, sameCd, sameDecomp, sameOut⟩ := fetchNext_fields
    { t with cd := some (.encode flags.ignoreErrors T state')
             utf8left := t.utf8left - (Encoding.call T.enc flags.ignoreErrors state bufSize t.pending).used
             out := t.out ++ ((Encoding.call T.enc flags.ignoreErrors state bufSize t.pending).text ++ flushed) } used
  obtain ⟨samePending, sameLeft, sameUtf8⟩ := fetchNext_pending
    { t with cd := some (.encode flags.ignoreErrors T state')
             utf8left := t.utf8left - (Encoding.call T.enc flags.ignoreErrors state bufSize t.pending).used
             out := t.out ++ ((Encoding.call T.enc flags.ignoreErrors state bufSize t.pending).text ++ flushed) } used
  have lost : NothingLost T flags.ignoreErrors D out text (fetchNext _ used) ↔ _ := nothingLost_at sameCd
  rw [sameOut, samePending, sameDecomp] at lost
  refine ⟨_, turn, ?_, lost.trans written, fun right => ⟨?_, ?_, fun none => ?_, lost.mpr (written.mpr right), ?_⟩⟩
  · have less := staged.less
    have positive := List.length_pos_iff.mpr staged.some
    rw [← staged.length] at positive
    rw [weight, sameDecomp, sameLeft]
    simp only
    omega
  · rw [sameUtf8]
    exact staged.cdUtf8
  · rw [sameLeft, samePending]
    exact (leftover_length staged.length _).symm
  · exact (fetchNext_fresh (by rwa [sameLeft] at none) used).input
  · rw [samePending]
    have left := spec.rest.mono
    rwa [← right.again] at left

/-- A turn in a sound state: the loop comes to another state, from which less is left
to do. That is sound too if the second stage goes on at the right place, and something
was lost in it if not. -/
theorem sound_turn (unbounded : flags.space = none) (sound : Sound T flags D out text s)
    (whole : Whole T.enc flags.ignoreErrors text) (going : ¬(s.input = [] ∧ s.utf8left = 0)) :
    ∃ t, tryTurn (targetIconv codecs) flags s = .inr t ∧ weight t < weight s ∧
      (NothingLost T flags.ignoreErrors D out text t ↔ RightAt codecs T flags s) ∧
      (RightAt codecs T flags s → Sound T flags D out text t) := by
  obtain ⟨t, used, errno, staged⟩ := @staged _ codecs _ _ _ _ _ _ sound going
  have turn : tryTurn (targetIconv codecs) flags s = finishTurn (targetIconv codecs) flags t used errno := by
    rw [tryTurn, if_neg going, staged.stage]
  cases errno with
  | some errno =>
    rw [finishTurn_error, staged.fine, if_neg Bool.false_ne_true] at turn
    obtain ⟨sameUtf8, sameCd, sameDecomp, sameOut⟩ := fetchNext_fields t used
    have left : t.utf8left ≠ 0 := fun none => staged.some (List.length_eq_zero_iff.mp (staged.length.symm.trans none))
    have shape : fetchNext t used = { t with decomp := t.decomp.skip used } := if_neg left
    have right : RightAt codecs T flags s := by
      intro t' used' state stage
      rw [staged.stage] at stage
      cases stage
    rw [shape] at turn
    exact ⟨_, turn, staged.progress (Option.some_ne_none _), iff_of_true staged.lost right,
      fun _ => ⟨staged.cdUtf8, staged.length, fun none => absurd none left, staged.lost, staged.whole⟩⟩
  | none => exact sound_output unbounded whole staged turn

theorem going_of_turn (turn : tryTurn (targetIconv codecs) flags s = .inr t) : ¬(s.input = [] ∧ s.utf8left = 0) := by
  intro done
  rw [tryTurn, if_pos done] at turn
  cases turn

/-- A run from a sound state in which every second stage goes on at the right place
stays sound. -/
theorem Sound.run {k : Nat} (unbounded : flags.space = none) (whole : Whole T.enc flags.ignoreErrors text)
    (sound : Sound T flags D out text s) (run : Loop.Turns (tryTurn (targetIconv codecs) flags) k s t)
    (right : ∀ k t, Loop.Turns (tryTurn (targetIconv codecs) flags) k s t → ¬(t.input = [] ∧ t.utf8left = 0) →
      RightAt codecs T flags t) : Sound T flags D out text t := by
  induction run with
  | refl => exact sound
  | turn first _ ih =>
    have going := going_of_turn first
    obtain ⟨next, turn, _, _, goesOn⟩ := @sound_turn _ codecs _ _ _ _ _ _ unbounded sound whole going
    rw [first] at turn
    cases turn
    exact ih (goesOn (right 0 _ .refl going)) fun k t rest => right (k + 1) t (.turn first rest)

/-- If nothing is lost in a run, every second stage in it goes on at the right place. -/
theorem Sound.right {k : Nat} (unbounded : flags.space = none) (whole : Whole T.enc flags.ignoreErrors text)
    (sound : Sound T flags D out text s) (run : Loop.Turns (tryTurn (targetIconv codecs) flags) k s t)
    (kept : ∀ k t, Loop.Turns (tryTurn (targetIconv codecs) flags) k s t →
      NothingLost T flags.ignoreErrors D out text t) (going : ¬(t.input = [] ∧ t.utf8left = 0)) :
    RightAt codecs T flags t := by
  induction run with
  | refl =>
    obtain ⟨next, turn, _, lost, _⟩ := @sound_turn _ codecs _ _ _ _ _ _ unbounded sound whole going
    exact lost.mp (kept 1 next (.turn turn .refl))
  | turn first _ ih =>
    obtain ⟨next, turn, _, lost, goesOn⟩ :=
        @sound_turn _ codecs _ _ _ _ _ _ unbounded sound whole (going_of_turn first)
    rw [first] at turn
    cases turn
    exact ih (goesOn (lost.mp (kept 1 _ (.turn first .refl))))
      (fun k t rest => kept (k + 1) t (.turn first rest)) going

/-- The loop ends, with all of the text converted. -/
theorem Sound.ends (unbounded : flags.space = none) (whole : Whole T.enc flags.ignoreErrors text)
    (sound : Sound T flags D out text s)
    (right : ∀ k t, Loop.Turns (tryTurn (targetIconv codecs) flags) k s t → ¬(t.input = [] ∧ t.utf8left = 0) →
      RightAt codecs T flags t) :
    ∃ n d' written, d'.remaining = [] ∧
      Encodes T.enc flags.ignoreErrors T.enc.initial text written T.enc.initial ∧
      tryLoop (targetIconv codecs) flags n s = some (.ok, d', out ++ written) := by
  generalize measure : weight s = m
  induction m using Nat.strong_induction_on generalizing s with
  | _ m ih =>
    by_cases done : s.input = [] ∧ s.utf8left = 0
    · obtain ⟨state, _, converted, written, rest, encodes, output, same, decodes, initial⟩ := sound.lost
      have nothing : s.decomp.remaining = [] := window_eq_nil.mp ((sound.fetched done.2).symm.trans done.1)
      have noText : s.pending = [] := List.length_eq_zero_iff.mp (sound.length.symm.trans done.2)
      rw [nothing] at decodes
      rw [noText, decodes.eq_nil, List.append_nil, List.append_nil] at same
      have ends : tryTurn (targetIconv codecs) flags s = .inl (.ok, s.decomp, s.out) := if_pos done
      refine ⟨1, s.decomp, written, nothing, ?_, ?_⟩
      · rw [same]
        rwa [initial noText nothing] at encodes
      · rw [← output]
        exact Loop.run_ends ends 0
    · obtain ⟨t, turn, less, _, goesOn⟩ := @sound_turn _ codecs _ _ _ _ _ _ unbounded sound whole done
      obtain ⟨n, d', written, nothing, encodes, run⟩ := ih _ (measure ▸ less) (goesOn (right 0 s .refl done))
        (fun k t rest => right (k + 1) t (.turn turn rest)) rfl
      exact ⟨n + 1, d', written, nothing, encodes, (Loop.run_turn turn n).trans run⟩

theorem sound_start {last : Bool} (decodes : Decodes D.1.1 d.remaining text) :
    Sound T ⟨last, ignore, none⟩ D out text (targetStart d last ignore D T out) where
  cdUtf8 := rfl
  length := rfl
  fetched _ := rfl
  lost := ⟨T.enc.initial, rfl, [], [], text, .nil, (List.append_nil _).symm, rfl, decodes, fun _ _ => rfl⟩
  whole := .nil

theorem tryIconv_target {code target : Bytes} {last : Bool} (other : isUtf8Target target = false)
    (known : codecs.decoders code = some D) (knownTarget : codecs.encoders target = some T) (turns : Nat) :
    tryIconv (targetIconv codecs) turns d code target last none out =
      tryLoop (targetIconv codecs) ⟨last, hasIgnore target, none⟩ turns
        (targetStart d last (hasIgnore target) D T out) := by
  rw [tryIconv, openBoth_target other known knownTarget]
  rfl

/-- A text is converted to a target other than UTF-8 once and in order if and only if
the target can represent it and every second stage goes on at the right place. -/
theorem convertsOnce_iff {code target : Bytes} {last : Bool} (other : isUtf8Target target = false)
    (known : codecs.decoders code = some D) (knownTarget : codecs.encoders target = some T)
    (decodes : Decodes D.1.1 d.remaining text) (out : Bytes) :
    ConvertsOnce codecs T D d code target last out text ↔
      Whole T.enc (hasIgnore target) text ∧ AlwaysGoesOnRight codecs T D d target last out := by
  have start := @sound_start _ T _ _ out _ (hasIgnore target) last decodes
  constructor
  · rintro ⟨kept, _, _, _, _, encodes, _⟩
    exact ⟨encodes.whole, fun k s run going => start.right rfl encodes.whole run kept going⟩
  · rintro ⟨whole, right⟩
    refine ⟨fun k s run => (start.run rfl whole run right).lost, ?_⟩
    obtain ⟨n, d', written, nothing, encodes, run⟩ := start.ends rfl whole right
    refine ⟨n, d', written, nothing, encodes, fun turns enough space roomy => ?_⟩
    have unbounded : tryIconv (targetIconv codecs) turns d code target last none out =
        some (.ok, d', out ++ written) := by
      obtain ⟨k, rfl⟩ := Nat.exists_eq_add_of_le enough
      rw [tryIconv_target other known knownTarget]
      exact Loop.run_mono run k
    cases bound : space with
    | none => exact unbounded
    | some max => exact (tryIconv_space unbounded).2.1 (roomy max bound)

/-- The number of a character in UTF-8. -/
def codePoint : Bytes → Nat
  | [b] => b.toNat
  | [b, b₁] => b.toNat % 32 * 64 + b₁.toNat % 64
  | [b, b₁, b₂] => (b.toNat % 16 * 64 + b₁.toNat % 64) * 64 + b₂.toNat % 64
  | [b, b₁, b₂, b₃] => ((b.toNat % 8 * 64 + b₁.toNat % 64) * 64 + b₂.toNat % 64) * 64 + b₃.toNat % 64
  | _ => 0

/-- UTF-32BE: four bytes a character. -/
def utf32Text (char : Bytes) : Bytes :=
  [UInt8.ofNat (codePoint char / 16777216), UInt8.ofNat (codePoint char / 65536),
    UInt8.ofNat (codePoint char / 256), UInt8.ofNat (codePoint char)]

def utf32Read (xs : Bytes) : Option (Nat × Bool) :=
  match utf8Next xs with
  | .char n _ => some (n, true)
  | _ => none

theorem utf32Read_eq {xs : Bytes} {n : Nat} {r : Bool} (read : utf32Read xs = some (n, r)) :
    r = true ∧ ∃ t, utf8Next xs = .char n t := by
  unfold utf32Read at read
  split at read
  · rename_i m t found
    cases read
    exact ⟨rfl, t, found⟩
  · cases read

def utf32Target : Target Unit where
  enc :=
    { initial := ()
      read := utf32Read
      put := fun _ char => (utf32Text char, ())
      reset := fun _ => []
      read_width := fun read => by
        obtain ⟨_, t, found⟩ := utf32Read_eq read
        exact utf8Decoder.char_width found
      read_stable := fun read ys => by
        obtain ⟨rfl, t, found⟩ := utf32Read_eq read
        have stable : utf8Next _ = .char _ t := utf8Decoder.char_stable found ys
        rw [utf32Read, stable] }
  fits := by
    intro s char
    exact Nat.le_trans (Nat.le_refl 4) (by decide)
  reads := @fun xs n t found => by
    have char : utf8Next xs = .char n t := found
    refine ⟨true, ?_⟩
    simp only [utf32Read, char]

/-- UTF-8 as a source encoding. -/
def utf8Text : TextCharset where
  val := utf8Charset
  property := @fun xs m t found => by
    obtain ⟨b, rest, n, low, high, rfl, lead, valid, rfl, rfl⟩ := utf8Next_char found
    obtain ⟨bound, stable⟩ := scanTail_valid valid
    have scan := stable []
    rw [List.append_nil] at scan
    have char : utf8Decoder.next (b :: rest.take n) = .char (n + 1) (b :: (rest.take n).take n) :=
      utf8Next_valid lead scan
    have whole := Decodes.char char (by
      rw [List.drop_succ_cons, List.drop_eq_nil_of_le (List.length_take_le _ _)]
      exact .nil)
    rwa [List.append_nil, List.take_take, Nat.min_self] at whole

def utf32Code : Bytes := ascii "UTF-32BE"

def utf32Codecs : TargetCodecs Unit where
  decoders code := if code = utf8Code then some utf8Text else none
  encoders code := if code = utf32Code then some utf32Target else none

theorem utf32_known : utf32Codecs.decoders utf8Code = some utf8Text ∧
    utf32Codecs.encoders utf32Code = some utf32Target ∧ isUtf8Target utf32Code = false ∧
    hasIgnore utf32Code = false := by
  refine ⟨?_, ?_, by decide, by decide⟩
  · simp [utf32Codecs]
  · simp [utf32Codecs]

/-- The state of the loop when it converts some text from UTF-8 to UTF-32. -/
def utf32State (buf : Bytes) (offset : Nat) (within : offset ≤ buf.length) (input utf8 : Bytes) (utf8left : Nat)
    (out : Bytes) : TryState (Descriptor Unit) where
  decomp := ⟨.pipeline, buf, offset, within⟩
  cdUtf8 := .decode false utf8Text
  cd := some (.encode false utf32Target ())
  input := input
  utf8 := utf8
  utf8left := utf8left
  out := out

theorem convertsOnce_iff_letter : ConvertsOnce utf32Codecs utf32Target utf8Text (.start .pipeline [97]) utf8Code
    utf32Code false [] [97] := by
  obtain ⟨known, knownTarget, other, strict⟩ := utf32_known
  have decodes : Decodes utf8Text.1.1 (Decompress.start .pipeline [97]).remaining ([97] ++ []) :=
    .char (n := 1) (t := [97]) rfl .nil
  refine (convertsOnce_iff other known knownTarget decodes []).mpr ⟨?_, ?_⟩
  · rw [strict]
    exact .char (n := 1) (r := true) rfl nofun .nil
  · have first : tryTurn (targetIconv utf32Codecs) ⟨false, false, none⟩
        (targetStart (.start .pipeline [97]) false false utf8Text utf32Target []) =
        .inr (utf32State [97] 1 (Nat.le_refl 1) [] [97] 0 [0, 0, 0, 97]) := rfl
    have stage : toUtf8Stage (targetIconv utf32Codecs) ⟨false, false, none⟩
        (targetStart (.start .pipeline [97]) false false utf8Text utf32Target []) =
        some (utf32State [97] 0 (Nat.zero_le 1) [97] [97] 1 [], 1, none) := rfl
    unfold AlwaysGoesOnRight
    rw [strict]
    intro k s run going
    cases run with
    | refl =>
      refine (rightAt_iff stage rfl).mpr ⟨rfl, fun _ complains => absurd rfl complains⟩
    | turn turn rest =>
      rw [first] at turn
      cases turn
      cases rest with
      | refl => exact absurd ⟨rfl, rfl⟩ going
      | turn turn _ => exact absurd ⟨rfl, rfl⟩ (going_of_turn turn)

/-- A text of which all but the last letter fits into the output buffer. -/
def longText : Bytes := List.replicate 16384 97 ++ [98]

/-- The first letters in UTF-32. -/
def longOutput (n : Nat) : Bytes := (List.replicate n [0, 0, 0, 97]).flatten

theorem utf32_letter : utf32Text [97] = [0, 0, 0, 97] := by decide

theorem letters_stop (n turns : Nat) (enough : n < turns) :
    Encoding.convert utf32Target.enc false turns () (4 * n) (List.replicate n 97 ++ [98]) =
      ⟨n, longOutput n, some .full, ()⟩ := by
  induction n generalizing turns with
  | zero =>
    obtain ⟨k, rfl⟩ := Nat.exists_eq_add_of_lt enough
    rfl
  | succ n ih =>
    obtain ⟨turns, rfl⟩ : ∃ k, turns = k + 1 := Nat.exists_eq_succ_of_ne_zero (by omega)
    have read : utf32Target.enc.read (97 :: (List.replicate n 97 ++ [98])) = some (1, true) := rfl
    have put : utf32Target.enc.put () ((97 :: (List.replicate n 97 ++ [98])).take 1) = ([0, 0, 0, 97], ()) :=
      congrArg (·, ()) utf32_letter
    have room : 4 * (n + 1) - 4 = 4 * n := by omega
    rw [List.replicate_succ, List.cons_append, Encoding.convert, read]
    simp only [put]
    rw [if_pos (by simp only [List.length_cons, List.length_nil]; omega),
      show ([0, 0, 0, 97] : Bytes).length = 4 from rfl, room, List.drop_succ_cons, List.drop_zero,
      ih turns (by omega), Encoding.Outcome.after, longOutput, longOutput, List.replicate_succ, List.flatten_cons,
      Nat.add_comm]

/-- The turns on a text of which the second stage leaves one byte. -/
theorem reread_turns {text output : Bytes} {n : Nat} (length : text.length = n + 1) (small : n < bufSize)
    (first : text.take 1 = [97]) (decoded : Decoding.call utf8Decoder false bufSize text = ⟨n + 1, text, none⟩)
    (stops : Encoding.call utf32Target.enc false () bufSize text = ⟨n, output, some .full, ()⟩) :
    ∃ d', tryLoop (targetIconv utf32Codecs) ⟨false, false, none⟩ 3
      (targetStart (.start .pipeline text) false false utf8Text utf32Target []) =
        some (.ok, d', output ++ [0, 0, 0, 97]) := by
  have window : text.take bufSize = text := List.take_of_length_le (by omega)
  have nonempty : text ≠ [] := by
    rintro rfl
    cases length
  have within : min (0 + (n + 1)) text.length = n + 1 := by omega
  have toUtf8 : (targetIconv utf32Codecs).iconv (.decode false utf8Text) text bufSize =
      ⟨n + 1, text, none, .decode false utf8Text⟩ := by
    simp only [targetIconv, show utf8Text.1.1 = utf8Decoder from rfl, decoded, Option.map_none]
  have onward : (targetIconv utf32Codecs).iconv (.encode false utf32Target ()) text bufSize =
      ⟨n, output, some .e2big, .encode false utf32Target ()⟩ := by
    simp only [targetIconv, stops, Option.map_some, stopErrno]
  have letter : (targetIconv utf32Codecs).iconv (.encode false utf32Target ()) [97] bufSize =
      ⟨1, [0, 0, 0, 97], none, .encode false utf32Target ()⟩ := rfl
  have all : text.take (n + 1) = text := List.take_of_length_le (by omega)
  have left : n + 1 - n = 1 := by omega
  have start : targetStart (.start .pipeline text) false false utf8Text utf32Target [] =
      ⟨.start .pipeline text, .decode false utf8Text, some (.encode false utf32Target ()), text, [], 0, []⟩ := by
    rw [targetStart, tryStart, decompressPeek, start_remaining, window]
  have turn₁ : tryTurn (targetIconv utf32Codecs) ⟨false, false, none⟩
      (targetStart (.start .pipeline text) false false utf8Text utf32Target []) =
      .inr ⟨(Decompress.start .pipeline text).skip (n + 1), .decode false utf8Text,
        some (.encode false utf32Target ()), text, text, 1, output⟩ := by
    rw [start]
    simp [tryTurn, nonempty, toUtf8Stage, toUtf8, rejects, finishTurn, outputStage, TryState.pending, length, onward,
      addSome_unbounded, givesUp, fetchNext, left, all]
  have consumed : ((Decompress.start .pipeline text).skip (n + 1)).remaining = [] := by
    rw [skip_remaining, start_remaining]
    exact List.drop_eq_nil_of_le (by omega)
  have flush : (targetIconv utf32Codecs).flush (.encode false utf32Target ()) bufSize =
      ([], .encode false utf32Target ()) := rfl
  have turn₂ : tryTurn (targetIconv utf32Codecs) ⟨false, false, none⟩
      ⟨(Decompress.start .pipeline text).skip (n + 1), .decode false utf8Text,
        some (.encode false utf32Target ()), text, text, 1, output⟩ =
      .inr ⟨(Decompress.start .pipeline text).skip (n + 1), .decode false utf8Text,
        some (.encode false utf32Target ()), [], text, 0, output ++ [0, 0, 0, 97]⟩ := by
    simp [tryTurn, toUtf8Stage, finishTurn, outputStage, TryState.pending, first, letter, addSome_unbounded, flush,
      givesUp, fetchNext, decompressPeek, consumed]
  have ends : tryTurn (targetIconv utf32Codecs) ⟨false, false, none⟩
      ⟨(Decompress.start .pipeline text).skip (n + 1), .decode false utf8Text,
        some (.encode false utf32Target ()), [], text, 0, output ++ [0, 0, 0, 97]⟩ =
      .inl (.ok, (Decompress.start .pipeline text).skip (n + 1), output ++ [0, 0, 0, 97]) := if_pos ⟨rfl, rfl⟩
  exact ⟨_, (Loop.run_turn turn₁ 2).trans ((Loop.run_turn turn₂ 1).trans (Loop.run_ends ends 0))⟩

/-- What the text should be converted to. -/
theorem longText_encodes (n : Nat) :
    Encodes utf32Target.enc false () (List.replicate n 97 ++ [98]) (longOutput n ++ [0, 0, 0, 98]) () := by
  induction n with
  | zero =>
    have letter : utf32Text [98] = [0, 0, 0, 98] := by decide
    have last : Encodes utf32Target.enc false () [98] (utf32Text [98] ++ []) () := .char (n := 1) rfl .nil
    rwa [List.append_nil, letter] at last
  | succ n ih =>
    have next : Encodes utf32Target.enc false () (97 :: (List.replicate n 97 ++ [98]))
        (utf32Text [97] ++ (longOutput n ++ [0, 0, 0, 98])) () := .char (n := 1) rfl ih
    rwa [utf32_letter, ← List.append_assoc] at next

/-- The last letter is lost, and the first is repeated. -/
theorem not_convertsOnce_longText :
    (∃ n d', tryIconv (targetIconv utf32Codecs) n (.start .pipeline longText) utf8Code utf32Code false none [] =
      some (.ok, d', longOutput 16384 ++ [0, 0, 0, 97])) ∧
    Decodes utf8Text.1.1 longText longText ∧ Whole utf32Target.enc false longText ∧
    ¬ConvertsOnce utf32Codecs utf32Target utf8Text (.start .pipeline longText) utf8Code utf32Code false []
      longText := by
  obtain ⟨known, knownTarget, other, strict⟩ := utf32_known
  have decodes : Decodes utf8Decoder longText longText :=
    (letters_decode 16384).append (.char (n := 1) (t := [98]) rfl .nil)
  have size : longText.length = 16384 + 1 := by
    rw [longText, List.length_append, List.length_replicate]
    rfl
  have decoded : Decoding.call utf8Decoder false bufSize longText = ⟨16384 + 1, longText, none⟩ := by
    rw [decodes.call_eq (by rw [size]; decide), size]
  have stops : Encoding.call utf32Target.enc false () bufSize longText = ⟨16384, longOutput 16384, some .full, ()⟩ :=
    letters_stop 16384 longText.length (by omega)
  obtain ⟨d', run⟩ := reread_turns size (by decide) rfl decoded stops
  have result : tryIconv (targetIconv utf32Codecs) 3 (.start .pipeline longText) utf8Code utf32Code false none [] =
      some (.ok, d', longOutput 16384 ++ [0, 0, 0, 97]) := by
    rw [tryIconv_target other known knownTarget, strict]
    exact run
  refine ⟨⟨3, d', result⟩, decodes, (longText_encodes 16384).whole, fun once => ?_⟩
  obtain ⟨n, d'', written, _, encodes, emits⟩ := once.emits
  have emitted := emits (n + 3) (Nat.le_add_right n 3) none nofun
  have repeated := Loop.run_mono run n
  rw [tryIconv_target other known knownTarget, strict, Nat.add_comm, tryLoop, repeated] at emitted
  rw [strict] at encodes
  have wrong := encodes.unique (fun _ => rfl) (longText_encodes 16384)
  simp only [Option.some.injEq, Prod.mk.injEq, List.nil_append] at emitted
  rw [← emitted.2.2] at wrong
  exact absurd (List.append_cancel_left wrong) (by decide)

end ManDb
