import ManDb.Manconv.Buffers

namespace ManDb

variable {σ : Type}

/-- The conversion of an input buffer by buffer, all of it to the end or up to a
buffer that is rejected: the text, each piece converted onward once and in order,
and the input that is left. -/
inductive Conversion (ic : Iconv σ) (flags : TryFlags) : σ → Option σ → Bytes → Bytes → Bytes → Prop
  | done {cdUtf8 cd} : Conversion ic flags cdUtf8 cd [] [] []
  | rejected {cdUtf8 cd input} : input ≠ [] →
      rejects flags.last (input.take bufSize) (ic.iconv cdUtf8 (input.take bufSize) bufSize).errno = true →
      Conversion ic flags cdUtf8 cd input [] input
  | buffer {cdUtf8 cd input r o text left} : Passes ic flags cdUtf8 cd (input.take bufSize) →
      r = ic.iconv cdUtf8 (input.take bufSize) bufSize → o = onward ic cd r.out →
      Conversion ic flags r.next o.next (input.drop r.used) text left →
      Conversion ic flags cdUtf8 cd input (o.out ++ text) left

/-- The conversion onward of some buffer stops before the end of its text. -/
inductive StopsShort (ic : Iconv σ) (flags : TryFlags) : σ → Option σ → Bytes → Prop
  | here {cdUtf8 cd input} : Passes ic flags cdUtf8 cd (input.take bufSize) →
      (onward ic cd (ic.iconv cdUtf8 (input.take bufSize) bufSize).out).used <
        (ic.iconv cdUtf8 (input.take bufSize) bufSize).out.length → StopsShort ic flags cdUtf8 cd input
  | later {cdUtf8 cd input r o} : Passes ic flags cdUtf8 cd (input.take bufSize) →
      r = ic.iconv cdUtf8 (input.take bufSize) bufSize → o = onward ic cd r.out →
      StopsShort ic flags r.next o.next (input.drop r.used) → StopsShort ic flags cdUtf8 cd input

variable {ic : Iconv σ} {flags : TryFlags} {s s' : TryState σ} {target : Bytes} {cdUtf8 : σ} {cd : Option σ}
  {input text text' left left' : Bytes}

theorem window_eq_nil : input.take bufSize = [] ↔ input = [] := by
  rw [List.take_eq_nil_iff]
  exact or_iff_right (by decide)

/-- A buffer of text that is written as it is. -/
theorem Conversion.buffer_utf8 (passes : Passes ic flags cdUtf8 none (input.take bufSize)) (r : IconvResult σ)
    (atR : ic.iconv cdUtf8 (input.take bufSize) bufSize = r)
    (rest : Conversion ic flags r.next none (input.drop r.used) text left) :
    Conversion ic flags cdUtf8 none input (r.out ++ text) left :=
      .buffer passes atR.symm (onward_utf8 r.out).symm rest

theorem Conversion.unique (first : Conversion ic flags cdUtf8 cd input text left)
    (second : Conversion ic flags cdUtf8 cd input text' left') : text = text' ∧ left = left' := by
  induction first generalizing text' with
  | done =>
    cases second with
    | done => exact ⟨rfl, rfl⟩
    | rejected some _ => exact absurd rfl some
    | buffer passes _ _ _ => exact absurd rfl passes.some
  | rejected some rejected =>
    cases second with
    | done => exact absurd rfl some
    | rejected _ _ => exact ⟨rfl, rfl⟩
    | buffer passes _ _ _ =>
      rw [passes.accepted] at rejected
      cases rejected
  | buffer passes atR atO _ ih =>
    cases second with
    | done => exact absurd rfl passes.some
    | rejected _ rejected =>
      rw [passes.accepted] at rejected
      cases rejected
    | buffer _ atR' atO' rest =>
      subst atR atO atR' atO'
      obtain ⟨rfl, rfl⟩ := ih rest
      exact ⟨rfl, rfl⟩

/-- What the result of a trial says about the conversion. -/
def Describes (ic : Iconv σ) (flags : TryFlags) (s : TryState σ) (d : Decompress) (out : Bytes) : Tried → Prop
  | .ok => ∃ text, Conversion ic flags s.cdUtf8 s.cd s.decomp.remaining text [] ∧ d.remaining = [] ∧
    out = s.out ++ text
  | .error => ∃ text, Conversion ic flags s.cdUtf8 s.cd s.decomp.remaining text d.remaining ∧ d.remaining ≠ [] ∧
      out = s.out ++ text
  | .fatal => ∀ text left, ¬Conversion ic flags s.cdUtf8 s.cd s.decomp.remaining text left
  | .outOfSpace => flags.space ≠ none

theorem Describes.of_follows {tried : Tried} {d : Decompress} {out : Bytes} (fresh : Fresh s)
    (passes : Passes ic flags s.cdUtf8 s.cd s.input) (follows : Follows ic s s')
    (describes : Describes ic flags s' d out tried) : Describes ic flags s d out tried := by
  have window : s.input = s.decomp.remaining.take bufSize := fresh.input
  have goesOn : ∀ {text left}, Conversion ic flags s'.cdUtf8 s'.cd s'.decomp.remaining text left →
      Conversion ic flags s.cdUtf8 s.cd s.decomp.remaining
        ((onward ic s.cd (ic.iconv s.cdUtf8 s.input bufSize).out).out ++ text) left := by
    intro text left conversion
    rw [follows.cdUtf8, follows.cd, follows.decomp, skip_remaining] at conversion
    rw [window] at passes conversion ⊢
    exact .buffer passes rfl rfl conversion
  cases tried with
  | ok =>
    obtain ⟨text, conversion, nothing, written⟩ := describes
    refine ⟨_, goesOn conversion, nothing, ?_⟩
    rw [written, follows.out, List.append_assoc]
  | error =>
    obtain ⟨text, conversion, some, written⟩ := describes
    refine ⟨_, goesOn conversion, some, ?_⟩
    rw [written, follows.out, List.append_assoc]
  | fatal =>
    intro text left conversion
    rw [Describes, follows.cdUtf8, follows.cd, follows.decomp, skip_remaining] at describes
    rw [window] at passes describes
    generalize s.decomp.remaining = rest at *
    cases conversion with
    | done => exact passes.some rfl
    | rejected _ rejected =>
      rw [passes.accepted] at rejected
      cases rejected
    | buffer _ atR atO rest =>
      subst atR atO
      exact describes _ _ rest
  | outOfSpace => exact describes

/-- A whole trial, unless it stops short. -/
theorem tryLoop_describes {turns : Nat} {tried : Tried} {d : Decompress} {out : Bytes} (fresh : Fresh s)
    (whole : ¬StopsShort ic flags s.cdUtf8 s.cd s.decomp.remaining)
    (run : tryLoop ic flags turns s = some (tried, d, out)) : Describes ic flags s d out tried := by
  induction turns using Nat.strong_induction_on generalizing s with
  | _ turns ih =>
    have window : s.input = s.decomp.remaining.take bufSize := fresh.input
    by_cases empty : s.input = []
    · have nothing : s.decomp.remaining = [] := window_eq_nil.mp (window.symm.trans empty)
      cases Loop.Turns.refl.ends_run (tryTurn_done fresh empty) run
      refine ⟨[], ?_, nothing, (List.append_nil _).symm⟩
      rw [nothing]
      exact .done
    · cases @bufferEnd _ ic flags s fresh empty with
      | rejected rejected ends =>
        cases Loop.Turns.refl.ends_run ends run
        have some : s.decomp.remaining ≠ [] := fun nothing => empty (window.trans (window_eq_nil.mpr nothing))
        rw [window] at rejected
        exact ⟨[], .rejected some rejected, some, (List.append_nil _).symm⟩
      | full space turns' ends =>
        cases turns'.ends_run ends run
        exact space
      | fatal accepted stops turns' ends =>
        cases turns'.ends_run ends run
        intro text left conversion
        rw [window] at accepted stops empty
        generalize s.decomp.remaining = rest at *
        cases conversion with
        | done => exact empty rfl
        | rejected _ rejected =>
          rw [accepted] at rejected
          cases rejected
        | buffer passes _ _ _ => exact stops passes
      | short passes short =>
        rw [window] at passes short
        exact absurd (.here passes short) whole
      | next passes _ turns' follows =>
        obtain ⟨m, rfl, rest⟩ := turns'.of_run run
        refine .of_follows fresh passes follows (ih m (by omega) follows.fresh (fun short => whole ?_) rest)
        rw [window] at passes
        refine .later passes rfl rfl ?_
        rw [← window, ← skip_remaining, ← follows.decomp, ← follows.cdUtf8, ← follows.cd]
        exact short

theorem Conversion.left_of_last (conversion : Conversion ic flags cdUtf8 cd input text left)
    (last : flags.last = true) :
    left = [] := by
  induction conversion with
  | done => rfl
  | rejected _ rejected =>
    rw [last] at rejected
    cases rejected
  | buffer _ _ _ _ ih => exact ih

theorem not_stopsShort_utf8 : ¬StopsShort ic flags cdUtf8 none input := by
  intro short
  generalize same : (none : Option σ) = cd at short
  induction short with
  | here _ less =>
    subst same
    exact absurd less (Nat.lt_irrefl _)
  | later _ _ atO _ ih =>
    subst same
    exact ih (by rw [atO, onward_utf8])

end ManDb
