import ManDb.CodingTag
import ManDb.Include

namespace ManDb

/-- The two back ends of the decompressor cannot be told apart on this content, by
any sequence of calls, by `ult_src` or by the first-line check of `manconv`. -/
structure BackEndsAgree (content : Bytes) : Prop where
  calls : ∀ calls, observe (.start .pipeline content) calls = observe (.start .inprocess content) calls
  directive : findIncludeDirective (.start .pipeline content) = findIncludeDirective (.start .inprocess content)
  encoding : ∀ loc toEncoding, checkPreprocessorEncoding loc (.start .pipeline content) toEncoding =
    checkPreprocessorEncoding loc (.start .inprocess content) toEncoding

/-- What is still to be read has no NUL and is terminated. -/
structure Plain (d : Decompress) : Prop where
  nulFree : 0 ∉ d.remaining
  terminated : Terminated d.remaining

variable {d d' : Decompress} {content : Bytes}

theorem Plain.skip (plain : Plain d) (len : Nat) : Plain (d.skip len) where
  nulFree := by
    rw [skip_remaining]
    exact fun member => plain.nulFree (List.mem_of_mem_drop member)
  terminated := by
    rw [skip_remaining]
    exact plain.terminated.drop len

theorem Alike.lineAt (alike : Alike d d') (plain : Plain d) :
    lineAt d.tag d.remaining = lineAt d'.tag d'.remaining := by
  rw [← alike.remaining]
  exact lineAt_terminated plain.terminated _ _

theorem Plain.lineCache (plain : Plain d) {tag : DecompressTag} {line : Bytes}
    (found : ManDb.lineAt tag d.remaining = some line) (tag' : DecompressTag) : lineCache tag' line = line := by
  obtain ⟨rest, whole, _⟩ := lineAt_mem found
  refine lineCache_nulFree fun member => plain.nulFree ?_
  rw [whole]
  exact List.mem_append_left _ member

theorem Alike.peekline (alike : Alike d d') (plain : Plain d) : decompressPeekline d = decompressPeekline d' := by
  unfold decompressPeekline
  rw [← alike.lineAt plain]
  cases found : ManDb.lineAt d.tag d.remaining with
  | none => rfl
  | some line => simp only [Option.map_some, plain.lineCache found]

theorem Alike.readline (alike : Alike d d') (plain : Plain d) :
    (decompressReadline d).1 = (decompressReadline d').1 ∧ Alike (decompressReadline d).2 (decompressReadline d').2 ∧
      Plain (decompressReadline d).2 := by
  unfold decompressReadline
  rw [← alike.lineAt plain]
  cases found : ManDb.lineAt d.tag d.remaining with
  | none => exact ⟨rfl, alike, plain⟩
  | some line =>
    simp only [plain.lineCache found, true_and]
    exact ⟨alike.skip _, plain.skip _⟩

/-- One call on both back ends at the same place. -/
theorem Alike.run (alike : Alike d d') (plain : Plain d) (call : Call) :
    (call.run d = none ∧ call.run d' = none) ∨
    ∃ result after after', call.run d = some (result, after) ∧ call.run d' = some (result, after') ∧
      Alike after after' ∧ Plain after := by
  cases call with
  | read len =>
    refine Or.inr ⟨_, _, _, rfl, ?_, alike.skip _, plain.skip _⟩
    simp only [Call.run, decompressRead, decompressPeek, alike.remaining]
  | peek len =>
    refine Or.inr ⟨_, _, _, rfl, ?_, alike, plain⟩
    simp only [Call.run, decompressPeek, alike.remaining]
  | peekSkip len =>
    simp only [Call.run, decompressPeekSkip, ← alike.remaining]
    split
    · exact Or.inr ⟨_, _, _, rfl, rfl, alike.skip _, plain.skip _⟩
    · exact Or.inl ⟨rfl, rfl⟩
  | readline =>
    obtain ⟨same, after, stays⟩ := alike.readline plain
    refine Or.inr ⟨(decompressReadline d).1, _, _, rfl, ?_, after, stays⟩
    rw [same]
    rfl
  | peekline =>
    refine Or.inr ⟨_, _, _, rfl, ?_, alike, plain⟩
    rw [Call.run, alike.peekline plain]

theorem observe_alike (alike : Alike d d') (plain : Plain d) (calls : List Call) :
    observe d calls = observe d' calls := by
  induction calls generalizing d d' with
  | nil => rfl
  | cons call calls ih =>
    unfold observe
    rcases alike.run plain call with ⟨failed, failed'⟩ | ⟨result, after, after', run, run', alike', plain'⟩
    · rw [failed, failed']
    · rw [run, run']
      simp only [ih alike' plain', alike'.offset]

theorem skipComments_alike (alike : Alike d d') (plain : Plain d) (turns : Nat) :
    skipComments turns d = skipComments turns d' := by
  induction turns generalizing d d' with
  | zero => rfl
  | succ turns ih =>
    obtain ⟨same, after, stays⟩ := alike.readline plain
    simp only [skipComments]
    cases read : decompressReadline d with
    | mk result next =>
      cases read' : decompressReadline d' with
      | mk result' next' =>
        rw [read, read'] at same after
        rw [read] at stays
        simp only at same
        subst same
        cases result with
        | none => rfl
        | some buffer => simp only [ih after stays]

/-- A last line without its newline is read by one back end only. -/
theorem observe_unterminated (open' : ¬Terminated content) :
    observe (.start .pipeline content) [.read (content.length - 1), .readline] ≠
      observe (.start .inprocess content) [.read (content.length - 1), .readline] := by
  have nonempty : content ≠ [] := fun empty => open' (Or.inl empty)
  obtain ⟨front, b, rfl⟩ : ∃ front b, content = front ++ [b] :=
    ⟨content.dropLast, content.getLast nonempty, (List.dropLast_append_getLast nonempty).symm⟩
  have other : b ≠ newline := by
    rintro rfl
    exact open' (Or.inr (by simp))
  have rest : ∀ tag, ((Decompress.start tag (front ++ [b])).skip front.length).remaining = [b] := by
    intro tag
    rw [skip_remaining, start_remaining, List.drop_left]
  have peeked : ∀ tag, decompressPeek (.start tag (front ++ [b])) ((front ++ [b]).length - 1) = front := by
    intro tag
    simp [decompressPeek]
  have cut : Separated.cut newline [b] = ([b], none) := Separated.cut_of_not_mem (by simpa using other.symm)
  have readP : decompressReadline ((Decompress.start .pipeline (front ++ [b])).skip front.length) =
      (some [b], ((Decompress.start .pipeline (front ++ [b])).skip front.length).skip 1) := by
    have found : lineAt .pipeline [b] = some [b] := by simp [lineAt, cut]
    simp only [decompressReadline, rest, show ((Decompress.start .pipeline (front ++ [b])).skip front.length).tag =
      .pipeline from rfl, found, lineCache, List.length_singleton]
  have readI : decompressReadline ((Decompress.start .inprocess (front ++ [b])).skip front.length) =
      (none, (Decompress.start .inprocess (front ++ [b])).skip front.length) := by
    have missing : lineAt .inprocess [b] = none := by simp [lineAt, cut]
    simp only [decompressReadline, rest, show ((Decompress.start .inprocess (front ++ [b])).skip front.length).tag =
      .inprocess from rfl, missing]
  simp only [observe, Call.run, decompressRead, peeked, readP, readI]
  simp

/-- On content without NULs the back ends agree precisely when the content is empty
or its last line has its newline. -/
theorem backEnds_agree_iff (nulFree : 0 ∉ content) : BackEndsAgree content ↔ Terminated content := by
  constructor
  · intro agree
    by_contra unterminated
    exact observe_unterminated unterminated (agree.calls _)
  · intro terminated
    have alike := alike_start .pipeline .inprocess content
    have plain : Plain (.start .pipeline content) := ⟨nulFree, terminated⟩
    refine ⟨observe_alike alike plain, ?_, fun loc toEncoding => ?_⟩
    · unfold findIncludeDirective
      rw [skipComments_alike alike plain, alike.remaining]
    · unfold checkPreprocessorEncoding
      rw [alike.peekline plain]

theorem backEnds_agree_iff_line : 0 ∉ ascii ".so man1/bar.1\n" ∧ BackEndsAgree (ascii ".so man1/bar.1\n") := by
  have nulFree : 0 ∉ ascii ".so man1/bar.1\n" := by decide
  exact ⟨nulFree, (backEnds_agree_iff nulFree).mpr (by decide)⟩

/-- A page that is one link by `.so` without a newline is a link in one form only. -/
theorem backEnds_differ_on_link :
    testForInclude (findIncludeDirective (.start .pipeline (ascii ".so man1/bar.1"))) = some (ascii "man1/bar.1") ∧
    testForInclude (findIncludeDirective (.start .inprocess (ascii ".so man1/bar.1"))) = none ∧
    0 ∉ ascii ".so man1/bar.1" ∧ ¬BackEndsAgree (ascii ".so man1/bar.1") := by
  refine ⟨by decide, by decide, by decide, fun agree => ?_⟩
  exact absurd agree.directive (by decide)

end ManDb
