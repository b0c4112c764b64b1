import ManDb.Manconv.Client
import ManDb.Manconv.OneEncoding
import ManDb.Manconv.Retag
import ManDb.Manconv.Space

namespace ManDb

open Decoding (Decodes)

/-- What the first-line check of a conversion to this target finds. -/
def firstLine (loc : Locale) (tag : DecompressTag) (content target : Bytes) : Option (Bytes × Option Bytes) :=
  checkPreprocessorEncoding loc (.start tag content) ((ignoring target).takeWhile (· ≠ slash))

/-- If the pipeline succeeds, so does the conversion in process, and leaves its output
in the buffer. -/
def Agrees {σ : Type} (loc : Locale) (ic : Iconv σ) (content source target : Bytes) : Prop :=
  ∀ turns output, pipelinePath loc ic turns content source target = some (some output) →
    ∃ d, manconvInprocess loc ic turns (.start .inprocess content) source target = some (.success, d) ∧ d.buf = output

/-- The two ways have the same to do: the first line looks the same to both; content
that is valid UTF-8 has no tag of another encoding; and content that is not is rejected
as UTF-8 at the start, if it is tried. -/
structure Uniform (loc : Locale) (codecs : Codecs) (content source target : Bytes) : Prop where
  seen : firstLine loc .inprocess content target = firstLine loc .pipeline content target
  valid : source ≠ utf8Code → target = utf8Code → utf8ValidateLen content = true →
    firstLine loc .pipeline content target = none ∨ ∃ ppEncoding,
      firstLine loc .pipeline content target = some (ppEncoding, none) ∧ codecs.decoders ppEncoding = some utf8Charset
  invalid : source ≠ utf8Code → target = utf8Code → utf8ValidateLen content = false →
    firstLine loc .pipeline content target = none → RejectsStart utf8Charset content

variable {σ : Type} {ic : Iconv σ} {codecs : Codecs} {loc : Locale} {turns : Nat}
  {content source target output : Bytes}
  {codes : List Bytes} {c : Converted}

/-- A line that the check finds a tag on ends for both back ends at the same place. -/
theorem readline_retag {toEncoding : Bytes}
    (tagged : checkPreprocessorEncoding loc (.start .inprocess content) toEncoding ≠ none) :
    (decompressReadline (.start .inprocess content)).2 =
      (decompressReadline (.start .pipeline content)).2.retag .inprocess := by
  unfold decompressReadline
  simp only [start_remaining, start_tag]
  cases shape : Separated.cut newline content with
  | mk line rest =>
    cases rest with
    | some rest =>
      have same : ∀ tag, lineAt tag content = some (line ++ [newline]) := by
        intro tag
        simp [lineAt, shape]
      rw [same, same]
      rfl
    | none =>
      refine absurd ?_ tagged
      have missing : lineAt .inprocess content = none := by simp [lineAt, shape]
      simp [checkPreprocessorEncoding, decompressPeekline, missing]

/-- The conversion in process with some encodings, and without a bound on the space
for the pipeline. -/
theorem inprocess_of_manconv (seen : firstLine loc .inprocess content target = firstLine loc .pipeline content target)
    (tries : inprocessCodes content source target = some codes)
    (run : manconv loc ic turns (.start .pipeline content) codes (ignoring target) none = some c)
    (success : c.ret = .success) :
    (∃ d, manconvInprocess loc ic turns (.start .inprocess content) source target = some (.success, d) ∧
      d.buf = c.output) ↔ Roomy (content.length * 4) [] c.output := by
  have line : firstLine loc .pipeline content target ≠ none → (decompressReadline (.start .inprocess content)).2 =
      (decompressReadline (.start .pipeline content)).2.retag .inprocess := by
    intro tagged
    rw [← seen] at tagged
    exact readline_retag tagged
  have retagged := @manconv_retag _ ic .inprocess loc turns (.start .pipeline content) codes (ignoring target) none
    seen line
  rw [run] at retagged
  obtain ⟨same, full⟩ := @manconv_space _ _ (content.length * 4) _ _ _ _ _ _ retagged
  unfold manconvInprocess convertBuffer
  rw [show (Decompress.start .inprocess content).buf = content from rfl, tries]
  simp only
  constructor
  · rintro ⟨d, runs, _⟩
    by_contra notRoomy
    obtain ⟨c', run', ret⟩ := full notRoomy
    rw [show (Decompress.start .inprocess content) = (Decompress.start .pipeline content).retag .inprocess from rfl,
      run', Option.map_some, if_neg (by rw [ret]; decide), ret] at runs
    cases runs
  · intro roomy
    rw [show (Decompress.start .inprocess content) = (Decompress.start .pipeline content).retag .inprocess from rfl,
      same roomy, Option.map_some, if_pos (show (c.retag .inprocess).ret = .success from success)]
    exact ⟨_, rfl, rfl⟩

theorem utf8_ignoring : isUtf8Target (ignoring utf8Code) = true := by decide

/-- The plan does not depend on the list if there is a tag. -/
theorem manconv_tagged {d : Decompress} {space : Option Nat} (codes codes' : List Bytes)
    (tagged : checkPreprocessorEncoding loc d (target.takeWhile (· ≠ slash)) ≠ none) :
    manconv loc ic turns d codes target space = manconv loc ic turns d codes' target space := by
  unfold manconv
  cases check : checkPreprocessorEncoding loc d (target.takeWhile (· ≠ slash)) with
  | none => exact absurd check tagged
  | some tag =>
    obtain ⟨ppEncoding, modified⟩ := tag
    cases modified <;> rfl

/-- The command of the pipeline has an output only where `manconv` succeeds. -/
theorem manconv_of_output {d : Decompress} {space : Option Nat}
    (run : ((manconv loc ic turns d codes target space).map fun c =>
      if c.ret = .success then some c.output else none) =
      some (some output)) :
    ∃ c, manconv loc ic turns d codes target space = some c ∧ c.ret = .success ∧ c.output = output := by
  rw [Option.map_eq_some_iff] at run
  obtain ⟨c, converts, result⟩ := run
  split at result
  · exact ⟨c, converts, by assumption, Option.some.inj result⟩
  · cases result

/-- Content that is valid UTF-8 comes out of the pipeline as it is. -/
theorem pipelinePath_valid (known : codecs.decoders utf8Code = some utf8Charset)
    (other : source ≠ utf8Code) (valid : utf8ValidateLen content = true)
    (untagged : firstLine loc .pipeline content utf8Code = none ∨ ∃ ppEncoding,
      firstLine loc .pipeline content utf8Code = some (ppEncoding, none) ∧
        codecs.decoders ppEncoding = some utf8Charset)
    (run : pipelinePath loc (codecIconv codecs) turns content source utf8Code = some (some output)) :
      output = content := by
  have decodes : Decodes utf8Charset.1 (Decompress.start .pipeline content).remaining content :=
    ((utf8ValidateLen_iff content).mp valid).2
  have trials : ∀ (code : Bytes) (codes : List Bytes) (c : Converted), codecs.decoders code = some utf8Charset →
      c.line = [] ∧ tryAll (codecIconv codecs) turns (ignoring utf8Code) none (code :: codes)
        (.start .pipeline content) [] = some (c.ret, c.decomp, c.parts) → c.output = content := by
    rintro code codes c knownCode ⟨line, trials⟩
    rw [Converted.output, line, (tryAll_decoded utf8_ignoring knownCode decodes trials).2]
    simp
  unfold pipelinePath addManconv at run
  simp only [if_neg other] at run
  obtain ⟨c, converts, _, rfl⟩ := manconv_of_output run
  unfold manconv at converts
  rcases untagged with untagged | ⟨ppEncoding, tagged, knownTag⟩
  · rw [firstLine] at untagged
    rw [untagged] at converts
    exact trials utf8Code [source] c known (tryAll_of_converted converts)
  · rw [firstLine] at tagged
    simp only [tagged, tryTag_eq] at converts
    exact trials ppEncoding [] c knownTag (tryAll_of_converted converts)

/-- Where UTF-8 is tried first it is rejected, and leaves no trace. -/
theorem manconv_rejects_utf8 (known : codecs.decoders utf8Code = some utf8Charset) {c : Converted}
    (tagged : firstLine loc .pipeline content utf8Code = none)
    (rejected : RejectsStart utf8Charset (Decompress.start .pipeline content).remaining)
    (converts : manconv loc (codecIconv codecs) turns (.start .pipeline content) (utf8Code :: source :: codes)
      (ignoring utf8Code) none = some c) :
    ∃ c', manconv loc (codecIconv codecs) turns (.start .pipeline content) (source :: codes)
      (ignoring utf8Code) none = some c' ∧ c'.ret = c.ret ∧ c'.output = c.output := by
  rw [firstLine] at tagged
  rw [manconv_untagged tagged] at converts
  obtain ⟨line, trials⟩ := tryAll_of_converted converts
  obtain ⟨parts', rest, parts⟩ := tryAll_rejected utf8_ignoring known (List.cons_ne_nil _ _) rejected trials
  refine ⟨⟨c.ret, c.decomp, [], parts'⟩, ?_, rfl, ?_⟩
  · rw [manconv_untagged tagged, rest]
    rfl
  · simp [Converted.output, line, parts]

/-- The pipeline gives what `manconv` gives with the encodings that are tried in process. -/
theorem pipelinePath_inprocessCodes (known : codecs.decoders utf8Code = some utf8Charset)
    (uniform : Uniform loc codecs content source target) (tries : inprocessCodes content source target = some codes)
    (run : pipelinePath loc (codecIconv codecs) turns content source target = some (some output)) :
    ∃ c, manconv loc (codecIconv codecs) turns (.start .pipeline content) codes (ignoring target) none = some c ∧
      c.ret = .success ∧ c.output = output := by
  unfold inprocessCodes at tries
  unfold pipelinePath addManconv at run
  by_cases alike : source = target
  · rw [if_pos alike] at tries
    cases tries
  rw [if_neg alike] at tries run
  by_cases utf8 : source = utf8Code
  · rw [if_pos utf8, Option.some.injEq] at tries
    subst tries
    rw [if_pos utf8] at run
    exact manconv_of_output run
  rw [if_neg utf8] at tries run
  obtain ⟨c, converts, success, rfl⟩ := manconv_of_output run
  by_cases targeted : target = utf8Code
  · rw [if_pos targeted] at tries
    split at tries
    · cases tries
    · rename_i invalid
      cases tries
      by_cases tagged : firstLine loc .pipeline content target = none
      · have rejected : RejectsStart utf8Charset (Decompress.start .pipeline content).remaining :=
          uniform.invalid utf8 targeted (Bool.eq_false_iff.mpr invalid) tagged
        subst targeted
        obtain ⟨c', converts', ret, output⟩ := manconv_rejects_utf8 known tagged rejected converts
        exact ⟨c', converts', ret.trans success, output⟩
      · refine ⟨c, ?_, success, rfl⟩
        rw [← converts]
        exact manconv_tagged _ _ tagged
  · rw [if_neg targeted, Option.some.injEq] at tries
    subst tries
    exact ⟨c, converts, success, rfl⟩

/-- Where the two ways have the same to do they agree precisely if the output, where
there is one to be written in process, is smaller than four times the content. -/
theorem inprocess_agrees_iff (known : codecs.decoders utf8Code = some utf8Charset)
    (uniform : source ≠ target → Uniform loc codecs content source target) :
    Agrees loc (codecIconv codecs) content source target ↔
      ∀ turns output, inprocessCodes content source target ≠ none →
        pipelinePath loc (codecIconv codecs) turns content source target = some (some output) →
        Roomy (content.length * 4) [] output := by
  by_cases alike : source = target
  · have nothing : inprocessCodes content source target = none := if_pos alike
    have passes : ∀ turns, pipelinePath loc (codecIconv codecs) turns content source target = some
      (some content) := by
      intro turns
      rw [pipelinePath, addManconv, if_pos alike]
    refine iff_of_true (fun turns output run => ?_) (fun _ _ tries => absurd nothing tries)
    rw [passes, Option.some.injEq, Option.some.injEq] at run
    refine ⟨.start .inprocess content, ?_, run⟩
    rw [manconvInprocess, show (Decompress.start .inprocess content).buf = content from rfl, nothing]
  · cases tries : inprocessCodes content source target with
    | none =>
      -- only valid UTF-8 is left alone
      refine iff_of_true (fun turns output run => ?_) (fun _ _ tries => absurd rfl tries)
      refine ⟨.start .inprocess content, ?_, ?_⟩
      · rw [manconvInprocess, show (Decompress.start .inprocess content).buf = content from rfl, tries]
      · unfold inprocessCodes at tries
        rw [if_neg alike] at tries
        split at tries
        · cases tries
        · rename_i other
          split at tries
          · rename_i targeted
            split at tries
            · rename_i valid
              subst targeted
              exact (pipelinePath_valid known other valid ((uniform alike).valid other rfl valid) run).symm
            · cases tries
          · cases tries
    | some codes =>
      constructor
      · intro agrees turns output _ run
        obtain ⟨c, converts, success, rfl⟩ := pipelinePath_inprocessCodes known (uniform alike) tries run
        exact (inprocess_of_manconv (uniform alike).seen tries converts success).mp (agrees turns _ run)
      · intro roomy turns output run
        obtain ⟨c, converts, success, rfl⟩ := pipelinePath_inprocessCodes known (uniform alike) tries run
        exact (inprocess_of_manconv (uniform alike).seen tries converts success).mpr (roomy turns _ nofun run)

theorem inprocess_agrees_iff_line :
    Agrees .posix (codecIconv westernCodecs) (ascii ".TH foo 1\n") latin1Code utf8Code := by
  have uniform : latin1Code ≠ utf8Code → Uniform .posix westernCodecs (ascii ".TH foo 1\n") latin1Code utf8Code :=
    fun _ => ⟨by decide +kernel, fun _ _ _ => Or.inl (by decide +kernel),
      fun _ _ invalid => absurd invalid (by decide +kernel)⟩
  refine (inprocess_agrees_iff western_utf8 uniform).mpr fun _ _ tries => absurd ?_ tries
  decide +kernel

/-- A page that is valid UTF-8 and has the tag of another encoding. -/
def latin1Page : Bytes := ascii "'\\\" -*- coding: ISO-8859-1 -*-\n" ++ [0xC3, 0xA9, 10]

/-- In process the page is left alone, the pipeline converts it and rewrites its tag. -/
theorem inprocess_ignores_tag :
    pipelinePath .posix (codecIconv westernCodecs) 9 latin1Page latin1Code utf8Code =
      some (some (ascii "'\\\" -*- coding: UTF-8 -*-\n" ++ [0xC3, 0x83, 0xC2, 0xA9, 10])) ∧
    (∀ turns, manconvInprocess .posix (codecIconv westernCodecs) turns
      (.start .inprocess latin1Page) latin1Code utf8Code =
      some (.success, .start .inprocess latin1Page)) ∧
    ¬Agrees .posix (codecIconv westernCodecs) latin1Page latin1Code utf8Code := by
  have piped : pipelinePath .posix (codecIconv westernCodecs) 9 latin1Page latin1Code utf8Code =
      some (some (ascii "'\\\" -*- coding: UTF-8 -*-\n" ++ [0xC3, 0x83, 0xC2, 0xA9, 10])) := by
    decide +kernel
  have codes : inprocessCodes latin1Page latin1Code utf8Code = none := by decide +kernel
  have unchanged : ∀ turns, manconvInprocess .posix (codecIconv westernCodecs) turns (.start .inprocess latin1Page)
      latin1Code utf8Code = some (.success, .start .inprocess latin1Page) := by
    intro turns
    rw [manconvInprocess, show (Decompress.start .inprocess latin1Page).buf = latin1Page from rfl, codes]
  refine ⟨piped, unchanged, fun agrees => ?_⟩
  obtain ⟨d, left, same⟩ := agrees 9 _ piped
  rw [unchanged] at left
  cases left
  exact absurd same (by decide +kernel)

end ManDb
