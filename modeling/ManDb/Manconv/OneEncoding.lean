import ManDb.Manconv.Charsets
import ManDb.Manconv.Lossless
import ManDb.Manconv.Utf8

namespace ManDb

open Decoding (Decoder Decodes)

/-- The text is the decoding of all of the input under the first encoding of the list
that decodes it. -/
inductive FirstDecoding (charsets : Bytes → Option Charset) (input : Bytes) : List Bytes → Bytes → Prop
  | here {code codes D ts} : charsets code = some D → Decodes D.1 input ts →
      FirstDecoding charsets input (code :: codes) ts
  | later {code codes ts} : (∀ D, charsets code = some D → ¬∃ us, Decodes D.1 input us) →
      FirstDecoding charsets input codes ts → FirstDecoding charsets input (code :: codes) ts

/-- The page was decoded with one encoding: all of it with the first that can, if any
can; no two encodings contribute to the output; and none does that was rejected. -/
structure OneEncoding (charsets : Bytes → Option Charset) (input : Bytes) (codes : List Bytes) (c : Converted) :
    Prop where
  decoded : ∀ ts, FirstDecoding charsets input codes ts → c.ret = .success ∧ c.output = ts
  unmixed : c.parts.Pairwise fun first second => first.2 = [] ∨ second.2 = [] ∨ first.1 = second.1
  traceless : ∀ part ∈ c.parts.dropLast, part.2 = []

/-- The first conversion call, on at most the first buffer of input, already finds
that the encoding is not the right one. -/
def RejectsStart (D : Charset) (input : Bytes) : Prop :=
  (Decoding.call D.1 false bufSize (input.take bufSize)).stop = some .illegal ∨
  ((Decoding.call D.1 false bufSize (input.take bufSize)).stop = some .incomplete ∧ input.length < bufSize)

/-- Every encoding before the one that decodes the input, or else before the last
one, is rejected at the start. -/
def Steady (charsets : Bytes → Option Charset) (input : Bytes) : List Bytes → Prop
  | [] => True
  | code :: codes => codes = [] ∨ ∃ D, charsets code = some D ∧
      ((∃ ts, Decodes D.1 input ts) ∨ (RejectsStart D input ∧ Steady charsets input codes))

variable {codecs : Codecs} {flags : TryFlags} {D : Charset} {input ts target out : Bytes}
  {codes : List Bytes} {d d' : Decompress} {ret : ManconvRet} {parts : List (Bytes × Bytes)} {turns : Nat}

theorem rejectsStart_iff : RejectsStart D input ↔ rejects false (input.take bufSize)
    ((codecIconv codecs).iconv (false, D) (input.take bufSize) bufSize).errno = true := by
  have short : (input.take bufSize).length < bufSize ↔ input.length < bufSize := by
    rw [List.length_take]
    omega
  have errno : ((codecIconv codecs).iconv (false, D) (input.take bufSize) bufSize).errno =
      (Decoding.call D.1 false bufSize (input.take bufSize)).stop.map stopErrno := rfl
  unfold RejectsStart rejects
  rw [errno, ← stopErrno_illegal, ← stopErrno_incomplete, ← short]
  simp

/-- One trial of an encoding that is known. -/
theorem tryIconv_charset {code : Bytes} {tried : Tried} {out' : Bytes} (utf8 : isUtf8Target target = true)
    (known : codecs.decoders code = some D)
    (run : tryIconv (codecIconv codecs) turns d code target codes.isEmpty none out = some (tried, d', out')) :
    Describes (codecIconv codecs) (trialFlags target none codes) (tryStart d ((codes.isEmpty, D), none) out)
      d' out' tried := by
  have opens : openBoth (codecIconv codecs) code target codes.isEmpty = some ((codes.isEmpty, D), none) := by
    rw [openBoth_charset utf8, known]
    rfl
  exact tryIconv_describes opens not_stopsShort_utf8 run

theorem tryAll_parts_ne_nil {σ : Type} {ic : Iconv σ} {space : Option Nat} (nonempty : codes ≠ [])
    (run : tryAll ic turns target space codes d out = some (ret, d', parts)) : parts ≠ [] := by
  cases codes with
  | nil => exact absurd rfl nonempty
  | cons code codes =>
    obtain ⟨tried, d₁, out₁, _, goesOn⟩ := tryAll_cons run
    cases tried with
    | error =>
      obtain ⟨parts', _, rfl⟩ := goesOn
      exact nofun
    | _ =>
      rw [goesOn.2.2]
      exact nofun

/-- An encoding that decodes the input is the only one tried, wherever it stands first. -/
theorem tryAll_decoded {code : Bytes} (utf8 : isUtf8Target target = true) (known : codecs.decoders code = some D)
    (decodes : Decodes D.1 d.remaining ts)
    (run : tryAll (codecIconv codecs) turns target none (code :: codes) d out = some (ret, d', parts)) :
    ret = .success ∧ parts = [(code, ts)] := by
  obtain ⟨tried, d₁, out₁, trial, goesOn⟩ := tryAll_cons run
  have describes := tryIconv_charset utf8 known trial
  have whole : Conversion (codecIconv codecs) (trialFlags target none codes)
    (codes.isEmpty, D) none d.remaining ts [] :=
    decodes_conversion decodes
  cases tried with
  | outOfSpace => exact absurd rfl describes
  | fatal => exact absurd whole (describes _ _)
  | error =>
    obtain ⟨text, conversion, some, _⟩ := describes
    exact absurd (whole.unique conversion).2.symm some
  | ok =>
    obtain ⟨text, conversion, _, written⟩ := describes
    obtain ⟨rfl, _⟩ := whole.unique conversion
    obtain ⟨success, _, rfl⟩ := goesOn
    rw [written, show (tryStart d ((codes.isEmpty, D), none) out).out = out from rfl, List.drop_left]
    exact ⟨success, rfl⟩

/-- An encoding that is rejected at the start leaves everything as it was. -/
theorem tryAll_rejected {code : Bytes} (utf8 : isUtf8Target target = true) (known : codecs.decoders code = some D)
    (more : codes ≠ []) (rejected : RejectsStart D d.remaining)
    (run : tryAll (codecIconv codecs) turns target none (code :: codes) d out = some (ret, d', parts)) :
    ∃ parts', tryAll (codecIconv codecs) turns target none codes d out = some (ret, d', parts') ∧
      parts = (code, []) :: parts' := by
  obtain ⟨tried, d₁, out₁, trial, goesOn⟩ := tryAll_cons run
  have strict : codes.isEmpty = false := by simpa using more
  have nonempty : decompressPeek d bufSize ≠ [] := by
    intro empty
    rw [RejectsStart, ← decompressPeek, empty] at rejected
    rcases rejected with illegal | ⟨incomplete, _⟩
    · cases illegal
    · cases incomplete
  have opens : openBoth (codecIconv codecs) code target codes.isEmpty = some ((codes.isEmpty, D), none) := by
    rw [openBoth_charset utf8, known]
    rfl
  have ends : tryTurn (codecIconv codecs) ⟨codes.isEmpty, hasIgnore target, none⟩
      (tryStart d ((codes.isEmpty, D), none) out) = .inl (.error, d, out) := by
    refine tryTurn_rejected (fresh_tryStart _ _ _) nonempty ?_
    simp only [strict]
    exact rejectsStart_iff.mp rejected
  rw [tryIconv, opens] at trial
  cases Loop.Turns.refl.ends_run ends trial
  obtain ⟨parts', rest, rfl⟩ := goesOn
  rw [List.drop_length]
  exact ⟨parts', rest, rfl⟩

theorem tryAll_single {σ : Type} {ic : Iconv σ} {space : Option Nat} {code : Bytes}
    (run : tryAll ic turns target space [code] d out = some (ret, d', parts)) : ∃ text, parts = [(code, text)] := by
  obtain ⟨tried, d₁, out₁, _, goesOn⟩ := tryAll_cons run
  cases tried with
  | error =>
    obtain ⟨parts', rest, rfl⟩ := goesOn
    cases rest
    exact ⟨_, rfl⟩
  | _ => exact ⟨_, goesOn.2.2⟩

theorem FirstDecoding.split {code : Bytes} (known : codecs.decoders code = some D)
    (first : FirstDecoding codecs.decoders input (code :: codes) ts) :
    Decodes D.1 input ts ∨ FirstDecoding codecs.decoders input codes ts ∧ ¬∃ us, Decodes D.1 input us := by
  cases first with
  | here known' decodes =>
    rw [known, Option.some.injEq] at known'
    subst known'
    exact Or.inl decodes
  | later undecoded rest => exact Or.inr ⟨rest, undecoded D known⟩

theorem Steady.split {code : Bytes} (known : codecs.decoders code = some D) (more : codes ≠ [])
    (undecoded : ¬∃ us, Decodes D.1 input us) (steady : Steady codecs.decoders input (code :: codes)) :
    RejectsStart D input ∧ Steady codecs.decoders input codes := by
  rcases steady with last | ⟨D', known', rest⟩
  · exact absurd last more
  · rw [known, Option.some.injEq] at known'
    subst known'
    exact rest.resolve_left undecoded

/-- If the list is steady, only the last encoding tried writes anything, and what
it writes is the first decoding of the input if there is one. -/
theorem tryAll_steady (utf8 : isUtf8Target target = true) (known : ∀ code ∈ codes, codecs.decoders code ≠ none)
    (steady : Steady codecs.decoders d.remaining codes)
    (run : tryAll (codecIconv codecs) turns target none codes d out = some (ret, d', parts)) :
    (∀ part ∈ parts.dropLast, part.2 = []) ∧
    ∀ ts, FirstDecoding codecs.decoders d.remaining codes ts → ret = .success ∧ parts.flatMap Prod.snd = ts := by
  induction codes generalizing parts with
  | nil =>
    cases run
    exact ⟨nofun, nofun⟩
  | cons code codes ih =>
    obtain ⟨D, knownD⟩ := Option.ne_none_iff_exists'.mp (known code List.mem_cons_self)
    by_cases decoded : ∃ us, Decodes D.1 d.remaining us
    · obtain ⟨us, decodes⟩ := decoded
      obtain ⟨success, rfl⟩ := tryAll_decoded utf8 knownD decodes run
      refine ⟨nofun, fun ts first => ⟨success, ?_⟩⟩
      rcases first.split knownD with decodes' | ⟨_, undecoded⟩
      · simp [decodes.unique decodes']
      · exact absurd ⟨us, decodes⟩ undecoded
    have later : ∀ {ts}, FirstDecoding codecs.decoders d.remaining (code :: codes) ts →
        FirstDecoding codecs.decoders d.remaining codes ts := by
      intro ts first
      rcases first.split knownD with decodes | ⟨rest, _⟩
      · exact absurd ⟨ts, decodes⟩ decoded
      · exact rest
    by_cases more : codes = []
    · subst more
      obtain ⟨text, rfl⟩ := tryAll_single run
      exact ⟨nofun, fun ts first => nomatch later first⟩
    · obtain ⟨rejected, steady'⟩ := steady.split knownD more decoded
      obtain ⟨parts', rest, rfl⟩ := tryAll_rejected utf8 knownD more rejected run
      obtain ⟨traceless, whole⟩ := ih (fun code' member => known code' (List.mem_cons_of_mem _ member)) steady' rest
      refine ⟨fun part member => ?_, fun ts first => whole ts (later first)⟩
      rw [List.dropLast_cons_of_ne_nil (tryAll_parts_ne_nil more rest), List.mem_cons] at member
      rcases member with rfl | member
      · rfl
      · exact traceless part member

/-- If only the last encoding tried writes anything, the list is steady. -/
theorem steady_of_traceless (utf8 : isUtf8Target target = true) (known : ∀ code ∈ codes, codecs.decoders code ≠ none)
    (run : tryAll (codecIconv codecs) turns target none codes d out = some (ret, d', parts))
    (traceless : ∀ part ∈ parts.dropLast, part.2 = []) : Steady codecs.decoders d.remaining codes := by
  induction codes generalizing d out parts with
  | nil => trivial
  | cons code codes ih =>
    by_cases more : codes = []
    · exact Or.inl more
    have strict : codes.isEmpty = false := by simpa using more
    obtain ⟨D, knownD⟩ := Option.ne_none_iff_exists'.mp (known code List.mem_cons_self)
    obtain ⟨tried, d₁, out₁, trial, goesOn⟩ := tryAll_cons run
    have describes := tryIconv_charset utf8 knownD trial
    refine Or.inr ⟨D, knownD, ?_⟩
    cases tried with
    | outOfSpace => exact absurd rfl describes
    | ok =>
      obtain ⟨text, conversion, _⟩ := describes
      rw [tryStart, strict] at conversion
      obtain ⟨front, whole, decodes⟩ := conversion.strict
      rw [List.append_nil] at whole
      exact Or.inl ⟨text, whole ▸ decodes⟩
    | fatal =>
      obtain ⟨text, left, conversion⟩ :=
        @strict_total codecs (trialFlags target none codes) strict D d.remaining
      rw [← strict] at conversion
      exact absurd conversion (describes _ _)
    | error =>
      obtain ⟨parts', rest, rfl⟩ := goesOn
      obtain ⟨text, conversion, some, written⟩ := describes
      rw [List.dropLast_cons_of_ne_nil (tryAll_parts_ne_nil more rest)] at traceless
      have silent := traceless _ List.mem_cons_self
      rw [written, show (tryStart d ((codes.isEmpty, D), none) out).out = out from rfl, List.drop_left] at silent
      simp only at silent
      subst silent
      rw [tryStart, strict] at conversion
      obtain ⟨same, rejected⟩ := conversion.silent strict some
      refine Or.inr ⟨rejectsStart_iff.mpr rejected, ?_⟩
      rw [← show d₁.remaining = d.remaining from same]
      exact ih (fun code' member => known code' (List.mem_cons_of_mem _ member)) rest
        (fun part member => traceless part (List.mem_cons_of_mem _ member))

/-- If at most the last part has a text, no two parts have. -/
theorem pairwise_of_traceless (traceless : ∀ part ∈ parts.dropLast, part.2 = []) :
    parts.Pairwise fun first second => first.2 = [] ∨ second.2 = [] ∨ first.1 = second.1 := by
  induction parts with
  | nil => exact .nil
  | cons part parts ih =>
    by_cases empty : parts = []
    · subst empty
      exact List.pairwise_singleton _ _
    · rw [List.dropLast_cons_of_ne_nil empty] at traceless
      refine .cons (fun _ _ => Or.inl (traceless part List.mem_cons_self)) (ih fun other member => ?_)
      exact traceless other (List.mem_cons_of_mem _ member)

theorem tryIconv_mono {σ : Type} {ic : Iconv σ} {code : Bytes} {last : Bool} {space : Option Nat}
    {result : Tried × Decompress × Bytes} (run : tryIconv ic turns d code target last space out = some result)
    (k : Nat) :
    tryIconv ic (turns + k) d code target last space out = some result := by
  unfold tryIconv at run ⊢
  split
  · rename_i unopened
    rw [unopened] at run
    exact run
  · rename_i cds opens
    rw [opens] at run
    exact Loop.run_mono run k

theorem tryAll_mono {σ : Type} {ic : Iconv σ} {space : Option Nat}
    {result : ManconvRet × Decompress × List (Bytes × Bytes)}
    (run : tryAll ic turns target space codes d out = some result) (k : Nat) :
    tryAll ic (turns + k) target space codes d out = some result := by
  induction codes generalizing d out result with
  | nil => exact run
  | cons code codes ih =>
    obtain ⟨ret, d', parts⟩ := result
    obtain ⟨tried, d₁, out₁, trial, goesOn⟩ := tryAll_cons run
    refine tryAll_of_trial (tryIconv_mono trial k) ?_
    cases tried with
    | error =>
      obtain ⟨parts', rest, rfl⟩ := goesOn
      exact ⟨parts', ih rest, rfl⟩
    | _ => exact goesOn

/-- All trials come to an end. -/
theorem tryAll_returns (utf8 : isUtf8Target target = true) (codes : List Bytes) (d : Decompress) (out : Bytes) :
    ∃ turns result, tryAll (codecIconv codecs) turns target none codes d out = some result := by
  induction codes generalizing d out with
  | nil => exact ⟨0, _, rfl⟩
  | cons code codes ih =>
    obtain ⟨n, ⟨tried, d₁, out₁⟩, trial⟩ : ∃ turns result,
        tryIconv (codecIconv codecs) turns d code target codes.isEmpty none out = some result := by
      unfold tryIconv
      rw [openBoth_charset utf8]
      cases codecs.decoders code with
      | none => exact ⟨0, _, rfl⟩
      | some D => exact tryLoop_returns (fresh_tryStart d ((codes.isEmpty, D), none) out) rfl rfl
    obtain ⟨m, ⟨ret, d', parts⟩, rest⟩ := ih d₁ out₁
    have longer := tryIconv_mono trial m
    cases tried with
    | error =>
      have rest' := tryAll_mono rest n
      rw [Nat.add_comm] at rest'
      exact ⟨n + m, _, tryAll_of_trial longer ⟨parts, rest', rfl⟩⟩
    | _ => exact ⟨n + m, _, tryAll_of_trial longer ⟨rfl, rfl, rfl⟩⟩

/-- On a page without a coding tag `manconv` always returns, and has decoded the page
with one encoding precisely if the list of encodings is steady on it. -/
theorem oneEncoding_iff_steady {loc : Locale} (utf8 : isUtf8Target target = true)
    (untagged : checkPreprocessorEncoding loc d (target.takeWhile (· ≠ slash)) = none)
    (known : ∀ code ∈ codes, codecs.decoders code ≠ none) :
    (∃ turns c, manconv loc (codecIconv codecs) turns d codes target none = some c) ∧
    ∀ turns c, manconv loc (codecIconv codecs) turns d codes target none = some c →
      (OneEncoding codecs.decoders d.remaining codes c ↔ Steady codecs.decoders d.remaining codes) := by
  constructor
  · obtain ⟨turns, result, run⟩ := @tryAll_returns codecs _ utf8 codes d []
    exact ⟨turns, _, by rw [manconv_untagged untagged, run]; rfl⟩
  · intro turns c run
    rw [manconv_untagged untagged, Option.map_eq_some_iff] at run
    obtain ⟨⟨ret, d', parts⟩, run, rfl⟩ := run
    constructor
    · exact fun one => steady_of_traceless utf8 known run one.traceless
    · intro steady
      obtain ⟨traceless, decoded⟩ := tryAll_steady utf8 known steady run
      exact ⟨decoded, pairwise_of_traceless traceless, traceless⟩

def latin1Code : Bytes := ascii "ISO-8859-1"

/-- An `iconv` that knows UTF-8 and ISO-8859-1. -/
def westernCodecs : Codecs where
  decoders code := if code = utf8Code then some utf8Charset else if code =
    latin1Code then some latin1Charset else none
  encoders _ := none

theorem western_utf8 : westernCodecs.decoders utf8Code = some utf8Charset := rfl

theorem western_latin1 : westernCodecs.decoders latin1Code = some latin1Charset := by
  have other : latin1Code ≠ utf8Code := by decide
  simp [westernCodecs, other]

theorem oneEncoding_iff_steady_latin1 : ∃ turns c,
    manconv .posix (codecIconv westernCodecs) turns (.start .pipeline [0xE9]) [utf8Code,
      latin1Code] utf8Code none = some c ∧
    OneEncoding westernCodecs.decoders [0xE9] [utf8Code, latin1Code] c := by
  have steady : Steady westernCodecs.decoders [0xE9] [utf8Code, latin1Code] :=
    Or.inr ⟨utf8Charset, western_utf8, Or.inr ⟨Or.inr ⟨by decide +kernel, by decide⟩, Or.inl rfl⟩⟩
  obtain ⟨⟨turns, c, run⟩, one⟩ := @oneEncoding_iff_steady westernCodecs utf8Code [utf8Code, latin1Code]
    (.start .pipeline [0xE9]) .posix (by decide) (by decide +kernel) (by decide +kernel)
  exact ⟨turns, c, run, (one turns c run).mpr steady⟩

/-- A buffer full of UTF-8. -/
def utf8Buffer : Bytes := List.replicate 65534 97 ++ [0xC3, 0xA9]

/-- After it comes a byte that is not UTF-8. -/
def mixedPage : Bytes := utf8Buffer ++ [0xE9]

theorem letters_decode (n : Nat) : Decodes utf8Decoder (List.replicate n 97) (List.replicate n 97) := by
  induction n with
  | zero => exact .nil
  | succ n ih =>
    rw [List.replicate_succ]
    exact .char (n := 1) (t := [97]) rfl ih

theorem utf8Buffer_decodes : Decodes utf8Decoder utf8Buffer utf8Buffer :=
  (letters_decode 65534).append (.char (n := 2) (t := [0xC3, 0xA9]) rfl .nil)

theorem utf8Buffer_length : utf8Buffer.length = bufSize := by
  rw [utf8Buffer, List.length_append, List.length_replicate]
  rfl

/-- The strict trial of UTF-8 on the mixed page writes the first buffer before the
page is rejected. -/
theorem mixedPage_conversion {flags : TryFlags} (strict : flags.last = false) :
    Conversion (codecIconv westernCodecs) flags (false, utf8Charset) none mixedPage utf8Buffer [0xE9] := by
  have window : mixedPage.take bufSize = utf8Buffer := by
    rw [← utf8Buffer_length]
    exact List.take_left
  have call : Decoding.call utf8Decoder false bufSize utf8Buffer = ⟨bufSize, utf8Buffer, none⟩ := by
    rw [utf8Buffer_decodes.call_eq (Nat.le_of_eq utf8Buffer_length), utf8Buffer_length]
  have result : (codecIconv westernCodecs).iconv (false, utf8Charset) utf8Buffer bufSize =
      ⟨bufSize, utf8Buffer, none, (false, utf8Charset)⟩ := by
    simp only [codecIconv, utf8Charset, call, Option.map_none]
  have nonempty : utf8Buffer ≠ [] := by
    intro empty
    have size := utf8Buffer_length
    rw [empty] at size
    cases size
  have passes : Passes (codecIconv westernCodecs) flags (false, utf8Charset) none (mixedPage.take bufSize) := by
    rw [window]
    refine ⟨nonempty, ?_, ?_, rfl⟩
    · rw [result]
      simp [rejects]
    · rw [result, givesUp_none]
  have rest : Conversion (codecIconv westernCodecs) flags (false, utf8Charset) none [0xE9] [] [0xE9] := by
    refine .rejected (List.cons_ne_nil _ _) ?_
    rw [strict]
    decide +kernel
  have whole := Conversion.buffer_utf8 passes _ (by rw [window, result]) (by
    rw [← utf8Buffer_length, mixedPage, List.drop_left]
    exact rest)
  rwa [List.append_nil] at whole

/-- The trials on the mixed page. -/
theorem mixedPage_parts {turns : Nat} {ret : ManconvRet} {d' : Decompress} {parts : List (Bytes × Bytes)}
    (run : tryAll (codecIconv westernCodecs) turns utf8Code none [utf8Code, latin1Code]
      (.start .pipeline mixedPage) [] =
      some (ret, d', parts)) : parts = [(utf8Code, utf8Buffer), (latin1Code, [0xC3, 0xA9])] := by
  have utf8 : isUtf8Target utf8Code = true := by decide
  obtain ⟨tried, d₁, out₁, trial, goesOn⟩ := tryAll_cons run
  have describes := tryIconv_charset utf8 western_utf8 trial
  have first := @mixedPage_conversion (trialFlags utf8Code none [latin1Code]) rfl
  cases tried with
  | outOfSpace => exact absurd rfl describes
  | fatal => exact absurd first (describes _ _)
  | ok =>
    obtain ⟨text, conversion, _⟩ := describes
    cases (first.unique conversion).2
  | error =>
    obtain ⟨text, conversion, _, written⟩ := describes
    obtain ⟨rfl, left⟩ := first.unique conversion
    obtain ⟨parts', rest, rfl⟩ := goesOn
    have letter : Decodes latin1Decoder d₁.remaining [0xC3, 0xA9] := by
      rw [← left]
      exact .char (n := 1) (t := [0xC3, 0xA9]) rfl .nil
    rw [written, (tryAll_decoded utf8 western_latin1 letter rest).2]
    rfl

/-- The second encoding goes on where the first was rejected. -/
theorem manconv_mixes_encodings : ∃ turns c,
    manconv .posix (codecIconv westernCodecs) turns (.start .pipeline mixedPage) [utf8Code,
      latin1Code] utf8Code none =
      some c ∧ c.parts = [(utf8Code, utf8Buffer), (latin1Code, [0xC3, 0xA9])] ∧
    ¬OneEncoding westernCodecs.decoders mixedPage [utf8Code, latin1Code] c := by
  have utf8 : isUtf8Target utf8Code = true := by decide
  have starts : (Decompress.start .pipeline mixedPage).remaining =
    97 :: (List.replicate 65533 97 ++ [0xC3, 0xA9] ++ [0xE9]) := rfl
  obtain ⟨turns, ⟨ret, d', parts⟩, run⟩ := @tryAll_returns westernCodecs _ utf8 [utf8Code, latin1Code]
    (.start .pipeline mixedPage) []
  have mixed := mixedPage_parts run
  refine ⟨turns, ⟨ret, d', [], parts⟩, ?_, mixed, fun one => ?_⟩
  · rw [manconv, untagged_of_head starts (by decide) (by decide), run]
    rfl
  · have unmixed := one.unmixed
    simp only [mixed, List.pairwise_cons, List.mem_singleton, forall_eq] at unmixed
    rcases unmixed.1 with empty | empty | same
    · have size := utf8Buffer_length
      rw [empty] at size
      cases size
    · cases empty
    · exact absurd same (by decide)

end ManDb
