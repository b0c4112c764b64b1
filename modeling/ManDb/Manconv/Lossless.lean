import ManDb.Manconv.Client
import ManDb.Manconv.Conversion

namespace ManDb

variable {σ : Type} {ic : Iconv σ} {target input : Bytes}

/-- The flags of a trial, where so many encodings follow. -/
def trialFlags (target : Bytes) (space : Option Nat) (codes : List Bytes) : TryFlags :=
  ⟨codes.isEmpty, hasIgnore target, space⟩

/-- The parts of the input that the encodings of a list are tried on, each with its
conversion, and the input that is left at the end. -/
inductive Chain (ic : Iconv σ) (target : Bytes) (space : Option Nat) :
    List Bytes → Bytes → List (Bytes × Bytes) → Bytes → Prop
  | nothing {input : Bytes} : Chain ic target space [] input [] input
  | settled {code codes cds} {input text : Bytes} : openBoth ic code target codes.isEmpty = some cds →
      Conversion ic (trialFlags target space codes) cds.1 cds.2 input text [] →
      Chain ic target space (code :: codes) input [(code, text)] []
  | unopened {code codes parts} {input left : Bytes} : openBoth ic code target codes.isEmpty = none →
      Chain ic target space codes input parts left →
      Chain ic target space (code :: codes) input ((code, []) :: parts) left
  | rejected {code codes cds mid parts} {input text left : Bytes} : openBoth ic code target codes.isEmpty = some cds →
      Conversion ic (trialFlags target space codes) cds.1 cds.2 input text mid → mid ≠ [] →
      Chain ic target space codes mid parts left →
      Chain ic target space (code :: codes) input ((code, text) :: parts) left

/-- The encodings run out before the input does: each one cannot be opened or
rejects some of it. -/
inductive RunsOut (ic : Iconv σ) (target : Bytes) (space : Option Nat) : List Bytes → Bytes → Prop
  | nothing {input : Bytes} : input ≠ [] → RunsOut ic target space [] input
  | unopened {code codes} {input : Bytes} : openBoth ic code target codes.isEmpty = none →
      RunsOut ic target space codes input → RunsOut ic target space (code :: codes) input
  | rejected {code codes cds} {input text left : Bytes} : openBoth ic code target codes.isEmpty = some cds →
      Conversion ic (trialFlags target space codes) cds.1 cds.2 input text left → left ≠ [] →
      RunsOut ic target space codes left → RunsOut ic target space (code :: codes) input

/-- The conversion onward stops short in one of the trials. -/
inductive LosesText (ic : Iconv σ) (target : Bytes) (space : Option Nat) : List Bytes → Bytes → Prop
  | here {code codes cds} {input : Bytes} : openBoth ic code target codes.isEmpty = some cds →
      StopsShort ic (trialFlags target space codes) cds.1 cds.2 input →
        LosesText ic target space (code :: codes) input
  | unopened {code codes} {input : Bytes} : openBoth ic code target codes.isEmpty = none →
      LosesText ic target space codes input → LosesText ic target space (code :: codes) input
  | rejected {code codes cds} {input text left : Bytes} : openBoth ic code target codes.isEmpty = some cds →
      Conversion ic (trialFlags target space codes) cds.1 cds.2 input text left → left ≠ [] →
      LosesText ic target space codes left → LosesText ic target space (code :: codes) input

theorem fresh_tryStart (d : Decompress) (cds : σ × Option σ) (out : Bytes) : Fresh (tryStart d cds out) := ⟨rfl, rfl⟩

/-- One trial of an encoding that can be opened. -/
theorem tryIconv_describes {turns : Nat} {d d' : Decompress} {code : Bytes} {codes : List Bytes} {space : Option Nat}
    {out out' : Bytes} {tried : Tried} {cds : σ × Option σ} (opens : openBoth ic code target codes.isEmpty = some cds)
    (whole : ¬StopsShort ic (trialFlags target space codes) cds.1 cds.2 d.remaining)
    (run : tryIconv ic turns d code target codes.isEmpty space out = some (tried, d', out')) :
    Describes ic (trialFlags target space codes) (tryStart d cds out) d' out' tried := by
  unfold tryIconv at run
  rw [opens] at run
  exact tryLoop_describes (fresh_tryStart d cds out) whole run

/-- How the trials of a list go on after the first one. -/
def GoesOn (ic : Iconv σ) (turns : Nat) (target : Bytes) (space : Option Nat) (codes : List Bytes)
    (part : Bytes × Bytes)
    (d₁ : Decompress) (out₁ : Bytes) (ret : ManconvRet) (d' : Decompress) (parts : List (Bytes × Bytes)) :
      Tried → Prop
  | .ok => ret = .success ∧ d' = d₁ ∧ parts = [part]
  | .fatal => ret = .failure ∧ d' = d₁ ∧ parts = [part]
  | .outOfSpace => ret = .outOfSpace ∧ d' = d₁ ∧ parts = [part]
  | .error => ∃ parts', tryAll ic turns target space codes d₁ out₁ = some (ret, d', parts') ∧ parts = part :: parts'

theorem tryAll_cons {turns : Nat} {space : Option Nat} {code : Bytes} {codes : List Bytes} {d d' : Decompress}
    {out : Bytes} {ret : ManconvRet} {parts : List (Bytes × Bytes)}
    (run : tryAll ic turns target space (code :: codes) d out = some (ret, d', parts)) :
    ∃ tried d₁ out₁, tryIconv ic turns d code target codes.isEmpty space out = some (tried, d₁, out₁) ∧
      GoesOn ic turns target space codes (code, out₁.drop out.length) d₁ out₁ ret d' parts tried := by
  unfold tryAll at run
  cases trial : tryIconv ic turns d code target codes.isEmpty space out with
  | none => simp [trial] at run
  | some result =>
    obtain ⟨tried, d₁, out₁⟩ := result
    simp only [trial, Option.bind_eq_bind, Option.bind_some, Option.pure_def] at run
    refine ⟨tried, d₁, out₁, rfl, ?_⟩
    cases tried with
    | ok =>
      cases run
      exact ⟨rfl, rfl, rfl⟩
    | fatal =>
      cases run
      exact ⟨rfl, rfl, rfl⟩
    | outOfSpace =>
      cases run
      exact ⟨rfl, rfl, rfl⟩
    | error =>
      cases rest : tryAll ic turns target space codes d₁ out₁ with
      | none => simp [rest] at run
      | some result =>
        simp only [rest, Option.bind_some, Option.some.injEq] at run
        cases run
        exact ⟨_, rest, rfl⟩

theorem tryAll_of_trial {turns : Nat} {space : Option Nat} {code : Bytes} {codes : List Bytes} {d d' d₁ : Decompress}
    {out out₁ : Bytes} {ret : ManconvRet} {parts : List (Bytes × Bytes)} {tried : Tried}
    (trial : tryIconv ic turns d code target codes.isEmpty space out = some (tried, d₁, out₁))
    (goesOn : GoesOn ic turns target space codes (code, out₁.drop out.length) d₁ out₁ ret d' parts tried) :
    tryAll ic turns target space (code :: codes) d out = some (ret, d', parts) := by
  unfold tryAll
  rw [trial]
  cases tried with
  | error =>
    obtain ⟨parts', rest, rfl⟩ := goesOn
    simp only [Option.bind_eq_bind, Option.bind_some, rest]
    rfl
  | _ =>
    obtain ⟨rfl, rfl, rfl⟩ := goesOn
    rfl

theorem runsOut_unopened {space : Option Nat} {code : Bytes} {codes : List Bytes}
    (opens : openBoth ic code target codes.isEmpty = none) :
    RunsOut ic target space (code :: codes) input ↔ RunsOut ic target space codes input := by
  refine ⟨?_, .unopened opens⟩
  rintro (_ | ⟨_, rest⟩ | ⟨opened, _⟩)
  · exact rest
  · rw [opens] at opened
    cases opened

/-- The encodings run out after one that can be opened only if it rejects the input. -/
theorem RunsOut.opened {space : Option Nat} {code : Bytes} {codes : List Bytes} {cds : σ × Option σ}
    (opens : openBoth ic code target codes.isEmpty = some cds) (out : RunsOut ic target space (code :: codes) input) :
    ∃ text left, Conversion ic (trialFlags target space codes) cds.1 cds.2 input text left ∧ left ≠ [] ∧
      RunsOut ic target space codes left := by
  rcases out with _ | ⟨unopened, _⟩ | ⟨opened, conversion, some, rest⟩
  · rw [opens] at unopened
    cases unopened
  · rw [opens] at opened
    cases opened
    exact ⟨_, _, conversion, some, rest⟩

theorem runsOut_rejected {space : Option Nat} {code : Bytes} {codes : List Bytes} {cds : σ × Option σ}
    {text left : Bytes}
    (opens : openBoth ic code target codes.isEmpty = some cds)
    (conversion : Conversion ic (trialFlags target space codes) cds.1 cds.2 input text left) (some : left ≠ []) :
    RunsOut ic target space (code :: codes) input ↔ RunsOut ic target space codes left := by
  refine ⟨fun out => ?_, .rejected opens conversion some⟩
  obtain ⟨text', left', conversion', _, rest⟩ := out.opened opens
  rwa [(conversion.unique conversion').2]

/-- What a trial of an encoding list comes to, unless it loses text: either it ends
well, with all parts converted, and input is left precisely if the encodings run
out; or it ends with an error, and they do not. -/
theorem tryAll_chain {turns : Nat} {space : Option Nat} {codes : List Bytes} {d d' : Decompress} {out : Bytes}
    {ret : ManconvRet} {parts : List (Bytes × Bytes)} (whole : ¬LosesText ic target space codes d.remaining)
    (run : tryAll ic turns target space codes d out = some (ret, d', parts)) (returns : ret ≠ .outOfSpace) :
    (ret = .success ∧ Chain ic target space codes d.remaining parts d'.remaining ∧
      (d'.remaining ≠ [] ↔ RunsOut ic target space codes d.remaining)) ∨
    (ret = .failure ∧ ¬RunsOut ic target space codes d.remaining) := by
  induction codes generalizing d out parts with
  | nil =>
    cases run
    refine Or.inl ⟨rfl, .nothing, .nothing, ?_⟩
    rintro (some | _)
    exact some
  | cons code codes ih =>
    obtain ⟨tried, d₁, out₁, trial, goesOn⟩ := tryAll_cons run
    cases opens : openBoth ic code target codes.isEmpty with
    | none =>
      have failed : tryIconv ic turns d code target codes.isEmpty space out = some (.error, d, out) := by
        rw [tryIconv, opens]
      rw [failed] at trial
      cases trial
      obtain ⟨parts', rest, rfl⟩ := goesOn
      rw [runsOut_unopened opens, List.drop_length]
      rcases ih (fun lost => whole (.unopened opens lost)) rest with ⟨success, chain, left⟩ | failure
      · exact Or.inl ⟨success, .unopened opens chain, left⟩
      · exact Or.inr failure
    | some cds =>
      have describes := tryIconv_describes opens (fun short => whole (.here opens short)) trial
      cases tried with
      | outOfSpace => exact absurd goesOn.1 returns
      | fatal =>
        refine Or.inr ⟨goesOn.1, fun out => ?_⟩
        obtain ⟨text, left, conversion, _⟩ := out.opened opens
        exact describes _ _ conversion
      | ok =>
        obtain ⟨success, rfl, rfl⟩ := goesOn
        obtain ⟨text, conversion, nothing, written⟩ := describes
        refine Or.inl ⟨success, ?_, fun some => absurd nothing some, fun out => ?_⟩
        · rw [nothing, written, show (tryStart d cds out).out = out from rfl, List.drop_left]
          exact .settled opens conversion
        · obtain ⟨text', left, conversion', some, _⟩ := out.opened opens
          exact absurd (conversion.unique conversion').2.symm some
      | error =>
        obtain ⟨parts', rest, rfl⟩ := goesOn
        obtain ⟨text, conversion, some, written⟩ := describes
        rw [show RunsOut ic target space (code :: codes) d.remaining ↔ RunsOut ic target space codes d₁.remaining from
          runsOut_rejected opens conversion some]
        rcases ih (fun lost => whole (.rejected opens conversion some lost)) rest with ⟨success, chain,
          left⟩ | failure
        · refine Or.inl ⟨success, ?_, left⟩
          rw [written, show (tryStart d cds out).out = out from rfl, List.drop_left]
          exact .rejected opens conversion some chain
        · exact Or.inr failure

/-- The encodings do not run out if the last of them can be opened. -/
theorem not_runsOut {space : Option Nat} {codes : List Bytes} {code : Bytes}
    (opens : openBoth ic code target true ≠ none) : ¬RunsOut ic target space (codes ++ [code]) input := by
  intro out
  induction codes generalizing input with
  | nil =>
    rcases out with _ | ⟨unopened, _⟩ | ⟨_, conversion, some, _⟩
    · exact opens unopened
    · exact some (conversion.left_of_last rfl)
  | cons first codes ih =>
    rcases out with _ | ⟨_, rest⟩ | ⟨_, _, _, rest⟩
    · exact ih rest
    · exact ih rest

theorem openBoth_utf8 {code : Bytes} {last : Bool} {cds : σ × Option σ} (utf8 : isUtf8Target target = true)
    (opens : openBoth ic code target last = some cds) : cds.2 = none := by
  unfold openBoth at opens
  split at opens
  · cases opens
  · rw [if_pos utf8] at opens
    cases opens
    rfl

/-- If the target is UTF-8 nothing is converted onward. -/
theorem not_losesText_utf8 {space : Option Nat} {codes : List Bytes} (utf8 : isUtf8Target target = true) :
    ¬LosesText ic target space codes input := by
  intro lost
  induction lost with
  | here opens short =>
    rw [openBoth_utf8 utf8 opens] at short
    exact not_stopsShort_utf8 short
  | unopened _ _ ih => exact ih
  | rejected _ _ _ _ ih => exact ih

/-- What `manconv` sets out to do: the rewritten first line, the encodings to be
tried, and where the input starts. -/
structure Plan where
  line : Bytes
  codes : List Bytes
  decomp : Decompress

def manconvPlan (loc : Locale) (decomp : Decompress) (codes : List Bytes) (target : Bytes) : Plan :=
  match checkPreprocessorEncoding loc decomp (target.takeWhile (· ≠ slash)) with
  | some (ppEncoding, none) => ⟨[], [ppEncoding], decomp⟩
  | some (ppEncoding, some modifiedPpLine) => ⟨modifiedPpLine, [ppEncoding], (decompressReadline decomp).2⟩
  | none => ⟨[], codes, decomp⟩

theorem tryTag_eq (turns : Nat) (d : Decompress) (ppEncoding : Bytes) (space : Option Nat) (line : Bytes) :
    tryTag ic turns d ppEncoding target space line =
      (tryAll ic turns target space [ppEncoding] d line).map fun (ret, d, parts) => ⟨ret, d, line, parts⟩ := by
  simp only [tryTag, tryAll, List.isEmpty_nil]
  cases tryIconv ic turns d ppEncoding target true space line with
  | none => rfl
  | some result =>
    obtain ⟨tried, d', out⟩ := result
    cases tried <;> rfl

/-- Without a coding tag there are only the trials. -/
theorem manconv_untagged {loc : Locale} {turns : Nat} {d : Decompress} {codes : List Bytes} {space : Option Nat}
    (untagged : checkPreprocessorEncoding loc d (target.takeWhile (· ≠ slash)) = none) :
    manconv loc ic turns d codes target space =
      (tryAll ic turns target space codes d []).map fun (ret, d, parts) => ⟨ret, d, [], parts⟩ := by
  rw [manconv, untagged]

theorem tryAll_of_converted {turns : Nat} {d : Decompress} {codes : List Bytes} {space : Option Nat} {line : Bytes}
    {c : Converted} (run : ((tryAll ic turns target space codes d line).map
      fun (ret, d, parts) => (⟨ret, d, line, parts⟩ : Converted)) = some c) :
    c.line = line ∧ tryAll ic turns target space codes d line = some (c.ret, c.decomp, c.parts) := by
  rw [Option.map_eq_some_iff] at run
  obtain ⟨⟨ret, d', parts⟩, trials, rfl⟩ := run
  exact ⟨rfl, trials⟩

/-- Unless the process ends, `manconv` carries out its plan. -/
theorem manconv_plan {loc : Locale} {turns : Nat} {d : Decompress} {codes : List Bytes} {space : Option Nat}
    {c : Converted} (run : manconv loc ic turns d codes target space = some c) (returns : c.ret ≠ .outOfSpace) :
    c.line = (manconvPlan loc d codes target).line ∧
    tryAll ic turns target space (manconvPlan loc d codes target).codes (manconvPlan loc d codes target).decomp
      (manconvPlan loc d codes target).line = some (c.ret, c.decomp, c.parts) := by
  unfold manconv at run
  unfold manconvPlan
  cases tagged : checkPreprocessorEncoding loc d (target.takeWhile (· ≠ slash)) with
  | none =>
    rw [tagged] at run
    exact tryAll_of_converted run
  | some tag =>
    obtain ⟨ppEncoding, modified⟩ := tag
    cases modified with
    | none =>
      simp only [tagged, tryTag_eq] at run
      exact tryAll_of_converted run
    | some modifiedPpLine =>
      simp only [tagged, tryTag_eq] at run
      rcases addOutput_eq ⟨true, false, space⟩ [] modifiedPpLine with ⟨full, _⟩ | added
      · simp only [full, Option.some.injEq] at run
        subst run
        exact absurd rfl returns
      · simp only [added, List.nil_append] at run
        exact tryAll_of_converted run

/-- Nothing was lost: all of the input was consumed, and after the rewritten first
line, if any, its conversion was emitted. -/
structure Lossless (ic : Iconv σ) (target : Bytes) (space : Option Nat) (plan : Plan) (c : Converted) : Prop where
  consumed : c.decomp.remaining = []
  line : c.line = plan.line
  emitted : Chain ic target space plan.codes plan.decomp.remaining c.parts []

/-- What `manconv` comes to, unless it loses text. -/
theorem manconv_cases {loc : Locale} {turns : Nat} {d : Decompress} {codes : List Bytes} {space : Option Nat}
    {c : Converted} (run : manconv loc ic turns d codes target space = some c) (returns : c.ret ≠ .outOfSpace)
    (whole : ¬LosesText ic target space (manconvPlan loc d codes target).codes
      (manconvPlan loc d codes target).decomp.remaining) :
    (c.ret = .success ∧ (Lossless ic target space (manconvPlan loc d codes target) c ↔
      ¬RunsOut ic target space (manconvPlan loc d codes target).codes
        (manconvPlan loc d codes target).decomp.remaining)) ∨
    (c.ret = .failure ∧ ¬RunsOut ic target space (manconvPlan loc d codes target).codes
      (manconvPlan loc d codes target).decomp.remaining) := by
  obtain ⟨line, trials⟩ := manconv_plan run returns
  rcases tryAll_chain whole trials returns with ⟨success, chain, left⟩ | failure
  · refine Or.inl ⟨success, fun lossless out => left.mpr out lossless.consumed, fun settles => ?_⟩
    have consumed : c.decomp.remaining = [] := by
      by_contra some
      exact settles (left.mp some)
    rw [consumed] at chain
    exact ⟨consumed, line, chain⟩
  · exact Or.inr failure

/-- A page that is recoded in place is then the old one or the whole of it converted. -/
theorem recodeInPlace_lossless {loc : Locale} {turns : Nat} {content source target page : Bytes} {codes : List Bytes}
    {ignoring : Bytes} (adds : addManconv source target = some (codes, ignoring))
    (whole : ¬LosesText ic ignoring none (manconvPlan loc (.start .pipeline content) codes ignoring).codes
      (manconvPlan loc (.start .pipeline content) codes ignoring).decomp.remaining)
    (settles : ¬RunsOut ic ignoring none (manconvPlan loc (.start .pipeline content) codes ignoring).codes
      (manconvPlan loc (.start .pipeline content) codes ignoring).decomp.remaining)
    (run : recodeInPlace loc ic turns content source target = some page) :
    page = content ∨ ∃ c, Lossless ic ignoring none (manconvPlan loc (.start .pipeline content) codes ignoring) c ∧
      page = c.output := by
  unfold recodeInPlace pipelinePath at run
  simp only [adds, Option.map_map, Option.map_eq_some_iff] at run
  obtain ⟨c, converts, result⟩ := run
  simp only [Function.comp_apply] at result
  split at result
  · rename_i success
    have returns : c.ret ≠ .outOfSpace := by
      rw [success]
      decide
    rcases manconv_cases converts returns whole with ⟨_, lossless⟩ | ⟨failure, _⟩
    · exact Or.inr ⟨c, lossless.mpr settles, result.symm⟩
    · rw [failure] at success
      cases success
  · exact Or.inl result.symm

/-- An `iconv` that knows these encodings, on texts in ASCII. -/
def asciiIconv (known : List Bytes) : Iconv Unit where
  iconvOpen _ fromcode := if fromcode ∈ known then some () else none
  iconv _ input room := ⟨(input.take room).length, input.take room,
    if input.length ≤ room then none else some .e2big, ()⟩
  flush _ _ := ([], ())
  used_le _ input room := by
    rw [List.length_take]
    exact Nat.min_le_right _ _
  out_le _ input room := by
    rw [List.length_take]
    exact Nat.min_le_left _ _

/-- A page with a coding tag. -/
def taggedPage : Decompress := .start .pipeline (ascii "'\\\" -*- coding: koi8 -*-\nbody\n")

end ManDb
