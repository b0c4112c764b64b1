import ManDb.Manconv.OneEncoding
import ManDb.Manconv.Space

namespace ManDb

open Decoding (Decodes)

variable {codecs : Codecs} {flags : TryFlags} {s : TryState (Bool × Charset)} {D : Charset} {d : Decompress}
  {code target out ts : Bytes} {last : Bool} {space : Option Nat}

/-- The loop on an input that decodes, from the start of a buffer. -/
theorem tryLoop_decodes (fresh : Fresh s) (cdUtf8 : s.cdUtf8 = (flags.last, D)) (cd : s.cd = none)
    (unbounded : flags.space = none) (decodes : Decodes D.1 s.decomp.remaining ts) :
    ∃ n d', d'.remaining = [] ∧ tryLoop (codecIconv codecs) flags n s = some (.ok, d', s.out ++ ts) := by
  obtain ⟨n, ⟨tried, d', out'⟩, run⟩ := tryLoop_returns fresh cdUtf8 cd
  have whole : Conversion (codecIconv codecs) flags s.cdUtf8 s.cd s.decomp.remaining ts [] := by
    rw [cdUtf8, cd]
    exact decodes_conversion decodes
  have describes := tryLoop_describes fresh (by rw [cd]; exact not_stopsShort_utf8) run
  cases tried with
  | ok =>
    obtain ⟨text, conversion, nothing, written⟩ := describes
    obtain ⟨rfl, _⟩ := whole.unique conversion
    exact ⟨n, d', nothing, by rw [run, written]⟩
  | error =>
    obtain ⟨text, conversion, some, _⟩ := describes
    exact absurd (whole.unique conversion).2.symm some
  | fatal => exact absurd whole (describes _ _)
  | outOfSpace => exact absurd unbounded describes

/-- Wherever the buffers end, an input that decodes is consumed to its end, and what
is written to a target in UTF-8 is its text, if there is space for that. -/
theorem tryIconv_decodes (utf8 : isUtf8Target target = true) (known : codecs.decoders code = some D)
    (decodes : Decodes D.1 d.remaining ts) (roomy : ∀ max, space = some max → Roomy max out (out ++ ts)) :
    ∃ n d', d'.remaining = [] ∧ ∀ turns, n ≤ turns →
      tryIconv (codecIconv codecs) turns d code target last space out = some (.ok, d', out ++ ts) := by
  have opens : openBoth (codecIconv codecs) code target last = some ((last, D), none) := by
    rw [openBoth_charset utf8, known]
    rfl
  obtain ⟨n, d', nothing, run⟩ := @tryLoop_decodes codecs ⟨last, hasIgnore target, none⟩
    (tryStart d ((last, D), none) out) D ts (fresh_tryStart _ _ _) rfl rfl rfl decodes
  refine ⟨n, d', nothing, fun turns enough => ?_⟩
  have unbounded : tryIconv (codecIconv codecs) turns d code target last none out = some (.ok, d', out ++ ts) := by
    obtain ⟨k, rfl⟩ := Nat.exists_eq_add_of_le enough
    rw [tryIconv, opens]
    exact Loop.run_mono run k
  cases bound : space with
  | none => exact unbounded
  | some max => exact (tryIconv_space unbounded).2.1 (roomy max bound)

theorem latin1_run (n : Nat) :
    Decodes latin1Decoder (List.replicate n 0xE9) (List.replicate n [0xC3, 0xA9]).flatten := by
  induction n with
  | zero => exact .nil
  | succ n ih =>
    rw [List.replicate_succ, List.replicate_succ, List.flatten_cons]
    exact .char (n := 1) (t := [0xC3, 0xA9]) rfl ih

/-- A text of more than one buffer of input, and twice that of output. -/
theorem tryIconv_decodes_latin1 : ∃ n d', d'.remaining = [] ∧ ∀ turns, n ≤ turns →
    tryIconv (codecIconv westernCodecs) turns (.start .pipeline (List.replicate 70000 0xE9)) latin1Code utf8Code
      false none [] = some (.ok, d', [] ++ (List.replicate 70000 [0xC3, 0xA9]).flatten) :=
  tryIconv_decodes (by decide) western_latin1 (latin1_run 70000) nofun

end ManDb
