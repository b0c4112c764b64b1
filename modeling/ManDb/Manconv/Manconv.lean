import ManDb.CodingTag
import ManDb.Include
import ManDb.Manconv.TryIconv

namespace ManDb

/-- How `manconv` ends: it returns 0 or -1, or the process ends. -/
inductive ManconvRet where
  | success
  | failure
  | outOfSpace
  deriving DecidableEq, Repr

/-- The end of `manconv`: its result, the decompressor, the rewritten first line if
there was one, and the text written by each trial of an encoding. -/
structure Converted where
  ret : ManconvRet
  decomp : Decompress
  line : Bytes
  parts : List (Bytes × Bytes)
  deriving DecidableEq

/-- All that was written. -/
def Converted.output (c : Converted) : Bytes := c.line ++ c.parts.flatMap Prod.snd

variable {σ : Type}

/-- The loop of `manconv` over the encodings, after some output. -/
def tryAll (ic : Iconv σ) (turns : Nat) (target : Bytes) (space : Option Nat) :
    List Bytes → Decompress → Bytes → Option (ManconvRet × Decompress × List (Bytes × Bytes))
  | [], decomp, _ => some (.success, decomp, [])
  | code :: codes, decomp, out => do
    let (tried, decomp, out') ← tryIconv ic turns decomp code target codes.isEmpty space out
    let part := (code, out'.drop out.length)
    match tried with
    | .ok => return (.success, decomp, [part])
    | .fatal => return (.failure, decomp, [part])
    | .outOfSpace => return (.outOfSpace, decomp, [part])
    | .error =>
      let (ret, decomp, parts) ← tryAll ic turns target space codes decomp out'
      return (ret, decomp, part :: parts)

/-- The trial of the encoding that a coding tag names, after some output. That it
cannot be opened is not an error. -/
def tryTag (ic : Iconv σ) (turns : Nat) (decomp : Decompress) (ppEncoding target : Bytes) (space : Option Nat)
    (line : Bytes) : Option Converted := do
  let (tried, decomp, out') ← tryIconv ic turns decomp ppEncoding target true space line
  let part := (ppEncoding, out'.drop line.length)
  match tried with
  | .ok => return ⟨.success, decomp, line, [part]⟩
  | .error => return ⟨.success, decomp, line, [part]⟩
  | .fatal => return ⟨.failure, decomp, line, [part]⟩
  | .outOfSpace => return ⟨.outOfSpace, decomp, line, [part]⟩

/-- `manconv`. A trial of an encoding is given up, without a result, after so many
turns of its loop. -/
def manconv (loc : Locale) (ic : Iconv σ) (turns : Nat) (decomp : Decompress) (codes : List Bytes) (target : Bytes)
    (space : Option Nat) : Option Converted :=
  match checkPreprocessorEncoding loc decomp (target.takeWhile (· ≠ slash)) with
  | some (ppEncoding, none) => tryTag ic turns decomp ppEncoding target space []
  | some (ppEncoding, some modifiedPpLine) =>
    let decomp := (decompressReadline decomp).2
    match addOutput ⟨true, false, space⟩ [] modifiedPpLine with
    | none => some ⟨.outOfSpace, decomp, [], []⟩
    | some line => tryTag ic turns decomp ppEncoding target space line
  | none =>
    (tryAll ic turns target space codes decomp []).map fun (ret, decomp, parts) => ⟨ret, decomp, [], parts⟩

end ManDb
