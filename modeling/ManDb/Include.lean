import ManDb.Decompress

namespace ManDb

/-- The start of a comment line. -/
def commentStart : Bytes := ascii ".\\\""

/-- The loop of `find_include_directive` that skips over any comments. Every line
read is non-empty, so that the remaining length bounds the number of turns. -/
def skipComments : Nat → Decompress → Option Bytes
  | 0, _ => none
  | turns + 1, d =>
    match decompressReadline d with
    | (none, _) => none
    | (some buffer, d') => if commentStart.isPrefixOf buffer then skipComments turns d' else some buffer

/-- `find_include_directive`, on a page that could be opened. -/
def findIncludeDirective (d : Decompress) : Bytes :=
  ((skipComments (d.remaining.length + 1) d).map cString).getD []

/-- Test `buffer` to see if it contains a .so include that is not an absolute
filename, and return the include. -/
def testForInclude (buffer : Bytes) : Option Bytes :=
  let buffer := buffer.dropWhile isSpace
  if (ascii ".so").isPrefixOf buffer then
    let buffer := (buffer.drop 3).dropWhile isSpace
    if buffer.head? ≠ some slash then some (buffer.takeWhile (fun b => !isSpace b)) else none
  else none

/-- `struct ult_value`. -/
structure UltValue where
  path : Bytes
  trace : List Bytes
  deriving DecidableEq

/-- The turns of `ult_src` that follow `.so` links. A page for which none is left is
self referencing. `find_include` looks for the include in the tree of the page that
was asked for. -/
def followSoLinks (openPage : Bytes → Option Decompress) (findInclude : Bytes → Option Bytes) :
    Nat → Bytes → List Bytes → Option UltValue
  | 0, _, _ => none
  | turns + 1, base, trace =>
    match openPage base with
    | none => none
    | some d =>
      match testForInclude (findIncludeDirective d) with
      | none => some ⟨base, trace ++ [base]⟩
      | some include_ =>
        match findInclude include_ with
        | none => none
        | some next => followSoLinks openPage findInclude turns next (trace ++ [next])

/-- `ult_src` with `SO_LINK`. -/
def ultSrc (openPage : Bytes → Option Decompress) (findInclude : Bytes → Option Bytes) (name : Bytes) :
    Option UltValue :=
  followSoLinks openPage findInclude 10 name [name]

variable {d d' : Decompress}

theorem decompressReadline_shorter {buffer : Bytes} (read : decompressReadline d = (some buffer, d')) :
    d'.remaining.length < d.remaining.length := by
  unfold decompressReadline at read
  cases line : lineAt d.tag d.remaining with
  | none => simp [line] at read
  | some text =>
    simp only [line, Prod.mk.injEq] at read
    rw [← read.2, skip_remaining, List.length_drop]
    obtain ⟨rest, whole, nonempty⟩ := lineAt_mem line
    have positive : 0 < text.length := List.length_pos_of_ne_nil nonempty
    have total : d.remaining.length = text.length + rest.length := by rw [whole, List.length_append]
    omega

/-- The number of turns allowed never ends the loop. -/
theorem skipComments_turns {turns turns' : Nat} (enough : d.remaining.length < turns)
    (enough' : d.remaining.length < turns') : skipComments turns d = skipComments turns' d := by
  induction turns generalizing turns' d with
  | zero => omega
  | succ turns ih =>
    cases turns' with
    | zero => omega
    | succ turns' =>
      simp only [skipComments]
      cases read : decompressReadline d with
      | mk result after =>
        cases result with
        | none => rfl
        | some buffer =>
          have shorter := decompressReadline_shorter read
          simp only
          split
          · exact ih (by omega) (by omega)
          · rfl

end ManDb
