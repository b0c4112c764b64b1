import ManDb.Text
import ManDb.Lib.Squeeze

namespace ManDb

open Squeeze (squeeze squeezeFrom Squeezed Apart)

/-- The `isspace` of a locale. ISO C has a newline among the white space of all of them. -/
structure SpaceLocale where
  isspace : UInt8 → Bool
  newline_space : isspace newline = true

/-- `getline`, from what is left of the input. -/
def getline (stdin : Bytes) : Option (Bytes × Bytes) :=
  match Separated.cut newline stdin with
  | (line, some rest) => some (line ++ [newline], rest)
  | (line, none) => if line = [] then none else some (line, [])

theorem getline_shorter {stdin line rest : Bytes} (next : getline stdin = some (line, rest)) :
    rest.length < stdin.length := by
  unfold getline at next
  split at next
  · rename_i front after cut
    cases next
    exact Separated.length_cut_lt (congrArg Prod.snd cut)
  · rename_i front cut
    split at next
    · cases next
    · cases next
      rename_i nonempty
      have whole := Separated.cut_join newline stdin
      rw [cut, Option.elim_none, List.append_nil] at whole
      rw [whole]
      exact List.length_pos_of_ne_nil nonempty

/-- The test whether a line, as a string, consists only of white space. -/
def blankLine (loc : SpaceLocale) (line : Bytes) : Bool := (cString line).all loc.isspace

/-- The inner loop of `squeeze_blank_lines`: the line that is left to be shown, what is left
of the input, and `got_blank_line`. -/
def blankLoop (loc : SpaceLocale) (line stdin : Bytes) (gotBlankLine : Bool) : Option Bytes × Bytes × Bool :=
  if blankLine loc line then
    match _next : getline stdin with
    | none => (none, stdin, true)
    | some (line, stdin) => blankLoop loc line stdin true
  else (some line, stdin, gotBlankLine)
termination_by stdin.length
decreasing_by exact getline_shorter _next

theorem blankLoop_shorter (loc : SpaceLocale) (line stdin : Bytes) (gotBlankLine : Bool) :
    (blankLoop loc line stdin gotBlankLine).2.1.length ≤ stdin.length := by
  fun_induction blankLoop loc line stdin gotBlankLine with
  | case1 => exact Nat.le_refl _
  | case2 _ stdin _ _ _ _ next ih => exact Nat.le_of_lt (Nat.lt_of_le_of_lt ih (getline_shorter next))
  | case3 => exact Nat.le_refl _

/-- `squeeze_blank_lines`: what it makes of its input. -/
def squeezeBlankLines (loc : SpaceLocale) (stdin : Bytes) : Bytes :=
  match _next : getline stdin with
  | none => []
  | some (line, behind) =>
    let run := blankLoop loc line behind false
    (if run.2.2 then [newline] else []) ++ run.1.elim [] cString ++ squeezeBlankLines loc run.2.1
termination_by stdin.length
decreasing_by exact Nat.lt_of_le_of_lt (blankLoop_shorter loc line behind false) (getline_shorter _next)

/-- The lines of a text, each with its newline; the last one may lack it. -/
def textLines (text : Bytes) : List Bytes :=
  match _next : getline text with
  | none => []
  | some (line, rest) => line :: textLines rest
termination_by text.length
decreasing_by exact getline_shorter _next

/-- A list of lines as a text has them. -/
inductive IsLines : List Bytes → Prop
  | nil : IsLines []
  | last {text} : text ≠ [] → newline ∉ text → IsLines [text]
  | line {text lines} : newline ∉ text → IsLines lines → IsLines ((text ++ [newline]) :: lines)

/-- Each maximal run of blank lines has become a newline and the other lines are as they
were, so that no two blank lines are left side by side and there is nothing more to do. -/
structure BlankLinesSqueezed (loc : SpaceLocale) (input output : Bytes) : Prop where
  runs : Squeezed (blankLine loc) [newline] (textLines input) (textLines output)
  apart : Apart (blankLine loc) (textLines output)
  kept : (textLines output).filter (fun line => !blankLine loc line) =
    (textLines input).filter (fun line => !blankLine loc line)
  again : squeezeBlankLines loc output = output

variable {loc : SpaceLocale} {text line rest : Bytes} {lines lines' : List Bytes}

theorem getline_nil : getline [] = none := rfl

theorem getline_line (clean : newline ∉ line) (rest : Bytes) :
    getline (line ++ newline :: rest) = some (line ++ [newline], rest) := by
  rw [getline, Separated.cut_append_cons clean]

theorem getline_last (clean : newline ∉ line) (nonempty : line ≠ []) : getline line = some (line, []) := by
  rw [getline, Separated.cut_of_not_mem clean]
  exact if_neg nonempty

theorem textLines_none (last : getline text = none) : textLines text = [] := by
  rw [textLines.eq_def]
  split <;> simp_all

theorem textLines_some (next : getline text = some (line, rest)) : textLines text = line :: textLines rest := by
  rw [textLines.eq_def]
  split <;> simp_all

/-- The next line is the whole text or ends at the first newline. -/
theorem getline_cases (text : Bytes) : text = [] ∨ (text ≠ [] ∧ newline ∉ text) ∨
    ∃ line rest, text = line ++ newline :: rest ∧ newline ∉ line := by
  by_cases ended : newline ∈ text
  · obtain ⟨line, rest, whole, clean⟩ := List.eq_append_cons_of_mem ended
    exact Or.inr (Or.inr ⟨line, rest, whole, clean⟩)
  · by_cases empty : text = []
    · exact Or.inl empty
    · exact Or.inr (Or.inl ⟨empty, ended⟩)

theorem textLines_isLines (text : Bytes) : IsLines (textLines text) ∧ (textLines text).flatten = text := by
  generalize size : text.length = k
  induction k using Nat.strong_induction_on generalizing text with
  | _ k ih =>
    rcases getline_cases text with rfl | ⟨nonempty, clean⟩ | ⟨line, rest, rfl, clean⟩
    · rw [textLines_none getline_nil]
      exact ⟨.nil, rfl⟩
    · rw [textLines_some (getline_last clean nonempty), textLines_none getline_nil]
      exact ⟨.last nonempty clean, by simp⟩
    · obtain ⟨isLines, whole⟩ := ih rest.length (by rw [← size]; simp; omega) rest rfl
      rw [textLines_some (getline_line clean rest)]
      exact ⟨.line clean isLines, by simp [whole]⟩

/-- A text made of lines has these lines. -/
theorem IsLines.textLines_flatten (isLines : IsLines lines) : textLines lines.flatten = lines := by
  induction isLines with
  | nil => exact textLines_none getline_nil
  | last nonempty clean =>
    rw [List.flatten_singleton, textLines_some (getline_last clean nonempty), textLines_none getline_nil]
  | @line text lines clean _ ih =>
    have whole : ((text ++ [newline]) :: lines).flatten = text ++ newline :: lines.flatten := by simp
    rw [whole, textLines_some (getline_line clean _), ih]

theorem IsLines.tail (isLines : IsLines (line :: lines)) : IsLines lines := by
  cases isLines with
  | last => exact .nil
  | line _ rest => exact rest

theorem IsLines.of_append (isLines : IsLines (lines ++ lines')) : IsLines lines' := by
  induction lines with
  | nil => exact isLines
  | cons line lines ih => exact ih isLines.tail

/-- Only the last line of a text may lack its newline, and a run becomes a line that has it. -/
theorem IsLines.squeezed (isLines : IsLines lines) (squeezed : Squeezed (blankLine loc) [newline] lines lines') :
    IsLines lines' := by
  induction squeezed with
  | nil => exact .nil
  | other _ after ih =>
    cases isLines with
    | last nonempty clean =>
      rw [after.eq]
      exact .last nonempty clean
    | line clean rest => exact .line clean (ih rest)
  | run _ _ _ _ ih =>
    have empty : newline ∉ ([] : Bytes) := List.not_mem_nil
    exact .line empty (ih isLines.of_append)

/-- What is shown for a run of blank lines and the line that ends it, with a blank line seen
before or not, followed by what is shown of the rest. -/
theorem blankLoop_lines (loc : SpaceLocale) (line stdin : Bytes) (got : Bool) :
    (if (blankLoop loc line stdin got).2.2 then [[newline]] else []) ++ (blankLoop loc line stdin got).1.toList ++
        squeeze (blankLine loc) [newline] (textLines (blankLoop loc line stdin got).2.1) =
      (if got then [[newline]] else []) ++
        squeezeFrom (blankLine loc) [newline] got (line :: textLines stdin) := by
  fun_induction blankLoop loc line stdin got with
  | case1 line stdin got blank last =>
    rw [textLines_none last]
    cases got <;> simp [squeezeFrom, squeeze, blank]
  | case2 line stdin got blank next stdin' more ih =>
    rw [ih, textLines_some more, squeezeFrom.eq_2 _ _ got, if_pos blank]
    cases got <;> rfl
  | case3 line stdin got other =>
    rw [squeezeFrom, if_neg other]
    cases got <;> rfl

theorem squeezeBlankLines_some (next : getline text = some (line, rest)) :
    squeezeBlankLines loc text = (if (blankLoop loc line rest false).2.2 then [newline] else []) ++
      (blankLoop loc line rest false).1.elim [] cString ++
      squeezeBlankLines loc (blankLoop loc line rest false).2.1 := by
  rw [squeezeBlankLines.eq_def]
  split <;> simp_all

/-- What is shown is the squeezed list of the lines, each one cut at its first NUL. -/
theorem squeezeBlankLines_eq (loc : SpaceLocale) (input : Bytes) : squeezeBlankLines loc input =
    ((squeeze (blankLine loc) [newline] (textLines input)).map cString).flatten := by
  generalize size : input.length = k
  induction k using Nat.strong_induction_on generalizing input with
  | _ k ih =>
    cases next : getline input with
    | none =>
      rw [textLines_none next, squeezeBlankLines.eq_def]
      split <;> simp_all [squeeze, squeezeFrom]
    | some found =>
      obtain ⟨line, rest⟩ := found
      have shorter := Nat.lt_of_le_of_lt (blankLoop_shorter loc line rest false) (getline_shorter next)
      have lines := blankLoop_lines loc line rest false
      have shown : squeeze (blankLine loc) [newline] (line :: textLines rest) =
          squeezeFrom (blankLine loc) [newline] false (line :: textLines rest) := rfl
      rw [squeezeBlankLines_some next, ih _ (size ▸ shorter) _ rfl, textLines_some next, shown,
        ← List.nil_append (squeezeFrom _ _ _ _)]
      refine Eq.trans ?_ (congrArg (fun lines => (lines.map cString).flatten) lines)
      rw [List.map_append, List.flatten_append, List.map_append, List.flatten_append]
      congr 2
      · split <;> rfl
      · cases (blankLoop loc line rest false).1 <;> simp

theorem not_mem_squeezed (nulFree : 0 ∉ text) {line : Bytes}
    (member : line ∈ squeeze (blankLine loc) [newline] (textLines text)) : 0 ∉ line := by
  rcases Squeeze.mem_squeezeFrom member with rfl | ⟨ofText, _⟩
  · decide
  · rw [← (textLines_isLines text).2] at nulFree
    exact fun nul => nulFree (List.mem_flatten_of_mem ofText nul)

theorem squeezeBlankLines_flatten (loc : SpaceLocale) {input : Bytes} (nulFree : 0 ∉ input) :
    squeezeBlankLines loc input = (squeeze (blankLine loc) [newline] (textLines input)).flatten := by
  have whole : (squeeze (blankLine loc) [newline] (textLines input)).map cString =
      squeeze (blankLine loc) [newline] (textLines input) := by
    rw [List.map_congr_left fun line member => cString_nulFree (not_mem_squeezed nulFree member), List.map_id'']
    exact fun _ => rfl
  rw [squeezeBlankLines_eq, whole]

theorem textLines_squeezeBlankLines (loc : SpaceLocale) {input : Bytes} (nulFree : 0 ∉ input) :
    textLines (squeezeBlankLines loc input) = squeeze (blankLine loc) [newline] (textLines input) := by
  have isLines := (textLines_isLines input).1.squeezed (Squeeze.squeeze_squeezed (blankLine loc) [newline] _)
  rw [squeezeBlankLines_flatten loc nulFree, isLines.textLines_flatten]

theorem squeezeBlankLines_squeezed (loc : SpaceLocale) (input : Bytes) (nulFree : 0 ∉ input) :
    BlankLinesSqueezed loc input (squeezeBlankLines loc input) := by
  have lines := textLines_squeezeBlankLines loc nulFree
  have isBlank : blankLine loc [newline] = true := by
    rw [blankLine, cString_nulFree (by decide), List.all_cons, loc.newline_space]
    rfl
  refine ⟨?_, ?_, ?_, ?_⟩
  · rw [lines]
    exact Squeeze.squeeze_squeezed _ _ _
  · rw [lines]
    exact (Squeeze.squeezeFrom_apart false _).1
  · rw [lines]
    exact Squeeze.filter_squeezeFrom isBlank false _
  · have clean : 0 ∉ squeezeBlankLines loc input := by
      rw [squeezeBlankLines_flatten loc nulFree, List.mem_flatten]
      rintro ⟨line, member, nul⟩
      exact not_mem_squeezed nulFree member nul
    rw [squeezeBlankLines_flatten loc clean, lines, Squeeze.squeeze_idem, ← squeezeBlankLines_flatten loc nulFree]

/-- The "C" locale. -/
def SpaceLocale.posix : SpaceLocale where
  isspace := isSpace
  newline_space := rfl

theorem squeezeBlankLines_squeezed_page : 0 ∉ ascii "NAME\n \n\t\n\nman" ∧
    BlankLinesSqueezed .posix (ascii "NAME\n \n\t\n\nman") (squeezeBlankLines .posix (ascii "NAME\n \n\t\n\nman")) :=
  ⟨by decide, squeezeBlankLines_squeezed .posix _ (by decide)⟩

end ManDb
