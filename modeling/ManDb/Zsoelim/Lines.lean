import ManDb.Zsoelim.Runs

namespace ManDb.Zsoelim

open Lexer

/-- A line with which a macro definition starts, and one with which it ends. -/
def startsDefinition (line : Bytes) : Bool := (ascii ".de").isPrefixOf line && 3 < line.length

def endsDefinition (line : Bytes) : Bool := (ascii "..").isPrefixOf line

/-- A line that starts as a `.so` or `.lf` request does. -/
def isSoLine (line : Bytes) : Bool := (ascii ".so").isPrefixOf line

def isLfLine (line : Bytes) : Bool := (ascii ".lf").isPrefixOf line

/-- A page of some lines. -/
def pageOf (lines : List String) : Decompress := .start .inprocess (lines.flatMap fun line => ascii line ++ [newline])

/-- Every request is for a file with one line. -/
def oneLineFile : OpenFile := fun _ => some (ascii "b.1", ascii "x" ++ [newline])

variable {line tail blanks : Bytes} {b : UInt8} {atBol : Bool}

/-- The rules for text take a line that none of the others is for. -/
theorem token_plain (nonempty : line ≠ []) (isLine : newline ∉ line) (ends : Stops isAny tail)
    (notSo : isSoLine line = false) (notLf : isLfLine line = false) (notDe : startsDefinition line = false)
    (notLone : line ∉ loneLines) : token .initial ⟨line ++ tail, true⟩ = (.echo, line.length) := by
  obtain ⟨b, line, rfl⟩ := List.exists_cons_of_ne_nil nonempty
  by_cases dot : b = period
  · subst dot
    have inner : newline ∉ line := fun member => isLine (List.mem_cons_of_mem _ member)
    cases line with
    | nil => exact absurd (by decide) notLone
    | cons c line =>
      by_cases isS : c = 115
      · subst isS
        cases line with
        | nil => exact absurd (by decide) notLone
        | cons e line =>
          refine token_other_s ?_ (fun member => inner (List.mem_cons_of_mem _ member)) ends
          rintro rfl
          cases notSo
      · by_cases isL : c = 108
        · subst isL
          cases line with
          | nil => exact absurd (by decide) notLone
          | cons e line =>
            refine token_other_l ?_ (fun member => inner (List.mem_cons_of_mem _ member)) ends
            rintro rfl
            cases notLf
        · refine token_request isS isL inner ends fun e rest shape => ?_
          rw [shape] at notDe
          simp [startsDefinition, ascii, period] at notDe
  · exact token_text dot isLine ends

theorem token_lf (isBlanks : ∀ b ∈ blanks, isBlank b = true) (ends : Stops isBlank tail) :
    token .initial ⟨ascii ".lf" ++ blanks ++ tail, true⟩ = (.lf, (ascii ".lf" ++ blanks).length) := by
  have whole := longest_star isBlanks ends
  have long : ¬blanks.length + 1 + 1 + 1 < 2 := by omega
  simp only [longest] at whole
  simp [token, rules, select, Rule.Applies, longest, dotted, quoted, isByte, whole, isAny, ascii, period,
    newline, long]

/-- In the middle of a line. -/
theorem token_inLine (inLine : b ≠ newline) : token .initial ⟨b :: tail, false⟩ = (.echo, 1) := by
  simp [token, rules, select, Rule.Applies, longest, isByte, isAny, inLine]

theorem token_so_newline : token .so ⟨newline :: tail, atBol⟩ = (.soNewline, 1) := by
  cases atBol <;> simp [token, rules, select, Rule.Applies, longest, quoted, isByte, isQuote, isFileByte,
    newline, longer]

theorem token_lfnumber_newline : token .lfnumber ⟨newline :: tail, atBol⟩ = (.lfNumberNewline, 1) := by
  cases atBol <;>
    simp [token, rules, select, Rule.Applies, longest, quoted, isByte, isQuote, isDigit, isAny, newline, longer]

/-- A file name after `.so`, or what is copied instead. -/
theorem token_so_inLine (inLine : b ≠ newline) :
    token .so ⟨b :: tail, atBol⟩ =
      match longest (quoted isFileByte) (b :: tail) with
      | none => (.default, 1)
      | some n => (.soFile, n) := by
  have noNewline : longest [.one (isByte newline)] (b :: tail) = none := by simp [longest, isByte, inLine]
  cases name : longest (quoted isFileByte) (b :: tail) with
  | none => cases atBol <;> simp [token, rules, select, Rule.Applies, name, noNewline]
  | some n => cases atBol <;> simp [token, rules, select, Rule.Applies, name, noNewline]

/-- A number after `.lf`, or what is copied instead. -/
theorem token_lfnumber_inLine (inLine : b ≠ newline) :
    token .lfnumber ⟨b :: tail, atBol⟩ =
      match longest (quoted isDigit) (b :: tail) with
      | none => (.lfOther, 1)
      | some n => if n < 1 then (.lfOther, 1) else (.lfNumber, n) := by
  have noNewline : longest [.one (isByte newline)] (b :: tail) = none := by simp [longest, isByte, inLine]
  have any : longest [.one isAny] (b :: tail) = some 1 := by simp [longest, isAny, inLine]
  cases number : longest (quoted isDigit) (b :: tail) with
  | none => cases atBol <;> simp [token, rules, select, Rule.Applies, number, noNewline, any]
  | some n =>
    cases atBol <;> simp [token, rules, select, Rule.Applies, number, noNewline, any] <;> split <;> rfl

/-- A number that starts with a digit is one. -/
theorem longest_number (digit : isDigit b = true) : ∃ n, longest (quoted isDigit) (b :: tail) = some (n + 1) := by
  obtain ⟨n, found⟩ := @starLongest_some _ isDigit _ (longest_opt_some isQuote) tail
  have apart : ∀ b, isDigit b = true → isQuote b = false := forall_byte (by decide)
  have noQuote : isQuote b = false := apart b digit
  refine ⟨n, ?_⟩
  change longer (oneLongest isQuote _ (b :: tail))
    (oneLongest isDigit (starLongest isDigit (longest [.opt isQuote])) (b :: tail)) = _
  rw [oneLongest, oneLongest, noQuote, digit, found]
  rfl

theorem token_lfBlanks (nonempty : blanks ≠ []) (isBlanks : ∀ b ∈ blanks, isBlank b = true)
    (ends : Stops isBlank tail) :
    token .lfname ⟨blanks ++ tail, atBol⟩ = (.echo, blanks.length) := by
  obtain ⟨b, blanks, rfl⟩ := List.exists_cons_of_ne_nil nonempty
  have blank : isBlank b = true := isBlanks b (List.mem_cons_self ..)
  have rest := longest_star (fun c member => isBlanks c (List.mem_cons_of_mem _ member)) ends
  have noName : isFileByte b = false := isFileByte_apart b (Or.inl blank)
  have noQuote : isQuote b = false := isQuote_apart b (Or.inl blank)
  have noNewline : isByte newline b = false := isBlank_not_newline blank
  simp only [longest] at rest
  cases atBol <;>
    simp [token, rules, select, Rule.Applies, longest, quoted, longer, blank, rest, noName, noQuote, noNewline,
      isBlank_any blank]

theorem token_lfName {file : Bytes} (isName : Lexer.Matches (quoted isFileByte) file) (stops : Stops isFileByte tail)
    (unquoted : Stops isQuote tail) : token .lfname ⟨file ++ tail, atBol⟩ = (.lfName, file.length) := by
  have whole := longest_fileName isName stops unquoted
  have blankless := @fileName_stops tail file isName
  obtain ⟨b, rest, rfl, other⟩ := fileName_head isName
  have noBlank : isBlank b = false := blankless b rfl
  have any : isAny b = true := by simpa [isAny] using other
  simp only [List.cons_append] at whole ⊢
  cases atBol <;>
    simp [token, rules, select, Rule.Applies, whole, longest, isByte, other, noBlank, any]

end ManDb.Zsoelim
