import ManDb.ShellWord

namespace ManDb

/-- The loop of `make_browser` over the pattern: the command so far, and `found_percent_s`.
What stands between two percent signs is copied byte by byte. -/
def browserLoop (file : Bytes) : Bytes → Bytes × Bool → Bytes × Bool
  | [], s => s
  | b :: pattern, (browser, found) =>
    if b = percent then
      match pattern with
      | [] => (browser ++ [percent], found)
      | c :: pattern =>
        if c = percent then browserLoop file pattern (browser ++ [percent], found)
        else if c = 99 then browserLoop file pattern (browser ++ [colon], found)
        else if c = 115 then browserLoop file pattern (browser ++ escapeShell file, true)
        else browserLoop file pattern (browser ++ [percent, c], found)
    else browserLoop file pattern (browser ++ [b], found)

/-- The command that `make_browser` gives to the shell. -/
def makeBrowser (pattern file : Bytes) : Bytes :=
  match browserLoop file pattern ([], false) with
  | (browser, true) => browser
  | (browser, false) => browser ++ space :: escapeShell file

/-- A piece of the command: a text of the pattern, or the file. -/
inductive BrowserPiece
  | text (bytes : Bytes)
  | file
  deriving DecidableEq

/-- What the pieces are in the command. -/
def commandOf (file : Bytes) (pieces : List BrowserPiece) : Bytes :=
  pieces.flatMap fun
    | .text bytes => bytes
    | .file => escapeShell file

/-- The pieces that a pattern asks for. -/
def patternPieces : Bytes → List BrowserPiece
  | [] => []
  | b :: pattern =>
    if b = percent then
      match pattern with
      | [] => [.text [percent]]
      | c :: pattern =>
        (if c = percent then .text [percent] else if c = 99 then .text [colon] else if c = 115 then .file
          else .text [percent, c]) :: patternPieces pattern
    else .text [b] :: patternPieces pattern

/-- The pieces of the command. The file comes last if the pattern does not ask for it. -/
def browserPieces (pattern : Bytes) : List BrowserPiece :=
  if .file ∈ patternPieces pattern then patternPieces pattern else patternPieces pattern ++ [.text [space], .file]

/-- An escaped file name is one word that denotes the file, wherever it ends or a blank
follows it. -/
structure OneWord (file : Bytes) : Prop where
  alone : shLangFirstWord (escapeShell file) = some file
  followed : ∀ b rest, b = space ∨ b = tab → shLangFirstWord (escapeShell file ++ b :: rest) = some file
  spliced : ∀ pattern before after, browserPieces pattern = before ++ .file :: after →
    (commandOf file after = [] ∨ ∃ b rest, commandOf file after = b :: rest ∧ (b = space ∨ b = tab)) →
    ∃ rest, makeBrowser pattern file = commandOf file before ++ rest ∧ shLangFirstWord rest = some file

variable {file : Bytes}

theorem commandOf_append (file : Bytes) (pieces pieces' : List BrowserPiece) :
    commandOf file (pieces ++ pieces') = commandOf file pieces ++ commandOf file pieces' := List.flatMap_append

theorem commandOf_cons (file : Bytes) (piece : BrowserPiece) (pieces : List BrowserPiece) :
    commandOf file (piece :: pieces) = commandOf file [piece] ++ commandOf file pieces := commandOf_append file [piece] pieces

/-- The loop puts the pieces together. -/
theorem browserLoop_eq (file pattern browser : Bytes) (found : Bool) : browserLoop file pattern (browser, found) =
    (browser ++ commandOf file (patternPieces pattern), found || decide (.file ∈ patternPieces pattern)) := by
  fun_induction patternPieces pattern generalizing browser found with
  | case1 => simp [browserLoop, commandOf]
  | case2 => simp [browserLoop, commandOf]
  | case3 c pattern ih =>
    rw [commandOf_cons, ← List.append_assoc]
    by_cases isPercent : c = percent
    · simp [browserLoop, isPercent, ih, commandOf]
    by_cases isColon : c = 99
    · simp [browserLoop, isColon, ih, commandOf, percent]
    by_cases isFile : c = 115
    · simp [browserLoop, isFile, ih, commandOf, percent]
    · simp [browserLoop, isPercent, isColon, isFile, ih, commandOf]
  | case4 b pattern other ih =>
    rw [browserLoop.eq_def]
    simp [other, ih, commandOf]

theorem makeBrowser_eq (pattern file : Bytes) : makeBrowser pattern file = commandOf file (browserPieces pattern) := by
  rw [makeBrowser, browserLoop_eq, browserPieces, Bool.false_or]
  by_cases asked : .file ∈ patternPieces pattern
  · rw [decide_eq_true asked, if_pos asked]
    rfl
  · rw [decide_eq_false asked, if_neg asked, commandOf_append, List.nil_append]
    simp [commandOf]

/-- An escaped byte is a segment that stands for it; an escaped line break stands for
nothing. -/
theorem escapeShell_segment (b : UInt8) :
    Shell.Segment (escapeShell [b]) (if b = newline then [] else [b]) := by
  have plain : ∀ b : UInt8, shellPlain b = true →
      b ≠ newline ∧ b ≠ backslash ∧ b ≠ singleQuote ∧ b ≠ doubleQuote ∧ endsWord b = false :=
    forall_byte (by decide +kernel)
  by_cases asIs : shellPlain b = true
  · obtain ⟨notLine, notBackslash, notSingle, notDouble, goesOn⟩ := plain b asIs
    have same : escapeShell [b] = [b] := by simp [escapeShell, asIs]
    rw [if_neg notLine, same]
    exact .plain notBackslash notSingle notDouble goesOn
  · have escaped : escapeShell [b] = [backslash, b] := by simp [escapeShell, asIs]
    rw [escaped]
    by_cases line : b = newline
    · rw [if_pos line, line]
      exact .continued
    · rw [if_neg line]
      exact .escaped line

/-- Reading an escaped text gives it back without its line breaks. -/
theorem shLangFirstWord_escapeShell (s rest : Bytes) :
    shLangFirstWord (escapeShell s ++ rest) = (shLangFirstWord rest).map (s.filter (· ≠ newline) ++ ·) := by
  induction s with
  | nil => simp [escapeShell]
  | cons b s ih =>
    have parts : escapeShell (b :: s) = escapeShell [b] ++ escapeShell s := by simp [escapeShell]
    rw [parts, List.append_assoc, shLangFirstWord_segment (escapeShell_segment b), ih, Option.map_map]
    by_cases line : b = newline <;> simp [line, Function.comp_def]

theorem filter_newline_eq_self_iff (s : Bytes) : s.filter (· ≠ newline) = s ↔ newline ∉ s := by
  rw [List.filter_eq_self]
  simp only [decide_eq_true_eq]
  exact ⟨fun others member => others newline member rfl, fun absent b member same => absent (same ▸ member)⟩

/-- An escaped file name is one word for the file exactly if there is no line break in it. -/
theorem oneWord_iff (file : Bytes) : OneWord file ↔ newline ∉ file := by
  have done : shLangFirstWord [] = some [] := shLangFirstWord_done rfl
  have alone : shLangFirstWord (escapeShell file) = some (file.filter (· ≠ newline)) := by
    have read := shLangFirstWord_escapeShell file []
    rwa [List.append_nil, done, Option.map_some, List.append_nil] at read
  constructor
  · intro word
    rw [word.alone, Option.some.injEq] at alone
    exact (filter_newline_eq_self_iff file).mp alone.symm
  · intro absent
    rw [(filter_newline_eq_self_iff file).mpr absent] at alone
    have followed : ∀ b rest, b = space ∨ b = tab → shLangFirstWord (escapeShell file ++ b :: rest) = some file := by
      intro b rest blank
      have ends : endsWord b = true := by rcases blank with rfl | rfl <;> decide
      rw [shLangFirstWord_escapeShell, shLangFirstWord_done (wordTurn_ends ends rest), Option.map_some,
        List.append_nil, (filter_newline_eq_self_iff file).mpr absent]
    refine ⟨alone, followed, fun pattern before after pieces ends => ?_⟩
    refine ⟨escapeShell file ++ commandOf file after, ?_, ?_⟩
    · rw [makeBrowser_eq, pieces, commandOf_append, commandOf_cons]
      simp [commandOf]
    · rcases ends with last | ⟨b, rest, blank, kind⟩
      · rw [last, List.append_nil]
        exact alone
      · rw [blank]
        exact followed b rest kind

theorem not_oneWord_line : ¬OneWord (ascii "a\nb") := by
  intro word
  have read := shLangFirstWord_escapeShell (ascii "a\nb") []
  rw [List.append_nil, word.alone, shLangFirstWord_done rfl] at read
  exact absurd read (by decide +kernel)

end ManDb
