import Mathlib.Data.List.Induction
import ManDb.Zsoelim.Expand

namespace ManDb.Zsoelim

open Lexer

/-- What is written, and what of it is not generated. -/
def written (out : List Piece) : Bytes := out.flatMap Piece.bytes

def copied (out : List Piece) : Bytes :=
  out.flatMap fun
    | .text bytes => bytes
    | .lf _ _ => []

def AtLineStart (out : List Piece) : Prop := written out = [] ∨ (written out).getLast? = some newline

/-- Every generated `.lf` request is a line of its own. -/
def LfLines (out : List Piece) : Prop :=
  ∀ before line file after, out = before ++ .lf line file :: after → AtLineStart before

/-- The text of some lines. -/
def textOf (lines : List Bytes) : Bytes := Separated.ofSegments newline lines []

variable {openFile : OpenFile} {s s' s'' : State} {out more : List Piece} {bytes bytes' : Bytes} {lines : List Bytes}
  {outcome : Outcome}

section Pieces

theorem LfLines.nil : LfLines [] := by
  intro before line file after shape
  simp at shape

theorem LfLines.text (lfLines : LfLines out) (bytes : Bytes) : LfLines (out ++ [.text bytes]) := by
  intro before line file after shape
  rcases List.eq_nil_or_concat after with rfl | ⟨init, last, rfl⟩
  · have ends := congrArg List.getLast? shape
    simp at ends
  · rw [List.concat_eq_append, ← List.cons_append, ← List.append_assoc] at shape
    exact lfLines before line file init (List.append_inj' shape rfl).1

theorem LfLines.lf (lfLines : LfLines out) (start : AtLineStart out) (number : Int) (name : Bytes) :
    LfLines (out ++ [.lf number name]) := by
  intro before line file after shape
  rcases List.eq_nil_or_concat after with rfl | ⟨init, last, rfl⟩
  · rw [← (List.append_inj' shape rfl).1]
    exact start
  · rw [List.concat_eq_append, ← List.cons_append, ← List.append_assoc] at shape
    exact lfLines before line file init (List.append_inj' shape rfl).1

theorem LfLines.of_append (lfLines : LfLines (out ++ more)) : LfLines out := by
  intro before line file after shape
  exact lfLines before line file (after ++ more) (by rw [shape]; simp)

theorem atLineStart_lf (out : List Piece) (number : Int) (name : Bytes) : AtLineStart (out ++ [.lf number name]) := by
  have bytes : written (out ++ [.lf number name]) =
    written out ++ (ascii ".lf " ++ printLong number ++ 32 :: name) ++ [newline] := by
    simp [written, Piece.bytes]
  exact Or.inr (by rw [bytes, List.getLast?_concat])

theorem atLineStart_newline (out : List Piece) (bytes : Bytes) : AtLineStart (out ++ [.text (bytes ++ [newline])]) :=
  Or.inr (by simp [written, Piece.bytes])

@[simp] theorem copied_append (out more : List Piece) : copied (out ++ more) = copied out ++ copied more :=
  List.flatMap_append ..

@[simp] theorem copied_text (bytes : Bytes) : copied [.text bytes] = bytes := by simp [copied]

@[simp] theorem copied_lf (number : Int) (name : Bytes) : copied [.lf number name] = [] := by simp [copied]

@[simp] theorem textOf_nil : textOf [] = [] := rfl

@[simp] theorem textOf_append (lines lines' : List Bytes) :
    textOf (lines ++ lines') = textOf lines ++ textOf lines' := by
  simp [textOf, Separated.ofSegments]

@[simp] theorem textOf_cons (line : Bytes) (lines : List Bytes) :
    textOf (line :: lines) = line ++ newline :: textOf lines := by
  simp [textOf]

/-- Where the copied text is one of lines, so is all that is written. -/
theorem atLineStart_of_copied (lfLines : LfLines out)
    (ends : copied out = [] ∨ (copied out).getLast? = some newline) :
    AtLineStart out := by
  induction out using List.reverseRecOn with
  | nil => exact Or.inl rfl
  | append_singleton out piece ih =>
    cases piece with
    | lf number name => exact atLineStart_lf out number name
    | text bytes =>
      cases bytes with
      | nil =>
        have start := ih lfLines.of_append (by simpa using ends)
        simpa [AtLineStart, written, Piece.bytes] using start
      | cons b bytes =>
        have last : (copied (out ++ [.text (b :: bytes)])).getLast? = some newline := by
          rcases ends with empty | last
          · simp at empty
          · exact last
        refine Or.inr ?_
        simpa [written, Piece.bytes, List.getLast?_append] using last

end Pieces

section Runs

/-- The start of a line, in a start condition. -/
structure AtLine (s : State) (condition : Condition) (text : Bytes) : Prop where
  condition : s.condition = condition
  buffer : s.buffer = ⟨text, true⟩
  quiet : s.noNewline = false
  lfLines : LfLines s.out
  lineStart : AtLineStart s.out

/-- The scanner copies some text and is in the same file again. -/
structure Passes (openFile : OpenFile) (s s' : State) (bytes : Bytes) : Prop where
  reaches : Reaches openFile s s'
  ptr : s'.soStackPtr = s.soStackPtr
  stack : ∀ i < s.soStackPtr, s'.soStack i = s.soStack i
  copies : copied s'.out = copied s.out ++ bytes

theorem Passes.refl (s : State) : Passes openFile s s [] := ⟨.refl s, rfl, fun _ _ => rfl, by simp⟩

theorem Passes.trans (first : Passes openFile s s' bytes) (second : Passes openFile s' s'' bytes') :
    Passes openFile s s'' (bytes ++ bytes') := by
  refine ⟨first.reaches.trans second.reaches, second.ptr.trans first.ptr, fun i below => ?_, ?_⟩
  · rw [second.stack i (by rw [first.ptr]; exact below), first.stack i below]
  · rw [second.copies, first.copies, List.append_assoc]

/-- What is written once the file ends. -/
def State.closing (s : State) : List Piece := s.out ++ if s.noNewline then [.text [newline]] else []

theorem popped_closing (s : State) : s.popped.closing = s.popped.out := List.append_nil _

/-- The scanner gets to the end of the file with these lines copied. -/
def Finishes (openFile : OpenFile) (s : State) (lines : List Bytes) : Prop :=
  ∃ s', Reaches openFile s s' ∧ s'.soStackPtr = s.soStackPtr ∧ (∀ i < s.soStackPtr, s'.soStack i = s.soStack i) ∧
    s'.buffer.rest = [] ∧ LfLines s'.closing ∧ AtLineStart s'.closing ∧
      copied s'.closing = copied s.out ++ textOf lines

/-- At the end of a line that lacks its newline. -/
theorem finishes_noisy (passes : Passes openFile s s' bytes) (ended : s'.buffer.rest = [])
    (noisy : s'.noNewline = true)
    (lfLines : LfLines s'.out) (whole : bytes ++ [newline] = textOf lines) : Finishes openFile s lines := by
  have closing : s'.closing = s'.out ++ [.text [newline]] := by rw [State.closing, noisy, if_pos rfl]
  refine ⟨s', passes.reaches, passes.ptr, passes.stack, ended, ?_, ?_, ?_⟩
  · rw [closing]
    exact lfLines.text _
  · rw [closing]
    exact atLineStart_newline _ []
  · rw [closing, copied_append, passes.copies, copied_text, List.append_assoc, whole]

/-- The output will not be one of lines, if there is one. -/
def Doomed (openFile : OpenFile) (s : State) : Prop :=
  ∀ s', Ends openFile s (.done s') → ¬(LfLines s'.out ∧ AtLineStart s'.out)

/-- Either of them. -/
def Result (openFile : OpenFile) (s : State) : Option (List Bytes) → Prop
  | some lines => Finishes openFile s lines
  | none => Doomed openFile s

theorem Reaches.ends_after (reaches : Reaches openFile s s') (ends : Ends openFile s outcome) :
    Ends openFile s' outcome := by
  induction reaches with
  | refl => exact ends
  | tail _ once ih =>
    obtain ⟨final, turns, run⟩ := ih
    cases turns with
    | zero => exact absurd run.symm (final _)
    | succ turns =>
      rw [yylex, once] at run
      exact ⟨final, turns, run⟩

theorem Doomed.before (reaches : Reaches openFile s s') (doomed : Doomed openFile s') : Doomed openFile s :=
  fun s'' ends => doomed s'' (reaches.ends_after ends)

theorem doomed_tooDeep {name : Bytes} {line : Int} (ends : Ends openFile s (.tooDeep name line)) :
    Doomed openFile s := by
  intro s' done
  cases ends.unique done

theorem Result.after {result : Option (List Bytes)} (passes : Passes openFile s s' (textOf lines))
    (later : Result openFile s' result) : Result openFile s (result.map (lines ++ ·)) := by
  cases result with
  | none => exact Doomed.before passes.reaches later
  | some rest =>
    obtain ⟨last, reaches, ptr, stack, ended, lfLines, lineStart, copies⟩ := later
    refine ⟨last, passes.reaches.trans reaches, ptr.trans passes.ptr, fun i below => ?_, ended, lfLines,
      lineStart, ?_⟩
    · rw [stack i (by rw [passes.ptr]; exact below), passes.stack i below]
    · rw [copies, passes.copies, textOf_append, List.append_assoc]

end Runs

/-- The start condition at the start of a line. -/
def Mode.condition : Mode → Condition
  | .define => .de
  | _ => .initial

section Lines

variable {condition after : Condition} {action : Action} {line rest tail : Bytes} {mode : Mode}

/-- The actions that copy what they take. -/
def CopiesTo (openFile : OpenFile) (action : Action) (condition after : Condition) : Prop :=
  ∀ s yytext, s.condition = condition →
    act openFile action yytext s = .next { s.write yytext with noNewline := true, condition := after }

theorem copiesTo_echo (condition : Condition) : CopiesTo openFile .echo condition condition := by
  rintro s yytext rfl
  rfl

theorem copiesTo_de : CopiesTo openFile .de .initial .de := fun _ _ _ => rfl

theorem copiesTo_deEnd : CopiesTo openFile .deEnd .de .initial := fun _ _ _ => rfl

theorem mode_condition (mode : Mode) : mode.condition = .initial ∨ mode.condition = .de := by
  cases mode <;> simp [Mode.condition]

/-- A newline is copied at the end of a line, or of an empty one. -/
theorem copies_newline (inMode : s.condition = mode.condition) (left : s.buffer.rest = newline :: rest)
    (lfLines : LfLines s.out) :
    ∃ s', Passes openFile s s' [newline] ∧ AtLine s' mode.condition rest := by
  have taken : token s.condition s.buffer = (.newline, [newline].length) := by
    rw [inMode, show s.buffer = ⟨newline :: rest, s.buffer.atBol⟩ by rw [← left]]
    rcases mode_condition mode with initial | inDe
    · rw [initial]
      exact token_newline
    · rw [inDe]
      exact token_de_newline
  have once := @step_token openFile s .newline [newline] rest left (by simp) taken
  exact ⟨_, ⟨.step once (.refl _), rfl, fun _ _ => rfl, by simp [State.write, State.setLine]⟩,
    ⟨inMode, rfl, rfl, lfLines.text _, atLineStart_newline _ []⟩⟩

/-- A token that is a whole line is copied. -/
theorem copies_token (atLine : AtLine s condition (line ++ tail)) (nonempty : line ≠ []) (isLine : newline ∉ line)
    (taken : token condition ⟨line ++ tail, true⟩ = (action, line.length))
    (copies : CopiesTo openFile action condition after) :
    ∃ s', Passes openFile s s' line ∧ s'.condition = after ∧ s'.buffer = ⟨tail, false⟩ ∧ s'.noNewline = true ∧
      LfLines s'.out := by
  have inLine : (line.getLast? == some newline) = false := by
    rw [beq_eq_false_iff_ne]
    exact fun last => isLine (List.mem_of_getLast? last)
  have once := @step_token openFile s action line tail (by rw [atLine.buffer]) nonempty
    (by rw [atLine.condition, atLine.buffer]; exact taken)
  have acts := copies { s with buffer := ⟨tail, line.getLast? == some newline⟩ } line atLine.condition
  rw [acts, inLine] at once
  exact ⟨_, ⟨.step once (.refl _), rfl, fun _ _ => rfl, by simp [State.write]⟩, rfl, rfl, rfl, atLine.lfLines.text _⟩

/-- The line of a token with its newline. -/
theorem copies_line (atLine : AtLine s condition (line ++ newline :: rest)) (nonempty : line ≠ [])
    (isLine : newline ∉ line)
    (taken : token condition ⟨line ++ newline :: rest, true⟩ = (action, line.length))
    (copies : CopiesTo openFile action condition mode.condition) :
    ∃ s', Passes openFile s s' (textOf [line]) ∧ AtLine s' mode.condition rest := by
  obtain ⟨s₁, first, inMode, buffer, _, lfLines⟩ := copies_token atLine nonempty isLine taken copies
  obtain ⟨s₂, second, atNext⟩ := copies_newline inMode (by rw [buffer]) lfLines
  exact ⟨s₂, by simpa using first.trans second, atNext⟩

/-- A token at the end of a file. -/
theorem copies_last (atLine : AtLine s condition line) (nonempty : line ≠ []) (isLine : newline ∉ line)
    (taken : token condition ⟨line, true⟩ = (action, line.length))
    (copies : CopiesTo openFile action condition after) :
    Finishes openFile s [line] := by
  obtain ⟨s₁, first, _, buffer, noisy, lfLines⟩ :=
    @copies_token openFile s condition after action line [] (by simpa using atLine) nonempty isLine
      (by simpa using taken) copies
  exact finishes_noisy first (by rw [buffer]) noisy lfLines (by simp)

/-- A line that is copied by itself, as a token of its mode. -/
theorem line_token (openFile : OpenFile) (nonempty : line ≠ []) (isLine : newline ∉ line) (stops : Stops isAny tail)
    (notLf : isLfLine line = false) (looks : mode ≠ .swallow) (notSo : mode = .copy → isSoLine line = false)
    (notLone : mode = .copy → line ∈ loneLines → tail = []) :
    ∃ action, token mode.condition ⟨line ++ tail, true⟩ = (action, line.length) ∧
      CopiesTo openFile action mode.condition (nextMode mode line).condition := by
  cases mode with
  | swallow => exact absurd rfl looks
  | copy =>
    cases isDe : startsDefinition line with
    | true =>
      have mode : nextMode .copy line = .define := by simp [nextMode, isDe]
      rw [mode]
      rw [startsDefinition, Bool.and_eq_true, decide_eq_true_eq] at isDe
      obtain ⟨more, rfl⟩ := List.isPrefixOf_iff_prefix.mp isDe.1
      cases more with
      | nil => exact absurd isDe.2 (by decide)
      | cons c more =>
        exact ⟨.de, token_de (fun member => isLine (List.mem_append_right _ member)) stops, copiesTo_de⟩
    | false =>
      have mode : (nextMode .copy line).condition = .initial := by
        simp only [nextMode, isDe, Bool.false_eq_true, if_false]
        split <;> rfl
      rw [mode]
      refine ⟨.echo, ?_, copiesTo_echo _⟩
      by_cases lone : line ∈ loneLines
      · rw [notLone rfl lone, List.append_nil]
        exact token_lone_end lone
      · exact token_plain nonempty isLine stops (notSo rfl) notLf isDe lone
  | define =>
    cases isEnd : endsDefinition line with
    | true =>
      have mode : nextMode .define line = .copy := by simp [nextMode, isEnd]
      rw [mode]
      obtain ⟨more, rfl⟩ := List.isPrefixOf_iff_prefix.mp isEnd
      exact ⟨.deEnd, token_de_end (fun member => isLine (List.mem_append_right _ member)) stops, copiesTo_deEnd⟩
    | false =>
      have mode : nextMode .define line = .define := by simp [nextMode, isEnd]
      rw [mode]
      refine ⟨.echo, token_de_text nonempty isLine stops fun _ rest starts => ?_, copiesTo_echo _⟩
      rw [starts] at isEnd
      cases isEnd

end Lines

section Requests

variable {texts : Bytes → Prop} {line tail rest blanks file after : Bytes} {depth : Nat}

/-- A line of a source file: not a `.lf` request, and if it starts as a `.so` request
does, one with the name of a file that opens. -/
def SourceLine (openFile : OpenFile) (texts : Bytes → Prop) (line : Bytes) : Prop :=
  isLfLine line = false ∧ (isSoLine line = true → ∃ blanks file after name content,
    line = ascii ".so" ++ blanks ++ file ++ after ∧ (∀ b ∈ blanks ++ after, isBlank b = true) ∧ file ≠ [] ∧
    (∀ b ∈ file, isFileByte b = true ∧ b ≠ 0) ∧ openFile file = some (name, content) ∧ texts content)

/-- The texts of source files that include each other. -/
def Sources (openFile : OpenFile) (texts : Bytes → Prop) : Prop :=
  ∀ text, texts text → ∀ line ∈ linesOf text, SourceLine openFile texts line

/-- What a request stands for at some depth. -/
def includedAt (openFile : OpenFile) : Nat → Bytes → Option (List Bytes)
  | 0, _ => none
  | depth + 1, file => (openFile file).bind fun opened => scan openFile depth opened.2

theorem scan_eq (openFile : OpenFile) (depth : Nat) (text : Bytes) :
    scan openFile depth text = scanLines (includedAt openFile depth) (endsInNewline text) .copy (linesOf text) := by
  cases depth <;> rfl

theorem isBlank_not_file : ∀ b, isBlank b = true → isFileByte b = false := forall_byte (by decide)

theorem soLine_parts (isBlanks : ∀ b ∈ blanks ++ after, isBlank b = true) (nonempty : file ≠ [])
    (isName : ∀ b ∈ file, isFileByte b = true ∧ b ≠ 0) :
    soName (ascii ".so" ++ blanks ++ file ++ after) = file ∧
      soAfter (ascii ".so" ++ blanks ++ file ++ after) = after := by
  have blanksOnly : ∀ b ∈ blanks, isBlank b = true := fun b member => isBlanks b (List.mem_append_left _ member)
  have nameOnly : ∀ b ∈ file, isFileByte b = true := fun b member => (isName b member).1
  have args : ((ascii ".so" ++ blanks ++ file ++ after).drop 3).dropWhile isBlank = file ++ after := by
    have drops : (ascii ".so" ++ blanks ++ file ++ after).drop 3 = blanks ++ (file ++ after) := by simp [ascii]
    rw [drops, List.dropWhile_append_of_pos blanksOnly]
    obtain ⟨c, file, rfl⟩ := List.exists_cons_of_ne_nil nonempty
    refine List.dropWhile_cons_of_neg fun blank => ?_
    have inName := nameOnly c (List.mem_cons_self ..)
    rw [isBlank_not_file c blank] at inName
    cases inName
  rw [soName, soAfter, args, List.takeWhile_append_of_pos nameOnly, List.dropWhile_append_of_pos nameOnly]
  cases after with
  | nil => simp
  | cons c after =>
    have outside := isBlank_not_file c (isBlanks c (by simp))
    simp [outside]

theorem after_stops {cls : UInt8 → Bool} (isBlanks : ∀ b ∈ after, isBlank b = true) (stops : Stops isAny tail)
    (apart : ∀ b, isBlank b = true ∨ b = newline → cls b = false) : Stops cls (after ++ tail) := by
  intro b head
  cases after with
  | nil => exact apart b (Or.inr (by simpa [isAny] using stops b head))
  | cons c after =>
    cases head
    exact apart b (Or.inl (isBlanks b (List.mem_cons_self ..)))

theorem act_extends {action : Action} {yytext : Bytes} (acts : act openFile action yytext s = .next s') :
    s.out <+: s'.out := by
  cases action with
  | soFile =>
    cases opens : openFile (cString yytext) with
    | none =>
      rw [(soFile_refuses opens acts).out]
      exact List.prefix_append ..
    | some opened =>
      rw [(soFile_enters opens acts).out]
      exact List.prefix_append ..
  | lfName =>
    cases acts
    exact (List.prefix_append ..).trans (List.prefix_append ..)
  | so | endRequest =>
    cases acts
    exact List.prefix_rfl
  | _ =>
    cases acts
    exact List.prefix_append ..

theorem act_not_done {action : Action} {yytext : Bytes} : act openFile action yytext s ≠ .done s' := by
  intro done
  cases action with
  | soFile =>
    simp only [act, soFile] at done
    split at done
    · cases done
    · split at done <;> cases done
  | _ => cases done

/-- What was written stays. -/
theorem step_extends (turn : step openFile s = .next s' ∨ step openFile s = .done s') : s.out <+: s'.out := by
  by_cases ended : s.buffer.rest = []
  · rw [step_end ended] at turn
    by_cases top : s.soStackPtr = 0
    · rw [endOfFile_top top] at turn
      rcases turn with next | done
      · cases next
      · cases done
        exact List.prefix_append ..
    · rw [endOfFile_included top] at turn
      rcases turn with next | done
      · cases next
        exact (List.prefix_append ..).trans (List.prefix_append ..)
      · cases done
  · rw [step, if_neg ended] at turn
    rcases turn with next | done
    · have within := act_extends next
      exact within
    · exact absurd done act_not_done

theorem doomed_of_lf (wrong : ¬LfLines s.out) : Doomed openFile s := by
  rintro last ⟨final, turns, run⟩ ⟨lfLines, _⟩
  have persists : ∀ {s' : State}, s.out <+: s'.out → ¬LfLines s'.out := by
    rintro s' ⟨more, whole⟩ right
    rw [← whole] at right
    exact wrong right.of_append
  clear wrong
  induction turns generalizing s with
  | zero => cases run
  | succ turns ih =>
    rw [yylex] at run
    cases once : step openFile s with
    | next s' =>
      rw [once] at run
      refine ih run fun within => persists ((step_extends (Or.inl once)).trans within)
    | done s' =>
      rw [once] at run
      cases run
      exact persists (step_extends (Or.inr once)) lfLines
    | tooDeep name line =>
      rw [once] at run
      cases run

/-- In a request that has been read, only blanks and a newline are not copied. -/
theorem token_glued {b : UInt8} {atBol : Bool} (noNewline : newline ∉ b :: blanks) :
    token .endRequest ⟨b :: blanks, atBol⟩ = (.default, 1) := by
  have unmatched : longest [.star isBlank, .one (isByte newline)] (b :: blanks) = none := by
    cases found : longest [.star isBlank, .one (isByte newline)] (b :: blanks) with
    | none => rfl
    | some n =>
      obtain ⟨c, member, same⟩ := (longest_matches found).has_one (show Atom.one (isByte newline) ∈ _ by simp)
      rw [beq_iff_eq.mp same] at member
      exact absurd (List.mem_of_mem_take member) noNewline
  cases atBol <;> simp [token, rules, select, Rule.Applies, unmatched]

/-- Blanks that are copied after a request, at the end of a file. -/
theorem doomed_glued (inEnd : s.condition = .endRequest) (quiet : s.noNewline = false)
    (isBlanks : ∀ b ∈ s.buffer.rest, isBlank b = true) (glued : s.buffer.rest = [] → ¬AtLineStart s.out) :
      Doomed openFile s := by
  generalize left : s.buffer.rest = blanks at isBlanks glued
  induction blanks generalizing s with
  | nil =>
    have wrong := glued rfl
    by_cases top : s.soStackPtr = 0
    · intro last ends
      have final := Ends.of_step (by simp) ((@step_end openFile s left).trans (endOfFile_top top))
      cases final.unique ends
      rintro ⟨_, lineStart⟩
      simp [quiet, wrong] at lineStart
    · have once : step openFile s = .next s.popped := (step_end left).trans (endOfFile_included top)
      refine Doomed.before (.step once (.refl _)) (doomed_of_lf fun lfLines => ?_)
      have out : s.popped.out = s.out ++ [.lf (s.soLine (s.soStackPtr - 1) + 1)
        ((s.soName (s.soStackPtr - 1)).getD [])] := by
        simp [State.popped, quiet]
      exact wrong (lfLines s.out _ _ [] out)
  | cons b blanks ih =>
    have noNewline : newline ∉ b :: blanks := fun member => absurd (isBlanks newline member) (by decide)
    have taken : token s.condition s.buffer = (.default, [b].length) := by
      rw [inEnd, show s.buffer = ⟨b :: blanks, s.buffer.atBol⟩ by rw [← left]]
      exact token_glued noNewline
    have once := @step_token openFile s .default [b] blanks left (by simp) taken
    refine Doomed.before (.step once (.refl _))
      (ih inEnd quiet rfl (fun c member => isBlanks c (List.mem_cons_of_mem _ member)) ?_)
    rintro - (empty | last)
    · simp [State.write, written, Piece.bytes] at empty
    · have same : b = newline := by simpa [State.write, written, Piece.bytes] using last
      exact noNewline (by simp [same])

/-- A request asks for the file that it names. -/
theorem request_asks (openFile : OpenFile)
    (atLine : AtLine s .initial (ascii ".so" ++ blanks ++ file ++ after ++ tail)) (stops : Stops isAny tail)
    (isBlanks : ∀ b ∈ blanks ++ after, isBlank b = true) (nonempty : file ≠ [])
    (isName : ∀ b ∈ file, isFileByte b = true ∧ b ≠ 0) :
    ∃ s₁, step openFile s = .next s₁ ∧ step openFile s₁ =
      soFile openFile file { s with buffer := ⟨after ++ tail, false⟩, noNewline := true, condition := .so } := by
  have blanksOnly : ∀ b ∈ blanks, isBlank b = true := fun b member => isBlanks b (List.mem_append_left _ member)
  have afterOnly : ∀ b ∈ after, isBlank b = true := fun b member => isBlanks b (List.mem_append_right _ member)
  have nulFree : cString file = file := by
    refine List.takeWhile_eq_self_iff.mpr fun b member => ?_
    simpa using (isName b member).2
  have matched : Lexer.Matches (quoted isFileByte) file :=
    matches_unquoted nonempty fun b member => (isName b member).1
  have asks := @soRequest openFile s blanks file (after ++ tail) atLine.condition
    (by rw [atLine.buffer]; simp) blanksOnly
    matched (after_stops afterOnly stops isFileByte_apart) (after_stops afterOnly stops isQuote_apart)
  rwa [nulFree] at asks

/-- A request that opens a file is at the start of its text. -/
theorem request_opens {name content : Bytes}
    (atLine : AtLine s .initial (ascii ".so" ++ blanks ++ file ++ after ++ tail)) (stops : Stops isAny tail)
    (isBlanks : ∀ b ∈ blanks ++ after, isBlank b = true) (nonempty : file ≠ [])
    (isName : ∀ b ∈ file, isFileByte b = true ∧ b ≠ 0) (opens : openFile file = some (name, content))
    (room : s.soStackPtr ≠ maxSoDepth - 1) :
    ∃ s', Reaches openFile s s' ∧ AtLine s' .initial content ∧ s'.soStackPtr = s.soStackPtr + 1 ∧
      s'.soStack = Function.update s.soStack s.soStackPtr ⟨after ++ tail, false⟩ ∧ copied s'.out = copied s.out := by
  obtain ⟨s₁, first, second⟩ := request_asks openFile atLine stops isBlanks nonempty isName
  rw [soFile, if_neg room, opens] at second
  refine ⟨_, .step first (.step second (.refl _)), ⟨rfl, rfl, rfl, ?_, ?_⟩, rfl, rfl, by simp [State.setLine]⟩
  · exact atLine.lfLines.lf atLine.lineStart 1 file
  · exact atLineStart_lf s.out 1 file

/-- The end of an included file, with what follows its request on the stack. -/
structure Returns (openFile : OpenFile) (s s' : State) (after : Bytes) (lines : List Bytes) : Prop where
  reaches : Reaches openFile s s'
  ptr : s'.soStackPtr = s.soStackPtr + 1
  stack : ∀ i < s.soStackPtr, s'.soStack i = s.soStack i
  saved : s'.soStack (s'.soStackPtr - 1) = ⟨after, false⟩
  ended : s'.buffer.rest = []
  lfLines : LfLines s'.closing
  lineStart : AtLineStart s'.closing
  copies : copied s'.closing = copied s.out ++ textOf lines

theorem Returns.of_finishes (down : Reaches openFile s s') (ptr : s'.soStackPtr = s.soStackPtr + 1)
    (stack : s'.soStack = Function.update s.soStack s.soStackPtr ⟨after, false⟩)
    (copies : copied s'.out = copied s.out)
    (finishes : Finishes openFile s' lines) : ∃ last, Returns openFile s last after lines := by
  obtain ⟨last, up, samePtr, kept, ended, lfLines, lineStart, copiedAll⟩ := finishes
  refine ⟨last, down.trans up, samePtr.trans ptr, fun i below => ?_, ?_, ended, lfLines, lineStart, ?_⟩
  · rw [kept i (by omega), stack, Function.update_of_ne (by omega)]
  · rw [kept _ (by omega), stack, show last.soStackPtr - 1 = s.soStackPtr by omega, Function.update_self]
  · rw [copiedAll, copies]

/-- The turn that closes the file. -/
theorem Returns.popped (returns : Returns openFile s s' after lines) :
    Reaches openFile s s'.popped ∧ s'.popped.soStackPtr = s.soStackPtr ∧
      (∀ i < s.soStackPtr, s'.popped.soStack i = s.soStack i) ∧ s'.popped.buffer = ⟨after, false⟩ ∧
      LfLines s'.popped.out ∧ AtLineStart s'.popped.out ∧ copied s'.popped.out = copied s.out ++ textOf lines := by
  have included : s'.soStackPtr ≠ 0 := by
    rw [returns.ptr]
    omega
  have closes : step openFile s' = .next s'.popped := (step_end returns.ended).trans (endOfFile_included included)
  have out : s'.popped.out =
      s'.closing ++ [.lf (s'.soLine (s'.soStackPtr - 1) + 1) ((s'.soName (s'.soStackPtr - 1)).getD [])] := rfl
  refine ⟨returns.reaches.trans (.step closes (.refl _)), ?_, returns.stack, returns.saved, ?_, ?_, ?_⟩
  · rw [State.popped, returns.ptr]
    rfl
  · rw [out]
    exact returns.lfLines.lf returns.lineStart _ _
  · rw [out]
    exact atLineStart_lf _ _ _
  · rw [out, copied_append, copied_lf, List.append_nil, returns.copies]

/-- The rest of the line of the request is not copied. -/
theorem Returns.passes {rest : Bytes} (returns : Returns openFile s s' (after ++ newline :: rest) lines)
    (isBlanks : ∀ b ∈ after, isBlank b = true) :
    ∃ s'', Passes openFile s s'' (textOf lines) ∧ AtLine s'' .initial rest := by
  obtain ⟨reaches, ptr, stack, saved, lfLines, lineStart, copies⟩ := returns.popped
  have last := @endsRequest openFile s'.popped after rest rfl (by rw [saved]) isBlanks
  exact ⟨_, ⟨reaches.trans (.step last (.refl _)), ptr, stack, copies⟩, ⟨rfl, rfl, rfl, lfLines, lineStart⟩⟩

theorem Returns.finishes (returns : Returns openFile s s' [] lines) : Finishes openFile s lines := by
  obtain ⟨reaches, ptr, stack, saved, lfLines, lineStart, copies⟩ := returns.popped
  rw [← popped_closing] at lfLines lineStart copies
  exact ⟨s'.popped, reaches, ptr, stack, by rw [saved], lfLines, lineStart, copies⟩

theorem Returns.doomed (returns : Returns openFile s s' after lines) (isBlanks : ∀ b ∈ after, isBlank b = true)
    (glued : after ≠ []) : Doomed openFile s := by
  obtain ⟨reaches, _, _, saved, _⟩ := returns.popped
  refine Doomed.before reaches (doomed_glued rfl rfl ?_ ?_)
  · rw [saved]
    exact isBlanks
  · rw [saved]
    exact fun none => absurd none glued

/-- The files that can be included at some depth are read to their ends. -/
def ReadsBelow (openFile : OpenFile) (texts : Bytes → Prop) (depth : Nat) : Prop :=
  ∀ lower, depth = lower + 1 → ∀ s text, AtLine s .initial text → texts text →
    s.soStackPtr + lower = maxSoDepth - 1 → Result openFile s (scan openFile lower text)

/-- A request on a line of a source file. -/
theorem request_reads (atLine : AtLine s .initial (line ++ tail)) (stops : Stops isAny tail)
    (source : SourceLine openFile texts line) (isSo : isSoLine line = true)
    (room : s.soStackPtr + depth = maxSoDepth - 1)
    (reads : ReadsBelow openFile texts depth) :
    (includedAt openFile depth (soName line) = none → Doomed openFile s) ∧
      ∀ lines, includedAt openFile depth (soName line) = some lines →
        (∀ rest, tail = newline :: rest → ∃ s', Passes openFile s s' (textOf lines) ∧ AtLine s' .initial rest) ∧
        (tail = [] → if soAfter line = [] then Finishes openFile s lines else Doomed openFile s) := by
  obtain ⟨blanks, file, after, name, content, rfl, isBlanks, nonempty, isName, opens, isText⟩ := source.2 isSo
  obtain ⟨fileIs, afterIs⟩ := soLine_parts isBlanks nonempty isName
  have afterOnly : ∀ b ∈ after, isBlank b = true := fun b member => isBlanks b (List.mem_append_right _ member)
  rw [fileIs, afterIs]
  cases depth with
  | zero =>
    obtain ⟨s₁, first, second⟩ := request_asks openFile atLine stops isBlanks nonempty isName
    rw [soFile, if_pos (show s.soStackPtr = maxSoDepth - 1 from room)] at second
    refine ⟨fun _ => ?_, fun lines none => by cases none⟩
    exact doomed_tooDeep ((Reaches.step first (.refl s₁)).ends (.of_step (by simp) second))
  | succ lower =>
    obtain ⟨s₂, down, atChild, ptr, stack, copies⟩ :=
      request_opens atLine stops isBlanks nonempty isName opens (by omega)
    have child := reads lower rfl s₂ content atChild isText (by omega)
    rw [includedAt, opens]
    change (scan openFile lower content = none → _) ∧ ∀ lines, scan openFile lower content = some lines → _
    cases scanned : scan openFile lower content with
    | none =>
      rw [scanned] at child
      exact ⟨fun _ => Doomed.before down child, fun lines none => by cases none⟩
    | some text =>
      rw [scanned] at child
      obtain ⟨s₃, returns⟩ := Returns.of_finishes down ptr stack copies child
      refine ⟨fun none => (by cases none), ?_⟩
      rintro lines ⟨⟩
      constructor
      · rintro rest rfl
        exact returns.passes afterOnly
      · rintro rfl
        rw [List.append_nil] at returns
        by_cases empty : after = []
        · rw [if_pos empty]
          rw [empty] at returns
          exact returns.finishes
        · rw [if_neg empty]
          exact returns.doomed afterOnly empty

end Requests

section Files

variable {texts : Bytes → Prop} {line second tail last : Bytes} {depth : Nat} {mode : Mode}

/-- A line that takes the newline of the next is copied with it. -/
theorem copies_lone (atLine : AtLine s .initial (line ++ newline :: (second ++ tail))) (lone : line ∈ loneLines)
    (isLine : newline ∉ second) (stops : Stops isAny tail) :
    ∃ s', Passes openFile s s' (line ++ newline :: second) ∧ s'.condition = .initial ∧ s'.buffer.rest = tail ∧
      s'.noNewline = true ∧ LfLines s'.out := by
  have taken : token s.condition s.buffer = (.echo, (line ++ newline :: second).length) := by
    rw [atLine.condition, atLine.buffer, token_lone lone isLine stops]
    simp
    omega
  have once := @step_token openFile s .echo (line ++ newline :: second) tail (by rw [atLine.buffer]; simp)
    (by simp) taken
  exact ⟨_, ⟨.step once (.refl _), rfl, fun _ _ => rfl, by simp [State.write]⟩, atLine.condition, rfl, rfl,
    atLine.lfLines.text _⟩

/-- The line after the last newline, if there is one. -/
def lastLine (last : Bytes) : List Bytes := if last = [] then [] else [last]

/-- The last line of a file, without a newline. -/
theorem last_read (atLine : AtLine s mode.condition last) (looks : mode ≠ .swallow) (nonempty : last ≠ [])
    (isLine : newline ∉ last) (source : SourceLine openFile texts last) (room : s.soStackPtr + depth = maxSoDepth - 1)
    (reads : ReadsBelow openFile texts depth) :
    Result openFile s (scanLines (includedAt openFile depth) false mode [last]) := by
  by_cases request : mode = .copy ∧ isSoLine last = true
  · obtain ⟨rfl, isSo⟩ := request
    obtain ⟨unread, read⟩ := @request_reads openFile s texts last [] depth
      (by rw [List.append_nil]; exact atLine) stops_nil
      source isSo room reads
    have glued : Glued false last [] ↔ soAfter last ≠ [] := by simp [Glued]
    simp only [scanLines, isSo, so_nextMode isSo, glued, and_self, if_true]
    cases included : includedAt openFile depth (soName last) with
    | none => simpa [Result] using unread included
    | some lines =>
      have result := (read lines included).2 rfl
      by_cases after : soAfter last = []
      · rw [if_pos after] at result
        simpa [after, Result] using result
      · rw [if_neg after] at result
        simpa [after, Result] using result
  · have notSo : mode = .copy → isSoLine last = false :=
      fun copy => Bool.eq_false_iff.mpr fun isSo => request ⟨copy, isSo⟩
    obtain ⟨action, taken, copies⟩ :=
      @line_token last [] mode openFile nonempty isLine stops_nil source.1 looks notSo fun _ _ => rfl
    have finishes := copies_last atLine nonempty isLine (by simpa using taken) copies
    simpa [scanLines, request, Result] using finishes

theorem lone_nextMode (lone : line ∈ loneLines) : nextMode .copy line = .swallow := by
  have notDe : startsDefinition line = false := by
    simp only [loneLines, List.mem_cons, List.not_mem_nil, or_false] at lone
    rcases lone with rfl | rfl | rfl <;> rfl
  simp [nextMode, notDe, lone]

/-- At the end of a file, such a line has its newline doubled. -/
theorem lone_finishes (atLine : AtLine s .initial (line ++ newline :: last)) (lone : line ∈ loneLines)
    (isLast : newline ∉ last) :
    Finishes openFile s [line, last] := by
  obtain ⟨s', passes, _, ended, noisy, lfLines⟩ :=
    @copies_lone openFile s line last [] (by rw [List.append_nil]; exact atLine) lone isLast stops_nil
  exact finishes_noisy passes ended noisy lfLines (by simp)

/-- Elsewhere, the scanner is at the line after the next. -/
theorem lone_passes {rest : Bytes} (atLine : AtLine s .initial (line ++ newline :: (second ++ newline :: rest)))
    (lone : line ∈ loneLines) (isSecond : newline ∉ second) :
    ∃ s', Passes openFile s s' (textOf [line, second]) ∧ AtLine s' .initial rest := by
  obtain ⟨s₁, first, initial, left, _, lfLines⟩ := copies_lone atLine lone isSecond (stops_newline _)
  obtain ⟨s₂, ending, atNext⟩ := @copies_newline openFile s₁ _ .copy initial left lfLines
  exact ⟨s₂, by simpa using first.trans ending, atNext⟩

/-- A line that is neither a request nor takes the newline of the next is copied. -/
theorem line_passes {rest : Bytes} (atLine : AtLine s mode.condition (line ++ newline :: rest))
    (looks : mode ≠ .swallow)
    (isLine : newline ∉ line) (notLf : isLfLine line = false) (notSo : mode = .copy → isSoLine line = false)
    (notLone : mode = .copy → line ∉ loneLines) :
    ∃ s', Passes openFile s s' (textOf [line]) ∧ AtLine s' (nextMode mode line).condition rest := by
  by_cases empty : line = []
  · subst empty
    obtain ⟨s', passes, atNext⟩ := copies_newline atLine.condition (by rw [atLine.buffer]; rfl) atLine.lfLines
    refine ⟨s', passes, ?_⟩
    cases mode with
    | swallow => exact absurd rfl looks
    | copy | define => exact atNext
  · obtain ⟨action, taken, copies⟩ := line_token openFile empty isLine (stops_newline _) notLf looks notSo
      fun copy lone => absurd lone (notLone copy)
    exact copies_line atLine empty isLine taken copies

theorem nextMode_looks (looks : mode ≠ .swallow) (notLone : mode = .copy → line ∉ loneLines) :
    nextMode mode line ≠ .swallow := by
  cases mode with
  | swallow => exact absurd rfl looks
  | copy =>
    simp only [nextMode, notLone rfl, if_false]
    split <;> simp
  | define =>
    simp only [nextMode]
    split <;> simp

/-- At the end of a file whose last line has its newline. -/
theorem nil_read (atLine : AtLine s mode.condition []) : Finishes openFile s [] := by
  refine ⟨s, .refl s, rfl, fun _ _ => rfl, by rw [atLine.buffer], ?_, ?_, ?_⟩ <;>
    simp [State.closing, atLine.quiet, atLine.lfLines, atLine.lineStart]

/-- A line that takes the newline of the next, if what follows the two is read. -/
theorem lone_read (atLine : AtLine s .initial (line ++ newline :: Separated.ofSegments newline lines last))
    (lone : line ∈ loneLines)
    (isLines : ∀ line ∈ lines, newline ∉ line) (isLast : newline ∉ last)
    (later : ∀ second rest s', lines = second :: rest → s'.soStackPtr = s.soStackPtr →
      AtLine s' .initial (Separated.ofSegments newline rest last) →
      Result openFile s' (scanLines (includedAt openFile depth) (last == []) .copy (rest ++ lastLine last))) :
    Result openFile s
      ((scanLines (includedAt openFile depth) (last == []) .swallow (lines ++ lastLine last)).map ([line] ++ ·)) := by
  cases lines with
  | nil =>
    have finishes : Finishes openFile s [line, last] := lone_finishes atLine lone isLast
    by_cases empty : last = []
    · subst empty
      exact finishes
    · have unended : (last == []) = false := beq_eq_false_iff_ne.mpr empty
      have whole : lastLine last = [last] := if_neg empty
      simpa [scanLines, nextMode, unended, whole, Result] using finishes
  | cons second rest =>
    rw [Separated.ofSegments_cons] at atLine
    obtain ⟨s', passes, atNext⟩ := lone_passes atLine lone (isLines second (List.mem_cons_self ..))
    have result := Result.after passes (later second rest s' rfl passes.ptr atNext)
    rw [List.cons_append, scanLines, if_neg (by simp)]
    simpa [nextMode, Function.comp_def] using result

/-- What follows the last newline. -/
theorem end_read (mode : Mode) (atLine : AtLine s mode.condition (Separated.ofSegments newline [] last))
    (looks : mode ≠ .swallow) (isLast : newline ∉ last)
    (sources : ∀ line ∈ lastLine last, SourceLine openFile texts line)
    (room : s.soStackPtr + depth = maxSoDepth - 1) (reads : ReadsBelow openFile texts depth) :
    Result openFile s (scanLines (includedAt openFile depth) (last == []) mode (lastLine last)) := by
  by_cases empty : last = []
  · subst empty
    have result : scanLines (includedAt openFile depth) (([] : Bytes) == []) mode (lastLine []) = some [] := by
      simp [lastLine, scanLines, looks]
    rw [result]
    exact nil_read atLine
  · have whole : lastLine last = [last] := if_neg empty
    have unended : (last == []) = false := beq_eq_false_iff_ne.mpr empty
    rw [whole] at sources ⊢
    rw [unended]
    exact last_read atLine looks empty isLast (sources last (List.mem_singleton_self _)) room reads

/-- A line and what follows it, if that is read from wherever the line leads to. -/
theorem line_read (mode : Mode) (atLine : AtLine s mode.condition (Separated.ofSegments newline (line :: lines) last))
    (looks : mode ≠ .swallow) (isLine : newline ∉ line) (isRest : ∀ other ∈ lines, newline ∉ other)
    (isLast : newline ∉ last) (source : SourceLine openFile texts line)
    (room : s.soStackPtr + depth = maxSoDepth - 1) (reads : ReadsBelow openFile texts depth)
    (later : ∀ {s' : State} {lines' : List Bytes} {mode' : Mode}, lines' <:+ lines → mode' ≠ .swallow →
      s'.soStackPtr = s.soStackPtr → AtLine s' mode'.condition (Separated.ofSegments newline lines' last) →
      Result openFile s' (scanLines (includedAt openFile depth) (last == []) mode' (lines' ++ lastLine last))) :
    Result openFile s
      (scanLines (includedAt openFile depth) (last == []) mode (line :: (lines ++ lastLine last))) := by
  rw [Separated.ofSegments_cons] at atLine
  by_cases request : mode = .copy ∧ isSoLine line = true
  · obtain ⟨rfl, isSo⟩ := request
    obtain ⟨unread, read⟩ := request_reads atLine (stops_newline _) source isSo room reads
    have notGlued : ¬Glued (last == []) line (lines ++ lastLine last) := by
      rintro ⟨unended, none, _⟩
      have nonempty : last ≠ [] := beq_eq_false_iff_ne.mp unended
      simp [lastLine, nonempty] at none
    rw [scanLines, if_pos ⟨rfl, isSo⟩, if_neg notGlued, so_nextMode isSo]
    cases included : includedAt openFile depth (soName line) with
    | none => exact unread included
    | some here =>
      obtain ⟨s', passes, atNext⟩ := (read here included).1 _ rfl
      exact .after passes (later (List.suffix_refl _) (by simp) passes.ptr atNext)
  · have notSo : mode = .copy → isSoLine line = false :=
      fun copy => Bool.eq_false_iff.mpr fun isSo => request ⟨copy, isSo⟩
    have scanned : scanLines (includedAt openFile depth) (last == []) mode (line :: (lines ++ lastLine last)) =
        (scanLines (includedAt openFile depth) (last == []) (nextMode mode line)
          (lines ++ lastLine last)).map ([line] ++ ·) := by
      rw [scanLines, if_neg request]
      rfl
    rw [scanned]
    by_cases lone : mode = .copy ∧ line ∈ loneLines
    · obtain ⟨rfl, isLone⟩ := lone
      rw [lone_nextMode isLone]
      refine lone_read atLine isLone isRest isLast fun second rest s' shape ptr atNext => ?_
      exact later (by rw [shape]; exact List.suffix_cons _ _) (by simp) ptr atNext
    · have notLone : mode = .copy → line ∉ loneLines := fun copy isLone => lone ⟨copy, isLone⟩
      obtain ⟨s', passes, atNext⟩ := line_passes atLine looks isLine source.1 notSo notLone
      exact .after passes (later (List.suffix_refl _) (nextMode_looks looks notLone) passes.ptr atNext)

/-- The lines of a file, and what follows the last newline. -/
theorem lines_read (mode : Mode) (atLine : AtLine s mode.condition (Separated.ofSegments newline lines last))
    (looks : mode ≠ .swallow)
    (isLines : ∀ line ∈ lines, newline ∉ line) (isLast : newline ∉ last)
    (sources : ∀ line ∈ lines ++ lastLine last, SourceLine openFile texts line)
    (room : s.soStackPtr + depth = maxSoDepth - 1)
    (reads : ReadsBelow openFile texts depth) :
    Result openFile s (scanLines (includedAt openFile depth) (last == []) mode (lines ++ lastLine last)) := by
  -- a line may take the next one with it, so the induction is on the number of lines
  generalize long : lines.length = n
  induction n using Nat.strong_induction_on generalizing lines mode s with
  | _ n ih =>
    cases lines with
    | nil => exact end_read mode atLine looks isLast sources room reads
    | cons line lines =>
      have isRest : ∀ other ∈ lines, newline ∉ other :=
        fun other member => isLines other (List.mem_cons_of_mem _ member)
      refine line_read mode atLine looks (isLines line (List.mem_cons_self ..)) isRest isLast
        (sources line (by simp)) room reads fun {s' lines' mode'} within looks' ptr atLine' => ?_
      have shorter := within.length_le
      refine ih lines'.length (by rw [List.length_cons] at long; omega) mode' atLine' looks'
        (fun other member => isRest other (within.subset member)) (fun other member => sources other ?_)
          (by omega) rfl
      rw [List.cons_append]
      refine List.mem_cons_of_mem _ ?_
      rcases List.mem_append.mp member with inLines | inLast
      · exact List.mem_append_left _ (within.subset inLines)
      · exact List.mem_append_right _ inLast

/-- A file, at the start of its text. -/
theorem file_read (sources : Sources openFile texts) (depth : Nat) {text : Bytes} (atLine : AtLine s .initial text)
    (isSource : ∀ line ∈ linesOf text, SourceLine openFile texts line)
    (room : s.soStackPtr + depth = maxSoDepth - 1) :
    Result openFile s (scan openFile depth text) := by
  induction depth generalizing s text with
  | zero =>
    rw [scan_eq]
    refine lines_read .copy ?_ (by simp) (Separated.segments_clean newline text).1
      (Separated.segments_clean newline text).2
      isSource room (fun lower none => by cases none)
    rw [Separated.segments_join]
    exact atLine
  | succ depth ih =>
    rw [scan_eq]
    refine lines_read .copy ?_ (by simp) (Separated.segments_clean newline text).1
      (Separated.segments_clean newline text).2
      isSource room ?_
    · rw [Separated.segments_join]
      exact atLine
    · rintro lower ⟨⟩ s text atLine isText room
      exact ih atLine (sources text isText) room

end Files

section Top

variable {texts : Bytes → Prop} {d : Decompress} {name text : Bytes} {before : List Bytes}

theorem textOf_injective {lines lines' : List Bytes} (clean : ∀ line ∈ lines, newline ∉ line)
    (clean' : ∀ line ∈ lines', newline ∉ line) (same : textOf lines = textOf lines') : lines = lines' := by
  have first := Separated.segments_ofSegments clean List.not_mem_nil
  have second := Separated.segments_ofSegments clean' List.not_mem_nil
  change Separated.segments newline (textOf lines) = _ at first
  change Separated.segments newline (textOf lines') = _ at second
  rw [same, second] at first
  exact (Prod.mk.inj first).1.symm

theorem textOf_ends (lines : List Bytes) : textOf lines = [] ∨ (textOf lines).getLast? = some newline := by
  induction lines using List.reverseRecOn with
  | nil => exact Or.inl rfl
  | append_singleton lines line _ =>
    refine Or.inr ?_
    rw [textOf_append, show textOf [line] = line ++ [newline] by simp, ← List.append_assoc, List.getLast?_concat]

/-- The whole run, from the start of the text. -/
theorem top_iff (top : s.soStackPtr = 0) (copies : copied s.out = textOf before) {result : Option (List Bytes)}
    (reads : Result openFile s result) (cleanBefore : ∀ line ∈ before, newline ∉ line)
    (cleanResult : ∀ text, result = some text → ∀ line ∈ text, newline ∉ line)
    (cleanLines : ∀ line ∈ lines, newline ∉ line) :
    (∃ s', Ends openFile s (.done s') ∧ LfLines s'.out ∧ copied s'.out = textOf lines) ↔
      result.map (before ++ ·) = some lines := by
  cases result with
  | none =>
    refine iff_of_false ?_ (by simp)
    rintro ⟨s', ends, lfLines, copiedAll⟩
    exact reads s' ends ⟨lfLines, atLineStart_of_copied lfLines (by rw [copiedAll]; exact textOf_ends lines)⟩
  | some out =>
    obtain ⟨s', reaches, ptr, _, ended, lfLines, _, whole⟩ := reads
    have final := reaches.ends (.of_step (by simp)
      ((@step_end openFile s' ended).trans (endOfFile_top (ptr.trans top))))
    have total : copied s'.closing = textOf (before ++ out) := by rw [whole, copies, textOf_append]
    simp only [Option.map_some, Option.some.injEq]
    constructor
    · rintro ⟨last, ends, _, copiedAll⟩
      cases final.unique ends
      refine textOf_injective ?_ cleanLines (total.symm.trans copiedAll)
      intro line member
      rcases List.mem_append.mp member with inBefore | inOut
      · exact cleanBefore line inBefore
      · exact cleanResult out rfl line inOut
    · rintro rfl
      exact ⟨_, final, lfLines, total⟩

/-- A first line with its newline. -/
theorem firstLine_ended (ended : (firstLine d).getLast? = some newline) :
    ∃ line rest, firstLine d = line ++ [newline] ∧ newline ∉ line ∧ d.remaining = line ++ newline :: rest := by
  obtain ⟨line, shape⟩ := List.getLast?_eq_some_iff.mp ended
  obtain ⟨rest, whole, _⟩ := firstLine_split d
  have nonempty : firstLine d ≠ [] := by simp [shape]
  obtain ⟨peeked, more, found, starts⟩ := firstLine_starts nonempty
  rw [starts, shape, List.append_assoc] at found
  exact ⟨line, rest, shape, lineAt_newline found, by rw [whole, shape]; simp⟩

/-- A first line that is skipped is text. -/
theorem skipsLine_plain {line : Bytes} (skips : skipsLine (line ++ [newline]) = true) :
    isSoLine line = false ∧ isLfLine line = false ∧ startsDefinition line = false ∧ line ∉ loneLines := by
  have within : ∀ cookie : Bytes, cookie.isPrefixOf (line ++ [newline]) = true → newline ∉ cookie →
    ∃ more, line = cookie ++ more := by
    intro cookie starts clean
    rcases List.prefix_concat_iff.mp (List.isPrefixOf_iff_prefix.mp starts) with same | inLine
    · exact absurd (by rw [same]; simp) clean
    · obtain ⟨more, rfl⟩ := inLine
      exact ⟨more, rfl⟩
  rw [skipsLine, Bool.or_eq_true] at skips
  rcases skips with cookie | comment
  · obtain ⟨more, rfl⟩ := within _ cookie (by decide)
    exact ⟨rfl, rfl, rfl, by simp [loneLines, ascii, ppCookie]⟩
  · obtain ⟨more, rfl⟩ := within _ comment (by decide)
    exact ⟨rfl, rfl, rfl, by simp [loneLines, ascii]⟩

theorem linesOf_append_cons {line rest : Bytes} (isLine : newline ∉ line) :
    linesOf (line ++ newline :: rest) = line :: linesOf rest ∧
      endsInNewline (line ++ newline :: rest) = endsInNewline rest := by
  simp [linesOf, endsInNewline, Separated.segments_append_cons isLine]

/-- A line that is only copied. -/
theorem scan_plain {line rest : Bytes} {depth : Nat} (isLine : newline ∉ line) (notSo : isSoLine line = false)
    (notDe : startsDefinition line = false) (notLone : line ∉ loneLines) :
    scan openFile depth (line ++ newline :: rest) = (scan openFile depth rest).map ([line] ++ ·) := by
  obtain ⟨isLines, isEnded⟩ := @linesOf_append_cons line rest isLine
  rw [scan_eq, scan_eq, isLines, isEnded, scanLines, if_neg (by simp [notSo])]
  simp [nextMode, notDe, notLone]

end Top

theorem parseFile_copies_iff {d : Decompress} {name : Bytes} {lines : List Bytes} :
    (∃ turns s, parseFile openFile turns d name = .done s ∧ LfLines s.out ∧ copied s.out = textOf lines) ↔
      ∃ s, Ends openFile (parseFileStart d name) (.done s) ∧ LfLines s.out ∧ copied s.out = textOf lines := by
  constructor
  · rintro ⟨turns, s, done, right⟩
    exact ⟨s, ⟨by simp, turns, done⟩, right⟩
  · rintro ⟨s, ⟨_, turns, done⟩, right⟩
    exact ⟨turns, s, done, right⟩

theorem parseFileStart_out (d : Decompress) (name : Bytes) :
    (parseFileStart d name).out = (if skipsLine (firstLine d) then [.text (firstLine d)] else []) ++
      [.lf (if skipsLine (firstLine d) then 2 else 1) name] := rfl

/-- A page whose first line is not skipped. -/
theorem expands_whole_iff {texts : Bytes → Prop} {d : Decompress} {name : Bytes} {lines : List Bytes}
    (sources : Sources openFile texts) (top : texts d.remaining)
    (expanded : expand openFile 9 d.remaining = some lines) (skips : skipsLine (firstLine d) = false) :
    (∃ s, Ends openFile (parseFileStart d name) (.done s) ∧ LfLines s.out ∧ copied s.out = textOf lines) ↔
      Clean openFile 9 d.remaining := by
  have buffer := @parseFileStart_buffer d name
  have out := parseFileStart_out d name
  rw [skips] at buffer out
  have atLine : AtLine (parseFileStart d name) .initial d.remaining := by
    refine ⟨rfl, buffer, rfl, ?_, ?_⟩ <;> rw [out]
    · exact LfLines.nil.lf (Or.inl rfl) 1 name
    · exact atLineStart_lf [] 1 name
  have reads := file_read sources 9 atLine (sources _ top) rfl
  have whole := @top_iff openFile _ lines [] rfl (by rw [out]; rfl) _ reads (by simp) (fun _ => scan_clean)
    (expand_clean expanded)
  rw [whole, ← scan_eq_iff expanded]
  simp

/-- A page whose first line is skipped, with its newline. -/
theorem expands_skipped_iff {texts : Bytes → Prop} {d : Decompress} {name : Bytes} {lines : List Bytes}
    (sources : Sources openFile texts) (top : texts d.remaining)
    (expanded : expand openFile 9 d.remaining = some lines) (skips : skipsLine (firstLine d) = true)
    (ended : (firstLine d).getLast? = some newline) :
    (∃ s, Ends openFile (parseFileStart d name) (.done s) ∧ LfLines s.out ∧ copied s.out = textOf lines) ↔
      Clean openFile 9 d.remaining := by
  have buffer := @parseFileStart_buffer d name
  have out := parseFileStart_out d name
  rw [skips] at buffer out
  obtain ⟨line, rest, shape, isLine, remaining⟩ := firstLine_ended ended
  obtain ⟨notSo, _, notDe, notLone⟩ := skipsLine_plain (by rw [← shape]; exact skips)
  have atLine : AtLine (parseFileStart d name) .initial rest := by
    refine ⟨rfl, ?_, rfl, ?_, ?_⟩
    · rw [buffer, shape, remaining, if_pos rfl,
        show line ++ newline :: rest = (line ++ [newline]) ++ rest by simp,
        List.drop_left]
    · rw [out, shape]
      exact (LfLines.nil.text _).lf (atLineStart_newline [] line) 2 name
    · rw [out]
      exact atLineStart_lf _ 2 name
  have isSource : ∀ other ∈ linesOf rest, SourceLine openFile texts other := by
    intro other member
    refine sources _ top other ?_
    rw [remaining, (linesOf_append_cons isLine).1]
    exact List.mem_cons_of_mem _ member
  have reads := file_read sources 9 atLine isSource rfl
  have whole := @top_iff openFile _ lines [line] rfl (by rw [out, shape]; simp [copied]) _ reads
    (by simpa using isLine)
    (fun _ => scan_clean) (expand_clean expanded)
  rw [whole, ← scan_eq_iff expanded, remaining, scan_plain isLine notSo notDe notLone]

/-- Without its newline, the request for the first number is not on a line of its own. -/
theorem skipped_unended {d : Decompress} {name : Bytes} {lines : List Bytes} (skips : skipsLine (firstLine d) = true)
    (unended : (firstLine d).getLast? ≠ some newline) :
    ¬∃ s, Ends openFile (parseFileStart d name) (.done s) ∧ LfLines s.out ∧ copied s.out = textOf lines := by
  have out := parseFileStart_out d name
  rw [skips] at out
  rintro ⟨s, ends, lfLines, copiedAll⟩
  have glued : ¬LfLines (parseFileStart d name).out := by
    intro right
    have lineStart := right [.text (firstLine d)] 2 name [] out
    rcases lineStart with empty | last
    · have none : firstLine d = [] := by simpa [written, Piece.bytes] using empty
      rw [none] at skips
      cases skips
    · exact unended (by simpa [written, Piece.bytes] using last)
  exact doomed_of_lf glued s ends
    ⟨lfLines, atLineStart_of_copied lfLines (by rw [copiedAll]; exact textOf_ends lines)⟩

/-- The top file is one of lines, and those it includes: zsoelim gives the expanded text if
and only if at every `.so` line that it gets to it looks for requests just outside the
definitions, no file ends after a line that takes the newline of the next or with a
request that blanks follow, and a first line that is skipped has its newline. -/
theorem zsoelim_expands_iff {openFile : OpenFile} {texts : Bytes → Prop} {d : Decompress} {name : Bytes}
    {lines : List Bytes}
    (sources : Sources openFile texts) (top : texts d.remaining)
    (expanded : expand openFile 9 d.remaining = some lines) :
    (∃ turns s, parseFile openFile turns d name = .done s ∧ LfLines s.out ∧ copied s.out = textOf lines) ↔
      Clean openFile 9 d.remaining ∧ (skipsLine (firstLine d) = true → (firstLine d).getLast? = some newline) := by
  rw [parseFile_copies_iff]
  cases skips : skipsLine (firstLine d) with
  | false =>
    rw [expands_whole_iff sources top expanded skips]
    simp
  | true =>
    by_cases ended : (firstLine d).getLast? = some newline
    · rw [expands_skipped_iff sources top expanded skips ended]
      simp [ended]
    · exact iff_of_false (skipped_unended skips ended) fun both => ended (both.2 rfl)

/-- The texts of a page whose requests are for the file with one line. -/
def pageTexts (lines : List String) (text : Bytes) : Prop :=
  text = (pageOf lines).remaining ∨ text = ascii "x" ++ [newline]

theorem pageTexts_sources (lines : List String) (plain : ∀ line ∈ linesOf (pageOf lines).remaining,
    isLfLine line = false ∧ (isSoLine line = true → line = ascii ".so b.1")) : Sources oneLineFile
      (pageTexts lines) := by
  have included : SourceLine oneLineFile (pageTexts lines) (ascii "x") := ⟨rfl, fun isSo => by cases isSo⟩
  rintro text (rfl | rfl) line member
  · obtain ⟨notLf, request⟩ := plain line member
    refine ⟨notLf, fun isSo => ⟨ascii " ", ascii "b.1", [], _, _,
      ?_, by decide +kernel, by decide +kernel, by decide +kernel, rfl,
      Or.inr rfl⟩⟩
    rw [request isSo]
    rfl
  · have only : linesOf (ascii "x" ++ [newline]) = [ascii "x"] := by decide +kernel
    rw [only, List.mem_singleton] at member
    rw [member]
    exact included

theorem zsoelim_expands_page :
    ∃ turns s, parseFile oneLineFile turns (pageOf [".so b.1", "a"]) (ascii "p") = .done s ∧ LfLines s.out ∧
      copied s.out = textOf [ascii "x", ascii "a"] := by
  refine (zsoelim_expands_iff (pageTexts_sources [".so b.1", "a"] ?_) (Or.inl rfl) ?_).mpr ⟨?_, ?_⟩ <;> decide +kernel

/-- A line with a period only takes its newline, and the request after it is copied. -/
theorem zsoelim_skips_request :
    ¬∀ (openFile : OpenFile) (texts : Bytes → Prop) (d : Decompress) (name : Bytes) (lines : List Bytes),
      Sources openFile texts → texts d.remaining → expand openFile 9 d.remaining = some lines →
        ∃ turns s, parseFile openFile turns d name = .done s ∧ LfLines s.out ∧ copied s.out = textOf lines := by
  intro always
  obtain ⟨turns, s, done, _, right⟩ :=
    always oneLineFile (pageTexts [".", ".so b.1"]) (pageOf [".", ".so b.1"]) (ascii "p")
    [ascii ".", ascii "x"] (pageTexts_sources _ (by decide +kernel)) (Or.inl rfl) (by decide +kernel)
  have ends : ∃ s', parseFile oneLineFile 10 (pageOf [".", ".so b.1"]) (ascii "p") = .done s' ∧
      copied s'.out = textOf [ascii ".", ascii ".so b.1"] := ⟨_, rfl, by decide +kernel⟩
  obtain ⟨s', done', wrong⟩ := ends
  cases Ends.unique ⟨by simp, turns, done⟩ ⟨by simp, 10, done'⟩
  rw [right] at wrong
  revert wrong
  decide +kernel

end ManDb.Zsoelim
