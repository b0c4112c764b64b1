import ManDb.Zsoelim.Depth
import ManDb.Zsoelim.Lines

namespace ManDb.Zsoelim

open Lexer

/-- The number that a request `.lf M NAME` gives to the next line. -/
def lfRequest (line : Bytes) : Option Int :=
  let args := (line.drop 3).dropWhile isBlank
  let name := args.dropWhile isDigit
  if isLfLine line ∧ args.takeWhile isDigit ≠ [] ∧ (∃ b ∈ name.head?, isBlank b = true) ∧
    name.dropWhile isBlank ≠ [] then
    some (readDigits args)
  else none

/-- How far a file has been read: what was read of the current line, its number in
the numbering in force, and whether it lies in a macro definition. -/
structure Position where
  line : Bytes
  number : Int
  inDefinition : Bool
  deriving DecidableEq

/-- The start of the next line. In a definition no request is one. -/
def Position.nextLine (p : Position) : Position :=
  if p.inDefinition then ⟨[], p.number + 1, !endsDefinition p.line⟩
  else ⟨[], (lfRequest p.line).getD (p.number + 1), startsDefinition p.line⟩

def Position.advance (p : Position) (b : UInt8) : Position :=
  if b = newline then p.nextLine else { p with line := p.line ++ [b] }

/-- The position after some text of a file. -/
def position (read : Bytes) : Position := read.foldl Position.advance ⟨[], 1, false⟩

/-- What a turn takes. -/
def State.taken (s : State) : Bytes := s.buffer.rest.take (token s.condition s.buffer).2

/-- What has been read of the files on the stack after a turn. -/
def readAfter (s s' : State) (read : Nat → Bytes) : Nat → Bytes :=
  let read := Function.update read s.soStackPtr (read s.soStackPtr ++ s.taken)
  if s.soStackPtr < s'.soStackPtr then Function.update read s'.soStackPtr [] else read

/-- A run of zsoelim, with what has been read of the files on the stack. Each turn is
taken in a state with the property `good`. -/
inductive Run (openFile : OpenFile) (good : State → Prop) (d : Decompress) (name : Bytes) :
    State → (Nat → Bytes) → Prop
  | start : Run openFile good d name (parseFileStart d name) fun _ =>
      if skipsLine (firstLine d) then firstLine d else []
  | turn {s s' : State} {read : Nat → Bytes} (run : Run openFile good d name s read) (isGood : good s)
      (once : step openFile s = .next s') : Run openFile good d name s' (readAfter s s' read)

/-- Nothing but blanks is left of the line. -/
def EndsLine (rest : Bytes) : Prop :=
  rest = [] ∨ ∃ blanks more, rest = blanks ++ newline :: more ∧ ∀ b ∈ blanks, isBlank b = true

/-- What is left of a request `.lf M NAME` after its number. -/
def NamesFile (rest : Bytes) : Prop :=
  ∃ blanks file after more, rest = blanks ++ file ++ after ++ newline :: more ∧
    (∀ b ∈ blanks ++ after, isBlank b = true) ∧ Lexer.Matches (quoted isFileByte) file

/-- The tokens that leave the line numbers right, with what is left after them. Those
that do not are the ones with a newline within, the requests that fail or have more on
their line, and `.lf` requests with a number but not of the form `.lf M NAME`; each of
them only if a line ends after it. -/
def CountedToken (openFile : OpenFile) (action : Action) (taken rest : Bytes) : Prop :=
  match action with
  | .echo => newline ∈ taken → rest = [] ∧ taken.getLast? ≠ some newline
  | .soFile => if openFile (cString taken) = none then newline ∉ rest else EndsLine rest
  | .lfNumber =>
    newline ∈ rest → (∀ b ∈ taken, isDigit b = true) ∧ (∃ b ∈ rest.head?, isBlank b = true) ∧ NamesFile rest
  | _ => True

/-- The next turn takes such a token. -/
def Counted (openFile : OpenFile) (s : State) : Prop :=
  CountedToken openFile (token s.condition s.buffer).1 s.taken (s.buffer.rest.drop (token s.condition s.buffer).2)

/-- The next turn copies text. -/
def Copies (openFile : OpenFile) (s : State) : Prop :=
  ∃ s' bytes more, (step openFile s = .next s' ∨ step openFile s = .done s') ∧ s'.out = s.out ++ .text bytes :: more

variable {openFile : OpenFile} {s s' : State} {p : Position} {read text rest line tail : Bytes} {number : Int}
  {inDefinition : Bool}

section Positions

theorem position_append (read text : Bytes) : position (read ++ text) = text.foldl Position.advance (position read) :=
  List.foldl_append ..

theorem advance_line (isLine : newline ∉ text) :
    text.foldl Position.advance p = { p with line := p.line ++ text } := by
  induction text generalizing p with
  | nil => simp
  | cons b text ih =>
    have other : b ≠ newline := fun same => isLine (by simp [same])
    rw [List.foldl_cons, Position.advance, if_neg other, ih fun member => isLine (List.mem_cons_of_mem _ member)]
    simp

theorem advance_newline (isLine : newline ∉ text) :
    (text ++ [newline]).foldl Position.advance p = ({ p with line := p.line ++ text } : Position).nextLine := by
  rw [List.foldl_append, advance_line isLine]
  simp [Position.advance]

/-- What the end of the current line leads to. -/
def LineEnds (p : Position) (rest : Bytes) (number : Int) (inDefinition : Bool) : Prop :=
  ∀ more tail, newline ∉ more → rest = more ++ newline :: tail →
    ({ p with line := p.line ++ more } : Position).nextLine = ⟨[], number, inDefinition⟩

theorem LineEnds.taken (ends : LineEnds p (text ++ rest) number inDefinition) (isLine : newline ∉ text) :
    LineEnds (text.foldl Position.advance p) rest number inDefinition := by
  intro more tail inLine shape
  rw [advance_line isLine]
  have next := ends (text ++ more) tail (by simp [isLine, inLine]) (by rw [shape]; simp)
  simpa using next

/-- At the end of the text of a line. -/
theorem LineEnds.of_stops (stops : Stops isAny rest) (next : p.nextLine = ⟨[], number, inDefinition⟩) :
    LineEnds p rest number inDefinition := by
  intro more tail inLine shape
  cases more with
  | nil => simpa using next
  | cons b more =>
    have other : b ≠ newline := fun same => inLine (by simp [same])
    have same : b = newline := by simpa [isAny] using stops b (by rw [shape]; rfl)
    exact absurd same other

end Positions

section Top

variable {condition : Condition} {b : Buffer} {action : Action}

/-- The line number of the file on top of the stack is right: that of the current
line, or of the next one where the rest of the line will be skipped. -/
def TopRight (condition : Condition) (b : Buffer) (line : Int) (p : Position) : Prop :=
  match condition with
  | .initial =>
    line = p.number ∧ (if b.atBol then p.line = [] ∧ p.inDefinition = false else LineEnds p b.rest (line + 1) false)
  | .de => line = p.number ∧ (if b.atBol then p.line = [] ∧ p.inDefinition = true else LineEnds p b.rest
      (line + 1) true)
  | .so => b.atBol = false ∧ line = p.number ∧ LineEnds p b.rest (line + 1) false
  | .lfnumber =>
    b.atBol = false ∧ line = p.number ∧ p.inDefinition = false ∧
      ∃ blanks, p.line = ascii ".lf" ++ blanks ∧ (∀ b ∈ blanks, isBlank b = true) ∧ Stops isBlank b.rest
  | .lfname => b.atBol = false ∧ LineEnds p b.rest line false ∧ NamesFile b.rest
  | .endRequest => b.atBol = false ∧ LineEnds p b.rest line false ∧ EndsLine b.rest

/-- No other line of the file starts. -/
def LastLine (condition : Condition) (b : Buffer) : Prop := b.atBol = false ∧ newline ∉ b.rest ∧ condition ≠ .so

/-- What a token that opens no file leads to. -/
def Keeps (openFile : OpenFile) (condition : Condition) (b : Buffer) (line : Int) (p : Position) : Prop :=
  ∃ action text rest, b.rest = text ++ rest ∧ text ≠ [] ∧ token condition b = (action, text.length) ∧
    action ≠ .soFile ∧
    (CountedToken openFile action text rest →
      TopRight (conditionAfter action condition) ⟨rest, text.getLast? == some newline⟩ (lineAfter action text line)
        (text.foldl Position.advance p) ∨
      action ≠ .endRequest ∧ LastLine (conditionAfter action condition) ⟨rest, text.getLast? == some newline⟩)

theorem last_not_newline (isLine : newline ∉ text) : (text.getLast? == some newline) = false := by
  rw [beq_eq_false_iff_ne]
  exact fun last => isLine (List.mem_of_getLast? last)

/-- A line that is read as a whole, at its start. -/
theorem Keeps.whole (split : b.rest = text ++ rest) (nonempty : text ≠ []) (isLine : newline ∉ text)
    (stops : Stops isAny rest) (starts : p.line = []) (isNumber : number = p.number)
    (taken : token condition b = (action, text.length)) (plain : lineAfter action text number = number)
    (after : conditionAfter action condition = (if inDefinition then .de else .initial)) (notFile : action ≠ .soFile)
    (next : ({ p with line := text } : Position).nextLine = ⟨[], number + 1, inDefinition⟩) :
    Keeps openFile condition b number p := by
  refine ⟨action, text, rest, split, nonempty, taken, notFile, fun _ => Or.inl ?_⟩
  have ends : LineEnds (text.foldl Position.advance p) rest (number + 1) inDefinition := by
    refine .of_stops stops ?_
    rw [advance_line isLine, starts]
    exact next
  have same : (text.foldl Position.advance p).number = p.number := by rw [advance_line isLine]
  rw [after, plain, last_not_newline isLine]
  cases inDefinition with
  | false => exact ⟨isNumber.trans same.symm, ends⟩
  | true => exact ⟨isNumber.trans same.symm, ends⟩

/-- A newline that is counted. -/
theorem Keeps.counted (split : b.rest = newline :: rest) (next : p.nextLine = ⟨[], number + 1, inDefinition⟩)
    (taken : token condition b = (action, 1)) (counts : lineAfter action [newline] number = number + 1)
    (after : conditionAfter action condition = (if inDefinition then .de else .initial))
    (notFile : action ≠ .soFile) :
    Keeps openFile condition b number p := by
  refine ⟨action, [newline], rest, split, by simp, taken, notFile, fun _ => Or.inl ?_⟩
  have position : [newline].foldl Position.advance p = ⟨[], number + 1, inDefinition⟩ := by
    simpa [Position.advance] using next
  rw [after, counts, position]
  cases inDefinition with
  | false => exact ⟨rfl, rfl, rfl⟩
  | true => exact ⟨rfl, rfl, rfl⟩

/-- Some text of a line, after which the condition is the same. -/
theorem Keeps.text_ (split : b.rest = text ++ rest) (nonempty : text ≠ []) (isLine : newline ∉ text)
    (taken : token condition b = (action, text.length)) (notFile : action ≠ .soFile)
    (right : TopRight (conditionAfter action condition) ⟨rest, false⟩ (lineAfter action text number)
      (text.foldl Position.advance p)) : Keeps openFile condition b number p := by
  refine ⟨action, text, rest, split, nonempty, taken, notFile, fun _ => Or.inl ?_⟩
  rw [last_not_newline isLine]
  exact right

theorem nextLine_plain (outside : p.inDefinition = false) (notLf : isLfLine p.line = false)
    (notDe : startsDefinition p.line = false) : p.nextLine = ⟨[], p.number + 1, false⟩ := by
  have none : lfRequest p.line = none := by simp [lfRequest, notLf]
  simp [Position.nextLine, outside, none, notDe]

theorem nextLine_inside (inside : p.inDefinition = true) :
    p.nextLine = ⟨[], p.number + 1, !endsDefinition p.line⟩ := by
  simp [Position.nextLine, inside]

theorem line_split (rest : Bytes) :
    ∃ line tail, rest = line ++ tail ∧ newline ∉ line ∧ Stops isAny tail := by
  refine ⟨rest.takeWhile isAny, rest.dropWhile isAny, List.takeWhile_append_dropWhile.symm, fun member => ?_,
    stops_dropWhile isAny rest⟩
  exact absurd (List.mem_takeWhile_imp member) (by decide)

theorem stops_cons (stops : Stops isAny tail) (nonempty : tail ≠ []) : ∃ rest, tail = newline :: rest := by
  obtain ⟨c, rest, rfl⟩ := List.exists_cons_of_ne_nil nonempty
  have same : c = newline := by simpa [isAny] using stops c rfl
  exact ⟨rest, by rw [same]⟩

/-- The blanks that follow the start of a request. -/
theorem request_split {start : Bytes} (starts : start <+: line) (noNewline : newline ∉ start) :
    ∃ blanks rest, line ++ tail = start ++ blanks ++ rest ∧ (∀ b ∈ blanks, isBlank b = true) ∧ Stops isBlank rest ∧
      newline ∉ start ++ blanks := by
  obtain ⟨more, rfl⟩ := starts
  have isBlanks : ∀ b ∈ (more ++ tail).takeWhile isBlank, isBlank b = true := fun b => List.mem_takeWhile_imp
  refine ⟨(more ++ tail).takeWhile isBlank, (more ++ tail).dropWhile isBlank, ?_, isBlanks,
    stops_dropWhile isBlank _, fun member => ?_⟩
  · rw [List.append_assoc, List.append_assoc, List.takeWhile_append_dropWhile]
  · rcases List.mem_append.mp member with inStart | blank
    · exact noNewline inStart
    · exact absurd (isBlanks newline blank) (by decide)

/-- The start of a request at the start of a line. -/
theorem keeps_request (isNumber : number = p.number) (starts : p.line = []) (outside : p.inDefinition = false)
    (isRequest : isSoLine line = true ∨ isLfLine line = true) :
    Keeps openFile .initial ⟨line ++ tail, true⟩ number p := by
  rcases isRequest with isSo | isLf
  · obtain ⟨blanks, rest, split, isBlanks, ends, clean⟩ :=
      @request_split line tail _ (List.isPrefixOf_iff_prefix.mp isSo) (by decide)
    rw [split]
    refine .text_ rfl (by simp [ascii]) clean (token_so isBlanks ends) (by simp) ⟨rfl, ?_, ?_⟩
    · rw [advance_line clean]
      exact isNumber
    · intro more _ _ _
      rw [advance_line clean, starts, isNumber]
      exact nextLine_plain outside rfl rfl
  · obtain ⟨blanks, rest, split, isBlanks, ends, clean⟩ :=
      @request_split line tail _ (List.isPrefixOf_iff_prefix.mp isLf) (by decide)
    rw [split]
    refine .text_ rfl (by simp [ascii]) clean (token_lf isBlanks ends) (by simp) ?_
    rw [advance_line clean, starts]
    exact ⟨rfl, isNumber, outside, blanks, rfl, isBlanks, ends⟩

/-- The line that starts a definition. -/
theorem keeps_definition (isNumber : number = p.number) (starts : p.line = []) (outside : p.inDefinition = false)
    (empty : line ≠ []) (isLine : newline ∉ line) (stops : Stops isAny tail) (notLf : isLfLine line = false)
    (isDe : startsDefinition line = true) : Keeps openFile .initial ⟨line ++ tail, true⟩ number p := by
  have definition : ({ p with line := line } : Position).nextLine = ⟨[], number + 1, true⟩ := by
    have none : lfRequest line = none := by simp [lfRequest, notLf]
    simp [Position.nextLine, outside, none, isDe, isNumber]
  rw [startsDefinition, Bool.and_eq_true, decide_eq_true_eq] at isDe
  obtain ⟨more, rfl⟩ := List.isPrefixOf_iff_prefix.mp isDe.1
  cases more with
  | nil => exact absurd isDe.2 (by decide)
  | cons c more =>
    have taken := @token_de more tail c (fun member => isLine (List.mem_append_right _ member)) stops
    exact .whole rfl empty isLine stops starts isNumber taken rfl rfl (by simp) definition

/-- A line that takes the newline of the next with it, so that the two are counted as
one unless the file ends there. -/
theorem keeps_lone (isNumber : number = p.number) (starts : p.line = []) (empty : line ≠ [])
    (isLine : newline ∉ line) (stops : Stops isAny tail) (lone : line ∈ loneLines)
    (next : ({ p with line := line } : Position).nextLine = ⟨[], number + 1, false⟩) :
    Keeps openFile .initial ⟨line ++ tail, true⟩ number p := by
  by_cases atEnd : tail = []
  · subst atEnd
    exact .whole rfl empty isLine stops starts isNumber (by simpa using token_lone_end lone) rfl rfl (by simp) next
  · obtain ⟨rest, rfl⟩ := stops_cons stops atEnd
    obtain ⟨second, tail, rfl, isSecond, stops'⟩ := line_split rest
    refine ⟨.echo, line ++ newline :: second, tail, by simp, by simp, ?_, by simp, fun counted => Or.inr ?_⟩
    · rw [token_lone lone isSecond stops']
      simp
      omega
    · obtain ⟨rfl, inLine⟩ := counted (by simp)
      exact ⟨by simp, beq_eq_false_iff_ne.mpr inLine, by simp, by simp [conditionAfter]⟩

/-- A token at the start of a line outside a definition. -/
theorem keeps_lineStart (nonempty : b.rest ≠ []) (bol : b.atBol = true) (right : TopRight .initial b number p) :
    Keeps openFile .initial b number p := by
  obtain ⟨rest, atBol⟩ := b
  change atBol = true at bol
  subst bol
  obtain ⟨isNumber, starts, outside⟩ := right
  obtain ⟨line, tail, rfl, isLine, stops⟩ := line_split rest
  by_cases empty : line = []
  · subst empty
    obtain ⟨rest, rfl⟩ := stops_cons stops nonempty
    have next : p.nextLine = ⟨[], number + 1, false⟩ := by
      rw [isNumber]
      exact nextLine_plain outside (by rw [starts]; rfl) (by rw [starts]; rfl)
    exact .counted rfl next token_newline rfl rfl (by simp)
  cases isSo : isSoLine line with
  | true => exact keeps_request isNumber starts outside (Or.inl isSo)
  | false =>
    cases isLf : isLfLine line with
    | true => exact keeps_request isNumber starts outside (Or.inr isLf)
    | false =>
      cases isDe : startsDefinition line with
      | true => exact keeps_definition isNumber starts outside empty isLine stops isLf isDe
      | false =>
        have next : ({ p with line := line } : Position).nextLine = ⟨[], number + 1, false⟩ := by
          rw [isNumber]
          exact nextLine_plain outside isLf isDe
        by_cases lone : line ∈ loneLines
        · exact keeps_lone isNumber starts empty isLine stops lone next
        · exact .whole rfl empty isLine stops starts isNumber
            (token_plain empty isLine stops isSo isLf isDe lone) rfl rfl (by simp) next

/-- The end of the current line, at a newline. -/
theorem LineEnds.now (ends : LineEnds p (newline :: rest) number inDefinition) :
    p.nextLine = ⟨[], number, inDefinition⟩ := by
  simpa using ends [] rest (by simp) rfl

theorem keeps_inLine (nonempty : b.rest ≠ []) (inside : b.atBol = false) (right : TopRight .initial b number p) :
    Keeps openFile .initial b number p := by
  obtain ⟨rest, atBol⟩ := b
  change atBol = false at inside
  subst inside
  obtain ⟨isNumber, ends⟩ := right
  obtain ⟨c, rest, rfl⟩ := List.exists_cons_of_ne_nil nonempty
  by_cases newline_ : c = newline
  · subst newline_
    exact .counted rfl ends.now token_newline rfl rfl (by simp)
  · have isLine : newline ∉ [c] := by simpa using Ne.symm newline_
    refine @Keeps.text_ _ _ [c] rest _ _ _ _ rfl (by simp) isLine (token_inLine newline_) (by simp)
      ⟨?_, LineEnds.taken ends isLine⟩
    rw [advance_line isLine]
    exact isNumber

/-- A token in a macro definition. -/
theorem keeps_de (nonempty : b.rest ≠ []) (right : TopRight .de b number p) : Keeps openFile .de b number p := by
  obtain ⟨rest, atBol⟩ := b
  obtain ⟨isNumber, shape⟩ := right
  obtain ⟨line, tail, rfl, isLine, stops⟩ := line_split rest
  by_cases empty : line = []
  · subst empty
    obtain ⟨rest, rfl⟩ := stops_cons stops nonempty
    have next : p.nextLine = ⟨[], number + 1, true⟩ := by
      cases atBol with
      | true =>
        obtain ⟨starts, inside⟩ := shape
        rw [isNumber, nextLine_inside inside, starts]
        rfl
      | false => exact LineEnds.now shape
    exact .counted rfl next token_de_newline rfl rfl (by simp)
  · cases atBol with
    | true =>
      obtain ⟨starts, inside⟩ := shape
      have next : ({ p with line := line } : Position).nextLine = ⟨[], number + 1, !endsDefinition line⟩ := by
        rw [isNumber]
        exact nextLine_inside inside
      cases isEnd : endsDefinition line with
      | true =>
        rw [isEnd] at next
        obtain ⟨more, rfl⟩ := List.isPrefixOf_iff_prefix.mp isEnd
        have taken := @token_de_end more tail (fun member => isLine (List.mem_append_right _ member)) stops
        exact .whole rfl empty isLine stops starts isNumber taken rfl rfl (by simp) next
      | false =>
        rw [isEnd] at next
        have taken := @token_de_text line tail true empty isLine stops fun _ rest starts => by
          rw [starts] at isEnd
          cases isEnd
        exact .whole rfl empty isLine stops starts isNumber taken rfl rfl (by simp) next
    | false =>
      have taken := @token_de_text line tail false empty isLine stops (by simp)
      refine .text_ rfl empty isLine taken (by simp) ⟨?_, LineEnds.taken shape isLine⟩
      rw [advance_line isLine]
      exact isNumber

/-- The line of a request `.lf M NAME`, and one with no number. -/
theorem lfRequest_line {blanks digits more : Bytes} (isBlanks : ∀ b ∈ blanks, isBlank b = true)
    (isDigits : ∀ b ∈ digits, isDigit b = true) (nonempty : digits ≠ []) (blank : ∃ b ∈ more.head?, isBlank b = true)
    (named : more.dropWhile isBlank ≠ []) :
    lfRequest (ascii ".lf" ++ blanks ++ digits ++ more) = some (atol digits) := by
  have apart : ∀ b, isBlank b = true → isDigit b = false := forall_byte (by decide)
  have noSign : ∀ b, isDigit b = true → isBlank b = false ∧ isSpace b = false ∧ b ≠ dash ∧ b ≠ 43 :=
    forall_byte (by decide)
  obtain ⟨e, head, isBlank_e⟩ := blank
  obtain ⟨rest, rfl⟩ : ∃ rest, more = e :: rest := by
    cases more with
    | nil => cases head
    | cons c rest =>
      cases head
      exact ⟨rest, rfl⟩
  obtain ⟨c, digits, rfl⟩ := List.exists_cons_of_ne_nil nonempty
  have digit := isDigits c (List.mem_cons_self ..)
  obtain ⟨notBlank, notSpace, notDash, notPlus⟩ := noSign c digit
  have drops : (ascii ".lf" ++ blanks ++ c :: digits ++ e :: rest).drop 3 = blanks ++ (c :: digits ++ e :: rest) := by
    simp [ascii]
  have args : (blanks ++ (c :: digits ++ e :: rest)).dropWhile isBlank = c :: digits ++ e :: rest := by
    rw [List.dropWhile_append_of_pos isBlanks]
    exact List.dropWhile_cons_of_neg (by simp [notBlank])
  have number : (c :: digits ++ e :: rest).takeWhile isDigit = c :: digits := by
    rw [List.takeWhile_append_of_pos isDigits]
    simp [apart e isBlank_e]
  have name : (c :: digits ++ e :: rest).dropWhile isDigit = e :: rest := by
    rw [List.dropWhile_append_of_pos isDigits]
    exact List.dropWhile_cons_of_neg (by simp [apart e isBlank_e])
  have starts : isLfLine (ascii ".lf" ++ blanks ++ c :: digits ++ e :: rest) = true := by
    simp [isLfLine, ascii]
  have all : (c :: digits).takeWhile isDigit = c :: digits := List.takeWhile_eq_self_iff.mpr isDigits
  have value : atol (c :: digits) = readDigits (c :: digits) := by
    simp [atol, notSpace, notDash, notPlus]
  simp only [lfRequest, drops, args, number, name, starts]
  rw [if_pos ⟨trivial, by simp, ⟨e, rfl, isBlank_e⟩, named⟩, value, readDigits, readDigits, number, all]

theorem lfRequest_noNumber {blanks more : Bytes} (isBlanks : ∀ b ∈ blanks, isBlank b = true)
    (stops : Stops (fun b => isBlank b || isDigit b) more) : lfRequest (ascii ".lf" ++ blanks ++ more) = none := by
  have drops : (ascii ".lf" ++ blanks ++ more).drop 3 = blanks ++ more := by simp [ascii]
  have number : ((blanks ++ more).dropWhile isBlank).takeWhile isDigit = [] := by
    rw [List.dropWhile_append_of_pos isBlanks]
    cases more with
    | nil => rfl
    | cons c more =>
      obtain ⟨notBlank, notDigit⟩ := Bool.or_eq_false_iff.mp (stops c rfl)
      simp [notBlank, notDigit]
  simp only [lfRequest, drops]
  exact if_neg fun all => all.2.1 number

/-- The number of a request. -/
theorem keeps_number {digits blanks : Bytes} (split : b.rest = digits ++ rest) (nonempty : digits ≠ [])
    (clean : newline ∉ digits) (taken : token .lfnumber b = (.lfNumber, digits.length))
    (outside : p.inDefinition = false)
    (line : p.line = ascii ".lf" ++ blanks) (isBlanks : ∀ b ∈ blanks, isBlank b = true) :
    Keeps openFile .lfnumber b number p := by
  refine ⟨.lfNumber, digits, rest, split, nonempty, taken, by simp, fun counted => ?_⟩
  by_cases another : newline ∈ rest
  · obtain ⟨isDigits, blank, names⟩ := counted another
    refine Or.inl ⟨last_not_newline clean, ?_, names⟩
    intro more tail inLine shape
    change rest = more ++ newline :: tail at shape
    obtain ⟨before, file, after, others, named, allBlank, isName⟩ := names
    obtain ⟨c, word, word_eq, _⟩ := fileName_head isName
    have notBlank : isBlank c = false := @fileName_stops [] file isName c (by rw [word_eq]; rfl)
    have nameLine : newline ∉ before ++ file ++ after := by
      simp only [List.mem_append, not_or]
      refine ⟨⟨fun member => ?_, fileName_line isName⟩, fun member => ?_⟩
      · exact absurd (allBlank newline (List.mem_append_left _ member)) (by decide)
      · exact absurd (allBlank newline (List.mem_append_right _ member)) (by decide)
    have same : more = before ++ file ++ after := by
      have first := Separated.cut_append_cons inLine tail
      have second := Separated.cut_append_cons nameLine others
      rw [← shape, named, second] at first
      exact (Prod.mk.inj first).1.symm
    have starts : ∃ b ∈ more.head?, isBlank b = true := by
      obtain ⟨e, head, isBlank_e⟩ := blank
      rw [shape] at head
      cases more with
      | nil =>
        cases head
        exact absurd isBlank_e (by decide)
      | cons f more => exact ⟨e, head, isBlank_e⟩
    have name : more.dropWhile isBlank ≠ [] := by
      rw [same, word_eq, List.append_assoc,
        List.dropWhile_append_of_pos fun b member => allBlank b (List.mem_append_left _ member)]
      simp [notBlank]
    have request := lfRequest_line isBlanks isDigits nonempty starts name
    rw [advance_line clean, line]
    simp only [Position.nextLine, outside, request]
    rfl
  · exact Or.inr ⟨by simp, last_not_newline clean, another, by simp [conditionAfter]⟩

/-- A number in quotes or without lies within its line. -/
theorem quotedDigits_taken {n : Nat} (found : longest (quoted isDigit) rest = some n) :
    0 < n ∧ n ≤ rest.length ∧ newline ∉ rest.take n := by
  refine ⟨Nat.pos_of_ne_zero ?_, (longest_sound _ _ _ found).1, fun member => ?_⟩
  · rintro rfl
    obtain ⟨a, member, _⟩ := (longest_matches found).has_one
      (show Atom.one isDigit ∈ quoted isDigit by simp [quoted])
    cases member
  · obtain ⟨atom, inPattern, accepts⟩ := (longest_matches found).accepted member
    simp only [quoted, List.mem_cons, List.not_mem_nil, or_false] at inPattern
    rcases inPattern with rfl | rfl | rfl | rfl <;> exact absurd accepts (by decide)

/-- A token after the start of a `.lf` request. -/
theorem keeps_lfnumber (nonempty : b.rest ≠ []) (right : TopRight .lfnumber b number p) :
    Keeps openFile .lfnumber b number p := by
  obtain ⟨rest, atBol⟩ := b
  obtain ⟨inside, isNumber, outside, blanks, line, isBlanks, stops⟩ := right
  change atBol = false at inside
  subst inside
  obtain ⟨c, rest, rfl⟩ := List.exists_cons_of_ne_nil nonempty
  have notBlank : isBlank c = false := stops c rfl
  have unnumbered : ∀ more, Stops (fun b => isBlank b || isDigit b) more →
      ({ p with line := p.line ++ more } : Position).nextLine = ⟨[], number + 1, false⟩ := by
    intro more ends
    have none := lfRequest_noNumber isBlanks ends
    simp only [Position.nextLine, outside, line, none]
    rw [isNumber]
    rfl
  by_cases newline_ : c = newline
  · subst newline_
    have next : p.nextLine = ⟨[], number + 1, false⟩ := by simpa using unnumbered [] stops_nil
    exact .counted rfl next token_lfnumber_newline rfl rfl (by simp)
  · have isLine : newline ∉ [c] := by simpa using Ne.symm newline_
    have other : token .lfnumber ⟨c :: rest, false⟩ = (.lfOther, 1) → isDigit c = false →
        Keeps openFile .lfnumber ⟨c :: rest, false⟩ number p := by
      intro taken notDigit
      refine @Keeps.text_ _ _ [c] rest _ _ _ _ rfl (by simp) isLine taken (by simp) ⟨?_, ?_⟩
      · rw [advance_line isLine]
        exact isNumber
      · intro more _ _ _
        rw [advance_line isLine]
        have next := unnumbered (c :: more) fun e head => by
          cases head
          simp [notBlank, notDigit]
        simpa [lineAfter] using next
    have taken := @token_lfnumber_inLine rest c false newline_
    cases found : longest (quoted isDigit) (c :: rest) with
    | none =>
      rw [found] at taken
      refine other taken (Bool.eq_false_iff.mpr fun digit => ?_)
      obtain ⟨n, some_⟩ := @longest_number rest c digit
      rw [found] at some_
      cases some_
    | some n =>
      rw [found] at taken
      obtain ⟨positive, within, clean⟩ := quotedDigits_taken found
      have long : ((c :: rest).take n).length = n := by rw [List.length_take, Nat.min_eq_left within]
      have some_ : (c :: rest).take n ≠ [] := by
        intro empty
        rw [empty, List.length_nil] at long
        omega
      simp only [if_neg (show ¬n < 1 by omega)] at taken
      exact keeps_number (List.take_append_drop ..).symm some_ clean (by rw [taken, long]) outside line isBlanks

/-- A token before the name of one. -/
theorem keeps_lfname (right : TopRight .lfname b number p) : Keeps openFile .lfname b number p := by
  obtain ⟨rest, atBol⟩ := b
  obtain ⟨inside, ends, blanks, file, after, more, rfl, isBlanks, isName⟩ := right
  change atBol = false at inside
  subst inside
  have afterOnly : ∀ b ∈ after, isBlank b = true := fun b member => isBlanks b (List.mem_append_right _ member)
  by_cases empty : blanks = []
  · subst empty
    have split : [] ++ file ++ after ++ newline :: more = file ++ (after ++ newline :: more) := by simp
    have taken : token .lfname ⟨[] ++ file ++ after ++ newline :: more, false⟩ = (.lfName, file.length) := by
      rw [split]
      exact token_lfName isName (blanks_stop afterOnly isFileByte_apart) (blanks_stop afterOnly isQuote_apart)
    obtain ⟨b, rest, shape, _⟩ := fileName_head isName
    rw [split] at ends
    exact .text_ split (by simp [shape]) (fileName_line isName) taken (by simp)
      ⟨rfl, ends.taken (fileName_line isName), Or.inr ⟨after, more, rfl, afterOnly⟩⟩
  · have blanksOnly : ∀ b ∈ blanks, isBlank b = true := fun b member => isBlanks b (List.mem_append_left _ member)
    have isLine : newline ∉ blanks := fun member => absurd (blanksOnly newline member) (by decide)
    have split : blanks ++ file ++ after ++ newline :: more =
      blanks ++ (file ++ (after ++ newline :: more)) := by simp
    have taken : token .lfname ⟨blanks ++ file ++ after ++ newline :: more, false⟩ = (.echo, blanks.length) := by
      rw [split]
      exact token_lfBlanks empty blanksOnly (fileName_stops isName)
    rw [split] at ends
    exact .text_ split empty isLine taken (by simp)
      ⟨rfl, ends.taken isLine, [], file, after, more, by simp, afterOnly, isName⟩

/-- The end of a request that has been read. -/
theorem keeps_endRequest (nonempty : b.rest ≠ []) (right : TopRight .endRequest b number p) :
    Keeps openFile .endRequest b number p := by
  obtain ⟨rest, atBol⟩ := b
  obtain ⟨_, ends, none | ⟨blanks, more, rfl, isBlanks⟩⟩ := right
  · exact absurd none nonempty
  · have isLine : newline ∉ blanks := fun member => absurd (isBlanks newline member) (by decide)
    refine ⟨.endRequest, blanks ++ [newline], more, by simp, by simp, ?_, by simp, fun _ => Or.inl ?_⟩
    · rw [token_endRequest isBlanks]
      simp
    · rw [advance_newline isLine, ends blanks more isLine rfl]
      simp [TopRight, conditionAfter, lineAfter]

/-- A token on the last line of a file. -/
theorem keeps_lastLine (nonempty : b.rest ≠ []) (last : LastLine condition b) :
    Keeps openFile condition b number p := by
  obtain ⟨inside, noNewline, notSo⟩ := last
  have ahead : NoSoAhead b := by
    constructor
    · intro bol
      rw [inside] at bol
      cases bol
    · intro before after shape
      exact absurd (by rw [shape]; simp) noNewline
  obtain ⟨noSo, noFile⟩ := token_notSo ahead notSo
  have positive := @token_positive condition b nonempty
  have within := @token_within condition b nonempty
  cases taken : token condition b with
  | mk action n =>
    rw [taken] at noSo noFile positive within
    have isLine : newline ∉ b.rest.take n := fun member => noNewline (List.mem_of_mem_take member)
    have long : (b.rest.take n).length = n := by rw [List.length_take, Nat.min_eq_left within]
    refine ⟨action, b.rest.take n, b.rest.drop n, (List.take_append_drop ..).symm, ?_, by rw [taken, long], noFile,
      fun _ => Or.inr ⟨?_, last_not_newline isLine, fun member => noNewline (List.mem_of_mem_drop member),
        conditionAfter_notSo noSo notSo⟩⟩
    · intro empty
      rw [empty, List.length_nil] at long
      change 0 < n at positive
      omega
    · rintro rfl
      exact isLine (endRequest_newline taken)

/-- A token after the start of a `.so` request: one that opens no file, or a name. -/
theorem keeps_so (nonempty : b.rest ≠ []) (right : TopRight .so b number p) :
    Keeps openFile .so b number p ∨
      ∃ file rest, b.rest = file ++ rest ∧ file ≠ [] ∧ newline ∉ file ∧ token .so b = (.soFile, file.length) := by
  obtain ⟨rest, atBol⟩ := b
  obtain ⟨inside, isNumber, ends⟩ := right
  obtain ⟨c, rest, rfl⟩ := List.exists_cons_of_ne_nil nonempty
  by_cases newline_ : c = newline
  · subst newline_
    exact Or.inl (.counted rfl ends.now token_so_newline rfl rfl (by simp))
  · have isLine : newline ∉ [c] := by simpa using Ne.symm newline_
    have taken := @token_so_inLine rest c atBol newline_
    cases found : longest (quoted isFileByte) (c :: rest) with
    | none =>
      rw [found] at taken
      refine Or.inl (@Keeps.text_ _ _ [c] rest _ _ _ _ rfl (by simp) isLine taken (by simp)
        ⟨rfl, ?_, ends.taken isLine⟩)
      rw [advance_line isLine]
      exact isNumber
    | some n =>
      rw [found] at taken
      have isName := longest_matches found
      have long : ((c :: rest).take n).length = n := by
        rw [List.length_take, Nat.min_eq_left (longest_sound _ _ _ found).1]
      obtain ⟨e, more, shape, _⟩ := fileName_head isName
      exact Or.inr ⟨(c :: rest).take n, (c :: rest).drop n, (List.take_append_drop ..).symm, by simp [shape],
        fileName_line isName, by rw [taken, long]⟩

end Top

section Runs

variable {text file : Bytes} {read : Nat → Bytes}

/-- The line numbers of all files on the stack are right, and so is the last `.lf`
request that was written, if nothing was written after it. -/
structure Numbered (openFile : OpenFile) (s : State) (read : Nat → Bytes) : Prop where
  top : TopRight s.condition s.buffer s.line (position (read s.soStackPtr)) ∨ LastLine s.condition s.buffer
  below : ∀ i < s.soStackPtr, TopRight .endRequest (s.soStack i) (s.soLine i + 1) (position (read i))
  generated : ∀ line file, s.out.getLast? = some (.lf line file) →
    line = s.line ∧ (file = s.name ∨ ∃ content, openFile file = some (s.name, content)) ∧
      TopRight s.condition s.buffer s.line (position (read s.soStackPtr)) ∧
      (s.condition = .initial ∨ s.condition = .so ∨ s.condition = .endRequest ∧ s.noNewline = false)

theorem Numbered.popped (numbered : Numbered openFile s read) (included : s.soStackPtr ≠ 0) :
    Numbered openFile s.popped read := by
  have resumed := numbered.below (s.soStackPtr - 1) (by omega)
  have line : s.popped.line = s.soLine (s.soStackPtr - 1) + 1 := Function.update_self ..
  have name : s.popped.name = (s.soName (s.soStackPtr - 1)).getD [] := by
    change (Function.update s.soName s.soStackPtr none (s.soStackPtr - 1)).getD [] = _
    rw [Function.update_of_ne (by omega)]
  have right : TopRight s.popped.condition s.popped.buffer s.popped.line (position (read s.popped.soStackPtr)) := by
    rw [line]
    exact resumed
  refine ⟨Or.inl right, fun i lower => ?_, fun number file last => ?_⟩
  · change i < s.soStackPtr - 1 at lower
    have same : s.popped.soLine i = s.soLine i := Function.update_of_ne (by omega) ..
    rw [same]
    exact numbered.below i (by omega)
  · have generated : Piece.lf (s.soLine (s.soStackPtr - 1) + 1) ((s.soName (s.soStackPtr - 1)).getD []) =
      .lf number file := by
      rw [State.popped, List.getLast?_concat] at last
      exact Option.some.inj last
    obtain ⟨rfl, rfl⟩ := Piece.lf.inj generated
    exact ⟨line.symm, Or.inl name.symm, right, Or.inr (Or.inr ⟨rfl, rfl⟩)⟩

theorem readAfter_stay (ptr : s'.soStackPtr = s.soStackPtr) :
    readAfter s s' read = Function.update read s.soStackPtr (read s.soStackPtr ++ s.taken) := by
  simp only [readAfter, ptr, Nat.lt_irrefl, if_false]

theorem readAfter_push (ptr : s'.soStackPtr = s.soStackPtr + 1) :
    readAfter s s' read =
      Function.update (Function.update read s.soStackPtr (read s.soStackPtr ++ s.taken)) (s.soStackPtr + 1) [] := by
  simp only [readAfter, ptr, Nat.lt_succ_self, if_true]

theorem Counted.token {rest : Bytes} (counted : Counted openFile s) (split : s.buffer.rest = text ++ rest)
    (taken : token s.condition s.buffer = (action, text.length)) : CountedToken openFile action text rest := by
  unfold Counted at counted
  rw [State.taken, taken, split, List.take_left, List.drop_left] at counted
  exact counted

/-- A turn that opens no file. -/
theorem Numbered.kept (numbered : Numbered openFile s read)
    (keeps : Keeps openFile s.condition s.buffer s.line (position (read s.soStackPtr))) (counted : Counted openFile s)
    (once : step openFile s = .next s') : Numbered openFile s' (readAfter s s' read) := by
  obtain ⟨action, text, rest, split, nonempty, taken, notFile, kept⟩ := keeps
  obtain ⟨next, acts, does⟩ := @act_acts openFile
    { s with buffer := ⟨rest, text.getLast? == some newline⟩ } action text notFile
  obtain rfl : next = s' := by
    rw [step_token split nonempty taken, acts] at once
    exact Outcome.next.inj once
  have takes : s.taken = text := by rw [State.taken, taken, split, List.take_left]
  have ptr : next.soStackPtr = s.soStackPtr := does.ptr
  have reads := @readAfter_stay s next read ptr
  rw [takes] at reads
  have here : position (readAfter s next read next.soStackPtr) =
      text.foldl Position.advance (position (read s.soStackPtr)) := by
    rw [reads, ptr, Function.update_self, position_append]
  have isCounted := counted.token split taken
  have condition : next.condition = conditionAfter action s.condition := does.condition
  have buffer : next.buffer = ⟨rest, text.getLast? == some newline⟩ := does.buffer
  have line : next.line = lineAfter action text s.line := does.line
  have result := kept isCounted
  rw [← condition, ← buffer, ← line, ← here] at result
  refine ⟨result.imp_right And.right, fun i lower => ?_, fun number file last => ?_⟩
  · rw [ptr] at lower
    have other : i ≠ s.soStackPtr := by omega
    rw [reads, Function.update_of_ne other, (does.others i other).1, does.stack]
    exact numbered.below i lower
  · rcases does.out with ⟨action_, out, name⟩ | ⟨bytes, written⟩
    · obtain ⟨lineEq, named, _, _⟩ := numbered.generated number file (by rw [← last, out])
      have sameLine : next.line = s.line := by
        rw [line]
        rcases action_ with rfl | ⟨rfl, _⟩ <;> rfl
      have right : TopRight next.condition next.buffer next.line
        (position (readAfter s next read next.soStackPtr)) := by
        rcases result with right | ⟨notEnd, _, _, notSo⟩
        · exact right
        · rw [condition] at notSo
          rcases action_ with rfl | ⟨rfl, _⟩
          · exact absurd rfl notSo
          · exact absurd rfl notEnd
      refine ⟨lineEq.trans sameLine.symm, by rw [name]; exact named, right, ?_⟩
      rw [condition]
      rcases action_ with rfl | ⟨rfl, _⟩
      · exact Or.inr (Or.inl rfl)
      · exact Or.inl rfl
    · rw [written] at last
      cases last

/-- A turn that asks for a file in vain. -/
theorem Numbered.refused {rest : Bytes} (numbered : Numbered openFile s read)
    (refused : Refuses (cString file) { s with buffer := ⟨rest, false⟩ } s') (last : newline ∉ rest) :
    Numbered openFile s' (readAfter s s' read) := by
  have ptr : s'.soStackPtr = s.soStackPtr := refused.ptr
  refine ⟨Or.inr ⟨?_, ?_, ?_⟩, fun i lower => ?_, fun number name final => ?_⟩
  · rw [refused.buffer]
  · rw [refused.buffer]
    exact last
  · rw [refused.condition]
    simp
  · rw [ptr] at lower
    obtain ⟨_, line, stack⟩ := refused.others i lower
    rw [readAfter_stay ptr, Function.update_of_ne (by omega), stack, line]
    exact numbered.below i lower
  · rw [refused.out, List.getLast?_concat] at final
    cases final

/-- A turn that opens a file. -/
theorem Numbered.entered {rest name content : Bytes} (numbered : Numbered openFile s read) (takes : s.taken = file)
    (ends : LineEnds (position (read s.soStackPtr)) (file ++ rest) (s.line + 1) false) (isLine : newline ∉ file)
    (opens : openFile (cString file) = some (name, content))
    (entered : Enters (cString file) name content { s with buffer := ⟨rest, false⟩ } s') (followed : EndsLine rest) :
    Numbered openFile s' (readAfter s s' read) := by
  have ptr : s'.soStackPtr = s.soStackPtr + 1 := entered.ptr
  have reads := @readAfter_push s s' read ptr
  rw [takes] at reads
  have right : TopRight s'.condition s'.buffer s'.line (position (readAfter s s' read s'.soStackPtr)) := by
    rw [entered.line, entered.condition, entered.buffer, reads, ptr, Function.update_self]
    exact ⟨rfl, rfl, rfl⟩
  refine ⟨Or.inl right, fun i lower => ?_, fun number requested final => ?_⟩
  · rw [ptr] at lower
    rw [reads, Function.update_of_ne (by omega), (entered.below i (Nat.le_of_lt_succ lower)).2]
    by_cases current : i = s.soStackPtr
    · subst current
      rw [entered.saved, Function.update_self, position_append]
      exact ⟨rfl, ends.taken isLine, followed⟩
    · have below : i < s.soStackPtr := by omega
      rw [entered.stack i below, Function.update_of_ne current]
      exact numbered.below i below
  · rw [entered.out, List.getLast?_concat] at final
    obtain ⟨rfl, rfl⟩ := Piece.lf.inj (Option.some.inj final)
    exact ⟨entered.line.symm, Or.inr ⟨content, by rw [entered.name]; exact opens⟩, right, Or.inl entered.condition⟩

/-- A turn that asks for a file. -/
theorem Numbered.asked {rest : Bytes} (numbered : Numbered openFile s read)
    (right : TopRight .so s.buffer s.line (position (read s.soStackPtr))) (split : s.buffer.rest = file ++ rest)
    (nonempty : file ≠ []) (isLine : newline ∉ file) (taken : token s.condition s.buffer = (.soFile, file.length))
    (counted : Counted openFile s) (once : step openFile s = .next s') :
      Numbered openFile s' (readAfter s s' read) := by
  have takes : s.taken = file := by rw [State.taken, taken, split, List.take_left]
  have isCounted := counted.token split taken
  obtain ⟨_, _, ends⟩ := right
  rw [split] at ends
  rw [step_token split nonempty taken, last_not_newline isLine] at once
  cases opens : openFile (cString file) with
  | none =>
    have last : newline ∉ rest := by simpa [CountedToken, opens] using isCounted
    exact numbered.refused (soFile_refuses opens once) last
  | some opened =>
    have followed : EndsLine rest := by simpa [CountedToken, opens] using isCounted
    exact numbered.entered takes ends isLine opens (soFile_enters opens once) followed

theorem Numbered.step (numbered : Numbered openFile s read) (counted : Counted openFile s)
    (once : step openFile s = .next s') : Numbered openFile s' (readAfter s s' read) := by
  by_cases ended : s.buffer.rest = []
  · rw [step_end ended] at once
    by_cases top : s.soStackPtr = 0
    · rw [endOfFile_top top] at once
      cases once
    · rw [endOfFile_included top] at once
      obtain rfl := Outcome.next.inj once
      have takes : s.taken = [] := by rw [State.taken, ended, List.take_nil]
      have reads : readAfter s s.popped read = read := by
        have lower : ¬s.soStackPtr < s.popped.soStackPtr := Nat.not_lt.mpr (Nat.sub_le ..)
        simp [readAfter, takes, lower]
      rw [reads]
      exact numbered.popped top
  · rcases numbered.top with right | last
    · cases inCondition : s.condition with
      | so =>
        rw [inCondition] at right
        rcases keeps_so ended right with keeps | ⟨file, rest, split, nonempty, isLine, taken⟩
        · exact numbered.kept (by rw [inCondition]; exact keeps) counted once
        · exact numbered.asked right split nonempty isLine (by rw [inCondition]; exact taken) counted once
      | initial =>
        refine numbered.kept ?_ counted once
        rw [inCondition] at right ⊢
        cases bol : s.buffer.atBol with
        | true => exact keeps_lineStart ended bol right
        | false => exact keeps_inLine ended bol right
      | de =>
        rw [inCondition] at right
        exact numbered.kept (by rw [inCondition]; exact keeps_de ended right) counted once
      | lfnumber =>
        rw [inCondition] at right
        exact numbered.kept (by rw [inCondition]; exact keeps_lfnumber ended right) counted once
      | lfname =>
        rw [inCondition] at right
        exact numbered.kept (by rw [inCondition]; exact keeps_lfname right) counted once
      | endRequest =>
        rw [inCondition] at right
        exact numbered.kept (by rw [inCondition]; exact keeps_endRequest ended right) counted once
    · exact numbered.kept (keeps_lastLine ended last) counted once

variable {d : Decompress} {name : Bytes}

theorem Run.numbered (unskipped : skipsLine (firstLine d) = false)
    (run : Run openFile (Counted openFile) d name s read) :
    Numbered openFile s read := by
  induction run with
  | start =>
    have buffer : (parseFileStart d name).buffer = ⟨d.remaining, true⟩ := by
      rw [parseFileStart_buffer, unskipped]
      rfl
    have out : (parseFileStart d name).out = [.lf 1 name] := by
      change (if skipsLine (firstLine d) then [Piece.text (firstLine d)] else []) ++
        [Piece.lf (if skipsLine (firstLine d) then 2 else 1) name] = _
      rw [unskipped]
      rfl
    have right : TopRight (parseFileStart d name).condition (parseFileStart d name).buffer
      (parseFileStart d name).line
        (position (if skipsLine (firstLine d) then firstLine d else [])) := by
      rw [buffer, unskipped]
      exact ⟨rfl, rfl, rfl⟩
    refine ⟨Or.inl right, fun i lower => absurd lower (Nat.not_lt_zero i), fun line file last => ?_⟩
    rw [out] at last
    obtain ⟨rfl, rfl⟩ := Piece.lf.inj (Option.some.inj last)
    exact ⟨rfl, Or.inl rfl, right, Or.inl rfl⟩
  | turn _ counted once ih => exact ih.step counted once

/-- After the request that closes an included file nothing is copied before the next
line. -/
theorem endRequest_copies (inEnd : s.condition = .endRequest) (quiet : s.noNewline = false)
    (ends : EndsLine s.buffer.rest) :
    ¬Copies openFile s := by
  rintro ⟨s', bytes, more, turn, written⟩
  rcases ends with ended | ⟨blanks, rest, left, isBlanks⟩
  · rw [step_end ended] at turn
    by_cases top : s.soStackPtr = 0
    · rw [endOfFile_top top] at turn
      rcases turn with next | done
      · cases next
      · cases done
        simp [quiet] at written
    · rw [endOfFile_included top] at turn
      rcases turn with next | done
      · cases next
        simp [State.popped, quiet] at written
      · cases done
  · rw [endsRequest inEnd left isBlanks] at turn
    rcases turn with next | done
    · cases next
      simp at written
    · cases done

end Runs

theorem oneLineFile_returns :
    ∃ s read, Run oneLineFile (Counted oneLineFile) (pageOf [".so b.1", "a"]) (ascii "p") s read ∧
      s.buffer.rest = ascii "a" ++ [newline] ∧ s.buffer.atBol = true := by
  refine ⟨_, _, .turn (.turn (.turn (.turn (.turn (.turn .start ?_ rfl) ?_ rfl) ?_ rfl) ?_ rfl) ?_ rfl) ?_ rfl,
    ?_, ?_⟩
  · trivial
  · exact Or.inr ⟨[], ascii "a" ++ [newline], rfl, by simp⟩
  · exact fun within => absurd within (by decide +kernel)
  · trivial
  · trivial
  · trivial
  · decide +kernel
  · decide +kernel

/-- A run reaches a line whose number is wrong. -/
def Misnumbers (d : Decompress) : Prop :=
  ∃ s read, Run (fun _ => none) (fun _ => True) d (ascii "p") s read ∧ s.buffer.atBol = true ∧ s.buffer.rest ≠ [] ∧
    s.line ≠ (position (read s.soStackPtr)).number

end ManDb.Zsoelim
