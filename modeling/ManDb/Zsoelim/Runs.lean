import Mathlib.Logic.Relation
import ManDb.Zsoelim.Tokens

namespace ManDb.Zsoelim

open Lexer

/-- The scanner gets from one state to another. -/
def Reaches (openFile : OpenFile) : State → State → Prop :=
    Relation.ReflTransGen fun s s' => step openFile s = .next s'

variable {openFile : OpenFile} {s s' s'' : State} {outcome : Outcome} {turns : Nat} {action : Action} {yytext : Bytes}

theorem Reaches.step (first : step openFile s = .next s') (rest : Reaches openFile s' s'') : Reaches openFile s s'' :=
  Relation.ReflTransGen.head first rest

theorem Reaches.trans (first : Reaches openFile s s') (rest : Reaches openFile s' s'') : Reaches openFile s s'' :=
  Relation.ReflTransGen.trans first rest

theorem Reaches.refl (s : State) : Reaches openFile s s := Relation.ReflTransGen.refl

/-- A turn, from the token that it takes. -/
theorem step_token {rest : Bytes} (whole : s.buffer.rest = yytext ++ rest) (nonempty : yytext ≠ [])
    (taken : token s.condition s.buffer = (action, yytext.length)) :
    step openFile s =
      act openFile action yytext { s with buffer := ⟨rest, yytext.getLast? == some newline⟩ } := by
  unfold step
  rw [if_neg (by simp [whole, nonempty]), taken]
  simp only [whole, List.take_left, List.drop_left]

theorem step_end (ended : s.buffer.rest = []) : step openFile s = endOfFile s := if_pos ended

/-- The two turns that read a `.so` request and its file name. -/
theorem soRequest {blanks file rest : Bytes} (initial : s.condition = .initial)
    (starts : s.buffer = ⟨ascii ".so" ++ blanks ++ file ++ rest, true⟩) (isBlanks : ∀ b ∈ blanks, isBlank b = true)
    (isName : Lexer.Matches (quoted isFileByte) file) (stops : Stops isFileByte rest)
    (unquoted : Stops isQuote rest) :
    ∃ s', step openFile s = .next s' ∧ step openFile s' =
      soFile openFile (cString file) { s with buffer := ⟨rest, false⟩, noNewline := true, condition := .so } := by
  have split : s.buffer.rest = (ascii ".so" ++ blanks) ++ (file ++ rest) := by rw [starts]; simp
  have taken : token s.condition s.buffer = (.so, (ascii ".so" ++ blanks).length) := by
    rw [initial, starts]
    simpa using token_so isBlanks (@fileName_stops rest file isName)
  have first : step openFile s = .next _ := step_token split (by simp [ascii]) taken
  refine ⟨_, first, ?_⟩
  obtain ⟨b, more, shape, _⟩ := fileName_head isName
  have second := @step_token openFile
    { s with
      buffer := ⟨file ++ rest, (ascii ".so" ++ blanks).getLast? == some newline⟩,
      noNewline := true, condition := .so }
    .soFile file rest rfl (by simp [shape]) (token_soFile isName stops unquoted)
  have inLine : (file.getLast? == some newline) = false := by
    simpa using fun last => fileName_line isName (List.mem_of_getLast? last)
  rw [inLine] at second
  exact second

/-- How `yylex` ends from here on. -/
def Ends (openFile : OpenFile) (s : State) (outcome : Outcome) : Prop :=
  (∀ s', outcome ≠ .next s') ∧ ∃ turns, yylex openFile turns s = outcome

theorem Ends.of_step (ends : ∀ s', outcome ≠ .next s') (last : step openFile s = outcome) :
    Ends openFile s outcome := by
  refine ⟨ends, 1, ?_⟩
  cases outcome with
  | next s' => exact absurd rfl (ends s')
  | done s' => simp [yylex, last]
  | tooDeep name line => simp [yylex, last]

theorem Reaches.ends (reaches : Reaches openFile s s') (ends : Ends openFile s' outcome) :
    Ends openFile s outcome := by
  induction reaches using Relation.ReflTransGen.head_induction_on with
  | refl => exact ends
  | head first _ ih =>
    obtain ⟨final, turns, run⟩ := ih
    exact ⟨final, turns + 1, by rw [yylex, first]; exact run⟩

theorem Ends.unique {other : Outcome} (first : Ends openFile s outcome) (second : Ends openFile s other) :
    outcome = other := by
  obtain ⟨final, turns, run⟩ := first
  obtain ⟨final', turns', run'⟩ := second
  induction turns generalizing s turns' with
  | zero => exact absurd run.symm (final s)
  | succ turns ih =>
    cases turns' with
    | zero => exact absurd run'.symm (final' s)
    | succ turns' =>
      rw [yylex] at run run'
      cases once : step openFile s with
      | next s' =>
        rw [once] at run run'
        exact ih run turns' run'
      | done s' =>
        rw [once] at run run'
        exact run.symm.trans run'
      | tooDeep name line =>
        rw [once] at run run'
        exact run.symm.trans run'

section Start

variable {d : Decompress} {name : Bytes}

/-- The first line, as `zsoelim_parse_file` sees it. -/
def firstLine (d : Decompress) : Bytes := cString ((decompressPeekline d).getD [])

theorem cString_lineCache (tag : DecompressTag) (line : Bytes) : cString (lineCache tag line) = cString line := by
  cases tag with
  | pipeline => rfl
  | inprocess => exact List.takeWhile_idem ..

/-- What follows it starts a line, or with a NUL, or there is nothing. -/
theorem firstLine_split (d : Decompress) :
    ∃ rest, d.remaining = firstLine d ++ rest ∧
      (firstLine d = [] ∨ (firstLine d).getLast? = some newline ∨ rest = [] ∨ rest.head? = some 0) := by
  unfold firstLine decompressPeekline
  cases found : lineAt d.tag d.remaining with
  | none => exact ⟨d.remaining, rfl, Or.inl rfl⟩
  | some line =>
    obtain ⟨rest, whole, _⟩ := lineAt_mem found
    simp only [Option.map_some, Option.getD_some, cString_lineCache]
    refine ⟨line.dropWhile (· ≠ 0) ++ rest, ?_, ?_⟩
    · rw [← List.append_assoc, cString, List.takeWhile_append_dropWhile]
      exact whole
    · cases after : line.dropWhile (· ≠ 0) with
      | nil =>
        have all : cString line = line := by
          have split : cString line ++ line.dropWhile (· ≠ 0) = line := List.takeWhile_append_dropWhile
          rwa [after, List.append_nil] at split
        rw [all]
        rcases lineAt_ends found whole with ended | none
        · exact Or.inr (Or.inl ended)
        · exact Or.inr (Or.inr (Or.inl none))
      | cons b more =>
        have stop := stops_dropWhile (fun b : UInt8 => decide (b ≠ 0)) line b (by rw [after]; rfl)
        have zero : b = 0 := by simpa using stop
        exact Or.inr (Or.inr (Or.inr (by simp [zero])))

/-- It is the start of a line that is peeked at. -/
theorem firstLine_starts (nonempty : firstLine d ≠ []) :
    ∃ line more, lineAt d.tag d.remaining = some line ∧ line = firstLine d ++ more := by
  unfold firstLine decompressPeekline at *
  cases found : lineAt d.tag d.remaining with
  | none =>
    rw [found] at nonempty
    exact absurd rfl nonempty
  | some line =>
    simp only [Option.map_some, Option.getD_some, cString_lineCache]
    exact ⟨line, line.dropWhile (· ≠ 0), rfl, List.takeWhile_append_dropWhile.symm⟩

/-- Whether the first line is skipped. -/
def skipsLine (line : Bytes) : Bool := ppCookie.isPrefixOf line || (ascii ".\\\" ").isPrefixOf line

theorem parseFileStart_buffer :
    (parseFileStart d name).buffer =
      ⟨if skipsLine (firstLine d) then d.remaining.drop (firstLine d).length else d.remaining, true⟩ := rfl

end Start

/-- What a turn can do to the stacks: nothing below the file on top, or to the file
on top and nothing above it if it opens another one, which is then on top; or it
returns to the file below and counts its line. -/
inductive Moves (s s' : State) : Prop
  | stay (ptr : s'.soStackPtr = s.soStackPtr)
      (below : ∀ i < s.soStackPtr, s'.soName i = s.soName i ∧ s'.soLine i = s.soLine i ∧ s'.soStack i = s.soStack i)
  | push (ptr : s'.soStackPtr = s.soStackPtr + 1) (room : s.soStackPtr ≠ maxSoDepth - 1)
      (below : ∀ i ≤ s.soStackPtr, s'.soName i = s.soName i ∧ s'.soLine i = s.soLine i)
      (stack : ∀ i < s.soStackPtr, s'.soStack i = s.soStack i)
  | pop (ptr : s'.soStackPtr + 1 = s.soStackPtr)
      (name : ∀ i < s.soStackPtr, s'.soName i = s.soName i)
      (line : ∀ i < s'.soStackPtr, s'.soLine i = s.soLine i)
      (counted : s'.soLine s'.soStackPtr = s.soLine s'.soStackPtr + 1)
      (stack : ∀ i, s'.soStack i = s.soStack i) (buffer : s'.buffer = s.soStack s'.soStackPtr)

/-- What a request does whose file cannot be opened: it is written again. -/
structure Refuses (file : Bytes) (s s' : State) : Prop where
  ptr : s'.soStackPtr = s.soStackPtr
  name : s'.name = s.name
  line : s'.line = s.line
  buffer : s'.buffer = s.buffer
  condition : s'.condition = .endRequest
  out : s'.out = s.out ++ [.text (ascii ".so " ++ file ++ [newline])]
  others : ∀ i < s.soStackPtr, s'.soName i = s.soName i ∧ s'.soLine i = s.soLine i ∧ s'.soStack i = s.soStack i

/-- What a request does whose file is opened. -/
structure Enters (file name content : Bytes) (s s' : State) : Prop where
  ptr : s'.soStackPtr = s.soStackPtr + 1
  room : s.soStackPtr ≠ maxSoDepth - 1
  name : s'.name = name
  line : s'.line = 1
  buffer : s'.buffer = ⟨content, true⟩
  condition : s'.condition = .initial
  out : s'.out = s.out ++ [.lf 1 file]
  below : ∀ i ≤ s.soStackPtr, s'.soName i = s.soName i ∧ s'.soLine i = s.soLine i
  saved : s'.soStack s.soStackPtr = s.buffer
  stack : ∀ i < s.soStackPtr, s'.soStack i = s.soStack i

theorem soFile_refuses {file : Bytes} (missing : openFile file = none) (once : soFile openFile file s = .next s') :
    Refuses file s s' := by
  rw [soFile] at once
  split at once
  · cases once
  · rw [missing] at once
    cases once
    refine ⟨rfl, rfl, ?_, rfl, rfl, rfl, fun i lower => ?_⟩
    · simp [State.line, State.write, State.setLine]
    · simp [State.write, State.setLine, Function.update_of_ne (show i ≠ s.soStackPtr by omega),
        Function.update_of_ne (show i ≠ s.soStackPtr + 1 by omega)]

theorem soFile_enters {file name content : Bytes} (opens : openFile file = some (name, content))
    (once : soFile openFile file s = .next s') : Enters file name content s s' := by
  rw [soFile] at once
  split at once
  · cases once
  · rename_i room
    rw [opens] at once
    cases once
    refine ⟨rfl, room, ?_, ?_, rfl, rfl, rfl, fun i lower => ?_, ?_, fun i lower => ?_⟩
    · simp [State.name, State.setLine]
    · simp [State.line, State.setLine]
    · simp [State.setLine, Function.update_of_ne (show i ≠ s.soStackPtr + 1 by omega)]
    · simp [State.setLine]
    · simp [State.setLine, Function.update_of_ne (show i ≠ s.soStackPtr by omega)]

theorem soFile_moves (file : Bytes) (once : soFile openFile file s = .next s') : Moves s s' := by
  cases opens : openFile file with
  | none =>
    have refused := soFile_refuses opens once
    exact .stay refused.ptr refused.others
  | some opened =>
    have entered := soFile_enters opens once
    exact .push entered.ptr entered.room entered.below entered.stack

/-- The start condition after an action that opens no file. -/
def conditionAfter : Action → Condition → Condition
  | .de, _ => .de
  | .so, _ => .so
  | .lf, _ => .lfnumber
  | .lfNumber, _ => .lfname
  | .lfName, _ => .endRequest
  | .endRequest, _ | .soNewline, _ | .lfNameNewline, _ | .lfNumberNewline, _ | .deEnd, _ | .lfOther, _ => .initial
  | .echo, condition | .newline, condition | .default, condition | .soFile, condition => condition

/-- The line number after such an action. -/
def lineAfter : Action → Bytes → Int → Int
  | .newline, _, line | .soNewline, _, line | .lfNameNewline, _, line | .lfNumberNewline, _, line => line + 1
  | .lfNumber, yytext, _ => atol yytext
  | _, _, line => line

/-- What such an action does. All but two write text. -/
structure Acts (action : Action) (yytext : Bytes) (s s' : State) : Prop where
  ptr : s'.soStackPtr = s.soStackPtr
  stack : s'.soStack = s.soStack
  buffer : s'.buffer = s.buffer
  condition : s'.condition = conditionAfter action s.condition
  line : s'.line = lineAfter action yytext s.line
  others : ∀ i ≠ s.soStackPtr, s'.soLine i = s.soLine i ∧ s'.soName i = s.soName i
  out : ((action = .so ∨ action = .endRequest ∧ s'.noNewline = false) ∧ s'.out = s.out ∧ s'.name = s.name) ∨
    ∃ bytes, s'.out.getLast? = some (.text bytes)

theorem act_acts (notFile : action ≠ .soFile) : ∃ s', act openFile action yytext s = .next s' ∧
    Acts action yytext s s' := by
  cases action with
  | soFile => exact absurd rfl notFile
  | so => exact ⟨_, rfl, rfl, rfl, rfl, rfl, rfl, fun _ _ => ⟨rfl, rfl⟩, Or.inl ⟨Or.inl rfl, rfl, rfl⟩⟩
  | endRequest => exact ⟨_, rfl, rfl, rfl, rfl, rfl, rfl, fun _ _ => ⟨rfl, rfl⟩, Or.inl ⟨Or.inr ⟨rfl, rfl⟩, rfl, rfl⟩⟩
  | _ =>
    refine ⟨_, rfl, rfl, rfl, rfl, rfl, ?_, fun i other => ?_, Or.inr ⟨_, List.getLast?_concat⟩⟩
    · simp [State.line, State.setLine, State.write, lineAfter]
    · simp [State.setLine, State.write, other]

theorem act_moves (acts : act openFile action yytext s = .next s') : Moves s s' := by
  by_cases isFile : action = .soFile
  · subst isFile
    exact soFile_moves _ acts
  · obtain ⟨s'', same, does⟩ := @act_acts openFile s action yytext isFile
    obtain rfl : s'' = s' := Outcome.next.inj (same.symm.trans acts)
    refine .stay does.ptr fun i below => ?_
    obtain ⟨line, name⟩ := does.others i (by omega)
    exact ⟨name, line, by rw [does.stack]⟩

/-- The condition `so` starts with a `.so` request. -/
theorem conditionAfter_notSo {condition : Condition} (notSo : action ≠ .so) (inOther : condition ≠ .so) :
    conditionAfter action condition ≠ .so := by
  cases action with
  | so => exact absurd rfl notSo
  | echo | newline | default | soFile => exact inOther
  | _ => simp [conditionAfter]

/-- The state in which the file below is taken up again. -/
def State.popped (s : State) : State where
  soStackPtr := s.soStackPtr - 1
  soName := Function.update s.soName s.soStackPtr none
  soLine := Function.update s.soLine (s.soStackPtr - 1) (s.soLine (s.soStackPtr - 1) + 1)
  soStack := s.soStack
  buffer := s.soStack (s.soStackPtr - 1)
  condition := .endRequest
  noNewline := false
  out := s.out ++ (if s.noNewline then [.text [newline]] else []) ++
    [.lf (s.soLine (s.soStackPtr - 1) + 1) ((s.soName (s.soStackPtr - 1)).getD [])]

/-- The end of an included file. -/
theorem endOfFile_included (included : s.soStackPtr ≠ 0) : endOfFile s = .next s.popped := by
  have below : s.soStackPtr - 1 ≠ s.soStackPtr := by omega
  unfold endOfFile State.popped
  cases s.noNewline <;> simp [included, State.write, State.setLine, State.line, State.name, below]

/-- The end of the file that was parsed. -/
theorem endOfFile_top (top : s.soStackPtr = 0) :
    endOfFile s = .done
      { s with
        soName := Function.update s.soName s.soStackPtr none
        out := s.out ++ if s.noNewline then [.text [newline]] else [] } := by
  unfold endOfFile
  cases s.noNewline <;> simp [top, State.write]

/-- The rest of the line of a request is skipped. -/
theorem endsRequest {blanks rest : Bytes} (inEnd : s.condition = .endRequest)
    (left : s.buffer.rest = blanks ++ newline :: rest)
    (isBlanks : ∀ b ∈ blanks, isBlank b = true) :
    step openFile s = .next { s with buffer := ⟨rest, true⟩, noNewline := false, condition := .initial } := by
  have taken : token s.condition s.buffer = (.endRequest, (blanks ++ [newline]).length) := by
    rw [inEnd, show s.buffer = ⟨blanks ++ newline :: rest, s.buffer.atBol⟩ by rw [← left]]
    simpa using token_endRequest isBlanks
  have once := @step_token openFile s .endRequest (blanks ++ [newline]) rest (by simp [left]) (by simp) taken
  simpa [act] using once

/-- An included file ends, and the rest of the line of its request is skipped. -/
theorem resumes {blanks rest : Bytes} {bol : Bool} (ended : s.buffer.rest = []) (included : s.soStackPtr ≠ 0)
    (saved : s.soStack (s.soStackPtr - 1) = ⟨blanks ++ newline :: rest, bol⟩)
    (isBlanks : ∀ b ∈ blanks, isBlank b = true) :
    Reaches openFile s { s.popped with buffer := ⟨rest, true⟩, condition := .initial } := by
  have closes : step openFile s = .next s.popped := (step_end ended).trans (endOfFile_included included)
  have left : s.popped.buffer.rest = blanks ++ newline :: rest := by rw [State.popped, saved]
  exact .step closes (.step (endsRequest rfl left isBlanks) (.refl _))

theorem endOfFile_moves (ends : endOfFile s = .next s') : Moves s s' := by
  by_cases included : s.soStackPtr = 0
  · rw [endOfFile_top included] at ends
    cases ends
  · rw [endOfFile_included included] at ends
    cases ends
    refine .pop ?_ (fun i below => ?_) (fun i below => ?_) ?_ (fun _ => rfl) rfl
    · change s.soStackPtr - 1 + 1 = s.soStackPtr
      omega
    · exact Function.update_of_ne (by omega) ..
    · exact Function.update_of_ne (Nat.ne_of_lt below) ..
    · exact Function.update_self ..

theorem step_moves (once : step openFile s = .next s') : Moves s s' := by
  unfold step at once
  split at once
  · exact endOfFile_moves once
  · cases act_moves once with
    | stay ptr below => exact .stay ptr below
    | push ptr room below stack => exact .push ptr room below stack
    | pop ptr name line counted stack buffer => exact .pop ptr name line counted stack buffer

end ManDb.Zsoelim
