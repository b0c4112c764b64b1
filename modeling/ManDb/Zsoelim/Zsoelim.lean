import ManDb.CodingTag
import ManDb.Lib.Lexer

namespace ManDb.Zsoelim

open Lexer

/-- The start conditions. -/
inductive Condition where
  | initial
  | so
  | de
  | endRequest
  | lfnumber
  | lfname
  deriving DecidableEq, Repr

/-- The actions of the rules, and `default`: what no rule matches is copied. -/
inductive Action where
  | de
  | so
  | lf
  | echo
  | newline
  | soFile
  | endRequest
  | soNewline
  | deEnd
  | lfNumber
  | lfName
  | lfNameNewline
  | lfOther
  | lfNumberNewline
  | default
  deriving DecidableEq, Repr

/-- `W`. -/
def isBlank (b : UInt8) : Bool := b == 32 || b == tab

/-- Flex's `.`. -/
def isAny (b : UInt8) : Bool := b != newline

def isQuote (b : UInt8) : Bool := b == 34

def isFileByte (b : UInt8) : Bool := !(b == 32 || b == tab || b == newline || isQuote b)

def isByte (c b : UInt8) : Bool := b == c

/-- The letters of a request, after its period. -/
def dotted (request : String) : Pattern UInt8 := (period :: ascii request).map fun c => .one (isByte c)

/-- A name or number that may stand in quotes. -/
def quoted (cls : UInt8 → Bool) : Pattern UInt8 := [.opt isQuote, .one cls, .star cls, .opt isQuote]

/-- The rules, in the order of the source. -/
def rules : List (Rule UInt8 Condition Action) :=
  [⟨[.initial], true, dotted "de" ++ [.star isBlank, .one isAny, .star isAny], .de⟩,
    ⟨[.initial], true, dotted "so" ++ [.star isBlank], .so⟩,
    ⟨[.initial], true, dotted "lf" ++ [.star isBlank], .lf⟩,
    ⟨[.initial], true, [.one fun b => b != period && b != newline, .star isAny], .echo⟩,
    ⟨[.initial], true, dotted "" ++ [.one fun b => b != 115 && b != 108, .star isAny], .echo⟩,
    ⟨[.initial], true, dotted "l" ++ [.one fun b => b != 102, .star isAny], .echo⟩,
    ⟨[.initial], true, dotted "s" ++ [.one fun b => b != 111, .star isAny], .echo⟩,
    ⟨[.initial], true, dotted "s", .echo⟩,
    ⟨[.initial], true, dotted "l", .echo⟩,
    ⟨[.initial], false, [.one isAny], .echo⟩,
    ⟨[.initial], false, [.one (isByte newline)], .newline⟩,
    ⟨[.so], false, quoted isFileByte, .soFile⟩,
    ⟨[.endRequest], false, [.star isBlank, .one (isByte newline)], .endRequest⟩,
    ⟨[.so], false, [.one (isByte newline)], .soNewline⟩,
    ⟨[.de], true, dotted "." ++ [.star isAny], .deEnd⟩,
    ⟨[.de], false, [.star isAny], .echo⟩,
    ⟨[.de], false, [.one (isByte newline)], .newline⟩,
    ⟨[.lfnumber], false, quoted isDigit, .lfNumber⟩,
    ⟨[.lfname], false, quoted isFileByte, .lfName⟩,
    ⟨[.lfname], false, [.one isBlank, .star isBlank], .echo⟩,
    ⟨[.lfname], false, [.one (isByte newline)], .lfNameNewline⟩,
    ⟨[.lfnumber, .lfname], false, [.one isAny], .lfOther⟩,
    ⟨[.lfnumber], false, [.one (isByte newline)], .lfNumberNewline⟩]

/-- A flex buffer: the text that is left, and whether that starts a line. -/
structure Buffer where
  rest : Bytes
  atBol : Bool
  deriving DecidableEq

/-- What is written: text, and the requests `.lf N FILE` that zsoelim generates. -/
inductive Piece where
  | text (bytes : Bytes)
  | lf (line : Int) (name : Bytes)
  deriving DecidableEq

def Piece.bytes : Piece → Bytes
  | .text bytes => bytes
  | .lf line name => ascii ".lf " ++ printLong line ++ 32 :: name ++ [newline]

/-- The state of the scanner: `so_stack_ptr`, the stacks `so_name`, `so_line` and
`so_stack`, the current buffer and start condition, and what was written. -/
structure State where
  soStackPtr : Nat
  soName : Nat → Option Bytes
  soLine : Nat → Int
  soStack : Nat → Buffer
  buffer : Buffer
  condition : Condition
  noNewline : Bool
  out : List Piece

/-- `NAME`. -/
def State.name (s : State) : Bytes := (s.soName s.soStackPtr).getD []

/-- `LINE`. -/
def State.line (s : State) : Int := s.soLine s.soStackPtr

def State.setLine (s : State) (line : Int) : State := { s with soLine := Function.update s.soLine s.soStackPtr line }

def State.write (s : State) (bytes : Bytes) : State := { s with out := s.out ++ [.text bytes] }

/-- How a turn of the scanner ends. -/
inductive Outcome where
  | next (s : State)
  | done (s : State)
  /-- ".so requests nested too deeply or are recursive". -/
  | tooDeep (name : Bytes) (line : Int)

def maxSoDepth : Nat := 10

/-- `zsoelim_open_file`: the name and the content of the file it opens. -/
abbrev OpenFile := Bytes → Option (Bytes × Bytes)

/-- A `.so` request with its file name. -/
def soFile (openFile : OpenFile) (filename : Bytes) (s : State) : Outcome :=
  if s.soStackPtr = maxSoDepth - 1 then .tooDeep s.name s.line
  else
    let pushed : State :=
      { s with
        soStack := Function.update s.soStack s.soStackPtr s.buffer
        soStackPtr := s.soStackPtr + 1
        noNewline := false }.setLine 1
    match openFile filename with
    | none =>
      let popped := { pushed with soStackPtr := pushed.soStackPtr - 1 }
      .next { popped.write (ascii ".so " ++ filename ++ [newline]) with condition := .endRequest }
    | some (name, content) =>
      .next
        { pushed with
          soName := Function.update pushed.soName pushed.soStackPtr (some name)
          out := pushed.out ++ [.lf 1 filename]
          buffer := ⟨content, true⟩
          condition := .initial }

/-- The action of a rule, once the buffer has moved on. -/
def act (openFile : OpenFile) (action : Action) (yytext : Bytes) (s : State) : Outcome :=
  match action with
  | .de => .next { s.write yytext with noNewline := true, condition := .de }
  | .so => .next { s with noNewline := true, condition := .so }
  | .lf => .next { s.write yytext with noNewline := true, condition := .lfnumber }
  | .echo => .next { s.write yytext with noNewline := true }
  | .newline => .next (({ s with noNewline := false }.write [newline]).setLine (s.line + 1))
  | .soFile => soFile openFile (cString yytext) s
  | .endRequest => .next { s with noNewline := false, condition := .initial }
  | .soNewline | .lfNameNewline | .lfNumberNewline =>
    .next { ({ s with noNewline := false }.write [newline]).setLine (s.line + 1) with condition := .initial }
  | .deEnd => .next { s.write yytext with noNewline := true, condition := .initial }
  | .lfNumber => .next { (s.write yytext).setLine (atol yytext) with noNewline := true, condition := .lfname }
  | .lfName =>
    .next
      { (s.write yytext).write [newline] with
        noNewline := true
        soName := Function.update s.soName s.soStackPtr (some (cString yytext))
        condition := .endRequest }
  | .lfOther => .next { s.write (yytext.take 1) with noNewline := true, condition := .initial }
  | .default => .next (s.write yytext)

/-- `<<EOF>>`. -/
def endOfFile (s : State) : Outcome :=
  let s := { s with soName := Function.update s.soName s.soStackPtr none }
  let s := if s.noNewline then s.write [newline] else s
  if s.soStackPtr = 0 then .done s
  else
    let s := { s with soStackPtr := s.soStackPtr - 1, buffer := s.soStack (s.soStackPtr - 1) }
    let s := s.setLine (s.line + 1)
    .next { s with out := s.out ++ [.lf s.line s.name], noNewline := false, condition := .endRequest }

/-- The rule that applies, and how much of the text it takes. -/
def token (condition : Condition) (buffer : Buffer) : Action × Nat :=
  (select condition buffer.atBol buffer.rest rules).getD (.default, 1)

/-- One turn of `yylex`. -/
def step (openFile : OpenFile) (s : State) : Outcome :=
  if s.buffer.rest = [] then endOfFile s
  else
    let (action, n) := token s.condition s.buffer
    let yytext := s.buffer.rest.take n
    act openFile action yytext
      { s with buffer := ⟨s.buffer.rest.drop n, yytext.getLast? == some newline⟩ }

/-- `yylex`, for a number of turns. -/
def yylex (openFile : OpenFile) : Nat → State → Outcome
  | 0, s => .next s
  | turns + 1, s =>
    match step openFile s with
    | .next s => yylex openFile turns s
    | outcome => outcome

/-- The state in which `yylex` is called: the first line is written and skipped if it
is something that manconv might need to know about. -/
def parseFileStart (d : Decompress) (name : Bytes) : State :=
  let line := cString ((decompressPeekline d).getD [])
  let skips := (ppCookie.isPrefixOf line || (ascii ".\\\" ").isPrefixOf line)
  { soStackPtr := 0
    soName := Function.update (fun _ => none) 0 (some name)
    soLine := fun _ => 1
    soStack := fun _ => ⟨[], true⟩
    buffer := ⟨if skips then d.remaining.drop line.length else d.remaining, true⟩
    condition := .initial
    noNewline := false
    out := (if skips then [.text line] else []) ++ [.lf (if skips then 2 else 1) name] }

/-- `zsoelim_parse_file`. -/
def parseFile (openFile : OpenFile) (turns : Nat) (d : Decompress) (name : Bytes) : Outcome :=
  yylex openFile turns (parseFileStart d name)

end ManDb.Zsoelim
