import Mathlib.Logic.Function.Iterate
import ManDb.Lexgrog.Rules

namespace ManDb.Lexgrog

open Regex

section Limit

variable (limit : Option Nat)

/-- What a statement of an action does; `text` is `yytext`. -/
def runOp (text : Bytes) : Op → Scanner → Scanner
  | .begin start, s => s.begin start
  | .yyless n, s => { s with rest := text.drop n ++ s.rest }
  | .terminate, s => s.terminate limit
  | .ret value, s => { s with result := some value }
  | .filter found, s => { s with filters := s.filters.set found.index found.letter }
  | .fill mode, s => { s with fillMode := mode }
  | .waitForQuote, s => { s with waitingForQuote := true }
  | .newlineFound, s => s.newlineFound limit
  | .addStr operand, s => s.addStr limit (operand.string text) (operand.length text)
  | .addChar c, s => s.addChar limit (c.value text)
  | .addSeparator, s => s.addSeparator limit
  | .addWordn operand, s => s.addWordn limit (operand.string text) (operand.length text)
  | .addWord string, s => s.addWord limit string
  | .addGlyph operand, s => s.addGlyph limit (operand.string text) (operand.length text)
  | .addPerldoc operand, s => s.addPerldoc limit (operand.string text) (operand.length text)
  | .mdocText string, s => s.mdocText limit string

def runAction (text : Bytes) (action : List Op) (s : Scanner) : Scanner :=
  action.foldl (fun s op => runOp limit text op s) s

end Limit

/-- The rules of a start condition, with their trailing context and their action. -/
def rulesOf (start : Start) : List (Regex UInt8 × Nat × List Op) :=
  (rules.filter (start ∈ ·.starts)).map (fun rule => (rule.pattern, rule.trailing, rule.action)) ++
    [(defaultRule, 0, [])]

/-- The action that comes next, and the length of `yytext` for it. -/
def nextToken (start : Start) (rest : Bytes) : Option (List Op × Nat) :=
  (select rest (rulesOf start)).map fun found => (found.1.2, found.2 - found.1.1)

/-- The action that comes next, with `yytext`, and what it leaves of the page. -/
def nextAction (s : Scanner) : Option (List Op × Bytes × Bytes) :=
  if s.result.isSome then none
  else if s.rest = [] then some (eofAction s.start, [], [])
  else (nextToken s.start s.rest).map fun token => (token.1, s.rest.take token.2, s.rest.drop token.2)

/-- What is left of the page. -/
def Scanner.leave (rest : Bytes) (s : Scanner) : Scanner := { s with rest }

/-- A turn of the loop of `yylex`. -/
def turn (limit : Option Nat) (s : Scanner) : Scanner :=
  match nextAction s with
  | none => s
  | some (action, text, rest) => runAction limit text action (s.leave rest)

/-- Whether a page is a man page or a cat page. -/
inductive PageType where
  | manpage
  | catpage
  deriving DecidableEq

/-- How `find_name_decompressed` starts. -/
def Scanner.init (type : PageType) (page : Bytes) : Scanner where
  start := if type = .catpage then .catFile else .manFile
  rest := page
  whatis := []
  fillMode := true
  waitingForQuote := false
  filters := List.replicate 6 underscore
  result := none
  warnings := 0
  storedOutside := false

/-- The first turns of the scan of a page. -/
def scan (limit : Option Nat) (type : PageType) (page : Bytes) (turns : Nat) : Scanner :=
  (turn limit)^[turns] (.init type page)

variable {s : Scanner} {action : List Op} {text rest : Bytes}

theorem turn_eq (next : nextAction s = some (action, text, rest)) (limit : Option Nat) :
    turn limit s = runAction limit text action (s.leave rest) := by
  rw [turn, next]

theorem nextAction_token {n : Nat} (running : s.result = none) (more : s.rest ≠ [])
    (token : nextToken s.start s.rest = some (action, n)) :
    nextAction s = some (action, s.rest.take n, s.rest.drop n) := by
  rw [nextAction, if_neg (by simp [running]), if_neg more, token]
  rfl

theorem scan_succ (limit : Option Nat) (type : PageType) (page : Bytes) (turns : Nat) :
    scan limit type page (turns + 1) = turn limit (scan limit type page turns) :=
  Function.iterate_succ_apply' _ _ _

end ManDb.Lexgrog
