import ManDb.Lexgrog.Whatis

namespace ManDb.Lexgrog

open Regex

/-- A string of an action and its length: `yytext`, a part of it, or a constant. -/
inductive Operand where
  | yytext
  | part (from_ length : Nat)
  | const (string : Bytes)
  deriving DecidableEq

namespace Operand

def string (text : Bytes) : Operand → Bytes
  | yytext => text
  | part from_ _ => text.drop from_
  | const string => string

def length (text : Bytes) : Operand → Nat
  | yytext => text.length
  | part _ length => length
  | const string => string.length

end Operand

/-- A character of an action: `*yytext`, `yytext[yyleng - 1]`, or a constant. -/
inductive Letter where
  | first
  | last
  | const (c : UInt8)
  deriving DecidableEq

def Letter.value (text : Bytes) : Letter → UInt8
  | first => text.head?.getD 0
  | last => text.getLast?.getD 0
  | const c => c

/-- The statements that actions are made of. `ret 0` is `yyterminate`. -/
inductive Op where
  | begin (start : Start)
  | yyless (n : Nat)
  | terminate
  | ret (value : Nat)
  | filter (found : Filter)
  | fill (mode : Bool)
  | waitForQuote
  | newlineFound
  | addStr (operand : Operand)
  | addChar (c : Letter)
  | addSeparator
  | addWordn (operand : Operand)
  | addWord (string : Bytes)
  | addGlyph (operand : Operand)
  | addPerldoc (operand : Operand)
  | mdocText (string : Bytes)
  deriving DecidableEq

/-- A rule in some start conditions. The last bytes of a match may be trailing context only. -/
structure Rule where
  starts : List Start
  pattern : Regex UInt8
  trailing : Nat
  action : List Op

/-- Rules that share an action. -/
def shared (starts : List Start) (patterns : List (Regex UInt8)) (action : List Op) : List Rule :=
  patterns.map fun pattern => ⟨starts, pattern, 0, action⟩

/-- Rules without an action. -/
def ignored (starts : List Start) (patterns : List (Regex UInt8)) : List Rule := shared starts patterns []

def anything : Regex UInt8 := .alt dot eol

def beginRules : List Rule :=
  [⟨[.manFile], seqs [secRequest, plus blankEol, nameSec, .star blank], 0, [.begin .manPrename]⟩,
    ⟨[.catFile], seqs [empty, empty, .star empty, name, .star blank, indent], 0, [.begin .catName]⟩]

def generalRules : List Rule :=
  ignored [.manFile]
    [seqs [lit ".", noneOf "Ss\r\n", .star dot],
      seqs [lit ".", upTo 3 dot, opt dblQuote, upTo 4 dot, opt dblQuote],
      .seq comment (.star dot),
      anything] ++
  ignored [.catFile]
    [.seq dot (upTo 8 dot),
      .star (lit " "),
      seqs [eol, eol, .star eol],
      anything]

def filterRules : List Rule :=
  shared [.manRest] [.seq bol tblRequest] [.filter .tbl] ++
  shared [.manRest] [.seq bol eqnRequest] [.filter .eqn] ++
  shared [.manRest] [.seq bol picRequest] [.filter .pic] ++
  shared [.manRest] [.seq bol grapRequest] [.filter .grap] ++
  shared [.manRest] [.seq bol ref1Request, .seq bol ref2Request] [.filter .ref] ++
  shared [.manRest] [.seq bol vgrindRequest] [.filter .vgrind] ++
  ignored [.manRest] [.alt (plus dot) eol]

/-- What ends the scan early. -/
def exitRules : List Rule :=
  shared [.forceExit] [anything] [.terminate, .ret 0] ++
  shared [.manPrename] [seqs [bol, secRequest, .star blank]] [.terminate, .begin .manRest]

def prenameRules : List Rule :=
  shared [.manPrename]
    [seqs [bol, typeface, blank, .star dot],
      seqs [bol, lit ".Tn", blank, .star dot],
      seqs [bol, lit ".ft", blank, .star dot],
      seqs [bol, lit ".V", oneOf "be", blank, .star dot],
      seqs [bol, lit ".IX", blank, .star dot],
      seqs [bol, lit ".Nm", blank, .star dot]]
    [.yyless 0, .begin .manName] ++
  ignored [.manPrename] [seqs [bol, oneOf "'.", .star dot]] ++
  shared [.manPrename] [.seq empty eol] [.yyless 1] ++
  shared [.manPrename] [anything] [.yyless 0, .begin .manName]

/-- The two start conditions that most rules are for. -/
def nameDesc : List Start := [.manName, .manDesc]

def endRules : List Rule :=
  shared nameDesc
    [seqs [bol, secRequest, .star blank],
      seqs [bol, lit ".X", upper, plus blank],
      seqs [bol, lit ".sp", .star blank],
      seqs [bol, lit ".ig", .star blank],
      seqs [bol, lit ".de", opt (oneOf "1i"), .star blank],
      seqs [bol, lit ".i", oneOf "ef", .star blank],
      seqs [empty, bol, plus dot]]
    [.terminate, .begin .manRest] ++
  shared [.catName]
    [seqs [bol, lit "S", oneOf "yYeE"],
      seqs [eol, eol, .star eol, plus dot],
      .seq next (lit "__")]
    [.terminate, .begin .catRest, .ret 0]

def requestRules : List Rule :=
  shared nameDesc [seqs [bol, typeface, plus blank, dblQuote]] [.newlineFound, .waitForQuote] ++
  shared nameDesc
    [seqs [bol, typeface, plus blank],
      seqs [bol, lit ".Tn", plus blank],
      seqs [bol, lit ".ft", .star dot],
      seqs [bol, lit ".V", oneOf "be", blank, .star dot],
      seqs [bol, lit ".IX", blank, .star dot],
      seqs [bol, lit ".Nm", plus blank],
      seqs [bol, lit ".PD", .star blank],
      seqs [bol, lit "\\&"],
      seqs [next, comment, .star dot]]
    [.newlineFound] ++
  [⟨nameDesc, seqs [bol, lit ".", .star blank, byte newline], 1, [.newlineFound]⟩,
    ⟨nameDesc, seqs [bol, lit "..", byte newline], 1, [.newlineFound]⟩] ++
  shared nameDesc [seqs [bol, lit ".nf", .star dot]] [.fill false] ++
  shared nameDesc [seqs [bol, lit ".fi", .star dot]] [.fill true] ++
  ignored [.catName] [seqs [lit "-", eol, .star blankEol]]

/-- The names of the dashes. -/
def dashNames : Regex UInt8 := alts [lit "mi", lit "hy", lit "em", lit "en"]

def dashRules : List Rule :=
  shared [.manName]
    [seqs [next, .star blank, lit "\\(", dashNames, .star blank],
      seqs [next, .star blank, lit "\\[", dashNames, lit "]", .star blank],
      seqs [next, plus blankEol, oneOf "-\\", lit "-", .star blank],
      seqs [next, .star blankEol, oneOf "-\\", lit "-", plus blank],
      seqs [bol, lit ".Nd", .star blank]]
    [.addSeparator, .begin .manDesc] ++
  shared [.catName] [seqs [next, plus blank, lit "-", opt (lit "-"), plus blankEol]] [.addSeparator]

/-- Escape sequences for one character. -/
def characterRules : List Rule :=
  shared nameDesc [seqs [next, lit "\\", oneOf "\\e"]] [.addChar (.const backslash)] ++
  shared nameDesc [seqs [next, lit "\\", orElse "'" "(aa"]] [.addChar (.const 39)] ++
  shared nameDesc [seqs [next, lit "\\", orElse "`" "(ga"]] [.addChar (.const 96)] ++
  shared nameDesc [seqs [next, lit "\\", .alt (lit "-") (.seq (lit "(") dashNames)]] [.addChar (.const dash)] ++
  shared nameDesc [seqs [next, lit "\\[", dashNames, lit "]"]] [.addChar (.const dash)] ++
  shared nameDesc [seqs [next, lit "\\."]] [.addChar (.const period)] ++
  shared nameDesc [.seq next (.star (alts [.seq (lit "\\") (oneOf " 0t~"), lit " ", lit "\t"]))]
    [.addChar (.const space)] ++
  shared nameDesc [seqs [next, lit "\\(", orElse "ru" "ul"]] [.addChar (.const underscore)] ++
  shared nameDesc [seqs [next, lit "\\\\t"]] [.addChar (.const tab)]

def escapeRules : List Rule :=
  ignored nameDesc
    [seqs [next, lit "\\", oneOf "|^&!%acdpruz\x7b\x7d\r\n"],
      seqs [next, lit "\\", oneOf "bhlLvx", .star blank, lit "'", plus (noneOf "'"), lit "'"],
      seqs [next, lit "\\$", oneOf "123456789"]] ++
  -- the newlines belong to the first alternative only
  shared nameDesc [.alt (seqs [next, lit "\\(", dot, dot]) (seqs [lit "\\[", dot, dot, lit "]"])]
    [.addGlyph (.part 2 2)] ++
  shared nameDesc [.alt (seqs [next, lit "\\*(", dot, dot]) (seqs [lit "\\*[", dot, dot, lit "]"])]
    [.addPerldoc (.part 3 2)] ++
  shared nameDesc [seqs [next, lit "\\*", dot]] [.addPerldoc (.part 2 1)] ++
  ignored nameDesc
    [seqs [next, lit "\\", oneOf "\"#", .star dot],
      .seq next fontChange,
      seqs [next, lit "\\k", alpha],
      seqs [next, lit "\\n", opt (.seq (lit "(") alpha), alpha],
      seqs [next, lit "\\o\"", plus (noneOf "\""), lit "\""],
      .seq next sizeChange,
      seqs [next, lit "\\w", .star blank, lit "'", plus (noneOf "'"), lit "'", .star (noneOf " \t")],
      .seq next (lit "\\"),
      seqs [next, lit "(\\|)", .star blank]]

def mdocRules : List Rule :=
  shared [.manDesc] [seqs [bol, lit ".At", .star blank]] [.begin .manDescAt] ++
  shared [.manDesc] [seqs [bol, lit ".Bsx", .star blank]] [.begin .manDescBsx] ++
  shared [.manDesc] [seqs [bol, lit ".Bx", .star blank]] [.begin .manDescBx] ++
  shared [.manDesc] [seqs [bol, lit ".Fx", .star blank]] [.begin .manDescFx] ++
  shared [.manDesc] [seqs [bol, lit ".Nx", .star blank]] [.begin .manDescNx] ++
  shared [.manDesc] [seqs [bol, lit ".Ox", .star blank]] [.begin .manDescOx] ++
  shared [.manDesc] [seqs [bol, lit ".Ux", .star blank]] [.addWord (ascii "UNIX")] ++
  shared [.manDesc] [seqs [bol, lit ".Dq", .star blank]] [.addWord (ascii "\""), .begin .manDescDq]

/-- A text of an mdoc macro, for an argument and the blanks behind it. -/
def mdocRule (start : Start) (argument : Regex UInt8) (text : String) : Rule :=
  ⟨[start], .seq argument (.star blank), 0, [.mdocText (ascii text)]⟩

/-- The text of an mdoc macro that is followed by something else. -/
def mdocElse (start : Start) (text : String) : Rule := ⟨[start], anything, 0, [.yyless 0, .mdocText (ascii text)]⟩

def atRules : List Rule :=
  [mdocRule .manDescAt (lit "32v") "Version 32V AT&T UNIX",
    mdocRule .manDescAt (lit "v1") "Version 1 AT&T UNIX",
    mdocRule .manDescAt (lit "v2") "Version 2 AT&T UNIX",
    mdocRule .manDescAt (lit "v3") "Version 3 AT&T UNIX",
    mdocRule .manDescAt (lit "v4") "Version 4 AT&T UNIX",
    mdocRule .manDescAt (lit "v5") "Version 5 AT&T UNIX",
    mdocRule .manDescAt (lit "v6") "Version 6 AT&T UNIX",
    mdocRule .manDescAt (lit "v7") "Version 7 AT&T UNIX",
    mdocRule .manDescAt (lit "V") "AT&T System V UNIX",
    mdocRule .manDescAt (seqs [lit "V", dot, lit "1"]) "AT&T System V.1 UNIX",
    mdocRule .manDescAt (seqs [lit "V", dot, lit "2"]) "AT&T System V.2 UNIX",
    mdocRule .manDescAt (seqs [lit "V", dot, lit "3"]) "AT&T System V.3 UNIX",
    mdocRule .manDescAt (seqs [lit "V", dot, lit "4"]) "AT&T System V.4 UNIX",
    mdocElse .manDescAt "AT&T UNIX"]

/-- The name of a system and the word that follows its macro. -/
def systemRules (start : Start) (system : String) : List Rule :=
  [⟨[start], word, 0, [.addWord (ascii system), .addWordn .yytext, .begin .manDesc]⟩, mdocElse start system]

def bxRules : List Rule :=
  [mdocRule .manDescBx (lit "-alpha") "BSD (currently in alpha test)",
    mdocRule .manDescBx (lit "-beta") "BSD (currently in beta test)",
    mdocRule .manDescBx (lit "-devel") "BSD (currently under development",
    ⟨[.manDescBx], .seq word (.star blank), 0,
      [.addWordn .yytext, .addStr (.const (ascii "BSD")), .begin .manDescBxRelease]⟩,
    mdocElse .manDescBx "BSD"]

def releaseRule (release : Regex UInt8) (text : String) : Rule :=
  ⟨[.manDescBxRelease], .seq release (.star blank), 0, [.addStr (.const (ascii text)), .begin .manDesc]⟩

def releaseRules : List Rule :=
  [releaseRule (.seq (oneOf "Rr") (lit "eno")) "-Reno",
    releaseRule (.seq (oneOf "Tt") (lit "ahoe")) "-Tahoe",
    releaseRule (.seq (oneOf "Ll") (lit "ite")) "-Lite",
    releaseRule (.seq (oneOf "Ll") (lit "ite2")) "-Lite2",
    ⟨[.manDescBxRelease], anything, 0, [.yyless 0, .begin .manDesc]⟩]

def quoteRules : List Rule :=
  [⟨[.manDescDq], .star dot, 0, [.addStr .yytext, .addChar (.const 34), .begin .manDesc]⟩]

def textRules : List Rule :=
  shared [.catName] [.seq next (.star (.alt (lit "\\ ") blank))] [.addChar (.const space)] ++
  shared nameDesc
    [seqs [bol, lit ".br", .star blank],
      seqs [bol, lit ".LP", .star blank],
      seqs [bol, lit ".PP", .star blank],
      seqs [bol, lit ".P", .star blank],
      seqs [bol, lit ".IP", blank, .star dot],
      seqs [bol, lit ".HP", blank, .star dot],
      seqs [bol, lit ".RS", blank, .star dot],
      seqs [bol, lit ".RE", blank, .star dot]]
    [.addChar (.const 0x11), .begin .manName] ++
  shared nameDesc [.seq bol (oneOf "'.")] [.terminate, .begin .manRest] ++
  shared nameDesc [.star (.one isAlnum)] [.addStr .yytext] ++
  shared [.catName] [seqs [.star blank, lit ",", .star (oneOf " \t\r\n")]] [.addStr (.const (ascii ", "))] ++
  shared nameDesc [seqs [.star blank, lit ",", .star blank]] [.addStr (.const (ascii ", "))] ++
  shared [.catName, .manName, .manDesc] [.seq bol dot] [.newlineFound, .addChar .last] ++
  shared [.catName, .manName, .manDesc] [dot] [.addChar .first]

/-- The rules in the order of the source. -/
def rules : List Rule :=
  beginRules ++ generalRules ++ filterRules ++ exitRules ++ prenameRules ++ endRules ++ requestRules ++ dashRules ++
  characterRules ++ escapeRules ++ mdocRules ++ atRules ++ systemRules .manDescBsx "BSD/OS" ++ bxRules ++ releaseRules ++
  quoteRules ++ systemRules .manDescFx "FreeBSD" ++ systemRules .manDescNx "NetBSD" ++
  systemRules .manDescOx "OpenBSD" ++ textRules

/-- The default rule of flex: what nothing else matches is copied to the output. -/
def defaultRule : Regex UInt8 := .one fun _ => true

/-- The actions at the end of the page. -/
def eofAction : Start → List Op
  | .manRest => [.terminate, .ret 0]
  | .manPrename | .manName | .manDesc => [.terminate, .begin .manRest]
  | _ => [.ret 1]

end ManDb.Lexgrog
