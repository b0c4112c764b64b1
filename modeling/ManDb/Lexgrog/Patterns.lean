import ManDb.Globbing
import ManDb.Lib.Regex

namespace ManDb.Lexgrog

open Regex

/-- A page is read in UTF-8. -/
def utf8 (text : String) : Bytes := text.toList.flatMap String.utf8EncodeChar

def carriageReturn : UInt8 := 13

def seqs : List (Regex UInt8) → Regex UInt8
  | [] => .empty
  | [r] => r
  | r :: rs => .seq r (seqs rs)

def alts (rs : List (Regex UInt8)) : Regex UInt8 := rs.foldr .alt .never

def opt (r : Regex UInt8) : Regex UInt8 := .alt r .empty

def plus (r : Regex UInt8) : Regex UInt8 := .seq r (.star r)

/-- At most so many. -/
def upTo : Nat → Regex UInt8 → Regex UInt8
  | 0, _ => .empty
  | n + 1, r => opt (.seq r (upTo n r))

def byte (b : UInt8) : Regex UInt8 := .one (· == b)

/-- A text as it stands. -/
def lit (text : String) : Regex UInt8 := seqs ((utf8 text).map byte)

/-- One of some ASCII characters. -/
def oneOf (chars : String) : Regex UInt8 := .one ((ascii chars).contains ·)

def noneOf (chars : String) : Regex UInt8 := .one fun b => !(ascii chars).contains b

/-- One character of each of some texts. -/
def letters (texts : List String) : Regex UInt8 := seqs (texts.map oneOf)

/-- One text or the other. -/
def orElse (first second : String) : Regex UInt8 := .alt (lit first) (lit second)

/-- Any byte but a newline. -/
def dot : Regex UInt8 := .one (· != newline)

def isUpper (b : UInt8) : Bool := 65 ≤ b && b ≤ 90

def isAlpha (b : UInt8) : Bool := isUpper b || 97 ≤ b && b ≤ 122

def isAlnum (b : UInt8) : Bool := isAlpha b || isDigit b

def isBlank (b : UInt8) : Bool := b == space || b == tab

def isEnd (b : UInt8) : Bool := b == carriageReturn || b == newline

/-! The definitions of the source, under their names. -/

def digit : Regex UInt8 := .one isDigit

def upper : Regex UInt8 := .one isUpper

def alpha : Regex UInt8 := .one isAlpha

def blank : Regex UInt8 := .one isBlank

def blankEol : Regex UInt8 := .one fun b => isBlank b || isEnd b

def word : Regex UInt8 := .seq (.one isAlnum) (.star (.one fun b => !(isBlank b || isEnd b)))

def eol : Regex UInt8 := .seq (opt (byte carriageReturn)) (byte newline)

def bol : Regex UInt8 := plus eol

def next : Regex UInt8 := .star eol

def empty : Regex UInt8 := .seq eol (.star blank)

def indent : Regex UInt8 := .seq eol (plus blank)

def dblQuote : Regex UInt8 := byte 34

def fontChange : Regex UInt8 :=
  .seq (lit "\\f") (.alt (.one fun b => isUpper b || 49 ≤ b && b ≤ 52) (seqs [lit "(", upper, upper]))

def sizeChange : Regex UInt8 := seqs [lit "\\s", opt (oneOf "+-"), digit]

def styleChange : Regex UInt8 := .alt (.seq fontChange (opt sizeChange)) (.seq sizeChange (opt fontChange))

def typeface : Regex UInt8 :=
  .seq (lit ".") (alts [.seq (lit "B") (opt (oneOf "IR")), .seq (lit "I") (opt (oneOf "BR")), letters ["R", "BI"],
    letters ["S", "BM"]])

def secRequest : Regex UInt8 := letters [".", "Ss", "HhYySs"]

def comment : Regex UInt8 := seqs [oneOf "'.", lit "\\", dblQuote]

def arName : Regex UInt8 := orElse "اﻹسم" "الإسم"

def bgName : Regex UInt8 := seqs [lit "И", orElse "М" "м", orElse "Е" "е"]

/-- An E, perhaps with an acute accent of its own. -/
def acuteE : Regex UInt8 := alts [lit "É", lit "é", .seq (lit "\\('") (oneOf "Ee"), lit "E", lit "e"]

def csName : Regex UInt8 :=
  .alt (seqs [letters ["J", "Mm"], acuteE, letters ["Nn", "Oo"]])
    (seqs [lit "N", orElse "Á" "á", letters ["Zz", "Ee", "Vv"]])

def daName : Regex UInt8 := letters ["N", "Aa", "Vv", "Nn"]

def deName : Regex UInt8 := letters ["B", "Ee", "Zz", "Ee", "Ii", "Cc", "Hh", "Nn", "Uu", "Nn", "Gg"]

def enName : Regex UInt8 := letters ["N", "Aa", "Mm", "Ee"]

def eoName : Regex UInt8 := letters ["N", "Oo", "Mm", "Oo"]

def esName : Regex UInt8 := letters ["N", "Oo", "Mm", "Bb", "Rr", "Ee"]

def faName : Regex UInt8 := lit "نام"

def fiName : Regex UInt8 := letters ["N", "Ii", "Mm", "Ii"]

def frName : Regex UInt8 := letters ["N", "Oo", "Mm"]

def huName : Regex UInt8 := seqs [lit "N", acuteE, oneOf "Vv"]

def idName : Regex UInt8 := letters ["N", "Aa", "Mm", "Aa"]

def itName : Regex UInt8 := letters ["N", "Oo", "Mm", "Ee"]

def jaName : Regex UInt8 := .seq (orElse "名" "\u033e") (orElse "前" "称")

def koName : Regex UInt8 := orElse "이름" "명칭"

def latinName : Regex UInt8 := letters ["N", "Oo", "Mm", "Ee", "Nn"]

def ltName : Regex UInt8 := letters ["P", "Aa", "Vv", "Aa", "Dd", "Ii", "Nn", "Ii", "Mm", "Aa", "Ss"]

def nlName : Regex UInt8 := letters ["N", "Aa", "Aa", "Mm"]

def plName : Regex UInt8 := letters ["N", "Aa", "Zz", "Ww", "Aa"]

def roName : Regex UInt8 := letters ["N", "Uu", "Mm", "Ee"]

def ruName : Regex UInt8 :=
  alts [seqs [lit "И", orElse "М" "м", orElse "Я" "я"],
    seqs [lit "Н", orElse "А" "а", orElse "З" "з", orElse "В" "в", orElse "А" "а", orElse "Н" "н", orElse "И" "и",
      orElse "Е" "е"],
    seqs [lit "Н", orElse "А" "а", orElse "И" "и", orElse "М" "м", orElse "Е" "е", orElse "Н" "н", orElse "О" "о",
      orElse "В" "в", orElse "А" "а", orElse "Н" "н", orElse "И" "и", orElse "Е" "е"]]

def skName : Regex UInt8 := letters ["M", "Ee", "Nn", "Oo"]

def srName : Regex UInt8 :=
  .alt (seqs [lit "И", orElse "М" "м", orElse "Е" "е"])
    (seqs [lit "Н", orElse "А" "а", orElse "З" "з", orElse "И" "и", orElse "В" "в"])

def srlatinName : Regex UInt8 := .alt (letters ["I", "Mm", "Ee"]) (letters ["N", "Aa", "Zz", "Ii", "Vv"])

def svName : Regex UInt8 := letters ["N", "Aa", "Mm", "Nn"]

def taName : Regex UInt8 := lit "பெய"

def trName : Regex UInt8 :=
  .alt (letters ["A", "Dd"]) (seqs [orElse "İ" "i", lit "S", orElse "İ" "i", lit "M"])

def ukName : Regex UInt8 := seqs [lit "Н", orElse "А" "а", orElse "З" "з", orElse "В" "в", orElse "А" "а"]

def viName : Regex UInt8 := seqs [lit "T", orElse "Ê" "ê", oneOf "Nn"]

def zhCnName : Regex UInt8 := seqs [lit "名", opt blank, orElse "称" "字", opt blank, .star dot]

def zhTwName : Regex UInt8 :=
  seqs [.alt (seqs [lit "名", opt blank, orElse "稱" "字"]) (lit "命令名"), opt blank, .star dot]

def name : Regex UInt8 :=
  alts [arName, bgName, csName, daName, deName, enName, eoName, esName, faName, fiName, frName, huName, idName, itName,
    jaName, koName, latinName, ltName, nlName, plName, roName, ruName, skName, srName, srlatinName, svName, taName,
    trName, ukName, viName, zhCnName, zhTwName]

def nameSec : Regex UInt8 :=
  seqs [opt dblQuote, opt styleChange, name, opt styleChange, opt (.seq (.star blank) dblQuote)]

def tblRequest : Regex UInt8 := lit ".TS"

def eqnRequest : Regex UInt8 := lit ".EQ"

def picRequest : Regex UInt8 := lit ".PS"

def grapRequest : Regex UInt8 := lit ".G1"

def ref1Request : Regex UInt8 := lit ".R1"

def ref2Request : Regex UInt8 := lit ".["

def vgrindRequest : Regex UInt8 := lit ".vS"

end ManDb.Lexgrog
