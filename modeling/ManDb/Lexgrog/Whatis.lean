import Mathlib.Data.List.DropRight
import ManDb.Lexgrog.Patterns

namespace ManDb.Lexgrog

/-- `MAX_NAME`. -/
def maxName : Nat := 8192

/-- The start conditions. -/
inductive Start where
  | manPrename
  | manName
  | manDesc
  | manDescAt
  | manDescBsx
  | manDescBx
  | manDescBxRelease
  | manDescDq
  | manDescFx
  | manDescNx
  | manDescOx
  | catName
  | catFile
  | manFile
  | catRest
  | manRest
  | forceExit
  deriving DecidableEq

/-- The filters, in the order of `filters`. -/
inductive Filter where
  | tbl
  | eqn
  | pic
  | grap
  | ref
  | vgrind
  deriving DecidableEq

namespace Filter

def all : List Filter := [tbl, eqn, pic, grap, ref, vgrind]

def index : Filter → Nat
  | tbl => 0
  | eqn => 1
  | pic => 2
  | grap => 3
  | ref => 4
  | vgrind => 5

def letter : Filter → UInt8
  | tbl => 116
  | eqn => 101
  | pic => 112
  | grap => 103
  | ref => 114
  | vgrind => 118

end Filter

/-- `struct macro`. -/
abbrev Macro := String × String

def glyphs : List Macro :=
  [("'A", "Á"), ("'C", "Ć"), ("'E", "É"), ("'I", "Í"), ("'O", "Ó"), ("'U", "Ú"), ("'Y", "Ý"), ("'a", "á"),
    ("'c", "ć"), ("'e", "é"), ("'i", "í"), ("'o", "ó"), ("'u", "ú"), ("'y", "ý"), (",C", "Ç"), (",c", "ç"),
    ("-D", "Ð"), (".i", "ı"), ("/L", "Ł"), ("/O", "Ø"), ("/l", "ł"), ("/o", "ø"), (":A", "Ä"), (":E", "Ë"),
    (":I", "Ï"), (":O", "Ö"), (":U", "Ü"), (":Y", "Ÿ"), (":a", "ä"), (":e", "ë"), (":i", "ï"), (":o", "ö"),
    (":u", "ü"), (":y", "ÿ"), ("AE", "Æ"), ("Bq", "„"), ("Fc", "»"), ("Fi", "ffi"), ("Fl", "ffl"), ("Fo", "«"),
    ("IJ", "Ĳ"), ("OE", "Œ"), ("Sd", "ð"), ("TP", "Þ"), ("Tp", "þ"), ("^A", "Â"), ("^E", "Ê"), ("^I", "Î"),
    ("^O", "Ô"), ("^U", "Û"), ("^a", "â"), ("^e", "ê"), ("^i", "î"), ("^o", "ô"), ("^u", "û"), ("`A", "À"),
    ("`E", "È"), ("`I", "Ì"), ("`O", "Ò"), ("`U", "Ù"), ("`a", "à"), ("`e", "è"), ("`i", "ì"), ("`o", "ò"),
    ("`u", "ù"), ("a\"", "˝"), ("a-", "¯"), ("a.", "˙"), ("a^", "^"), ("aa", "´"), ("ab", "˘"), ("ac", "¸"),
    ("ad", "¨"), ("ae", "æ"), ("ah", "ˇ"), ("ao", "˚"), ("aq", "'"), ("a~", "~"), ("bq", "‚"), ("cq", "’"),
    ("dq", "\""), ("em", "—"), ("en", "–"), ("fc", "›"), ("ff", "ff"), ("fi", "fi"), ("fl", "fl"), ("fo", "‹"),
    ("ga", "`"), ("ha", "^"), ("ho", "˛"), ("hy", "‐"), ("ij", "ĳ"), ("lq", "“"), ("oA", "Å"), ("oa", "å"),
    ("oe", "œ"), ("oq", "‘"), ("r!", "¡"), ("r?", "¿"), ("rq", "”"), ("ss", "ß"), ("ti", "~"), ("vS", "Š"),
    ("vZ", "Ž"), ("vs", "š"), ("vz", "ž"), ("~A", "Ã"), ("~N", "Ñ"), ("~O", "Õ"), ("~a", "ã"), ("~n", "ñ"),
    ("~o", "õ")]

def perldocs : List Macro :=
  [("--", "-"), ("Aq", "'"), ("C'", "'"), ("C+", "C++"), ("C`", "`"), ("L\"", "\""), ("PI", "π"), ("R\"", "\"")]

/-- `bsearch` with `compare_macro`: the names are sorted, and one of them is the whole key. -/
def findMacro (macros : List Macro) (key : Bytes) : Option Bytes :=
  (macros.find? fun m => ascii m.1 == key).map fun m => utf8 m.2

/-- The scanner: its start condition and what is left of the page, `newname` up to `p_name`, and what
`yylex` has returned. `warnings` counts the calls of `too_big`. -/
structure Scanner where
  start : Start
  rest : Bytes
  whatis : Bytes
  fillMode : Bool
  waitingForQuote : Bool
  filters : Bytes
  result : Option Nat
  warnings : Nat
  storedOutside : Bool

/-- What `strncpy` stores: it ends with the string, and fills up with NULs. -/
def strncpy (string : Bytes) (length : Nat) : Bytes :=
  (cString string).take length ++ List.replicate (length - (cString string).length) 0

theorem length_strncpy (string : Bytes) (length : Nat) : (strncpy string length).length = length := by
  simp only [strncpy, List.length_append, List.length_take, List.length_replicate]
  omega

theorem strncpy_nulFree {string : Bytes} (nulFree : 0 ∉ string) : strncpy string string.length = string := by
  rw [strncpy, cString_nulFree nulFree, List.take_length, Nat.sub_self, List.replicate_zero, List.append_nil]

namespace Scanner

/-- `BEGIN`. -/
def begin (start : Start) (s : Scanner) : Scanner := { s with start }

/-- Print a warning and force the scanner to terminate. -/
def tooBig (s : Scanner) : Scanner := { s with warnings := s.warnings + 1 }.begin .forceExit

/-- `p_name != newname && *(p_name - 1) != ' '`. -/
def needsSpace (s : Scanner) : Bool := s.whatis ≠ [] && s.whatis.getLast? ≠ some space

section Limit

/-! The size of `newname` is a parameter: `none` is a buffer without an end. -/

variable (limit : Option Nat)

/-- What is stored at `p_name` moves it. -/
def store (bytes : Bytes) (s : Scanner) : Scanner :=
  { s with
    whatis := s.whatis ++ bytes
    storedOutside := s.storedOutside || limit.any (· < s.whatis.length + bytes.length) }

/-- `*p_name = '\0'`. -/
def terminate (s : Scanner) : Scanner :=
  { s with storedOutside := s.storedOutside || limit.any (· ≤ s.whatis.length) }

/-- Append a string if there is enough room. -/
def addStr (string : Bytes) (length : Nat) (s : Scanner) : Scanner :=
  if limit.any (· ≤ s.whatis.length + length) then s.tooBig else s.store limit (strncpy string length)

/-- Append a character if there is enough room. -/
def addChar (c : UInt8) (s : Scanner) : Scanner :=
  if limit.any (· ≤ s.whatis.length + 1) then s.tooBig
  else if s.waitingForQuote ∧ c = 34 then { s with waitingForQuote := false }
  else s.store limit [c]

/-- Append the " - " separator, trimming the first space if one is already there. -/
def addSeparator (s : Scanner) : Scanner :=
  let s := if s.needsSpace then s.addChar limit space else s
  s.addStr limit (ascii "- ") 2

/-- The length of a string without its trailing spaces. -/
def trimmedLength (string : Bytes) (length : Nat) : Nat := ((string.take length).rdropWhile (· == space)).length

/-- Append a word if there is enough room, ensuring only necessary surrounding space. -/
def addWordn (string : Bytes) (length : Nat) (s : Scanner) : Scanner :=
  let s := if s.needsSpace then s.addChar limit space else s
  let length := trimmedLength string length
  if length ≠ 0 then s.addStr limit string length else s

def addWord (string : Bytes) (s : Scanner) : Scanner := s.addWordn limit string string.length

def addMacro (macros : List Macro) (string : Bytes) (length : Nat) (s : Scanner) : Scanner :=
  match findMacro macros (string.take length) with
  | some value => s.addStr limit value value.length
  | none => s

def addGlyph : Bytes → Nat → Scanner → Scanner := addMacro limit glyphs

def addPerldoc : Bytes → Nat → Scanner → Scanner := addMacro limit perldocs

def mdocText (string : Bytes) (s : Scanner) : Scanner := (s.addWord limit string).begin .manDesc

def newlineFound (s : Scanner) : Scanner :=
  let s :=
    if s.needsSpace then
      if s.fillMode then s.addChar limit space else (s.addChar limit 0x11).begin .manName
    else s
  { s with waitingForQuote := false }

end Limit

/-- What an append leaves as it is. -/
structure Kept (s t : Scanner) : Prop where
  rest : t.rest = s.rest
  fillMode : t.fillMode = s.fillMode
  filters : t.filters = s.filters
  result : t.result = s.result

section Kept

variable {limit : Option Nat}

theorem Kept.refl (s : Scanner) : s.Kept s := ⟨rfl, rfl, rfl, rfl⟩

theorem Kept.trans {s t u : Scanner} (first : s.Kept t) (second : t.Kept u) : s.Kept u :=
  ⟨second.rest.trans first.rest, second.fillMode.trans first.fillMode, second.filters.trans first.filters,
    second.result.trans first.result⟩

theorem kept_addStr (string : Bytes) (length : Nat) (s : Scanner) : s.Kept (s.addStr limit string length) := by
  unfold addStr
  split <;> exact ⟨rfl, rfl, rfl, rfl⟩

theorem kept_addChar (c : UInt8) (s : Scanner) : s.Kept (s.addChar limit c) := by
  unfold addChar
  split
  · exact ⟨rfl, rfl, rfl, rfl⟩
  · split <;> exact ⟨rfl, rfl, rfl, rfl⟩

theorem kept_addSpace (s : Scanner) : s.Kept (if s.needsSpace then s.addChar limit space else s) := by
  split
  · exact kept_addChar _ _
  · exact .refl s

theorem kept_addSeparator (s : Scanner) : s.Kept (s.addSeparator limit) :=
  s.kept_addSpace.trans (kept_addStr _ _ _)

theorem kept_addWordn (string : Bytes) (length : Nat) (s : Scanner) : s.Kept (s.addWordn limit string length) := by
  unfold addWordn
  dsimp only
  split
  · exact s.kept_addSpace.trans (kept_addStr _ _ _)
  · exact s.kept_addSpace

theorem kept_addMacro (macros : List Macro) (string : Bytes) (length : Nat) (s : Scanner) :
    s.Kept (s.addMacro limit macros string length) := by
  unfold addMacro
  split
  · exact kept_addStr _ _ _
  · exact .refl s

theorem kept_newlineFound (s : Scanner) : s.Kept (s.newlineFound limit) := by
  unfold newlineFound
  dsimp only
  split
  · split
    · obtain ⟨rest, fillMode, filters, result⟩ : s.Kept (s.addChar limit space) := s.kept_addChar _
      exact ⟨rest, fillMode, filters, result⟩
    · obtain ⟨rest, fillMode, filters, result⟩ : s.Kept (s.addChar limit 0x11) := s.kept_addChar _
      exact ⟨rest, fillMode, filters, result⟩
  · exact ⟨rfl, rfl, rfl, rfl⟩

end Kept

end Scanner

theorem glyphs_sorted : glyphs.Pairwise fun left right => compare (ascii left.1) (ascii right.1) = .lt := by
  decide +kernel

theorem perldocs_sorted : perldocs.Pairwise fun left right => compare (ascii left.1) (ascii right.1) = .lt := by
  decide +kernel

end ManDb.Lexgrog
