import ManDb.Decompress

namespace ManDb

/-- `conversion_table`: Emacs-style names not already recognised by GNU libiconv. -/
def conversionTable : List (String × String) :=
  [("chinese-big5", "Big5"), ("chinese-euc", "GB2312"), ("chinese-iso-8bit", "GB2312"),
    ("cn-gb-2312", "GB2312"), ("cp878", "KOI8-R"), ("cyrillic-iso-8bit", "ISO-8859-5"),
    ("cyrillic-koi8", "KOI8-R"), ("euc-china", "GB2312"), ("euc-japan", "EUC-JP"),
    ("euc-japan-1990", "EUC-JP"), ("euc-kr", "EUC-KR"), ("greek-iso-8bit", "ISO-8859-7"),
    ("iso-latin-1", "ISO-8859-1"), ("iso-latin-2", "ISO-8859-2"), ("iso-latin-5", "ISO-8859-9"),
    ("iso-latin-7", "ISO-8859-13"), ("iso-latin-9", "ISO-8859-15"), ("japanese-iso-8bit", "EUC-JP"),
    ("japanese-euc", "EUC-JP"), ("jis8", "EUC-JP"), ("korean-euc", "EUC-KR"),
    ("korean-iso-8bit", "EUC-KR"), ("latin-0", "ISO-8859-15"), ("latin-1", "ISO-8859-1"),
    ("latin-2", "ISO-8859-2"), ("latin-5", "ISO-8859-9"), ("latin-7", "ISO-8859-13"),
    ("mule-utf-16", "UTF-16"), ("mule-utf-16be", "UTF-16BE"), ("mule-utf-16-be", "UTF-16BE"),
    ("mule-utf-16be-with-signature", "UTF-16"), ("mule-utf-16le", "UTF-16LE"),
    ("mule-utf-16-le", "UTF-16LE"), ("mule-utf-16le-with-signature", "UTF-16"),
    ("mule-utf-8", "UTF-8"), ("utf-16-be", "UTF-16BE"), ("utf-16be-with-signature", "UTF-16"),
    ("utf-16-be-with-signature", "UTF-16"), ("utf-16-le", "UTF-16LE"),
    ("utf-16le-with-signature", "UTF-16"), ("utf-16-le-with-signature", "UTF-16")]

/-- The `STRIP` macro: does the encoding end in this suffix, with something before it? -/
def stripsTo (loc : Locale) (encoding suffix : Bytes) : Option Bytes :=
  if suffix.length < encoding.length ∧ loc.caseEq (encoding.drop (encoding.length - suffix.length)) suffix
  then some (encoding.take (encoding.length - suffix.length)) else none

/-- Convert Emacs-style coding tags to ones that libiconv understands. Once one
suffix is stripped the length, which is not updated, keeps the others from matching. -/
def convertEncoding (loc : Locale) (encoding : Bytes) : Bytes :=
  let encoding := (stripsTo loc encoding (ascii "-dos")).getD <|
    (stripsTo loc encoding (ascii "-mac")).getD <| (stripsTo loc encoding (ascii "-unix")).getD encoding
  match conversionTable.find? (fun entry => loc.caseEq (ascii entry.1) encoding) with
  | some entry => ascii entry.2
  | none => encoding

/-- `memmem`: the text that follows the first occurrence of the needle. -/
def afterFirst (needle : Bytes) : Bytes → Option Bytes
  | [] => if needle = [] then some [] else none
  | b :: text => if needle.isPrefixOf (b :: text) then some ((b :: text).drop needle.length)
    else afterFirst needle text

/-- The search for "coding:" at the start of a field, or from the middle of one to
the next semicolon; it gives the text at the value. -/
def codingValue (atStart : Bool) : Bytes → Option Bytes
  | [] => none
  | b :: text =>
    if b = 59 then codingValue true text
    else if atStart ∧ b = 32 then codingValue true text
    else if atStart ∧ (ascii "coding:").isPrefixOf (b :: text) then
      some (((b :: text).drop 7).dropWhile (· = 32))
    else codingValue false text

/-- `pp_encoding_allow`. -/
def encodingAllowed (b : UInt8) : Bool :=
  (ascii "ABCDEFGHIJKLMNOPQRSTUVWXYZabcdefghijklmnopqrstuvwxyz0123456789-_/:.()").contains b

/-- `PP_COOKIE`. -/
def ppCookie : Bytes := ascii "'\\\" "

/-- A coding tag on a line: the line up to the end of the directive, and the text
from the tag's value on. -/
def codingTag (line : Bytes) : Option (Bytes × Bytes) :=
  if ppCookie.isPrefixOf line ∨ (ascii ".\\\" ").isPrefixOf line then
    let line := (Separated.cut newline line).1
    ((afterFirst (ascii "-*-") (line.drop 4)).bind (codingValue true)).map (fun value => (line, value))
  else none

/-- The value of the tag, and the line with another value. -/
def tagEncoding (value : Bytes) : Bytes := value.takeWhile encodingAllowed

def retaggedLine (line value toEncoding : Bytes) : Bytes :=
  line.take (line.length - value.length) ++ toEncoding ++ value.drop (tagEncoding value).length ++ [newline]

/-- Inspect the first line of data from a decompressor for preprocessor encoding
declarations. If one does not match `toEncoding`, the line modified to refer to
that is returned too. -/
def checkPreprocessorEncoding (loc : Locale) (d : Decompress) (toEncoding : Bytes) : Option (Bytes × Option Bytes) :=
  ((decompressPeekline d).map cString).bind codingTag |>.map fun (line, value) =>
    let ppEncoding := convertEncoding loc (tagEncoding value)
    (ppEncoding, if loc.caseEq ppEncoding toEncoding then none else some (retaggedLine line value toEncoding))

theorem cString_head {b c : UInt8} {line rest : Bytes} (starts : cString (b :: line) = c :: rest) : c = b := by
  unfold cString at starts
  rw [List.takeWhile_cons] at starts
  split at starts
  · exact (List.cons.inj starts).1.symm
  · cases starts

/-- A tag stands after a quote or a dot. -/
theorem untagged_of_head {loc : Locale} {d : Decompress} {b : UInt8} {rest toEncoding : Bytes}
    (starts : d.remaining = b :: rest) (quote : b ≠ 39) (dot : b ≠ 46) :
    checkPreprocessorEncoding loc d toEncoding = none := by
  have untagged : ∀ line, lineAt d.tag d.remaining = some line →
    codingTag (cString (lineCache d.tag line)) = none := by
    intro line found
    obtain ⟨more, whole, nonempty⟩ := lineAt_mem found
    obtain ⟨c, line, rfl⟩ := List.exists_cons_of_ne_nil nonempty
    rw [starts, List.cons_append, List.cons.injEq] at whole
    obtain ⟨rfl, _⟩ := whole
    have first : ∀ c text, cString (lineCache d.tag (b :: line)) = c :: text → c = b := by
      intro c text cut
      cases tag : d.tag with
      | pipeline =>
        rw [tag] at cut
        exact cString_head cut
      | inprocess =>
        rw [tag, lineCache] at cut
        cases inner : cString (b :: line) with
        | nil =>
          rw [inner] at cut
          cases cut
        | cons e text' =>
          rw [inner] at cut
          exact (cString_head cut).trans (cString_head inner)
    cases cut : cString (lineCache d.tag (b :: line)) with
    | nil => rfl
    | cons c text =>
      have same := first c text cut
      subst same
      have cookies : ppCookie = [39, 92, 34, 32] ∧ ascii ".\\\" " = [46, 92, 34, 32] := by decide
      refine if_neg ?_
      rintro (cookie | cookie)
      · rw [cookies.1] at cookie
        obtain ⟨more, shape⟩ := List.isPrefixOf_iff_prefix.mp cookie
        exact quote (List.cons.inj shape).1.symm
      · rw [cookies.2] at cookie
        obtain ⟨more, shape⟩ := List.isPrefixOf_iff_prefix.mp cookie
        exact dot (List.cons.inj shape).1.symm
  unfold checkPreprocessorEncoding decompressPeekline
  cases found : lineAt d.tag d.remaining with
  | none => rfl
  | some line => simp [untagged line found]

end ManDb
