import Mathlib.Algebra.Group.Nat.Defs
import ManDb.DbStore
import ManDb.Filenames

namespace ManDb

/-- `struct locale_bits`. -/
structure LocaleBits where
  language : Bytes
  territory : Bytes
  codeset : Bytes
  modifier : Bytes
  deriving DecidableEq

/-- A part of a locale name that starts with this byte, if there is one, and what
follows the part. -/
def localePart (start : UInt8) (ends : List UInt8) (text : Bytes) : Bytes × Bytes :=
  match text with
  | b :: rest => if b = start then rest.span (· ∉ ends) else ([], b :: rest)
  | [] => ([], [])

/-- Unpack a glibc-style locale into its component parts. A name without a language
is taken for the language as it is. -/
def unpackLocaleBits (locale : Bytes) : LocaleBits :=
  let (language, rest) := locale.span (· ∉ [underscore, period, atSign])
  if language = [] then ⟨locale, [], [], []⟩
  else
    let (territory, rest) := localePart underscore [period, atSign] rest
    let (codeset, rest) := localePart period [atSign] rest
    ⟨language, territory, codeset, (localePart atSign [] rest).1⟩

/-- `charset_alias_table`. -/
def charsetAliasTable : List (Bytes × Bytes) :=
  [("88591", "ISO-8859-1"), ("88592", "ISO-8859-2"), ("88593", "ISO-8859-3"), ("88594", "ISO-8859-4"),
    ("88595", "ISO-8859-5"), ("88596", "ISO-8859-6"), ("88597", "ISO-8859-7"), ("88598", "ISO-8859-8"),
    ("88599", "ISO-8859-9"), ("885910", "ISO-8859-10"), ("885911", "ISO-8859-11"), ("885913", "ISO-8859-13"),
    ("885914", "ISO-8859-14"), ("885915", "ISO-8859-15"), ("885916", "ISO-8859-16"), ("ASCII", "ANSI_X3.4-1968"),
    ("BIG-5", "BIG5"), ("BIG5-HKSCS", "BIG5HKSCS"), ("EUCCN", "EUC-CN"), ("EUCJP", "EUC-JP"), ("EUCKR", "EUC-KR"),
    ("EUCTW", "EUC-TW"), ("GB2312", "EUC-CN"), ("ISO8859-1", "ISO-8859-1"), ("ISO8859-2", "ISO-8859-2"),
    ("ISO8859-3", "ISO-8859-3"), ("ISO8859-4", "ISO-8859-4"), ("ISO8859-5", "ISO-8859-5"),
    ("ISO8859-6", "ISO-8859-6"), ("ISO8859-7", "ISO-8859-7"), ("ISO8859-8", "ISO-8859-8"),
    ("ISO8859-9", "ISO-8859-9"), ("ISO8859-10", "ISO-8859-10"), ("ISO8859-11", "ISO-8859-11"),
    ("ISO8859-13", "ISO-8859-13"), ("ISO8859-14", "ISO-8859-14"), ("ISO8859-15", "ISO-8859-15"),
    ("ISO8859-16", "ISO-8859-16"), ("KOI8R", "KOI8-R"), ("KOI8U", "KOI8-U"), ("UJIS", "EUC-JP"),
    ("US-ASCII", "ANSI_X3.4-1968"), ("UTF8", "UTF-8")].map fun entry => (ascii entry.1, ascii entry.2)

/-- `get_canonical_charset_name`, with the `toupper` of the locale. -/
def getCanonicalCharsetName (toupper : UInt8 → UInt8) (charset : Bytes) : Bytes :=
  (charsetAliasTable.lookup (charset.map toupper)).getD charset

/-- `struct candidate`; `source->name` is set. -/
structure Candidate where
  reqName : Bytes
  fromDb : Bool
  cat : Bool
  path : Bytes
  ult : Option Bytes
  source : Mandata
  addIndex : Nat
  deriving DecidableEq

/-- What the comparison of candidates reads besides the candidates. -/
structure SortContext where
  sectionList : List Bytes
  askedSection : Option Bytes
  internalLocale : Bytes
  overrideDir : Bytes
  toupper : UInt8 → UInt8

/-- The one for which the test holds comes first. -/
def firstIf (left right : Bool) : Ordering :=
  match left, right with
  | true, false => .lt
  | false, true => .gt
  | _, _ => .eq

/-- `(size_t) -1`. -/
def sizeMax : Nat := 2 ^ 64 - 1

/-- The place of an extension in `section_list`, or that of its first letter. -/
def sectionIndex (sectionList : List Bytes) (ext : Bytes) : Nat :=
  match sectionList.idxOf? ext with
  | some index => index
  | none => if 1 < ext.length then (sectionList.idxOf? (ext.take 1)).getD sectionList.length else sizeMax

/-- Is one candidate in `OVERRIDE_DIR` within the same base path as the other? -/
def compareOverrideDir (overrideDir left right : Bytes) : Ordering :=
  if overrideDir = [] then .eq
  else if left.length = right.length ∨
      left.take (min left.length right.length) ≠ right.take (min left.length right.length) then .eq
  else if right.length < left.length then
    if left[right.length]? = some slash ∧ left.drop (right.length + 1) = overrideDir then .lt else .eq
  else if right[left.length]? = some slash ∧ right.drop (left.length + 1) = overrideDir then .gt
  else .eq

/-- `COMPARE_LOCALE_ELEMENTS`: prefer one that matches the locale if possible. -/
def compareLocaleElements (locale left right : Bytes) : Ordering :=
  (if locale = [] then .eq else firstIf (left = locale) (right = locale)).then (compare left right)

def SortContext.isUtf8 (ctx : SortContext) (bits : LocaleBits) : Bool :=
  getCanonicalCharsetName ctx.toupper bits.codeset = ascii "UTF-8"

/-- The comparison based on language, for the last components of two paths. -/
def compareLanguages (ctx : SortContext) (left right : Bytes) : Ordering :=
  let bits1 := unpackLocaleBits left
  let bits2 := unpackLocaleBits right
  let lbits := unpackLocaleBits (Separated.cut colon ctx.internalLocale).1
  (compareLocaleElements lbits.language bits1.language bits2.language).then <|
    (compareLocaleElements lbits.territory bits1.territory bits2.territory).then <|
      (compareLocaleElements lbits.modifier bits1.modifier bits2.modifier).then <|
        firstIf (ctx.isUtf8 bits1) (ctx.isUtf8 bits2)

/-- The same, if both paths have a slash. -/
def compareLocales (ctx : SortContext) (left right : Bytes) : Ordering :=
  match (Separated.cutLast slash left).2, (Separated.cutLast slash right).2 with
  | some dir1, some dir2 => compareLanguages ctx dir1 dir2
  | _, _ => .eq

/-- If the user asked for an explicit section, sort exact matches first. -/
def compareAsked (asked : Option Bytes) (left right : Bytes) : Ordering :=
  match asked with
  | some asked => firstIf (left = asked) (right = asked)
  | none => .eq

/-- The comparison of sections, for different extensions. -/
def compareSections (ctx : SortContext) (left right : Mandata) : Ordering :=
  (compareAsked ctx.askedSection left.ext right.ext).then <|
    (compare (sectionIndex ctx.sectionList left.ext) (sectionIndex ctx.sectionList right.ext)).then <|
      compare left.sec right.sec

/-- `compare_candidates`, whose result is the sign of the source's. -/
def compareCandidates (ctx : SortContext) (left right : Candidate) : Ordering :=
  (firstIf (left.source.name = some left.reqName) (right.source.name = some right.reqName)).then <|
    (compareIds left.source.id right.source.id true).then <|
      (if left.source.ext ≠ right.source.ext then compareSections ctx left.source right.source else .eq).then <|
        (compare left.source.ext right.source.ext).then <|
          (compareOverrideDir ctx.overrideDir left.path right.path).then <|
            (compareLocales ctx left.path right.path).then <|
              compare left.addIndex right.addIndex

/-- Is this candidate substantially a duplicate of a previous one? -/
def duplicateCandidates (left right : Candidate) : Bool :=
  if left.ult ≠ none ∧ left.ult = right.ult then true
  else if left.source.name ≠ right.source.name ∨ left.source.sec ≠ right.source.sec ∨
      left.source.ext ≠ right.source.ext then false
  else if left.path = right.path then true
  else
    match Separated.cutLast slash left.path, Separated.cutLast slash right.path with
    | (base1, some dir1), (base2, some dir2) =>
      let len := max base1.length base2.length
      let bits1 := unpackLocaleBits dir1
      let bits2 := unpackLocaleBits dir2
      if left.path.take len ≠ right.path.take len then false
      else bits1.language = bits2.language ∧ bits1.territory = bits2.territory ∧ bits1.modifier = bits2.modifier
    | _, _ => false

/-- The arguments of `add_candidate` but for the list. -/
structure Offer where
  fromDb : Bool
  cat : Bool
  reqName : Bytes
  path : Bytes
  ult : Option Bytes
  source : Mandata

/-- What is asked of the system: whether a file can be read, and the `ult_src` of a
file, with the flags that `get_ult_flags` gives for an entry. -/
structure Resolver where
  canAccess : Bytes → Bool
  ultSrc : (filename path : Bytes) → (fromDb : Bool) → (id : UInt8) → Option Bytes

/-- The ultimate source of an offered page; `none` if its file name cannot be made. -/
def Resolver.resolve (resolver : Resolver) (offer : Offer) : Option (Option Bytes) :=
  match offer.ult with
  | some ult => some (some ult)
  | none =>
    let pointer := offer.source.pointer.getD []
    let name := if pointer.head? ≠ some dash then pointer else offer.source.name.getD offer.reqName
    let type := if offer.cat then ascii "cat" else ascii "man"
    (makeFilename resolver.canAccess offer.path name offer.source type).map fun filename =>
      resolver.ultSrc filename offer.path offer.fromDb offer.source.id

/-- The list of candidates, and the counter `add_index`. -/
structure CandidateList where
  candidates : List Candidate
  addIndex : Nat

def Offer.candidate (offer : Offer) (ult : Option Bytes) (addIndex : Nat) : Candidate where
  reqName := offer.reqName
  fromDb := offer.fromDb
  cat := offer.cat
  path := offer.path
  ult := ult
  source := { offer.source with name := some (offer.source.name.getD offer.reqName) }
  addIndex := addIndex

/-- The search for duplicates, behind the part of the list it has passed. -/
def searchDuplicates (ctx : SortContext) (candp : Candidate) :
    (passed : List Candidate) → List Candidate → Bool × List Candidate
  | passed, [] => (true, passed ++ [candp])
  | passed, search :: rest =>
    if duplicateCandidates candp search then
      if (compareCandidates ctx candp search).isGE then (false, passed ++ search :: rest)
      else searchDuplicates ctx candp passed rest
    else searchDuplicates ctx candp (passed ++ [search]) rest

/-- Add an entry to the list of candidates. -/
def addCandidate (ctx : SortContext) (resolver : Resolver) (s : CandidateList) (offer : Offer) :
    Bool × CandidateList :=
  match resolver.resolve offer with
  | none => (false, s)
  | some ult =>
    let (added, candidates) := searchDuplicates ctx (offer.candidate ult s.addIndex) [] s.candidates
    (added, ⟨candidates, s.addIndex + 1⟩)

/-- Sort the entire list of candidates. -/
def sortCandidates (ctx : SortContext)
    (qsort : (Candidate → Candidate → Ordering) → List Candidate → List Candidate) (candidates : List Candidate) :
    List Candidate :=
  if candidates = [] then [] else qsort (compareCandidates ctx) candidates

end ManDb
