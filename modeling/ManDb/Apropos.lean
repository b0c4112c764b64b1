import Mathlib.Data.List.Infix
import ManDb.DbLookup

namespace ManDb

/-- The options of whatis and apropos that decide what is searched for. -/
structure AproposOptions where
  amApropos : Bool
  regexOpt : Bool
  wildcard : Bool
  exact : Bool
  requireAll : Bool
  sections : Option (List Bytes)

/-- What is asked of the C library: `regexec` with the keyword compiled with
`REG_EXTENDED | REG_NOSUB | REG_ICASE`, `fnmatch` without and with `FNM_CASEFOLD`,
and `isalpha`. -/
structure TextTests where
  regexec : (keyword text : Bytes) → Bool
  fnmatch : (casefold : Bool) → (pattern string : Bytes) → Bool
  isalpha : UInt8 → Bool

/-- Regular expressions and patterns without special characters. -/
def literalTests : TextTests where
  regexec keyword text := decide (Locale.posix.lower keyword <:+: Locale.posix.lower text)
  fnmatch casefold pattern string :=
    if casefold then Locale.posix.caseEq pattern string else pattern == string
  isalpha b := (65 ≤ b && b ≤ 90) || (97 ≤ b && b ≤ 122)

def TextTests.wordByte (tests : TextTests) (b : UInt8) : Bool := tests.isalpha b || b == underscore

/-- The loop of `match`: is there, from here on, an occurrence of the word with no
word byte on either side? -/
def matchFrom (loc : Locale) (tests : TextTests) (page : Bytes) : (left : Option UInt8) → Bytes → Bool
  | left, [] => page.isEmpty && !left.any tests.wordByte
  | left, b :: rest =>
    (page.length ≤ (b :: rest).length && loc.caseEq ((b :: rest).take page.length) page &&
      !left.any tests.wordByte && !(((b :: rest).drop page.length).head?).any tests.wordByte) ||
    matchFrom loc tests page (some b) rest

/-- `match`: return true on word match. -/
def wordMatch (loc : Locale) (tests : TextTests) (page whatis : Bytes) : Bool := matchFrom loc tests page none whatis

/-- The loop of `word_fnmatch`, at position `p` of the string. A word ends at a byte
that is none of a word's; the last word counts only if such a byte follows it. -/
def wordFnmatchFrom (tests : TextTests) (pattern string : Bytes) : Bytes → (p start : Nat) → Bool
  | [], _, _ => false
  | b :: rest, p, start =>
    if tests.wordByte b then wordFnmatchFrom tests pattern string rest (p + 1) start
    else if p ≤ start + 1 then wordFnmatchFrom tests pattern string rest (p + 1) (start + 1)
    else if tests.fnmatch true pattern ((string.drop start).take (p - start)) then true
    else wordFnmatchFrom tests pattern string rest (p + 1) (p + 1)

def wordFnmatch (tests : TextTests) (pattern string : Bytes) : Bool :=
  wordFnmatchFrom tests pattern string string 0 0

/-- The test of `parse_name` for one keyword. -/
def nameHit (loc : Locale) (tests : TextTests) (opts : AproposOptions) (page dbname : Bytes) : Bool :=
  if opts.regexOpt then tests.regexec page dbname
  else if opts.amApropos && !opts.wildcard then loc.caseEq dbname page
  else tests.fnmatch true page dbname

/-- The test of `parse_whatis` for one keyword. -/
def whatisHit (loc : Locale) (tests : TextTests) (opts : AproposOptions) (page whatis : Bytes) : Bool :=
  if opts.regexOpt then tests.regexec page whatis
  else if opts.wildcard then
    if opts.exact then tests.fnmatch false page whatis else wordFnmatch tests page whatis
  else wordMatch loc tests page whatis

/-- One flag for each keyword. -/
abbrev Flags (pages : List Bytes) := Fin pages.length → Bool

def anySet {pages : List Bytes} (flags : Flags pages) : Bool := (List.finRange pages.length).any flags

def allSet {pages : List Bytes} (flags : Flags pages) : Bool := (List.finRange pages.length).all flags

/-- A vector gains the keywords that hit. -/
def setHits {pages : List Bytes} (hit : Bytes → Bool) (flags : Flags pages) : Flags pages :=
  fun i => flags i || hit (pages.get i)

/-- `parse_name`, which does the same to both of its vectors. -/
def parseName (loc : Locale) (tests : TextTests) (opts : AproposOptions) {pages : List Bytes} (dbname : Bytes) :
    Flags pages → Flags pages :=
  setHits (fun keyword => nameHit loc tests opts keyword dbname)

/-- `parse_whatis` likewise, if there is a description to be parsed. -/
def parseWhatis (loc : Locale) (tests : TextTests) (opts : AproposOptions) {pages : List Bytes} :
    Option Bytes → Flags pages → Flags pages
  | none, flags => flags
  | some whatis, flags => setHits (fun keyword => whatisHit loc tests opts keyword whatis) flags

/-- `combine`. -/
def combine (opts : AproposOptions) {pages : List Bytes} (flags : Flags pages) : Bool :=
  if opts.requireAll then allSet flags else anySet flags

/-- `found`, the labels in `display_seen` in the order they were printed, and the
arguments of the calls of `display`. -/
structure AproposState (pages : List Bytes) where
  found : Flags pages
  displaySeen : List Bytes
  displayed : List (Bytes × Mandata)

/-- The test with which `resolve_pointers` ends: no pointer, or one to itself. -/
def resolved (info : Mandata) (page : Bytes) : Bool :=
  (info.pointer.getD []).head? == some dash ||
    ((info.name.isNone || info.name == some page) && info.pointer == some page)

/-- The loop of `resolve_pointers`. The page it compares with stays that of the first
pointer. -/
def resolveRounds (loc : Locale) (db : Store) (newpage : Bytes) : Nat → Option Mandata → Except Fatal (Option Mandata)
  | 0, _ => .ok none
  | _ + 1, none => .ok none
  | n + 1, some info =>
    if resolved info newpage then .ok (some info)
    else do
      let newinfo ← dblookupExact loc db (info.pointer.getD []) (some info.ext) true
      resolveRounds loc db newpage n newinfo

def resolvePointers (loc : Locale) (db : Store) (info : Mandata) (page : Bytes) : Except Fatal (Option Mandata) :=
  if resolved info page then .ok (some info)
  else do
    let newpage := info.pointer.getD []
    let newinfo ← dblookupExact loc db newpage (some info.ext) true
    resolveRounds loc db newpage 10 newinfo

/-- The label "name (ext)" under which a page is displayed. -/
def displayLabel (info : Mandata) (page : Bytes) : Bytes :=
  info.name.getD page ++ ascii " (" ++ info.ext ++ ascii ")"

/-- Print out a match, unless its label was printed before. -/
def display (loc : Locale) (db : Store) {pages : List Bytes} (info : Mandata) (page : Bytes)
    (s : AproposState pages) :
    Except Fatal (AproposState pages) := do
  let newinfo ← resolvePointers loc db info page
  let key := displayLabel (newinfo.getD info) page
  let seen := if key ∈ s.displaySeen then s.displaySeen else s.displaySeen ++ [key]
  return { s with displaySeen := seen, displayed := s.displayed ++ [(page, info)] }

/-- Does the section or extension of a page match one of those given? -/
def inSections (opts : AproposOptions) (info : Mandata) : Bool :=
  match opts.sections with
  | none => true
  | some sections => sections.any (fun s => s == info.sec || s == info.ext)

/-- One turn of the loop of `do_apropos`. -/
def doAproposTurn (loc : Locale) (tests : TextTests) (opts : AproposOptions) (db : Store) (pages : List Bytes)
    (s : AproposState pages) (key : Bytes) : Except Fatal (AproposState pages) :=
  match db.fetch key with
  | none => .error (.corrupted key)
  | some cont =>
    if key.head? = some dollar then .ok s
    else if isIndex cont then .ok s
    else do
      let info ← splitContent cont
      if !inSections opts info then return s
      let page := upToLastTab key
      let foundHere : Flags pages := parseName loc tests opts page (fun _ => false)
      let whatis := if opts.amApropos && !combine opts foundHere then info.whatis else none
      let s := { s with found := parseWhatis loc tests opts whatis (parseName loc tests opts page s.found) }
      if combine opts (parseWhatis loc tests opts whatis foundHere) then display loc db info page s else return s

/-- Scan for the page, print any matches. -/
def doApropos (loc : Locale) (tests : TextTests) (opts : AproposOptions) (pages : List Bytes)
    (s : AproposState pages) (db : Store) : Except Fatal (AproposState pages) :=
  db.keys.foldlM (doAproposTurn loc tests opts db pages) s

/-- What `search` leaves behind: its result, the keywords it reports as "nothing
appropriate", the labels printed, and the calls of `display` for each database. -/
structure SearchResult (pages : List Bytes) where
  anyFound : Bool
  reported : List (Fin pages.length)
  printed : List Bytes
  displayed : List (List (Bytes × Mandata))

/-- The databases of the man path, one after the other. -/
def searchAll (loc : Locale) (tests : TextTests) (opts : AproposOptions) (pages : List Bytes) :
    List Store → Flags pages → List Bytes → Except Fatal (Flags pages × List Bytes × List (List (Bytes × Mandata)))
  | [], found, seen => .ok (found, seen, [])
  | db :: dbs, found, seen => do
    let s ← doApropos loc tests opts pages ⟨found, seen, []⟩ db
    let (found, seen, displayed) ← searchAll loc tests opts pages dbs s.found s.displaySeen
    return (found, seen, s.displayed :: displayed)

/-- Loop through the man paths, searching for a match, where every database is open
and `do_apropos` is used for it. -/
def search (loc : Locale) (tests : TextTests) (opts : AproposOptions) (pages : List Bytes) (dbs : List Store) :
    Except Fatal (SearchResult pages) := do
  let (found, seen, displayed) ← searchAll loc tests opts pages dbs (fun _ => false) []
  return ⟨anySet found, (List.finRange pages.length).filter (fun i => !found i), seen, displayed⟩

end ManDb
