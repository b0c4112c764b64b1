import ManDb.Text
import ManDb.Lib.Glob
import ManDb.Lib.SortedList
import ManDb.Lib.Stretch

namespace ManDb

def star : UInt8 := 42
def question : UInt8 := 63
def openBracket : UInt8 := 91
def backslash : UInt8 := 92
def openBrace : UInt8 := 123
def closeBrace : UInt8 := 125

/-- `cache_compare`: `strcasecmp` of two names. -/
def cacheCompare (loc : Locale) (left right : Bytes) : Ordering := compare (loc.lower left) (loc.lower right)

instance (loc : Locale) : Std.TransCmp (cacheCompare loc) :=
  inferInstanceAs (Std.TransCmp (compareOn loc.lower))

/-- `pattern_compare`: `strncasecmp` over the length of the key. -/
def patternCompare (loc : Locale) (key memb : Bytes) : Ordering :=
  compare (loc.lower key) (loc.lower (memb.take key.length))

/-- The directories that can be opened, with the names `readdir` gives. -/
structure Directories where
  readdir : Bytes → Option (List Bytes)
  nodup : ∀ path, ∀ names ∈ readdir path, names.Nodup
  slashless : ∀ path, ∀ names ∈ readdir path, ∀ name ∈ names, slash ∉ name

/-- What is asked of the C library: `qsort` by `cache_compare`, `bsearch` on an array
that is in order for the key, `fnmatch` without and with `FNM_CASEFOLD`, and `regexec`
of an extended expression without and with `REG_ICASE`. -/
structure GlobLibrary (loc : Locale) where
  qsort : List Bytes → List Bytes
  qsort_perm : ∀ names, (qsort names).Perm names
  qsort_sorted : ∀ names, (qsort names).Pairwise fun a b => (cacheCompare loc a b).isLE
  bsearch : (Bytes → Ordering) → List Bytes → Option Nat
  bsearch_hit : ∀ compar names i, Stretch.Partitioned compar names → bsearch compar names = some i →
    ∃ name, names[i]? = some name ∧ compar name = .eq
  bsearch_miss : ∀ compar names, Stretch.Partitioned compar names → bsearch compar names = none →
    ∀ name ∈ names, compar name ≠ .eq
  fnmatch : (casefold : Bool) → (pattern string : Bytes) → Bool
  regexec : (icase : Bool) → (pattern string : Bytes) → Bool

/-- `LFF_MATCHCASE`, `LFF_REGEX` and `LFF_WILDCARD`. -/
structure LookOptions where
  matchCase : Bool
  regex : Bool
  wildcard : Bool

/-- The flags of `parse_layout`. -/
structure Layout where
  gnu : Bool
  hpux : Bool
  irix : Bool
  solaris : Bool
  bsd : Bool

/-- The bytes that `escape_shell` copies as they are. -/
def shellPlain (b : UInt8) : Bool :=
  (48 ≤ b && b ≤ 57) || (65 ≤ b && b ≤ 90) || (97 ≤ b && b ≤ 122) || (ascii ",-./:@_").contains b

/-- Escape dangerous metacharacters. -/
def escapeShell (unesc : Bytes) : Bytes := unesc.flatMap fun b => if shellPlain b then [b] else [backslash, b]

/-- `make_pattern`, with the extension the user gave. -/
def makePattern (extension : Option Bytes) (name sec : Bytes) (opts : LookOptions) : Bytes :=
  match opts.regex, extension with
  | true, some extension => name ++ ascii "\\..*" ++ escapeShell extension ++ ascii ".*"
  | true, none => name ++ ascii "\\." ++ escapeShell sec ++ ascii ".*"
  | false, some extension => name ++ ascii ".*" ++ extension ++ ascii "*"
  | false, none => name ++ ascii "." ++ sec ++ ascii "*"

/-- The beginning of a pattern that is taken literally: up to `strcspn`. -/
def patternStart (pattern : Bytes) : Bytes :=
  pattern.takeWhile fun b => !(b == question || b == star || b == openBrace || b == closeBrace || b == backslash)

namespace GlobLibrary

variable {loc : Locale} (lib : GlobLibrary loc)

def matchRegexInDirectory (path pattern : Bytes) (opts : LookOptions) (matched cache : List Bytes) : List Bytes :=
  matched ++ (cache.filter (lib.regexec (!opts.matchCase) pattern)).map (path ++ slash :: ·)

/-- A binary search for the literal beginning, back to the first name that has it, and
`fnmatch` on the names from there that do. -/
def matchWildcardInDirectory (path pattern : Bytes) (opts : LookOptions) (matched cache : List Bytes) : List Bytes :=
  match lib.bsearch (patternCompare loc (patternStart pattern)) cache with
  | none => matched
  | some bsearched =>
    matched ++ ((Stretch.stretch (patternCompare loc (patternStart pattern)) cache bsearched).filter
      (lib.fnmatch (!opts.matchCase) pattern)).map (path ++ slash :: ·)

/-- `match_in_directory`; the cache of a directory is its sorted names. -/
def matchInDirectory (files : Directories) (path pattern : Bytes) (opts : LookOptions) (matched : List Bytes) :
    List Bytes :=
  match files.readdir path with
  | none => matched
  | some names =>
    if opts.regex then lib.matchRegexInDirectory path pattern opts matched (lib.qsort names)
    else lib.matchWildcardInDirectory path pattern opts matched (lib.qsort names)

/-- The pattern of the directories of a section: "man\t*" with the tab overwritten. -/
def directoryPattern (cat : Bool) (sec : Bytes) : Bytes :=
  (if cat then ascii "cat" else ascii "man") ++
    match sec with
    | [] => []
    | s :: _ => [s, star]

/-- `look_for_file`: the layouts after the first are tried while nothing was found. -/
def lookForFile (files : Directories) (layout : Layout) (extension : Option Bytes) (hier sec unescName : Bytes)
    (cat : Bool) (opts : LookOptions) : List Bytes :=
  let name := if opts.regex || opts.wildcard then unescName else escapeShell unescName
  let pattern := makePattern extension name sec opts
  let directory := hier ++ (if cat then ascii "/cat" else ascii "/man") ++ sec
  let matched :=
    if layout.gnu then
      (lib.matchInDirectory files hier (directoryPattern cat sec) ⟨true, false, false⟩ []).foldl
        (fun matched dir => lib.matchInDirectory files dir pattern opts matched) []
    else []
  let matched :=
    if layout.hpux && matched.isEmpty then
      lib.matchInDirectory files (directory ++ ascii ".Z") pattern opts matched
    else matched
  let matched :=
    if layout.irix && matched.isEmpty then
      lib.matchInDirectory files directory (name ++ if opts.regex then ascii "\\..*" else ascii ".*") opts matched
    else matched
  let matched :=
    if layout.solaris && matched.isEmpty then lib.matchInDirectory files directory pattern opts matched else matched
  if layout.bsd && matched.isEmpty then
    let pattern := if cat then name ++ if opts.regex then ascii "\\.0.*" else ascii ".0*" else pattern
    lib.matchInDirectory files directory pattern opts matched
  else matched

end GlobLibrary

variable {loc : Locale}

theorem patternCompare_eq_iff {key name : Bytes} :
    patternCompare loc key name = .eq ↔ loc.lower key <+: loc.lower name := by
  rw [patternCompare, Locale.lower, Locale.lower, List.map_take, ← Stretch.compare_take_iff, List.length_map,
    Locale.lower]

/-- A cached directory is in order for every search by a beginning. -/
theorem patternCompare_partitioned {names : List Bytes}
    (sorted : names.Pairwise fun a b => (cacheCompare loc a b).isLE) (key : Bytes) :
    Stretch.Partitioned (patternCompare loc key) names := by
  have stretch := Stretch.partitioned_prefix sorted (loc.lower key)
  have same : patternCompare loc key =
      fun name => compare (loc.lower key) ((loc.lower name).take (loc.lower key).length) := by
    funext name
    rw [patternCompare, Locale.lower_length]
    simp only [Locale.lower, List.map_take]
  rw [same]
  exact stretch

namespace GlobLibrary

variable (lib : GlobLibrary loc)

/-- Does a name begin as the pattern does, ignoring case? -/
def starts (loc : Locale) (pattern name : Bytes) : Bool := patternCompare loc (patternStart pattern) name == .eq

theorem starts_iff {pattern name : Bytes} :
    starts loc pattern name = true ↔ loc.lower (patternStart pattern) <+: loc.lower name := by
  rw [starts, beq_iff_eq, patternCompare_eq_iff]

/-- The search finds the names that match and begin as the pattern does. -/
theorem matchWildcardInDirectory_eq (path pattern : Bytes) (opts : LookOptions) (matched names : List Bytes) :
    lib.matchWildcardInDirectory path pattern opts matched (lib.qsort names) =
      matched ++ ((lib.qsort names).filter fun name =>
        starts loc pattern name && lib.fnmatch (!opts.matchCase) pattern name).map (path ++ slash :: ·) := by
  have order := patternCompare_partitioned (lib.qsort_sorted names) (patternStart pattern)
  unfold matchWildcardInDirectory
  cases search : lib.bsearch (patternCompare loc (patternStart pattern)) (lib.qsort names) with
  | none =>
    have missed : (lib.qsort names).filter (fun name =>
        starts loc pattern name && lib.fnmatch (!opts.matchCase) pattern name) = [] := by
      rw [List.filter_eq_nil_iff]
      intro name member
      simp [starts, lib.bsearch_miss _ _ order search name member]
    rw [missed, List.map_nil, List.append_nil]
  | some i =>
    obtain ⟨name, atHit, hit⟩ := lib.bsearch_hit _ _ _ order search
    dsimp only
    rw [Stretch.stretch_eq_filter order atHit hit, List.filter_filter]
    simp only [starts, Bool.and_comm]

/-- If all names that match begin as the pattern does, none of them is missed. -/
theorem matchWildcardInDirectory_filter (path : Bytes) {pattern : Bytes} {opts : LookOptions} (matched : List Bytes)
    {names : List Bytes} (begins : ∀ name ∈ names, lib.fnmatch (!opts.matchCase) pattern name = true →
      loc.lower (patternStart pattern) <+: loc.lower name) :
    lib.matchWildcardInDirectory path pattern opts matched (lib.qsort names) =
      matched ++ ((lib.qsort names).filter (lib.fnmatch (!opts.matchCase) pattern)).map (path ++ slash :: ·) := by
  rw [matchWildcardInDirectory_eq]
  congr 2
  refine List.filter_congr fun name member => ?_
  by_cases matches_ : lib.fnmatch (!opts.matchCase) pattern name = true
  · rw [matches_, Bool.and_true]
    exact starts_iff.mpr (begins name ((lib.qsort_perm names).mem_iff.mp member) matches_)
  · rw [Bool.not_eq_true] at matches_
    rw [matches_, Bool.and_false]

/-- The names added are those that match, each once and in the order of the cache, if and
only if every name that matches begins, ignoring case, as the pattern does up to its
first special byte. -/
theorem matchWildcardInDirectory_filter_iff (path pattern : Bytes) (opts : LookOptions) (matched names : List Bytes) :
    lib.matchWildcardInDirectory path pattern opts matched (lib.qsort names) =
        matched ++ ((lib.qsort names).filter (lib.fnmatch (!opts.matchCase) pattern)).map (path ++ slash :: ·) ↔
      ∀ name ∈ names, lib.fnmatch (!opts.matchCase) pattern name = true →
        loc.lower (patternStart pattern) <+: loc.lower name := by
  have injective : Function.Injective fun name : Bytes => path ++ slash :: name := by
    intro a b same
    simpa using same
  refine ⟨fun same name member matches_ => ?_, lib.matchWildcardInDirectory_filter path matched⟩
  rw [matchWildcardInDirectory_eq, List.append_cancel_left_eq, (List.map_injective_iff.mpr injective).eq_iff] at same
  have kept : name ∈ (lib.qsort names).filter (lib.fnmatch (!opts.matchCase) pattern) :=
    List.mem_filter.mpr ⟨(lib.qsort_perm names).mem_iff.mpr member, matches_⟩
  rw [← same, List.mem_filter, Bool.and_eq_true] at kept
  exact starts_iff.mp kept.2.1

/-- A library that searches from the first name on. -/
def simple (loc : Locale) (fnmatch regexec : Bool → Bytes → Bytes → Bool) : GlobLibrary loc where
  qsort := SortedList.addAll (cacheCompare loc)
  qsort_perm := SortedList.addAll_perm _
  qsort_sorted := SortedList.addAll_sorted
  bsearch compar names := names.findIdx? fun name => compar name == .eq
  bsearch_hit compar names i _ found := by
    obtain ⟨inside, hit, _⟩ := List.findIdx?_eq_some_iff_getElem.mp found
    exact ⟨names[i], List.getElem?_eq_getElem inside, eq_of_beq hit⟩
  bsearch_miss compar names _ missed name member := by
    simpa using List.findIdx?_eq_none_iff.mp missed name member
  fnmatch := fnmatch
  regexec := regexec

/-- The pattern "[ab]c" finds nothing, for names are searched that begin with "[ab]c". -/
theorem matchWildcardInDirectory_bracket :
    ¬∀ (loc : Locale) (lib : GlobLibrary loc) (path pattern : Bytes) (opts : LookOptions)
        (matched names : List Bytes),
      lib.matchWildcardInDirectory path pattern opts matched (lib.qsort names) =
        matched ++ ((lib.qsort names).filter (lib.fnmatch (!opts.matchCase) pattern)).map (path ++ slash :: ·) := by
  intro filters
  have same := filters .posix (.simple .posix (fun _ pattern string => pattern == ascii "[ab]c" &&
    (string == ascii "ac" || string == ascii "bc")) fun _ _ _ => false) (ascii "man1") (ascii "[ab]c")
    ⟨true, false, true⟩ [] [ascii "ac"]
  revert same
  decide +kernel

end GlobLibrary

/-- What `FNM_CASEFOLD` does to a byte. -/
def foldCase (loc : Locale) (casefold : Bool) (b : UInt8) : UInt8 := if casefold then loc.tolower b else b

/-- The parts of a pattern without bracket expressions: a backslash makes the byte after
it ordinary, a question mark stands for one byte and a star for any text. -/
def plainParts (fold : UInt8 → UInt8) : Bytes → Option (List (Glob.Part UInt8))
  | [] => some []
  | b :: rest =>
    if b = backslash then
      match rest with
      | [] => none
      | c :: rest => (plainParts fold rest).map (Glob.literal fold c :: ·)
    else if b = openBracket then none
    else if b = star then (plainParts fold rest).map (.many :: ·)
    else if b = question then (plainParts fold rest).map (.one (fun _ => true) :: ·)
    else (plainParts fold rest).map (Glob.literal fold b :: ·)

/-- `fnmatch` as it is documented, for patterns without bracket expressions. -/
def PosixFnmatch (loc : Locale) (fnmatch : Bool → Bytes → Bytes → Bool) : Prop :=
  ∀ casefold pattern parts string, plainParts (foldCase loc casefold) pattern = some parts →
    fnmatch casefold pattern string = Glob.covers parts string

/-- Not a special byte of patterns; letters and digits are ordinary in every locale. -/
def ordinary (b : UInt8) : Bool := !([question, star, openBracket, backslash, openBrace, closeBrace].contains b)

theorem ordinary_of_shellPlain {b : UInt8} (plain : shellPlain b = true) : ordinary b = true := by
  by_contra special
  simp only [ordinary, Bool.not_eq_true, Bool.not_eq_false', List.contains_iff_mem, List.mem_cons,
    List.not_mem_nil, or_false] at special
  rcases special with rfl | rfl | rfl | rfl | rfl | rfl <;> exact absurd plain (by decide)

/-- A pattern that spells a text: its bytes in order, the special ones behind a backslash. -/
inductive Quotes : Bytes → Bytes → Prop
  | nil : Quotes [] []
  | plain {b : UInt8} {pattern text : Bytes} (ordinary : ordinary b = true) (rest : Quotes pattern text) :
      Quotes (b :: pattern) (b :: text)
  | escaped (b : UInt8) {pattern text : Bytes} (rest : Quotes pattern text) :
      Quotes (backslash :: b :: pattern) (b :: text)

namespace Quotes

theorem append {first second text after : Bytes} (quotes : Quotes first text) (more : Quotes second after) :
    Quotes (first ++ second) (text ++ after) := by
  induction quotes with
  | nil => exact more
  | plain ordinary _ ih => exact .plain ordinary ih
  | escaped b _ ih => exact .escaped b ih

theorem ordinary {text : Bytes} (plain : ∀ b ∈ text, ordinary b = true) : Quotes text text := by
  induction text with
  | nil => exact .nil
  | cons b text ih =>
    exact .plain (plain b List.mem_cons_self) (ih fun c member => plain c (List.mem_cons_of_mem b member))

theorem escapeShell (text : Bytes) : Quotes (escapeShell text) text := by
  induction text with
  | nil => exact .nil
  | cons b text ih =>
    rw [ManDb.escapeShell, List.flatMap_cons]
    split
    · rename_i plain
      exact .plain (ordinary_of_shellPlain plain) ih
    · exact .escaped b ih

/-- With a star behind it, the pattern asks for the bytes of the text and then for nothing. -/
theorem plainParts {pattern text : Bytes} (quotes : Quotes pattern text) (fold : UInt8 → UInt8) :
    plainParts fold (pattern ++ [star]) = some (text.map (Glob.literal fold) ++ [.many]) := by
  induction quotes with
  | nil => rfl
  | plain ordinary _ ih =>
    simp only [ManDb.ordinary, Bool.not_eq_true', List.contains_eq_mem, decide_eq_false_iff_not, List.mem_cons,
      List.not_mem_nil, or_false, not_or] at ordinary
    obtain ⟨noQuestion, noStar, noBracket, noBackslash, _⟩ := ordinary
    rw [List.cons_append, plainParts.eq_def]
    simp [noBackslash, noBracket, noStar, noQuestion, ih]
  | escaped b _ ih =>
    rw [List.cons_append, List.cons_append, plainParts.eq_def]
    simp [ih]

/-- The beginning that is searched for ends before the first escape. -/
theorem patternStart {pattern text : Bytes} (quotes : Quotes pattern text) :
    patternStart (pattern ++ [star]) <+: text := by
  induction quotes with
  | nil => exact List.prefix_rfl
  | plain ordinary _ ih =>
    rw [List.cons_append, ManDb.patternStart, List.takeWhile_cons]
    split
    · exact (List.prefix_cons_inj _).mpr ih
    · exact List.nil_prefix
  | escaped b _ _ => exact List.nil_prefix

end Quotes

/-- Does a file name start with a text, exactly or ignoring case? -/
def StartsWith (loc : Locale) (matchCase : Bool) (text file : Bytes) : Prop :=
  if matchCase then text <+: file else loc.lower text <+: loc.lower file

instance (matchCase : Bool) (text : Bytes) : DecidablePred (StartsWith loc matchCase text) :=
  fun file => inferInstanceAs (Decidable (if matchCase then text <+: file else loc.lower text <+: loc.lower file))

theorem startsWith_iff_fold {matchCase : Bool} {text file : Bytes} :
    StartsWith loc matchCase text file ↔
      text.map (foldCase loc !matchCase) <+: file.map (foldCase loc !matchCase) := by
  cases matchCase with
  | true =>
    have same : foldCase loc (!true) = id := rfl
    rw [same, List.map_id, List.map_id]
    rfl
  | false => rfl

theorem StartsWith.lower {matchCase : Bool} {text file : Bytes} (starts : StartsWith loc matchCase text file) :
    loc.lower text <+: loc.lower file := by
  unfold StartsWith at starts
  split at starts
  · exact starts.map _
  · exact starts

namespace GlobLibrary

variable (lib : GlobLibrary loc) {pattern text : Bytes}

theorem fnmatch_quotes (posix : PosixFnmatch loc lib.fnmatch) (quotes : Quotes pattern text) (matchCase : Bool)
    (file : Bytes) :
    lib.fnmatch (!matchCase) (pattern ++ [star]) file = true ↔ StartsWith loc matchCase text file := by
  rw [posix _ _ _ _ (quotes.plainParts _), Glob.covers_literals_many, startsWith_iff_fold]

/-- The files of a directory that start with a text. -/
def filesStarting (files : Directories) (matchCase : Bool) (text path : Bytes) : List Bytes :=
  match files.readdir path with
  | none => []
  | some names => ((lib.qsort names).filter fun file => StartsWith loc matchCase text file).map (path ++ slash :: ·)

theorem mem_filesStarting {files : Directories} {matchCase : Bool} {path found : Bytes} :
    found ∈ lib.filesStarting files matchCase text path ↔ ∃ names ∈ files.readdir path, ∃ file ∈ names,
      StartsWith loc matchCase text file ∧ path ++ slash :: file = found := by
  unfold filesStarting
  cases files.readdir path with
  | none => simp
  | some names => simp [(lib.qsort_perm names).mem_iff, and_assoc]

theorem filesStarting_nodup (files : Directories) (matchCase : Bool) (path : Bytes) :
    (lib.filesStarting files matchCase text path).Nodup := by
  unfold filesStarting
  cases read : files.readdir path with
  | none => exact List.nodup_nil
  | some names =>
    have once : (lib.qsort names).Nodup := (lib.qsort_perm names).nodup_iff.mpr (files.nodup path names read)
    refine (once.filter _).map fun a b same => ?_
    simpa using same

/-- Looking for a quoted text with a star behind it finds the files that start with it. -/
theorem matchInDirectory_quotes (posix : PosixFnmatch loc lib.fnmatch) (quotes : Quotes pattern text)
    (files : Directories) (path : Bytes) (matchCase wildcard : Bool) (matched : List Bytes) :
    lib.matchInDirectory files path (pattern ++ [star]) ⟨matchCase, false, wildcard⟩ matched =
      matched ++ lib.filesStarting files matchCase text path := by
  unfold matchInDirectory filesStarting
  cases files.readdir path with
  | none => simp
  | some names =>
    have found := lib.fnmatch_quotes posix quotes matchCase
    dsimp only
    rw [if_neg (by decide), matchWildcardInDirectory_filter]
    · congr 2
      refine List.filter_congr fun file _ => ?_
      rw [Bool.eq_iff_iff, found, decide_eq_true_iff]
    · intro name _ matches_
      exact (quotes.patternStart.map _).trans ((found name).mp matches_).lower

/-- The patterns that `look_for_file` makes from a literal name. -/
theorem directoryPattern_eq (cat : Bool) (s : UInt8) (sec : Bytes) :
    directoryPattern cat (s :: sec) = ((if cat then ascii "cat" else ascii "man") ++ [s]) ++ [star] := by
  simp [directoryPattern]

theorem makePattern_literal (name sec : Bytes) (matchCase : Bool) :
    makePattern none (escapeShell name) sec ⟨matchCase, false, false⟩ =
      (escapeShell name ++ period :: sec) ++ [star] := by
  simp [makePattern, ascii, period, star]

/-- With the GNU layout, the files of each directory of the section are listed. -/
theorem lookForFile_eq (posix : PosixFnmatch loc lib.fnmatch) (files : Directories) (hier name : Bytes) {s : UInt8}
    {sec : Bytes} (plain : ∀ b ∈ s :: sec, ordinary b = true) (cat matchCase : Bool) :
    lib.lookForFile files ⟨true, false, false, false, false⟩ none hier (s :: sec) name cat ⟨matchCase, false, false⟩ =
      (lib.filesStarting files true ((if cat then ascii "cat" else ascii "man") ++ [s]) hier).flatMap
        (lib.filesStarting files matchCase (name ++ period :: s :: sec)) := by
  have directory : Quotes ((if cat then ascii "cat" else ascii "man") ++ [s])
      ((if cat then ascii "cat" else ascii "man") ++ [s]) := by
    refine .append (.ordinary ?_) (.ordinary ?_)
    · cases cat <;> decide +kernel
    · simpa using plain s List.mem_cons_self
  have page : Quotes (escapeShell name ++ period :: s :: sec) (name ++ period :: s :: sec) :=
    (Quotes.escapeShell name).append (.plain (by decide) (.ordinary plain))
  simp only [lookForFile, Bool.or_false, Bool.false_eq_true, if_false, if_true, Bool.false_and, directoryPattern_eq,
    makePattern_literal, lib.matchInDirectory_quotes posix directory, lib.matchInDirectory_quotes posix page,
    List.nil_append]
  rw [List.flatMap_eq_foldl]

theorem filesStarting_disjoint {files : Directories} {matchCase : Bool} {first second : Bytes}
    (apart : first ≠ second) :
    List.Disjoint (lib.filesStarting files matchCase text first) (lib.filesStarting files matchCase text second) := by
  intro path inFirst inSecond
  obtain ⟨names, read, file, member, _, rfl⟩ := lib.mem_filesStarting.mp inFirst
  obtain ⟨names', read', file', member', _, same⟩ := lib.mem_filesStarting.mp inSecond
  have cut := Separated.cutLast_append_cons (files.slashless _ names read file member) first
  rw [← same, Separated.cutLast_append_cons (files.slashless _ names' read' file' member')] at cut
  exact apart (Prod.mk.inj cut).1.symm

/-- Under the GNU layout and without an extension, a name is taken literally: the paths
found are those of the files that start with the name, a period and the section, in the
directories of the section, and none is found twice. -/
theorem lookForFile_literal (posix : PosixFnmatch loc lib.fnmatch) (files : Directories) (hier sec name : Bytes)
    (given : sec ≠ []) (plain : ∀ b ∈ sec, ordinary b = true) (cat matchCase : Bool) :
    let found := lib.lookForFile files ⟨true, false, false, false, false⟩ none hier sec name cat
      ⟨matchCase, false, false⟩
    found.Nodup ∧ ∀ path, path ∈ found ↔
      ∃ names ∈ files.readdir hier, ∃ dir ∈ names, (if cat then ascii "cat" else ascii "man") ++ sec.take 1 <+: dir ∧
        ∃ names' ∈ files.readdir (hier ++ slash :: dir), ∃ file ∈ names',
          StartsWith loc matchCase (name ++ period :: sec) file ∧ path = hier ++ slash :: dir ++ slash :: file := by
  obtain ⟨s, sec, rfl⟩ := List.exists_cons_of_ne_nil given
  dsimp only
  rw [lib.lookForFile_eq posix files hier name plain]
  constructor
  · rw [List.nodup_flatMap]
    refine ⟨fun dir _ => lib.filesStarting_nodup files matchCase dir, ?_⟩
    exact (lib.filesStarting_nodup files true hier).imp fun apart => lib.filesStarting_disjoint apart
  · intro path
    simp only [List.mem_flatMap, mem_filesStarting]
    constructor
    · rintro ⟨_, ⟨names, read, dir, listed, starts, rfl⟩, names', read', file, member, begins, rfl⟩
      exact ⟨names, read, dir, listed, starts, names', read', file, member, begins, rfl⟩
    · rintro ⟨names, read, dir, listed, starts, names', read', file, member, begins, rfl⟩
      exact ⟨_, ⟨names, read, dir, listed, starts, rfl⟩, names', read', file, member, begins, rfl⟩

/-- `fnmatch` for patterns without bracket expressions. -/
def plainFnmatch (loc : Locale) (casefold : Bool) (pattern string : Bytes) : Bool :=
  (plainParts (foldCase loc casefold) pattern).any (Glob.covers · string)

theorem plainFnmatch_posix (loc : Locale) : PosixFnmatch loc (plainFnmatch loc) := by
  intro casefold pattern parts string plain
  rw [plainFnmatch, plain, Option.any_some]

/-- A hierarchy with the pages "[(1)" and "ab(1)". -/
def bracketPages : Directories where
  readdir path :=
    if path = ascii "man" then some [ascii "man1"]
    else if path = ascii "man/man1" then some [ascii "ab.1", ascii "[.1"]
    else none
  nodup path names read := by
    split at read
    · rw [← Option.some.inj read]; decide +kernel
    · split at read
      · rw [← Option.some.inj read]; decide +kernel
      · cases read
  slashless path names read := by
    split at read
    · rw [← Option.some.inj read]; decide +kernel
    · split at read
      · rw [← Option.some.inj read]; decide +kernel
      · cases read

theorem lookForFile_literal_bracket :
    ascii "man/man1/[.1" ∈ (simple .posix (plainFnmatch .posix) fun _ _ _ => false).lookForFile bracketPages
      ⟨true, false, false, false, false⟩ none (ascii "man") (ascii "1") (ascii "[") false ⟨true, false, false⟩ :=
  ((lookForFile_literal _ (plainFnmatch_posix .posix) bracketPages (ascii "man") (ascii "1") (ascii "[")
    (by decide) (by decide +kernel) false true).2 _).mpr
      ⟨_, rfl, ascii "man1", by decide +kernel, by decide +kernel, _, rfl, ascii "[.1", by decide +kernel,
        by decide +kernel, by decide +kernel⟩

end GlobLibrary

end ManDb
