import Mathlib.Logic.Function.Basic
import ManDb.Filenames
import ManDb.Include

namespace ManDb

/-- `SO_LINK`, `SOFT_LINK` and `HARD_LINK`. -/
structure UltFlags where
  soLink : Bool
  softLink : Bool
  hardLink : Bool
  deriving DecidableEq

/-- What `ult_src` reads of a `struct stat`. -/
structure LinkStat where
  isLink : Bool
  nlink : Nat
  ino : Nat

/-- What `ult_src` asks of the system: to open a page, whether a file can be accessed or is
there, the canonical name of a file, the entries of a directory with their inodes, and what
`lstat` says of a file. -/
structure LinkHost where
  compExts : List Bytes
  openPage : Bytes → Option Decompress
  canAccess : Bytes → Bool
  stat : Bytes → Bool
  canonicalize : Bytes → Option Bytes
  readdir : Bytes → Option (List (Bytes × Nat))
  lstat : Bytes → Option LinkStat

/-- `comp_file`: the first compressed form of a file that is there. -/
def compFile (compExts : List Bytes) (stat : Bytes → Bool) (filename : Bytes) : Option Bytes :=
  (compExts.map fun ext => filename ++ period :: ext).find? stat

namespace LinkHost

variable (h : LinkHost)

/-- The file that is meant, or a compressed form of it. -/
def fileOrCompressed (target : Bytes) : Option Bytes :=
  if h.canAccess target then some target else compFile h.compExts h.stat target

/-- `find_include`: in the tree, or relative to the current page. -/
def findInclude (name path include_ : Bytes) : Option Bytes :=
  ((h.fileOrCompressed (path ++ slash :: include_)).or
    (h.fileOrCompressed (dirName name ++ slash :: include_))).bind h.canonicalize

/-- `ult_hardlink`: the least name in its directory that the file has, if that is another
one. The path has a slash. -/
def ultHardlink (fullpath : Bytes) (inode : Nat) : Option Bytes :=
  match Separated.cutLast slash fullpath with
  | (_, none) => none
  | (dir, some name) =>
    (h.readdir dir).bind fun entries =>
      let base := entries.foldl (fun base entry =>
        if entry.2 = inode ∧ compare base entry.1 = .gt then entry.1 else base) name
      if base = name then none else some (dir ++ slash :: base)

/-- The links that are sorted out once. -/
def resolveLinks (name : Bytes) (buf : Option LinkStat) (flags : UltFlags) : Option Bytes :=
  match buf with
  | none => if flags.softLink || flags.hardLink then none else some name
  | some buf =>
    (if flags.softLink && buf.isLink then h.canonicalize name else some name).map fun base =>
      if flags.hardLink && 1 < buf.nlink then (h.ultHardlink base buf.ino).getD base else base

/-- What `ult_src` does for a file that is not in its cache. -/
def ultSrcMiss (name path : Bytes) (buf : Option LinkStat) (flags : UltFlags) : Option UltValue :=
  (h.resolveLinks name (buf.or (h.lstat name)) flags).bind fun base =>
    if flags.soLink then followSoLinks h.openPage (h.findInclude name path) 10 base [name]
    else some ⟨base, [name, base]⟩

end LinkHost

/-- `ult_cache`. Failures are kept in it too. -/
abbrev UltCache := Bytes × UltFlags → Option (Option UltValue)

/-- `ult_src`, with its cache. -/
def ultSrcCached (h : LinkHost) (cache : UltCache) (name path : Bytes) (buf : Option LinkStat) (flags : UltFlags) :
    Option UltValue × UltCache :=
  match cache (name, flags) with
  | some existing => (existing, cache)
  | none =>
    let value := h.ultSrcMiss name path buf flags
    (value, Function.update cache (name, flags) (some value))

/-- Every trace starts with the file that was asked for. -/
def CacheTraced (cache : UltCache) : Prop :=
  ∀ name flags value, cache (name, flags) = some (some value) → ∃ rest, value.trace = name :: rest

variable {h : LinkHost} {cache cache' : UltCache} {name path : Bytes} {buf : Option LinkStat} {flags : UltFlags}
  {value : UltValue} {result : Option UltValue}

theorem followSoLinks_trace {openPage : Bytes → Option Decompress} {findInclude : Bytes → Option Bytes} {turns : Nat}
    {base : Bytes} {trace : List Bytes} (follows : followSoLinks openPage findInclude turns base trace = some value) :
    ∃ rest, value.trace = trace ++ rest := by
  induction turns generalizing base trace with
  | zero => cases follows
  | succ turns ih =>
    rw [followSoLinks] at follows
    cases opens : openPage base with
    | none => simp [opens] at follows
    | some d =>
      simp only [opens] at follows
      cases directive : testForInclude (findIncludeDirective d) with
      | none =>
        simp only [directive, Option.some.injEq] at follows
        exact ⟨[base], by rw [← follows]⟩
      | some include_ =>
        simp only [directive] at follows
        cases next : findInclude include_ with
        | none => simp [next] at follows
        | some next' =>
          simp only [next] at follows
          obtain ⟨rest, longer⟩ := ih follows
          exact ⟨next' :: rest, by rw [longer, List.append_assoc, List.singleton_append]⟩

theorem LinkHost.ultSrcMiss_trace (found : h.ultSrcMiss name path buf flags = some value) :
    ∃ rest, value.trace = name :: rest := by
  obtain ⟨base, _, found⟩ := Option.bind_eq_some_iff.mp found
  split at found
  · exact followSoLinks_trace found
  · exact ⟨[base], by rw [← Option.some.inj found]⟩

/-- What comes of the cache and what is put into it starts with the file. -/
theorem ultSrcCached_trace (traced : CacheTraced cache)
    (found : ultSrcCached h cache name path buf flags = (result, cache')) :
    (∀ value, result = some value → ∃ rest, value.trace = name :: rest) ∧ CacheTraced cache' := by
  unfold ultSrcCached at found
  cases cached : cache (name, flags) with
  | some existing =>
    simp only [cached, Prod.mk.injEq] at found
    obtain ⟨rfl, rfl⟩ := found
    exact ⟨fun value same => traced name flags value (same ▸ cached), traced⟩
  | none =>
    simp only [cached, Prod.mk.injEq] at found
    obtain ⟨rfl, rfl⟩ := found
    refine ⟨fun value => LinkHost.ultSrcMiss_trace, fun other flags' value kept => ?_⟩
    by_cases same : (other, flags') = (name, flags)
    · obtain ⟨rfl, rfl⟩ := Prod.mk.inj same
      rw [Function.update_self, Option.some.injEq] at kept
      exact LinkHost.ultSrcMiss_trace kept
    · rw [Function.update_of_ne same] at kept
      exact traced other flags' value kept

end ManDb
