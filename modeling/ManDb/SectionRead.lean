import ManDb.Straycats
import ManDb.UltSource

namespace ManDb

/-- `dir_name`, of any file name. -/
def dirNameOf (file : Bytes) : Bytes :=
  let stripped := file.rdropWhile (· == slash)
  if stripped = [] then if file = [] then [period] else [slash] else dirName stripped

/-- What is at an offset of a string. The terminator is the last byte that may be read. -/
def tailAt (s : Bytes) (offset : Nat) : Option Bytes := if offset ≤ s.length then some (s.drop offset) else none

/-- `strrchr (dirname, '/') + 4`. -/
def sectionAt (dirname : Bytes) : Option Bytes :=
  match Separated.cutLast slash dirname with
  | (_, none) => none
  | (before, some _) => tailAt dirname (before.length + 4)

/-- The base name without the compression extension, cut at its last period. -/
def nameAndExt (compExts : List Bytes) (file : Bytes) : Bytes × Option Bytes :=
  Separated.cutLast period ((compInfo compExts (baseNameOf file)).elim (baseNameOf file) Prod.fst)

/-- `filename_info`. A read behind the terminator of the directory name gives `none`. -/
def readFilenameInfo (compExts : List Bytes) (file : Bytes) : Option (Option Mandata) :=
  match nameAndExt compExts file with
  | (_, none) => some none
  | (name, some ext) =>
    if ext = [] then some none
    else
      (sectionAt (dirNameOf file)).map fun sec =>
        if sec ≠ [] ∧ sec.head? ≠ ext.head? then none
        else some
          { name := some name, ext := ext, sec := sec, id := 0, pointer := none
            comp := (compInfo compExts (baseNameOf file)).map Prod.snd
            filter := none, whatis := none, mtime := ⟨0, 0⟩ }

/-- The loop of `store_descriptions` that fills `trace_infos`. -/
def readTraceInfos (compExts : List Bytes) (trace : List Bytes) : Option (List (Option Mandata)) :=
  trace.mapM (readFilenameInfo compExts)

def Absolute (file : Bytes) : Prop := file.head? = some slash

/-- A file without a section extension, or in a directory whose name has three bytes at least. -/
def SectionInside (compExts : List Bytes) (file : Bytes) : Prop :=
  (nameAndExt compExts file).2.getD [] = [] ∨ 3 ≤ (baseName (dirNameOf file)).length

/-- The canonical names of the system are absolute. -/
def LinkHost.Canonical (h : LinkHost) : Prop := ∀ file target, h.canonicalize file = some target → Absolute target

/-- The caches that calls of `ult_src` with absolute names leave, whatever has become of the files
in between. -/
inductive ReachedCache : UltCache → Prop
  | empty : ReachedCache fun _ => none
  | call {cache : UltCache} {h : LinkHost} {name : Bytes} (reached : ReachedCache cache) (canonical : h.Canonical)
      (absolute : Absolute name) (path : Bytes) (buf : Option LinkStat) (flags : UltFlags) :
      ReachedCache (ultSrcCached h cache name path buf flags).2

variable {h : LinkHost} {cache : UltCache} {name path file : Bytes} {buf : Option LinkStat} {flags : UltFlags}
  {value : UltValue} {compExts : List Bytes}

theorem sectionAt_eq {dirname before after : Bytes} (last : Separated.cutLast slash dirname = (before, some after)) :
    sectionAt dirname = tailAt after 3 := by
  have whole := Separated.cutLast_join last
  have length : dirname.length = before.length + (after.length + 1) := by rw [whole, List.length_append, List.length_cons]
  have tail : dirname.drop (before.length + 4) = after.drop 3 := by
    rw [whole, ← List.drop_drop, List.drop_left, List.drop_succ_cons]
  simp only [sectionAt, last, tailAt, tail, length]
  exact if_congr (by omega) rfl rfl

theorem Absolute.ne_nil (absolute : Absolute file) : file ≠ [] := by
  rintro rfl
  cases absolute

theorem cutLast_absolute (absolute : Absolute file) :
    ∃ before after, Separated.cutLast slash file = (before, some after) := by
  cases last : Separated.cutLast slash file with
  | mk before rest =>
    cases rest with
    | some after => exact ⟨before, after, rfl⟩
    | none =>
      have clean := Separated.cutLast_none_iff.mp (congrArg Prod.snd last)
      exact absurd (List.mem_of_mem_head? absolute) clean

theorem Absolute.of_prefix {part : Bytes} (absolute : Absolute file) (starts : part <+: file) (nonempty : part ≠ []) :
    Absolute part := by
  obtain ⟨first, rest, rfl⟩ := List.exists_cons_of_ne_nil nonempty
  obtain ⟨tail, rfl⟩ := starts
  exact absolute

theorem Absolute.dirName (absolute : Absolute file) : Absolute (dirName file) := by
  obtain ⟨before, after, last⟩ := cutLast_absolute absolute
  have directory : ManDb.dirName file =
      if before.rdropWhile (· == slash) = [] then [slash] else before.rdropWhile (· == slash) := by
    rw [ManDb.dirName, last]
    rfl
  rw [directory]
  split
  · rfl
  · rename_i nonempty
    have start : before <+: file := ⟨slash :: after, (Separated.cutLast_join last).symm⟩
    exact absolute.of_prefix ((List.rdropWhile_prefix _ _).trans start) nonempty

theorem Absolute.dirNameOf (absolute : Absolute file) : Absolute (dirNameOf file) := by
  unfold ManDb.dirNameOf
  dsimp only
  split
  · rw [if_neg absolute.ne_nil]
    rfl
  · rename_i nonempty
    exact (absolute.of_prefix (List.rdropWhile_prefix _ _) nonempty).dirName

/-- The section of a file is read inside the name of its directory exactly if that is long enough. -/
theorem readFilenameInfo_isSome_iff (absolute : Absolute file) :
    (readFilenameInfo compExts file).isSome ↔ SectionInside compExts file := by
  obtain ⟨before, after, last⟩ := cutLast_absolute absolute.dirNameOf
  have base : baseName (ManDb.dirNameOf file) = after := by
    rw [baseName, last]
    rfl
  unfold readFilenameInfo SectionInside
  rw [base, sectionAt_eq last]
  cases parts : nameAndExt compExts file with
  | mk name ext =>
    cases ext with
    | none => simp
    | some ext =>
      by_cases empty : ext = []
      · simp [empty]
      · by_cases room : 3 ≤ after.length
        · simp [empty, room, tailAt]
        · simp [empty, room, tailAt]

theorem stripped_plain (plain : file.getLast? ≠ some slash) : file.rdropWhile (· == slash) = file := by
  refine List.rdropWhile_eq_self_iff.mpr fun nonempty ends => plain ?_
  rw [List.getLast?_eq_some_getLast nonempty, beq_iff_eq.mp ends]

theorem baseNameOf_plain (nonempty : file ≠ []) (plain : file.getLast? ≠ some slash) :
    baseNameOf file = baseName file := by
  have stripped : (file.reverse.dropWhile (· == slash)).reverse = file := stripped_plain plain
  simp only [baseNameOf, stripped, if_neg nonempty, lt_irrefl, if_false, List.append_nil]

theorem dirNameOf_plain (nonempty : file ≠ []) (plain : file.getLast? ≠ some slash) :
    dirNameOf file = dirName file := by
  simp only [dirNameOf, stripped_plain plain, if_neg nonempty]

/-- Where there is room, `filename_info` tells what it tells of a string of any length. -/
theorem readFilenameInfo_eq (absolute : Absolute file) (plain : file.getLast? ≠ some slash)
    (inside : SectionInside compExts file) : readFilenameInfo compExts file = some (filenameInfo compExts file) := by
  obtain ⟨before, after, last⟩ := cutLast_absolute absolute.dirNameOf
  have directory : directorySection (dirNameOf file) = after.drop 3 := by
    rw [directorySection, last]
    rfl
  have base : baseName (dirNameOf file) = after := by
    rw [baseName, last]
    rfl
  rw [SectionInside, base] at inside
  unfold readFilenameInfo filenameInfo
  rw [sectionAt_eq last, ← baseNameOf_plain absolute.ne_nil plain, ← dirNameOf_plain absolute.ne_nil plain,
    directory]
  rw [nameAndExt] at inside ⊢
  dsimp only
  generalize Separated.cutLast period ((compInfo compExts (baseNameOf file)).elim (baseNameOf file) Prod.fst) = parts
    at inside ⊢
  obtain ⟨name, _ | ext⟩ := parts
  · rfl
  · by_cases empty : ext = []
    · simp [empty]
    · have room : 3 ≤ after.length := inside.resolve_left empty
      simp [empty, tailAt, room]

/-- A page in the directory of its section is read safely. -/
theorem sectionInside_pagePath {sec : Bytes} (filePlain : slash ∉ file) (secPlain : slash ∉ sec) (nonempty : file ≠ [])
    (path : Bytes) : SectionInside compExts (pagePath path sec file) := by
  have front : pagePath path sec file ≠ [] := by simp [pagePath]
  have ends : (pagePath path sec file).getLast? ≠ some slash := by
    intro last
    rw [pagePath, List.getLast?_append_of_ne_nil _ (List.cons_ne_nil _ _), List.getLast?_cons_of_ne_nil nonempty] at last
    exact filePlain (List.mem_of_getLast? last)
  have directory : dirNameOf (pagePath path sec file) = path ++ slash :: (ascii "man" ++ sec) := by
    rw [dirNameOf_plain front ends, dirName_pagePath filePlain secPlain, List.append_assoc, List.cons_append]
  have name : baseName (path ++ slash :: (ascii "man" ++ sec)) = ascii "man" ++ sec :=
    baseName_append (sectionName_plain secPlain) path
  have letters : (ascii "man").length = 3 := by decide
  rw [SectionInside, directory, name, List.length_append, letters]
  exact Or.inr (by omega)

theorem readTraceInfos_isSome_iff (trace : List Bytes) :
    (readTraceInfos compExts trace).isSome ↔ ∀ file ∈ trace, (readFilenameInfo compExts file).isSome := by
  induction trace with
  | nil => simp [readTraceInfos]
  | cons file trace ih =>
    rw [readTraceInfos] at ih ⊢
    rw [List.mapM_cons, List.forall_mem_cons, ← ih]
    cases readFilenameInfo compExts file with
    | none => simp
    | some info => cases trace.mapM (readFilenameInfo compExts) <;> simp

theorem Absolute.ultHardlink {fullpath link : Bytes} {inode : Nat} (absolute : Absolute fullpath)
    (found : h.ultHardlink fullpath inode = some link) : Absolute link := by
  obtain ⟨dir, name, last⟩ := cutLast_absolute absolute
  simp only [LinkHost.ultHardlink, last, Option.bind_eq_some_iff, Option.ite_none_left_eq_some] at found
  obtain ⟨entries, _, _, same⟩ := found
  rw [Separated.cutLast_join last] at absolute
  rw [← Option.some.inj same]
  cases dir with
  | nil => rfl
  | cons c dir => exact absolute

theorem Absolute.resolveLinks {base : Bytes} (canonical : h.Canonical) (absolute : Absolute name)
    (found : h.resolveLinks name buf flags = some base) : Absolute base := by
  unfold LinkHost.resolveLinks at found
  cases buf with
  | none =>
    simp only [Option.ite_none_left_eq_some] at found
    exact Option.some.inj found.2 ▸ absolute
  | some buf =>
    obtain ⟨target, soft, hard⟩ := Option.map_eq_some_iff.mp found
    have resolved : Absolute target := by
      split at soft
      · exact canonical name target soft
      · exact Option.some.inj soft ▸ absolute
    rw [← hard]
    split
    · cases link : h.ultHardlink target buf.ino with
      | none => exact resolved
      | some link' => exact resolved.ultHardlink link
    · exact resolved

theorem followSoLinks_absolute {openPage : Bytes → Option Decompress} {findInclude : Bytes → Option Bytes} {turns : Nat}
    {base : Bytes} {trace : List Bytes} (includes : ∀ include_ next, findInclude include_ = some next → Absolute next)
    (start : Absolute base) (earlier : ∀ file ∈ trace, Absolute file)
    (follows : followSoLinks openPage findInclude turns base trace = some value) : ∀ file ∈ value.trace, Absolute file := by
  induction turns generalizing base trace with
  | zero => cases follows
  | succ turns ih =>
    rw [followSoLinks] at follows
    cases opens : openPage base with
    | none => simp [opens] at follows
    | some d =>
      simp only [opens] at follows
      cases directive : testForInclude (findIncludeDirective d) with
      | none =>
        simp only [directive, Option.some.injEq] at follows
        rw [← follows]
        exact List.forall_mem_append.mpr ⟨earlier, List.forall_mem_singleton.mpr start⟩
      | some include_ =>
        simp only [directive] at follows
        cases next : findInclude include_ with
        | none => simp [next] at follows
        | some next' =>
          simp only [next] at follows
          have absolute := includes include_ next' next
          exact ih absolute (List.forall_mem_append.mpr ⟨earlier, List.forall_mem_singleton.mpr absolute⟩) follows

theorem LinkHost.Canonical.ultSrcMiss (canonical : h.Canonical) (absolute : Absolute name)
    (found : h.ultSrcMiss name path buf flags = some value) : ∀ file ∈ value.trace, Absolute file := by
  obtain ⟨base, resolved, found⟩ := Option.bind_eq_some_iff.mp found
  have start := absolute.resolveLinks canonical resolved
  split at found
  · refine followSoLinks_absolute (fun include_ next found => ?_) start (by simpa using absolute) found
    obtain ⟨target, _, found⟩ := Option.bind_eq_some_iff.mp found
    exact canonical target next found
  · rw [← Option.some.inj found]
    simp [absolute, start]

/-- A trace holds absolute names only. -/
theorem ReachedCache.absolute (reached : ReachedCache cache) {key : Bytes × UltFlags}
    (kept : cache key = some (some value)) : ∀ file ∈ value.trace, Absolute file := by
  induction reached with
  | empty => cases kept
  | @call cache h name reached canonical absolute path buf flags ih =>
    unfold ultSrcCached at kept
    cases cached : cache (name, flags) with
    | some existing =>
      simp only [cached] at kept
      exact ih kept
    | none =>
      simp only [cached] at kept
      by_cases same : key = (name, flags)
      · rw [same, Function.update_self, Option.some.injEq] at kept
        exact canonical.ultSrcMiss absolute kept
      · rw [Function.update_of_ne same] at kept
        exact ih kept

theorem ReachedCache.ultSrcCached (reached : ReachedCache cache) (canonical : h.Canonical) (absolute : Absolute name)
    (found : (ultSrcCached h cache name path buf flags).1 = some value) : ∀ file ∈ value.trace, Absolute file := by
  unfold ManDb.ultSrcCached at found
  cases cached : cache (name, flags) with
  | some existing =>
    simp only [cached] at found
    exact reached.absolute (cached.trans (congrArg some found))
  | none =>
    simp only [cached] at found
    exact canonical.ultSrcMiss absolute found

/-- `filename_info` stays inside the directory name of a file of a trace exactly if the file has no
section extension or the name of its directory has three bytes at least. -/
theorem filenameInfo_inside_iff (reached : ReachedCache cache) (canonical : h.Canonical) (absolute : Absolute name)
    (found : (ultSrcCached h cache name path buf flags).1 = some value) (compExts : List Bytes) :
    (∀ file ∈ value.trace, (readFilenameInfo compExts file).isSome ↔ SectionInside compExts file) ∧
      ((readTraceInfos compExts value.trace).isSome ↔ ∀ file ∈ value.trace, SectionInside compExts file) := by
  have trace := reached.ultSrcCached canonical absolute found
  have each : ∀ file ∈ value.trace, (readFilenameInfo compExts file).isSome ↔ SectionInside compExts file :=
    fun file member => readFilenameInfo_isSome_iff (trace file member)
  exact ⟨each, (readTraceInfos_isSome_iff _).trans (forall₂_congr each)⟩

/-- A page is a link to a file in a directory with a name of one byte. -/
def linkedPages : LinkHost where
  compExts := [ascii "gz"]
  openPage _ := some ⟨.inprocess, ascii ".TH FOO 1\n", 0, Decompress.zero_within _⟩
  canAccess _ := true
  stat _ := true
  canonicalize _ := some (ascii "/x/foo.1")
  readdir _ := none
  lstat _ := some ⟨true, 1, 5⟩

theorem linkedPages_canonical : linkedPages.Canonical := by
  rintro _ target found
  rw [← Option.some.inj found]
  rfl

/-- The trace of the page. -/
def linkedTrace : UltValue := ⟨ascii "/x/foo.1", [ascii "/usr/share/man/man1/foo.1", ascii "/x/foo.1"]⟩

theorem linkedPage_absolute : Absolute (ascii "/usr/share/man/man1/foo.1") := rfl

theorem linkedPages_traced :
    (ultSrcCached linkedPages (fun _ => none) (ascii "/usr/share/man/man1/foo.1") (ascii "/usr/share/man") none
      ⟨true, true, true⟩).1 = some linkedTrace := by
  decide +kernel

theorem filenameInfo_inside_linkedPages :
    ((readTraceInfos [ascii "gz"] linkedTrace.trace).isSome ↔
      ∀ file ∈ linkedTrace.trace, SectionInside [ascii "gz"] file) :=
  (filenameInfo_inside_iff .empty linkedPages_canonical linkedPage_absolute linkedPages_traced _).2

/-- The section of the file that the link leads to is read behind the name of its directory. -/
theorem filenameInfo_link_outside :
    ∃ cache h name path buf flags, ReachedCache cache ∧ h.Canonical ∧ Absolute name ∧ ∃ value : UltValue,
      (ultSrcCached h cache name path buf flags).1 = some value ∧ ascii "/x/foo.1" ∈ value.trace ∧
      dirNameOf (ascii "/x/foo.1") = ascii "/x" ∧ readFilenameInfo [ascii "gz"] (ascii "/x/foo.1") = none ∧
      readTraceInfos [ascii "gz"] value.trace = none :=
  ⟨_, _, _, _, _, _, .empty, linkedPages_canonical, linkedPage_absolute, linkedTrace, linkedPages_traced, by decide,
    by decide +kernel, by decide +kernel, by decide +kernel⟩

end ManDb
