import ManDb.Mandata

namespace ManDb

/-- `base_name`, of a file name that does not end in a slash. -/
def baseName (file : Bytes) : Bytes := (Separated.cutLast slash file).2.getD file

/-- `dir_name` likewise. -/
def dirName (file : Bytes) : Bytes :=
  match Separated.cutLast slash file with
  | (_, none) => [period]
  | (directory, some _) =>
    let stripped := (directory.reverse.dropWhile (· == slash)).reverse
    if stripped = [] then [slash] else stripped

/-- The decompressors that the program is built with. -/
structure Decompressors where
  gzip : Bool
  compress : Bool
  bzip2 : Bool
  xz : Bool
  lzma : Bool
  lzip : Bool
  zstd : Bool

/-- The extensions in `comp_list`. -/
def compList (tools : Decompressors) : List Bytes :=
  (if tools.gzip then [ascii "gz", ascii "z"] else []) ++
  (if tools.compress || tools.gzip then [ascii "Z"] else []) ++
  (if tools.bzip2 then [ascii "bz2"] else []) ++
  (if tools.xz then [ascii "xz", ascii "lzma"] else if tools.lzma then [ascii "lzma"] else []) ++
  (if tools.lzip then [ascii "lz"] else []) ++
  (if tools.zstd then [ascii "zst", ascii "zstd"] else [])

/-- `comp_info` of the name of a file in its directory: the stem and the extension,
which is one of those in `comp_list`. -/
def compInfo (compExts : List Bytes) (filename : Bytes) : Option (Bytes × Bytes) :=
  match Separated.cutLast period filename with
  | (stem, some ext) => if ext ∈ compExts then some (stem, ext) else none
  | (_, none) => none

/-- What follows "/man" in the last component of the directory. The directory is
absolute and three letters long at least. -/
def directorySection (dirname : Bytes) : Bytes := ((Separated.cutLast slash dirname).2.getD []).drop 3

/-- Fill in a structure with information about a file name; `none` if it is bogus. -/
def filenameInfo (compExts : List Bytes) (file : Bytes) : Option Mandata :=
  let comp := compInfo compExts (baseName file)
  match Separated.cutLast period (comp.elim (baseName file) Prod.fst) with
  | (_, none) => none
  | (name, some ext) =>
    let sec := directorySection (dirName file)
    if ext = [] then none
    else if sec ≠ [] ∧ sec.head? ≠ ext.head? then none
    else some
      { name := some name, ext := ext, sec := sec, id := 0, pointer := none, comp := comp.map Prod.snd
        filter := none, whatis := none, mtime := ⟨0, 0⟩ }

theorem filenameInfo_named {compExts : List Bytes} {file : Bytes} {info : Mandata}
    (parsed : filenameInfo compExts file = some info) : ∃ name, info.name = some name := by
  unfold filenameInfo at parsed
  dsimp only at parsed
  split at parsed
  · cases parsed
  split at parsed
  · cases parsed
  split at parsed
  · cases parsed
  exact ⟨_, by rw [← Option.some.inj parsed]⟩

/-- The file name that `make_filename` tries. -/
def filenameOf (path name : Bytes) (info : Mandata) (type : Bytes) : Bytes :=
  path ++ slash :: type ++ info.sec ++ slash :: name ++ period :: info.ext ++
    match info.comp with
    | none => []
    | some comp => if comp.head? = some dash then [] else period :: comp

/-- `make_filename`, of a file that can be read. -/
def makeFilename (canAccess : Bytes → Bool) (path name : Bytes) (info : Mandata) (type : Bytes) : Option Bytes :=
  let file := filenameOf path name info type
  if canAccess file then some file else none

theorem compList_plain (tools : Decompressors) : ∀ ext ∈ compList tools, period ∉ ext := by
  have table : ∀ gzip compress bzip2 xz lzma lzip zstd,
      ∀ ext ∈ compList ⟨gzip, compress, bzip2, xz, lzma, lzip, zstd⟩, period ∉ ext := by decide +kernel
  exact table _ _ _ _ _ _ _

theorem compList_proper (tools : Decompressors) : ∀ ext ∈ compList tools, ext.head? ≠ some dash := by
  have table : ∀ gzip compress bzip2 xz lzma lzip zstd,
      ∀ ext ∈ compList ⟨gzip, compress, bzip2, xz, lzma, lzip, zstd⟩, ext.head? ≠ some dash := by decide +kernel
  exact table _ _ _ _ _ _ _

theorem compList_slashless (tools : Decompressors) : ∀ ext ∈ compList tools, slash ∉ ext := by
  have table : ∀ gzip compress bzip2 xz lzma lzip zstd,
      ∀ ext ∈ compList ⟨gzip, compress, bzip2, xz, lzma, lzip, zstd⟩, slash ∉ ext := by decide +kernel
  exact table _ _ _ _ _ _ _

theorem compInfo_join {compExts : List Bytes} {filename stem ext : Bytes}
    (comp : compInfo compExts filename = some (stem, ext)) : filename = stem ++ period :: ext ∧ ext ∈ compExts := by
  unfold compInfo at comp
  split at comp
  · rename_i found tail last
    split at comp
    · rename_i known
      obtain ⟨rfl, rfl⟩ := Prod.mk.inj (Option.some.inj comp)
      exact ⟨Separated.cutLast_join last, known⟩
    · cases comp
  · cases comp

theorem baseName_subset (file : Bytes) : baseName file ⊆ file := by
  unfold baseName
  match last : Separated.cutLast slash file with
  | (_, none) => exact List.Subset.refl _
  | (front, some after) =>
    rw [Separated.cutLast_join last]
    exact fun b member => List.mem_append_right _ (List.mem_cons_of_mem _ member)

theorem directorySection_subset (dirname : Bytes) : directorySection dirname ⊆ dirname := by
  unfold directorySection
  match last : Separated.cutLast slash dirname with
  | (_, none) => exact List.nil_subset _
  | (front, some after) =>
    rw [Separated.cutLast_join last]
    exact fun b member => List.mem_append_right _ (List.mem_cons_of_mem _ ((List.drop_subset _ _) member))

theorem directorySection_dirName_subset (file : Bytes) : directorySection (dirName file) ⊆ file := by
  unfold dirName
  match last : Separated.cutLast slash file with
  | (_, none) => exact List.nil_subset _
  | (front, some after) =>
    dsimp only
    split
    · exact List.nil_subset _
    · rename_i nonempty
      have file_ := Separated.cutLast_join last
      rw [file_]
      refine fun b member => List.mem_append_left _ ?_
      have stripped := directorySection_subset _ member
      exact List.mem_reverse.mp ((List.dropWhile_suffix _).subset (List.mem_reverse.mp stripped))

/-- What a file name tells is part of it. -/
theorem filenameInfo_subset {compExts : List Bytes} {file : Bytes} {info : Mandata}
    (parsed : filenameInfo compExts file = some info) :
    info.ext ⊆ file ∧ info.sec ⊆ file ∧ ∀ ext ∈ info.comp, ext ⊆ file := by
  unfold filenameInfo at parsed
  dsimp only at parsed
  split at parsed
  · cases parsed
  · rename_i name ext last
    split at parsed
    · cases parsed
    split at parsed
    · cases parsed
    obtain rfl := Option.some.inj parsed
    have inStem : ext ⊆ (compInfo compExts (baseName file)).elim (baseName file) Prod.fst := by
      rw [Separated.cutLast_join last]
      exact fun b member => List.mem_append_right _ (List.mem_cons_of_mem _ member)
    cases comp : compInfo compExts (baseName file) with
    | none =>
      rw [comp] at inStem
      exact ⟨List.Subset.trans inStem (baseName_subset file), directorySection_dirName_subset file, nofun⟩
    | some parts =>
      rw [comp] at inStem
      have whole := (compInfo_join comp).1
      have inside : ∀ part, part ⊆ parts.1 ++ period :: parts.2 → part ⊆ file := fun part within =>
        List.Subset.trans (whole ▸ within) (baseName_subset file)
      refine ⟨inside _ (List.Subset.trans inStem (List.subset_append_left _ _)),
        directorySection_dirName_subset file, ?_⟩
      intro other found
      obtain rfl := Option.some.inj found
      exact inside _ fun b member => List.mem_append_right _ (List.mem_cons_of_mem _ member)

/-- The name of a file in the directory of its section is made again from what it
tells. No compression extension starts with a dash. -/
theorem filenameOf_filenameInfo {compExts : List Bytes} {path file : Bytes} {info : Mandata}
    (proper : ∀ ext ∈ compExts, ext.head? ≠ some dash) (parsed : filenameInfo compExts file = some info)
    (placed : file = path ++ slash :: ascii "man" ++ info.sec ++ slash :: baseName file) :
    filenameOf path (info.name.getD []) info (ascii "man") = file := by
  suffices tail : baseName file = info.name.getD [] ++ period :: info.ext ++
      match info.comp with
      | none => []
      | some comp => if comp.head? = some dash then [] else period :: comp by
    rw [placed, tail]
    simp [filenameOf]
  unfold filenameInfo at parsed
  dsimp only at parsed
  split at parsed
  · cases parsed
  · rename_i name ext last
    split at parsed
    · cases parsed
    split at parsed
    · cases parsed
    have stem := Separated.cutLast_join last
    rw [← Option.some.inj parsed]
    cases comp : compInfo compExts (baseName file) with
    | none => simpa [comp] using stem
    | some found =>
      obtain ⟨front, suffix⟩ := found
      obtain ⟨whole, known⟩ := compInfo_join comp
      rw [comp] at stem
      have parts : front = name ++ period :: ext := stem
      simp only [Option.map_some, Option.getD_some, if_neg (proper suffix known)]
      rw [whole, parts]

variable {path sec file component : Bytes} {info : Mandata}

theorem baseName_append (filePlain : slash ∉ file) (directory : Bytes) : baseName (directory ++ slash :: file) = file := by
  rw [baseName, Separated.cutLast_append_cons filePlain]
  rfl

/-- A directory with a name of its own does not end in a slash. -/
theorem dirName_append (filePlain : slash ∉ file) (nonempty : component ≠ []) (plain : slash ∉ component) (path : Bytes) :
    dirName (path ++ slash :: component ++ slash :: file) = path ++ slash :: component := by
  obtain ⟨front, b, last⟩ := (List.eq_nil_or_concat component).resolve_left nonempty
  rw [List.concat_eq_append] at last
  have letter : b ≠ slash := by
    rintro rfl
    exact plain (by simp [last])
  have shape : path ++ slash :: component = path ++ slash :: front ++ [b] := by simp [last]
  rw [dirName, Separated.cutLast_append_cons filePlain]
  simp only [shape]
  simp [letter]

theorem directorySection_append (plain : slash ∉ component) (path : Bytes) :
    directorySection (path ++ slash :: component) = component.drop 3 := by
  rw [directorySection, Separated.cutLast_append_cons plain]
  rfl

/-- The path of a file in the directory of its section. -/
def pagePath (path sec file : Bytes) : Bytes := path ++ slash :: ascii "man" ++ sec ++ slash :: file

theorem sectionName_plain (secPlain : slash ∉ sec) : slash ∉ ascii "man" ++ sec :=
  List.not_mem_append (by decide +kernel) secPlain

theorem baseName_pagePath (filePlain : slash ∉ file) (path sec : Bytes) :
    baseName (pagePath path sec file) = file :=
  baseName_append filePlain _

theorem dirName_pagePath (filePlain : slash ∉ file) (secPlain : slash ∉ sec) (path : Bytes) :
    dirName (pagePath path sec file) = path ++ slash :: ascii "man" ++ sec := by
  rw [pagePath, List.append_assoc path, List.cons_append]
  exact dirName_append filePlain (by simp [ascii]) (sectionName_plain secPlain) path

theorem directorySection_pagePath (secPlain : slash ∉ sec) (path : Bytes) :
    directorySection (path ++ slash :: ascii "man" ++ sec) = sec := by
  rw [List.append_assoc, List.cons_append, directorySection_append (sectionName_plain secPlain)]
  rfl

/-- The section that a file tells is that of its directory. -/
theorem filenameInfo_sec {compExts : List Bytes} (filePlain : slash ∉ file) (secPlain : slash ∉ sec)
    (parsed : filenameInfo compExts (pagePath path sec file) = some info) : info.sec = sec := by
  unfold filenameInfo at parsed
  dsimp only at parsed
  split at parsed
  · cases parsed
  split at parsed
  · cases parsed
  split at parsed
  · cases parsed
  rw [← Option.some.inj parsed, dirName_pagePath filePlain secPlain, directorySection_pagePath secPlain]

theorem filenameOf_pagePath (tools : Decompressors) (filePlain : slash ∉ file) (secPlain : slash ∉ sec)
    (parsed : filenameInfo (compList tools) (pagePath path sec file) = some info) :
    filenameOf path (info.name.getD []) info (ascii "man") = pagePath path sec file := by
  refine filenameOf_filenameInfo (compList_proper tools) parsed ?_
  rw [filenameInfo_sec filePlain secPlain parsed, baseName_pagePath filePlain]
  rfl

/-- What a file of a hierarchy tells makes its name again, and no other file tells it. -/
theorem makeFilename_filenameInfo (tools : Decompressors) (filePlain : slash ∉ file) (secPlain : slash ∉ sec)
    (parsed : filenameInfo (compList tools) (pagePath path sec file) = some info) :
    (∀ canAccess : Bytes → Bool, canAccess (pagePath path sec file) = true →
      makeFilename canAccess path (info.name.getD []) info (ascii "man") = some (pagePath path sec file)) ∧
    ∀ sec' file' info', slash ∉ file' → slash ∉ sec' →
      filenameInfo (compList tools) (pagePath path sec' file') = some info' →
      (info'.sec, info'.name, info'.ext, info'.comp) = (info.sec, info.name, info.ext, info.comp) →
      sec' = sec ∧ file' = file := by
  have made := filenameOf_pagePath tools filePlain secPlain parsed
  refine ⟨fun canAccess readable => ?_, fun sec' file' info' filePlain' secPlain' parsed' same => ?_⟩
  · rw [makeFilename, made]
    exact if_pos readable
  · have made' := filenameOf_pagePath tools filePlain' secPlain' parsed'
    simp only [Prod.mk.injEq] at same
    obtain ⟨secs, names, exts, comps⟩ := same
    have files : pagePath path sec' file' = pagePath path sec file := by
      rw [← made', ← made]
      simp only [filenameOf, secs, names, exts, comps]
    have bases := congrArg baseName files
    rw [baseName_pagePath filePlain', baseName_pagePath filePlain] at bases
    exact ⟨by rw [← filenameInfo_sec filePlain' secPlain' parsed', secs,
      filenameInfo_sec filePlain secPlain parsed], bases⟩

/-- A page with dots and a compression extension in the middle of its name. -/
def dottedPage : Mandata where
  name := some (ascii "a.gz.b")
  ext := ascii "1p"
  sec := ascii "1"
  id := 0
  pointer := none
  comp := some (ascii "gz")
  filter := none
  whatis := none
  mtime := ⟨0, 0⟩

theorem makeFilename_dottedPage :
    makeFilename (fun _ => true) (ascii "/usr/share/man") (ascii "a.gz.b") dottedPage (ascii "man") =
      some (pagePath (ascii "/usr/share/man") (ascii "1") (ascii "a.gz.b.1p.gz")) := by
  have parsed : filenameInfo (compList ⟨true, false, true, true, false, true, true⟩)
      (pagePath (ascii "/usr/share/man") (ascii "1") (ascii "a.gz.b.1p.gz")) = some dottedPage := by decide +kernel
  exact (makeFilename_filenameInfo _ (by decide +kernel) (by decide +kernel) parsed).1 (fun _ => true) rfl

end ManDb
