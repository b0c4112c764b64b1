import ManDb.PageKind

namespace ManDb

/-- What a line of the configuration is about. -/
inductive ConfigFlag
  | mandatory | manpathMap | mandbMap | mandbMapUser | define | defineUser | «section» | sectionUser
  deriving DecidableEq

structure ConfigItem where
  key : Bytes
  cont : Bytes
  flag : ConfigFlag

/-- `SYSTEM_CAT` and `USER_CAT`, the bits of a `cattype`. -/
def systemCat : Nat := 1
def userCat : Nat := 2

/-- The item maps a hierarchy to cat pages of the requested type. -/
def wanted (cattype : Nat) (item : ConfigItem) : Bool :=
  (cattype &&& systemCat != 0 && item.flag == .mandbMap) || (cattype &&& userCat != 0 && item.flag == .mandbMapUser)

/-- `while (suffix > name + manlen) if (*--suffix == '/') break`, from an offset in the
name. -/
def walkBack (name : Bytes) (manlen : Nat) : Nat → Nat
  | 0 => 0
  | suffix + 1 =>
    if manlen < suffix + 1 then if name[suffix]? = some slash then suffix else walkBack name manlen suffix
    else suffix + 1

/-- The path that an item with a key at the start of the name makes of it. -/
def catPathOf (item : ConfigItem) (name : Bytes) : Bytes :=
  let manlen := item.key.length
  match Separated.cutLast slash name with
  | (_, none) => item.cont ++ name.drop manlen
  | (before, some _) =>
    -- for a hierarchy of a language, the second last slash if that follows the key
    let back := max (walkBack name manlen before.length) manlen
    let suffix := if name[back]? = some slash then back + 1 else back
    let catpath := item.cont ++ (name.drop manlen).take (suffix - manlen)
    let rest := name.drop suffix
    if ascii "man" <+: rest then catpath ++ ascii "cat" ++ rest.drop 3 else catpath ++ rest

/-- `get_catpath`. -/
def getCatpath (config : List ConfigItem) (cattype : Nat) (name : Bytes) : Option Bytes :=
  (config.find? fun item => wanted cattype item && item.key.isPrefixOf name).map (catPathOf · name)

/-- "Can't convert %s to cat name". -/
structure GripeConvertingName where
  name : Bytes
  deriving DecidableEq

/-- What is put behind the stem of a cat page. -/
def catSuffix (compCat : Option Bytes) : Bytes := compCat.elim [] (period :: ·)

/-- `convert_name`. With `COMP_CAT` there is an extension for cat pages. -/
def convertName (compExts : List Bytes) (gunzip : Bool) (compCat : Option Bytes) (name : Bytes) (fsstnd : Bool) :
    Except GripeConvertingName (Option Bytes) :=
  let toName := scannedStem compExts gunzip name ++ catSuffix compCat
  if fsstnd then
    match Separated.cutLast slash toName with
    | (_, none) => .error ⟨name⟩
    | (directory, some file) =>
      match Separated.cutLast slash directory with
      | (_, none) => .error ⟨name⟩
      | (top, some section') =>
        if ascii "man" <+: section' then .ok (some (top ++ slash :: ascii "cat" ++ section'.drop 3 ++ slash :: file))
        else .ok none
  else .ok (some toName)

/-- The end of `find_cat_file`: the cat page to use or create, for a hierarchy with or
without cat pages somewhere else. -/
def wantedCatFile (compExts : List Bytes) (gunzip : Bool) (compCat : Option Bytes) (config : List ConfigItem)
    (cattype : Nat) (original : Bytes) : Except GripeConvertingName (Option Bytes) :=
  match getCatpath config cattype original with
  | some catPath => convertName compExts gunzip compCat catPath false
  | none => convertName compExts gunzip compCat original true

def isGlobalMandir (config : List ConfigItem) (dir : Bytes) : Bool :=
  config.any fun item => item.flag == .mandbMap && item.key.isPrefixOf dir

/-- The type of cat page that `find_cat_file` asks for. -/
def requestedCat (config : List ConfigItem) (name : Bytes) : Nat :=
  if isGlobalMandir config name then systemCat else userCat

/-- What `find_cat_file` finds out about files. -/
structure CatFileSystem where
  isChanged : Bytes → Bytes → Int
  isDirectory : Bytes → Int

/-- The cat page of the target of a link. -/
def linkCatFile (fs : CatFileSystem) (compExts : List Bytes) (gunzip : Bool) (compCat : Option Bytes)
    (config : List ConfigItem) (path manFile : Bytes) : Except GripeConvertingName (Option Bytes) := do
  let catFile ←
    match getCatpath config (requestedCat config manFile) manFile with
    | some catPath => convertName compExts gunzip compCat catPath false
    | none =>
      if path ++ [slash] <+: manFile then convertName compExts gunzip compCat manFile true else .ok none
  .ok (catFile.filter fun file => fs.isDirectory (Separated.cutLast slash file).1 != 0)

/-- `find_cat_file`. -/
def findCatFile (fs : CatFileSystem) (compExts : List Bytes) (gunzip : Bool) (compCat : Option Bytes)
    (config : List ConfigItem) (path original manFile : Bytes) : Except GripeConvertingName (Option Bytes) := do
  let beside ← convertName compExts gunzip compCat original true
  match beside.filter fun file => fs.isChanged original file != -2 && fs.isChanged original file % 2 == 0 with
  | some catFile => .ok (some catFile)
  | none =>
    let linked ← if manFile = original then .ok none
      else linkCatFile fs compExts gunzip compCat config path manFile
    match linked with
    | some catFile => .ok (some catFile)
    | none => wantedCatFile compExts gunzip compCat config (requestedCat config original) original

/-- The place of a page in a hierarchy, with the directories that lead to that of its
section. -/
structure PagePlace where
  dirs : List Bytes
  sec : Bytes
  file : Bytes
  secPlain : slash ∉ sec
  filePlain : slash ∉ file

namespace PagePlace

/-- The directory of the section, below the top of a hierarchy. -/
def directory (place : PagePlace) (top type : Bytes) : Bytes :=
  top ++ place.dirs.flatMap (slash :: ·) ++ slash :: (type ++ place.sec)

def page (place : PagePlace) (top : Bytes) : Bytes := place.directory top (ascii "man") ++ slash :: place.file

def catPage (place : PagePlace) (top file : Bytes) : Bytes := place.directory top (ascii "cat") ++ slash :: file

end PagePlace

/-- No component ends in ".Z". -/
def Uncompressed (directory : Bytes) : Prop := ∀ component ∈ directory.splitOn slash, ¬ascii ".Z" <:+ component

instance uncompressedDecidable (directory : Bytes) : Decidable (Uncompressed directory) :=
  inferInstanceAs (Decidable (∀ component ∈ directory.splitOn slash, ¬ascii ".Z" <:+ component))

/-- A page below the key of an item of the requested type, which is the first one whose
key is at the start of its path. -/
def PlacedUnder (config : List ConfigItem) (cattype : Nat) (item : ConfigItem) (place : PagePlace) : Prop :=
  wanted cattype item = true ∧ Uncompressed (place.directory item.key (ascii "man")) ∧
    ∃ before after, config = before ++ item :: after ∧
      ∀ earlier ∈ before, wanted cattype earlier = true → ¬earlier.key <+: place.page item.key

variable {compExts : List Bytes} {gunzip : Bool} {compCat : Option Bytes} {config : List ConfigItem} {cattype : Nat}
  {item : ConfigItem} {place : PagePlace}

/-- Going back over a component without slashes ends at the slash before it. -/
theorem walkBack_component {front component : Bytes} {manlen : Nat} (plain : slash ∉ component)
    (limit : manlen ≤ front.length) (rest : Bytes) (count : Nat) (inside : count ≤ component.length) :
    walkBack (front ++ slash :: (component ++ rest)) manlen (front.length + 1 + count) = front.length := by
  induction count with
  | zero =>
    rw [Nat.add_zero, walkBack, if_pos (by omega), if_pos]
    rw [List.getElem?_append_right (le_refl _), Nat.sub_self]
    rfl
  | succ count ih =>
    have other : (front ++ slash :: (component ++ rest))[front.length + 1 + count]? ≠ some slash := by
      have offset : front.length + 1 + count - front.length = count + 1 := by omega
      rw [List.getElem?_append_right (by omega), offset, List.getElem?_cons_succ,
        List.getElem?_append_left (by omega)]
      exact fun here => plain (List.mem_of_getElem? here)
    rw [← Nat.add_assoc, walkBack, if_pos (by omega), if_neg other]
    exact ih (by omega)

/-- Only the name of the directory of the section is changed behind the key. -/
theorem catPathOf_page {sec file : Bytes} (secPlain : slash ∉ sec) (filePlain : slash ∉ file) (item : ConfigItem)
    (middle : Bytes) :
    catPathOf item (item.key ++ middle ++ slash :: (ascii "man" ++ sec) ++ slash :: file) =
      item.cont ++ middle ++ slash :: (ascii "cat" ++ sec) ++ slash :: file := by
  have plain := sectionName_plain secPlain
  have top : item.key.length ≤ (item.key ++ middle).length := by simp
  have back : walkBack (item.key ++ middle ++ slash :: (ascii "man" ++ sec) ++ slash :: file) item.key.length
      (item.key ++ middle ++ slash :: (ascii "man" ++ sec)).length = (item.key ++ middle).length := by
    have steps := walkBack_component plain top (slash :: file) (ascii "man" ++ sec).length (le_refl _)
    have last : (item.key ++ middle ++ slash :: (ascii "man" ++ sec)).length =
        (item.key ++ middle).length + 1 + (ascii "man" ++ sec).length := by
      rw [List.length_append, List.length_cons]
      omega
    rw [last, List.append_assoc, List.cons_append]
    exact steps
  have here : (item.key ++ middle ++ slash :: (ascii "man" ++ sec) ++ slash :: file)[(item.key ++ middle).length]? =
      some slash := by
    rw [List.append_assoc, List.getElem?_append_right (le_refl _), Nat.sub_self]
    rfl
  have behind : (item.key ++ middle ++ slash :: (ascii "man" ++ sec) ++ slash :: file).drop
      ((item.key ++ middle).length + 1) = ascii "man" ++ (sec ++ slash :: file) := by
    have split : item.key ++ middle ++ slash :: (ascii "man" ++ sec) ++ slash :: file =
        (item.key ++ middle ++ [slash]) ++ (ascii "man" ++ (sec ++ slash :: file)) := by simp
    rw [split]
    exact List.drop_left' (by rw [List.length_append, List.length_singleton])
  have between : ((item.key ++ middle ++ slash :: (ascii "man" ++ sec) ++ slash :: file).drop item.key.length).take
      ((item.key ++ middle).length + 1 - item.key.length) = middle ++ [slash] := by
    have split : item.key ++ middle ++ slash :: (ascii "man" ++ sec) ++ slash :: file =
        item.key ++ ((middle ++ [slash]) ++ (ascii "man" ++ sec ++ slash :: file)) := by simp
    rw [split, List.drop_left]
    refine List.take_left' ?_
    simp only [List.length_append, List.length_singleton]
    omega
  have named : (ascii "man" ++ (sec ++ slash :: file)).drop 3 = sec ++ slash :: file := rfl
  rw [catPathOf, Separated.cutLast_append_cons filePlain]
  simp only [back, max_eq_left top, if_pos here, behind, between, if_pos (List.prefix_append _ _), named]
  simp

theorem prefix_page (place : PagePlace) (top : Bytes) : top <+: place.page top :=
  ⟨place.dirs.flatMap (slash :: ·) ++ slash :: (ascii "man" ++ place.sec) ++ slash :: place.file, by
    simp [PagePlace.page, PagePlace.directory]⟩

theorem getCatpath_page (placed : PlacedUnder config cattype item place) :
    getCatpath config cattype (place.page item.key) = some (place.catPage item.cont place.file) := by
  obtain ⟨kind, _, before, after, rfl, first⟩ := placed
  have skipped : before.find? (fun earlier =>
      wanted cattype earlier && earlier.key.isPrefixOf (place.page item.key)) =
      none := by
    rw [List.find?_eq_none]
    intro earlier member both
    rw [Bool.and_eq_true, List.isPrefixOf_iff_prefix] at both
    exact first earlier member both.1 both.2
  have matched : (wanted cattype item && item.key.isPrefixOf (place.page item.key)) = true := by
    rw [Bool.and_eq_true, List.isPrefixOf_iff_prefix]
    exact ⟨kind, prefix_page place item.key⟩
  rw [getCatpath, List.find?_append, skipped, Option.none_or, List.find?_cons, matched, Option.map_some]
  exact congrArg some (catPathOf_page place.secPlain place.filePlain item (place.dirs.flatMap (slash :: ·)))

/-- A file of a directory without a component in ".Z" loses its own extension only. -/
theorem scannedStem_file {directory file : Bytes} (gunzip : Bool) (slashless : ∀ ext ∈ compExts, slash ∉ ext)
    (filePlain : slash ∉ file) (uncompressed : Uncompressed directory) :
    scannedStem compExts gunzip (directory ++ slash :: file) = directory ++ slash :: stemOf compExts file := by
  have absent : ¬ascii ".Z/" <:+: directory ++ slash :: file := by
    intro found
    have plain : slash ∉ ascii ".Z" := by decide +kernel
    obtain ⟨component, member, ending⟩ := Separated.mem_dropLast_splitOn_of_found plain found
    rw [List.splitOn_append_cons_self, List.splitOn_eq_singleton filePlain, List.dropLast_concat] at member
    exact uncompressed component member ending
  rw [← stemOf_directory slashless]
  unfold scannedStem compInfoOfPath stemOf
  cases compInfo compExts (directory ++ slash :: file) with
  | some found => rfl
  | none =>
    cases gunzip with
    | false => rfl
    | true =>
      simp only [if_true]
      rw [Separated.cutAt_eq_none_iff.mpr absent]
      rfl

theorem Uncompressed.append {xs ys : Bytes} :
    Uncompressed (xs ++ slash :: ys) ↔ Uncompressed xs ∧ Uncompressed ys := by
  simp only [Uncompressed, List.splitOn_append_cons_self, List.mem_append, or_imp, forall_and]

theorem uncompressed_below (top : Bytes) (dirs : List Bytes) :
    Uncompressed (top ++ dirs.flatMap (slash :: ·)) ↔ Uncompressed top ∧ ∀ dir ∈ dirs, Uncompressed dir := by
  simp only [Uncompressed, Separated.splitOn_append_flatMap, List.mem_append, List.mem_flatMap]
  constructor
  · intro clean
    exact ⟨fun component member => clean component (Or.inl member),
      fun dir among component member => clean component (Or.inr ⟨dir, among, member⟩)⟩
  · rintro ⟨above, below⟩ component (member | ⟨dir, among, member⟩)
    · exact above component member
    · exact below dir among component member

/-- The components of the directory of a section. -/
theorem uncompressed_directory (place : PagePlace) (top : Bytes) {type : Bytes} (typePlain : slash ∉ type) :
    Uncompressed (place.directory top type) ↔
      (Uncompressed top ∧ ∀ dir ∈ place.dirs, Uncompressed dir) ∧ ¬ascii ".Z" <:+ type ++ place.sec := by
  have plain := List.not_mem_append typePlain place.secPlain
  have last : Uncompressed (type ++ place.sec) ↔ ¬ascii ".Z" <:+ type ++ place.sec := by
    simp only [Uncompressed, List.splitOn_eq_singleton plain, List.mem_singleton, forall_eq]
  rw [PagePlace.directory, Uncompressed.append, uncompressed_below, last]

/-- What follows "cat" or "man" decides whether the name ends in ".Z". -/
theorem compressed_cat {sec : Bytes} (ends : ascii ".Z" <:+ ascii "cat" ++ sec) :
    ascii ".Z" <:+ ascii "man" ++ sec := by
  cases sec with
  | nil => exact absurd ends (by decide +kernel)
  | cons b rest =>
    cases rest with
    | nil =>
      have letters : ascii ".Z" = [116, b] := List.suffix_iff_eq_drop.mp ends
      exact absurd (List.cons.inj letters).1 (by decide)
    | cons c rest =>
      have long : (ascii ".Z").length ≤ (b :: c :: rest).length := by simp [ascii]
      exact (List.suffix_of_suffix_length_le ends (List.suffix_append _ _) long).trans (List.suffix_append _ _)

theorem PlacedUnder.uncompressed (placed : PlacedUnder config cattype item place) (cont : Uncompressed item.cont) :
    Uncompressed (place.directory item.cont (ascii "cat")) := by
  have source := placed.2.1
  rw [uncompressed_directory _ _ (by decide +kernel)] at source ⊢
  exact ⟨⟨cont, source.1.2⟩, fun ends => source.2 (compressed_cat ends)⟩

/-- A cat page in a directory that is not compressed, without the directory changed. -/
theorem convertName_plain (tools : Decompressors) (gunzip : Bool) (compCat : Option Bytes) {directory file : Bytes}
    (filePlain : slash ∉ file) (uncompressed : Uncompressed directory) :
    convertName (compList tools) gunzip compCat (directory ++ slash :: file) false =
      .ok (some (directory ++ slash :: stemOf (compList tools) file ++ catSuffix compCat)) := by
  rw [convertName, scannedStem_file gunzip (compList_slashless tools) filePlain uncompressed]
  rfl

theorem stemOf_slashless {file : Bytes} (filePlain : slash ∉ file) (compExts : List Bytes) :
    slash ∉ stemOf compExts file := fun member => filePlain ((stemOf_starts compExts file).subset member)

/-- The name of a cat page tells the place of the page and its stem. -/
theorem catPage_inj {other : PagePlace} {top stem stem' : Bytes} (plain : slash ∉ stem) (plain' : slash ∉ stem')
    (same : other.catPage top stem' = place.catPage top stem) :
    (∀ key, other.directory key (ascii "man") = place.directory key (ascii "man")) ∧ stem' = stem := by
  obtain ⟨directories, stems⟩ := Separated.append_cons_inj plain' plain same
  have catPlain : slash ∉ ascii "cat" := by decide +kernel
  obtain ⟨below, secs⟩ := Separated.append_cons_inj (List.not_mem_append catPlain other.secPlain)
    (List.not_mem_append catPlain place.secPlain) directories
  refine ⟨fun key => ?_, stems⟩
  rw [PagePlace.directory, PagePlace.directory, List.append_cancel_left below, List.append_cancel_left secs]

theorem wantedCatFile_page (tools : Decompressors) (gunzip : Bool) (compCat : Option Bytes)
    (placed : PlacedUnder config cattype item place) (cont : Uncompressed item.cont) :
    wantedCatFile (compList tools) gunzip compCat config cattype (place.page item.key) =
      .ok (some (place.catPage item.cont (stemOf (compList tools) place.file) ++ catSuffix compCat)) := by
  rw [wantedCatFile, getCatpath_page placed]
  exact convertName_plain tools gunzip compCat place.filePlain (placed.uncompressed cont)

/-- With the directory changed. An extension for cat pages has no slash. -/
theorem convertName_page (tools : Decompressors) (gunzip : Bool) (extPlain : slash ∉ catSuffix compCat)
    {top : Bytes} (uncompressed : Uncompressed (place.directory top (ascii "man"))) :
    convertName (compList tools) gunzip compCat (place.page top) true =
      .ok (some (place.catPage top (stemOf (compList tools) place.file) ++ catSuffix compCat)) := by
  have stem := scannedStem_file gunzip (compList_slashless tools) place.filePlain uncompressed
  have filePlain : slash ∉ stemOf (compList tools) place.file ++ catSuffix compCat :=
    List.not_mem_append (stemOf_slashless place.filePlain _) extPlain
  have sectionPlain := sectionName_plain place.secPlain
  have starts : ascii "man" <+: ascii "man" ++ place.sec := List.prefix_append _ _
  have named : (ascii "man" ++ place.sec).drop 3 = place.sec := rfl
  have shape : place.directory top (ascii "man") ++ slash :: stemOf (compList tools) place.file ++ catSuffix compCat =
      place.directory top (ascii "man") ++ slash :: (stemOf (compList tools) place.file ++ catSuffix compCat) :=
    List.append_assoc _ _ _
  have file := Separated.cutLast_append_cons filePlain (place.directory top (ascii "man"))
  have directory := Separated.cutLast_append_cons sectionPlain (top ++ place.dirs.flatMap (slash :: ·))
  have whole : place.directory top (ascii "man") =
      top ++ place.dirs.flatMap (slash :: ·) ++ slash :: (ascii "man" ++ place.sec) := rfl
  simp only [convertName, PagePlace.page, stem, shape, if_true, file]
  rw [whole]
  simp only [directory, if_pos starts, named]
  simp [PagePlace.catPage, PagePlace.directory]

/-- For a page that is no link `find_cat_file` takes the cat page beside it if that one is
up to date, or else the one below the cont of the item. -/
theorem findCatFile_page (tools : Decompressors) (gunzip : Bool) (extPlain : slash ∉ catSuffix compCat)
    (fs : CatFileSystem) (path : Bytes)
    (placed : PlacedUnder config (requestedCat config (place.page item.key)) item place)
    (cont : Uncompressed item.cont) :
    ∃ top, (top = item.key ∨ top = item.cont) ∧
      findCatFile fs (compList tools) gunzip compCat config path (place.page item.key) (place.page item.key) =
        .ok (some (place.catPage top (stemOf (compList tools) place.file) ++ catSuffix compCat)) := by
  have beside := convertName_page tools gunzip extPlain placed.2.1
  have elsewhere := wantedCatFile_page tools gunzip compCat placed cont
  simp only [findCatFile, beside, elsewhere, if_true, bind, Except.bind, Option.filter_some]
  split
  · rename_i catFile upToDate
    rw [Option.ite_none_right_eq_some] at upToDate
    exact ⟨item.key, Or.inl rfl, by rw [← upToDate.2]⟩
  · exact ⟨item.cont, Or.inr rfl, rfl⟩

/-- A page below the key of an item has its cat page below the cont of the item, and no
other page has it but one with another compression extension. -/
theorem catFile_of_page (tools : Decompressors) (gunzip : Bool) (compCat : Option Bytes)
    (placed : PlacedUnder config cattype item place) (cont : Uncompressed item.cont) :
    getCatpath config cattype (place.page item.key) = some (place.catPage item.cont place.file) ∧
    convertName (compList tools) gunzip compCat (place.catPage item.cont place.file) false =
      .ok (some (place.catPage item.cont (stemOf (compList tools) place.file) ++ catSuffix compCat)) ∧
    ∀ other, PlacedUnder config cattype item other →
      wantedCatFile (compList tools) gunzip compCat config cattype (other.page item.key) =
        wantedCatFile (compList tools) gunzip compCat config cattype (place.page item.key) →
      stemOf (compList tools) (other.page item.key) = stemOf (compList tools) (place.page item.key) := by
  refine ⟨getCatpath_page placed, convertName_plain tools gunzip compCat place.filePlain (placed.uncompressed cont),
    fun other placed' same => ?_⟩
  rw [wantedCatFile_page tools gunzip compCat placed cont,
    wantedCatFile_page tools gunzip compCat placed' cont] at same
  have names := List.append_cancel_right (Option.some.inj (Except.ok.inj same))
  obtain ⟨directories, stems⟩ := catPage_inj (stemOf_slashless place.filePlain _) (stemOf_slashless other.filePlain _)
    names
  rw [PagePlace.page, PagePlace.page, stemOf_directory (compList_slashless tools),
    stemOf_directory (compList_slashless tools), directories, stems]

/-- Hierarchies with "man" in their names all over. -/
def mandbItem : ConfigItem := ⟨ascii "/usr/share/man", ascii "/var/cache/man", .mandbMap⟩

def manpathPlace : PagePlace where
  dirs := [ascii "man", ascii "manuals"]
  sec := ascii "1"
  file := ascii "manpath.1.gz"
  secPlain := by decide +kernel
  filePlain := by decide +kernel

theorem catFile_of_manpath :
    getCatpath [mandbItem] systemCat (ascii "/usr/share/man/man/manuals/man1/manpath.1.gz") =
      some (ascii "/var/cache/man/man/manuals/cat1/manpath.1.gz") := by
  have placed : PlacedUnder [mandbItem] systemCat mandbItem manpathPlace :=
    ⟨by decide +kernel, by decide +kernel, [], [], rfl, by simp⟩
  have names := (catFile_of_page ⟨true, false, true, true, false, true, true⟩ true none placed (by decide +kernel)).1
  have page : manpathPlace.page mandbItem.key =
      ascii "/usr/share/man/man/manuals/man1/manpath.1.gz" := by decide +kernel
  have catPage : manpathPlace.catPage mandbItem.cont manpathPlace.file =
      ascii "/var/cache/man/man/manuals/cat1/manpath.1.gz" := by decide +kernel
  rwa [page, catPage] at names

/-- Cat pages below a directory that a compressed one could be. -/
def compressedItem : ConfigItem := ⟨ascii "/usr/share/man", ascii "/var/cache/man.Z", .mandbMap⟩

def fooPlace : PagePlace where
  dirs := []
  sec := ascii "1"
  file := ascii "foo.1"
  secPlain := by decide +kernel
  filePlain := by decide +kernel

def barPlace : PagePlace where
  dirs := []
  sec := ascii "1"
  file := ascii "bar.1"
  secPlain := by decide +kernel
  filePlain := by decide +kernel

/-- Two pages of such a hierarchy have the same cat page. -/
theorem catFile_of_compressedItem :
    (PlacedUnder [compressedItem] systemCat compressedItem fooPlace ∧
      PlacedUnder [compressedItem] systemCat compressedItem barPlace) ∧
    (wantedCatFile (compList ⟨true, false, true, true, false, true, true⟩) true none [compressedItem] systemCat
        (fooPlace.page compressedItem.key) = .ok (some (ascii "/var/cache/man")) ∧
      wantedCatFile (compList ⟨true, false, true, true, false, true, true⟩) true none [compressedItem] systemCat
        (barPlace.page compressedItem.key) = .ok (some (ascii "/var/cache/man"))) ∧
    stemOf (compList ⟨true, false, true, true, false, true, true⟩) (fooPlace.page compressedItem.key) ≠
      stemOf (compList ⟨true, false, true, true, false, true, true⟩) (barPlace.page compressedItem.key) := by
  refine ⟨⟨⟨by decide +kernel, by decide +kernel, [], [], rfl, by simp⟩,
    by decide +kernel, by decide +kernel, [], [], rfl, by simp⟩, ⟨?_, ?_⟩, by decide +kernel⟩
  · decide +kernel
  · decide +kernel

end ManDb
