import ManDb.OrderFiles
import ManDb.TestManfile

namespace ManDb

/-- A byte stored into a buffer, which is the list of the bytes that are allocated for it. -/
def poke (buf : Bytes) (offset : Nat) (c : UInt8) : Option Bytes :=
  if offset < buf.length then some (buf.set offset c) else none

/-- The string at an offset of a buffer. -/
def stringAt (buf : Bytes) (offset : Nat) : Option Bytes :=
  if 0 ∈ buf.drop offset then some (cString (buf.drop offset)) else none

/-- `strrchr` of the string in a buffer, as an offset. -/
def strrchr (buf : Bytes) (c : UInt8) : Option Nat :=
  match Separated.cutLast c (cString buf) with
  | (_, none) => none
  | (before, some _) => some before.length

/-- `appendstr`, which allocates just what it needs. -/
def appendstr (buf next : Bytes) : Bytes := cString buf ++ next ++ [0]

/-- `base_name`. One trailing slash is kept. -/
def baseNameOf (file : Bytes) : Bytes :=
  let stripped := (file.reverse.dropWhile (· == slash)).reverse
  if stripped = [] then file.take 1
  else baseName stripped ++ if stripped.length < file.length then [slash] else []

/-- What `check_for_stray` asks of the system. `findName` is `find_name_decompressed` with the
path and the base name of a cat page. -/
structure StrayHost where
  tools : Decompressors
  host : Host
  compExts : host.compExts = compList tools
  gunzip : Bool
  stat : Bytes → Bool
  readdir : Bytes → Option (List Bytes)
  entries : ∀ dir names, readdir dir = some names → ∀ name ∈ names, name ≠ [] ∧ 0 ∉ name ∧ slash ∉ name
  build : OrderBuild
  lists : GlSortedList
  dirProbe : Bytes → DirectoryProbe
  probe : Bytes → Probe
  decompressOpen : Bytes → Bool
  canonicalize : Bytes → Option Bytes
  findName : Bytes → Bytes → Option Bytes

/-- The names in a cat directory but for those that start with a dot and are short, in the
order of `order_files`. -/
def StrayHost.strayNames (h : StrayHost) (catdir : Bytes) : Option (List Bytes) :=
  (h.readdir catdir).map fun names =>
    let names := names.filter fun name => !(name.head? == some period && name.length < 3)
    orderFiles h.build h.lists (h.dirProbe catdir) (names.map fun name => (name, h.probe (catdir ++ slash :: name)))

/-- The static variable `mandir`, the index, and the count of stray cats. -/
structure StrayState where
  mandir : Bytes
  db : Store
  strays : Nat

/-- What `check_for_stray` finds in the name of a cat page: the extension of its compression,
the offset of the dot in front of its extension, and the section. -/
structure StrayName where
  comp : Option Bytes
  ext : Nat
  section_ : Bytes

/-- The extension of a compression, if the name has one, is cut off. -/
def cutCompression (h : StrayHost) (mandir : Bytes) (ext : Nat) : Option (Bytes × Option Bytes) :=
  if (compInfoOfPath h.host.compExts h.gunzip ((cString mandir).drop ext)).isSome then
    (poke mandir ext 0).map fun cut => (cut, some ((cString mandir).drop (ext + 1)))
  else some (mandir, none)

/-- The section is read between the two stores of a NUL and of the slash again. -/
def readSection (lenman : Nat) (mandir : Bytes) : Option (Bytes × Bytes) := do
  let mandir ← poke mandir (lenman - 1) 0
  let section_ ← (strrchr mandir slash).bind fun last => stringAt mandir (last + 4)
  let mandir ← poke mandir (lenman - 1) slash
  some (section_, mandir)

/-- The check for bogosity. -/
def checkExtension (lenman : Nat) (mandir : Bytes) (comp : Option Bytes) : Option (Bytes × Option StrayName) :=
  let found := strrchr mandir period
  (readSection lenman mandir).bind fun (section_, mandir) =>
    match found with
    | none => some (mandir, none)
    | some ext => (stringAt mandir (ext + 1)).map fun text =>
      (mandir, if section_.isPrefixOf text then some ⟨comp, ext, section_⟩ else none)

/-- `mandir` is made the name of the page, and is taken apart; a bogus name is `none`. The
outer `none` is for a store outside of the buffer. -/
def strayName (h : StrayHost) (lenman : Nat) (name mandir : Bytes) : Option (Bytes × Option StrayName) :=
  (poke mandir lenman 0).bind fun mandir =>
    let mandir := appendstr mandir name
    match strrchr mandir period with
    | none => some (mandir, none)
    | some ext => (cutCompression h mandir ext).bind fun (mandir, comp) => checkExtension lenman mandir comp

/-- A stray cat of which the whatis text is asked for and stored; its file is `catdir`. -/
def storeStray (loc : Locale) (h : StrayHost) (catdir base : Bytes) (info : Mandata) (s : StrayState) :
    ScanRun StrayState :=
  match h.findName catdir (baseName catdir) with
  | none => ⟨[], .ok { s with strays := s.strays + 1 }⟩
  | some whatis =>
    (storeCall loc ⟨h.host, info, none, base, [catdir]⟩ (parseDescriptions (some base) (some whatis)) s.db).step
      fun db => ⟨[], .ok { s with db := db, strays := s.strays + 2 }⟩

/-- The part of the loop of `check_for_stray` for a page that is not found. -/
def filterStray (loc : Locale) (h : StrayHost) (catdir : Bytes) (found : StrayName) (s : StrayState) :
    ScanRun StrayState :=
  match poke s.mandir found.ext 0 with
  | none => ⟨[], .error .outOfBounds⟩
  | some mandir =>
    match stringAt mandir (found.ext + 1) with
    | none => ⟨[], .error .outOfBounds⟩
    | some ext =>
      let s := { s with mandir := mandir }
      let base := baseNameOf (cString mandir)
      match dblookupExact loc s.db base (some ext) true with
      | .error fatal => ⟨[], .error (.fatal fatal)⟩
      | .ok old =>
        if old.any (fun old => compareIds strayCat old.id false != .lt) then ⟨[], .ok s⟩
        else if !h.decompressOpen catdir then ⟨[], .ok s⟩
        else if (h.canonicalize catdir).isNone then ⟨[], .ok s⟩
        else storeStray loc h catdir base
          { name := none, ext := ext, sec := found.section_, id := strayCat, pointer := none, comp := found.comp,
            filter := some [dash], whatis := none, mtime := ⟨0, 0⟩ } s

/-- A turn of the loop of `check_for_stray`. -/
def strayTurn (loc : Locale) (h : StrayHost) (catdir : Bytes) (lenman : Nat) (name : Bytes) (s : StrayState) :
    ScanRun StrayState :=
  match strayName h lenman name s.mandir with
  | none => ⟨[], .error .outOfBounds⟩
  | some (mandir, none) => ⟨[], .ok { s with mandir := mandir }⟩
  | some (mandir, some found) =>
    let s := { s with mandir := mandir }
    if h.stat (cString mandir) || (compFile h.host.compExts h.stat (cString mandir)).isSome then ⟨[], .ok s⟩
    else filterStray loc h (catdir ++ name) found s

/-- `check_for_stray`. -/
def checkForStray (loc : Locale) (h : StrayHost) (catdir : Bytes) (s : StrayState) : ScanRun StrayState :=
  match h.strayNames catdir with
  | none => ⟨[], .ok s⟩
  | some names =>
    let mandir := appendstr s.mandir [slash]
    names.foldl (fun run name => run.step (strayTurn loc h (catdir ++ [slash]) (cString mandir).length name))
      ⟨[], .ok { s with mandir := mandir }⟩

/-- The directory of the manual that belongs to a cat directory. -/
def openMandir (manlen : Nat) (mandir name : Bytes) : Option Bytes :=
  (poke (appendstr mandir name) manlen 109).bind fun mandir => poke mandir (manlen + 2) 110

/-- A turn of the loop of `open_catdir`. -/
def catdirTurn (loc : Locale) (h : StrayHost) (catdir : Bytes) (manlen : Nat) (name : Bytes) (s : StrayState) :
    ScanRun StrayState :=
  if !(ascii "cat").isPrefixOf name then ⟨[], .ok s⟩
  else
    match openMandir manlen s.mandir name with
    | none => ⟨[], .error .outOfBounds⟩
    | some mandir =>
      (checkForStray loc h (catdir ++ name) { s with mandir := mandir }).step fun s =>
        match poke s.mandir manlen 0 with
        | none => ⟨[], .error .outOfBounds⟩
        | some mandir => ⟨[], .ok { s with mandir := mandir }⟩

/-- `open_catdir`. -/
def openCatdir (loc : Locale) (h : StrayHost) (catdir : Bytes) (s : StrayState) : ScanRun StrayState :=
  match h.readdir catdir with
  | none => ⟨[], .ok s⟩
  | some names =>
    let mandir := appendstr s.mandir [slash]
    names.foldl (fun run name => run.step (catdirTurn loc h (catdir ++ [slash]) (cString mandir).length name))
      ⟨[], .ok { s with mandir := mandir }⟩

/-- `straycats`: in the usual catpath location and in the alternate one. -/
def straycats (loc : Locale) (h : StrayHost) (manpath : Bytes) (catpath : Option Bytes) (db : Store) :
    ScanRun StrayState :=
  (openCatdir loc h manpath ⟨appendstr [0] manpath, db, 0⟩).step fun s =>
    match catpath with
    | none => ⟨[], .ok s⟩
    | some catpath =>
      if catpath = manpath then ⟨[], .ok s⟩
      else
        match poke s.mandir 0 0 with
        | none => ⟨[], .error .outOfBounds⟩
        | some mandir => openCatdir loc h catpath { s with mandir := appendstr mandir manpath }

end ManDb
