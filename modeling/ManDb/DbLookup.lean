import ManDb.Dbm
import ManDb.Keys
import ManDb.Mandata

namespace ManDb

/-- The section test of `dblookup`, the same for both layouts: no section, the
section exactly, or (`STRNEQ` over its length) a prefix of the extension. -/
def sectionMatches (section? : Option Bytes) (exact : Bool) (ext : Bytes) : Bool :=
  match section? with
  | none => true
  | some section' => if exact then section' == ext else section'.isPrefixOf ext

/-- One turn of the loop over the references of an index: nothing when the part
of the multi key is not suitable, else the record it stands for. -/
def lookupRef (db : Store) (page : Bytes) (section? : Option Bytes) (exact matchCase : Bool)
    (ref : NameExt) : Except Fatal (Option Mandata) :=
  if matchCase && ref.name != page then .ok none
  else if !sectionMatches section? exact ref.ext then .ok none
  else
    let key := makeMultiKey ref.name ref.ext
    match db.fetch key with
    | none => .error (.badFetch key)
    | some multiCont => do
      let info ← splitContent multiCont
      return some { info with name := some (info.name.getD ref.name) }

/-- There are three possibilities on lookup: no data exists, one data item
exists, or many items exist and are all looked up through their multi keys. -/
def dblookup (loc : Locale) (db : Store) (page : Bytes) (section? : Option Bytes)
    (exact matchCase : Bool) : Except Fatal (List Mandata) :=
  match db.fetch (nameToKey loc page) with
  | none => .ok []
  | some cont =>
    if !isIndex cont then do
      let info ← splitContent cont
      let name := info.name.getD page
      if (!matchCase || name == page) && sectionMatches section? exact info.ext then
        return [{ info with name := some name }]
      else return []
    else do
      let found ← (listExtensions cont.tail).mapM (lookupRef db page section? exact matchCase)
      return found.reduceOption

def dblookupAll (loc : Locale) (db : Store) (page : Bytes) (section? : Option Bytes) (matchCase : Bool) :
    Except Fatal (List Mandata) :=
  dblookup loc db page section? false matchCase

def dblookupExact (loc : Locale) (db : Store) (page : Bytes) (section? : Option Bytes) (matchCase : Bool) :
    Except Fatal (Option Mandata) :=
  List.head? <$> dblookup loc db page section? true matchCase

/-- The text before the last tab, or all of it. -/
def upToLastTab (s : Bytes) : Bytes :=
  if tab ∈ s then (s.reverse.dropWhile (· != tab)).tail.reverse else s

/-- What `dblookup_pattern` asks of `regexec`, `fnmatch` and `word_fnmatch`. -/
structure PatternTest where
  name : Bytes → Bool
  whatis : Bytes → Bool

/-- One turn of the scan of `dblookup_pattern`. -/
def patternPage (db : Store) (pattern : PatternTest) (section? : Option Bytes) (tryDescriptions : Bool)
    (key : Bytes) : Except Fatal (Option Mandata) :=
  match db.fetch key with
  | none => .error (.corrupted key)
  | some cont =>
    if key.head? = some dollar then .ok none
    else if isIndex cont then .ok none
    else do
      let info ← splitContent cont
      if section?.any (fun s => s != info.sec && s != info.ext) then return none
      let name := info.name.getD (upToLastTab key)
      let gotMatch := pattern.name name || (tryDescriptions && info.whatis.any pattern.whatis)
      return if gotMatch then some { info with name := some name } else none

/-- The scan over all keys for pages whose name, or description, matches. -/
def dblookupPattern (db : Store) (pattern : PatternTest) (section? : Option Bytes)
    (tryDescriptions : Bool) : Except Fatal (List Mandata) := do
  let found ← db.keys.mapM (patternPage db pattern section? tryDescriptions)
  return found.reduceOption

end ManDb
