import ManDb.Lib.Threads
import ManDb.Mandata

namespace ManDb.CatCache

open Threads

variable {ι Content Setting Text : Type}

/-- A manual page as it has been installed. -/
structure Page (Content : Type) where
  content : Content
  mtime : Timespec

/-- A cat file: what has been written to it as a whole, and its modification time. -/
structure CatFile (Text : Type) where
  text : Option Text
  mtime : Timespec

/-- A page and its cat file, with the runs of `man` that are `ι`. `pages` are all that have been installed so far,
`written` the times at which cat files have been written, `shown` what has been displayed; a run is `reading` a
page and has `made` a file. `raced` tells whether anything has happened at a time when it must not. -/
structure World (ι Content Text : Type) where
  page : Page Content
  cat : Option Nat
  file : Nat → CatFile Text
  fresh : Nat
  pages : List (Page Content)
  written : List Timespec
  shown : List Text
  reading : ι → Option (Page Content)
  made : ι → Option Nat
  raced : Bool

/-- What `is_changed` looks at. -/
structure FileStat where
  empty : Bool
  mtime : Timespec

def isChanged : Option FileStat → Option FileStat → Int
  | none, none => -3
  | none, some _ => -1
  | some _, none => -2
  | some fa, some fb =>
    (if fa.empty then 2 else 0) + (if fb.empty then 4 else 0) + (if timespecCmp fa.mtime fb.mtime ≠ .eq then 1 else 0)

/-- `format`, from what `is_changed` has returned. -/
def outOfDate (status : Int) : Bool := status = -2 || status % 2 = 1

inductive Call (Text : Type) where
  | openPage
  | modtime
  | statPage
  | statCat
  | isDirectory
  | access
  | mkstemp
  | pump (file : Nat) (text : Text)
  | chown (file : Nat)
  | chmod (file : Nat)
  | rename (file : Nat)
  | utimens (mtime : Timespec)
  | unlink (file : Nat)
  | openCat
  | display (text : Text)

abbrev Answer (Content Text : Type) : Call Text → Type
  | .openPage => Option Content
  | .modtime => Timespec
  | .statPage | .statCat => Option FileStat
  | .isDirectory | .access | .pump _ _ | .chown _ | .chmod _ | .rename _ | .utimens _ => Bool
  | .mkstemp => Option Nat
  | .openCat => Option Text
  | .unlink _ | .display _ => Unit

abbrev Code (Content Text : Type) := Program (Call Text) (Answer Content Text)

def call (c : Call Text) : Code Content Text (Answer Content Text c) := .perform c

/-- How a run formats the page, whether it is to save the cat, and what `save_cat` was before. -/
structure Request (Content Setting : Type) where
  setting : Setting
  saves : Content → Bool
  saveCat : Bool
  disabled : Bool
  hasCatFile : Bool
  catman : Bool
  chowns : Bool

section Code

/-- The owner of the temporary cat, for a global hierarchy. -/
def chownTmpCat (chowns : Bool) (file : Nat) : Code Content Text Bool :=
  if chowns then call (.chown file) else return true

/-- If delete unlink the temporary cat, else commit it. -/
def commitTmpCat (chowns : Bool) (file : Nat) (modtime : Timespec) (delete : Bool) : Code Content Text Unit :=
  if delete then call (.unlink file)
  else do
    let ok ← chownTmpCat chowns file
    if !ok then call (.unlink file)
    else do
      let ok ← call (.chmod file)
      if !ok then call (.unlink file)
      else do
        let ok ← call (.rename file)
        if !ok then call (.unlink file)
        else do
          let ok ← call (.utimens modtime)
          if !ok then call (.unlink file) else return ()

variable (format : Setting → Content → Text) (r : Request Content Setting)

/-- `format_display_and_save`, or `display_catman` where nothing is displayed. -/
def formatAndSave (content : Content) (modtime : Timespec) : Code Content Text Unit := do
  match ← call .mkstemp with
  | none => if r.catman then return () else call (.display (format r.setting content))
  | some file => do
    let ok ← call (.pump file (format r.setting content))
    if r.catman then commitTmpCat r.chowns file modtime (!ok)
    else do
      call (.display (format r.setting content))
      commitTmpCat r.chowns file modtime (!ok)

/-- What `display` does when the page is to be formatted. -/
def displayPage (content : Option Content) (modtime : Timespec) (saveCat : Bool) : Code Content Text Unit :=
  match content with
  | none => return ()
  | some content => do
    let found ← call .access
    if !found then return ()
    else if saveCat then formatAndSave format r content modtime
    else if r.catman then return ()
    else call (.display (format r.setting content))

/-- What `display` does with a cat that is up to date. -/
def displayCat : Code Content Text Unit := do
  let found ← call .access
  if !found || r.catman then return ()
  else
    match ← call .openCat with
    | none => return ()
    | some text => call (.display text)

def display : Code Content Text Unit := do
  let content ← call .openPage
  let modtime ← call .modtime
  let saveCat := (content.elim r.saveCat r.saves) && !r.disabled
  if !(r.hasCatFile && saveCat) then displayPage format r content modtime false
  else do
    let man ← call .statPage
    let cat ← call .statCat
    let saveCat ← call .isDirectory
    if outOfDate (isChanged man cat) then displayPage format r content modtime saveCat else displayCat r

end Code

namespace World

/-- The page is installed anew. -/
def install (page : Page Content) (w : World ι Content Text) : World ι Content Text :=
  { w with page, pages := page :: w.pages }

def setFile (file : Nat) (cat : CatFile Text) (w : World ι Content Text) : World ι Content Text :=
  { w with file := Function.update w.file file cat }

@[simp] theorem setFile_self {file : Nat} {cat : CatFile Text} {w : World ι Content Text} :
    (w.setFile file cat).file file = cat := Function.update_self ..

theorem setFile_of_ne {file other : Nat} {cat : CatFile Text} {w : World ι Content Text} (different : other ≠ file) :
    (w.setFile file cat).file other = w.file other := Function.update_of_ne different ..

/-- A cat has been written at this time. -/
def record (mtime : Timespec) (w : World ι Content Text) : World ι Content Text :=
  { w with written := mtime :: w.written }

def link (file : Nat) (w : World ι Content Text) : World ι Content Text := { w with cat := some file }

def display (text : Text) (w : World ι Content Text) : World ι Content Text := { w with shown := text :: w.shown }

def race (w : World ι Content Text) : World ι Content Text := { w with raced := true }

/-- Modification times tell the page from what was installed before, and from cats that have just been written. -/
def Timely (page : Page Content) (w : World ι Content Text) : Prop :=
  (∀ old ∈ w.pages, old.mtime = page.mtime → old.content = page.content) ∧ page.mtime ∉ w.written

variable [DecidableEq ι]

def read (i : ι) (w : World ι Content Text) : World ι Content Text :=
  { w with reading := Function.update w.reading i (some w.page) }

def make (i : ι) (cat : CatFile Text) (w : World ι Content Text) : World ι Content Text :=
  { w with
    file := Function.update w.file w.fresh cat
    fresh := w.fresh + 1
    made := Function.update w.made i (some w.fresh) }

end World

/-- What a call of a run does; any call may fail. A page is opened, and later on its modification time is asked for:
that it is another one by then is a race, and so it is that the times of another cat are set. -/
inductive Does [DecidableEq ι] (i : ι) :
    (c : Call Text) → World ι Content Text → Answer Content Text c → World ι Content Text → Prop
  | opened {w} : Does i .openPage w (some w.page.content) (w.read i)
  | unopened {w} : Does i .openPage w none w
  | modtime {w} (same : w.reading i = some w.page) : Does i .modtime w w.page.mtime w
  | modtimeRaced {w mtime} (other : w.reading i ≠ some w.page ∨ mtime ≠ w.page.mtime) : Does i .modtime w mtime w.race
  | statPage {w empty} : Does i .statPage w (some ⟨empty, w.page.mtime⟩) w
  | unstatPage {w} : Does i .statPage w none w
  | statCat {w n empty} (there : w.cat = some n) : Does i .statCat w (some ⟨empty, (w.file n).mtime⟩) w
  | unstatCat {w} : Does i .statCat w none w
  | isDirectory {w} {yes : Bool} : Does i .isDirectory w yes w
  | access {w} {yes : Bool} : Does i .access w yes w
  | made {w cat} : Does i .mkstemp w (some w.fresh) (w.make i cat)
  | unmade {w} : Does i .mkstemp w none w
  | pumped {w file text mtime} (timely : ∀ page ∈ w.pages, page.mtime ≠ mtime) :
      Does i (.pump file text) w true ((w.setFile file ⟨some text, mtime⟩).record mtime)
  | pumpedRaced {w file text mtime} (clash : ∃ page ∈ w.pages, page.mtime = mtime) :
      Does i (.pump file text) w true ((w.setFile file ⟨some text, mtime⟩).record mtime).race
  | unpumped {w file text part} : Does i (.pump file text) w false (w.setFile file part)
  | chown {w file} {ok : Bool} : Does i (.chown file) w ok w
  | chmod {w file} {ok : Bool} : Does i (.chmod file) w ok w
  | renamed {w file} : Does i (.rename file) w true (w.link file)
  | unrenamed {w file} : Does i (.rename file) w false w
  | utimens {w n mtime} (there : w.cat = some n) (own : w.made i = some n) :
      Does i (.utimens mtime) w true (w.setFile n ⟨(w.file n).text, mtime⟩)
  | utimensRaced {w n mtime} (there : w.cat = some n) (other : w.made i ≠ some n) :
      Does i (.utimens mtime) w true (w.setFile n ⟨(w.file n).text, mtime⟩).race
  | unutimens {w mtime} : Does i (.utimens mtime) w false w
  | unlink {w file} : Does i (.unlink file) w () w
  | openCat {w n text} (there : w.cat = some n) (whole : (w.file n).text = some text) : Does i .openCat w (some text) w
  | openCatPart {w n} (there : w.cat = some n) (part : (w.file n).text = none) : Does i .openCat w none w
  | unopenCat {w} : Does i .openCat w none w
  | display {w text} : Does i (.display text) w () (w.display text)

/-- A page is installed in the place of the one before. -/
inductive Installs (w : World ι Content Text) : World ι Content Text → Prop
  | timely {page} (timely : w.Timely page) : Installs w (w.install page)
  | raced {page} (clash : ¬w.Timely page) : Installs w (w.install page).race

end ManDb.CatCache
