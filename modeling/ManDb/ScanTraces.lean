import ManDb.StrayTraces

namespace ManDb

/-- What a run of `mandb` does to an index: a page is tested, or the stray cats of a hierarchy
are looked for, with the system as it is then. -/
inductive ScanEvent where
  | testManfile (h : PageHost) (optTest : Bool) (file path : Bytes)
  | straycats (h : StrayHost) (manpath : Bytes) (nulFree : 0 ∉ manpath) (catpath : Option Bytes)

/-- One event. `check_for_stray` has no use for the caches of `test_manfile`. -/
def scanEvent (loc : Locale) (event : ScanEvent) (s : PageState) : ScanRun PageState :=
  match event with
  | .testManfile h optTest file path => testManfile loc h optTest file path s
  | .straycats h manpath _ catpath =>
    (straycats loc h manpath catpath s.db).step fun found => ⟨[], .ok { s with db := found.db }⟩

/-- The state of `test_manfile` before its first call. -/
def PageState.start (db : Store) : PageState := ⟨db, fun _ => none, fun _ => none, 0⟩

/-- A whole run, from some index. -/
def scan (loc : Locale) (events : List ScanEvent) (db : Store) : ScanRun PageState :=
  events.foldl (fun run event => run.step (scanEvent loc event)) ⟨[], .ok (.start db)⟩

/-- No name in a cat directory of the hierarchy is misread, in either location. Nothing is
asked of the pages that are tested. -/
def ScanEvent.ReadRight : ScanEvent → Prop
  | .testManfile .. => True
  | .straycats h manpath _ catpath =>
    ManDb.ReadRight h manpath manpath ∧ ∀ catpath' ∈ catpath, ManDb.ReadRight h manpath catpath'

/-- Every call of `store_descriptions` has a file of its section and extension in its trace,
and no assertion fails and nothing is stored outside of a buffer. -/
def PointerPages (run : ScanRun PageState) : Prop :=
  (∀ r ∈ run.calls, r.Traced ∧ r.pointerInfo ≠ none) ∧ run.state ≠ .error .assertion ∧ run.state ≠ .error .outOfBounds

variable {loc : Locale} {event : ScanEvent} {events : List ScanEvent} {s : PageState} {db : Store}

theorem scanEvent_sound (right : event.ReadRight) (cache : CacheTraced s.ultCache) :
    (scanEvent loc event s).Sound fun s => CacheTraced s.ultCache := by
  cases event with
  | testManfile h optTest file path => exact testManfile_sound cache
  | straycats h manpath nulFree catpath =>
    exact (straycats_sound nulFree right.1 right.2).step fun _ _ => .pure cache

theorem scan_sound (right : ∀ event ∈ events, event.ReadRight) (db : Store) :
    (scan loc events db).Sound fun s => CacheTraced s.ultCache := by
  have start : ScanRun.Sound ⟨[], .ok (PageState.start db)⟩ fun s => CacheTraced s.ultCache := .pure nofun
  exact start.foldl fun event member s cache => scanEvent_sound (right event member) cache

/-- Every run in which no name of a cat page is misread passes a trace with a pointer page. -/
theorem scan_pointerPages (loc : Locale) (events : List ScanEvent) (db : Store)
    (right : ∀ event ∈ events, event.ReadRight) : PointerPages (scan loc events db) := by
  have sound : (scan loc events db).Sound fun s => CacheTraced s.ultCache := scan_sound right db
  exact ⟨fun r member => ⟨sound.traced r member, (sound.traced r member).pointerInfo⟩, sound.stop.2, sound.stop.1⟩

/-- The hierarchy /usr/share/man.1 with a single cat page, in cat1. -/
def dottedTree (page : Bytes) (proper : page ≠ [] ∧ 0 ∉ page ∧ slash ∉ page) : StrayHost where
  tools := ⟨true, false, false, false, false, false, false⟩
  host := ⟨compList ⟨true, false, false, false, false, false, false⟩, fun _ => none, fun _ => false⟩
  compExts := rfl
  gunzip := true
  stat _ := false
  readdir dir :=
    if dir = ascii "/usr/share/man.1" then some [ascii "cat1"]
    else if dir = ascii "/usr/share/man.1/cat1" then some [page]
    else none
  entries := by
    intro dir names read name member
    split at read
    · obtain rfl := Option.some.inj read
      rw [List.mem_singleton.mp member]
      decide
    · split at read
      · obtain rfl := Option.some.inj read
        exact List.mem_singleton.mp member ▸ proper
      · cases read
  build := .neither
  lists := insertionList
  dirProbe _ := ⟨true, true⟩
  probe _ := .opened none
  decompressOpen _ := true
  canonicalize := some
  findName _ _ := some (ascii "foo - does things")

/-- The event of `straycats` on that hierarchy. -/
def dottedScan (page : Bytes) (proper : page ≠ [] ∧ 0 ∉ page ∧ slash ∉ page) : ScanEvent :=
  .straycats (dottedTree page proper) (ascii "/usr/share/man.1") (by decide) none

/-- foo.1 is not misread. -/
theorem dottedScan_readRight : (dottedScan (ascii "foo.1") (by decide)).ReadRight := by
  refine ⟨fun dirs section_ names name listed isDir read member => ?_, nofun⟩
  obtain rfl : dirs = [ascii "cat1"] := Option.some.inj (listed.symm.trans (by decide))
  have whole : ascii "cat" ++ section_ = ascii "cat" ++ ascii "1" := List.mem_singleton.mp isDir
  obtain rfl := List.append_cancel_left whole
  obtain rfl : names = [ascii "foo.1"] := Option.some.inj (read.symm.trans (by decide +kernel))
  rw [List.mem_singleton.mp member]
  rintro (⟨dotless, _⟩ | ⟨dotless, _⟩ | ⟨noSection, _⟩)
  · exact dotless (by decide +kernel)
  · exact dotless (by decide)
  · exact absurd noSection (by decide)

theorem scan_pointerPages_dotted :
    (scan .posix [dottedScan (ascii "foo.1") (by decide)] ∅).calls ≠ [] ∧
      PointerPages (scan .posix [dottedScan (ascii "foo.1") (by decide)] ∅) := by
  refine ⟨?_, scan_pointerPages .posix _ ∅ fun event member => ?_⟩
  · have called : (scan .posix [dottedScan (ascii "foo.1") (by decide)] ∅).calls.isEmpty = false := by decide +kernel
    exact fun none => by simp [none] at called
  · rw [List.mem_singleton.mp member]
    exact dottedScan_readRight

/-- The dot of man.1 is taken for that of the page foo, which is stored as man(1/man1/foo). -/
theorem scan_dotted :
    (∃ r ∈ (scan .posix [dottedScan (ascii "foo") (by decide)] ∅).calls, ¬r.Traced) ∧
      (scan .posix [dottedScan (ascii "foo") (by decide)] ∅).state = .error .assertion := by
  constructor
  · have rejected : (scan .posix [dottedScan (ascii "foo") (by decide)] ∅).calls.any (fun r =>
        r.trace.all fun file => (r.traceInfo file).isNone) = true := by decide +kernel
    obtain ⟨r, member, all⟩ := List.any_eq_true.mp rejected
    refine ⟨r, member, StoreRequest.untraced fun file inTrace => ?_⟩
    exact Option.isNone_iff_eq_none.mp (List.all_eq_true.mp all file inTrace)
  · have stops : (match (scan .posix [dottedScan (ascii "foo") (by decide)] ∅).state with
        | .error stop => some stop
        | .ok _ => none) = some .assertion := by decide +kernel
    split at stops
    · rename_i stop same
      rw [same, Option.some.inj stops]
    · cases stops

end ManDb
