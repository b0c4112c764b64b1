import ManDb.DbDelete
import ManDb.DbLookup
import ManDb.Descriptions
import ManDb.PageKind
import ManDb.UltSource

namespace ManDb

/-- Why a scan ends before its time: it stores outside of a buffer, an assertion fails, or a
routine of the index ends the process. -/
inductive ScanStop where
  | outOfBounds
  | assertion
  | fatal (fatal : Fatal)
  deriving DecidableEq

/-- How far a scan got: the calls of `store_descriptions` that it has made, and its state. -/
structure ScanRun (σ : Type) where
  calls : List StoreRequest
  state : Except ScanStop σ

/-- The next step of a scan, which makes more calls, unless it has ended. -/
def ScanRun.step {σ τ : Type} (run : ScanRun σ) (next : σ → ScanRun τ) : ScanRun τ :=
  match run.state with
  | .error stop => ⟨run.calls, .error stop⟩
  | .ok s => ⟨run.calls ++ (next s).calls, (next s).state⟩

/-- A call of `store_descriptions`. -/
def storeCall (loc : Locale) (r : StoreRequest) (descs : List PageDescription) (db : Store) : ScanRun Store :=
  ⟨[r], match storeDescriptions loc r descs db with
    | none => .error .assertion
    | some run => run.db.mapError .fatal⟩

/-- Some file of the trace is accepted with the section and the extension of the page. -/
def StoreRequest.Traced (r : StoreRequest) : Prop :=
  ∃ file ∈ r.trace, ∃ info, r.traceInfo file = some info ∧ info.sec = r.info.sec ∧ info.ext = r.info.ext

/-- What a scan promises: every call has a file of its own section and extension in its
trace, no assertion fails, and its state is as it should be. -/
structure ScanRun.Sound {σ : Type} (run : ScanRun σ) (inv : σ → Prop) : Prop where
  traced : ∀ r ∈ run.calls, r.Traced
  stop : run.state ≠ .error .outOfBounds ∧ run.state ≠ .error .assertion
  state : ∀ s, run.state = .ok s → inv s

/-- What `lstat` says of a file that is scanned. -/
structure PageStat where
  mtime : Timespec
  size : Nat
  link : LinkStat

/-- What `test_manfile` asks of the system; `findName` is `find_name` with the path and the
base name of a page, for the whatis text and the filters. -/
structure PageHost where
  host : Host
  gunzip : Bool
  links : LinkHost
  lstat : Bytes → PageStat
  findName : Bytes → Bytes → Option Bytes × Option Bytes

/-- What `test_manfile` keeps between its calls: the index, the caches, and the count of the
pages seen. -/
structure PageState where
  db : Store
  ultCache : UltCache
  whatisMap : Bytes → Option (Option Bytes × Option Bytes)
  pages : Nat

/-- The part of `test_manfile` that stores what the page describes. -/
def storePage (loc : Locale) (h : PageHost) (optTest : Bool) (s : PageState) (file path base : Bytes)
    (info : Mandata) (ult : UltValue) : ScanRun PageState :=
  let id := testManfileId h.host.compExts h.gunzip file ult.path
  let whatis := (s.whatisMap ult.path).getD (h.findName ult.path (baseName file))
  let s := { s with
    pages := s.pages + 1
    whatisMap := Function.update s.whatisMap ult.path (some whatis) }
  let info := { info with id := id, pointer := none, filter := whatis.2 }
  match whatis.1 with
  | none => ⟨[], .ok s⟩
  | some text =>
    if optTest then ⟨[], .ok s⟩
    else
      (storeCall loc ⟨h.host, info, some path, base, ult.trace⟩ (parseDescriptions (some base) (some text)) s.db).step
        fun db => ⟨[], .ok { s with db := db }⟩

/-- The part of `test_manfile` that traces the page to its ultimate source. -/
def tracePage (loc : Locale) (h : PageHost) (optTest : Bool) (s : PageState) (file path base : Bytes)
    (info : Mandata) : ScanRun PageState :=
  match ultSrcCached h.links s.ultCache file path (some (h.lstat file).link) ⟨true, true, true⟩ with
  | (none, ultCache) => ⟨[], .ok { s with ultCache := ultCache }⟩
  | (some ult, ultCache) => storePage loc h optTest { s with ultCache := ultCache } file path base info ult

/-- `test_manfile`. -/
def testManfile (loc : Locale) (h : PageHost) (optTest : Bool) (file path : Bytes) (s : PageState) :
    ScanRun PageState :=
  match filenameInfo h.host.compExts file with
  | none => ⟨[], .ok s⟩
  | some found =>
    let base := found.name.getD []
    let info := { found with name := none, mtime := (h.lstat file).mtime }
    if (h.lstat file).size = 0 then ⟨[], .ok s⟩
    else
      match dblookupExact loc s.db base (some info.ext) true with
      | .error fatal => ⟨[], .error (.fatal fatal)⟩
      | .ok none => tracePage loc h optTest s file path base info
      | .ok (some old) =>
        -- two pages that only differ by compression extension
        if old.comp.getD [dash] ≠ info.comp.getD [dash] then
          match makeFilename h.host.canAccess path (old.name.getD []) old (ascii "man") with
          | some _ => ⟨[], .ok s⟩
          | none =>
            if optTest then tracePage loc h optTest s file path base info
            else
              match dbdelete loc s.db base old with
              | .error fatal => ⟨[], .error (.fatal fatal)⟩
              | .ok (_, db) => tracePage loc h optTest { s with db := db } file path base info
        else tracePage loc h optTest s file path base info

variable {loc : Locale} {σ τ : Type} {inv : σ → Prop} {inv' : τ → Prop} {run : ScanRun σ} {next : σ → ScanRun τ}
  {r : StoreRequest} {descs : List PageDescription} {db : Store} {h : PageHost} {optTest : Bool} {s : PageState}
  {file path base : Bytes} {info : Mandata} {ult : UltValue}

theorem ScanRun.Sound.pure {s : σ} (good : inv s) : ScanRun.Sound ⟨[], .ok s⟩ inv :=
  ⟨nofun, ⟨nofun, nofun⟩, fun _ same => Except.ok.inj same ▸ good⟩

theorem ScanRun.Sound.fatal (fatal : Fatal) : ScanRun.Sound (⟨[], .error (.fatal fatal)⟩ : ScanRun σ) inv :=
  ⟨nofun, ⟨nofun, nofun⟩, nofun⟩

theorem ScanRun.Sound.step (sound : run.Sound inv) (each : ∀ s, inv s → (next s).Sound inv') :
    (run.step next).Sound inv' := by
  obtain ⟨calls, state⟩ := run
  cases state with
  | error stop => exact ⟨sound.traced, ⟨by simpa [ScanRun.step] using sound.stop.1,
      by simpa [ScanRun.step] using sound.stop.2⟩, nofun⟩
  | ok s =>
    have after := each s (sound.state s rfl)
    refine ⟨fun r member => ?_, after.stop, after.state⟩
    rcases List.mem_append.mp member with old | new
    · exact sound.traced r old
    · exact after.traced r new

theorem ScanRun.Sound.mono {inv'' : σ → Prop} (sound : run.Sound inv) (weaker : ∀ s, inv s → inv'' s) : run.Sound inv'' :=
  ⟨sound.traced, sound.stop, fun s same => weaker s (sound.state s same)⟩

/-- What each step keeps a loop keeps. -/
theorem ScanRun.Sound.foldl {α : Type} {xs : List α} {body : α → σ → ScanRun σ} (sound : run.Sound inv)
    (each : ∀ x ∈ xs, ∀ s, inv s → (body x s).Sound inv) :
    (xs.foldl (fun run x => run.step (body x)) run).Sound inv := by
  induction xs generalizing run with
  | nil => exact sound
  | cons x xs ih =>
    exact ih (sound.step (each x List.mem_cons_self)) fun y member => each y (List.mem_cons_of_mem x member)

/-- A pointer that has been found is given up for another one only. -/
theorem pointer_kept (r : StoreRequest) (files : List Bytes) {pointerInfo : Option Mandata}
    (found : pointerInfo ≠ none ∨ ∃ file ∈ files, ∃ info, r.traceInfo file = some info ∧ info.sec = r.info.sec ∧
      info.ext = r.info.ext) :
    files.foldl (fun pointerInfo traceName =>
      match r.traceInfo traceName with
      | none => pointerInfo
      | some traceInfo =>
        if traceInfo.sec = r.info.sec ∧ traceInfo.ext = r.info.ext then some traceInfo else pointerInfo)
      pointerInfo ≠ none := by
  induction files generalizing pointerInfo with
  | nil => exact found.resolve_right fun ⟨_, member, _⟩ => List.not_mem_nil member
  | cons file files ih =>
    rw [List.foldl_cons]
    refine ih ?_
    rcases found with old | ⟨later, member, info, parsed, sec, ext⟩
    · refine Or.inl ?_
      split
      · exact old
      · split
        · exact Option.some_ne_none _
        · exact old
    · rcases List.mem_cons.mp member with rfl | after
      · exact Or.inl (by simp [parsed, sec, ext])
      · exact Or.inr ⟨later, after, info, parsed, sec, ext⟩

/-- The assertion holds where the trace has such a file. -/
theorem StoreRequest.Traced.pointerInfo (traced : r.Traced) : r.pointerInfo ≠ none :=
  pointer_kept r r.trace (Or.inr traced)

theorem StoreRequest.untraced (rejected : ∀ file ∈ r.trace, r.traceInfo file = none) : ¬r.Traced := by
  rintro ⟨file, member, info, accepted, _⟩
  rw [rejected file member] at accepted
  cases accepted

theorem storeCall_sound (traced : r.Traced) (descs : List PageDescription) (db : Store) :
    (storeCall loc r descs db).Sound fun _ => True := by
  have stored : storeDescriptions loc r descs db ≠ none := by
    have nonempty : r.trace ≠ [] := by
      obtain ⟨file, member, _⟩ := traced
      exact List.ne_nil_of_mem member
    unfold storeDescriptions
    rw [if_neg nonempty]
    simp only
    split
    · exact Option.some_ne_none _
    · rw [Ne, Option.map_eq_none_iff]
      exact traced.pointerInfo
  refine ⟨fun other member => List.mem_singleton.mp member ▸ traced, ?_, fun _ _ => trivial⟩
  obtain ⟨run, same⟩ := Option.ne_none_iff_exists'.mp stored
  simp only [storeCall, same]
  cases run.db <;> exact ⟨nofun, nofun⟩

/-- The trace of a page starts with the page itself. -/
theorem storePage_sound (starts : ∃ rest, ult.trace = file :: rest) (cache : CacheTraced s.ultCache)
    (parsed : ∃ found, filenameInfo h.host.compExts file = some found ∧ found.sec = info.sec ∧ found.ext = info.ext) :
    (storePage loc h optTest s file path base info ult).Sound fun s => CacheTraced s.ultCache := by
  unfold storePage
  dsimp only
  split
  · exact .pure cache
  · split
    · exact .pure cache
    · obtain ⟨rest, starts⟩ := starts
      have member : file ∈ ult.trace := by
        rw [starts]
        exact List.mem_cons_self
      have traced : ∀ r : StoreRequest, r.trace = ult.trace → r.host = h.host → r.info.sec = info.sec →
          r.info.ext = info.ext → r.Traced := by
        intro r trace host sec ext
        obtain ⟨found, accepted, sameSec, sameExt⟩ := parsed
        refine ⟨file, trace ▸ member, found, ?_, sameSec.trans sec.symm, sameExt.trans ext.symm⟩
        rw [StoreRequest.traceInfo, host, accepted]
      exact (storeCall_sound (traced _ rfl rfl rfl rfl) _ _).step fun db _ => .pure cache

theorem tracePage_sound (cache : CacheTraced s.ultCache)
    (parsed : ∃ found, filenameInfo h.host.compExts file = some found ∧ found.sec = info.sec ∧ found.ext = info.ext) :
    (tracePage loc h optTest s file path base info).Sound fun s => CacheTraced s.ultCache := by
  unfold tracePage
  split
  · rename_i ultCache found
    exact .pure (ultSrcCached_trace cache found).2
  · rename_i ult ultCache found
    have traced := ultSrcCached_trace cache found
    exact storePage_sound (traced.1 ult rfl) traced.2 parsed

/-- Every call that `test_manfile` makes has the page in its trace. -/
theorem testManfile_sound (cache : CacheTraced s.ultCache) :
    (testManfile loc h optTest file path s).Sound fun s => CacheTraced s.ultCache := by
  unfold testManfile
  split
  · exact .pure cache
  · rename_i found parsed
    have own : ∃ info, filenameInfo h.host.compExts file = some info ∧ info.sec = found.sec ∧ info.ext = found.ext :=
      ⟨found, parsed, rfl, rfl⟩
    dsimp only
    split
    · exact .pure cache
    · split
      · exact .fatal _
      · exact tracePage_sound cache own
      · split
        · split
          · exact .pure cache
          · split
            · exact tracePage_sound cache own
            · split
              · exact .fatal _
              · exact tracePage_sound cache own
        · exact tracePage_sound cache own

end ManDb
