import ManDb.Incremental.Outlines

namespace ManDb.Incremental

open Threads

variable {ι : Type} [DecidableEq ι] {i : ι} {w v : World ι} {db : Database} {create : Bool} {last : Timespec}
  {name : Bytes} {names : List Bytes} {build : OrderBuild} {lists : GlSortedList} {options : Publication.Options}

theorem lines_addDirEntries :
    Lines i (Place last false i) (addDirEntries build lists name) fun _ => Place last false i := by
  let read (answer : Option (List Bytes)) (w : World ι) : Prop :=
    Place last false i w ∧ ∀ entries, answer = some entries → Read name entries i w
  have stable (answer : Option (List Bytes)) : (rules i).Stable (read answer) :=
    stable_place.and fun w v kept kept' foreign holds entries same => stable_read w v kept kept' foreign
      (holds entries same)
  refine .bind (.perform read stable_place stable fun w answer v kept place does => ?_) fun answer => ?_
  · cases does with
    | dirRead there =>
      refine ⟨kept, (Allowed.refl kept).2, place, fun entries same dir there' => Or.inl ?_⟩
      obtain rfl := Option.some.inj same
      obtain rfl := Option.some.inj (there.symm.trans there')
      exact fun _ => id
    | dirUnread => exact ⟨kept, (Allowed.refl kept).2, place, fun _ none => by cases none⟩
  cases answer with
  | none => exact lines_pure (stable none) fun _ holds => holds.1
  | some entries =>
    let names := entries.filter fun entry => !isDots entry
    let probed (answer : DirectoryProbe × (Bytes → Probe)) (w : World ι) : Prop :=
      (Place last false i w ∧ Read name entries i w) ∧
        Seen name names (orderFiles build lists answer.1 (names.map fun page => (page, answer.2 page))) i w
    refine .bind (.perform probed (stable _) (fun _ => (stable_place.and stable_read).and stable_seen)
      fun w answer v kept ⟨place, read⟩ does => ?_) fun ⟨dir, probe⟩ => ?_
    · cases does with
      | @probed _ _ _ dir probe =>
        obtain ⟨kept', foreign⟩ := allowed_changeTmp (i := i) kept fun db (past : Past w.clock db) =>
          (⟨past.mtime, past.visits⟩ : Past w.clock { db with unopened :=
            (names.filter fun page => (openedName (page, probe page)).isNone).map (name, ·) ++ db.unopened })
        refine ⟨kept', foreign, ⟨place.changeTmp fun db => ⟨fun _ => id, fun _ => List.mem_append_right _, fun _ => id⟩,
          read entries rfl⟩, fun db there page member => ?_⟩
        obtain ⟨old, _, rfl⟩ := changeTmp_some there
        refine (mem_orderFiles_or_unopened member).imp_right fun unopened => Or.inr (List.mem_append_left _ ?_)
        exact List.mem_map.mpr ⟨page, List.mem_filter.mpr ⟨member, by rw [unopened]; rfl⟩, rfl⟩
    · refine .bind (lines_testFiles _) fun _ => lines_note.weaken fun w _ ⟨⟨place, read⟩, seen⟩ =>
        ⟨place, read.settled seen⟩

theorem lines_openFor :
    Lines i (Place last create i) (openFor create) fun opened w =>
      match opened with
      | .ok () => Place last false i w
      | .error _ => Accounted i w := by
  cases create with
  | true =>
    let after (answer : Creation) (w : World ι) : Prop :=
      if answer = .created then Place last false i w else Accounted i w
    have stable (answer : Creation) : (rules i).Stable (after answer) := by
      cases answer <;> exact stable_place
    refine .bind (.perform after stable_place stable fun w answer v kept place does => ?_) fun answer => ?_
    · cases does with
      | created =>
        obtain ⟨kept', foreign⟩ := allowed_setTmp (i := i) kept (some ⟨w.clock, [], [], []⟩) fun db same =>
          Option.some.inj same ▸ ⟨le_rfl, List.forall_mem_nil _⟩
        exact ⟨kept', foreign, place.grows rfl rfl fun db _ => ⟨.empty, rfl, db.grows_empty⟩⟩
      | uncreated failed =>
        refine ⟨kept, (Allowed.refl kept).2, ?_⟩
        simp only [after, if_neg failed]
        exact place.accounted
    cases answer <;> exact lines_pure stable_place fun _ holds => holds
  | false =>
    refine .bind (lines_asks stable_place fun _ _ _ does => by cases does; rfl) fun ok => ?_
    cases ok with
    | true => exact lines_pure stable_place fun _ holds => holds
    | false => exact lines_pure stable_place fun _ holds => holds.accounted

/-- What the loop has not come to is accounted for by what the run noted before. -/
theorem lines_testmandirsLoop (amount : Int) :
    Lines i (Place last create i) (testmandirsLoop build lists last names amount create) fun _ => Accounted i := by
  induction names generalizing amount create with
  | nil => exact lines_pure stable_place fun _ place => place.accounted
  | cons name names ih =>
    refine .ite (fun _ => ih amount) fun prefixed => ?_
    have prefixed : man.isPrefixOf name = true := by simpa using prefixed
    let after (answer : Option Timespec) (w : World ι) : Prop := Place last create i w ∧ Looked name answer i w
    refine .bind (.perform after stable_place (fun _ => stable_place.and stable_looked)
      fun w answer v kept place does => ?_) fun answer => ?_
    · cases does
      obtain ⟨kept', foreign⟩ := allowed_look (i := i) kept
      refine ⟨kept', foreign, place.grows rfl rfl fun db working => ⟨db, working, fun _ => id, fun _ => id, fun _ =>
        id⟩, ?_⟩
      intro dir there
      exact Or.inl (by rw [show w.dirs name = some dir from there]; rfl)
    cases answer with
    | none =>
      refine .bind (lines_note.weaken fun w _ ⟨place, looked⟩ => ⟨place, fun db _ dir page there _ _ => ?_⟩) fun _ =>
        ih amount
      exact Or.inl ((looked dir there).resolve_left (by simp))
    | some mtime =>
      refine .ite (fun skipped => ?_) fun _ => ?_
      · exact .bind (lines_note.weaken fun w _ ⟨place, looked⟩ => ⟨place, looked.settled place prefixed skipped⟩)
          fun _ => ih amount
      · refine .bind (lines_openFor.weaken fun w _ holds => holds.1) fun opened => ?_
        cases opened with
        | error ret => exact lines_pure stable_place fun _ holds => holds
        | ok => exact .bind lines_addDirEntries fun _ => ih (amount + 1)

theorem lines_testmandirs :
    Lines i (Place last create i) (testmandirs build lists last create) fun _ => Accounted i := by
  refine .bind (.perform (fun _ => Place last create i) stable_place (fun _ => stable_place)
    fun w answer v kept place does => ?_) fun answer => ?_
  · cases does with
    | @pathRead _ names all =>
      have noted (name : Bytes) : Since (if name ∈ names then w.noted i name else some w.clock) w.clock := by
        split
        · exact kept.noted i name
        · exact fun time same => (Option.some.inj same).ge
      obtain ⟨kept', foreign⟩ := allowed_setNoted (i := i) _ kept noted
      refine ⟨kept', foreign, fun db working => ?_⟩
      obtain ⟨covered, based⟩ := place db working
      refine ⟨fun name dir page there prefixed member plain unnoted => ?_, based⟩
      rw [World.setNoted_self, if_pos (all name dir there)] at unnoted
      exact covered name dir page there prefixed member plain unnoted
    | pathUnread => exact ⟨kept, (Allowed.refl kept).2, place⟩
  cases answer with
  | none => exact lines_pure stable_place fun _ place => place.accounted
  | some names => exact lines_testmandirsLoop 0

/-- A run that creates the database takes note of everything anew. -/
theorem lines_createDb : Lines i (fun _ => True) (createDb build lists) fun _ => Accounted i := by
  refine .bind (.perform (fun _ => Place ⟨0, 0⟩ true i) (.const True) (fun _ => stable_place)
    fun w answer v kept _ does => ?_) fun _ => lines_testmandirs
  cases does
  obtain ⟨kept', foreign⟩ := allowed_setNoted (i := i) (fun _ => none) kept fun _ _ none => by cases none
  refine ⟨kept', foreign, fun db _ => ⟨fun name dir page _ _ _ _ unnoted => absurd ?_ unnoted, fun sec =>
    absurd rfl sec⟩⟩
  rw [World.setNoted_self]
  exact fun _ none => by cases none

theorem lines_openSane {before : World ι → Prop} (stable : (rules i).Stable before) :
    Lines i before openSane fun _ => before := by
  refine .bind (lines_asks stable fun _ _ _ does => by cases does; rfl) fun ok => ?_
  exact .ite (fun _ => lines_asks stable fun _ _ _ does => by cases does; rfl) fun _ => lines_pure stable fun _ => id

theorem lines_callGetTime : Lines i (Untouched i) (call .getTime) fun mtime : Timespec => Place mtime false i := by
  let after (mtime : Answer .getTime) (w : World ι) : Prop := Place mtime false i w
  refine .perform after stable_untouched (fun _ => stable_place) fun w answer v kept untouched does => ?_
  cases does with
  | timed there => exact ⟨kept, (Allowed.refl kept).2, untouched _ there⟩

theorem lines_updateDb (memo : Option Timespec) :
    Lines i (Start memo i) (updateDb build lists memo) fun _ => Accounted i := by
  refine .bind (lines_openSane (stable_start memo)) fun ok => .ite (fun _ => ?_) fun _ =>
    lines_pure (stable_start memo) fun _ start => start.accounted
  refine .bind ?_ fun mtime : Timespec => (lines_testmandirs : Lines i (Place mtime false i) _ _)
  cases memo with
  | none => exact lines_callGetTime
  | some mtime => exact lines_pure stable_place fun _ => id

theorem lines_purgeMissing : Lines i (Untouched i) purgeMissing fun purged => Start purged.2.2 i := by
  have ends : Lines i (Untouched i) (pure (0, false, none)) fun purged : Int × Bool × Option Timespec =>
      Start purged.2.2 i :=
    lines_pure stable_untouched fun _ => id
  refine .bind (lines_asks stable_untouched fun _ _ _ does => by cases does; rfl) fun ok => .ite (fun _ => ?_) fun _ =>
    ends
  refine .bind (lines_openSane stable_untouched) fun ok => .ite (fun _ => ?_) fun _ => ends
  refine .bind lines_callGetTime fun mtime => ?_
  refine .bind (lines_writes fun _ _ _ does => by cases does; exact ⟨_, rfl⟩) fun ⟨count, forceRescan⟩ => ?_
  exact lines_pure stable_place fun _ => id

theorem lines_updateDbWrapper (memo : Option Timespec) :
    Lines i (Start memo i) (updateDbWrapper build lists options memo) fun _ => Accounted i := by
  refine .ite (fun _ => ?_) fun _ => ?_
  · refine .bind (.weaken (lines_writes fun _ _ _ does => by cases does; exact ⟨_, rfl⟩) fun w _ start =>
      start.accounted)
      fun _ => lines_pure stable_place fun _ => id
  · refine .bind (lines_updateDb memo) fun amount => .ite (fun _ => lines_pure stable_place fun _ => id) fun _ => ?_
    exact lines_createDb.weaken fun _ _ _ => trivial

/-- The temporary database is a copy of the index, if it is not to be created. -/
def Copied (should : Bool) (i : ι) (w : World ι) : Prop := should = false → Untouched i w

omit [DecidableEq ι] in
theorem stable_copied {should : Bool} : (rules i).Stable (Copied should i) :=
  fun w v kept kept' foreign copied no => stable_untouched w v kept kept' foreign (copied no)

theorem lines_shouldCreate :
    Lines i (fun w => w.tmp i = none) (shouldCreate options) fun should => Copied should i := by
  refine .ite (fun _ => lines_pure stable_noTmp fun _ _ yes => by cases yes) fun _ => ?_
  let after (copied : Bool) (w : World ι) : Prop := Copied (!copied) i w
  refine .bind (.perform after stable_noTmp (fun _ => stable_copied) fun w answer v kept noTmp does => ?_) fun copied =>
    lines_pure stable_copied fun _ => id
  cases does with
  | @copied _ db there =>
    obtain ⟨past, based⟩ := kept.index db there
    have copy := allowed_setTmp (i := i) kept (some db) fun db' same => Option.some.inj same ▸ past
    have noted (name : Bytes) : Since (some db.mtime) w.clock := fun time same => Option.some.inj same ▸ past.mtime
    obtain ⟨kept', foreign⟩ := copy.trans (allowed_setNoted (i := i) (fun _ => some db.mtime) copy.1 noted)
    refine ⟨kept', foreign, fun _ db' there' db'' working => ?_⟩
    obtain rfl := Option.some.inj (World.setTmp_self.symm.trans there')
    obtain rfl := Option.some.inj (World.setTmp_self.symm.trans working)
    rw [World.setNoted_self]
    exact ⟨based.unnoted, fun _ => based⟩
  | copyAbsent => exact ⟨kept, (Allowed.refl kept).2, fun _ db there => by rw [noTmp] at there; cases there⟩
  | uncopied =>
    obtain ⟨kept', foreign⟩ := allowed_setTmp (i := i) kept none fun _ none => by cases none
    exact ⟨kept', foreign, fun no => by cases no⟩

theorem lines_closeDb : Lines i (Place last false i) (call .closeDb) fun _ => Place last false i :=
  lines_writes fun _ _ _ does => by cases does; exact ⟨_, rfl⟩

theorem lines_prepare (should : Bool) :
    Lines i (Copied should i) (prepare options should) fun prepared w => prepared.2.2 = false →
      Start prepared.2.1 i w := by
  have stable (memo : Option Timespec) (no : Bool) : (rules i).Stable fun w => no = false → Start memo i w :=
    fun w v kept kept' foreign holds same => stable_start memo w v kept kept' foreign (holds same)
  have create (purged : Int) : Lines i (fun _ => True) (call .removeTmp >>= fun _ => pure (purged, none, true))
      fun prepared : Int × Option Timespec × Bool => fun w => prepared.2.2 = false → Start prepared.2.1 i w :=
    .bind lines_removeTmp fun _ => lines_pure stable_noTmp fun _ _ no => by cases no
  refine .ite (fun _ => (create 0).weaken fun _ _ _ => trivial) fun update => .ite (fun _ => ?_) fun _ =>
    lines_pure stable_copied fun w copied _ => copied (by simpa using update)
  refine .bind (lines_purgeMissing.weaken fun w _ copied => copied (by simpa using update))
    fun ⟨purged, forceRescan, memo⟩ => ?_
  refine .ite (fun _ => ?_) fun _ => lines_pure (stable_start memo) fun _ start _ => start
  refine .bind (lines_closeDb.weaken fun w _ start => start.accounted) fun _ => (create purged).weaken fun _ _ _ =>
    trivial

theorem lines_mandb : Lines i (fun w => w.tmp i = none) (mandb build lists options) fun _ => Accounted i := by
  refine .bind lines_shouldCreate fun should => .bind (lines_prepare should) fun ⟨purged, memo, should⟩ => ?_
  have amount : Lines i (fun w => should = false → Start memo i w) (createOrUpdate build lists options should memo)
      fun _ => Accounted i :=
    .ite (fun _ => lines_createDb.weaken fun _ _ _ => trivial) fun update =>
      (lines_updateDbWrapper memo).weaken fun w _ holds => holds (by simpa using update)
  have strays : Lines i (Accounted i) (addStrays options) fun _ => Accounted i :=
    .ite (fun _ => lines_writes fun _ _ _ does => by cases does; exact ⟨_, rfl⟩) fun _ =>
      lines_pure stable_place fun _ => id
  exact .bind amount fun _ => .bind strays fun _ => .bind lines_closeDb fun _ => lines_pure stable_place fun _ => id

theorem lines_rename (open_ : Bool) : Lines i (Accounted i) (call (.rename open_)) fun _ _ => True := by
  refine .perform _ stable_place (fun _ => .const True) fun w answer v kept accounted does => ?_
  cases does with
  | renamed =>
    obtain ⟨kept', foreign⟩ := allowed_publish (i := i) open_ kept fun db there => (accounted db there).1
    exact ⟨kept', foreign, trivial⟩
  | unrenamed =>
    obtain ⟨kept', foreign⟩ := allowed_setTmp (i := i) kept none fun _ none => by cases none
    exact ⟨kept', foreign, trivial⟩

/-- An index that has been read accounts for what it did when it was written. -/
def Opened (answer : Option Database) (w : World ι) : Prop :=
  ∀ db, answer = some db → Past w.clock db ∧ Based w.toTree db db.mtime

omit [DecidableEq ι] in
theorem stable_opened (answer : Option Database) : (rules i).Stable (Opened answer) := by
  intro w v _ _ foreign opened db same
  obtain ⟨past, based⟩ := opened db same
  exact ⟨past.later foreign.clock, based.later past.visits foreign.toLater⟩

theorem lines_reorganize : Lines i (fun _ => True) reorganize fun _ _ => True := by
  have remove {before : World ι → Prop} : Lines i before (call .removeTmp) fun _ _ => True :=
    (lines_removeTmp.imp fun _ _ _ _ => trivial).weaken fun _ _ _ => trivial
  refine .bind (.perform Opened (.const True) stable_opened fun w answer v kept _ does => ?_) fun answer => ?_
  · cases does with
    | indexRead => exact ⟨kept, (Allowed.refl kept).2, kept.index⟩
    | indexUnread => exact ⟨kept, (Allowed.refl kept).2, fun _ none => by cases none⟩
  cases answer with
  | none => exact remove
  | some db =>
    let after (ok : Bool) (w : World ι) : Prop := ok = true → Accounted i w
    have stable (ok : Bool) : (rules i).Stable (after ok) :=
      fun w v kept kept' foreign holds yes => stable_place w v kept kept' foreign (holds yes)
    refine .bind (.perform after (stable_opened _) stable fun w answer v kept opened does => ?_) fun ok =>
      .ite (fun yes => ?_) fun _ => remove
    · cases does with
      | copyCreated =>
        obtain ⟨past, based⟩ := opened db rfl
        have copy := allowed_setTmp (i := i) kept (some (db.touch (some w.clock))) fun db' same =>
          Option.some.inj same ▸ past.touch fun t now => (Option.some.inj now).ge
        have noted (name : Bytes) : Since (some db.mtime) w.clock := fun time same => Option.some.inj same ▸ past.mtime
        obtain ⟨kept', foreign⟩ := copy.trans (allowed_setNoted (i := i) (fun _ => some db.mtime) copy.1 noted)
        refine ⟨kept', foreign, fun _ db' working => ⟨?_, fun sec => absurd rfl sec⟩⟩
        obtain rfl := Option.some.inj (World.setTmp_self.symm.trans working)
        rw [World.setNoted_self]
        exact based.unnoted.grows (db.grows_touch _)
      | copyUncreated => exact ⟨kept, (Allowed.refl kept).2, fun yes => by cases yes⟩
    · refine .bind ((lines_writes fun _ _ _ does => by cases does; exact ⟨_, rfl⟩).weaken fun w _ holds =>
        holds yes) fun ok =>
        .ite (fun _ => .bind (lines_rename true) fun _ => ?_) fun _ => remove
      refine .perform (fun _ _ => True) (.const True) (fun _ => .const True) fun w answer v kept _ does => ?_
      cases does with
      | @indexClosed _ written =>
        obtain ⟨kept', foreign⟩ := allowed_closeIndex (i := i) written kept
        exact ⟨kept', foreign, trivial⟩

theorem lines_processManpath :
    Lines i (fun w => w.tmp i = none) (processManpath build lists options) fun _ _ => True := by
  refine .bind lines_mandb fun ⟨amount, purged, strays⟩ => .ite (fun _ => ?_) fun _ => ?_
  · exact .bind (lines_rename false) fun _ => lines_reorganize
  · exact (lines_removeTmp.imp fun _ _ _ _ => trivial).weaken fun _ _ _ => trivial

/-- What becomes of a run that is interrupted: its cleanup removes the temporary database, or it is killed. -/
inductive Interrupted (i : ι) (w : World ι) : Code Unit → Prop
  | handled : Interrupted i w (call .removeTmp)
  | killed : Interrupted i w (pure ())

/-- The clock goes on, and directories are made, changed and removed. Their modification times are those of the
changes: no directory is moved, and none has its times set. -/
inductive Changes (w : World ι) : World ι → Prop
  | changes {clock : Timespec} {dirs : Bytes → Option Directory} (later : w.clock ≤ clock)
      (each : ∀ name, dirs name = w.dirs name ∨ ∀ dir, dirs name = some dir → dir.mtime = clock) :
      Changes w { w with clock := clock, dirs := dirs }

/-- Runs of `mandb` for one manual hierarchy, each in the middle of what it does. -/
abbrev Mandbs (ι : Type) := Pool Call Answer (World ι) ι

abbrev Turn : Mandbs ι → Mandbs ι → Prop := Step Does Interrupted Changes

def startMandbs (build : OrderBuild) (lists : GlSortedList) (options : ι → Publication.Options) (w : World ι) :
    Mandbs ι where
  state := w
  threads i := processManpath build lists (options i)

/-- There is no index yet, and no run has begun. -/
structure Found (w : World ι) : Prop where
  index : w.index = none
  tmp : ∀ i, w.tmp i = none
  noted : ∀ i name, w.noted i name = none
  looked : ∀ i, w.looked i ≤ w.clock

omit [DecidableEq ι] in
theorem Found.kept (found : Found w) : Kept w where
  noted i name time there := by
    rw [found.noted] at there
    cases there
  looked := found.looked
  tmp i db there := by
    rw [found.tmp] at there
    cases there
  index db there := by
    rw [found.index] at there
    cases there

theorem rules_fit : Fit Does Interrupted Changes (rules : ι → Rules (World ι)) Kept where
  shared _ := rfl
  apart i j different w v _ _ changed := changed j different.symm
  others w v kept changes := by
    cases changes with
    | @changes clock dirs later each =>
      have later : Later w.toTree ⟨clock, dirs⟩ :=
        ⟨later, fun name => (each name).imp_right fun changed dir there => later.trans (changed dir there).ge⟩
      exact ⟨kept.later later rfl rfl rfl rfl, fun i => ⟨later, rfl, rfl, rfl⟩⟩
  handlers i w p kept handles := by
    cases handles with
    | handled => exact (lines_removeTmp.imp fun _ _ _ _ => trivial).weaken fun _ _ _ => trivial
    | killed => exact (lines_pure (.const True) fun _ => id).weaken fun _ _ _ => trivial

variable {options : ι → Publication.Options} {pool : Mandbs ι} {dir : Directory} {page : Bytes}

/-- However many runs there are, in whatever order they take their turns, wherever any of them is interrupted and
whenever directories are changed: what the next run leaves out as scanned already has been tested on the way to the
index. A page is missed only if `order_files` could not open it, or if its directory was last changed after a run had
noted it and not later than that run wrote the index; one that updates a single file, or cannot open the directory,
notes it as it was when the index was written before. -/
theorem scannedAlready_tested (found : Found w)
    (run : Relation.ReflTransGen Turn (startMandbs build lists options w) pool) (index : pool.state.index = some db)
    (there : pool.state.dirs name = some dir) (prefixed : man.isPrefixOf name = true) (member : page ∈ dir.names)
    (plain : isDots page = false) (skipped : scannedAlready dir.mtime db.mtime = true) :
      (name, page) ∈ db.tested ∨ (name, page) ∈ db.unopened ∨
        ∃ visit ∈ db.visits, (∀ noted, visit.noted name = some noted → noted ≤ dir.mtime) ∧
          dir.mtime ≤ visit.written := by
  have start : Fine Does rules Kept (startMandbs build lists options w) :=
    ⟨found.kept, fun i => ⟨fun w => w.tmp i = none, found.tmp i, lines_processManpath⟩⟩
  obtain ⟨kept, _⟩ := fine_reachable rules_fit start run
  obtain ⟨_, based⟩ := kept.index db index
  exact based.covered name dir page there prefixed member plain (le_of_scannedAlready skipped).2

/-- A hierarchy with one page and no index. -/
def newHierarchy : World Unit where
  clock := ⟨100, 0⟩
  dirs name := if name = ascii "man1" then some ⟨⟨90, 0⟩, [ascii "cat.1"]⟩ else none
  index := none
  holder := none
  tmp _ := none
  noted _ _ := none
  looked _ := ⟨0, 0⟩

def creating : Publication.Options := ⟨true, false, false, false, false⟩

theorem scannedAlready_tested_created : ∃ pool : Mandbs Unit,
    Relation.ReflTransGen Turn (startMandbs .fiemap insertionList (fun _ => creating) newHierarchy) pool ∧
      ∃ db, pool.state.index = some db ∧ scannedAlready ⟨90, 0⟩ db.mtime = true ∧ db.visits.length = 1 ∧
        db.Accounts (ascii "man1") (ascii "cat.1") ⟨90, 0⟩ := by
  have found : Found newHierarchy := ⟨rfl, fun _ => rfl, fun _ _ => rfl, fun _ => (by decide : (⟨0, 0⟩ : Timespec) ≤
      ⟨100, 0⟩)⟩
  have all : ∀ name dir, newHierarchy.dirs name = some dir → name ∈ [ascii "man1"] := by
    intro name dir there
    by_contra other
    have none : newHierarchy.dirs name = none := if_neg fun same => other (List.mem_singleton.mpr same)
    rw [none] at there
    cases there
  have run : Relation.ReflTransGen Turn (startMandbs .fiemap insertionList (fun _ => creating) newHierarchy) _ :=
    .head (.call (i := ()) rfl .removed) <| .head (.call (i := ()) rfl .forgot) <|
    .head (.call (i := ()) rfl (.pathRead all)) <| .head (.call (i := ()) rfl .stat) <|
    .head (.call (i := ()) rfl .created) <| .head (.call (i := ()) rfl (.dirRead rfl)) <|
    .head (.call (i := ()) rfl (@Does.probed _ _ () _ _ _ ⟨true, true⟩ fun _ => .opened none)) <|
    .head (.call (i := ()) rfl (@Does.tested _ _ () _ _ _ true)) <| .head (.call (i := ()) rfl .noted) <|
    .head (.call (i := ()) rfl (@Does.dbClosed _ _ () _ true)) <| .head (.call (i := ()) rfl .renamed) .refl
  have there : newHierarchy.dirs (ascii "man1") = some ⟨⟨90, 0⟩, [ascii "cat.1"]⟩ := rfl
  have member : ascii "cat.1" ∈ [ascii "cat.1"] := List.mem_cons_self
  have accounts := scannedAlready_tested found run rfl there rfl member rfl (by decide)
  exact ⟨_, run, _, rfl, by decide, rfl, accounts⟩

end ManDb.Incremental
