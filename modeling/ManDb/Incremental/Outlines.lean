import ManDb.Incremental.Accounts

namespace ManDb.Incremental

open Threads

variable {ι : Type} {i : ι} {w v : World ι} {db : Database} {create create' : Bool} {last : Timespec}
  {name : Bytes} {names pages : List Bytes} {build : OrderBuild} {lists : GlSortedList} {options : Publication.Options}

/-- The database that a run works on, where one that is yet to be created is empty. -/
def Working (create : Bool) (i : ι) (w : World ι) (db : Database) : Prop :=
  if create then db = .empty else w.tmp i = some db

/-- The database accounts for all that was changed before the run noted it, and for all that `scannedAlready` leaves
out. -/
def Place (last : Timespec) (create : Bool) (i : ι) (w : World ι) : Prop :=
  ∀ db, Working create i w db →
    Covered w.toTree db (fun name mtime => ¬Since (w.noted i name) mtime) ∧ (last.sec ≠ 0 → Based w.toTree db last)

/-- The temporary database may be published. -/
abbrev Accounted (i : ι) (w : World ι) : Prop := Place ⟨0, 0⟩ false i w

/-- The temporary database has not been written to since it was copied. -/
def Untouched (i : ι) (w : World ι) : Prop := ∀ db, w.tmp i = some db → Place db.mtime false i w

/-- What is known when the directories are to be looked at, from `dbf->mtime`. -/
def Start : Option Timespec → ι → World ι → Prop
  | none, i, w => Untouched i w
  | some mtime, i, w => Place mtime false i w

/-- What the run has found out about a directory, or it has been changed since. -/
def Looked (name : Bytes) (answer : Option Timespec) (i : ι) (w : World ι) : Prop :=
  ∀ dir, w.dirs name = some dir → answer = some dir.mtime ∨ w.looked i ≤ dir.mtime

/-- The run has read the names in a directory, or it has been changed since it was looked at. -/
def Read (name : Bytes) (names : List Bytes) (i : ι) (w : World ι) : Prop :=
  ∀ dir, w.dirs name = some dir → (∀ page ∈ dir.names, page ∈ names) ∨ w.looked i ≤ dir.mtime

/-- The names have been seen to, up to those that are left. -/
def Seen (name : Bytes) (names left : List Bytes) (i : ι) (w : World ι) : Prop :=
  ∀ db, w.tmp i = some db → ∀ page ∈ names, page ∈ left ∨ (name, page) ∈ db.tested ∨ (name, page) ∈ db.unopened

/-- The run is done with the directory. -/
def Settled (name : Bytes) (create : Bool) (i : ι) (w : World ι) : Prop :=
  ∀ db, Working create i w db → ∀ dir page, w.dirs name = some dir → page ∈ dir.names → isDots page = false →
    w.looked i ≤ dir.mtime ∨ db.Accounts name page dir.mtime

theorem Working.visits (kept : Kept w) (working : Working create i w db) :
    ∀ visit ∈ db.visits, ∀ name, Since (visit.noted name) w.clock := by
  cases create with
  | true =>
    obtain rfl : db = .empty := working
    exact List.forall_mem_nil _
  | false => exact (kept.tmp i db working).visits

/-- What is known of a database is known of one that has come from it. -/
theorem Place.grows (place : Place last create i w) (tree : v.toTree = w.toTree) (noted : v.noted i = w.noted i)
    (working : ∀ db', Working create' i v db' → ∃ db, Working create i w db ∧ db.Grows db') :
      Place last create' i v := by
  intro db' now
  obtain ⟨db, before, grows⟩ := working db' now
  obtain ⟨covered, based⟩ := place db before
  rw [tree, noted]
  exact ⟨covered.grows grows, fun sec => (based sec).grows grows⟩

theorem Place.unbased (place : Place last create i w) : Place ⟨0, 0⟩ create i w :=
  fun db working => ⟨(place db working).1, fun sec => absurd rfl sec⟩

theorem Place.accounted (place : Place last create i w) : Accounted i w := by
  cases create with
  | true => exact place.unbased.grows rfl rfl fun db _ => ⟨.empty, rfl, db.grows_empty⟩
  | false => exact place.unbased

theorem Start.accounted {memo : Option Timespec} (start : Start memo i w) : Accounted i w := by
  cases memo with
  | none => exact fun db there => (start db there).accounted db there
  | some mtime => exact Place.accounted start

theorem stable_place : (rules i).Stable (Place last create i) := by
  intro w v kept _ foreign place db working
  have before : Working create i w db := by
    unfold Working at working ⊢
    rwa [foreign.tmp] at working
  obtain ⟨covered, based⟩ := place db before
  rw [foreign.noted]
  refine ⟨covered.later foreign.toLater fun name page mtime new unnoted => ?_,
    fun sec => (based sec).later (before.visits kept) foreign.toLater⟩
  exact absurd ((kept.noted i name).later new) unnoted

theorem stable_untouched : (rules i).Stable (Untouched i) := by
  intro w v kept kept' foreign untouched db there
  exact stable_place w v kept kept' foreign (untouched db (foreign.tmp ▸ there))

theorem stable_start (memo : Option Timespec) : (rules i).Stable (Start memo i) := by
  cases memo with
  | none => exact stable_untouched
  | some mtime => exact stable_place

/-- A directory that is changed is changed after it was looked at. -/
theorem changed_since (kept : Kept w) (foreign : Foreign i w v) (name : Bytes) :
    v.dirs name = w.dirs name ∨ ∀ dir, v.dirs name = some dir → v.looked i ≤ dir.mtime := by
  refine (foreign.dirs name).imp_right fun changed dir there => ?_
  rw [foreign.looked]
  exact (kept.looked i).trans (changed dir there)

theorem stable_looked {answer : Option Timespec} : (rules i).Stable (Looked name answer i) := by
  intro w v kept _ foreign looked dir there
  rcases changed_since kept foreign name with same | changed
  · rw [foreign.looked]
    exact looked dir (same ▸ there)
  · exact Or.inr (changed dir there)

theorem stable_read : (rules i).Stable (Read name names i) := by
  intro w v kept _ foreign read dir there
  rcases changed_since kept foreign name with same | changed
  · rw [foreign.looked]
    exact read dir (same ▸ there)
  · exact Or.inr (changed dir there)

theorem stable_seen {left : List Bytes} : (rules i).Stable (Seen name names left i) :=
  fun _ _ _ _ foreign seen db there => seen db (foreign.tmp ▸ there)

theorem stable_noTmp : (rules i).Stable fun w => w.tmp i = none :=
  fun _ _ _ _ foreign none => foreign.tmp.trans none

theorem Read.settled (read : Read name names i w) (seen : Seen name (names.filter fun page => !isDots page) [] i w) :
    Settled name false i w := by
  intro db working dir page there member plain
  rcases read dir there with all | changed
  · have named : page ∈ names.filter fun page => !isDots page :=
      List.mem_filter.mpr ⟨all page member, by rw [plain]; rfl⟩
    rcases seen db working page named with left | tested | unopened
    · cases left
    · exact Or.inr (Or.inl tested)
    · exact Or.inr (Or.inr (Or.inl unopened))
  · exact Or.inl changed

theorem le_of_scannedAlready {mtime last : Timespec} (skipped : scannedAlready mtime last = true) :
    last.sec ≠ 0 ∧ mtime ≤ last := by
  rw [scannedAlready, Bool.and_eq_true, decide_eq_true_eq, decide_eq_true_eq] at skipped
  exact ⟨skipped.1, timespecCmp_ne_gt_iff.mp skipped.2⟩

/-- A directory that has been scanned already is accounted for. -/
theorem Looked.settled {mtime : Timespec} (looked : Looked name (some mtime) i w) (place : Place last create i w)
    (prefixed : man.isPrefixOf name = true) (skipped : scannedAlready mtime last = true) : Settled name create i w := by
  obtain ⟨sec, le⟩ := le_of_scannedAlready skipped
  intro db working dir page there member plain
  rcases looked dir there with same | changed
  · obtain rfl := Option.some.inj same
    exact Or.inr (((place db working).2 sec).covered name dir page there prefixed member plain le)
  · exact Or.inl changed

/-- `order_files` leaves out only what cannot be opened. -/
theorem mem_orderFiles_or_unopened {dir : DirectoryProbe} {probe : Bytes → Probe} {page : Bytes}
    (member : page ∈ names) :
    page ∈ orderFiles build lists dir (names.map fun page => (page, probe page)) ∨
      openedName (page, probe page) = none := by
  have listed : page ∈ (names.map fun page => (page, probe page)).map Prod.fst := by
    rw [List.map_map]
    exact List.mem_map.mpr ⟨page, member, rfl⟩
  cases build with
  | fadvise => exact Or.inl listed
  | neither => exact Or.inl listed
  | fiemap =>
    simp only [orderFiles]
    split
    · cases opened : openedName (page, probe page) with
      | none => exact Or.inr rfl
      | some name =>
        have same : name = page := by
          unfold openedName at opened
          split at opened
          · cases opened
          · exact (Option.some.inj opened).symm
        subst same
        refine Or.inl ((orderLoop_perm lists _ _).mem_iff.mpr (List.mem_append_right _ ?_))
        exact List.mem_filterMap.mpr ⟨_, List.mem_map.mpr ⟨name, member, rfl⟩, opened⟩
    · exact Or.inl listed

variable [DecidableEq ι] {before : World ι → Prop}

theorem changeTmp_some {change : Database → Database} (there : (w.changeTmp i change).tmp i = some db) :
    ∃ old, w.tmp i = some old ∧ change old = db :=
  Option.map_eq_some_iff.mp (World.setTmp_self.symm.trans there)

theorem Place.changeTmp {change : Database → Database} (place : Place last false i w)
    (grows : ∀ db : Database, db.Grows (change db)) : Place last false i (w.changeTmp i change) := by
  refine place.grows rfl rfl fun db there => ?_
  obtain ⟨old, found, rfl⟩ := changeTmp_some there
  exact ⟨old, found, grows old⟩

abbrev Lines {α : Type} (i : ι) (before : World ι → Prop) (code : Code α) (after : α → World ι → Prop) : Prop :=
  (rules i).Outline (Does i) before code after

theorem lines_pure {α : Type} {value : α} {after : α → World ι → Prop} (stable : (rules i).Stable before)
    (implies : ∀ w, before w → after value w) : Lines i before (pure value) after :=
  .done stable fun w _ holds => implies w holds

/-- A call that changes nothing. -/
theorem lines_asks {c : Call} (stable : (rules i).Stable before)
    (same : ∀ (w : World ι) answer v, Does i c w answer v → v = w) : Lines i before (call c) fun _ => before := by
  refine .perform (fun _ => before) stable (fun _ => stable) fun w answer v kept holds does => ?_
  obtain rfl := same w answer v does
  exact ⟨kept, (Allowed.refl kept).2, holds⟩

/-- A call that does no more than write to the temporary database. -/
theorem lines_writes {c : Call} (writes : ∀ (w : World ι) answer v, Does i c w answer v →
    ∃ written, v = w.changeTmp i (.touch (w.stamp written))) :
      Lines i (Place last false i) (call c) fun _ => Place last false i := by
  refine .perform _ stable_place (fun _ => stable_place) fun w answer v kept place does => ?_
  obtain ⟨written, rfl⟩ := writes w answer v does
  obtain ⟨kept', foreign⟩ := allowed_changeTmp (i := i) kept fun db past => past.touch stamp_past
  exact ⟨kept', foreign, place.changeTmp (Database.grows_touch _)⟩

theorem lines_removeTmp : Lines i (fun _ => True) (call .removeTmp) fun _ w => w.tmp i = none := by
  refine .perform (fun _ (w : World ι) => w.tmp i = none) (.const True)
    (fun _ => stable_noTmp) fun w answer v kept _ does => ?_
  cases does
  obtain ⟨kept', foreign⟩ := allowed_setTmp (i := i) kept none fun _ none => by cases none
  exact ⟨kept', foreign, World.setTmp_self⟩

/-- What has been settled may be noted. -/
theorem lines_note :
    Lines i (fun w => Place last create i w ∧ Settled name create i w) (call (.note name)) fun _ =>
      Place last create i := by
  have stable : (rules i).Stable fun w => Place last create i w ∧ Settled name create i w := by
    refine stable_place.and fun w v kept _ foreign settled db working dir page there member plain => ?_
    have before : Working create i w db := by
      unfold Working at working ⊢
      rwa [foreign.tmp] at working
    rcases changed_since kept foreign name with same | changed
    · rw [foreign.looked]
      exact settled db before dir page (same ▸ there) member plain
    · exact Or.inl (changed dir there)
  refine .perform _ stable (fun _ => stable_place) fun w answer v kept ⟨place, settled⟩ does => ?_
  cases does
  have noted (other : Bytes) : Since (Function.update (w.noted i) name (some (w.looked i)) other) w.clock := by
    by_cases same : other = name
    · subst same
      rw [Function.update_self]
      rintro _ ⟨⟩
      exact kept.looked i
    · rw [Function.update_of_ne same]
      exact kept.noted i other
  obtain ⟨kept', foreign⟩ := allowed_setNoted (i := i) _ kept noted
  refine ⟨kept', foreign, fun db working => ?_⟩
  obtain ⟨covered, based⟩ := place db working
  refine ⟨fun other dir page there prefixed member plain unnoted => ?_, based⟩
  rw [World.setNoted_self] at unnoted
  by_cases same : other = name
  · subst same
    rw [Function.update_self] at unnoted
    refine (settled db working dir page there member plain).resolve_left fun le => unnoted ?_
    rintro _ ⟨⟩
    exact le
  · rw [Function.update_of_ne same] at unnoted
    exact covered other dir page there prefixed member plain unnoted

/-- The pages are tested one after the other. -/
theorem lines_testFiles (left : List Bytes) :
    Lines i (fun w => (Place last false i w ∧ Read name pages i w) ∧ Seen name names left i w) (testFiles name left)
      fun _ w => (Place last false i w ∧ Read name pages i w) ∧ Seen name names [] i w := by
  induction left with
  | nil => exact lines_pure ((stable_place.and stable_read).and stable_seen) fun _ holds => holds
  | cons page left ih =>
    refine .bind (.perform _ ((stable_place.and stable_read).and stable_seen)
      (fun _ => (stable_place.and stable_read).and stable_seen) fun w answer v kept ⟨⟨place, read⟩, seen⟩ does => ?_)
      fun _ => ih
    cases does with
    | @tested _ _ _ written =>
      obtain ⟨kept', foreign⟩ := allowed_changeTmp (i := i) kept fun db (past : Past w.clock db) =>
        (⟨(past.touch stamp_past).mtime, past.visits⟩ :
          Past w.clock { db.touch (w.stamp written) with tested := (name, page) :: db.tested })
      refine ⟨kept', foreign, ⟨place.changeTmp fun db => ⟨fun _ => List.mem_cons_of_mem _, fun _ => id, fun _ => id⟩,
        read⟩,
        fun db there other member => ?_⟩
      obtain ⟨old, found, rfl⟩ := changeTmp_some there
      rcases seen old found other member with inLeft | tested | unopened
      · rcases List.mem_cons.mp inLeft with rfl | later
        · exact Or.inr (Or.inl List.mem_cons_self)
        · exact Or.inl later
      · exact Or.inr (Or.inl (List.mem_cons_of_mem _ tested))
      · exact Or.inr (Or.inr unopened)

end ManDb.Incremental
