import ManDb.Publication.Places

namespace ManDb.Publication

open Threads

variable {ι : Type} {xfile : Bytes} {xtmpfile : ι → Bytes} {i : ι} {s t : Disk ι} {m n : Nat} {db : Store}

variable [DecidableEq ι] {before after : Disk ι → Prop}

/-- An outline for a process. -/
abbrev Lines {α : Type} (xfile : Bytes) (xtmpfile : ι → Bytes) (i : ι) (before : Disk ι → Prop) (code : Code α)
    (after : α → Disk ι → Prop) : Prop :=
  (rules xfile xtmpfile i).Outline (Does i) before code after

theorem lines_pure {α : Type} {value : α} {after : α → Disk ι → Prop}
    (stable : (rules xfile xtmpfile i).Stable before) (implies : ∀ s, before s → after value s) :
      Lines xfile xtmpfile i before (pure value) after :=
  .done stable fun s _ holds => implies s holds

/-- An assertion that does not mind what the temporary file and the index are. -/
def Unlinked (xfile : Bytes) (xtmpfile : ι → Bytes) (i : ι) (before : Disk ι → Prop) : Prop :=
  ∀ s path file, (path = xfile ∨ path = xtmpfile i) → before s → before (s.setLink path file)

theorem lines_checkRemove (apart : ∀ i, xtmpfile i ≠ xfile) (distinct : Function.Injective xtmpfile) {path : Bytes}
    (own : path = xfile ∨ path = xtmpfile i) (stable : (rules xfile xtmpfile i).Stable before)
    (stays : ∀ s, before s → before (s.setLink path none)) :
      Lines xfile xtmpfile i before (checkRemove path) fun _ => before := by
  refine .perform (fun _ => before) stable (fun _ => stable) fun s answer t kept holds does => ?_
  cases does with
  | removed =>
    have place : path = xtmpfile i ∨ ∀ j, path ≠ xtmpfile j :=
      own.symm.imp_right fun index j same => apart j (same.symm.trans index)
    obtain ⟨after, changed⟩ := allowed_unlink kept distinct place
    exact ⟨after, changed, stays s holds⟩
  | unremoved => exact ⟨kept, .refl i s, holds⟩

theorem lines_checkChmod (apart : ∀ i, xtmpfile i ≠ xfile) (distinct : Function.Injective xtmpfile) {path : Bytes}
    (own : path = xfile ∨ path = xtmpfile i) (stable : (rules xfile xtmpfile i).Stable before)
    (stays : ∀ s, before s → before (s.setLink path none)) :
      Lines xfile xtmpfile i before (checkChmod path) fun _ => before := by
  refine .bind (.perform (fun _ => before) stable (fun _ => stable) fun s answer t kept holds does => ?_) fun ok => ?_
  · cases does
    exact ⟨kept, .refl i s, holds⟩
  · exact .ite (fun _ => lines_pure stable fun _ => id) fun _ => lines_checkRemove apart distinct own stable stays

/-- The rename of a finished update makes it the index. -/
theorem lines_dbpathsRenameFromTmp (apart : ∀ i, xtmpfile i ≠ xfile) (distinct : Function.Injective xtmpfile)
    (stable : (rules xfile xtmpfile i).Stable before) (stable' : (rules xfile xtmpfile i).Stable after)
    (good : ∀ s m, Kept xfile xtmpfile s → before s → s.link (xtmpfile i) = some m → Good s m)
    (leads : ∀ s, Kept xfile xtmpfile s → before s → after s) (unlinked : Unlinked xfile xtmpfile i after) :
      Lines xfile xtmpfile i before (dbpathsRenameFromTmp xfile (xtmpfile i)) fun _ => after := by
  have remove {path : Bytes} (own : path = xfile ∨ path = xtmpfile i) :
      Lines xfile xtmpfile i after (checkRemove path) fun _ => after :=
    lines_checkRemove apart distinct own stable' fun s => unlinked s path none own
  refine .bind (.bind (.perform (fun _ => after) stable (fun _ => stable') fun s answer t kept holds does => ?_)
    fun result => ?_) fun _ => lines_checkChmod apart distinct (Or.inl rfl) stable' fun s => unlinked s _ none
      (Or.inl rfl)
  · cases does with
    | renamed there =>
      obtain ⟨kept', changed⟩ := allowed_rename kept apart distinct there (good s _ kept holds there)
      exact ⟨kept', changed, unlinked _ _ _ (Or.inr rfl) (unlinked _ _ _ (Or.inl rfl) (leads s kept holds))⟩
    | unrenamed => exact ⟨kept, .refl i s, leads s kept holds⟩
  · cases result with
    | none => exact lines_pure stable' fun _ => id
    | some errno => exact .ite (fun _ => remove (Or.inr rfl)) fun _ => lines_pure stable' fun _ => id

/-- What a copy that succeeds leaves in the temporary file. -/
theorem copied_ready {ret : Int} (kept : Kept xfile xtmpfile s) (apart : ∀ i, xtmpfile i ≠ xfile)
    (there : s.link (xtmpfile i) = some m) (source : Source xtmpfile n s) (does : Does i (.copy n m) s ret t) :
      Kept xfile xtmpfile t ∧ Changed xtmpfile i s t ∧ (ret < 0 ∨ Ready xtmpfile i t) := by
  cases does with
  | @copied _ _ _ db whole =>
    obtain ⟨kept', changed⟩ := allowed_setData kept apart there (.database db)
    refine ⟨kept', changed, Or.inr fun m' there' uncaught => ?_⟩
    obtain rfl : m = m' := Option.some.inj (there.symm.trans there')
    obtain ⟨db', member, holds⟩ := source.2.2 uncaught
    obtain rfl : db' = db := by simpa [whole, eq_comm] using holds
    exact ⟨db', member, Disk.setData_self⟩
  | copiedOpen =>
    obtain ⟨kept', changed⟩ := allowed_setData kept apart there _
    obtain ⟨kept'', caught⟩ := allowed_catch kept'
    exact ⟨kept'', changed.trans caught, Or.inr fun _ _ uncaught => by cases uncaught⟩
  | uncopied failed =>
    obtain ⟨kept', changed⟩ := allowed_setData kept apart there _
    exact ⟨kept', changed, Or.inl failed⟩

/-- A copy that succeeds is one of a finished update. -/
theorem lines_xcopy (apart : ∀ i, xtmpfile i ≠ xfile) (distinct : Function.Injective xtmpfile) :
    Lines xfile xtmpfile i (Absent xtmpfile i) (xcopy xfile (xtmpfile i)) fun ret s => ret < 0 ∨
      Ready xtmpfile i s := by
  have ready {s : Disk ι} (absent : Absent xtmpfile i s) : Ready xtmpfile i s := fun m there => by
    rw [Absent, there] at absent
    cases absent
  refine .bind (.perform (fun answer s => Absent xtmpfile i s ∧ ∀ n, answer = .ok n → Source xtmpfile n s)
    stable_absent (fun answer => ?_) fun s answer t kept absent does => ?_) fun opened => ?_
  · intro s t kept kept' within ⟨absent, source⟩
    exact ⟨stable_absent s t kept kept' within absent, fun n ok => stable_source n s t kept kept' within (source n ok)⟩
  · cases does with
    | opened there =>
      refine ⟨kept, .refl i s, absent, fun n ok => ?_⟩
      cases ok
      exact ⟨kept.made _ _ there, fun j tmp => apart j (kept.single _ _ _ tmp there), kept.index _ there⟩
    | unopened => exact ⟨kept, .refl i s, absent, fun n ok => by cases ok⟩
  cases opened with
  | error errno =>
    refine (lines_pure stable_absent fun s absent => ?_).weaken fun _ _ holds => holds.1
    by_cases missing : errno.value = enoent.value
    · exact Or.inr (ready absent)
    · have positive := errno.positive
      left
      rw [if_neg missing]
      omega
  | ok n =>
    -- what is known when the file for the copy has been opened
    let written (answer : Except ErrorNumber Nat) (s : Disk ι) : Prop :=
      match answer with
      | .ok m => s.link (xtmpfile i) = some m ∧ Source xtmpfile n s
      | .error _ => Absent xtmpfile i s
    have stable (answer : Except ErrorNumber Nat) : (rules xfile xtmpfile i).Stable (written answer) := by
      cases answer with
      | ok m => exact (stable_made m).and (stable_source n)
      | error errno => exact stable_absent
    refine Rules.Outline.weaken (.bind (.perform written (stable_absent.and (stable_source n)) stable
      fun s answer t kept holds does => ?_) fun made => ?_) fun s _ holds => ⟨holds.1, holds.2 n rfl⟩
    · obtain ⟨absent, source⟩ := holds
      cases does with
      | made =>
        obtain ⟨kept', changed⟩ := allowed_make kept apart distinct absent .part
        exact ⟨kept', changed, Disk.make_link_self, source.changed changed⟩
      | truncated there =>
        rw [Absent, there] at absent
        cases absent
      | unmade => exact ⟨kept, .refl i s, absent⟩
    cases made with
    | error errno =>
      have positive := errno.positive
      exact lines_pure stable_absent fun s _ => Or.inl (by omega)
    | ok m =>
      have stable' (ret : Int) : (rules xfile xtmpfile i).Stable fun s => ret < 0 ∨ Ready xtmpfile i s :=
        (Rules.Stable.const _).or stable_ready
      have unlinked (ret : Int) (s : Disk ι) (holds : ret < 0 ∨ Ready xtmpfile i s) :
          ret < 0 ∨ Ready xtmpfile i (s.setLink (xtmpfile i) none) :=
        holds.imp_right fun _ m there => by
          rw [Disk.setLink_self] at there
          cases there
      refine .bind (.perform (fun ret s => ret < 0 ∨ Ready xtmpfile i s) (stable (.ok m)) stable'
        fun s answer t kept holds does => ?_) fun ret => ?_
      · exact copied_ready kept apart holds.1 holds.2 does
      · refine .ite (fun _ => .bind ?_ fun _ => lines_pure (stable' ret) fun _ => id)
          fun _ => .bind ?_ fun _ => lines_pure (stable' ret) fun _ => id
        · exact lines_checkRemove apart distinct (Or.inr rfl) (stable' ret) (unlinked ret)
        · exact lines_checkChmod apart distinct (Or.inr rfl) (stable' ret) (unlinked ret)

/-- What a task leaves: an open database, or it has not been opened, or `create_db` has failed. -/
theorem run_opened {task : Task} {file : Option Nat} {outcome : Outcome} (kept : Kept xfile xtmpfile s)
    (apart : ∀ i, xtmpfile i ≠ xfile) (distinct : Function.Injective xtmpfile) (opened : Opened xtmpfile i file s)
    (does : Does i (.run task (xtmpfile i) file) s outcome t) :
      Kept xfile xtmpfile t ∧ Changed xtmpfile i s t ∧ Opened xtmpfile i outcome.file t ∧
        (file ≠ none → task ≠ .createDb → outcome.file = file) ∧
        (outcome.file = none → file = none ∧ t = s ∧ task.unopened outcome.amount ∨
          task = .createDb ∧ outcome.amount < 0) := by
  cases does with
  | @ran _ _ _ _ n db _ _ there =>
    have link : s.link (xtmpfile i) = some n := by
      rcases there with same | ⟨_, link⟩
      · obtain ⟨_, link, _⟩ := opened n same
        exact link
      · exact link
    obtain ⟨kept', changed⟩ := allowed_setData kept apart link (.unflushed db)
    refine ⟨kept', changed, fun m same => ?_, fun some _ => ?_, fun none => by cases none⟩
    · cases same
      exact ⟨db, link, Disk.setData_self⟩
    · exact (there.resolve_right fun closed => some closed.1).symm
  | @ranNew _ _ db _ _ absent =>
    obtain ⟨kept', changed⟩ := allowed_make kept apart distinct absent (.unflushed db)
    refine ⟨kept', changed, fun m same => ?_, fun some _ => absurd rfl some, fun none => by cases none⟩
    cases same
    exact ⟨db, Disk.make_link_self, Disk.make_data_self⟩
  | ranUnopened unopened =>
    exact ⟨kept, .refl i s, opened, fun some _ => absurd rfl some, fun _ => Or.inl ⟨rfl, rfl, unopened⟩⟩
  | @ranAgain _ _ n =>
    obtain ⟨_, link, _⟩ := opened n rfl
    obtain ⟨kept', changed⟩ := allowed_setData kept apart link .part
    exact ⟨kept', changed, opened_none _, fun _ other => absurd rfl other, fun _ => Or.inr ⟨rfl, by decide⟩⟩

theorem lines_finish (file : Option Nat) (stable : (rules xfile xtmpfile i).Stable before)
    (ready : ∀ s, Ready xtmpfile i s → before s) :
      Lines xfile xtmpfile i (fun s => Opened xtmpfile i file s ∧ (file = none → before s)) (mydbmFree file)
        fun _ => before := by
  cases file with
  | none => exact (lines_pure stable fun _ => id).weaken fun s _ holds => holds.2 rfl
  | some m =>
    refine Rules.Outline.weaken (.perform (fun _ => before) (stable_opened (some m)) (fun _ => stable)
      fun s answer t kept opened does => ?_) fun s _ holds => holds.1
    obtain ⟨db, link, data⟩ := opened m rfl
    cases does with
    | @finished _ _ db' open_ =>
      obtain ⟨kept', changed⟩ := allowed_close kept (kept.own i m link) open_
      obtain ⟨kept'', more⟩ := allowed_finish kept' db'
      refine ⟨kept'', changed.trans more, ready _ fun m' link' _ => ⟨db', List.mem_cons_self .., ?_⟩⟩
      obtain rfl : m = m' := Option.some.inj (link.symm.trans link')
      exact Disk.setData_self

theorem lines_setTmp (tmp : Option Bytes) (own : ∀ path ∈ tmp, path = xtmpfile i)
    (stable : (rules xfile xtmpfile i).Stable before) (stays : ∀ s, before s → before (s.setTmp i tmp)) :
      Lines xfile xtmpfile i before (call (.setTmp tmp)) fun _ => before := by
  refine .perform (fun _ => before) stable (fun _ => stable) fun s answer t kept holds does => ?_
  cases does
  obtain ⟨kept', changed⟩ := allowed_setTmp kept own
  exact ⟨kept', changed, stays s holds⟩

/-- If all of the items are inserted, the copy is the database that has been read. -/
theorem lines_copyItems (apart : ∀ i, xtmpfile i ≠ xfile) (m : Nat) {items copied : List (Bytes × Bytes)} {acc : Store}
    (whole : copied ++ items = db.toList) (filled : Filled copied acc) :
      Lines xfile xtmpfile i (fun s => Open xtmpfile i m acc s ∧ Known db s) (copyItems m items) fun ok s =>
        ∃ stored, Open xtmpfile i m stored s ∧ Known db s ∧ (ok = true → stored = db) := by
  induction items generalizing copied acc with
  | nil =>
    rw [List.append_nil] at whole
    subst whole
    exact lines_pure ((stable_open m acc).and (stable_known db)) fun s holds =>
      ⟨acc, holds.1, holds.2, fun _ => filled.whole⟩
  | cons item items ih =>
    obtain ⟨key, content⟩ := item
    have new : ∀ item ∈ copied, item.1 ≠ key := by
      intro item member same
      have distinct := Std.ExtTreeMap.distinct_keys_toList (t := db)
      rw [← whole, List.pairwise_append] at distinct
      exact distinct.2.2 item member _ (List.mem_cons_self ..) (by rw [same]; exact Std.ReflCmp.compare_self)
    have absent : acc.fetch key = none := by
      rw [Option.eq_none_iff_forall_ne_some]
      exact fun value present => new _ ((filled key value).mp present) rfl
    let inserted (ok : Bool) (s : Disk ι) : Prop :=
      Open xtmpfile i m (if ok then acc.replace key content else acc) s ∧ Known db s
    refine .bind (.perform inserted ((stable_open m acc).and (stable_known db))
      (fun ok => (stable_open m _).and (stable_known db)) fun s ok t kept holds does => ?_) fun ok => ?_
    · obtain ⟨⟨link, data⟩, known⟩ := holds
      cases does with
      | @inserted _ _ _ _ db' db'' open_ isNew =>
        obtain rfl : acc = db' := by simpa [data] using open_
        rw [Store.insertNew_absent absent, Option.some.injEq] at isNew
        obtain ⟨kept', changed⟩ := allowed_setData kept apart link (.unflushed db'')
        exact ⟨kept', changed, ⟨link, by rw [Disk.setData_self, if_pos rfl, isNew]⟩, known⟩
      | uninserted => exact ⟨kept, .refl i s, ⟨link, data⟩, known⟩
    · cases ok with
      | true => exact ih (by rw [List.append_assoc, List.singleton_append, whole]) (filled.snoc new)
      | false =>
        exact lines_pure ((stable_open m acc).and (stable_known db)) fun s holds =>
          ⟨acc, holds.1, holds.2, fun no => by cases no⟩

theorem lines_close (m : Nat) : Lines xfile xtmpfile i (fun s => ∃ db, Mine i m db s) (call (.close m)) fun _ _ =>
    True := by
  refine .perform (fun _ _ => True) (fun s t kept kept' within ⟨db, mine⟩ =>
    ⟨db, stable_mine m db s t kept kept' within mine⟩)
    (fun _ => .const _) fun s answer t kept ⟨db, _, own, _⟩ does => ?_
  cases does with
  | closed open_ =>
    obtain ⟨kept', changed⟩ := allowed_close kept own open_
    exact ⟨kept', changed, trivial⟩

section Tasks

/-- What is known when a task is done. -/
structure Left (xtmpfile : ι → Bytes) (i : ι) (before : Disk ι → Prop) (task : Task) (file : Option Nat)
    (outcome : Outcome) (s : Disk ι) : Prop where
  opened : Opened xtmpfile i outcome.file s
  same : file ≠ none → task ≠ .createDb → outcome.file = file
  closed : outcome.file = none → before s ∧ task.unopened outcome.amount ∨ task = .createDb ∧ outcome.amount < 0

variable (apart : ∀ i, xtmpfile i ≠ xfile) (distinct : Function.Injective xtmpfile)

include apart distinct

/-- A task, where something is known of the temporary file if it has not been opened. -/
theorem lines_run (task : Task) (file : Option Nat) (stable : (rules xfile xtmpfile i).Stable before) :
    Lines xfile xtmpfile i (fun s => Opened xtmpfile i file s ∧ (file = none → before s))
      (call (.run task (xtmpfile i) file)) (Left xtmpfile i before task file) := by
  have kept {p : Prop} : (rules xfile xtmpfile i).Stable fun s => p → before s :=
    fun s t before after within holds known => stable s t before after within (holds known)
  refine .perform _ ((stable_opened file).and kept) (fun outcome => ?_) fun s outcome t kept holds does => ?_
  · intro s t before after within left
    refine ⟨stable_opened _ s t before after within left.opened, left.same, fun none => ?_⟩
    exact (left.closed none).imp_left fun known => ⟨stable s t before after within known.1, known.2⟩
  · obtain ⟨kept', changed, opened, same, none⟩ := run_opened kept apart distinct holds.1 does
    refine ⟨kept', changed, opened, same, fun unopened => (none unopened).imp_left ?_⟩
    rintro ⟨closed, rfl, amount⟩
    exact ⟨holds.2 closed, amount⟩

variable {options : Options}

theorem lines_shouldCreate :
    Lines xfile xtmpfile i (Absent xtmpfile i) (shouldCreate xfile (xtmpfile i) options)
      fun should s => should = false → Ready xtmpfile i s := by
  have stable {p : Prop} : (rules xfile xtmpfile i).Stable fun s => p → Ready xtmpfile i s :=
    fun s t before after within holds known => stable_ready s t before after within (holds known)
  refine .ite (fun _ => lines_pure stable_absent fun _ _ no => by cases no) fun _ => ?_
  refine .bind ((lines_xcopy apart distinct).imp fun ret s _ ready => ?_) fun ret =>
    lines_pure (stable (p := ¬ret < 0)) fun s ready no => ready (of_decide_eq_false no)
  exact fun positive => ready.resolve_left positive

theorem lines_checkRemoveTmp : Lines xfile xtmpfile i (fun _ => True) (checkRemove (xtmpfile i)) fun _ _ => True :=
  lines_checkRemove apart distinct (Or.inr rfl) (.const _) fun _ _ => trivial

/-- What is known when old entries have been purged: the database is open, or the copy is as it was. -/
theorem lines_purgeOld :
    Lines xfile xtmpfile i (Ready xtmpfile i) (purgeOld (xtmpfile i) options) fun found s =>
      Opened xtmpfile i found.2.1 s ∧ (found.2.1 = none → Ready xtmpfile i s) ∧
        (found.2.2 = true → found.2.1 = none) := by
  refine .ite (fun _ => ?_) fun _ => lines_pure stable_ready fun s ready => ⟨opened_none s, fun _ => ready, fun _ =>
    rfl⟩
  refine .bind ((lines_run apart distinct .purgeMissing none stable_ready).weaken
    fun s _ ready => ⟨opened_none s, fun _ => ready⟩) fun purged => ?_
  have known {s : Disk ι} (left : Left xtmpfile i (Ready xtmpfile i) .purgeMissing none purged s) :
      purged.file = none → Ready xtmpfile i s :=
    fun none => ((left.closed none).resolve_right fun other => by cases other.1).1
  have stable : (rules xfile xtmpfile i).Stable fun s => Opened xtmpfile i purged.file s ∧
      (purged.file = none → Ready xtmpfile i s) :=
    (stable_opened _).and fun s t before after within holds none => stable_ready s t before after within (holds none)
  refine .ite (fun _ => ?_) fun _ => ?_
  · refine .bind ((lines_finish purged.file stable_ready fun _ => id).weaken fun s _ left => ⟨left.opened, known left⟩)
      fun _ => .bind (lines_checkRemove apart distinct (Or.inr rfl) stable_ready fun s _ => ready_removed s) fun _ => ?_
    exact lines_pure stable_ready fun s ready => ⟨opened_none s, fun _ => ready, fun _ => rfl⟩
  · exact (lines_pure stable fun s holds => ⟨holds.1, holds.2, fun no => by cases no⟩).weaken
      fun s _ left => ⟨left.opened, known left⟩

/-- What is known before the database is created or updated. -/
theorem lines_prepare (should : Bool) :
    Lines xfile xtmpfile i (fun s => should = false → Ready xtmpfile i s) (prepare (xtmpfile i) options should)
      fun found s => Opened xtmpfile i found.2.1 s ∧
        (found.2.1 = none → Ready xtmpfile i s ∨ found.1 = 0 ∧ found.2.2 = true) ∧
        (found.2.2 = true → found.2.1 = none) := by
  cases should with
  | true =>
    refine .bind ((lines_checkRemoveTmp apart distinct).weaken fun _ _ _ => trivial) fun _ => ?_
    exact lines_pure (.const _) fun s _ => ⟨opened_none s, fun _ => Or.inr ⟨rfl, rfl⟩, fun _ => rfl⟩
  | false =>
    refine ((lines_purgeOld apart distinct).weaken fun s _ ready => ready rfl).imp fun found s _ holds => ?_
    exact ⟨holds.1, fun none => Or.inl (holds.2.1 none), holds.2.2⟩

/-- What is known when the database has been created or updated, unless that failed. -/
theorem lines_createOrUpdate (purged : Int) (should : Bool) (file : Option Nat) :
    Lines xfile xtmpfile i (fun s => Opened xtmpfile i file s ∧
        (file = none → Ready xtmpfile i s ∨ purged = 0 ∧ should = true))
      (createOrUpdate (xtmpfile i) options should file) fun done s => Opened xtmpfile i done.2 s ∧
        (done.2 = none → Ready xtmpfile i s ∨ purged = 0 ∧ done.1 ≤ 0 ∨ done.1 < 0) := by
  have stable {p q : Prop} : (rules xfile xtmpfile i).Stable fun s => p → Ready xtmpfile i s ∨ q :=
    fun s t before after within holds known => (holds known).imp_left (stable_ready s t before after within)
  -- a task of which only the return value and `dbf->file` go on
  have returned {task : Task} {before : Disk ι → Prop} {file : Option Nat} {outcome : Outcome}
      (known : ∀ s, Left xtmpfile i before task file outcome s → outcome.file = none →
        Ready xtmpfile i s ∨ purged = 0 ∧ outcome.amount ≤ 0 ∨ outcome.amount < 0) :
      Lines xfile xtmpfile i (Left xtmpfile i before task file outcome) (pure (outcome.amount, outcome.file))
        fun done s => Opened xtmpfile i done.2 s ∧
          (done.2 = none → Ready xtmpfile i s ∨ purged = 0 ∧ done.1 ≤ 0 ∨ done.1 < 0) :=
    (lines_pure ((stable_opened _).and stable) fun s holds => holds).weaken
      fun s _ left => ⟨left.opened, known s left⟩
  refine .ite (fun _ => ?_) fun no => ?_
  · have noReady : (rules xfile xtmpfile i).Stable fun s => Ready xtmpfile i s ∨ purged = 0 :=
      stable_ready.or (.const _)
    refine .bind ((lines_run apart distinct .createDb file noReady).weaken fun s _ holds =>
      ⟨holds.1, fun none => (holds.2 none).imp_right And.left⟩) fun created => returned fun s left none => ?_
    rcases left.closed none with ⟨ready | nothing, amount⟩ | ⟨_, failed⟩
    · exact Or.inl ready
    · exact Or.inr (Or.inl ⟨nothing, amount⟩)
    · exact Or.inr (Or.inr failed)
  · have start : Lines xfile xtmpfile i (fun s => Opened xtmpfile i file s ∧ (file = none → Ready xtmpfile i s))
        (updateDbWrapper (xtmpfile i) options file) fun done s => Opened xtmpfile i done.2 s ∧
          (done.2 = none → Ready xtmpfile i s ∨ purged = 0 ∧ done.1 ≤ 0 ∨ done.1 < 0) := by
      refine .ite (fun _ => ?_) fun _ => ?_
      · refine .bind (lines_run apart distinct .updateOneFile file stable_ready) fun updated =>
          returned fun s left none => Or.inl ((left.closed none).resolve_right fun other => by cases other.1).1
      · refine .bind (lines_run apart distinct .updateDb file stable_ready) fun updated => .ite (fun _ => ?_) fun _ =>
          ?_
        · exact returned fun s left none => Or.inl ((left.closed none).resolve_right fun other => by cases other.1).1
        · refine .bind ((lines_run apart distinct .createDb updated.file stable_ready).weaken fun s _ left =>
            ⟨left.opened, fun none => ((left.closed none).resolve_right fun other => by cases other.1).1⟩)
              fun created => returned fun s left none => ?_
          rcases left.closed none with ⟨ready, _⟩ | ⟨_, failed⟩
          · exact Or.inl ready
          · exact Or.inr (Or.inr failed)
    refine start.weaken fun s _ holds => ⟨holds.1, fun none => (holds.2 none).resolve_right fun both => no both.2⟩

theorem lines_addStrays (file : Option Nat) (stable : (rules xfile xtmpfile i).Stable before) :
    Lines xfile xtmpfile i (fun s => Opened xtmpfile i file s ∧ (file = none → before s))
      (addStrays (xtmpfile i) options file) fun strays s => Opened xtmpfile i file s ∧
        (file = none → before s ∧ strays = 0) := by
  have kept {p : Prop} : (rules xfile xtmpfile i).Stable fun s => p → before s :=
    fun s t before after within holds known => stable s t before after within (holds known)
  refine .ite (fun both => ?_) fun _ => ?_
  · have open_ : file ≠ none := by
      rintro rfl
      simp at both
    refine .bind (lines_run apart distinct .straycats file stable) fun found => ?_
    refine (lines_pure (stable_opened file) fun s opened => ⟨opened, fun none => absurd none open_⟩).weaken
      fun s _ left => ?_
    exact left.same open_ (by decide) ▸ left.opened
  · exact lines_pure ((stable_opened file).and kept) fun s holds => ⟨holds.1, fun none => ⟨holds.2 none, rfl⟩⟩

/-- When `mandb` returns, what it is to publish is a finished update. -/
theorem lines_mandb :
    Lines xfile xtmpfile i (Absent xtmpfile i) (mandb xfile (xtmpfile i) options) fun done s =>
      Ready xtmpfile i s ∨ (done.2.1 = 0 ∧ done.1 ≤ 0 ∧ done.2.2 = 0) ∨ done.1 < 0 := by
  have stable {p : Prop} : (rules xfile xtmpfile i).Stable fun s => Ready xtmpfile i s ∨ p := stable_ready.or (.const _)
  refine .bind (.perform (fun _ => Absent xtmpfile i) stable_absent (fun _ => stable_absent)
    fun s answer t kept absent does => ?_) fun _ => ?_
  · cases does
    have own : ∀ path ∈ some (xtmpfile i), path = xtmpfile i := fun path same => (Option.some.inj same).symm
    obtain ⟨kept', changed⟩ := allowed_setTmp kept own
    exact ⟨kept', changed, absent⟩
  refine .bind (lines_shouldCreate apart distinct) fun should =>
    .bind (lines_prepare apart distinct should) fun found => ?_
  obtain ⟨purged, file, should⟩ := found
  refine .bind ((lines_createOrUpdate apart distinct purged should file).weaken fun s _ holds => ⟨holds.1, holds.2.1⟩)
    fun done => ?_
  obtain ⟨amount, file⟩ := done
  refine .bind (lines_addStrays apart distinct file stable) fun strays => ?_
  have ends : Lines xfile xtmpfile i (fun s => Opened xtmpfile i file s ∧ (file = none →
      Ready xtmpfile i s ∨ (purged = 0 ∧ amount ≤ 0 ∧ strays = 0) ∨ amount < 0)) (mydbmFree file) fun _ s =>
        Ready xtmpfile i s ∨ (purged = 0 ∧ amount ≤ 0 ∧ strays = 0) ∨ amount < 0 :=
    lines_finish file stable fun _ => Or.inl
  refine .bind (ends.weaken fun s _ holds => ⟨holds.1, fun none => ?_⟩) fun _ => lines_pure stable fun _ => id
  obtain ⟨ready | ⟨nothing, low⟩ | failed, noStrays⟩ := holds.2 none
  · exact Or.inl ready
  · exact Or.inr (Or.inl ⟨nothing, low, noStrays⟩)
  · exact Or.inr (Or.inr failed)

theorem lines_reorganize :
    Lines xfile xtmpfile i (fun _ => True) (reorganize xfile (xtmpfile i)) fun _ _ => True := by
  have ends := lines_checkRemoveTmp (i := i) apart distinct
  refine .bind (.perform (fun answer s => ∀ db, answer = some db → Known db s) (.const _) (fun answer => ?_)
    fun s answer t kept _ does => ?_) fun answer => ?_
  · exact fun s t before after within holds db same => stable_known db s t before after within (holds db same)
  · cases does with
    | @read _ _ _ stored there whole =>
      refine ⟨kept, .refl i s, fun db same uncaught => ?_⟩
      obtain rfl : stored = db := Option.some.inj same
      obtain ⟨db', member, holds⟩ := kept.index _ there uncaught
      have equal : db' = stored := by simpa [whole, eq_comm] using holds
      exact equal ▸ member
    | readOpen =>
      obtain ⟨kept', changed⟩ := allowed_catch kept
      exact ⟨kept', changed, fun _ _ uncaught => by cases uncaught⟩
    | unread => exact ⟨kept, .refl i s, fun _ same => by cases same⟩
  cases answer with
  | none => exact ends.weaken fun _ _ _ => trivial
  | some db =>
    refine .ite (fun _ => ends.weaken fun _ _ _ => trivial) fun _ => ?_
    let created (answer : Option Nat) (s : Disk ι) : Prop := ∀ m, answer = some m → Open xtmpfile i m ∅ s ∧ Known db s
    refine Rules.Outline.weaken (.bind (.perform created (stable_known db) (fun answer => ?_)
      fun s answer t kept known does => ?_) fun answer => ?_) fun s _ known => known db rfl
    · exact fun s t before after within holds m same =>
        ((stable_open m ∅).and (stable_known db)) s t before after within (holds m same)
    · cases does with
      | created absent =>
        obtain ⟨kept', changed⟩ := allowed_make kept apart distinct absent (.unflushed ∅)
        refine ⟨kept', changed, fun m same => ?_⟩
        cases same
        exact ⟨⟨Disk.make_link_self, Disk.make_data_self⟩, known⟩
      | recreated there =>
        obtain ⟨kept', changed⟩ := allowed_setData kept apart there (.unflushed ∅)
        refine ⟨kept', changed, fun m same => ?_⟩
        cases same
        exact ⟨⟨there, Disk.setData_self⟩, known⟩
      | uncreated => exact ⟨kept, .refl i s, fun _ same => by cases same⟩
    cases answer with
    | none => exact ends.weaken fun _ _ _ => trivial
    | some m =>
      refine Rules.Outline.weaken (.bind (lines_copyItems apart m (List.nil_append _) .empty) fun ok => ?_)
        fun s _ holds => holds m rfl
      refine .ite (fun copied => ?_) fun _ => ?_
      · have stable : (rules xfile xtmpfile i).Stable fun s => Open xtmpfile i m db s ∧ Known db s :=
          (stable_open m db).and (stable_known db)
        refine Rules.Outline.weaken (.bind (lines_dbpathsRenameFromTmp apart distinct stable (stable_mine m db)
          (fun s m' kept holds there => ?_) (fun s kept holds => holds.1.mine kept) fun _ _ _ _ mine => mine)
            fun _ => (lines_close m).weaken fun s _ mine => ⟨db, mine⟩) fun s _ ⟨stored, open_, known, same⟩ =>
              ⟨same copied ▸ open_, known⟩
        obtain rfl : m = m' := Option.some.inj (holds.1.1.symm.trans there)
        exact holds.1.good holds.2
      · exact .bind ((lines_close m).weaken fun s kept ⟨stored, open_, _⟩ => ⟨stored, open_.mine kept⟩) fun _ => ends

/-- What a process does for a hierarchy, from where it has no temporary file. -/
theorem lines_processManpath :
    Lines xfile xtmpfile i (Absent xtmpfile i) (processManpath xfile (xtmpfile i) options) fun _ _ => True := by
  have unset {before : Disk ι → Prop} (stable : (rules xfile xtmpfile i).Stable before)
      (stays : ∀ s, before s → before (s.setTmp i none)) :
      Lines xfile xtmpfile i before (call (.setTmp none)) fun _ => before :=
    lines_setTmp none (fun _ none => by cases none) stable stays
  have true_ : (rules xfile xtmpfile i).Stable fun _ => True := .const _
  refine .bind (unset stable_absent fun _ absent => absent) fun _ => .bind (lines_mandb apart distinct) fun done => ?_
  obtain ⟨amount, purged, strays⟩ := done
  refine .ite (fun publish => ?_) fun _ => ?_
  · refine Rules.Outline.weaken (.bind (lines_dbpathsRenameFromTmp apart distinct stable_ready true_
      (fun s m _ ready there => .of_closed (ready m there)) (fun _ _ _ => trivial) fun _ _ _ _ _ => trivial)
        fun _ => .bind (unset true_ fun _ _ => trivial) fun _ => lines_reorganize apart distinct) fun s _ known => ?_
    refine known.resolve_right fun other => ?_
    obtain ⟨low, _, something⟩ := publish
    rcases other with ⟨noPurged, noAmount, noStrays⟩ | failed
    · rcases something with amount | purged | strays
      · exact amount (Int.le_antisymm noAmount low)
      · exact purged noPurged
      · exact strays noStrays
    · exact absurd low (Int.not_le.mpr failed)
  · exact .bind ((lines_checkRemoveTmp apart distinct).weaken fun _ _ _ => trivial) fun _ => unset true_ fun _ _ =>
      trivial

end Tasks

end ManDb.Publication
