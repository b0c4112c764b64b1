import ManDb.Incremental.Scan

namespace ManDb.Incremental

open Threads

variable {ι : Type}

/-- The time is not before the one that was noted. -/
def Since (noted : Option Timespec) (time : Timespec) : Prop := ∀ from_, noted = some from_ → from_ ≤ time

/-- The directory may have been changed then without the run taking note of it. -/
def Visit.Unwatched (visit : Visit) (name : Bytes) (mtime : Timespec) : Prop :=
  Since (visit.noted name) mtime ∧ mtime ≤ visit.written

/-- A page of a directory that was last changed then has been tested, or it could not be opened, or the change was
made when nothing took note of it. -/
def Database.Accounts (db : Database) (name page : Bytes) (mtime : Timespec) : Prop :=
  (name, page) ∈ db.tested ∨ (name, page) ∈ db.unopened ∨ ∃ visit ∈ db.visits, visit.Unwatched name mtime

/-- The database accounts for the pages of the directories that were last changed within these times. -/
def Covered (tree : Tree) (db : Database) (within : Bytes → Timespec → Prop) : Prop :=
  ∀ name dir page, tree.dirs name = some dir → man.isPrefixOf name = true → page ∈ dir.names → isDots page = false →
    within name dir.mtime → db.Accounts name page dir.mtime

/-- The database accounts for all that was there at this time, which is when it was last written by some run. -/
structure Based (tree : Tree) (db : Database) (last : Timespec) : Prop where
  covered : Covered tree db fun _ mtime => mtime ≤ last
  past : last ≤ tree.clock
  visit : ∃ visit ∈ db.visits, visit.written = last

/-- The database was written in the past, and its runs have been in the past. -/
structure Past (clock : Timespec) (db : Database) : Prop where
  mtime : db.mtime ≤ clock
  visits : ∀ visit ∈ db.visits, ∀ name, Since (visit.noted name) clock

/-- What always holds. -/
structure Kept (w : World ι) : Prop where
  noted : ∀ i name, Since (w.noted i name) w.clock
  looked : ∀ i, w.looked i ≤ w.clock
  tmp : ∀ i db, w.tmp i = some db → Past w.clock db
  index : ∀ db, w.index = some db → Past w.clock db ∧ Based w.toTree db db.mtime

/-- Time goes on, and directories are changed. -/
structure Later (tree tree' : Tree) : Prop where
  clock : tree.clock ≤ tree'.clock
  dirs : ∀ name, tree'.dirs name = tree.dirs name ∨ ∀ dir, tree'.dirs name = some dir → tree.clock ≤ dir.mtime

/-- What the others leave a run. -/
structure Foreign (i : ι) (w v : World ι) : Prop extends Later w.toTree v.toTree where
  tmp : v.tmp i = w.tmp i
  noted : v.noted i = w.noted i
  looked : v.looked i = w.looked i

def rules (i : ι) : Rules (World ι) where
  invariant := Kept
  rely := Foreign i
  guarantee w v := ∀ j, j ≠ i → Foreign j w v

/-- A database that has come from another one with all that it accounts for. -/
structure Database.Grows (db db' : Database) : Prop where
  tested : ∀ page ∈ db.tested, page ∈ db'.tested
  unopened : ∀ page ∈ db.unopened, page ∈ db'.unopened
  visits : ∀ visit ∈ db.visits, visit ∈ db'.visits

def Database.empty : Database := ⟨⟨0, 0⟩, [], [], []⟩

variable {i : ι} {tree tree' : Tree} {w v : World ι} {db db' : Database} {within within' : Bytes → Timespec → Prop}
    {name page : Bytes}
  {mtime last clock clock' : Timespec} {noted : Bytes → Option Timespec}

theorem Since.later {noted : Option Timespec} {time later : Timespec} (since : Since noted time) (le : time ≤ later) :
    Since noted later :=
  fun from_ same => (since from_ same).trans le

theorem Database.Grows.accounts (grows : db.Grows db') (accounts : db.Accounts name page mtime) :
    db'.Accounts name page mtime := by
  rcases accounts with tested | unopened | ⟨visit, member, unwatched⟩
  · exact Or.inl (grows.tested _ tested)
  · exact Or.inr (Or.inl (grows.unopened _ unopened))
  · exact Or.inr (Or.inr ⟨visit, grows.visits visit member, unwatched⟩)

theorem Database.grows_empty (db : Database) : Database.empty.Grows db :=
  ⟨List.forall_mem_nil _, List.forall_mem_nil _, List.forall_mem_nil _⟩

theorem Database.grows_touch (time : Option Timespec) (db : Database) : db.Grows (db.touch time) :=
  ⟨fun _ => id, fun _ => id, fun _ => id⟩

theorem Database.grows_visited (noted : Bytes → Option Timespec) (db : Database) : db.Grows (db.visited noted) :=
  ⟨fun _ => id, fun _ => id, fun _ => List.mem_cons_of_mem _⟩

theorem Covered.grows (covered : Covered tree db within) (grows : db.Grows db') : Covered tree db' within :=
  fun name dir page there prefixed inDir plain inTime =>
    grows.accounts (covered name dir page there prefixed inDir plain inTime)

theorem Covered.mono (covered : Covered tree db within)
    (implies : ∀ name mtime, within' name mtime → within name mtime) :
    Covered tree db within' :=
  fun name dir page there prefixed inDir plain inTime =>
    covered name dir page there prefixed inDir plain (implies name dir.mtime inTime)

/-- What is changed later has to be accounted for already, if it is within the times. -/
theorem Covered.later (covered : Covered tree db within) (later : Later tree tree')
    (new : ∀ name page mtime, tree.clock ≤ mtime → within name mtime → db.Accounts name page mtime) :
      Covered tree' db within := by
  intro name dir page there prefixed inDir plain inTime
  rcases later.dirs name with same | changed
  · exact covered name dir page (same ▸ there) prefixed inDir plain inTime
  · exact new name page dir.mtime (changed dir there) inTime

theorem Based.grows (based : Based tree db last) (grows : db.Grows db') : Based tree db' last := by
  obtain ⟨visit, member, written⟩ := based.visit
  exact ⟨based.covered.grows grows, based.past, visit, grows.visits visit member, written⟩

/-- A run may start from what the database accounts for. -/
theorem Based.unnoted (based : Based tree db last) : Covered tree db fun _ mtime => ¬Since (some last) mtime :=
  based.covered.mono fun _ _ before => (lt_of_not_ge fun le => before fun _ same => Option.some.inj same ▸ le).le

/-- A change at the time of the last writing was made when the run that wrote had taken note of everything. -/
theorem Based.later (based : Based tree db last)
    (past : ∀ visit ∈ db.visits, ∀ name, Since (visit.noted name) tree.clock)
    (later : Later tree tree') : Based tree' db last := by
  refine ⟨based.covered.later later fun name page mtime new old => ?_, based.past.trans later.clock, based.visit⟩
  obtain ⟨visit, member, rfl⟩ := based.visit
  exact Or.inr (Or.inr ⟨visit, member, (past visit member name).later new, old⟩)

theorem Past.later (past : Past clock db) (le : clock ≤ clock') : Past clock' db :=
  ⟨past.mtime.trans le, fun visit member name => (past.visits visit member name).later le⟩

theorem Past.touch (past : Past clock db) {time : Option Timespec} (inPast : ∀ t, time = some t → t ≤ clock) :
    Past clock (db.touch time) := by
  refine ⟨?_, past.visits⟩
  cases time with
  | none => exact past.mtime
  | some t => exact inPast t rfl

theorem Past.visited (past : Past clock db) (inPast : ∀ name, Since (noted name) clock) :
    Past clock (db.visited noted) := by
  refine ⟨past.mtime, fun visit member => ?_⟩
  rcases List.mem_cons.mp member with rfl | before
  · exact inPast
  · exact past.visits visit before

/-- A run that is done leaves a database that accounts for all that was there when it was last written. -/
theorem Based.visited (covered : Covered tree db fun name mtime => ¬Since (noted name) mtime)
    (past : db.mtime ≤ tree.clock) :
    Based tree (db.visited noted) db.mtime := by
  refine ⟨fun name dir page there prefixed inDir plain inTime => ?_, past, _, List.mem_cons_self, rfl⟩
  by_cases since : Since (noted name) dir.mtime
  · exact Or.inr (Or.inr ⟨_, List.mem_cons_self, since, inTime⟩)
  · exact (db.grows_visited noted).accounts (covered name dir page there prefixed inDir plain since)

theorem Later.refl (tree : Tree) : Later tree tree := ⟨le_rfl, fun _ => Or.inl rfl⟩

theorem Foreign.refl (i : ι) (w : World ι) : Foreign i w w := ⟨.refl w.toTree, rfl, rfl, rfl⟩

theorem Foreign.trans {u : World ι} (first : Foreign i w v) (second : Foreign i v u) : Foreign i w u where
  clock := first.clock.trans second.clock
  dirs name := by
    rcases second.dirs name with same | changed
    · rw [same]
      exact first.dirs name
    · exact Or.inr fun dir there => first.clock.trans (changed dir there)
  tmp := second.tmp.trans first.tmp
  noted := second.noted.trans first.noted
  looked := second.looked.trans first.looked

theorem Kept.later (kept : Kept w) (later : Later w.toTree v.toTree) (tmp : v.tmp = w.tmp) (noted : v.noted = w.noted)
    (looked : v.looked = w.looked) (index : v.index = w.index) : Kept v where
  noted i name := by
    rw [noted]
    exact (kept.noted i name).later later.clock
  looked i := by
    rw [looked]
    exact (kept.looked i).trans later.clock
  tmp i db there := by
    rw [tmp] at there
    exact (kept.tmp i db there).later later.clock
  index db there := by
    rw [index] at there
    obtain ⟨past, based⟩ := kept.index db there
    exact ⟨past.later later.clock, based.later past.visits later⟩

/-- What a run may do. -/
def Allowed (i : ι) (w v : World ι) : Prop := Kept v ∧ ∀ j, j ≠ i → Foreign j w v

theorem Allowed.refl (kept : Kept w) : Allowed i w w := ⟨kept, fun j _ => .refl j w⟩

theorem Allowed.trans {u : World ι} (first : Allowed i w v) (second : Allowed i v u) : Allowed i w u :=
  ⟨second.1, fun j other => (first.2 j other).trans (second.2 j other)⟩

theorem stamp_past {written : Bool} (time : Timespec) (stamped : w.stamp written = some time) : time ≤ w.clock := by
  unfold World.stamp at stamped
  split at stamped
  · exact (Option.some.inj stamped).ge
  · cases stamped

variable [DecidableEq ι]

theorem allowed_setTmp (kept : Kept w) (tmp : Option Database) (past : ∀ db, tmp = some db → Past w.clock db) :
    Allowed i w (w.setTmp i tmp) := by
  refine ⟨⟨kept.noted, kept.looked, fun j db there => ?_, kept.index⟩,
    fun j other => ⟨.refl w.toTree, World.setTmp_of_ne other, rfl, rfl⟩⟩
  by_cases same : j = i
  · subst same
    exact past db (World.setTmp_self.symm.trans there)
  · exact kept.tmp j db ((World.setTmp_of_ne same).symm.trans there)

theorem allowed_changeTmp (kept : Kept w) {change : Database → Database}
    (past : ∀ db, Past w.clock db → Past w.clock (change db)) : Allowed i w (w.changeTmp i change) := by
  refine allowed_setTmp kept _ fun db there => ?_
  obtain ⟨before, found, rfl⟩ := Option.map_eq_some_iff.mp there
  exact past before (kept.tmp i before found)

theorem allowed_setNoted (noted : Bytes → Option Timespec) (kept : Kept w) (past : ∀ name, Since (noted name) w.clock) :
    Allowed i w (w.setNoted i noted) := by
  refine ⟨⟨fun j name => ?_, kept.looked, kept.tmp, kept.index⟩,
    fun j other => ⟨.refl w.toTree, rfl, World.setNoted_of_ne other, rfl⟩⟩
  by_cases same : j = i
  · subst same
    rw [World.setNoted_self]
    exact past name
  · rw [World.setNoted_of_ne same]
    exact kept.noted j name

theorem allowed_look (kept : Kept w) : Allowed i w { w with looked := Function.update w.looked i w.clock } := by
  refine ⟨⟨kept.noted, fun j => ?_, kept.tmp, kept.index⟩,
    fun j other => ⟨.refl w.toTree, rfl, rfl, Function.update_of_ne other ..⟩⟩
  by_cases same : j = i
  · subst same
    simp
  · simpa only [Function.update_of_ne same] using kept.looked j

/-- A run may publish a database that accounts for all but what it has noted itself. -/
theorem allowed_publish (open_ : Bool) (kept : Kept w)
    (covered : ∀ db, w.tmp i = some db → Covered w.toTree db fun name mtime => ¬Since (w.noted i name) mtime) :
      Allowed i w (w.publish i open_) := by
  unfold World.publish
  split
  · exact .refl kept
  · rename_i db there
    obtain ⟨kept', foreign⟩ := allowed_setTmp (i := i) kept none fun _ none => by cases none
    refine ⟨⟨kept'.noted, kept'.looked, kept'.tmp, fun db' index => ?_⟩,
      fun j other => ⟨.refl w.toTree, (foreign j other).tmp, rfl, rfl⟩⟩
    obtain rfl := Option.some.inj index
    have past := kept.tmp i db there
    exact ⟨past.visited (kept.noted i), .visited (covered db there) past.mtime⟩

/-- Writing the index once more leaves the time in between for which nobody has taken note of anything. -/
theorem Based.rewritten (based : Based tree db db.mtime) :
    Based tree ((db.touch (some tree.clock)).visited fun _ => some db.mtime) tree.clock :=
  @Based.visited _ (db.touch (some tree.clock)) _ (based.unnoted.grows (db.grows_touch _)) le_rfl

theorem allowed_closeIndex (written : Bool) (kept : Kept w) : Allowed i w (w.closeIndex i written) := by
  unfold World.closeIndex
  split
  · refine ⟨⟨kept.noted, kept.looked, kept.tmp, fun db' index => ?_⟩, fun j _ => ⟨.refl w.toTree, rfl, rfl, rfl⟩⟩
    obtain ⟨db, there, rfl⟩ := Option.map_eq_some_iff.mp index
    obtain ⟨past, based⟩ := kept.index db there
    split
    · refine ⟨(past.touch fun t same => (Option.some.inj same).ge).visited fun name from_ same => ?_, .rewritten based⟩
      exact Option.some.inj same ▸ past.mtime
    · exact ⟨past, based⟩
  · exact .refl kept

end ManDb.Incremental
