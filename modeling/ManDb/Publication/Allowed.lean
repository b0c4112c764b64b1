import ManDb.Publication.Mandb

namespace ManDb.Publication

open Threads

variable {ι : Type} {xfile : Bytes} {xtmpfile : ι → Bytes} {i : ι} {s t : Disk ι} {m n : Nat} {d : Data}
  {db : Store}

theorem Good.of_closed (closed : Closed s n) : Good s n := by
  intro uncaught
  obtain ⟨db, finished, data⟩ := closed uncaught
  exact ⟨db, finished, Or.inl data⟩

/-- A file that has not been changed is as good as before. -/
theorem Good.mono (good : Good s n) (data : t.data n = s.data n) (finished : ∀ db ∈ s.finished, db ∈ t.finished)
    (caught : t.caught = false → s.caught = false) : Good t n := by
  intro uncaught
  obtain ⟨db, member, holds⟩ := good (caught uncaught)
  exact ⟨db, finished db member, data ▸ holds⟩

theorem Closed.mono (closed : Closed s n) (data : t.data n = s.data n) (finished : ∀ db ∈ s.finished, db ∈ t.finished)
    (caught : t.caught = false → s.caught = false) : Closed t n := by
  intro uncaught
  obtain ⟨db, member, holds⟩ := closed (caught uncaught)
  exact ⟨db, finished db member, data ▸ holds⟩

/-- What a step of a process keeps and what it may do. -/
def Allowed (xfile : Bytes) (xtmpfile : ι → Bytes) (i : ι) (s t : Disk ι) : Prop :=
  Kept xfile xtmpfile t ∧ Changed xtmpfile i s t

theorem Changed.refl (i : ι) (s : Disk ι) : Changed xtmpfile i s s where
  tmps _ _ := rfl
  more := Nat.le_refl _
  owners _ _ := rfl
  files _ _ _ := rfl
  finished _ member := member
  caught uncaught := uncaught
  released _ _ outside := ⟨outside, id⟩

theorem Changed.trans {u : Disk ι} (first : Changed xtmpfile i s t) (second : Changed xtmpfile i t u) :
    Changed xtmpfile i s u where
  tmps j other := (second.tmps j other).trans (first.tmps j other)
  more := first.more.trans second.more
  owners n old := (second.owners n (Nat.lt_of_lt_of_le old first.more)).trans (first.owners n old)
  files n old foreign :=
    (second.files n (Nat.lt_of_lt_of_le old first.more) ((first.owners n old).symm ▸ foreign)).trans
      (first.files n old foreign)
  finished db member := second.finished db (first.finished db member)
  caught uncaught := first.caught (second.caught uncaught)
  released n old outside := by
    obtain ⟨still, good⟩ := first.released n old outside
    obtain ⟨after, better⟩ := second.released n (Nat.lt_of_lt_of_le old first.more) still
    exact ⟨after, better ∘ good⟩

/-- What is in the temporary file is in no other place. -/
theorem Kept.tmp_ne (kept : Kept xfile xtmpfile s) (apart : ∀ i, xtmpfile i ≠ xfile)
    (there : s.link (xtmpfile i) = some m)
    (index : s.link xfile = some n) : n ≠ m := by
  rintro rfl
  exact apart i (kept.single _ _ _ there index)

/-- A process may write to its temporary file. -/
theorem allowed_setData (kept : Kept xfile xtmpfile s) (apart : ∀ i, xtmpfile i ≠ xfile)
    (there : s.link (xtmpfile i) = some m) (d : Data) : Allowed xfile xtmpfile i s (s.setData m d) := by
  have elsewhere {n : Nat} (different : n ≠ m) : (s.setData m d).data n = s.data n :=
    Disk.setData_of_ne different
  refine ⟨⟨kept.made, kept.single, kept.own, kept.cleanup, fun n index => ?_⟩, ?_⟩
  · exact (kept.index n index).mono (elsewhere (kept.tmp_ne apart there index)) (fun _ => id) id
  · refine ⟨fun _ _ => rfl, Nat.le_refl _, fun _ _ => rfl, fun n _ foreign => elsewhere ?_, fun _ => id, id, ?_⟩
    · rintro rfl
      exact foreign (kept.own i n there)
    · refine fun n _ outside => ⟨outside, fun good => good.mono (elsewhere ?_) (fun _ => id) id⟩
      rintro rfl
      exact outside i there

theorem allowed_make (kept : Kept xfile xtmpfile s) (apart : ∀ i, xtmpfile i ≠ xfile)
    (distinct : Function.Injective xtmpfile) (absent : s.link (xtmpfile i) = none) (d : Data) :
      Allowed xfile xtmpfile i s (s.make i (xtmpfile i) d) := by
  have old {n : Nat} (less : n < s.fresh) : n ≠ s.fresh := Nat.ne_of_lt less
  have data {n : Nat} (less : n < s.fresh) : (s.make i (xtmpfile i) d).data n = s.data n :=
    Disk.make_data_of_ne (old less)
  have owner {n : Nat} (less : n < s.fresh) : (s.make i (xtmpfile i) d).owner n = s.owner n :=
    Disk.make_owner_of_ne (old less)
  have link {path : Bytes} (other : path ≠ xtmpfile i) : (s.make i (xtmpfile i) d).link path = s.link path :=
    Disk.make_link_of_ne other
  have here : (s.make i (xtmpfile i) d).link (xtmpfile i) = some s.fresh := Disk.make_link_self
  refine ⟨⟨fun path n there => ?_, fun path other n there again => ?_, fun j n there => ?_, kept.cleanup,
    fun n index => ?_⟩, ?_⟩
  · by_cases same : path = xtmpfile i
    · rw [same, here, Option.some.injEq] at there
      exact there ▸ Nat.lt_succ_self _
    · exact Nat.lt_succ_of_lt (kept.made path n (link same ▸ there))
  · have isNew {path : Bytes} (there : (s.make i (xtmpfile i) d).link path = some s.fresh) : path = xtmpfile i := by
      by_contra other
      exact Nat.lt_irrefl _ (kept.made path _ (link other ▸ there))
    by_cases new : n = s.fresh
    · subst new
      exact (isNew there).trans (isNew again).symm
    · have different {path : Bytes} (there : (s.make i (xtmpfile i) d).link path = some n) : path ≠ xtmpfile i := by
        intro same
        rw [same, here, Option.some.injEq] at there
        exact new there.symm
      exact kept.single path other n (link (different there) ▸ there) (link (different again) ▸ again)
  · by_cases same : j = i
    · subst same
      rw [here, Option.some.injEq] at there
      exact there ▸ Disk.make_owner_self
    · rw [link (distinct.ne same)] at there
      exact (owner (kept.made _ n there)).trans (kept.own j n there)
  · rw [link (apart i).symm] at index
    exact (kept.index n index).mono (data (kept.made _ n index)) (fun _ => id) id
  · refine ⟨fun j other => link (distinct.ne other), Nat.le_succ _, fun n less => owner less, fun n less _ => data less,
      fun _ => id, id, fun n less outside => ⟨fun j there => ?_, fun good => good.mono (data less) (fun _ => id) id⟩⟩
    by_cases same : j = i
    · subst same
      rw [here, Option.some.injEq] at there
      exact old less there.symm
    · exact outside j (link (distinct.ne same) ▸ there)

/-- A process may remove its temporary file, and the index. -/
theorem allowed_unlink (kept : Kept xfile xtmpfile s) (distinct : Function.Injective xtmpfile)
    {path : Bytes} (own : path = xtmpfile i ∨ ∀ j, path ≠ xtmpfile j) :
      Allowed xfile xtmpfile i s (s.setLink path none) := by
  have still {other : Bytes} {n : Nat} (there : (s.setLink path none).link other = some n) : s.link other = some n := by
    by_cases same : other = path
    · rw [same, Disk.setLink_self] at there
      cases there
    · rwa [Disk.setLink_of_ne same] at there
  refine ⟨⟨fun other n there => kept.made other n (still there),
    fun first second n there again => kept.single first second n (still there) (still again),
    fun j n there => kept.own j n (still there), kept.cleanup, fun n index => kept.index n (still index)⟩, ?_⟩
  refine ⟨fun j other => Disk.setLink_of_ne ?_, Nat.le_refl _, fun _ _ => rfl, fun _ _ _ => rfl, fun _ => id, id,
    fun n _ outside => ⟨fun j there => outside j (still there), id⟩⟩
  rcases own with rfl | none
  · exact distinct.ne other
  · exact (none j).symm

/-- A finished update in the temporary file may become the index. -/
theorem allowed_rename (kept : Kept xfile xtmpfile s) (apart : ∀ i, xtmpfile i ≠ xfile)
    (distinct : Function.Injective xtmpfile) (there : s.link (xtmpfile i) = some m) (good : Good s m) :
      Allowed xfile xtmpfile i s ((s.setLink xfile (some m)).setLink (xtmpfile i) none) := by
  have gone : ((s.setLink xfile (some m)).setLink (xtmpfile i) none).link (xtmpfile i) = none := Disk.setLink_self
  have index : ((s.setLink xfile (some m)).setLink (xtmpfile i) none).link xfile = some m :=
    (Disk.setLink_of_ne (apart i).symm).trans Disk.setLink_self
  have link {path : Bytes} (other : path ≠ xtmpfile i) (noIndex : path ≠ xfile) :
      ((s.setLink xfile (some m)).setLink (xtmpfile i) none).link path = s.link path :=
    (Disk.setLink_of_ne other).trans (Disk.setLink_of_ne noIndex)
  -- where a file is now, it was before, if it was not in the temporary file
  have before {path : Bytes} {n : Nat} (now : ((s.setLink xfile (some m)).setLink (xtmpfile i) none).link path =
      some n) :
      path = xfile ∧ n = m ∨ path ≠ xfile ∧ s.link path = some n := by
    by_cases same : path = xtmpfile i
    · rw [same, gone] at now
      cases now
    · by_cases isIndex : path = xfile
      · rw [isIndex, index, Option.some.injEq] at now
        exact Or.inl ⟨isIndex, now.symm⟩
      · exact Or.inr ⟨isIndex, link same isIndex ▸ now⟩
  have notTmp {path : Bytes} (now : ((s.setLink xfile (some m)).setLink (xtmpfile i) none).link path = some m) :
      path = xfile := by
    rcases before now with ⟨isIndex, _⟩ | ⟨_, old⟩
    · exact isIndex
    · rw [kept.single path _ m old there, gone] at now
      cases now
  refine ⟨⟨fun path n now => ?_, fun path other n now again => ?_, fun j n now => ?_, kept.cleanup, fun n now => ?_⟩,
    ?_⟩
  · rcases before now with ⟨_, rfl⟩ | ⟨_, old⟩
    · exact kept.made _ n there
    · exact kept.made path n old
  · rcases before now with ⟨rfl, rfl⟩ | ⟨_, old⟩
    · exact (notTmp again).symm
    · rcases before again with ⟨rfl, rfl⟩ | ⟨_, older⟩
      · exact notTmp now
      · exact kept.single path other n old older
  · rcases before now with ⟨isIndex, _⟩ | ⟨_, old⟩
    · exact absurd isIndex (apart j)
    · exact kept.own j n old
  · rw [index, Option.some.injEq] at now
    exact now ▸ good
  · refine ⟨fun j other => link (distinct.ne other) (apart j), Nat.le_refl _, fun _ _ => rfl, fun _ _ _ => rfl, fun _ =>
      id, id,
      fun n _ outside => ⟨fun j now => ?_, id⟩⟩
    rcases before now with ⟨isIndex, _⟩ | ⟨_, old⟩
    · exact apart j isIndex
    · exact outside j old

/-- From then on nothing is claimed. -/
theorem allowed_catch (kept : Kept xfile xtmpfile s) : Allowed xfile xtmpfile i s s.catch_ := by
  have caught {n : Nat} : Good s.catch_ n := fun uncaught => by cases uncaught
  refine ⟨⟨kept.made, kept.single, kept.own, kept.cleanup, fun _ _ => caught⟩, ?_⟩
  refine ⟨fun _ _ => rfl, Nat.le_refl _, fun _ _ => rfl, fun _ _ _ => rfl, fun _ => id, fun uncaught => ?_,
    fun _ _ outside => ⟨outside, fun _ => caught⟩⟩
  cases uncaught

theorem allowed_finish (kept : Kept xfile xtmpfile s) (db : Store) : Allowed xfile xtmpfile i s (s.finish db) := by
  have more {n : Nat} (good : Good s n) : Good (s.finish db) n :=
    good.mono rfl (fun _ member => List.mem_cons_of_mem _ member) id
  exact ⟨⟨kept.made, kept.single, kept.own, kept.cleanup, fun n index => more (kept.index n index)⟩,
    ⟨fun _ _ => rfl, Nat.le_refl _, fun _ _ => rfl, fun _ _ _ => rfl, fun _ member => List.mem_cons_of_mem _ member, id,
      fun _ _ outside => ⟨outside, more⟩⟩⟩

theorem allowed_setTmp [DecidableEq ι] (kept : Kept xfile xtmpfile s) {tmp : Option Bytes}
    (own : ∀ path ∈ tmp, path = xtmpfile i) :
    Allowed xfile xtmpfile i s (s.setTmp i tmp) := by
  refine ⟨⟨kept.made, kept.single, kept.own, fun j path now => ?_, kept.index⟩,
    ⟨fun _ _ => rfl, Nat.le_refl _, fun _ _ => rfl, fun _ _ _ => rfl, fun _ => id, id, fun _ _ outside =>
      ⟨outside, id⟩⟩⟩
  by_cases same : j = i
  · subst same
    rw [Disk.setTmp_self] at now
    exact own path now
  · rw [Disk.setTmp_of_ne same] at now
    exact kept.cleanup j path now

/-- A process may close what it has written, wherever it is by now. -/
theorem allowed_close (kept : Kept xfile xtmpfile s) (mine : s.owner m = i) (open_ : s.data m = .unflushed db) :
    Allowed xfile xtmpfile i s (s.setData m (.database db)) := by
  have elsewhere {n : Nat} (different : n ≠ m) : (s.setData m (.database db)).data n = s.data n :=
    Disk.setData_of_ne different
  have good {n : Nat} (good : Good s n) : Good (s.setData m (.database db)) n := by
    by_cases same : n = m
    · subst same
      intro uncaught
      obtain ⟨db', member, holds⟩ := good uncaught
      have equal : db' = db := by simpa [open_, eq_comm] using holds
      exact ⟨db', member, Or.inl (by rw [equal, Disk.setData_self])⟩
    · exact good.mono (elsewhere same) (fun _ => id) id
  refine ⟨⟨kept.made, kept.single, kept.own, kept.cleanup, fun n index => good (kept.index n index)⟩,
    ⟨fun _ _ => rfl, Nat.le_refl _, fun _ _ => rfl, fun n _ foreign => elsewhere ?_, fun _ => id, id,
      fun _ _ outside => ⟨outside, good⟩⟩⟩
  rintro rfl
  exact foreign mine

end ManDb.Publication
