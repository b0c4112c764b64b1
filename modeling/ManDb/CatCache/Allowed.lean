import ManDb.CatCache.Display

namespace ManDb.CatCache

open Threads

variable {ι Content Setting Text : Type}

section Rules

variable (format : Setting → Content → Text)

/-- The text is a page as it has been installed at some time, formatted by some run. -/
def Formatted (w : World ι Content Text) (text : Text) : Prop :=
  ∃ page ∈ w.pages, ∃ setting, text = format setting page.content

/-- A cat file has the modification time of the page that it shows, or the time at which it was written. -/
def Valid (w : World ι Content Text) (cat : CatFile Text) : Prop :=
  ∃ page ∈ w.pages, ∃ setting, cat.text = some (format setting page.content) ∧
    (cat.mtime = page.mtime ∨ cat.mtime ∈ w.written)

/-- What always holds, up to a race. -/
structure Kept (w : World ι Content Text) : Prop where
  current : w.page ∈ w.pages
  old : ∀ n, w.cat = some n → n < w.fresh
  younger : ∀ i n, w.made i = some n → n < w.fresh
  single : ∀ i j n, w.made i = some n → w.made j = some n → i = j
  told : w.raced = false → ∀ page ∈ w.pages, ∀ other ∈ w.pages, page.mtime = other.mtime → page.content = other.content
  apart : w.raced = false → ∀ page ∈ w.pages, page.mtime ∉ w.written
  cat : w.raced = false → ∀ n, w.cat = some n → Valid format w (w.file n)
  shown : w.raced = false → ∀ text ∈ w.shown, Formatted format w text

/-- What the others leave a run. -/
structure Foreign (i : ι) (w v : World ι Content Text) : Prop where
  pages : ∀ page ∈ w.pages, page ∈ v.pages
  written : ∀ mtime ∈ w.written, mtime ∈ v.written
  raced : v.raced = false → w.raced = false
  reading : v.reading i = w.reading i
  made : v.made i = w.made i
  file : v.raced = false → ∀ n, w.made i = some n → v.file n = w.file n
  unlinked : ∀ n, w.made i = some n → w.cat ≠ some n → v.cat ≠ some n

def rules (i : ι) : Rules (World ι Content Text) where
  invariant := Kept format
  rely := Foreign i
  guarantee w v := ∀ j, j ≠ i → Foreign j w v

end Rules

variable {format : Setting → Content → Text} {i : ι} {w v : World ι Content Text} {n : Nat} {mtime : Timespec}
  {text : Text} {cat : CatFile Text} {page : Page Content}

theorem Formatted.mono (formatted : Formatted format w text) (pages : ∀ page ∈ w.pages, page ∈ v.pages) :
    Formatted format v text := by
  obtain ⟨page, member, setting, same⟩ := formatted
  exact ⟨page, pages page member, setting, same⟩

theorem Valid.mono (valid : Valid format w cat) (pages : ∀ page ∈ w.pages, page ∈ v.pages)
    (written : ∀ mtime ∈ w.written, mtime ∈ v.written) : Valid format v cat := by
  obtain ⟨page, member, setting, same, time⟩ := valid
  exact ⟨page, pages page member, setting, same, time.imp_right (written _)⟩

/-- What a run may do. -/
def Allowed (format : Setting → Content → Text) (i : ι) (w v : World ι Content Text) : Prop :=
  Kept format v ∧ ∀ j, j ≠ i → Foreign j w v

theorem Foreign.refl (i : ι) (w : World ι Content Text) : Foreign i w w :=
  ⟨fun _ => id, fun _ => id, id, rfl, rfl, fun _ _ _ => rfl, fun _ _ => id⟩

theorem Foreign.trans {u : World ι Content Text} (first : Foreign i w v) (second : Foreign i v u) : Foreign i w u where
  pages page member := second.pages page (first.pages page member)
  written mtime member := second.written mtime (first.written mtime member)
  raced none := first.raced (second.raced none)
  reading := second.reading.trans first.reading
  made := second.made.trans first.made
  file none n own :=
    (second.file none n (first.made.trans own)).trans (first.file (second.raced none) n own)
  unlinked n own not := second.unlinked n (first.made.trans own) (first.unlinked n own not)

theorem Allowed.refl (kept : Kept format w) : Allowed format i w w := ⟨kept, fun j _ => .refl j w⟩

theorem Allowed.trans {u : World ι Content Text} (first : Allowed format i w v) (second : Allowed format i v u) :
    Allowed format i w u :=
  ⟨second.1, fun j other => (first.2 j other).trans (second.2 j other)⟩

/-- After a race nothing more is claimed. -/
theorem raced_elim {p : Prop} (none : true = false) : p := by cases none

theorem foreign_race (i : ι) (w : World ι Content Text) : Foreign i w w.race :=
  ⟨fun _ => id, fun _ => id, raced_elim, rfl, rfl, raced_elim, fun _ _ => id⟩

theorem kept_race (kept : Kept format w) : Kept format w.race :=
  ⟨kept.current, kept.old, kept.younger, kept.single, raced_elim, raced_elim, raced_elim, raced_elim⟩

theorem allowed_race (kept : Kept format w) : Allowed format i w w.race := ⟨kept_race kept, fun j _ => foreign_race j w⟩

/-- A run may write to the file that it has made. -/
theorem allowed_setFile (cat : CatFile Text) (kept : Kept format w) (own : w.raced = false → w.made i = some n)
    (valid : w.raced = false → w.cat = some n → Valid format w cat) : Allowed format i w (w.setFile n cat) := by
  have other {m : Nat} (different : m ≠ n) : (w.setFile n cat).file m = w.file m :=
    World.setFile_of_ne different
  refine ⟨⟨kept.current, kept.old, kept.younger, kept.single, kept.told, kept.apart, fun none m there => ?_,
    kept.shown⟩, fun j foreign => ⟨fun _ => id, fun _ => id, id, rfl, rfl, fun none m made => other ?_, fun _ _ => id⟩⟩
  · by_cases same : m = n
    · subst same
      rw [World.setFile_self]
      exact valid none there
    · rw [other same]
      exact kept.cat none m there
  · rintro rfl
    exact foreign (kept.single j i m made (own none))

theorem allowed_record (kept : Kept format w) (apart : w.raced = false → ∀ page ∈ w.pages, page.mtime ≠ mtime) :
    Allowed format i w (w.record mtime) := by
  have more : ∀ other ∈ w.written, other ∈ (w.record mtime).written := fun _ member => List.mem_cons_of_mem _ member
  refine ⟨⟨kept.current, kept.old, kept.younger, kept.single, kept.told, fun none page member written => ?_,
    fun none n there => (kept.cat none n there).mono (fun _ => id) more, kept.shown⟩,
    fun j _ => ⟨fun _ => id, more, id, rfl, rfl, fun _ _ _ => rfl, fun _ _ => id⟩⟩
  rcases List.mem_cons.mp written with same | before
  · exact apart none page member same
  · exact kept.apart none page member before

/-- A run may rename the file that it has made. -/
theorem allowed_link (kept : Kept format w) (own : w.made i = some n)
    (valid : w.raced = false → Valid format w (w.file n)) : Allowed format i w (w.link n) := by
  refine ⟨⟨kept.current, fun m there => ?_, kept.younger, kept.single, kept.told, kept.apart, fun none m there => ?_,
    kept.shown⟩, fun j foreign => ⟨fun _ => id, fun _ => id, id, rfl, rfl, fun _ _ _ => rfl, fun m made _ there => ?_⟩⟩
  · exact Option.some.inj there ▸ kept.younger i n own
  · exact Option.some.inj there ▸ valid none
  · obtain rfl := Option.some.inj there
    exact foreign (kept.single j i n made own)

theorem allowed_display (kept : Kept format w) (formatted : w.raced = false → Formatted format w text) :
    Allowed format i w (w.display text) := by
  refine ⟨⟨kept.current, kept.old, kept.younger, kept.single, kept.told, kept.apart, kept.cat, fun none other member =>
    ?_⟩,
    fun j _ => ⟨fun _ => id, fun _ => id, id, rfl, rfl, fun _ _ _ => rfl, fun _ _ => id⟩⟩
  rcases List.mem_cons.mp member with same | before
  · exact same ▸ formatted none
  · exact kept.shown none other before

theorem foreign_install (i : ι) (page : Page Content) (w : World ι Content Text) : Foreign i w (w.install page) :=
  ⟨fun _ member => List.mem_cons_of_mem _ member, fun _ => id, id, rfl, rfl, fun _ _ _ => rfl, fun _ _ => id⟩

/-- A page may be installed at any time. -/
theorem kept_install (kept : Kept format w) (timely : w.raced = false → w.Timely page) :
    Kept format (w.install page) := by
  have more : ∀ other ∈ w.pages, other ∈ (w.install page).pages := fun _ member => List.mem_cons_of_mem _ member
  refine ⟨List.mem_cons_self .., kept.old, kept.younger, kept.single, fun none first left second right same => ?_,
    fun none other member => ?_, fun none n there => (kept.cat none n there).mono more fun _ => id,
    fun none text member => (kept.shown none text member).mono more⟩
  · obtain ⟨told, _⟩ := timely none
    rcases List.mem_cons.mp left with rfl | first_
    · rcases List.mem_cons.mp right with rfl | second_
      · rfl
      · exact (told second second_ same.symm).symm
    · rcases List.mem_cons.mp right with rfl | second_
      · exact told first first_ same
      · exact kept.told none first first_ second second_ same
  · rcases List.mem_cons.mp member with rfl | before
    · exact (timely none).2
    · exact kept.apart none other before

variable [DecidableEq ι]

theorem allowed_read (kept : Kept format w) : Allowed format i w (w.read i) :=
  ⟨⟨kept.current, kept.old, kept.younger, kept.single, kept.told, kept.apart, kept.cat, kept.shown⟩,
    fun _ other => ⟨fun _ => id, fun _ => id, id, Function.update_of_ne other .., rfl, fun _ _ _ => rfl, fun _ _ => id⟩⟩

theorem allowed_make (kept : Kept format w) (cat : CatFile Text) : Allowed format i w (w.make i cat) := by
  have file {m : Nat} (less : m < w.fresh) : (w.make i cat).file m = w.file m :=
    Function.update_of_ne (Nat.ne_of_lt less) ..
  have mine : (w.make i cat).made i = some w.fresh := Function.update_self ..
  have made {j : ι} (other : j ≠ i) : (w.make i cat).made j = w.made j := Function.update_of_ne other ..
  have new {j : ι} {m : Nat} (there : (w.make i cat).made j = some m) : j = i ∧ m = w.fresh ∨ j ≠ i ∧
      w.made j = some m := by
    by_cases same : j = i
    · subst same
      exact Or.inl ⟨rfl, Option.some.inj (there.symm.trans mine)⟩
    · exact Or.inr ⟨same, made same ▸ there⟩
  refine ⟨⟨kept.current, fun m there => Nat.lt_succ_of_lt (kept.old m there), fun j m there => ?_,
    fun j k m left right => ?_,
    kept.told, kept.apart, fun none m there => ?_, kept.shown⟩, fun j other => ⟨fun _ => id, fun _ => id, id, rfl,
      made other,
      fun _ m there => file (kept.younger j m there), fun _ _ => id⟩⟩
  · rcases new there with ⟨_, rfl⟩ | ⟨_, before⟩
    · exact Nat.lt_succ_self _
    · exact Nat.lt_succ_of_lt (kept.younger j m before)
  · rcases new left with ⟨rfl, rfl⟩ | ⟨_, before⟩
    · rcases new right with ⟨same, _⟩ | ⟨_, old⟩
      · exact same.symm
      · exact absurd (kept.younger k _ old) (Nat.lt_irrefl _)
    · rcases new right with ⟨_, rfl⟩ | ⟨_, old⟩
      · exact absurd (kept.younger j _ before) (Nat.lt_irrefl _)
      · exact kept.single j k m before old
  · rw [file (kept.old m there)]
    exact kept.cat none m there

end ManDb.CatCache
