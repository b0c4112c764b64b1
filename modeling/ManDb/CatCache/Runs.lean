import ManDb.CatCache.Outlines

namespace ManDb.CatCache

open Threads

variable {ι Content Setting Text : Type}

/-- A run that is interrupted unlinks its temporary cat, or it does nothing more. -/
inductive Interrupted (i : ι) (w : World ι Content Text) : Code Content Text Unit → Prop
  | handled {file : Nat} (made : w.made i = some file) : Interrupted i w (call (.unlink file))
  | killed : Interrupted i w (pure ())

/-- Runs of `man` for one page. -/
abbrev Viewers (ι Content Text : Type) := Pool (Call Text) (Answer Content Text) (World ι Content Text) ι

/-- A run makes a call, or it is interrupted, or the page is installed anew. -/
abbrev Turn [DecidableEq ι] : Viewers ι Content Text → Viewers ι Content Text → Prop :=
  Step Does Interrupted Installs

def startViewers (format : Setting → Content → Text) (requests : ι → Request Content Setting)
    (w : World ι Content Text) : Viewers ι Content Text where
  state := w
  threads i := display format (requests i)

/-- How the runs find the page and its cat, if there is one. -/
structure Found (format : Setting → Content → Text) (w : World ι Content Text) : Prop where
  current : w.page ∈ w.pages
  old : ∀ n, w.cat = some n → n < w.fresh
  unmade : ∀ i, w.made i = none
  told : ∀ page ∈ w.pages, ∀ other ∈ w.pages, page.mtime = other.mtime → page.content = other.content
  apart : ∀ page ∈ w.pages, page.mtime ∉ w.written
  cat : ∀ n, w.cat = some n → Valid format w (w.file n)
  shown : w.shown = []

variable {format : Setting → Content → Text} {requests : ι → Request Content Setting} {w : World ι Content Text}
  {pool : Viewers ι Content Text}

theorem Found.kept (found : Found format w) : Kept format w where
  current := found.current
  old := found.old
  younger i n made := by
    rw [found.unmade] at made
    cases made
  single i j n made := by
    rw [found.unmade] at made
    cases made
  told _ := found.told
  apart _ := found.apart
  cat _ := found.cat
  shown _ text member := by
    rw [found.shown] at member
    cases member

/-- A cat that is not out of date has the modification time of its page. -/
theorem mtime_of_upToDate {man cat : FileStat} (upToDate : outOfDate (isChanged (some man) (some cat)) = false) :
    man.mtime = cat.mtime := by
  have equal : timespecCmp man.mtime cat.mtime = .eq := by
    by_contra different
    simp only [isChanged, outOfDate, if_pos different, Bool.or_eq_false_iff, decide_eq_false_iff_not] at upToDate
    obtain ⟨_, odd⟩ := upToDate
    split at odd <;> split at odd <;> exact odd (by decide)
  obtain ⟨_, sec, nsec⟩ := man
  obtain ⟨_, sec', nsec'⟩ := cat
  simp only [timespecCmp, Ordering.then_eq_eq, Std.compare_eq_iff_eq] at equal
  rw [equal.1, equal.2]

variable [DecidableEq ι]

theorem rules_fit : Fit Does Interrupted Installs (rules format : ι → Rules (World ι Content Text)) (Kept format) where
  shared _ := rfl
  apart i j different w v _ _ changed := changed j different.symm
  others w v kept installs := by
    cases installs with
    | timely timely => exact ⟨kept_install kept fun _ => timely, fun i => foreign_install i _ w⟩
    | raced =>
      exact ⟨kept_install (kept_race kept) raced_elim, fun i => (foreign_race i w).trans (foreign_install i _ w.race)⟩
  handlers i w p kept handles := by
    cases handles with
    | handled => exact (lines_unlink _).weaken fun _ _ _ => trivial
    | killed => exact (lines_pure (.const True) fun _ => id).weaken fun _ _ _ => trivial

/-- A page that has just been installed, with no cat. -/
def newPage : World Bool Nat Nat where
  page := ⟨7, ⟨100, 0⟩⟩
  cat := none
  file _ := ⟨none, ⟨0, 0⟩⟩
  fresh := 0
  pages := [⟨7, ⟨100, 0⟩⟩]
  written := []
  shown := []
  reading _ := none
  made _ := none
  raced := false

def savingRequest : Request Nat Nat := ⟨80, fun _ => true, false, false, true, false, false⟩

end ManDb.CatCache
