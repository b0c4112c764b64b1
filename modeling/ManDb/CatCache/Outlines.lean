import ManDb.CatCache.Allowed

namespace ManDb.CatCache

open Threads

variable {ι Content Setting Text : Type} {format : Setting → Content → Text} {i : ι} {w v : World ι Content Text}
  {n : Nat} {mtime : Timespec} {text : Text} {content : Content}

/-- The run is reading this content. -/
def Reads (i : ι) (content : Content) (w : World ι Content Text) : Prop :=
  ∃ page ∈ w.pages, w.reading i = some page ∧ page.content = content

/-- A page with this content has been installed with this modification time. -/
def Timed (content : Content) (mtime : Timespec) (w : World ι Content Text) : Prop :=
  w.raced = false → ∃ page ∈ w.pages, page.content = content ∧ page.mtime = mtime

/-- The run has made a file. -/
def Made (i : ι) (n : Nat) (w : World ι Content Text) : Prop := w.made i = some n

/-- The run has made a file, and it has written the page to it as it is formatted. -/
def Saved (format : Setting → Content → Text) (i : ι) (n : Nat) (setting : Setting) (content : Content)
    (w : World ι Content Text) : Prop :=
  w.made i = some n ∧
    (w.raced = false → (w.file n).text = some (format setting content) ∧ (w.file n).mtime ∈ w.written)

theorem stable_reads : (rules format i : Rules (World ι Content Text)).Stable (Reads i content) := by
  rintro w v _ _ foreign ⟨page, member, reading, same⟩
  exact ⟨page, foreign.pages page member, foreign.reading.trans reading, same⟩

theorem stable_timed : (rules format i : Rules (World ι Content Text)).Stable (Timed content mtime) := by
  intro w v _ _ foreign timed none
  obtain ⟨page, member, same, time⟩ := timed (foreign.raced none)
  exact ⟨page, foreign.pages page member, same, time⟩

theorem stable_unlinked : (rules format i : Rules (World ι Content Text)).Stable fun w => Made i n w ∧ w.cat ≠ some n :=
  fun _ _ _ _ foreign holds => ⟨foreign.made.trans holds.1, foreign.unlinked n holds.1 holds.2⟩

theorem stable_saved {setting : Setting} : (rules format i).Stable (Saved format i n setting content) := by
  intro w v _ _ foreign ⟨made, saved⟩
  refine ⟨foreign.made.trans made, fun none => ?_⟩
  obtain ⟨text, time⟩ := saved (foreign.raced none)
  rw [foreign.file none n made]
  exact ⟨text, foreign.written _ time⟩

/-- What a run saves shows the page that it has read. -/
theorem Saved.valid {setting : Setting} (saved : Saved format i n setting content w) (timed : Timed content mtime w)
    (none : w.raced = false) : Valid format w (w.file n) := by
  obtain ⟨text, time⟩ := saved.2 none
  obtain ⟨page, member, same, _⟩ := timed none
  exact ⟨page, member, setting, same ▸ text, Or.inr time⟩

theorem Timed.formatted (timed : Timed content mtime w) (setting : Setting) (none : w.raced = false) :
    Formatted format w (format setting content) := by
  obtain ⟨page, member, same, _⟩ := timed none
  exact ⟨page, member, setting, by rw [same]⟩

variable [DecidableEq ι] {before : World ι Content Text → Prop} {r : Request Content Setting}

abbrev Lines {α : Type} (format : Setting → Content → Text) (i : ι) (before : World ι Content Text → Prop)
    (code : Code Content Text α) (after : α → World ι Content Text → Prop) : Prop :=
  (rules format i).Outline (Does i) before code after

theorem lines_pure {α : Type} {value : α} {after : α → World ι Content Text → Prop}
    (stable : (rules format i).Stable before) (implies : ∀ w, before w → after value w) :
      Lines format i before (pure value) after :=
  .done stable fun w _ holds => implies w holds

/-- A call that changes nothing. -/
theorem lines_asks {c : Call Text} (stable : (rules format i).Stable before)
    (same : ∀ (w : World ι Content Text) answer v, Does i c w answer v → v = w) :
    Lines format i before (call c) fun _ => before := by
  refine .perform (fun _ => before) stable (fun _ => stable) fun w answer v kept holds does => ?_
  obtain rfl := same w answer v does
  obtain ⟨kept', foreign⟩ := Allowed.refl (i := i) kept
  exact ⟨kept', foreign, holds⟩

theorem lines_display {text : Text} (stable : (rules format i).Stable before)
    (stays : ∀ w, before w → before (w.display text)) (formatted : ∀ w, before w → w.raced = false →
      Formatted format w text) :
      Lines format i before (call (.display text)) fun _ => before := by
  refine .perform (fun _ => before) stable (fun _ => stable) fun w answer v kept holds does => ?_
  cases does
  obtain ⟨kept', foreign⟩ := allowed_display (i := i) kept (formatted w holds)
  exact ⟨kept', foreign, stays w holds⟩

theorem lines_unlink (file : Nat) : Lines format i (fun _ => True) (call (.unlink file)) fun _ _ => True :=
  lines_asks (.const _) fun _ _ _ does => by cases does; rfl

/-- What is renamed and gets the time of the page is what has been saved from it. -/
theorem lines_commitTmpCat {setting : Setting} (chowns delete : Bool) :
    Lines format i (fun w => Timed content mtime w ∧ (delete = false → Saved format i n setting content w))
      (commitTmpCat chowns n mtime delete) fun _ _ => True := by
  have unlink {before : World ι Content Text → Prop} : Lines format i before (call (.unlink n)) fun _ _ => True :=
    (lines_unlink n).weaken fun _ _ _ => trivial
  have stable : (rules format i).Stable fun w => Timed content mtime w ∧ Saved format i n setting content w :=
    stable_timed.and stable_saved
  have owner : Lines format i (fun w => Timed content mtime w ∧ Saved format i n setting content w)
      (chownTmpCat chowns n) fun _ w => Timed content mtime w ∧ Saved format i n setting content w :=
    .ite (fun _ => lines_asks stable fun _ _ _ does => by cases does; rfl) fun _ => lines_pure stable fun _ => id
  refine .ite (fun _ => unlink) fun keep => Rules.Outline.weaken (.bind owner fun ok => ?_)
    fun w _ holds => ⟨holds.1, holds.2 (Bool.eq_false_iff.mpr keep)⟩
  refine .ite (fun _ => unlink) fun _ => .bind (lines_asks stable fun _ _ _ does => by cases does; rfl) fun ok => ?_
  refine .ite (fun _ => unlink) fun _ => .bind (.perform (fun _ w => Timed content mtime w ∧
    Saved format i n setting content w)
    stable (fun _ => stable) fun w answer v kept holds does => ?_) fun ok => ?_
  · cases does with
    | renamed =>
      obtain ⟨kept', foreign⟩ := allowed_link kept holds.2.1 (holds.2.valid holds.1)
      exact ⟨kept', foreign, holds⟩
    | unrenamed => exact ⟨kept, (Allowed.refl kept).2, holds⟩
  refine .ite (fun _ => unlink) fun _ => .bind (.perform (fun _ _ => True) stable (fun _ => .const _)
    fun w answer v kept holds does => ?_) fun ok => .ite (fun _ => unlink) fun _ => lines_pure (.const True) fun _ => id
  cases does with
  | @utimens _ n' _ there own =>
    obtain rfl : n = n' := Option.some.inj (holds.2.1.symm.trans own)
    have valid (none : w.raced = false) (_ : w.cat = some n) : Valid format w ⟨(w.file n).text, mtime⟩ := by
      obtain ⟨page, member, same, time⟩ := holds.1 none
      exact ⟨page, member, setting, same ▸ (holds.2.2 none).1, Or.inl time.symm⟩
    obtain ⟨kept', foreign⟩ := allowed_setFile _ kept (fun _ => own) valid
    exact ⟨kept', foreign, trivial⟩
  | @utimensRaced _ n' =>
    have race := allowed_race (i := i) kept
    obtain ⟨kept', foreign⟩ :=
      race.trans (allowed_setFile (n := n') ⟨(w.file n').text, mtime⟩ race.1 raced_elim raced_elim)
    exact ⟨kept', foreign, trivial⟩
  | unutimens => exact ⟨kept, (Allowed.refl kept).2, trivial⟩

/-- A page that has been read is displayed as it is formatted. -/
theorem lines_displayTimed :
    Lines format i (Timed content mtime) (call (.display (format r.setting content))) fun _ => Timed content mtime :=
  lines_display stable_timed (fun _ timed => timed) fun _ timed => timed.formatted r.setting

/-- What is written to the cat is the page as it is formatted. -/
theorem lines_pump (n : Nat) :
    Lines format i (fun w => (Made i n w ∧ w.cat ≠ some n) ∧ Timed content mtime w)
      (call (.pump n (format r.setting content))) fun ok w => Timed content mtime w ∧
        ((!ok) = false → Saved format i n r.setting content w) := by
  have later {p : Prop} : (rules format i).Stable fun w => p → Saved format i n r.setting content w :=
    fun w v before after foreign holds yes => stable_saved w v before after foreign (holds yes)
  refine .perform _ (stable_unlinked.and stable_timed) (fun ok => stable_timed.and later)
    fun w answer v kept ⟨⟨made, unlinked⟩, timed⟩ does => ?_
  cases does with
  | @pumped _ _ _ mtime' timely =>
    have written := allowed_setFile (i := i) (n := n) ⟨some (format r.setting content), mtime'⟩ kept
      (fun _ => made) fun _ there => absurd there unlinked
    obtain ⟨kept', foreign⟩ := written.trans (allowed_record written.1 fun _ => timely)
    refine ⟨kept', foreign, timed, fun _ => ⟨made, fun _ => ?_⟩⟩
    exact ⟨congrArg CatFile.text World.setFile_self, List.mem_cons.mpr
      (Or.inl (congrArg CatFile.mtime World.setFile_self))⟩
  | @pumpedRaced _ _ _ mtime' =>
    have race := allowed_race (i := i) kept
    have written := allowed_setFile (i := i) (n := n) ⟨some (format r.setting content), mtime'⟩ race.1
      raced_elim raced_elim
    obtain ⟨kept', foreign⟩ := (race.trans written).trans (allowed_record written.1 raced_elim)
    exact ⟨kept', foreign, raced_elim, fun _ => ⟨made, raced_elim⟩⟩
  | @unpumped _ _ _ part =>
    obtain ⟨kept', foreign⟩ := allowed_setFile (i := i) (n := n) part kept (fun _ => made) fun _ there =>
        absurd there unlinked
    exact ⟨kept', foreign, timed, fun no => by cases no⟩

theorem lines_formatAndSave :
    Lines format i (Timed content mtime) (formatAndSave format r content mtime) fun _ _ => True := by
  let opened (answer : Option Nat) (w : World ι Content Text) : Prop :=
    Timed content mtime w ∧ ∀ n, answer = some n → Made i n w ∧ w.cat ≠ some n
  have stable (answer : Option Nat) : (rules format i).Stable (opened answer) :=
    stable_timed.and fun w v before after foreign holds n same => stable_unlinked w v before after foreign
      (holds n same)
  refine .bind (.perform opened stable_timed stable fun w answer v kept timed does => ?_) fun answer => ?_
  · cases does with
    | @made _ cat =>
      obtain ⟨kept', foreign⟩ := allowed_make (i := i) kept cat
      refine ⟨kept', foreign, timed, fun n same => ?_⟩
      obtain rfl := Option.some.inj same
      exact ⟨Function.update_self .., fun there => Nat.lt_irrefl _ (kept.old _ there)⟩
    | unmade => exact ⟨kept, (Allowed.refl kept).2, timed, fun _ same => by cases same⟩
  cases answer with
  | none =>
    refine Rules.Outline.weaken (.ite (fun _ => lines_pure stable_timed fun _ _ => trivial) fun _ => ?_)
      fun w _ holds => holds.1
    exact lines_displayTimed.imp fun _ _ _ _ => trivial
  | some n =>
    have saved (ok : Bool) : (rules format i).Stable fun w => Timed content mtime w ∧
        ((!ok) = false → Saved format i n r.setting content w) :=
      stable_timed.and fun w v before after foreign holds yes => stable_saved w v before after foreign (holds yes)
    refine Rules.Outline.weaken
      (.bind (lines_pump n) fun ok => .ite (fun _ => lines_commitTmpCat r.chowns (!ok)) fun _ => ?_)
      fun w _ holds => ⟨holds.2 n rfl, holds.1⟩
    refine .bind (lines_display (saved ok) (fun _ holds => holds) fun _ holds => holds.1.formatted r.setting) fun _ =>
      ?_
    exact lines_commitTmpCat r.chowns (!ok)

/-- What is known of a page that may not have been opened. -/
def Known (content : Option Content) (mtime : Timespec) (w : World ι Content Text) : Prop :=
  ∀ c, content = some c → Timed c mtime w

omit [DecidableEq ι] in
theorem stable_known (content : Option Content) :
    (rules format i : Rules (World ι Content Text)).Stable (Known content mtime) :=
  fun w v before after foreign known c same => stable_timed w v before after foreign (known c same)

theorem lines_displayPage (content : Option Content) (saveCat : Bool) :
    Lines format i (Known content mtime) (displayPage format r content mtime saveCat) fun _ _ => True := by
  cases content with
  | none => exact lines_pure (stable_known none) fun _ _ => trivial
  | some c =>
    have ends : Lines format i (Timed c mtime) (pure ()) fun _ _ => True := lines_pure stable_timed fun _ _ => trivial
    refine Rules.Outline.weaken (.bind (lines_asks stable_timed fun _ _ _ does => by cases does; rfl) fun found => ?_)
      fun w _ known => known c rfl
    refine .ite (fun _ => ends) fun _ => .ite (fun _ => lines_formatAndSave) fun _ => .ite (fun _ => ends) fun _ => ?_
    exact lines_displayTimed.imp fun _ _ _ _ => trivial

theorem lines_displayCat : Lines format i (fun _ => True) (displayCat r) fun _ _ => True := by
  have true_ : (rules format i : Rules (World ι Content Text)).Stable fun _ => True := .const _
  have ends : Lines format i (fun _ => True) (pure ()) fun _ _ => True := lines_pure true_ fun _ => id
  let opened (answer : Option Text) (w : World ι Content Text) : Prop :=
    ∀ text, answer = some text → w.raced = false → Formatted format w text
  have stable (answer : Option Text) : (rules format i).Stable (opened answer) :=
    fun w v _ _ foreign holds text same none => (holds text same (foreign.raced none)).mono foreign.pages
  refine .bind (lines_asks true_ fun _ _ _ does => by cases does; rfl) fun found => .ite (fun _ => ends) fun _ => ?_
  refine .bind (.perform opened true_ stable fun w answer v kept _ does => ?_) fun answer => ?_
  · cases does with
    | openCat there whole =>
      refine ⟨kept, (Allowed.refl kept).2, fun text same none => ?_⟩
      obtain ⟨page, member, setting, text', _⟩ := kept.cat none _ there
      rw [whole, Option.some.injEq] at text'
      exact ⟨page, member, setting, Option.some.inj same ▸ text'⟩
    | openCatPart | unopenCat => exact ⟨kept, (Allowed.refl kept).2, fun _ same => by cases same⟩
  cases answer with
  | none => exact ends.weaken fun _ _ _ => trivial
  | some text =>
    refine (lines_display (stable (some text)) (fun w holds => holds) fun w holds => holds text rfl).imp ?_
    exact fun _ _ _ _ => trivial

theorem lines_display_ : Lines format i (fun _ => True) (display format r) fun _ _ => True := by
  let reading (content : Option Content) (w : World ι Content Text) : Prop := ∀ c, content = some c → Reads i c w
  have stable (content : Option Content) : (rules format i).Stable (reading content) :=
    fun w v before after foreign holds c same => stable_reads w v before after foreign (holds c same)
  refine .bind (.perform reading (.const _) stable fun w answer v kept _ does => ?_) fun content => ?_
  · cases does with
    | opened =>
      obtain ⟨kept', foreign⟩ := allowed_read (i := i) kept
      refine ⟨kept', foreign, fun c same => ?_⟩
      exact ⟨w.page, kept.current, Function.update_self .., Option.some.inj same⟩
    | unopened => exact ⟨kept, (Allowed.refl kept).2, fun _ same => by cases same⟩
  refine .bind (.perform (fun mtime => Known content mtime) (stable content) (fun _ => stable_known content)
    fun w answer v kept reads does => ?_) fun mtime => ?_
  · cases does with
    | modtime same =>
      refine ⟨kept, (Allowed.refl kept).2, fun c isContent _ => ?_⟩
      obtain ⟨page, member, own, content'⟩ := reads c isContent
      obtain rfl := Option.some.inj (own.symm.trans same)
      exact ⟨w.page, member, content', rfl⟩
    | modtimeRaced =>
      obtain ⟨kept', foreign⟩ := allowed_race (i := i) kept
      exact ⟨kept', foreign, fun _ _ => raced_elim⟩
  have asks {c : Call Text} (same : ∀ (w : World ι Content Text) answer v, Does i c w answer v → v = w) :
      Lines format i (Known content mtime) (call c) fun _ => Known content mtime :=
        lines_asks (stable_known content) same
  refine .ite (fun _ => lines_displayPage content false) fun _ => ?_
  refine .bind (asks fun _ _ _ does => by cases does <;> rfl) fun man => ?_
  refine .bind (asks fun _ _ _ does => by cases does <;> rfl) fun cat => ?_
  refine .bind (asks fun _ _ _ does => by cases does; rfl) fun saveCat => ?_
  exact .ite (fun _ => lines_displayPage content saveCat) fun _ => lines_displayCat.weaken fun _ _ _ => trivial

end ManDb.CatCache
