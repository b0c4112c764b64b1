import ManDb.Apropos
import ManDb.Index.Lookup
import ManDb.Index.Namespaces
import ManDb.Index.Pointers

namespace ManDb

/-- An index whose pointers are names of pages, so that they can be looked up. -/
structure Displayable (loc : Locale) (db : Store) : Prop where
  wf : WellFormed loc db
  pointers : ∀ ref info, entry loc db ref = some info → ∀ pointer ∈ info.pointer,
    pointer.head? = some dash ∨ PageName pointer

/-- `REG_ICASE` and `FNM_CASEFOLD`: the case of the text makes no difference. -/
structure TextTests.IgnoresCase (tests : TextTests) (loc : Locale) : Prop where
  regexec : ∀ keyword a b, loc.lower a = loc.lower b → tests.regexec keyword a = tests.regexec keyword b
  fnmatch : ∀ pattern a b, loc.lower a = loc.lower b → tests.fnmatch true pattern a = tests.fnmatch true pattern b

section Criterion

variable (loc : Locale) (tests : TextTests) (opts : AproposOptions) (pages : List Bytes)

/-- A keyword matches the name of an entry. -/
def NameMatches (i : Fin pages.length) (e : NameExt × Mandata) : Prop :=
  nameHit loc tests opts pages[i] e.1.name = true

/-- A keyword matches the description of an entry, and descriptions are searched. -/
def DescriptionMatches (i : Fin pages.length) (e : NameExt × Mandata) : Prop :=
  opts.amApropos = true ∧ ∃ whatis, e.2.whatis = some whatis ∧ whatisHit loc tests opts pages[i] whatis = true

def Matches (i : Fin pages.length) (e : NameExt × Mandata) : Prop :=
  NameMatches loc tests opts pages i e ∨ DescriptionMatches loc tests opts pages i e

/-- How the matches of single keywords are combined. -/
def Combined (hits : Fin pages.length → Prop) : Prop := if opts.requireAll then ∀ i, hits i else ∃ i, hits i

/-- The entries that are to be displayed. -/
def Satisfies (e : NameExt × Mandata) : Prop := Combined opts pages fun i => Matches loc tests opts pages i e

/-- What a scan records as a hit: the description counts only if the names alone do
not satisfy the criterion. -/
def Recorded (i : Fin pages.length) (e : NameExt × Mandata) : Prop :=
  NameMatches loc tests opts pages i e ∨
    (¬Combined opts pages (fun j => NameMatches loc tests opts pages j e) ∧
      DescriptionMatches loc tests opts pages i e)

/-- An entry of the database in one of the sections asked for. -/
def Listed (db : Store) (e : NameExt × Mandata) : Prop := entry loc db e.1 = some e.2 ∧ inSections opts e.2 = true

end Criterion

/-- The entry for which `display` was called. -/
def callEntry (call : Bytes × Mandata) : NameExt × Mandata := (⟨call.2.name.getD call.1, call.2.ext⟩, call.2.unnamed)

variable {loc : Locale} {tests : TextTests} {opts : AproposOptions} {pages : List Bytes} {db : Store}
  {key page : Bytes}
  {ref : NameExt} {info found : Mandata} {s s' : AproposState pages}

/-- Lookups of pages return, and what they return has the pointer of some entry. -/
theorem WellFormed.lookup (wf : WellFormed loc db) (isPage : PageName page) (section? : Option Bytes)
    (exact matchCase : Bool) :
    ∃ infos, dblookup loc db page section? exact matchCase = .ok infos ∧
      ∀ info ∈ infos, ∃ ref record, entry loc db ref = some record ∧ info.pointer = record.pointer := by
  have pageKey : PageName (nameToKey loc page) := pageName_nameToKey.mpr isPage
  obtain ⟨g, ok, holds⟩ := wf.group pageKey
  have simple := holds.simple
  match g, ok, holds, simple with
  | .absent, _, _, simple => exact ⟨[], dblookup_absent simple, by simp⟩
  | .singular old, ok, holds, simple =>
    refine ⟨_, dblookup_record ok.1 ok.2.1 simple, fun info member => ?_⟩
    have record : RecordAt db (nameToKey loc page) ⟨old.name.getD (Separated.cut tab (nameToKey loc page)).1, old.ext⟩
        old := ⟨pageKey.2.2, ⟨_, simple, isIndex_makeContent ok.2.1, ok.1.split ok.2.1⟩, rfl, rfl⟩
    refine ⟨_, _, (wf.home_record record).1, ?_⟩
    split at member
    · rw [List.mem_singleton.mp member]
      rfl
    · simp at member
  | .indexed refs record, ok, holds, _ =>
    obtain ⟨infos, run, answers⟩ := dblookup_indexed isPage ok holds
    refine ⟨infos, run, fun info member => ?_⟩
    obtain ⟨ref, found, present, _, rfl⟩ := (answers.mem info).mp member
    exact ⟨ref, found, present, rfl⟩

/-- A pointer that can be looked up. -/
def Followable (info : Mandata) : Prop := ∀ pointer ∈ info.pointer, pointer.head? = some dash ∨ PageName pointer

theorem Displayable.follow (displayable : Displayable loc db) (followable : Followable info)
    (unresolved : resolved info page = false) :
    ∃ result, dblookupExact loc db (info.pointer.getD []) (some info.ext) true = .ok result ∧
      ∀ next ∈ result, Followable next := by
  cases atPointer : info.pointer with
  | none =>
    refine ⟨none, ?_, by simp⟩
    rw [dblookupExact, Option.getD_none, dblookup_absent displayable.wf.nonempty]
    rfl
  | some pointer =>
    have isPage : PageName pointer := by
      refine (followable pointer atPointer).resolve_left fun dashed => ?_
      simp [resolved, atPointer, dashed] at unresolved
    obtain ⟨infos, run, origin⟩ := displayable.wf.lookup isPage (some info.ext) true true
    refine ⟨infos.head?, by rw [dblookupExact, Option.getD_some, run]; rfl, fun next member target atTarget => ?_⟩
    obtain ⟨ref, record, present, same⟩ := origin next (List.mem_of_head? member)
    exact displayable.pointers ref record present target (same ▸ atTarget)

theorem Displayable.resolveRounds (displayable : Displayable loc db) (newpage : Bytes) (n : Nat)
    (result : Option Mandata)
    (followable : ∀ info ∈ result, Followable info) :
    ∃ last, resolveRounds loc db newpage n result = .ok last := by
  induction n generalizing result with
  | zero => exact ⟨none, by cases result <;> rfl⟩
  | succ n ih =>
    cases result with
    | none => exact ⟨none, rfl⟩
    | some info =>
      cases ends : resolved info newpage with
      | true => exact ⟨some info, by simp [ManDb.resolveRounds, ends]⟩
      | false =>
        obtain ⟨next, run, good⟩ := displayable.follow (followable info rfl) ends
        obtain ⟨last, rest⟩ := ih next good
        exact ⟨last, by simp [ManDb.resolveRounds, ends, run, rest, bind, Except.bind]⟩

theorem Displayable.resolvePointers (displayable : Displayable loc db) (followable : Followable info) (page : Bytes) :
    ∃ last, resolvePointers loc db info page = .ok last := by
  cases ends : resolved info page with
  | true => exact ⟨some info, by simp [ManDb.resolvePointers, ends]⟩
  | false =>
    obtain ⟨next, run, good⟩ := displayable.follow followable ends
    obtain ⟨last, rest⟩ := displayable.resolveRounds (info.pointer.getD []) 10 next good
    exact ⟨last, by simp [ManDb.resolvePointers, ends, run, rest, bind, Except.bind]⟩

/-- `display` returns, records its call and leaves something printed. -/
theorem Displayable.display (displayable : Displayable loc db) (followable : Followable info) (page : Bytes)
    (s : AproposState pages) :
    ∃ seen, display loc db info page s = .ok ⟨s.found, seen, s.displayed ++ [(page, info)]⟩ ∧ seen ≠ [] := by
  obtain ⟨last, run⟩ := displayable.resolvePointers followable page
  refine ⟨_, by simp only [ManDb.display, run]; rfl, ?_⟩
  split
  · rename_i member
    exact List.ne_nil_of_mem member
  · simp

theorem anySet_iff (flags : Flags pages) : anySet flags = true ↔ ∃ i, flags i = true := by
  simp [anySet, List.any_eq_true]

theorem allSet_iff (flags : Flags pages) : allSet flags = true ↔ ∀ i, flags i = true := by
  simp [allSet, List.all_eq_true]

theorem combine_iff (flags : Flags pages) :
    combine opts flags = true ↔ Combined opts pages fun i => flags i = true := by
  unfold combine Combined
  split
  · exact allSet_iff flags
  · exact anySet_iff flags

theorem setHits_iff (hit : Bytes → Bool) (flags : Flags pages) (i : Fin pages.length) :
    setHits hit flags i = true ↔ flags i = true ∨ hit pages[i] = true := by
  simp [setHits]

theorem nameHit_case (ignores : tests.IgnoresCase loc) {a b : Bytes} (same : loc.lower a = loc.lower b)
    (keyword : Bytes) :
    nameHit loc tests opts keyword a = nameHit loc tests opts keyword b := by
  unfold nameHit
  rw [ignores.regexec keyword a b same, ignores.fnmatch keyword a b same, Locale.caseEq, Locale.caseEq, same]

/-- The key up to its tab spells the name of the entry, but for its case. -/
theorem RecordAt.page_case (wf : WellFormed loc db) (settled : loc.Settled) (record : RecordAt db key ref found) :
    loc.lower (upToLastTab key) = loc.lower ref.name ∧ callEntry (upToLastTab key, found) = (ref, found.unnamed) := by
  obtain ⟨cont, atKey, notIndex, read⟩ := record.content
  have name := record.name
  have ext := record.ext
  have upTo : upToLastTab key = (Separated.cut tab key).1 := by
    cases wf.kept record.plain atKey notIndex read with
    | singular page ok holds => rw [upToLastTab_of_not_mem page.2.1, Separated.cut_of_not_mem page.2.1]
    | indexed other refs rec clean member ok holds key isRecord =>
      rw [key, upToLastTab_multi clean.2, makeMultiKey, Separated.cut_append_cons clean.1.2.1]
  rw [upTo]
  refine ⟨?_, by rw [callEntry, name, ext]⟩
  cases wf.kept record.plain atKey notIndex read with
  | singular page ok holds =>
    rw [Separated.cut_of_not_mem page.2.1] at name ⊢
    have belongs : loc.lower ref.name = key := name ▸ ok.2.2
    rw [← belongs, settled.lower]
  | indexed other refs rec clean member ok holds key isRecord =>
    have unnamed := (ok.2.2 other member).2.2.2.1
    rw [isRecord, unnamed] at name
    exact congrArg loc.lower name

/-- What a turn at a record does. -/
structure RecordTurn (loc : Locale) (tests : TextTests) (opts : AproposOptions) {pages : List Bytes}
    (e : NameExt × Mandata) (s s' : AproposState pages) : Prop where
  found : ∀ i, s'.found i = true ↔ s.found i = true ∨ Recorded loc tests opts pages i e
  shown : Satisfies loc tests opts pages e → s'.displayed.map callEntry = s.displayed.map callEntry ++ [e] ∧
    s'.displaySeen ≠ []
  hidden : ¬Satisfies loc tests opts pages e → s'.displayed = s.displayed ∧ s'.displaySeen = s.displaySeen

/-- The end of a turn, once the flags are settled. -/
theorem finishSearchTurn (displayable : Displayable loc db) (followable : Followable found) {e : NameExt × Mandata}
    (call : callEntry (page, found) = e) {flags here : Flags pages}
    (recorded : ∀ i, flags i = true ↔ s.found i = true ∨ Recorded loc tests opts pages i e)
    (criterion : combine opts here = true ↔ Satisfies loc tests opts pages e) :
    ∃ s', (if combine opts here then display loc db found page { s with found := flags }
        else .ok { s with found := flags }) = .ok s' ∧ RecordTurn loc tests opts e s s' := by
  by_cases shown : Satisfies loc tests opts pages e
  · obtain ⟨seen, run, printed⟩ := displayable.display followable page { s with found := flags }
    refine ⟨_, by rw [if_pos (criterion.mpr shown), run], recorded, fun _ => ⟨?_, printed⟩, fun no => absurd shown no⟩
    rw [List.map_append, List.map_singleton, call]
  · exact ⟨_, if_neg (fun yes => shown (criterion.mp yes)), recorded, fun yes => absurd yes shown, fun _ =>
      ⟨rfl, rfl⟩⟩

theorem parseWhatis_iff (whatis : Option Bytes) (flags : Flags pages) (i : Fin pages.length) :
    parseWhatis loc tests opts whatis flags i = true ↔
      flags i = true ∨ ∃ text, whatis = some text ∧ whatisHit loc tests opts pages[i] text = true := by
  cases whatis with
  | none => simp [parseWhatis]
  | some text => simp [parseWhatis, setHits_iff]

/-- Names that satisfy the criterion do so whatever the descriptions add. -/
theorem Combined.or {names descriptions : Fin pages.length → Prop} (decided : Combined opts pages names) :
    Combined opts pages fun i => names i ∨ descriptions i := by
  unfold Combined at decided ⊢
  split
  · rename_i all
    rw [if_pos all] at decided
    exact fun i => Or.inl (decided i)
  · rename_i any
    rw [if_neg any] at decided
    obtain ⟨i, name⟩ := decided
    exact ⟨i, Or.inl name⟩

theorem doAproposTurn_record (displayable : Displayable loc db) (settled : loc.Settled)
    (ignores : tests.IgnoresCase loc)
    (record : RecordAt db key ref found) (listed : inSections opts found = true) (s : AproposState pages) :
    ∃ s', doAproposTurn loc tests opts db pages s key = .ok s' ∧
      RecordTurn loc tests opts (ref, found.unnamed) s s' := by
  obtain ⟨sameCase, call⟩ := record.page_case displayable.wf settled
  obtain ⟨cont, atKey, notIndex, read⟩ := record.content
  have followable : Followable found :=
    fun pointer member => displayable.pointers ref _ (displayable.wf.home_record record).1 pointer member
  have names : ∀ (flags : Flags pages) i, parseName loc tests opts (upToLastTab key) flags i = true ↔
      flags i = true ∨ NameMatches loc tests opts pages i (ref, found.unnamed) := by
    intro flags i
    rw [parseName, setHits_iff, nameHit_case ignores sameCase]
    rfl
  have whatis : found.unnamed.whatis = found.whatis := rfl
  unfold doAproposTurn
  simp only [atKey, if_neg record.plain, notIndex, read, listed, bind, Except.bind, Bool.not_true, Bool.false_eq_true,
    if_false, pure, Except.pure]
  generalize spelled : (parseName loc tests opts (upToLastTab key) fun _ => false : Flags pages) = here
  have hits : ∀ i, here i = true ↔ NameMatches loc tests opts pages i
    (ref, found.unnamed) := by simp [← spelled, names]
  have byName : combine opts here = true ↔
      Combined opts pages fun i => NameMatches loc tests opts pages i
        (ref, found.unnamed) := by simp [combine_iff, hits]
  refine finishSearchTurn displayable followable call (fun i => ?_) ?_
  · by_cases decided : Combined opts pages fun i => NameMatches loc tests opts pages i (ref, found.unnamed)
    · simp [parseWhatis_iff, names, byName.mpr decided, Recorded, decided]
    · have undecided := Bool.eq_false_iff.mpr fun set => decided (byName.mp set)
      by_cases apropos : opts.amApropos = true
      · simp [parseWhatis_iff, names, undecided, Recorded, decided, DescriptionMatches, apropos, whatis, or_assoc]
      · simp [parseWhatis_iff, names, Recorded, DescriptionMatches, apropos]
  · rw [combine_iff]
    by_cases decided : Combined opts pages fun i => NameMatches loc tests opts pages i (ref, found.unnamed)
    · refine iff_of_true ?_ decided.or
      simpa [parseWhatis_iff, hits, byName.mpr decided] using decided
    · have undecided := Bool.eq_false_iff.mpr fun set => decided (byName.mp set)
      by_cases apropos : opts.amApropos = true
      · simp [parseWhatis_iff, hits, undecided, apropos, Satisfies, Matches, DescriptionMatches, whatis]
      · simp [parseWhatis_iff, hits, apropos, Satisfies, Matches, DescriptionMatches]

/-- A turn is at an entry in one of the sections asked for, or does nothing. -/
inductive SearchTurn (loc : Locale) (tests : TextTests) (opts : AproposOptions) (db : Store) (key : Bytes)
    {pages : List Bytes} (s s' : AproposState pages) : Prop
  | skip (same : s' = s) (unlisted : ∀ e, Listed loc opts db e → home loc db e.1 ≠ key)
  | record (e : NameExt × Mandata) (listed : Listed loc opts db e) (atHome : home loc db e.1 = key)
      (turn : RecordTurn loc tests opts e s s')

theorem doAproposTurn_turn (displayable : Displayable loc db) (settled : loc.Settled)
    (ignores : tests.IgnoresCase loc)
    (member : key ∈ db.keys) (s : AproposState pages) :
    ∃ s', doAproposTurn loc tests opts db pages s key = .ok s' ∧ SearchTurn loc tests opts db key s s' := by
  obtain ⟨cont, atKey⟩ := Store.mem_keys_iff.mp member
  have noRecord : (∀ ref found, ¬RecordAt db key ref found) → ∀ e, Listed loc opts db e → home loc db e.1 ≠ key := by
    intro none e listed atHome
    obtain ⟨found, record, _⟩ := displayable.wf.record_home listed.1
    exact none e.1 found (atHome ▸ record)
  by_cases special : key.head? = some dollar
  · refine ⟨s, by simp [doAproposTurn, atKey, special], .skip rfl (noRecord fun ref found record => ?_)⟩
    exact record.plain special
  cases indexed : isIndex cont with
  | true =>
    refine ⟨s, by simp [doAproposTurn, atKey, special, indexed], .skip rfl (noRecord fun ref found record => ?_)⟩
    obtain ⟨_, content, notIndex, _⟩ := record.content
    cases atKey.symm.trans content
    rw [indexed] at notIndex
    cases notIndex
  | false =>
    obtain ⟨found, read⟩ := displayable.wf.readable atKey special indexed
    have record : RecordAt db key ⟨found.name.getD (Separated.cut tab key).1, found.ext⟩ found :=
      ⟨special, ⟨cont, atKey, indexed, read⟩, rfl, rfl⟩
    obtain ⟨present, atHome⟩ := displayable.wf.home_record record
    cases asked : inSections opts found with
    | true =>
      obtain ⟨s', run, turn⟩ := doAproposTurn_record displayable settled ignores record asked s
      exact ⟨s', run, .record _ ⟨present, asked⟩ atHome turn⟩
    | false =>
      refine ⟨s, ?_, .skip rfl fun e listed same => ?_⟩
      · simp [doAproposTurn, atKey, special, indexed, read, asked, bind, Except.bind, pure, Except.pure]
      · obtain ⟨other, record', unnamed⟩ := displayable.wf.record_home listed.1
        rw [same] at record'
        obtain ⟨_, rfl⟩ := record.unique record'
        have yes := listed.2
        rw [← unnamed] at yes
        exact absurd (asked.symm.trans yes) (by decide)

/-- A scan in progress, after the keys in `visited`. -/
structure Searched (loc : Locale) (tests : TextTests) (opts : AproposOptions) (db : Store) {pages : List Bytes}
    (start : AproposState pages) (visited : List Bytes) (s : AproposState pages) : Prop where
  found : ∀ i, s.found i = true ↔ start.found i = true ∨
    ∃ e, Listed loc opts db e ∧ home loc db e.1 ∈ visited ∧ Recorded loc tests opts pages i e
  nodup : (s.displayed.map callEntry).Nodup
  displayed : ∀ e, e ∈ s.displayed.map callEntry ↔
    Listed loc opts db e ∧ home loc db e.1 ∈ visited ∧ Satisfies loc tests opts pages e
  seen : s.displaySeen ≠ [] ↔ start.displaySeen ≠ [] ∨ s.displayed ≠ []

theorem Searched.skip {start : AproposState pages} {visited : List Bytes}
    (state : Searched loc tests opts db start visited s)
    (unlisted : ∀ e, Listed loc opts db e → home loc db e.1 ≠ key) :
    Searched loc tests opts db start (visited ++ [key]) s := by
  have same : ∀ e, Listed loc opts db e → (home loc db e.1 ∈ visited ++ [key] ↔ home loc db e.1 ∈ visited) := by
    intro e listed
    simp [unlisted e listed]
  refine ⟨fun i => ?_, state.nodup, fun e => ?_, state.seen⟩
  · rw [state.found]
    refine or_congr_right (exists_congr fun e => and_congr_right fun listed => ?_)
    rw [same e listed]
  · rw [state.displayed]
    refine and_congr_right fun listed => ?_
    rw [same e listed]

/-- One more key brings one more entry. -/
theorem home_mem_snoc_iff {visited : List Bytes} {e other : NameExt × Mandata} (wf : WellFormed loc db)
    (listed : Listed loc opts db e) (atHome : home loc db e.1 = key) (there : Listed loc opts db other) :
    home loc db other.1 ∈ visited ++ [key] ↔ home loc db other.1 ∈ visited ∨ other = e := by
  rw [List.mem_append, List.mem_singleton]
  refine or_congr_right ⟨fun here => ?_, fun same => same ▸ atHome⟩
  have ref := wf.home_inj there.1 listed.1 (here.trans atHome.symm)
  have info := there.1
  rw [ref, listed.1] at info
  exact Prod.ext ref (Option.some.inj info).symm

theorem Searched.found_snoc {start : AproposState pages} {visited : List Bytes} {e : NameExt × Mandata}
    (wf : WellFormed loc db)
    (state : Searched loc tests opts db start visited s) (listed : Listed loc opts db e)
    (atHome : home loc db e.1 = key) (turn : RecordTurn loc tests opts e s s') (i : Fin pages.length) :
    s'.found i = true ↔ start.found i = true ∨
      ∃ e, Listed loc opts db e ∧ home loc db e.1 ∈ visited ++ [key] ∧ Recorded loc tests opts pages i e := by
  rw [turn.found, state.found, or_assoc]
  refine or_congr_right ⟨?_, ?_⟩
  · rintro (⟨other, there, old, hit⟩ | hit)
    · exact ⟨other, there, List.mem_append_left _ old, hit⟩
    · exact ⟨e, listed, (home_mem_snoc_iff wf listed atHome listed).mpr (Or.inr rfl), hit⟩
  · rintro ⟨other, there, member, hit⟩
    rcases (home_mem_snoc_iff wf listed atHome there).mp member with old | rfl
    · exact Or.inl ⟨other, there, old, hit⟩
    · exact Or.inr hit

theorem Searched.record {start : AproposState pages} {visited : List Bytes} {e : NameExt × Mandata}
    (wf : WellFormed loc db)
    (state : Searched loc tests opts db start visited s) (new : key ∉ visited) (listed : Listed loc opts db e)
    (atHome : home loc db e.1 = key) (turn : RecordTurn loc tests opts e s s') :
    Searched loc tests opts db start (visited ++ [key]) s' := by
  have found := state.found_snoc wf listed atHome turn
  have only : ∀ other, Listed loc opts db other → (home loc db other.1 ∈ visited ++ [key] ↔
      home loc db other.1 ∈ visited ∨ other = e) := fun other => home_mem_snoc_iff wf listed atHome
  by_cases shown : Satisfies loc tests opts pages e
  · obtain ⟨calls, printed⟩ := turn.shown shown
    refine ⟨found, ?_, fun other => ?_, ?_⟩
    · have fresh : home loc db e.1 ∉ visited := atHome ▸ new
      rw [calls, List.nodup_append]
      refine ⟨state.nodup, List.nodup_singleton e, ?_⟩
      intro other old here there
      rw [List.mem_singleton.mp there]
      rintro rfl
      exact fresh ((state.displayed other).mp old).2.1
    · rw [calls, List.mem_append, List.mem_singleton, state.displayed]
      constructor
      · rintro (⟨there, old, yes⟩ | rfl)
        · exact ⟨there, List.mem_append_left _ old, yes⟩
        · exact ⟨listed, (only _ listed).mpr (Or.inr rfl), shown⟩
      · rintro ⟨there, member, yes⟩
        exact ((only other there).mp member).imp (fun old => ⟨there, old, yes⟩) id
    · refine iff_of_true printed (Or.inr fun nothing => ?_)
      rw [nothing] at calls
      simp at calls
  · obtain ⟨calls, seen⟩ := turn.hidden shown
    refine ⟨found, calls ▸ state.nodup, fun other => ?_, by rw [seen, calls, state.seen]⟩
    rw [calls, state.displayed]
    refine and_congr_right fun there => ?_
    rw [only other there]
    constructor
    · exact fun old => ⟨Or.inl old.1, old.2⟩
    · rintro ⟨old | rfl, yes⟩
      · exact ⟨old, yes⟩
      · exact absurd yes shown

theorem Searched.run (displayable : Displayable loc db) (settled : loc.Settled) (ignores : tests.IgnoresCase loc)
    {start : AproposState pages} {rest : List Bytes} :
    ∀ {visited : List Bytes} {s : AproposState pages}, db.keys = visited ++ rest →
      Searched loc tests opts db start visited s →
      ∃ s', rest.foldlM (doAproposTurn loc tests opts db pages) s = .ok s' ∧
        Searched loc tests opts db start db.keys s' := by
  induction rest with
  | nil =>
    intro visited s split state
    rw [List.append_nil] at split
    exact ⟨s, rfl, split ▸ state⟩
  | cons key rest ih =>
    intro visited s split state
    have member : key ∈ db.keys := by simp [split]
    obtain ⟨s', run, turn⟩ := doAproposTurn_turn displayable settled ignores member s
    have state' : Searched loc tests opts db start (visited ++ [key]) s' := by
      cases turn with
      | skip same unlisted => exact same ▸ state.skip unlisted
      | record e listed atHome turn => exact state.record displayable.wf (key_not_visited split) listed atHome turn
    obtain ⟨last, after, final⟩ := ih (by simp [split]) state'
    refine ⟨last, ?_, final⟩
    rw [List.foldlM_cons, run]
    exact after

/-- The scan of a database calls `display` once for each entry that satisfies the
criterion. -/
theorem doApropos_searched (opts : AproposOptions) (displayable : Displayable loc db) (settled : loc.Settled)
    (ignores : tests.IgnoresCase loc) (flags : Flags pages) (seen : List Bytes) :
    ∃ s, doApropos loc tests opts pages ⟨flags, seen, []⟩ db = .ok s ∧
      Searched loc tests opts db ⟨flags, seen, []⟩ db.keys s := by
  have start : Searched loc tests opts db (⟨flags, seen, []⟩ : AproposState pages) [] ⟨flags, seen, []⟩ :=
    ⟨by simp, List.nodup_nil, by simp, by simp⟩
  exact start.run displayable settled ignores (List.nil_append _).symm

/-- The calls of `display` made for a database: one for each entry to be displayed. -/
structure DisplaysExactly (loc : Locale) (tests : TextTests) (opts : AproposOptions) (pages : List Bytes) (db : Store)
    (calls : List (Bytes × Mandata)) : Prop where
  nodup : (calls.map callEntry).Nodup
  mem : ∀ e, e ∈ calls.map callEntry ↔ Listed loc opts db e ∧ Satisfies loc tests opts pages e

/-- Some entry, in one of the sections asked for, of some database is of this kind. -/
def SomeListed (loc : Locale) (opts : AproposOptions) (dbs : List Store) (kind : NameExt × Mandata → Prop) : Prop :=
  ∃ db ∈ dbs, ∃ e, Listed loc opts db e ∧ kind e

theorem someListed_cons {dbs : List Store} {kind : NameExt × Mandata → Prop} :
    SomeListed loc opts (db :: dbs) kind ↔ (∃ e, Listed loc opts db e ∧ kind e) ∨ SomeListed loc opts dbs kind := by
  simp [SomeListed]

theorem SomeListed.imp {dbs : List Store} {kind other : NameExt × Mandata → Prop}
    (some : SomeListed loc opts dbs kind)
    (weaken : ∀ e, kind e → other e) : SomeListed loc opts dbs other := by
  obtain ⟨db, member, e, listed, isKind⟩ := some
  exact ⟨db, member, e, listed, weaken e isKind⟩

theorem searchAll_spec (settled : loc.Settled) (ignores : tests.IgnoresCase loc) {dbs : List Store}
    (displayable : ∀ db ∈ dbs, Displayable loc db) (flags : Flags pages) (seen : List Bytes) :
    ∃ flags' seen' displayed, searchAll loc tests opts pages dbs flags seen = .ok (flags', seen', displayed) ∧
      (∀ i, flags' i = true ↔ flags i = true ∨ SomeListed loc opts dbs (Recorded loc tests opts pages i)) ∧
      List.Forall₂ (DisplaysExactly loc tests opts pages) dbs displayed ∧
      (seen' ≠ [] ↔ seen ≠ [] ∨ SomeListed loc opts dbs (Satisfies loc tests opts pages)) := by
  induction dbs generalizing flags seen with
  | nil => exact ⟨flags, seen, [], rfl, by simp [SomeListed], .nil, by simp [SomeListed]⟩
  | cons db dbs ih =>
    have here := displayable db (List.mem_cons_self ..)
    obtain ⟨s, scan, state⟩ := doApropos_searched opts here settled ignores flags seen
    obtain ⟨flags', seen', displayed, run, found, shown, printed⟩ :=
      ih (fun other member => displayable other (List.mem_cons_of_mem _ member)) s.found s.displaySeen
    have visited : ∀ e, Listed loc opts db e → home loc db e.1 ∈ db.keys :=
      fun e listed => here.wf.home_mem_keys listed.1
    have calls : ∀ e, e ∈ s.displayed.map callEntry ↔ Listed loc opts db e ∧ Satisfies loc tests opts pages e := by
      intro e
      rw [state.displayed]
      exact and_congr_right fun listed => and_iff_right (visited e listed)
    refine ⟨flags', seen', s.displayed :: displayed, ?_, fun i => ?_, .cons ⟨state.nodup, calls⟩ shown, ?_⟩
    · simp [searchAll, scan, run, bind, Except.bind, pure, Except.pure]
    · rw [found, state.found, someListed_cons, or_assoc]
      refine or_congr_right (or_congr_left (exists_congr fun e => and_congr_right fun listed => ?_))
      exact and_iff_right (visited e listed)
    · rw [printed, state.seen, someListed_cons, or_assoc]
      refine or_congr_right (or_congr_left ?_)
      constructor
      · intro nonempty
        obtain ⟨call, member⟩ := List.exists_mem_of_ne_nil _ nonempty
        exact ⟨_, (calls _).mp (List.mem_map_of_mem member)⟩
      · rintro ⟨e, shown⟩
        obtain ⟨call, member, _⟩ := List.mem_map.mp ((calls e).mpr shown)
        exact List.ne_nil_of_mem member

/-- What `search` displays, what it returns and what it reports agree. -/
def SearchAgrees (loc : Locale) (tests : TextTests) (opts : AproposOptions) (pages : List Bytes) (dbs : List Store) :
    Prop :=
  ∃ r, search loc tests opts pages dbs = .ok r ∧
    List.Forall₂ (DisplaysExactly loc tests opts pages) dbs r.displayed ∧
    (r.anyFound = true ↔ r.printed ≠ []) ∧
    ∀ i, i ∈ r.reported ↔ ∀ calls ∈ r.displayed, ∀ call ∈ calls, ¬Matches loc tests opts pages i (callEntry call)

/-- With `--and`, keywords that match at all match together somewhere; else, if a
keyword matches the description of an entry another keyword matches by name, it also
matches some name, or the description of an entry that no keyword matches by name. -/
def HitsCounted (loc : Locale) (tests : TextTests) (opts : AproposOptions) (pages : List Bytes) (dbs : List Store) :
    Prop :=
  if opts.requireAll then
    SomeListed loc opts dbs (fun e => ∃ i, Matches loc tests opts pages i e) ↔
      SomeListed loc opts dbs (fun e => ∀ i, Matches loc tests opts pages i e)
  else
    ∀ i, SomeListed loc opts dbs (fun e => DescriptionMatches loc tests opts pages i e ∧
        ∃ j, NameMatches loc tests opts pages j e) →
      SomeListed loc opts dbs fun e => NameMatches loc tests opts pages i e ∨
        (DescriptionMatches loc tests opts pages i e ∧ ∀ j, ¬NameMatches loc tests opts pages j e)

theorem displayed_some_iff {dbs : List Store} {displayed : List (List (Bytes × Mandata))}
    (kind : NameExt × Mandata → Prop)
    (shown : List.Forall₂ (DisplaysExactly loc tests opts pages) dbs displayed) :
    (∃ calls ∈ displayed, ∃ call ∈ calls, kind (callEntry call)) ↔
      SomeListed loc opts dbs fun e => Satisfies loc tests opts pages e ∧ kind e := by
  induction shown with
  | nil => simp [SomeListed]
  | cons exactly _ ih =>
    rename_i db calls dbs displayed _
    rw [someListed_cons, ← ih, List.exists_mem_cons_iff]
    refine or_congr_left ⟨?_, ?_⟩
    · rintro ⟨call, made, isKind⟩
      obtain ⟨listed, satisfies⟩ := (exactly.mem _).mp (List.mem_map_of_mem made)
      exact ⟨_, listed, satisfies, isKind⟩
    · rintro ⟨e, listed, satisfies, isKind⟩
      obtain ⟨call, made, rfl⟩ := List.mem_map.mp ((exactly.mem e).mpr ⟨listed, satisfies⟩)
      exact ⟨call, made, isKind⟩

/-- The hits that are recorded belong to entries that are displayed. -/
def RecordsAgree (loc : Locale) (tests : TextTests) (opts : AproposOptions) (pages : List Bytes) (dbs : List Store) :
    Prop :=
  ((∃ i, SomeListed loc opts dbs (Recorded loc tests opts pages i)) ↔
    SomeListed loc opts dbs (Satisfies loc tests opts pages)) ∧
  ∀ i, SomeListed loc opts dbs (Recorded loc tests opts pages i) ↔
    SomeListed loc opts dbs fun e => Satisfies loc tests opts pages e ∧ Matches loc tests opts pages i e

/-- In terms of the entries alone. -/
theorem searchAgrees_iff_recorded (settled : loc.Settled) (ignores : tests.IgnoresCase loc) {dbs : List Store}
    (displayable : ∀ db ∈ dbs, Displayable loc db) :
    SearchAgrees loc tests opts pages dbs ↔ RecordsAgree loc tests opts pages dbs := by
  obtain ⟨flags, seen, displayed, run, found, shown, printed⟩ :=
    @searchAll_spec loc tests opts pages settled ignores dbs displayable (fun _ => false) []
  have result : search loc tests opts pages dbs =
      .ok ⟨anySet flags, (List.finRange pages.length).filter (fun i => !flags i), seen, displayed⟩ := by
    simp [search, run, bind, Except.bind, pure, Except.pure]
  have any : anySet flags = true ↔ ∃ i, SomeListed loc opts dbs (Recorded loc tests opts pages i) := by
    simp [anySet_iff, found]
  have reported : ∀ i, i ∈ (List.finRange pages.length).filter (fun i => !flags i) ↔
      ¬SomeListed loc opts dbs (Recorded loc tests opts pages i) := by
    intro i
    rw [List.mem_filter, Bool.not_eq_true', Bool.eq_false_iff, ne_eq, found]
    simp
  have silent : ∀ i, (∀ calls ∈ displayed, ∀ call ∈ calls, ¬Matches loc tests opts pages i (callEntry call)) ↔
      ¬SomeListed loc opts dbs fun e => Satisfies loc tests opts pages e ∧ Matches loc tests opts pages i e := by
    intro i
    rw [← displayed_some_iff _ shown]
    simp only [not_exists, not_and]
  have status : seen ≠ [] ↔ SomeListed loc opts dbs (Satisfies loc tests opts pages) := by simpa using printed
  constructor
  · rintro ⟨r, same, _, agrees, reports⟩
    rw [result, Except.ok.injEq] at same
    subst same
    refine ⟨any.symm.trans (agrees.trans status), fun i => not_iff_not.mp ?_⟩
    exact (reported i).symm.trans ((reports i).trans (silent i))
  · rintro ⟨agrees, reports⟩
    refine ⟨_, result, shown, any.trans (agrees.trans status.symm), fun i => ?_⟩
    exact (reported i).trans ((not_congr (reports i)).trans (silent i).symm)

theorem recordsAgree_and_iff {dbs : List Store} (all : opts.requireAll = true) :
    RecordsAgree loc tests opts pages dbs ↔ HitsCounted loc tests opts pages dbs := by
  have satisfies : Satisfies loc tests opts pages = fun e => ∀ i, Matches loc tests opts pages i e := by
    funext e
    simp [Satisfies, Combined, all]
  have recorded : Recorded loc tests opts pages = Matches loc tests opts pages := by
    funext i e
    refine propext ?_
    simp only [Recorded, Combined, all, if_true, Matches]
    refine ⟨fun hit => hit.imp id And.right, fun hit => ?_⟩
    by_cases names : ∀ j, NameMatches loc tests opts pages j e
    · exact Or.inl (names i)
    · exact hit.imp id fun description => ⟨names, description⟩
  have lift : (∃ i, SomeListed loc opts dbs (Matches loc tests opts pages i)) ↔
      SomeListed loc opts dbs fun e => ∃ i, Matches loc tests opts pages i e := by
    constructor
    · rintro ⟨i, hit⟩
      exact hit.imp fun e isMatch => ⟨i, isMatch⟩
    · rintro ⟨db, member, e, listed, i, isMatch⟩
      exact ⟨i, db, member, e, listed, isMatch⟩
  rw [HitsCounted, RecordsAgree, if_pos all, satisfies, recorded, lift]
  refine and_iff_left_of_imp fun together i => ⟨fun hit => ?_, fun hit => hit.imp fun e both => both.2⟩
  exact (together.mp (hit.imp fun e isMatch => ⟨i, isMatch⟩)).imp fun e every => ⟨every, every i⟩

theorem recordsAgree_or_iff {dbs : List Store} (any : opts.requireAll = false) :
    RecordsAgree loc tests opts pages dbs ↔ HitsCounted loc tests opts pages dbs := by
  have satisfies : Satisfies loc tests opts pages = fun e => ∃ i, Matches loc tests opts pages i e := by
    funext e
    simp [Satisfies, Combined, any]
  have recorded : ∀ i e, Recorded loc tests opts pages i e ↔ NameMatches loc tests opts pages i e ∨
      (DescriptionMatches loc tests opts pages i e ∧ ∀ j, ¬NameMatches loc tests opts pages j e) := by
    intro i e
    simp only [Recorded, Combined, any, Bool.false_eq_true, if_false, not_exists]
    rw [and_comm]
  have weaker : ∀ i e, Recorded loc tests opts pages i e → Matches loc tests opts pages i e :=
    fun i e hit => hit.imp id And.right
  simp only [HitsCounted, RecordsAgree, any, satisfies, Bool.false_eq_true, if_false, ← recorded]
  constructor
  · rintro ⟨_, counts⟩ i masked
    exact (counts i).mpr (masked.imp fun e both => ⟨⟨i, Or.inr both.1⟩, Or.inr both.1⟩)
  · intro counts
    have each : ∀ i, SomeListed loc opts dbs (Matches loc tests opts pages i) →
        SomeListed loc opts dbs (Recorded loc tests opts pages i) := by
      rintro i ⟨db, member, e, listed, name | description⟩
      · exact ⟨db, member, e, listed, Or.inl name⟩
      · by_cases named : ∃ j, NameMatches loc tests opts pages j e
        · exact counts i ⟨db, member, e, listed, description, named⟩
        · exact ⟨db, member, e, listed, (recorded i e).mpr (Or.inr ⟨description, not_exists.mp named⟩)⟩
    refine ⟨⟨?_, ?_⟩, fun i => ⟨fun hit => ?_, fun hit => each i (hit.imp fun e both => both.2)⟩⟩
    · rintro ⟨i, hit⟩
      exact hit.imp fun e isMatch => ⟨i, weaker i e isMatch⟩
    · rintro ⟨db, member, e, listed, i, isMatch⟩
      exact ⟨i, each i ⟨db, member, e, listed, isMatch⟩⟩
    · exact hit.imp fun e isMatch => ⟨⟨i, weaker i e isMatch⟩, weaker i e isMatch⟩

theorem displayable_of_keys (wf : WellFormed loc db)
    (pointers : ∀ key ∈ db.keys, ∀ cont ∈ db.fetch key, ∀ info ∈ (splitContent cont).toOption,
      ∀ pointer ∈ info.pointer, pointer.head? = some dash ∨ PageName pointer) : Displayable loc db := by
  refine ⟨wf, fun ref info present => ?_⟩
  obtain ⟨found, record, rfl⟩ := wf.record_home present
  obtain ⟨cont, atHome, _, read⟩ := record.content
  exact pointers _ (wf.home_mem_keys present) cont atHome found (by rw [read]; rfl)

theorem literalTests_ignoresCase : literalTests.IgnoresCase .posix := by
  constructor
  · intro keyword a b same
    simp only [literalTests, same]
  · intro pattern a b same
    simp only [literalTests, if_true, Locale.caseEq, same]

/-- An index of cp(1) and ls(1). -/
def fileUtilities : Store :=
  indexOf .posix [(ascii "cp", { samplePage "1" ultMan 5 "-" with whatis := some (ascii "copy files") }),
    (ascii "ls", { samplePage "1" ultMan 5 "-" with whatis := some (ascii "list directories") })]

theorem fileUtilities_displayable : Displayable .posix fileUtilities := by
  refine displayable_of_keys (indexOf_wellFormed fun page member => ?_) (by decide +kernel)
  simp only [List.mem_cons, List.not_mem_nil, or_false] at member
  rcases member with rfl | rfl
  · exact ⟨by decide, by decide⟩
  · exact ⟨by decide, by decide⟩

/-- The options of apropos, with or without `--and`. -/
def aproposOptions (requireAll : Bool) : AproposOptions := ⟨true, true, false, false, requireAll, none⟩

end ManDb
