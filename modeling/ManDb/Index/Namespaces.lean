import ManDb.Purge
import ManDb.Index.Reachable

namespace ManDb

/-- The scans come to an entry under this name and extension. -/
structure Visible (db : Store) (ref : NameExt) : Prop where
  pattern : ∀ (pattern : PatternTest) (tryDescriptions : Bool), pattern.name ref.name = true →
    ∃ infos, dblookupPattern db pattern none tryDescriptions = .ok infos ∧
      ∃ info ∈ infos, info.name = some ref.name ∧ info.ext = ref.ext
  purge : ∃ visits, purgeScan db = .ok visits ∧
    ∃ visit ∈ visits, visit.2.name.getD visit.1 = ref.name ∧ visit.2.ext = ref.ext

/-- The keys of a page are apart from those of other pages and of the database:
as keys, and in that storing the page into any index returns, changes neither
the database's own keys nor other entries, and leaves the page visible. -/
structure KeysApart (loc : Locale) (data : Mandata) (base : Bytes) : Prop where
  simple : (nameToKey loc base).head? ≠ some dollar ∧
    ∀ ref : NameExt, nameToKey loc base ≠ makeMultiKey ref.name ref.ext
  multi : (makeMultiKey base data.ext).head? ≠ some dollar ∧
    ∀ ref : NameExt, ref.Clean → makeMultiKey base data.ext ≠ nameToKey loc ref.name ∧
      (makeMultiKey base data.ext = makeMultiKey ref.name ref.ext → ref = ⟨base, data.ext⟩)
  store : ∀ db, WellFormed loc db → ∃ code db', dbstore loc db data base = .ok (code, db') ∧
    (∀ key, key.head? = some dollar → db'.fetch key = db.fetch key) ∧
    (∀ ref, ref ≠ ⟨base, data.ext⟩ → entry loc db' ref = entry loc db ref) ∧
    (code = 0 → Visible db' ⟨base, data.ext⟩)

variable {loc : Locale} {db db' : Store} {data info : Mandata} {base key cont : Bytes} {ref : NameExt} {g : Group}

theorem mem_reduceOption_of_mapM {α β ε : Type} {f : α → Except ε (Option β)} {xs : List α}
    {ys : List (Option β)} (run : xs.mapM f = .ok ys) (y : β) :
    y ∈ ys.reduceOption ↔ ∃ x ∈ xs, f x = .ok (some y) := by
  rw [List.reduceOption_mem_iff]
  induction xs generalizing ys with
  | nil =>
    cases run
    simp
  | cons x xs ih =>
    rw [List.mapM_cons] at run
    cases atHead : f x with
    | error e =>
      rw [atHead] at run
      cases run
    | ok first =>
      cases atTail : xs.mapM f with
      | error e =>
        rw [atHead, atTail] at run
        cases run
      | ok rest =>
        rw [atHead, atTail] at run
        cases run
        simp [ih atTail, atHead, eq_comm]

theorem mem_dblookupPattern {pattern : PatternTest} {section? : Option Bytes} {tryDescriptions : Bool}
    {infos : List Mandata} (run : dblookupPattern db pattern section? tryDescriptions = .ok infos) (info : Mandata) :
    info ∈ infos ↔ ∃ key ∈ db.keys, patternPage db pattern section? tryDescriptions key = .ok (some info) := by
  unfold dblookupPattern at run
  cases turns : db.keys.mapM (patternPage db pattern section? tryDescriptions) with
  | error fatal =>
    rw [turns] at run
    cases run
  | ok found =>
    rw [turns] at run
    cases run
    exact mem_reduceOption_of_mapM turns info

theorem mem_purgeScan {visits : List (Bytes × Mandata)} (run : purgeScan db = .ok visits) (visit : Bytes × Mandata) :
    visit ∈ visits ↔ ∃ key ∈ db.keys, purgeEntry db key = .ok (some visit) := by
  unfold purgeScan at run
  cases turns : db.keys.mapM (purgeEntry db) with
  | error fatal =>
    rw [turns] at run
    cases run
  | ok found =>
    rw [turns] at run
    cases run
    exact mem_reduceOption_of_mapM turns visit

theorem WellFormed.purgeScan (wf : WellFormed loc db) : ∃ visits, purgeScan db = .ok visits := by
  have turn : ∀ key ∈ db.keys, ∃ found, purgeEntry db key = .ok found := by
    intro key member
    obtain ⟨cont, atKey⟩ := Store.mem_keys_iff.mp member
    unfold purgeEntry
    simp only [atKey]
    by_cases special : key.head? = some dollar
    · exact ⟨none, if_pos special⟩
    · rw [if_neg special]
      cases index : isIndex cont with
      | true => exact ⟨none, rfl⟩
      | false =>
        obtain ⟨found, split⟩ := wf.readable atKey special index
        exact ⟨some ((Separated.cut tab key).1, found), by simp [split, bind, Except.bind, pure, Except.pure]⟩
  obtain ⟨found, run⟩ := mapM_ok turn
  exact ⟨found.reduceOption, by simp [ManDb.purgeScan, run, bind, Except.bind, pure, Except.pure]⟩

/-- A record under a key that spells the name up to a tab is visible under it. -/
theorem visible_of_record (wf : WellFormed loc db) (atKey : db.fetch key = some cont)
    (plain : key.head? ≠ some dollar) (notIndex : isIndex cont = false) (split : splitContent cont = .ok info)
    (byPattern : info.name.getD (upToLastTab key) = ref.name)
    (byPurge : info.name.getD (Separated.cut tab key).1 = ref.name) (ext : info.ext = ref.ext) : Visible db ref where
  pattern pattern tryDescriptions accepts := by
    obtain ⟨infos, run⟩ := wf.pattern pattern none tryDescriptions
    refine ⟨infos, run, { info with name := some ref.name }, ?_, rfl, ext⟩
    refine (mem_dblookupPattern run _).mpr ⟨key, Store.mem_keys_iff.mpr ⟨cont, atKey⟩, ?_⟩
    unfold patternPage
    simp [atKey, plain, notIndex, split, byPattern, accepts, bind, Except.bind, pure, Except.pure]
  purge := by
    obtain ⟨visits, run⟩ := wf.purgeScan
    refine ⟨visits, run, ((Separated.cut tab key).1, info), ?_, byPurge, ext⟩
    refine (mem_purgeScan run _).mpr ⟨key, Store.mem_keys_iff.mpr ⟨cont, atKey⟩, ?_⟩
    unfold purgeEntry
    simp [atKey, plain, notIndex, split, bind, Except.bind, pure, Except.pure]

theorem upToLastTab_of_not_mem (clean : tab ∉ key) : upToLastTab key = key := if_neg clean

theorem upToLastTab_multi {name ext : Bytes} (clean : tab ∉ ext) : upToLastTab (makeMultiKey name ext) = name := by
  have reversed : ∀ b ∈ ext.reverse, (b != tab) = true := by
    intro b member
    have different : b ≠ tab := by
      rintro rfl
      exact clean (List.mem_reverse.mp member)
    simpa using different
  rw [upToLastTab, if_pos tab_mem_makeMultiKey, makeMultiKey, List.reverse_append, List.reverse_cons,
    List.append_assoc, List.dropWhile_append_of_pos reversed]
  simp

/-- Every entry of a well-formed index is visible to the scans. -/
theorem WellFormed.visible (wf : WellFormed loc db) (clean : ref.Clean) (present : entry loc db ref ≠ none) :
    Visible db ref := by
  have pageKey : PageName (nameToKey loc ref.name) := pageName_nameToKey.mpr clean.1
  obtain ⟨g, ok, holds⟩ := wf.group pageKey
  rw [entry_eq_find ref clean.1 ok holds] at present
  have simple := holds.simple
  match g, ok, holds, simple, present with
  | .singular info, ok, _, simple, present =>
    have same : ref = info.ref (nameToKey loc ref.name) := by
      by_contra different
      exact present (if_neg different)
    have name : info.name.getD (nameToKey loc ref.name) = ref.name := (congrArg NameExt.name same).symm
    have ext : info.ext = ref.ext := (congrArg NameExt.ext same).symm
    refine visible_of_record wf simple pageKey.2.2 (isIndex_makeContent ok.2.1) (ok.1.split ok.2.1) ?_ ?_ ext
    · rw [upToLastTab_of_not_mem pageKey.2.1, name]
    · rw [Separated.cut_of_not_mem pageKey.2.1, name]
  | .indexed refs record, ok, holds, _, present =>
    have member : ref ∈ refs := by
      by_contra outside
      exact present (if_neg outside)
    obtain ⟨_, _, isStored, unnamed, ext⟩ := ok.2.2 ref member
    have multi := holds.multi ref clean rfl
    simp only [Group.multiContent, if_pos member] at multi
    have field : NameField (record ref).name := unnamed ▸ nameField_none
    refine visible_of_record wf multi (head_makeMultiKey clean.1 _) (isIndex_makeContent field)
      (isStored.split field) ?_ ?_ ext
    · rw [unnamed, upToLastTab_multi clean.2]
      rfl
    · rw [unnamed, makeMultiKey, Separated.cut_append_cons clean.1.2.1]
      rfl

/-- A refused write alters no other entry either. -/
theorem entry_refused (wf : WellFormed loc db) (page : PageName base) (clean : data.Clean)
    (ok : (Group.singular info).Ok loc (nameToKey loc base))
    (holds : Holds loc db (nameToKey loc base) (.singular info))
    (refuses : (Group.singular info).Refuses (nameToKey loc base) ⟨base, data.ext⟩ (stored data))
    (frame : Frame loc (nameToKey loc base) db db') (run : dbstore loc db data base = .ok (1, db'))
    (other : ref ≠ ⟨base, data.ext⟩) : entry loc db' ref = entry loc db ref := by
  have pageKey : PageName (nameToKey loc base) := pageName_nameToKey.mpr page
  obtain ⟨after, sameRun, atKey, written, _⟩ := dbstore_clash page clean ok holds refuses
  have same : after = db' := by
    cases sameRun.symm.trans run
    rfl
  subst same
  by_cases belongs : nameToKey loc ref.name = nameToKey loc base
  · by_cases pageRef : PageName ref.name
    · have okRef := ok
      have holdsRef := holds
      rw [← belongs] at okRef holdsRef
      rw [entry_eq_find ref pageRef okRef holdsRef, belongs]
      have offer := ok.store page clean
      simp only [Group.offer, if_neg refuses.1] at offer
      unfold entry
      rw [if_pos pageRef, belongs, atKey]
      simp only [Option.bind_some, isIndex_makeExtensionsReference offer.1, if_true, offer.members, Group.find]
      by_cases old : ref = info.ref (nameToKey loc base)
      · have field : NameField info.unnamed.name := nameField_none
        simp only [old, SortedList.mem_add, List.not_mem_nil, or_false, or_true, if_true, written,
          Option.bind_some, ok.1.unnamed.split field, Except.toOption]
      · simp [SortedList.mem_add, old, other]
    · simp [entry, pageRef]
  · exact entry_frame wf pageKey frame belongs

/-- A proper page has its keys apart. -/
theorem keysApart_of_proper (page : PageName base) (clean : data.Clean) : KeysApart loc data base where
  simple := by
    have pageKey : PageName (nameToKey loc base) := pageName_nameToKey.mpr page
    exact ⟨pageKey.2.2, fun ref => pageKey.ne_multi _ _⟩
  multi := by
    refine ⟨head_makeMultiKey page _, fun ref cleanRef => ⟨fun same => ?_, fun same => ?_⟩⟩
    · exact (pageName_nameToKey.mpr cleanRef.1).ne_multi _ _ same.symm
    · obtain ⟨sameName, sameExt⟩ := makeMultiKey_inj page.2.1 cleanRef.1.2.1 same
      cases ref
      simp_all
  store db wf := by
    have pageKey : PageName (nameToKey loc base) := pageName_nameToKey.mpr page
    obtain ⟨g, ok, holds⟩ := wf.group pageKey
    obtain ⟨code, db', outcome⟩ := dbstore_group page clean ok holds
    refine ⟨code, db', outcome.run, fun key special => ?_, fun ref other => ?_, ?_⟩
    · exact outcome.frame key (fun owned => owned.head_ne_dollar pageKey special)
    · by_cases refuses : g.Refuses (nameToKey loc base) ⟨base, data.ext⟩ (stored data)
      · have run := outcome.run
        rw [outcome.refused refuses] at run
        match g, ok, holds, refuses with
        | .singular info, ok, holds, refuses =>
          exact entry_refused wf page clean ok holds refuses outcome.frame run other
      · rw [outcome.entry wf page clean ok holds refuses, Function.update_apply, if_neg other]
    · rintro rfl
      have accepted : ¬g.Refuses (nameToKey loc base) ⟨base, data.ext⟩ (stored data) :=
        fun refuses => absurd (outcome.refused refuses) (by decide)
      refine (outcome.wellFormed wf page clean ok accepted).visible ⟨page, clean.ext⟩ ?_
      rw [outcome.entry wf page clean ok holds accepted, Function.update_self]
      exact Option.some_ne_none _

theorem splitContent_tabFree (split : splitContent cont = .ok info) :
    (∀ name ∈ info.name, tab ∉ name) ∧ tab ∉ info.ext := by
  unfold splitContent fieldCount at split
  have fields : ∀ {more count : Nat} {content : Option Bytes} {found : List Bytes},
      splitData (more + 1) count content = .ok found →
      ∃ first rest, found = first :: rest ∧ tab ∉ first ∧ ∃ left, splitData more (count + 1) left = .ok rest := by
    intro more count content found run
    cases content with
    | none => cases run
    | some text =>
      rw [splitData] at run
      cases tail : splitData more (count + 1) (Separated.cut tab text).2 with
      | error fatal =>
        rw [tail] at run
        cases run
      | ok rest =>
        rw [tail] at run
        cases run
        exact ⟨_, rest, rfl, Separated.cut_fst_clean _ _, _, tail⟩
  split at split
  · rename_i name ext sec tvSec tvNsec id pointer filter comp whatis run
    obtain ⟨first, rest, shape, nameClean, _, runRest⟩ := fields run
    obtain ⟨second, _, shape', extClean, _⟩ := fields runRest
    cases shape
    cases shape'
    cases split
    refine ⟨fun found member => ?_, extClean⟩
    simp only [copyIfSet] at member
    split at member
    · cases member
    · cases member
      exact nameClean
  · cases split
  · cases split

theorem upToLastTab_length (tabbed : tab ∈ key) : (upToLastTab key).length < key.length := by
  rw [upToLastTab, if_pos tabbed, List.length_reverse, List.length_tail]
  have shorter : (key.reverse.dropWhile (· != tab)).length ≤ key.length := by
    rw [← key.length_reverse]
    exact (List.dropWhile_sublist _).length_le
  have some := List.length_pos_of_mem tabbed
  omega

/-- A page whose keys are apart is a proper one: an index of that page alone shows it. -/
theorem proper_of_keysApart (nonempty : base ≠ []) (apart : KeysApart loc data base) :
    PageName base ∧ tab ∉ data.ext := by
  have absent : Store.fetch ∅ (nameToKey loc base) = none := Store.fetch_empty
  have run : dbstore loc ∅ data base = _ := dbstore_absent nonempty absent
  obtain ⟨code, db, sameRun, _, _, visible⟩ := apart.store ∅ (wellFormed_empty loc)
  cases run.symm.trans sameRun
  obtain ⟨infos, scan, info, member, name, ext⟩ := (visible rfl).pattern ⟨fun _ => true, fun _ => true⟩ false rfl
  obtain ⟨key, inKeys, turn⟩ := (mem_dblookupPattern scan info).mp member
  obtain ⟨cont, atKey⟩ := Store.mem_keys_iff.mp inKeys
  have here : key = nameToKey loc base := by
    by_contra different
    rw [Store.fetch_replace_of_ne different, Store.fetch_empty] at atKey
    cases atKey
  subst here
  unfold patternPage at turn
  simp only [atKey] at turn
  split at turn
  · cases turn
  · split at turn
    · cases turn
    · rename_i plain _
      cases split : splitContent cont with
      | error fatal =>
        rw [split] at turn
        cases turn
      | ok found =>
        obtain ⟨nameClean, extClean⟩ := splitContent_tabFree split
        rw [split] at turn
        cases turn
        have sameExt : found.ext = data.ext := ext
        rw [sameExt] at extClean
        refine ⟨⟨nonempty, fun tabbed => ?_, by simpa [nameToKey] using plain⟩, extClean⟩
        -- the name shown is a field of the content, or the key up to a tab
        cases atName : found.name with
        | some n =>
          have same : n = base := by simpa [atName] using name
          exact nameClean n atName (same ▸ tabbed)
        | none =>
          have same : upToLastTab (nameToKey loc base) = base := by simpa [atName] using name
          have shorter := @upToLastTab_length (nameToKey loc base) (by simpa [nameToKey] using tabbed)
          rw [same] at shorter
          simp [nameToKey] at shorter

/-- A record that is clean but for its extension. -/
def Mandata.CleanBut (data : Mandata) : Prop := Mandata.Clean { data with ext := [] }

/-- The keys of a page are apart precisely when neither its name nor its extension
has a tab and the name does not start with '$'. -/
theorem keysApart_iff (nonempty : base ≠ []) (clean : data.CleanBut) :
    KeysApart loc data base ↔ tab ∉ base ∧ base.head? ≠ some dollar ∧ tab ∉ data.ext := by
  constructor
  · intro apart
    obtain ⟨page, ext⟩ := proper_of_keysApart nonempty apart
    exact ⟨page.2.1, page.2.2, ext⟩
  · rintro ⟨name, plain, ext⟩
    exact keysApart_of_proper ⟨nonempty, name, plain⟩
      ⟨ext, clean.sec, clean.idTab, clean.idNul, clean.pointer, clean.comp, clean.filter⟩

theorem keysApart_iff_foo : KeysApart .posix (samplePage "1" ultMan 5 "-") (ascii "foo") :=
  (keysApart_iff (by decide) (by unfold Mandata.CleanBut; decide)).mpr ⟨by decide, by decide, by decide⟩

/-- A page called $foo is stored, but no scan shows it; one called $version$ ends
the process in any index that has its version. -/
theorem dollar_pages_not_apart :
    ((dbstore .posix ∅ (samplePage "1" ultMan 5 "-") (ascii "$foo")).bind fun after =>
      dblookupPattern after.2 ⟨fun _ => true, fun _ => true⟩ none false) = .ok [] ∧
    ((dbstore .posix ∅ (samplePage "1" ultMan 5 "-") (ascii "$foo")).bind fun after => purgeScan after.2) = .ok [] ∧
    (dbstore .posix (Store.replace ∅ (ascii "$version$") (ascii "2.5.0")) (samplePage "1" ultMan 5 "-")
      (ascii "$version$")).map Prod.fst = .error (.onlyFields 1) ∧
    ¬KeysApart .posix (samplePage "1" ultMan 5 "-") (ascii "$foo") := by
  refine ⟨by decide +kernel, by decide +kernel, by decide +kernel, fun apart => ?_⟩
  exact absurd (proper_of_keysApart (by decide) apart).1 (by decide)

end ManDb
