import ManDb.Index.Reachable

namespace ManDb

/-- The layout that storing alone leads to: an index has two pairs or more, and a
single record names the page only where the key does not. -/
def Group.Tight (k : Bytes) : Group → Prop
  | absent => True
  | singular info => info.name ≠ some k
  | indexed refs _ => 2 ≤ refs.length

/-- An index of pages in the layout that storing leads to. -/
structure Tidy (loc : Locale) (db : Store) : Prop where
  only : PagesOnly loc db
  tight : ∀ k, PageName k → ∃ g : Group, g.Ok loc k ∧ Holds loc db k g ∧ g.Tight k

variable {loc : Locale} {db db' : Store} {g g' : Group} {k base : Bytes} {ref : NameExt} {new data : Mandata}

theorem tidy_empty (loc : Locale) : Tidy loc ∅ where
  only := ⟨wellFormed_empty loc, fun _ _ => Store.fetch_empty⟩
  tight _ _ := ⟨.absent, trivial, ⟨Store.fetch_empty, fun _ _ _ => Store.fetch_empty⟩, trivial⟩

theorem named_tight (name k : Bytes) (info : Mandata) : (Group.singular (info.named name k)).Tight k := by
  simp only [Group.Tight, Mandata.named, singularName]
  split
  · simp
  · rename_i different
    simpa using different

theorem Group.Tight.offer (tight : g.Tight k) : (g.offer k ref new).Tight k := by
  match g, tight with
  | .absent, _ => exact named_tight _ _ _
  | .singular info, tight =>
    simp only [Group.offer]
    split
    · split
      · exact named_tight _ _ _
      · exact tight
    · rw [Group.Tight, (SortedList.add_perm _ _).length_eq]
      simp [SortedList.add]
  | .indexed refs record, tight =>
    simp only [Group.offer]
    split
    · split
      · exact tight
      · exact tight
    · rw [Group.Tight, (SortedList.add_perm _ _).length_eq]
      exact Nat.le_succ_of_le tight

/-- Storing a page that does not clash keeps the layout. -/
theorem Tidy.store (tidy : Tidy loc db) (page : PageName base) (clean : data.Clean)
    (calm : ¬(Op.store data base).Clash loc db) :
    ∃ code db', dbstore loc db data base = .ok (code, db') ∧ Tidy loc db' ∧
      entry loc db' = offered (entry loc db) ⟨base, data.ext⟩ (stored data) := by
  have pageKey : PageName (nameToKey loc base) := pageName_nameToKey.mpr page
  obtain ⟨g, ok, holds, tight⟩ := tidy.tight _ pageKey
  have accepted : ¬g.Refuses (nameToKey loc base) ⟨base, data.ext⟩ (stored data) :=
    fun refuses => calm ((refuses_iff_clash ok holds).mp refuses)
  obtain ⟨code, db', outcome⟩ := dbstore_group page clean ok holds
  obtain ⟨_, after, run, keeps, _⟩ := tidy.only.step (.store data base) ⟨page, clean⟩
  have same : after = db' := by
    have both := run.symm.trans outcome.run
    cases both
    rfl
  refine ⟨code, db', outcome.run, ⟨same ▸ keeps calm, fun key pageOther => ?_⟩, ?_⟩
  · by_cases here : key = nameToKey loc base
    · subst here
      exact ⟨_, ok.store page clean, outcome.held accepted, tight.offer⟩
    · obtain ⟨other, okOther, holdsOther, tightOther⟩ := tidy.tight key pageOther
      exact ⟨other, okOther, holdsOther.frame outcome.frame pageKey pageOther here, tightOther⟩
  · rw [outcome.entry tidy.only.wf page clean ok holds accepted, settle_eq_preferred]
    rfl

theorem Group.Ok.find_elsewhere (ok : g.Ok loc k) (elsewhere : nameToKey loc ref.name ≠ k) : g.find k ref = none := by
  match g, ok with
  | .absent, _ => rfl
  | .singular info, ok =>
    refine if_neg ?_
    rintro rfl
    exact elsewhere ok.2.2
  | .indexed refs record, ok => exact if_neg (fun member => elsewhere (ok.2.2 ref member).2.1)

/-- In the tight layout an index has two pairs at least. -/
theorem Group.Tight.two_pairs {refs : List NameExt} {record : NameExt → Mandata}
    (ok : (Group.indexed refs record).Ok loc k) (tight : (Group.indexed refs record).Tight k) (only : NameExt) :
    ∃ ref, (Group.indexed refs record).find k ref ≠ none ∧ ref ≠ only := by
  by_contra none_
  have allSame : ∀ ref ∈ refs, ref = only := by
    intro ref member
    by_contra different
    exact none_ ⟨ref, by simp [Group.find, member], different⟩
  have long : 2 ≤ refs.length := tight
  obtain ⟨first, others, rfl⟩ := List.exists_cons_of_length_pos (Nat.zero_lt_of_lt long)
  obtain ⟨second, rest, rfl⟩ := List.exists_cons_of_length_pos (Nat.lt_of_succ_le (Nat.le_of_succ_le_succ long))
  have different : first ≠ second := by
    rintro rfl
    simpa using ok.2.1.nodup
  exact different ((allSame first (by simp)).trans (allSame second (by simp)).symm)

theorem Group.Tight.singular_ne_indexed {info : Mandata} {refs : List NameExt} {record : NameExt → Mandata}
    (ok : (Group.indexed refs record).Ok loc k) (tight : (Group.indexed refs record).Tight k) :
    ∃ ref, (Group.singular info).find k ref ≠ (Group.indexed refs record).find k ref := by
  obtain ⟨ref, found, different⟩ := tight.two_pairs ok (info.ref k)
  exact ⟨ref, fun same => found (same ▸ if_neg different)⟩

/-- A record that is tight is known from its pair and the rest of its fields. -/
theorem Group.Tight.singular_eq {info info' : Mandata} (tight : (Group.singular info).Tight k)
    (tight' : (Group.singular info').Tight k)
    (same : ∀ ref, (Group.singular info).find k ref = (Group.singular info').find k ref) : info = info' := by
  have found := same (info.ref k)
  simp only [Group.find, if_true] at found
  by_cases sameRef : info.ref k = info'.ref k
  · rw [if_pos sameRef, Option.some.injEq] at found
    have sameName : info.name = info'.name := by
      have spelt : info.name.getD k = info'.name.getD k := congrArg NameExt.name sameRef
      cases atName : info.name with
      | none =>
        cases atName' : info'.name with
        | none => rfl
        | some n =>
          simp only [atName, atName', Option.getD_none, Option.getD_some] at spelt
          simp [Group.Tight, atName', spelt] at tight'
      | some n =>
        cases atName' : info'.name with
        | none =>
          simp only [atName, atName', Option.getD_none, Option.getD_some] at spelt
          simp [Group.Tight, atName, spelt] at tight
        | some m =>
          simpa [atName, atName'] using spelt
    cases info
    cases info'
    simp only [Mandata.unnamed, Mandata.mk.injEq] at found sameName ⊢
    exact ⟨sameName, found.2⟩
  · simp [if_neg sameRef] at found

theorem Group.indexed_eq {refs refs' : List NameExt} {record record' : NameExt → Mandata}
    (ok : (Group.indexed refs record).Ok loc k) (ok' : (Group.indexed refs' record').Ok loc k)
    (same : ∀ ref, (Group.indexed refs record).find k ref = (Group.indexed refs' record').find k ref) :
    refs = refs' ∧ ∀ ref ∈ refs, record ref = record' ref := by
  have members : ∀ ref, ref ∈ refs ↔ ref ∈ refs' := by
    intro ref
    have found := same ref
    simp only [Group.find] at found
    by_cases member : ref ∈ refs <;> by_cases member' : ref ∈ refs' <;> simp [member, member'] at found ⊢
  have sameRefs : refs = refs' :=
    ok.2.1.eq_of_perm ok'.2.1 ((List.perm_ext_iff_of_nodup ok.2.1.nodup ok'.2.1.nodup).mpr members)
  subst sameRefs
  refine ⟨rfl, fun ref member => ?_⟩
  have found := same ref
  simpa [Group.find, member] using found

/-- In the tight layout the pairs and their records determine what is written. -/
theorem Group.Tight.content_eq (ok : g.Ok loc k) (ok' : g'.Ok loc k) (tight : g.Tight k) (tight' : g'.Tight k)
    (same : ∀ ref, g.find k ref = g'.find k ref) :
    g.simpleContent = g'.simpleContent ∧ ∀ ref, g.multiContent ref = g'.multiContent ref := by
  match g, g', ok, ok', tight, tight', same with
  | .absent, .absent, _, _, _, _, _ => exact ⟨rfl, fun _ => rfl⟩
  | .absent, .singular info, _, _, _, _, same =>
    have found := same (info.ref k)
    simp [Group.find] at found
  | .absent, .indexed refs record, _, ok', _, tight', same =>
    obtain ⟨ref, found, _⟩ := Group.Tight.two_pairs ok' tight' ⟨[], []⟩
    exact absurd (same ref).symm found
  | .singular info, .absent, _, _, _, _, same =>
    have found := same (info.ref k)
    simp [Group.find] at found
  | .singular info, .singular info', _, _, tight, tight', same =>
    cases Group.Tight.singular_eq tight tight' same
    exact ⟨rfl, fun _ => rfl⟩
  | .singular info, .indexed refs record, _, ok', _, tight', same =>
    obtain ⟨ref, different⟩ := @Group.Tight.singular_ne_indexed _ _ info _ _ ok' tight'
    exact absurd (same ref) different
  | .indexed refs record, .absent, ok, _, tight, _, same =>
    obtain ⟨ref, found, _⟩ := Group.Tight.two_pairs ok tight ⟨[], []⟩
    exact absurd (same ref) found
  | .indexed refs record, .singular info, ok, _, tight, _, same =>
    obtain ⟨ref, different⟩ := @Group.Tight.singular_ne_indexed _ _ info _ _ ok tight
    exact absurd (same ref).symm different
  | .indexed refs record, .indexed refs' record', ok, ok', _, _, same =>
    obtain ⟨rfl, records⟩ := Group.indexed_eq ok ok' same
    refine ⟨rfl, fun ref => ?_⟩
    simp only [Group.multiContent]
    by_cases member : ref ∈ refs
    · rw [if_pos member, if_pos member, records ref member]
    · rw [if_neg member, if_neg member]

/-- The map an index of pages stands for determines it key for key. -/
theorem Tidy.eq_of_entry (tidy : Tidy loc db) (tidy' : Tidy loc db') (same : entry loc db = entry loc db') :
    db = db' := by
  have groups : ∀ k, PageName k → ∃ g g' : Group, Holds loc db k g ∧ Holds loc db' k g' ∧
      g.simpleContent = g'.simpleContent ∧ ∀ ref, g.multiContent ref = g'.multiContent ref := by
    intro k page
    obtain ⟨g, ok, holds, tight⟩ := tidy.tight k page
    obtain ⟨g', ok', holds', tight'⟩ := tidy'.tight k page
    refine ⟨g, g', holds, holds', Group.Tight.content_eq ok ok' tight tight' fun ref => ?_⟩
    by_cases belongs : nameToKey loc ref.name = k
    · subst belongs
      have pageRef : PageName ref.name := pageName_nameToKey.mp page
      rw [← entry_eq_find ref pageRef ok holds, ← entry_eq_find ref pageRef ok' holds', same]
    · rw [ok.find_elsewhere belongs, ok'.find_elsewhere belongs]
  -- a multi key that is present on one side is listed there, hence on the other
  have multi : ∀ {db₁ db₂ : Store}, PagesOnly loc db₁ → ∀ key cont, tab ∈ key → db₁.fetch key = some cont →
      (∀ k, PageName k → ∃ g g' : Group, Holds loc db₁ k g ∧ Holds loc db₂ k g' ∧
        g.simpleContent = g'.simpleContent ∧ ∀ ref, g.multiContent ref = g'.multiContent ref) →
      db₂.fetch key = some cont := by
    intro db₁ db₂ only key cont tabbed atKey groups
    obtain ⟨ref, _, clean, rfl, _⟩ := only.wf.multi key cont tabbed (only.head_ne_dollar atKey) atKey
    obtain ⟨g, g', holds, holds', _, sameMulti⟩ := groups _ (pageName_nameToKey.mpr clean.1)
    rw [holds'.multi ref clean rfl, ← sameMulti, ← holds.multi ref clean rfl, atKey]
  ext1 key
  by_cases special : key.head? = some dollar
  · rw [tidy.only.plain key special, tidy'.only.plain key special]
  · by_cases tabbed : tab ∈ key
    · cases atKey : db.fetch key with
      | some cont => exact (multi tidy.only key cont tabbed atKey groups).symm
      | none =>
        cases atKey' : db'.fetch key with
        | none => rfl
        | some cont =>
          have back := multi tidy'.only key cont tabbed atKey' (fun k page => by
            obtain ⟨g, g', holds, holds', sameSimple, sameMulti⟩ := groups k page
            exact ⟨g', g, holds', holds, sameSimple.symm, fun ref => (sameMulti ref).symm⟩)
          rw [atKey] at back
          cases back
    · by_cases empty : key = []
      · rw [empty, tidy.only.wf.nonempty, tidy'.only.wf.nonempty]
      · obtain ⟨g, g', holds, holds', sameSimple, _⟩ := groups key ⟨empty, tabbed, special⟩
        rw [holds.simple, holds'.simple, sameSimple]

end ManDb
