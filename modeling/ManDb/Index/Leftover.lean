import ManDb.Index.Reachable

namespace ManDb

/-- The content of `k` is an index of these pairs, in whatever order and number. -/
structure Lists (loc : Locale) (k : Bytes) (refs : List NameExt) (cont : Bytes) : Prop where
  nonempty : refs ≠ []
  members : ∀ ref ∈ refs, ref.Clean ∧ nameToKey loc ref.name = k
  written : cont = makeExtensionsReference refs

/-- A record that belongs to `k`, or an index of pairs that belong to it. -/
def Shaped (loc : Locale) (k cont : Bytes) : Prop :=
  (∃ info : Mandata, (Group.singular info).Ok loc k ∧ cont = makeContent info) ∨ ∃ refs, Lists loc k refs cont

/-- What is left of the invariant after a refused write. -/
def Loose (loc : Locale) (db : Store) : Prop :=
  ∀ k cont, PageName k → db.fetch k = some cont → Shaped loc k cont

/-- The pair is listed once and has its record. -/
def Settled (loc : Locale) (db : Store) (ref : NameExt) : Prop :=
  ∃ refs cont, db.fetch (nameToKey loc ref.name) = some cont ∧ Lists loc (nameToKey loc ref.name) refs cont ∧
    refs.count ref = 1 ∧ db.fetch (makeMultiKey ref.name ref.ext) ≠ none

/-- The pair is listed without a record, or more than once. -/
def Spoilt (loc : Locale) (db : Store) (ref : NameExt) : Prop :=
  ∃ refs cont, db.fetch (nameToKey loc ref.name) = some cont ∧ Lists loc (nameToKey loc ref.name) refs cont ∧
    ((refs.count ref = 1 ∧ db.fetch (makeMultiKey ref.name ref.ext) = none) ∨ 2 ≤ refs.count ref)

variable {loc : Locale} {db db' : Store} {data info : Mandata} {base k cont : Bytes} {refs : List NameExt}
  {ref : NameExt} {code : Nat}

theorem Lists.isIndex (lists : Lists loc k refs cont) : isIndex cont = true :=
  lists.written ▸ isIndex_makeExtensionsReference lists.nonempty

theorem Lists.perm (lists : Lists loc k refs cont) : (listExtensions cont.tail).Perm refs := by
  rw [lists.written, listExtensions_reference (fun ref member => (lists.members ref member).1.tabFree)]
  exact SortedList.addAll_perm _ _

theorem Lists.add (lists : Lists loc (nameToKey loc ref.name) refs cont) (clean : ref.Clean) :
    Lists loc (nameToKey loc ref.name) (SortedList.add nameExtCompare ref (listExtensions cont.tail))
      (makeExtensionsReference (SortedList.add nameExtCompare ref (listExtensions cont.tail))) where
  nonempty := SortedList.add_ne_nil _ _
  members other member := by
    rcases SortedList.mem_add.mp member with same | old
    · rw [same]
      exact ⟨clean, rfl⟩
    · exact lists.members other (lists.perm.mem_iff.mp old)
  written := rfl

theorem Settled.not_spoilt (settled : Settled loc db ref) : ¬Spoilt loc db ref := by
  rintro ⟨refs', cont', atKey', lists', spoilt⟩
  obtain ⟨refs, cont, atKey, lists, once, written⟩ := settled
  cases Option.some.inj (atKey.symm.trans atKey')
  have counts : refs.count ref = refs'.count ref := (lists.perm.symm.trans lists'.perm).count_eq ref
  rcases spoilt with ⟨_, unwritten⟩ | twice
  · exact written unwritten
  · omega

theorem replaceIfNecessary_cases (db : Store) (new old : Mandata) (key content : Bytes) :
    (replaceIfNecessary db new old key content).2 = db ∨
      (replaceIfNecessary db new old key content).2 = db.replace key content := by
  unfold replaceIfNecessary
  split
  · exact Or.inr rfl
  · cases absent : db.fetch key with
    | none =>
      rw [Store.insertNew_absent absent]
      exact Or.inr rfl
    | some old =>
      rw [Store.insertNew_present absent]
      exact Or.inl rfl
  · exact Or.inl rfl

/-- Situation (2) with a multi key that holds anything at all. -/
theorem dbstore_written (page : base ≠ []) {old : Bytes} (atKey : db.fetch (nameToKey loc base) = some cont)
    (indexed : isIndex cont = true) (atMulti : db.fetch (makeMultiKey base data.ext) = some old)
    (run : dbstore loc db data base = .ok (code, db')) :
    db' = db ∨ db' = db.replace (makeMultiKey base data.ext) (makeContent (stored data)) := by
  unfold dbstore dbstoreIndexed at run
  simp only [if_neg page, atKey, indexed, if_true, Store.insertNew_present atMulti, atMulti,
    Option.getD_some] at run
  cases split : splitContent old with
  | error fatal => simp [split, bind, Except.bind] at run
  | ok found =>
    simp only [split, bind, Except.bind, pure, Except.pure, Except.ok.injEq] at run
    rw [show db' = _ from (congrArg Prod.snd run).symm]
    exact replaceIfNecessary_cases _ _ _ _ _

/-- Writing a good content under `k` after other changes there. -/
theorem Loose.rewrite (loose : Loose loc db) (frame : Frame loc k db db') (shaped : Shaped loc k cont) :
    Loose loc (db'.replace k cont) ∧ Frame loc k db (db'.replace k cont) := by
  have changed := frame.replace (owned_self loc k) cont
  refine ⟨fun key found pageKey atKey => ?_, changed⟩
  by_cases here : key = k
  · rw [here, Store.fetch_replace_self, Option.some.injEq] at atKey
    rw [here, ← atKey]
    exact shaped
  · rw [changed key (fun owned => here ((owned_pageName_iff pageKey).mp owned))] at atKey
    exact loose key found pageKey atKey

theorem shaped_named (page : PageName base) (clean : data.Clean) :
    Shaped loc (nameToKey loc base) (makeContent ((stored data).named base (nameToKey loc base))) := by
  have absent : Group.absent.Ok loc (nameToKey loc base) := trivial
  exact Or.inl ⟨_, absent.store page clean, rfl⟩

theorem lists_pair (page : PageName base) (clean : data.Clean)
    (ok : (Group.singular info).Ok loc (nameToKey loc base)) :
    Lists loc (nameToKey loc base) (SortedList.add nameExtCompare ⟨base, data.ext⟩
      (SortedList.add nameExtCompare (info.ref (nameToKey loc base)) []))
      (makeExtensionsReference (SortedList.add nameExtCompare ⟨base, data.ext⟩
        (SortedList.add nameExtCompare (info.ref (nameToKey loc base)) []))) := by
  refine ⟨SortedList.add_ne_nil _ _, fun ref member => ?_, rfl⟩
  rcases SortedList.mem_add.mp member with rfl | old
  · exact ⟨⟨page, clean.ext⟩, rfl⟩
  · rcases SortedList.mem_add.mp old with rfl | none
    · exact Mandata.ref_clean (pageName_nameToKey.mpr page) ok
    · cases none

theorem Loose.step_singular (loose : Loose loc db) (page : PageName base) (clean : data.Clean)
    (ok : (Group.singular info).Ok loc (nameToKey loc base))
    (atKey : db.fetch (nameToKey loc base) = some (makeContent info))
    (run : dbstore loc db data base = .ok (code, db')) :
    Loose loc db' ∧ Frame loc (nameToKey loc base) db db' := by
  have refl := Frame.refl loc (nameToKey loc base) db
  by_cases same : info.ref (nameToKey loc base) = ⟨base, data.ext⟩
  · have result := congrArg Prod.snd (Except.ok.inj (run.symm.trans (dbstore_same page.1 ok.1 ok.2.1 atKey same)))
    rcases replaceIfNecessary_cases db (stored data) info (nameToKey loc base)
      (makeContent ((stored data).named base (nameToKey loc base))) with kept | replaced
    · rw [show db' = db from result.trans kept]
      exact ⟨loose, refl⟩
    · rw [show db' = _ from result.trans replaced]
      exact loose.rewrite refl (shaped_named page clean)
  · have result := congrArg Prod.snd (Except.ok.inj (run.symm.trans (dbstore_reformat page.1 ok.1 ok.2.1 atKey same)))
    obtain ⟨oldClean, oldBelongs⟩ := Mandata.ref_clean (pageName_nameToKey.mpr page) ok
    have moved := refl.replace (owned_multi oldClean oldBelongs) (makeContent info.unnamed)
    have owned : Owned loc (nameToKey loc base) (makeMultiKey base data.ext) :=
      owned_multi (⟨page, clean.ext⟩ : NameExt.Clean ⟨base, data.ext⟩) rfl
    rw [show db' = _ from result]
    rcases replaceIfNecessary_cases (db.replace (makeMultiKey (info.ref (nameToKey loc base)).name
        (info.ref (nameToKey loc base)).ext) (makeContent info.unnamed)) (stored data) info.unnamed
        (makeMultiKey base data.ext) (makeContent (stored data)) with kept | replaced
    · simp only [kept]
      exact loose.rewrite moved (Or.inr ⟨_, lists_pair page clean ok⟩)
    · simp only [replaced]
      exact loose.rewrite (moved.replace owned _) (Or.inr ⟨_, lists_pair page clean ok⟩)

/-- One store where an index is found: the pair is added if it has no record yet. -/
theorem Lists.step (lists : Lists loc (nameToKey loc base) refs cont) (page : PageName base) (clean : data.Clean)
    (atKey : db.fetch (nameToKey loc base) = some cont) (run : dbstore loc db data base = .ok (code, db')) :
    ∃ refs' cont', db'.fetch (nameToKey loc base) = some cont' ∧ Lists loc (nameToKey loc base) refs' cont' ∧
      Frame loc (nameToKey loc base) db db' ∧
      (∀ other : NameExt, tab ∉ other.name → (db'.fetch (makeMultiKey other.name other.ext) = none ↔
        other ≠ ⟨base, data.ext⟩ ∧ db.fetch (makeMultiKey other.name other.ext) = none)) ∧
      ∀ other, refs'.count other = refs.count other +
        if other = ⟨base, data.ext⟩ ∧ db.fetch (makeMultiKey base data.ext) = none then 1 else 0 := by
  have pageKey : PageName (nameToKey loc base) := pageName_nameToKey.mpr page
  have cleanRef : NameExt.Clean ⟨base, data.ext⟩ := ⟨page, clean.ext⟩
  have owned : Owned loc (nameToKey loc base) (makeMultiKey base data.ext) := owned_multi cleanRef rfl
  have refl := Frame.refl loc (nameToKey loc base) db
  -- a written multi key makes its pair present and leaves the others alone
  have multi : ∀ other : NameExt, tab ∉ other.name →
      ((db.replace (makeMultiKey base data.ext) (makeContent (stored data))).fetch
        (makeMultiKey other.name other.ext) = none ↔
        other ≠ ⟨base, data.ext⟩ ∧ db.fetch (makeMultiKey other.name other.ext) = none) := by
    intro other tabFree
    rw [fetch_multi_replace_multi ⟨base, data.ext⟩ other page.2.1 tabFree]
    by_cases same : other = ⟨base, data.ext⟩ <;> simp [same]
  cases atMulti : db.fetch (makeMultiKey base data.ext) with
  | none =>
    cases run.symm.trans (dbstore_unlisted page.1 atKey lists.isIndex atMulti)
    refine ⟨_, _, Store.fetch_replace_self, lists.add cleanRef,
      (refl.replace owned _).replace (owned_self _ _) _, fun other tabFree => ?_, fun other => ?_⟩
    · rw [fetch_multi_replace_simple pageKey]
      exact multi other tabFree
    · rw [(SortedList.add_perm _ _).count_eq, List.count_cons, lists.perm.count_eq]
      by_cases same : other = ⟨base, data.ext⟩
      · simp [same]
      · have apart : ¬(⟨base, data.ext⟩ : NameExt) = other := fun h => same h.symm
        simp [same, apart]
  | some old =>
    have present : ∀ other : NameExt, db.fetch (makeMultiKey other.name other.ext) = none →
        other ≠ ⟨base, data.ext⟩ := by
      rintro other absent rfl
      rw [atMulti] at absent
      cases absent
    rcases dbstore_written page.1 atKey lists.isIndex atMulti run with rfl | rfl
    · refine ⟨refs, cont, atKey, lists, refl, fun other _ => ?_, fun other => by simp⟩
      exact ⟨fun absent => ⟨present other absent, absent⟩, And.right⟩
    · refine ⟨refs, cont, ?_, lists, refl.replace owned _, multi, fun other => by simp⟩
      rw [fetch_simple_replace_multi pageKey, atKey]

/-- One store on what is left of the invariant. -/
theorem Loose.step (loose : Loose loc db) (page : PageName base) (clean : data.Clean)
    (run : dbstore loc db data base = .ok (code, db')) :
    Loose loc db' ∧ Frame loc (nameToKey loc base) db db' := by
  have pageKey : PageName (nameToKey loc base) := pageName_nameToKey.mpr page
  cases atKey : db.fetch (nameToKey loc base) with
  | none =>
    cases run.symm.trans (dbstore_absent page.1 atKey)
    exact loose.rewrite (Frame.refl _ _ _) (shaped_named page clean)
  | some cont =>
    rcases loose _ cont pageKey atKey with ⟨old, ok, rfl⟩ | ⟨refs, lists⟩
    · exact loose.step_singular page clean ok atKey run
    · obtain ⟨refs', cont', after, lists', frame, _⟩ := lists.step page clean atKey run
      refine ⟨fun key found pageOther atOther => ?_, frame⟩
      by_cases here : key = nameToKey loc base
      · rw [here, after, Option.some.injEq] at atOther
        rw [here, ← atOther]
        exact Or.inr ⟨refs', lists'⟩
      · rw [frame key (fun owned => here ((owned_pageName_iff pageOther).mp owned))] at atOther
        exact loose key found pageOther atOther

/-- What a store can do to the pair `ref`: nothing, or it lists it once more when
it had no record and gives it one. -/
theorem Loose.pair (loose : Loose loc db) (page : PageName base) (clean : data.Clean)
    (run : dbstore loc db data base = .ok (code, db')) (cleanRef : ref.Clean)
    (atKey : db.fetch (nameToKey loc ref.name) = some cont) (lists : Lists loc (nameToKey loc ref.name) refs cont) :
    ∃ refs' cont', db'.fetch (nameToKey loc ref.name) = some cont' ∧
      Lists loc (nameToKey loc ref.name) refs' cont' ∧
      ((refs'.count ref = refs.count ref ∧
        (db'.fetch (makeMultiKey ref.name ref.ext) = none ↔ db.fetch (makeMultiKey ref.name ref.ext) = none)) ∨
      (db.fetch (makeMultiKey ref.name ref.ext) = none ∧ db'.fetch (makeMultiKey ref.name ref.ext) ≠ none ∧
        refs'.count ref = refs.count ref + 1)) := by
  have pageRef : PageName (nameToKey loc ref.name) := pageName_nameToKey.mpr cleanRef.1
  by_cases belongs : nameToKey loc ref.name = nameToKey loc base
  · rw [belongs] at atKey lists ⊢
    obtain ⟨refs', cont', after, lists', _, multi, counts⟩ := lists.step page clean atKey run
    refine ⟨refs', cont', after, lists', ?_⟩
    have count := counts ref
    have written := multi ref cleanRef.1.2.1
    by_cases here : ref = ⟨base, data.ext⟩
    · subst here
      by_cases absent : db.fetch (makeMultiKey base data.ext) = none
      · refine Or.inr ⟨absent, ?_, by simpa [absent] using count⟩
        simp [written]
      · refine Or.inl ⟨by simpa [absent] using count, ?_⟩
        simp [written, absent]
    · exact Or.inl ⟨by simpa [here] using count, by simp [written, here]⟩
  · have frame := (loose.step page clean run).2
    have pageKey : PageName (nameToKey loc base) := pageName_nameToKey.mpr page
    refine ⟨refs, cont, ?_, lists, Or.inl ⟨rfl, ?_⟩⟩
    · rw [frame _ (fun owned => belongs ((owned_pageName_iff pageRef).mp owned)), atKey]
    · rw [frame _ (not_owned_multi pageKey cleanRef belongs)]

theorem Settled.step (settled : Settled loc db ref) (loose : Loose loc db) (cleanRef : ref.Clean)
    (page : PageName base) (clean : data.Clean) (run : dbstore loc db data base = .ok (code, db')) :
    Settled loc db' ref := by
  obtain ⟨refs, cont, atKey, lists, once, written⟩ := settled
  obtain ⟨refs', cont', after, lists', ⟨count, multi⟩ | ⟨absent, _⟩⟩ := loose.pair page clean run cleanRef atKey lists
  · exact ⟨refs', cont', after, lists', count.trans once, fun gone => written (multi.mp gone)⟩
  · exact absurd absent written

theorem Spoilt.step (spoilt : Spoilt loc db ref) (loose : Loose loc db) (cleanRef : ref.Clean)
    (page : PageName base) (clean : data.Clean) (run : dbstore loc db data base = .ok (code, db')) :
    Spoilt loc db' ref := by
  obtain ⟨refs, cont, atKey, lists, bad⟩ := spoilt
  obtain ⟨refs', cont', after, lists', ⟨count, multi⟩ | ⟨absent, written, count⟩⟩ :=
    loose.pair page clean run cleanRef atKey lists
  · refine ⟨refs', cont', after, lists', ?_⟩
    rcases bad with ⟨once, unwritten⟩ | twice
    · exact Or.inl ⟨count.trans once, multi.mpr unwritten⟩
    · exact Or.inr (by omega)
  · refine ⟨refs', cont', after, lists', Or.inr ?_⟩
    rcases bad with ⟨once, _⟩ | twice
    · omega
    · omega

end ManDb
