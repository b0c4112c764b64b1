import ManDb.Index.StoreMap
import ManDb.References

namespace ManDb

/-- What calls of `dbstore` do to the map that the index stands for. -/
def offerAll (map : NameExt → Option Mandata) (calls : List (Bytes × Mandata)) : NameExt → Option Mandata :=
  calls.foldl (fun map call => offered map ⟨call.1, call.2.ext⟩ (stored call.2)) map

/-- A well-formed index, of which all pages are compressed in the same way. -/
structure Orderly (loc : Locale) (comp : Bytes) (db : Store) : Prop where
  wf : WellFormed loc db
  alike : ∀ ref record, entry loc db ref = some record → record.comp = some comp

/-- A call of `dbstore` for a page that is compressed like the others. -/
structure Storable (comp : Bytes) (call : Bytes × Mandata) : Prop where
  page : PageName call.1
  clean : call.2.Clean
  alike : call.2.comp.getD [dash] = comp

/-- Calls of `dbstore`, one after the other. -/
def StoreRun.storeAll (loc : Locale) (run : StoreRun) (calls : List (Bytes × Mandata)) : StoreRun :=
  calls.foldl (fun run call => run.store loc call.1 call.2) run

/-- The call for a reference that `store_descriptions` has put off. -/
def referenceCall (pointerInfo entry : Mandata) : Bytes × Mandata :=
  (entry.name.getD [], { entry with name := none, pointer := pointerInfo.name })

/-- The calls that `store_descriptions` makes unless one of them is refused. -/
def StoreRequest.offers (r : StoreRequest) (pointerInfo : Mandata) (descs : List PageDescription) :
    List (Bytes × Mandata) :=
  r.realEntries descs ++ (r.references descs).map (referenceCall pointerInfo)

variable {loc : Locale} {comp : Bytes} {db : Store} {data new old pointerInfo : Mandata} {base : Bytes} {g : Group}
  {map : NameExt → Option Mandata} {ref : NameExt} {call : Bytes × Mandata} {calls : List (Bytes × Mandata)}
  {r : StoreRequest} {descs : List PageDescription}

/-- Nothing is refused for a page that is compressed like the old one. -/
theorem replaceAction_alike (alike : old.comp = some (dashIfUnset new.comp)) : replaceAction new old ≠ .fail := by
  unfold replaceAction
  repeat' split
  all_goals first
    | decide
    | rename_i differs; exact absurd alike.symm differs

theorem Orderly.singular {info : Mandata} (orderly : Orderly loc comp db) (page : PageName base)
    (ok : (Group.singular info).Ok loc (nameToKey loc base))
    (holds : Holds loc db (nameToKey loc base) (.singular info)) :
    info.comp = some comp := by
  obtain ⟨clean, belongs⟩ := Mandata.ref_clean (pageName_nameToKey.mpr page) ok
  have present : entry loc db (info.ref (nameToKey loc base)) = some info.unnamed := by
    rw [← belongs] at ok holds
    rw [entry_eq_find _ clean.1 ok holds, belongs]
    exact if_pos rfl
  have found : info.unnamed.comp = some comp := orderly.alike _ _ present
  exact found

theorem Orderly.indexed {refs : List NameExt} {record : NameExt → Mandata} (orderly : Orderly loc comp db)
    (ok : (Group.indexed refs record).Ok loc (nameToKey loc ref.name))
    (holds : Holds loc db (nameToKey loc ref.name) (.indexed refs record)) (member : ref ∈ refs) :
    (record ref).comp = some comp := by
  have present : entry loc db ref = some (record ref) := by
    rw [entry_eq_find ref (ok.2.2 ref member).1.1 ok holds]
    exact if_pos member
  exact orderly.alike _ _ present

/-- A page that is compressed like all the others is never refused. -/
theorem Orderly.accepts (orderly : Orderly loc comp db) (page : PageName base) (clean : data.Clean)
    (alike : data.comp.getD [dash] = comp) : ∃ db', dbstore loc db data base = .ok (0, db') := by
  have taken {old : Mandata} (same : old.comp = some comp) : replaceAction (stored data) old ≠ .fail :=
    replaceAction_alike (same.trans (congrArg some alike.symm))
  have pageKey : PageName (nameToKey loc base) := pageName_nameToKey.mpr page
  obtain ⟨g, ok, holds⟩ := orderly.wf.group pageKey
  match g, ok, holds with
  | .absent, _, holds => exact ⟨_, dbstore_absent page.1 holds.simple⟩
  | .singular info, ok, holds =>
    have accepted := taken (orderly.singular page ok holds)
    by_cases same : info.ref (nameToKey loc base) = ⟨base, data.ext⟩
    · have run := dbstore_same page.1 ok.1 ok.2.1 holds.simple same
      rw [replaceIfNecessary_present holds.simple, if_neg accepted] at run
      exact ⟨_, run⟩
    · have run := dbstore_reformat page.1 ok.1 ok.2.1 holds.simple same
      obtain ⟨oldClean, _⟩ := Mandata.ref_clean pageKey ok
      have absent : (db.replace (makeMultiKey (info.ref (nameToKey loc base)).name
          (info.ref (nameToKey loc base)).ext) (makeContent info.unnamed)).fetch
            (makeMultiKey base data.ext) = none := by
        rw [fetch_multi_replace_multi _ ⟨base, data.ext⟩ oldClean.1.2.1 page.2.1, if_neg (Ne.symm same)]
        exact holds.multi ⟨base, data.ext⟩ ⟨page, clean.ext⟩ rfl
      have kept : replaceAction (stored data) info.unnamed ≠ .fail := accepted
      rw [replaceIfNecessary_absent absent kept] at run
      exact ⟨_, run⟩
  | .indexed refs record, ok, holds =>
    have atMulti := holds.multi ⟨base, data.ext⟩ ⟨page, clean.ext⟩ rfl
    have isIdx := isIndex_makeExtensionsReference ok.1
    by_cases member : (⟨base, data.ext⟩ : NameExt) ∈ refs
    · obtain ⟨_, _, oldStored, oldUnnamed, _⟩ := ok.2.2 _ member
      simp only [Group.multiContent, if_pos member] at atMulti
      have run := dbstore_listed page.1 holds.simple isIdx oldStored (oldUnnamed ▸ nameField_none) atMulti
      have same : (record ⟨base, data.ext⟩).comp = some comp :=
        @Orderly.indexed _ _ _ ⟨base, data.ext⟩ _ _ orderly ok holds member
      rw [replaceIfNecessary_present atMulti, if_neg (taken same)] at run
      exact ⟨_, run⟩
    · simp only [Group.multiContent, if_neg member] at atMulti
      exact ⟨_, dbstore_unlisted page.1 holds.simple isIdx atMulti⟩

theorem preferred_mem (new : Mandata) (old : Option Mandata) :
    preferred new old = new ∨ old = some (preferred new old) := by
  cases old with
  | none => exact Or.inl rfl
  | some old =>
    rw [preferred]
    split
    · exact Or.inl rfl
    · exact Or.inr rfl

/-- A call of `dbstore` offers the record of the page. -/
theorem Orderly.store (orderly : Orderly loc comp db) (storable : Storable comp call) :
    ∃ db', dbstore loc db call.2 call.1 = .ok (0, db') ∧ Orderly loc comp db' ∧
      entry loc db' = offered (entry loc db) ⟨call.1, call.2.ext⟩ (stored call.2) := by
  obtain ⟨db', run⟩ := orderly.accepts storable.page storable.clean storable.alike
  obtain ⟨wf, map⟩ := dbstore_refines_offer orderly.wf storable.page storable.clean run
  refine ⟨db', run, ⟨wf, fun ref record present => ?_⟩, map⟩
  rw [map, offered, Function.update_apply] at present
  split at present
  · obtain rfl := Option.some.inj present
    rcases preferred_mem (stored call.2) (entry loc db ⟨call.1, call.2.ext⟩) with same | old
    · rw [same]
      exact congrArg some storable.alike
    · exact orderly.alike _ _ old
  · exact orderly.alike ref record present

theorem Orderly.storeTurn (orderly : Orderly loc comp db) (storable : Storable comp call)
    (before : List (Bytes × Mandata)) :
    ∃ db', (⟨before, .ok db, false⟩ : StoreRun).store loc call.1 call.2 = ⟨before ++ [call], .ok db', false⟩ ∧
      Orderly loc comp db' ∧ entry loc db' = offered (entry loc db) ⟨call.1, call.2.ext⟩ (stored call.2) := by
  obtain ⟨db', run, after⟩ := orderly.store storable
  refine ⟨db', ?_, after⟩
  simp only [StoreRun.store, run]
  rfl

theorem Orderly.storeAll (orderly : Orderly loc comp db) (storable : ∀ call ∈ calls, Storable comp call)
    (before : List (Bytes × Mandata)) :
    ∃ db', StoreRun.storeAll loc ⟨before, .ok db, false⟩ calls = ⟨before ++ calls, .ok db', false⟩ ∧
      Orderly loc comp db' ∧ entry loc db' = offerAll (entry loc db) calls := by
  induction calls generalizing db before with
  | nil => exact ⟨db, by rw [List.append_nil]; rfl, orderly, rfl⟩
  | cons call calls ih =>
    obtain ⟨first, rest⟩ := List.forall_mem_cons.mp storable
    obtain ⟨db₁, turn, orderly₁, map₁⟩ := orderly.storeTurn first before
    obtain ⟨db₂, run, orderly₂, map₂⟩ := ih orderly₁ rest (before ++ [call])
    refine ⟨db₂, ?_, orderly₂, by rw [map₂, map₁]; rfl⟩
    rw [StoreRun.storeAll, List.foldl_cons, turn]
    rwa [List.append_assoc, List.singleton_append] at run

/-- The loop over the descriptions stores the real pages, and puts off the references. -/
theorem Orderly.descriptions (orderly : Orderly loc comp db)
    (storable : ∀ call ∈ r.realEntries descs, Storable comp call) (before : List (Bytes × Mandata))
    (whatisInfos : List Mandata) :
    descs.foldl (storeDescriptionTurn loc r) (⟨before, .ok db, false⟩, whatisInfos) =
      (StoreRun.storeAll loc ⟨before, .ok db, false⟩ (r.realEntries descs), whatisInfos ++ r.references descs) := by
  induction descs generalizing db before whatisInfos with
  | nil => exact congrArg _ (List.append_nil whatisInfos).symm
  | cons desc descs ih =>
    rw [List.foldl_cons, storeDescriptionTurn, if_neg Bool.false_ne_true]
    cases described : r.describe desc with
    | external =>
      simp only [StoreRequest.realEntries, StoreRequest.references, List.filterMap_cons, described] at storable ⊢
      exact ih orderly storable before whatisInfos
    | reference entry =>
      simp only [StoreRequest.realEntries, StoreRequest.references, List.filterMap_cons, described] at storable ⊢
      have rest := ih orderly storable before (whatisInfos ++ [entry])
      rwa [List.append_assoc] at rest
    | real entry =>
      simp only [StoreRequest.realEntries, StoreRequest.references, List.filterMap_cons, described] at storable ⊢
      obtain ⟨first, rest⟩ := List.forall_mem_cons.mp storable
      obtain ⟨db₁, turn, orderly₁, _⟩ := orderly.storeTurn first before
      rw [StoreRun.storeAll, List.foldl_cons, turn]
      exact ih orderly₁ rest _ whatisInfos

/-- In an index whose pages are all compressed alike, `store_descriptions` stores every description of another such
page, and the index stands for the old map with all of their records offered. -/
theorem storeDescriptions_offers (orderly : Orderly loc comp db) (traced : r.trace ≠ [])
    (points : r.pointerInfo = some pointerInfo) (storable : ∀ call ∈ r.offers pointerInfo descs, Storable comp call) :
      ∃ db', storeDescriptions loc r descs db = some ⟨r.offers pointerInfo descs, .ok db', false⟩ ∧
        Orderly loc comp db' ∧ entry loc db' = offerAll (entry loc db) (r.offers pointerInfo descs) := by
  obtain ⟨reals, references⟩ := List.forall_mem_append.mp storable
  obtain ⟨db₁, first, orderly₁, map₁⟩ := orderly.storeAll reals []
  obtain ⟨db₂, second, orderly₂, map₂⟩ := orderly₁.storeAll references (r.realEntries descs)
  refine ⟨db₂, ?_, orderly₂, ?_⟩
  · rw [List.nil_append] at first
    rw [storeDescriptions, if_neg traced, orderly.descriptions reals, first, points]
    rw [StoreRun.storeAll, List.foldl_map] at second
    exact congrArg some second
  · rw [map₂, map₁, offerAll, offerAll, offerAll, StoreRequest.offers, List.foldl_append]

/-- What a fold of offers holds was there before or is offered. -/
theorem offerAll_mem (present : offerAll map calls ref = some data) :
    map ref = some data ∨ ∃ call ∈ calls, ref = ⟨call.1, call.2.ext⟩ ∧ data = stored call.2 := by
  induction calls generalizing map with
  | nil => exact Or.inl present
  | cons call calls ih =>
    rw [offerAll, List.foldl_cons] at present
    rcases ih present with old | ⟨later, member, same⟩
    · rw [offered, Function.update_apply] at old
      split at old
      · rename_i here
        rcases preferred_mem (stored call.2) (map ⟨call.1, call.2.ext⟩) with new | kept
        · refine Or.inr ⟨call, List.mem_cons_self, here, ?_⟩
          rw [← Option.some.inj old, new]
        · exact Or.inl (here ▸ kept.trans old)
      · exact Or.inl old
    · exact Or.inr ⟨later, List.mem_cons_of_mem _ member, same⟩

theorem offerAll_other (others : ∀ call ∈ calls, (⟨call.1, call.2.ext⟩ : NameExt) ≠ ref) :
    offerAll map calls ref = map ref := by
  induction calls generalizing map with
  | nil => rfl
  | cons call calls ih =>
    obtain ⟨other, others⟩ := List.forall_mem_cons.mp others
    rw [offerAll, List.foldl_cons]
    refine (ih others).trans ?_
    rw [offered, Function.update_of_ne (Ne.symm other)]

theorem preferred_again (new : Mandata) (old : Option Mandata) :
    preferred new (some (preferred new old)) = preferred new old := by
  rcases preferred_mem new old with same | kept
  · rw [same]
    exact ite_self new
  · rw [← kept]

/-- A record that is offered more than once for a pair is offered once. -/
theorem offerAll_same (same : ∀ call ∈ calls, (⟨call.1, call.2.ext⟩ : NameExt) = ref → stored call.2 = new)
    (present : ∃ call ∈ calls, (⟨call.1, call.2.ext⟩ : NameExt) = ref) :
    offerAll map calls ref = some (preferred new (map ref)) := by
  induction calls generalizing map with
  | nil => simp at present
  | cons call calls ih =>
    obtain ⟨first, rest⟩ := List.forall_mem_cons.mp same
    rw [offerAll, List.foldl_cons]
    by_cases later : ∃ call ∈ calls, (⟨call.1, call.2.ext⟩ : NameExt) = ref
    · refine (ih rest later).trans (congrArg some ?_)
      by_cases here : (⟨call.1, call.2.ext⟩ : NameExt) = ref
      · rw [offered, here, Function.update_self, first here, preferred_again]
      · rw [offered, Function.update_of_ne (Ne.symm here)]
    · have here : (⟨call.1, call.2.ext⟩ : NameExt) = ref := by
        obtain ⟨found, member, equal⟩ := present
        rcases List.mem_cons.mp member with rfl | inRest
        · exact equal
        · exact absurd ⟨found, inRest, equal⟩ later
      refine (offerAll_other fun other member equal => later ⟨other, member, equal⟩).trans ?_
      rw [offered, here, Function.update_self, first here]

end ManDb
