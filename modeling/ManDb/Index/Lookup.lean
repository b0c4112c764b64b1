import Mathlib.Data.List.ReduceOption
import ManDb.DbLookup
import ManDb.Index.Delete

namespace ManDb

variable {loc : Locale} {db : Store} {g : Group} {page k : Bytes} {section? : Option Bytes}
  {exact matchCase : Bool}

/-- The page in its own case if that is asked for, with a suitable extension. -/
def Suitable (page : Bytes) (section? : Option Bytes) (exact matchCase : Bool) (ref : NameExt) : Prop :=
  (matchCase = true → ref.name = page) ∧ sectionMatches section? exact ref.ext = true

instance (ref : NameExt) : Decidable (Suitable page section? exact matchCase ref) :=
  inferInstanceAs (Decidable (_ ∧ _))

/-- The stored pairs a lookup asks for. -/
def Wanted (loc : Locale) (page : Bytes) (section? : Option Bytes) (exact matchCase : Bool) (ref : NameExt) : Prop :=
  nameToKey loc ref.name = nameToKey loc page ∧ Suitable page section? exact matchCase ref

/-- An entry as a lookup returns it. -/
def Mandata.as (name : Bytes) (info : Mandata) : Mandata := { info with name := some name }

/-- The pair a returned element stands for. -/
def returnedRef (info : Mandata) : NameExt := ⟨info.name.getD [], info.ext⟩

/-- A list of answers: one element for each wanted entry, under its true name and
with its record, in the order of the pairs. -/
structure Answers (loc : Locale) (db : Store) (page : Bytes) (section? : Option Bytes) (exact matchCase : Bool)
    (infos : List Mandata) : Prop where
  mem : ∀ info, info ∈ infos ↔ ∃ ref record, entry loc db ref = some record ∧
    Wanted loc page section? exact matchCase ref ∧ info = record.as ref.name
  sorted : SortedList.Strict nameExtCompare (infos.map returnedRef)

theorem mapM_eq_ok {α β ε : Type} {f : α → Except ε β} {value : α → β} {xs : List α}
    (run : ∀ x ∈ xs, f x = .ok (value x)) : xs.mapM f = .ok (xs.map value) := by
  induction xs with
  | nil => rfl
  | cons x xs ih =>
    have rest := ih (fun y member => run y (List.mem_cons_of_mem _ member))
    simp only [List.mapM_cons, run x (List.mem_cons_self ..), rest]
    rfl

/-- The answers are determined by the map the index stands for. -/
theorem Answers.unique {db' : Store} {infos infos' : List Mandata}
    (first : Answers loc db page section? exact matchCase infos)
    (second : Answers loc db' page section? exact matchCase infos') (same : entry loc db = entry loc db') :
    infos = infos' := by
  have members : ∀ info, info ∈ infos ↔ info ∈ infos' := by
    intro info
    rw [first.mem, second.mem, same]
  have perm : infos.Perm infos' :=
    (List.perm_ext_iff_of_nodup first.sorted.nodup.of_map second.sorted.nodup.of_map).mpr members
  have refs : ∀ {list : List Mandata}, SortedList.Strict nameExtCompare (list.map returnedRef) →
      list.Pairwise (fun a b => nameExtCompare (returnedRef a) (returnedRef b) = .lt) :=
    fun strict => List.pairwise_map.mp strict
  refine perm.eq_of_pairwise ?_ (refs first.sorted) (refs second.sorted)
  intro a b _ _ lt gt
  rw [@Std.OrientedCmp.eq_swap _ nameExtCompare, gt] at lt
  cases lt

/-- What a wanted entry is in terms of the group of the page's key. -/
theorem wanted_iff_find (pageName : PageName page) (ok : g.Ok loc (nameToKey loc page))
    (holds : Holds loc db (nameToKey loc page) g) {ref : NameExt} {record : Mandata} :
    entry loc db ref = some record ∧ Wanted loc page section? exact matchCase ref ↔
      g.find (nameToKey loc page) ref = some record ∧ Wanted loc page section? exact matchCase ref := by
  refine and_congr_left fun wanted => ?_
  have pageKey : PageName (nameToKey loc ref.name) := by
    rw [wanted.1]
    exact pageName_nameToKey.mpr pageName
  have pageRef : PageName ref.name := pageName_nameToKey.mp pageKey
  obtain ⟨belongs, _⟩ := wanted
  rw [← belongs] at ok holds ⊢
  rw [entry_eq_find ref pageRef ok holds]

theorem dblookup_absent (atKey : db.fetch (nameToKey loc page) = none) :
    dblookup loc db page section? exact matchCase = .ok [] := by
  simp [dblookup, atKey]

theorem answers_nil (none : ∀ ref record, entry loc db ref = some record →
    ¬Wanted loc page section? exact matchCase ref) : Answers loc db page section? exact matchCase [] where
  mem info := by
    simp only [List.not_mem_nil, false_iff]
    rintro ⟨ref, record, present, wanted, _⟩
    exact none ref record present wanted
  sorted := .nil

theorem lookupRef_suitable {ref : NameExt} {record : Mandata} (isStored : record.Stored)
    (unnamed : record.name = none)
    (multi : db.fetch (makeMultiKey ref.name ref.ext) = some (makeContent record)) :
    lookupRef db page section? exact matchCase ref =
      .ok (if Suitable page section? exact matchCase ref then some (record.as ref.name) else none) := by
  unfold lookupRef
  by_cases bySection : sectionMatches section? exact ref.ext = true
  · by_cases byCase : matchCase = true → ref.name = page
    · have skip : (matchCase && ref.name != page) = false := by cases matchCase <;> simp_all
      simp only [skip, bySection, multi, isStored.split (unnamed ▸ nameField_none)]
      rw [if_pos (show Suitable page section? exact matchCase ref from ⟨byCase, bySection⟩)]
      simp [unnamed, Mandata.as, bind, Except.bind, pure, Except.pure]
    · have skip : (matchCase && ref.name != page) = true := by cases matchCase <;> simp_all
      rw [if_neg (fun suitable : Suitable page section? exact matchCase ref => byCase suitable.1)]
      simp [skip]
  · rw [if_neg (fun suitable : Suitable page section? exact matchCase ref => bySection suitable.2)]
    simp [bySection]

/-- An index is answered reference by reference. -/
theorem dblookup_indexed {refs : List NameExt} {record : NameExt → Mandata} (pageName : PageName page)
    (ok : (Group.indexed refs record).Ok loc (nameToKey loc page))
    (holds : Holds loc db (nameToKey loc page) (.indexed refs record)) :
    ∃ infos, dblookup loc db page section? exact matchCase = .ok infos ∧
      Answers loc db page section? exact matchCase infos := by
  have simple : db.fetch (nameToKey loc page) = some (makeExtensionsReference refs) := holds.simple
  have turn : ∀ ref ∈ refs, lookupRef db page section? exact matchCase ref =
      .ok (if Suitable page section? exact matchCase ref then some ((record ref).as ref.name) else none) := by
    intro ref member
    obtain ⟨clean, belongs, isStored, unnamed, _⟩ := ok.2.2 ref member
    have multi := holds.multi ref clean belongs
    simp only [Group.multiContent, if_pos member] at multi
    exact lookupRef_suitable isStored unnamed multi
  refine ⟨(refs.map (fun ref => if Suitable page section? exact matchCase ref then
    some ((record ref).as ref.name) else none)).reduceOption, ?_, ?_, ?_⟩
  · unfold dblookup
    simp only [simple, isIndex_makeExtensionsReference ok.1, ok.members, mapM_eq_ok turn]
    rfl
  · intro info
    rw [List.reduceOption_mem_iff, List.mem_map]
    constructor
    · rintro ⟨ref, member, shape⟩
      split at shape
      next suitable =>
        have found : (Group.indexed refs record).find (nameToKey loc page) ref = some (record ref) := if_pos member
        have wanted : Wanted loc page section? exact matchCase ref := ⟨(ok.2.2 ref member).2.1, suitable⟩
        have present := (wanted_iff_find pageName ok holds).mpr ⟨found, wanted⟩
        exact ⟨ref, record ref, present.1, wanted, (Option.some.inj shape).symm⟩
      next => cases shape
    · rintro ⟨ref, found, present, wanted, rfl⟩
      have atGroup := ((wanted_iff_find pageName ok holds).mp ⟨present, wanted⟩).1
      by_cases member : ref ∈ refs
      · simp only [Group.find, if_pos member, Option.some.injEq] at atGroup
        exact ⟨ref, member, by rw [if_pos wanted.2, atGroup]⟩
      · simp [Group.find, member] at atGroup
  · have refsOf : ((refs.map (fun ref => if Suitable page section? exact matchCase ref then
        some ((record ref).as ref.name) else none)).reduceOption).map returnedRef =
        refs.filter (fun ref => Suitable page section? exact matchCase ref) := by
      rw [List.reduceOption, List.filterMap_map, List.map_filterMap, ← List.filterMap_eq_filter]
      refine List.filterMap_congr fun ref member => ?_
      by_cases suitable : Suitable page section? exact matchCase ref
      · simp [suitable, returnedRef, Mandata.as, (ok.2.2 ref member).2.2.2.2, Option.guard]
      · simp [suitable, Option.guard]
    rw [refsOf]
    exact ok.2.1.filter _

/-- A single record is answered under its name field, or else under the name that
was asked for. -/
theorem dblookup_record {info : Mandata} (isStored : info.Stored) (field : NameField info.name)
    (atKey : db.fetch (nameToKey loc page) = some (makeContent info)) :
    dblookup loc db page section? exact matchCase =
      .ok (if Suitable page section? exact matchCase ⟨info.name.getD page, info.ext⟩ then
        [info.as (info.name.getD page)] else []) := by
  unfold dblookup
  simp only [atKey, isIndex_makeContent field, isStored.split field, bind, Except.bind]
  by_cases suitable : Suitable page section? exact matchCase ⟨info.name.getD page, info.ext⟩
  · have test : ((!matchCase || info.name.getD page == page) && sectionMatches section? exact info.ext) = true := by
      obtain ⟨byCase, bySection⟩ := suitable
      cases matchCase <;> simp_all
    simp [suitable, test, Mandata.as, pure, Except.pure]
  · have test : ((!matchCase || info.name.getD page == page) && sectionMatches section? exact info.ext) = false := by
      by_contra passes
      rw [Bool.not_eq_false, Bool.and_eq_true] at passes
      exact suitable ⟨by cases matchCase <;> simp_all, passes.2⟩
    simp [suitable, test, pure, Except.pure]

/-- The content found under the page's key is an index, or a record that is not
wanted, or one whose name the lookup can tell: it has a name field, or the page
asked for is spelt as the key. -/
def NameKnown (loc : Locale) (db : Store) (page : Bytes) (section? : Option Bytes) (exact : Bool) : Prop :=
  ∀ cont, db.fetch (nameToKey loc page) = some cont → isIndex cont = false →
    ∃ found, splitContent cont = .ok found ∧ (sectionMatches section? exact found.ext = true →
      PageName page ∧ (found.name = none → page = nameToKey loc page))

theorem answers_singular {info : Mandata} (pageName : PageName page)
    (ok : (Group.singular info).Ok loc (nameToKey loc page))
    (holds : Holds loc db (nameToKey loc page) (.singular info))
    (known : sectionMatches section? exact info.ext = true → info.name = none → page = nameToKey loc page) :
    Answers loc db page section? exact matchCase
      (if Suitable page section? exact matchCase ⟨info.name.getD page, info.ext⟩ then
        [info.as (info.name.getD page)] else []) := by
  have only : ∀ ref record, entry loc db ref = some record → Wanted loc page section? exact matchCase ref →
      ref = info.ref (nameToKey loc page) ∧ record = info.unnamed := by
    intro ref record present wanted
    have atGroup := ((wanted_iff_find pageName ok holds).mp ⟨present, wanted⟩).1
    by_cases same : ref = info.ref (nameToKey loc page)
    · simp only [Group.find, if_pos same, Option.some.injEq] at atGroup
      exact ⟨same, atGroup.symm⟩
    · simp [Group.find, same] at atGroup
  by_cases bySection : sectionMatches section? exact info.ext = true
  · have spelt : info.name.getD page = info.name.getD (nameToKey loc page) := by
      cases atName : info.name with
      | none => exact known bySection atName
      | some n => rfl
    have sameRef : (⟨info.name.getD page, info.ext⟩ : NameExt) = info.ref (nameToKey loc page) := by
      rw [Mandata.ref, spelt]
    rw [sameRef, spelt]
    have belongs : nameToKey loc (info.ref (nameToKey loc page)).name = nameToKey loc page := ok.2.2
    by_cases suitable : Suitable page section? exact matchCase (info.ref (nameToKey loc page))
    · rw [if_pos suitable]
      refine ⟨fun found => ?_, by simp [SortedList.Strict]⟩
      rw [List.mem_singleton]
      constructor
      · rintro rfl
        have present := (wanted_iff_find pageName ok holds).mpr
          ⟨(if_pos rfl : (Group.singular info).find (nameToKey loc page) _ = some info.unnamed),
            (⟨belongs, suitable⟩ : Wanted loc page section? exact matchCase (info.ref (nameToKey loc page)))⟩
        exact ⟨_, _, present.1, present.2, rfl⟩
      · rintro ⟨ref, record, present, wanted, rfl⟩
        obtain ⟨rfl, rfl⟩ := only ref record present wanted
        rfl
    · rw [if_neg suitable]
      refine answers_nil fun ref record present wanted => suitable ?_
      exact (only ref record present wanted).1 ▸ wanted.2
  · rw [if_neg (fun suitable => bySection suitable.2)]
    refine answers_nil fun ref record present wanted => bySection ?_
    have suitable := wanted.2
    rw [(only ref record present wanted).1] at suitable
    exact suitable.2

theorem not_wanted_of_not_pageName (notPage : ¬PageName page) {ref : NameExt} {record : Mandata}
    (present : entry loc db ref = some record) : ¬Wanted loc page section? exact matchCase ref := by
  intro wanted
  have pageRef : PageName ref.name := by
    by_contra outside
    simp [entry, outside] at present
  have pageKey : PageName (nameToKey loc page) := by
    rw [← wanted.1]
    exact pageName_nameToKey.mpr pageRef
  exact notPage (pageName_nameToKey.mp pageKey)

/-- A record under the page's key is all that the lookup has to go by. -/
theorem answered_record {info : Mandata} (isStored : info.Stored) (field : NameField info.name)
    (atKey : db.fetch (nameToKey loc page) = some (makeContent info)) :
    (∃ infos, dblookup loc db page section? exact matchCase = .ok infos ∧
      Answers loc db page section? exact matchCase infos) ↔
      Answers loc db page section? exact matchCase
        (if Suitable page section? exact matchCase ⟨info.name.getD page, info.ext⟩ then
          [info.as (info.name.getD page)] else []) := by
  rw [dblookup_record isStored field atKey]
  constructor
  · rintro ⟨infos, run, answers⟩
    cases run
    exact answers
  · exact fun answers => ⟨_, rfl, answers⟩

theorem nameKnown_record {info : Mandata} (isStored : info.Stored) (field : NameField info.name)
    (atKey : db.fetch (nameToKey loc page) = some (makeContent info)) :
    NameKnown loc db page section? exact ↔ (sectionMatches section? exact info.ext = true →
      PageName page ∧ (info.name = none → page = nameToKey loc page)) := by
  constructor
  · intro known
    obtain ⟨found, split, whenWanted⟩ := known _ atKey (isIndex_makeContent field)
    rw [isStored.split field, Except.ok.injEq] at split
    exact split ▸ whenWanted
  · intro whenWanted cont other _
    cases Option.some.inj (atKey.symm.trans other)
    exact ⟨info, isStored.split field, whenWanted⟩

/-- An unnamed record that is returned is returned under the page's own spelling. -/
theorem answers_singular_iff {info : Mandata} (pageName : PageName page)
    (ok : (Group.singular info).Ok loc (nameToKey loc page))
    (holds : Holds loc db (nameToKey loc page) (.singular info)) :
    Answers loc db page section? exact matchCase
        (if Suitable page section? exact matchCase ⟨info.name.getD page, info.ext⟩ then
          [info.as (info.name.getD page)] else []) ↔
      (sectionMatches section? exact info.ext = true → info.name = none → page = nameToKey loc page) := by
  refine ⟨fun answers bySection unnamed => ?_, answers_singular pageName ok holds⟩
  have suitable : Suitable page section? exact matchCase ⟨info.name.getD page, info.ext⟩ :=
    ⟨fun _ => by simp [unnamed], bySection⟩
  rw [if_pos suitable] at answers
  obtain ⟨ref, record, present, wanted, same⟩ := (answers.mem _).mp (List.mem_singleton_self _)
  have atGroup := ((wanted_iff_find pageName ok holds).mp ⟨present, wanted⟩).1
  have sameName : info.name.getD page = ref.name := Option.some.inj (congrArg Mandata.name same)
  by_cases atRef : ref = info.ref (nameToKey loc page)
  · rw [atRef] at sameName
    simpa [Mandata.ref, unnamed] using sameName
  · simp [Group.find, atRef] at atGroup

/-- Nothing may be returned for a text that is no page name. -/
theorem answers_pageless_iff {info : Mandata} (pageless : ¬PageName page) (unnamed : info.name = none) :
    Answers loc db page section? exact matchCase
        (if Suitable page section? exact matchCase ⟨info.name.getD page, info.ext⟩ then
          [info.as (info.name.getD page)] else []) ↔
      ¬sectionMatches section? exact info.ext = true := by
  constructor
  · intro answers bySection
    have suitable : Suitable page section? exact matchCase ⟨info.name.getD page, info.ext⟩ :=
      ⟨fun _ => by simp [unnamed], bySection⟩
    rw [if_pos suitable] at answers
    obtain ⟨ref, record, present, wanted, _⟩ := (answers.mem _).mp (List.mem_singleton_self _)
    exact not_wanted_of_not_pageName pageless present wanted
  · intro notBySection
    rw [if_neg fun suitable => notBySection suitable.2]
    exact answers_nil fun ref record present => not_wanted_of_not_pageName pageless present

/-- On a well-formed index `dblookup` gives the answers precisely when it knows
the name of a single record that it returns. -/
theorem dblookup_answers_iff (wf : WellFormed loc db) :
    (∃ infos, dblookup loc db page section? exact matchCase = .ok infos ∧
      Answers loc db page section? exact matchCase infos) ↔ NameKnown loc db page section? exact := by
  by_cases pageName : PageName page
  · have pageKey : PageName (nameToKey loc page) := pageName_nameToKey.mpr pageName
    obtain ⟨g, ok, holds⟩ := wf.group pageKey
    have simple := holds.simple
    match g, ok, holds, simple with
    | .absent, ok, holds, simple =>
      refine iff_of_true ⟨[], dblookup_absent simple, answers_nil fun ref record present wanted => ?_⟩ ?_
      · have atGroup := ((wanted_iff_find pageName ok holds).mp ⟨present, wanted⟩).1
        cases atGroup
      · intro cont atKey
        rw [simple] at atKey
        cases atKey
    | .singular info, ok, holds, simple =>
      rw [answered_record ok.1 ok.2.1 simple, nameKnown_record ok.1 ok.2.1 simple,
        answers_singular_iff pageName ok holds]
      simp [pageName]
    | .indexed refs record, ok, holds, simple =>
      refine iff_of_true (dblookup_indexed pageName ok holds) fun cont atKey notIndex => ?_
      cases Option.some.inj (simple.symm.trans atKey)
      rw [isIndex_makeExtensionsReference ok.1] at notIndex
      cases notIndex
  · cases atKey : db.fetch (nameToKey loc page) with
    | none =>
      refine iff_of_true ⟨[], dblookup_absent atKey, answers_nil fun ref record present =>
        not_wanted_of_not_pageName pageName present⟩ fun cont other => ?_
      rw [atKey] at other
      cases other
    | some cont =>
      rcases wf.not_pageName pageName atKey with ⟨_, plain⟩ | ⟨found, isStored, unnamed, rfl⟩
      · refine iff_of_false ?_ fun known => ?_
        · rintro ⟨infos, run, _⟩
          simp [dblookup, atKey, isIndex_plain plain, splitContent_plain plain, bind, Except.bind] at run
        · obtain ⟨found, split, _⟩ := known cont atKey (isIndex_plain plain)
          rw [splitContent_plain plain] at split
          cases split
      · have field : NameField found.name := unnamed ▸ nameField_none
        rw [answered_record isStored field atKey, nameKnown_record isStored field atKey,
          answers_pageless_iff pageName unnamed]
        simp [pageName]

/-- The two lookups of one page: the answers for the extensions that start with
the section, and the first of those for the extension that equals it. -/
structure LookupCorrect (loc : Locale) (db : Store) (page : Bytes) (section? : Option Bytes) (matchCase : Bool) :
    Prop where
  all : ∃ infos, dblookupAll loc db page section? matchCase = .ok infos ∧
    Answers loc db page section? false matchCase infos
  exactly : ∃ found, dblookupExact loc db page section? matchCase = .ok found ∧
    (found.isSome ↔ ∃ ref record, entry loc db ref = some record ∧ Wanted loc page section? true matchCase ref) ∧
    ∀ info ∈ found, ∃ ref record, entry loc db ref = some record ∧
      Wanted loc page section? true matchCase ref ∧ info = record.as ref.name

theorem sectionMatches_of_exact {ext : Bytes} (exactly : sectionMatches section? true ext = true) :
    sectionMatches section? false ext = true := by
  cases section? with
  | none => rfl
  | some s =>
    simp only [sectionMatches, if_true, beq_iff_eq] at exactly
    simp [sectionMatches, exactly]

theorem NameKnown.exactly (known : NameKnown loc db page section? false) : NameKnown loc db page section? true := by
  intro cont atKey notIndex
  obtain ⟨found, split, whenWanted⟩ := known cont atKey notIndex
  exact ⟨found, split, fun exactly => whenWanted (sectionMatches_of_exact exactly)⟩

theorem dblookupExact_of_answers {infos : List Mandata}
    (run : dblookup loc db page section? true matchCase = .ok infos)
    (answers : Answers loc db page section? true matchCase infos) :
    ∃ found, dblookupExact loc db page section? matchCase = .ok found ∧
      (found.isSome ↔ ∃ ref record, entry loc db ref = some record ∧ Wanted loc page section? true matchCase ref) ∧
      ∀ info ∈ found, ∃ ref record, entry loc db ref = some record ∧
        Wanted loc page section? true matchCase ref ∧ info = record.as ref.name := by
  refine ⟨infos.head?, by simp [dblookupExact, run, Functor.map, Except.map], ?_, fun info member => ?_⟩
  · constructor
    · intro some
      obtain ⟨info, atHead⟩ := Option.isSome_iff_exists.mp some
      obtain ⟨ref, record, present, wanted, _⟩ := (answers.mem info).mp (List.mem_of_head? atHead)
      exact ⟨ref, record, present, wanted⟩
    · rintro ⟨ref, record, present, wanted⟩
      have member := (answers.mem (record.as ref.name)).mpr ⟨ref, record, present, wanted, rfl⟩
      cases infos with
      | nil => cases member
      | cons => rfl
  · exact (answers.mem info).mp (List.mem_of_head? member)

/-- Lookups are sound and complete on a well-formed index precisely when the name
of a single record they return is known, and two indices that stand for the
same map then answer alike, whatever their layouts. -/
theorem lookup_correct_iff (wf : WellFormed loc db) (page : Bytes) (section? : Option Bytes) (matchCase : Bool) :
    (LookupCorrect loc db page section? matchCase ↔ NameKnown loc db page section? false) ∧
    ∀ db', WellFormed loc db' → entry loc db' = entry loc db →
      NameKnown loc db page section? false → NameKnown loc db' page section? false →
      dblookupAll loc db' page section? matchCase = dblookupAll loc db page section? matchCase ∧
      dblookupExact loc db' page section? matchCase = dblookupExact loc db page section? matchCase := by
  refine ⟨⟨fun correct => (dblookup_answers_iff wf).mp correct.all, fun known => ⟨?_, ?_⟩⟩, ?_⟩
  · exact (dblookup_answers_iff wf).mpr known
  · obtain ⟨infos, run, answers⟩ := (dblookup_answers_iff wf).mpr known.exactly
    exact dblookupExact_of_answers run answers
  · intro db' wf' same known known'
    have alike : ∀ exact, NameKnown loc db page section? exact → NameKnown loc db' page section? exact →
        dblookup loc db' page section? exact matchCase = dblookup loc db page section? exact matchCase := by
      intro exact first second
      obtain ⟨infos, run, answers⟩ := (dblookup_answers_iff wf).mpr first
      obtain ⟨infos', run', answers'⟩ := (dblookup_answers_iff wf').mpr second
      rw [run, run', answers'.unique answers same]
    refine ⟨alike false known known', ?_⟩
    simp only [dblookupExact, alike true known.exactly known'.exactly]

theorem lookup_correct_iff_own_case :
    WellFormed .posix sampleStore ∧ LookupCorrect .posix sampleStore (ascii "foo") none true := by
  refine ⟨sampleStore_wellFormed, (lookup_correct_iff sampleStore_wellFormed _ _ _).1.mpr ?_⟩
  intro cont atKey _
  have same : makeContent (stored (samplePage "1" ultMan 5 "-")) = cont := Option.some.inj atKey
  subst same
  exact ⟨stored (samplePage "1" ultMan 5 "-"), by decide +kernel, fun _ => by decide⟩

/-- Asking for FOO in its own case finds foo, and returns it under the name FOO. -/
theorem lookup_returns_other_case :
    WellFormed .posix sampleStore ∧
    dblookupAll .posix sampleStore (ascii "FOO") none true =
      .ok [(stored (samplePage "1" ultMan 5 "-")).as (ascii "FOO")] ∧
    ¬LookupCorrect .posix sampleStore (ascii "FOO") none true := by
  refine ⟨sampleStore_wellFormed, by decide +kernel, fun correct => ?_⟩
  have known := (dblookup_answers_iff sampleStore_wellFormed).mp correct.all
  have atKey : sampleStore.fetch (nameToKey .posix (ascii "FOO")) =
      some (makeContent (stored (samplePage "1" ultMan 5 "-"))) := by decide +kernel
  obtain ⟨found, split, whenWanted⟩ := known _ atKey (by decide +kernel)
  have same : splitContent (makeContent (stored (samplePage "1" ultMan 5 "-"))) =
      .ok (stored (samplePage "1" ultMan 5 "-")) := by decide +kernel
  rw [same, Except.ok.injEq] at split
  subst split
  exact absurd ((whenWanted rfl).2 rfl) (by decide)

end ManDb
