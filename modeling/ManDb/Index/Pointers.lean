import ManDb.Index.Purging

namespace ManDb

/-- The entries `purge_pointers` is after. -/
def PointsTo (name : Bytes) (info : Mandata) : Prop :=
  (info.id = soMan ∨ info.id = whatisMan) ∧ info.pointer = some name

/-- All entries that point to the name go, and nothing else changes. -/
def PurgesPointers (loc : Locale) (db : Store) (name : Bytes) : Prop :=
  ∃ db', purgePointers loc false db name = .ok db' ∧
    (∀ ref info, entry loc db' ref = some info → ¬PointsTo name info) ∧
    ∀ ref, (∀ info, entry loc db ref = some info → ¬PointsTo name info) → entry loc db' ref = entry loc db ref

/-- A simple key that sorts after the multi keys of all of its pages, of which every
one points to the name: it is gone before the walk comes to it. -/
def Emptied (loc : Locale) (db : Store) (name key : Bytes) : Prop :=
  ∃ cont, db.fetch key = some cont ∧ isIndex cont = true ∧
    ∀ ref ∈ listExtensions cont.tail, compare (makeMultiKey ref.name ref.ext) key = .lt ∧
      ∃ info, entry loc db ref = some info ∧ PointsTo name info

variable {loc : Locale} {db now : Store} {visited rest : List Bytes} {key name : Bytes} {ref : NameExt}
  {info : Mandata}

/-- The keys are listed in their order. -/
theorem visited_lt {left : List Bytes} (split : db.keys = visited ++ left) {other : Bytes} (old : other ∈ visited)
    (later : key ∈ left) : compare other key = .lt := by
  have strict := Std.ExtTreeMap.ordered_keys (t := db)
  rw [split, List.pairwise_append] at strict
  exact strict.2.2 other old key later

theorem mem_visited_iff (split : db.keys = visited ++ key :: rest) {other : Bytes} :
    other ∈ visited ↔ other ∈ db.keys ∧ compare other key = .lt := by
  have strict := Std.ExtTreeMap.ordered_keys (t := db)
  rw [split, List.pairwise_append, List.pairwise_cons] at strict
  obtain ⟨_, ⟨after, _⟩, before⟩ := strict
  constructor
  · intro member
    exact ⟨split ▸ List.mem_append_left _ member, before other member key (List.mem_cons_self ..)⟩
  · rintro ⟨member, less⟩
    rw [split] at member
    rcases List.mem_append.mp member with old | later
    · exact old
    · rcases List.mem_cons.mp later with rfl | later
      · simp [Std.ReflOrd.compare_self] at less
      · have more := after other later
        rw [Std.OrientedOrd.eq_swap, more] at less
        cases less

theorem key_not_visited (split : db.keys = visited ++ key :: rest) : key ∉ visited := by
  intro member
  simpa [Std.ReflOrd.compare_self] using ((mem_visited_iff split).mp member).2

theorem WellFormed.home_mem_keys (wf : WellFormed loc db) (present : entry loc db ref = some info) :
    home loc db ref ∈ db.keys := by
  obtain ⟨_, record, _⟩ := wf.record_home present
  obtain ⟨cont, atHome, _⟩ := record.content
  exact Store.mem_keys_iff.mpr ⟨cont, atHome⟩

/-- An index is listed under a page name, and its pairs are those of its group. -/
theorem WellFormed.index_group {cont : Bytes} (wf : WellFormed loc db) (atKey : db.fetch key = some cont)
    (indexed : isIndex cont = true) :
    ∃ refs record, PageName key ∧ (Group.indexed refs record).Ok loc key ∧ Holds loc db key (.indexed refs record) ∧
      listExtensions cont.tail = refs := by
  have page : PageName key := by
    refine ⟨?_, ?_, ?_⟩
    · rintro rfl
      rw [wf.nonempty] at atKey
      cases atKey
    · intro tabbed
      by_cases special : key.head? = some dollar
      · rw [isIndex_plain (wf.ident key cont special atKey)] at indexed
        cases indexed
      · obtain ⟨found, _, unnamed, rfl⟩ := wf.tabbed_record tabbed special atKey
        rw [isIndex_makeContent (unnamed ▸ nameField_none)] at indexed
        cases indexed
    · intro special
      rw [isIndex_plain (wf.ident key cont special atKey)] at indexed
      cases indexed
  obtain ⟨g, ok, holds⟩ := wf.group page
  have simple := holds.simple
  rw [atKey] at simple
  match g, ok, holds, simple with
  | .singular old, ok, _, simple =>
    rw [Option.some.inj simple, isIndex_makeContent ok.2.1] at indexed
    cases indexed
  | .indexed refs record, ok, holds, simple =>
    refine ⟨refs, record, page, ok, holds, ?_⟩
    rw [Option.some.inj simple, ok.members]

theorem Emptied.pageName (emptied : Emptied loc db name key) (wf : WellFormed loc db) : PageName key := by
  obtain ⟨_, atKey, indexed, _⟩ := emptied
  obtain ⟨_, _, page, _⟩ := wf.index_group atKey indexed
  exact page

theorem Emptied.mem_keys (emptied : Emptied loc db name key) : key ∈ db.keys := by
  obtain ⟨cont, atKey, _⟩ := emptied
  exact Store.mem_keys_iff.mpr ⟨cont, atKey⟩

/-- Each pair of an index has an entry, at its multi key. -/
theorem Holds.entry_indexed {refs : List NameExt} {record : NameExt → Mandata}
    (ok : (Group.indexed refs record).Ok loc key) (holds : Holds loc db key (.indexed refs record))
    (member : ref ∈ refs) :
    entry loc db ref = some (record ref) ∧ home loc db ref = makeMultiKey ref.name ref.ext := by
  obtain ⟨clean, belongs, _⟩ := ok.2.2 ref member
  refine ⟨?_, holds.home_indexed ok belongs⟩
  rw [entry_eq_find ref clean.1 (belongs.symm ▸ ok) (belongs.symm ▸ holds), Group.find, if_pos member]

/-- Some entry sits under every simple key. -/
theorem WellFormed.simple_entry {cont : Bytes} (wf : WellFormed loc db) (page : PageName key)
    (atKey : db.fetch key = some cont) : ∃ ref info, entry loc db ref = some info ∧ nameToKey loc ref.name = key := by
  obtain ⟨g, ok, holds⟩ := wf.group page
  have simple := holds.simple
  rw [atKey] at simple
  match g, ok, holds, simple with
  | .singular old, ok, holds, _ =>
    have belongs : nameToKey loc (old.ref key).name = key := ok.2.2
    refine ⟨old.ref key, old.unnamed, ?_, belongs⟩
    rw [entry_eq_find _ (Mandata.ref_pageName page ok) (belongs.symm ▸ ok) (belongs.symm ▸ holds), belongs]
    exact if_pos rfl
  | .indexed refs record, ok, holds, _ =>
    obtain ⟨ref, member⟩ := List.exists_mem_of_ne_nil refs ok.1
    exact ⟨ref, _, (holds.entry_indexed ok member).1, (ok.2.2 ref member).2.1⟩

theorem entry_simple (present : entry loc db ref = some info) :
    ∃ cont, db.fetch (nameToKey loc ref.name) = some cont := by
  cases atKey : db.fetch (nameToKey loc ref.name) with
  | some cont => exact ⟨cont, rfl⟩
  | none => simp [entry, atKey] at present

/-- Among the keys still ahead, those of emptied indexes and no others are gone. -/
theorem Purged.gone_iff_emptied (purged : Purged loc db (fun _ => PointsTo name) visited now) (wf : WellFormed loc db)
    (split : db.keys = visited ++ key :: rest) (plain : key.head? ≠ some dollar) :
    now.fetch key = none ↔ Emptied loc db name key := by
  have new := key_not_visited split
  obtain ⟨cont, atKey⟩ := Store.mem_keys_iff.mp (show key ∈ db.keys by simp [split])
  constructor
  · intro absent
    cases indexed : isIndex cont with
    | false =>
      obtain ⟨found, read⟩ := wf.readable atKey plain indexed
      have record : RecordAt db key ⟨found.name.getD (Separated.cut tab key).1, found.ext⟩ found :=
        ⟨plain, ⟨cont, atKey, indexed, read⟩, rfl, rfl⟩
      obtain ⟨present, atHome⟩ := wf.home_record record
      obtain ⟨_, still, _⟩ := purged.ahead new present atHome
      obtain ⟨_, content, _⟩ := still.content
      rw [absent] at content
      cases content
    | true =>
      obtain ⟨refs, record, page, ok, holds, members⟩ := wf.index_group atKey indexed
      refine ⟨cont, atKey, indexed, fun ref member => ?_⟩
      rw [members] at member
      obtain ⟨present, atHome⟩ := holds.entry_indexed ok member
      have deleted : home loc db ref ∈ visited ∧ PointsTo name (record ref) := by
        by_contra spared
        obtain ⟨_, content⟩ := entry_simple (purged.kept ref _ present spared).1
        rw [(ok.2.2 ref member).2.1, absent] at content
        cases content
      refine ⟨?_, _, present, deleted.2⟩
      rw [← atHome]
      exact ((mem_visited_iff split).mp deleted.1).2
  · rintro ⟨_, atIndex, indexed, all⟩
    obtain ⟨refs, record, page, ok, holds, members⟩ := wf.index_group atIndex indexed
    rw [members] at all
    by_contra present
    obtain ⟨left, still⟩ := Option.ne_none_iff_exists'.mp present
    obtain ⟨ref, info, isThere, belongs⟩ := purged.wf.simple_entry page still
    obtain ⟨before, _, spared⟩ := purged.entry_sub isThere
    have member : ref ∈ refs := by
      have isPage : PageName ref.name := entry_pageName (ne_of_eq_of_ne before (Option.some_ne_none _))
      rw [entry_eq_find ref isPage (belongs.symm ▸ ok) (belongs.symm ▸ holds)] at before
      by_contra outside
      simp [Group.find, outside] at before
    obtain ⟨less, found, present', pointsTo⟩ := all ref member
    cases before.symm.trans present'
    refine spared ⟨(mem_visited_iff split).mpr ⟨wf.home_mem_keys before, ?_⟩, pointsTo⟩
    rw [(holds.entry_indexed ok member).2]
    exact less

/-- A turn stops the loop where the key is gone, and otherwise takes the purge past
the key. -/
theorem Purged.pointersTurn (purged : Purged loc db (fun _ => PointsTo name) visited now) (settled : loc.Settled)
    (new : key ∉ visited) (rest : List Bytes) :
    (key.head? ≠ some dollar ∧ now.fetch key = none ∧
      purgePointersLoop loc false name (key :: rest) now = .ok now) ∨
    ((key.head? = some dollar ∨ now.fetch key ≠ none) ∧
      ∃ now', purgePointersLoop loc false name (key :: rest) now = purgePointersLoop loc false name rest now' ∧
        Purged loc db (fun _ => PointsTo name) (visited ++ [key]) now') := by
  by_cases special : key.head? = some dollar
  · refine Or.inr ⟨Or.inl special, now, by simp [purgePointersLoop, special], purged.pass new ?_⟩
    exact fun ref found record => absurd special record.plain
  · cases atKey : now.fetch key with
    | none => exact Or.inl ⟨special, rfl, by simp [purgePointersLoop, special, atKey]⟩
    | some cont =>
      refine Or.inr ⟨Or.inr (Option.some_ne_none _), ?_⟩
      cases indexed : isIndex cont with
      | true =>
        refine ⟨now, by simp [purgePointersLoop, special, atKey, indexed], purged.pass new ?_⟩
        intro ref found record
        obtain ⟨other, atOther, notIndex, _⟩ := record.content
        cases atKey.symm.trans atOther
        rw [indexed] at notIndex
        cases notIndex
      | false =>
        obtain ⟨found, read⟩ := purged.wf.readable atKey special indexed
        have record : RecordAt now key ⟨found.name.getD (Separated.cut tab key).1, found.ext⟩ found :=
          ⟨special, ⟨cont, atKey, indexed, read⟩, rfl, rfl⟩
        by_cases guilty : PointsTo name found
        · obtain ⟨now', deletes⟩ := purged.wf.deletesRecord settled record
          refine ⟨now', ?_, purged.delete new record guilty deletes⟩
          have kind : ¬(found.id ≠ soMan ∧ found.id ≠ whatisMan) := fun other => guilty.1.elim other.1 other.2
          simp [purgePointersLoop, special, atKey, indexed, read, kind, guilty.2, deletes.run, bind, Except.bind]
        · refine ⟨now, ?_, purged.pass new ?_⟩
          · by_cases kind : found.id ≠ soMan ∧ found.id ≠ whatisMan
            · simp [purgePointersLoop, special, atKey, indexed, read, kind, bind, Except.bind]
            · have elsewhere : found.pointer ≠ some name := fun pointer => guilty ⟨by tauto, pointer⟩
              simp [purgePointersLoop, special, atKey, indexed, read, kind, elsewhere, bind, Except.bind]
          · intro ref other record'
            rw [← (record.unique record').2]
            exact guilty

/-- The loop goes on until it is through or stands at an emptied key. -/
theorem Purged.pointersLoop (wf : WellFormed loc db) (settled : loc.Settled) {rest : List Bytes} :
    ∀ {visited : List Bytes} {now : Store}, db.keys = visited ++ rest →
      Purged loc db (fun _ => PointsTo name) visited now → (∀ key ∈ visited, ¬Emptied loc db name key) →
      ∃ visited' left now', purgePointersLoop loc false name rest now = .ok now' ∧ db.keys = visited' ++ left ∧
        Purged loc db (fun _ => PointsTo name) visited' now' ∧ (∀ key ∈ visited', ¬Emptied loc db name key) ∧
        ∀ key ∈ left.head?, Emptied loc db name key := by
  induction rest with
  | nil => exact fun split purged sound => ⟨_, [], _, rfl, split, purged, sound, by simp⟩
  | cons key rest ih =>
    intro visited now split purged sound
    rcases purged.pointersTurn settled (key_not_visited split) rest with
      ⟨plain, absent, run⟩ | ⟨present, now', run, purged'⟩
    · refine ⟨visited, key :: rest, now, run, split, purged, sound, ?_⟩
      rintro _ ⟨⟩
      exact (purged.gone_iff_emptied wf split plain).mp absent
    · have notEmptied : ¬Emptied loc db name key := by
        intro emptied
        have plain := (emptied.pageName wf).2.2
        exact present.elim plain (fun isThere => isThere ((purged.gone_iff_emptied wf split plain).mpr emptied))
      obtain ⟨visited', left, last, runs, facts⟩ := ih (by simp [split]) purged' fun other member => by
        rcases List.mem_append.mp member with old | here
        · exact sound other old
        · rw [List.mem_singleton.mp here]
          exact notEmptied
      exact ⟨visited', left, last, run.trans runs, facts⟩

/-- The purge is complete and exact precisely when no entry that points to the name
has its record after a simple key which its own pages empty. -/
theorem purgePointers_exact_iff (wf : WellFormed loc db) (settled : loc.Settled) (name : Bytes) :
    PurgesPointers loc db name ↔ ∀ key, Emptied loc db name key → ∀ ref info, entry loc db ref = some info →
      PointsTo name info → compare key (home loc db ref) ≠ .lt := by
  obtain ⟨visited, left, now, run, split, purged, sound, atHead⟩ :=
    Purged.pointersLoop wf settled (List.nil_append db.keys).symm (wf.purged fun _ => PointsTo name) (by simp)
  constructor
  · rintro ⟨db', runs, none, _⟩ key emptied ref info present pointsTo less
    cases run.symm.trans runs
    have ahead : home loc db ref ∉ visited := by
      intro member
      have inKeys := emptied.mem_keys
      rw [split] at inKeys
      have later : key ∈ left := (List.mem_append.mp inKeys).resolve_left fun old => sound key old emptied
      have order := visited_lt split member later
      rw [Std.OrientedOrd.eq_swap, less] at order
      cases order
    exact none ref info (purged.kept ref info present fun deleted => ahead deleted.1).1 pointsTo
  · intro condition
    have through : ∀ ref info, entry loc db ref = some info → PointsTo name info → home loc db ref ∈ visited := by
      intro ref info present pointsTo
      have inKeys := wf.home_mem_keys present
      rw [split] at inKeys
      refine (List.mem_append.mp inKeys).resolve_right fun later => ?_
      cases shape : left with
      | nil => simp [shape] at later
      | cons key rest =>
        rw [shape] at later split atHead
        have emptied := atHead key rfl
        rcases List.mem_cons.mp later with here | after
        · obtain ⟨_, record, _⟩ := wf.record_home present
          obtain ⟨_, atHome, notIndex, _⟩ := record.content
          obtain ⟨_, atKey, indexed, _⟩ := emptied
          rw [here, atKey] at atHome
          cases atHome
          rw [indexed] at notIndex
          cases notIndex
        · rw [List.append_cons] at split
          have order := visited_lt split (List.mem_append_right visited (List.mem_singleton_self key)) after
          exact condition key emptied ref info present pointsTo order
    refine ⟨now, run, fun ref info isThere pointsTo => ?_, fun ref innocent => ?_⟩
    · obtain ⟨before, _, spared⟩ := purged.entry_sub isThere
      exact spared ⟨through ref info before pointsTo, pointsTo⟩
    · cases before : entry loc db ref with
      | none => exact purged.fresh ref before
      | some info => exact (purged.kept ref info before fun deleted => innocent info before deleted.2).1

/-- A reference to bar. -/
def sampleLink (ext : String) : Mandata := { samplePage ext whatisMan 5 "-" with pointer := some (ascii "bar") }

/-- References foo(1) and zed(1), each under its simple key. -/
def plainLinks : Store := indexOf .posix [(ascii "foo", sampleLink "1"), (ascii "zed", sampleLink "1")]

theorem plainLinks_wellFormed : WellFormed .posix plainLinks := by
  refine indexOf_wellFormed fun page member => ?_
  simp only [List.mem_cons, List.not_mem_nil, or_false] at member
  rcases member with rfl | rfl
  · exact ⟨by decide, by decide⟩
  · exact ⟨by decide, by decide⟩

theorem posix_settled : Locale.posix.Settled := forall_byte (by decide)

theorem purgePointers_exact_iff_links :
    WellFormed .posix plainLinks ∧ PurgesPointers .posix plainLinks (ascii "bar") := by
  refine ⟨plainLinks_wellFormed, (purgePointers_exact_iff plainLinks_wellFormed posix_settled _).mpr ?_⟩
  intro key emptied
  exfalso
  have keys : plainLinks.keys = [ascii "foo", ascii "zed"] := by decide +kernel
  have noIndex : ∀ key ∈ [ascii "foo", ascii "zed"], (plainLinks.fetch key).any isIndex = false := by decide +kernel
  have none := noIndex key (keys ▸ emptied.mem_keys)
  obtain ⟨cont, atKey, indexed, _⟩ := emptied
  simp [atKey, indexed] at none

/-- References Foo(1), Foo(3) and zed(1): the multi keys of the first two sort before
their simple key foo. -/
def mixedLinks : Store :=
  indexOf .posix [(ascii "Foo", sampleLink "1"), (ascii "Foo", sampleLink "3"), (ascii "zed", sampleLink "1")]

theorem mixedLinks_wellFormed : WellFormed .posix mixedLinks := by
  refine indexOf_wellFormed fun page member => ?_
  simp only [List.mem_cons, List.not_mem_nil, or_false] at member
  rcases member with rfl | rfl | rfl
  · exact ⟨by decide, by decide⟩
  · exact ⟨by decide, by decide⟩
  · exact ⟨by decide, by decide⟩

/-- With the last page under foo the walk ends, and zed(1) still points to bar. -/
theorem purgePointers_leaves_link :
    WellFormed .posix mixedLinks ∧ ¬PurgesPointers .posix mixedLinks (ascii "bar") := by
  refine ⟨mixedLinks_wellFormed, ?_⟩
  rintro ⟨db', run, none, _⟩
  have left : (purgePointers .posix false mixedLinks (ascii "bar")).map
      (fun db' => entry .posix db' ⟨ascii "zed", ascii "1"⟩) = .ok (some (stored (sampleLink "1"))) := by
    decide +kernel
  rw [run] at left
  exact none _ _ (Except.ok.inj left) ⟨Or.inr rfl, rfl⟩

end ManDb
