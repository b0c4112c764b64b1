import ManDb.Index.Pointers
import ManDb.MultiKey

namespace ManDb

/-- An existing file of this extension is among those found. -/
def Matched (fs : FileSystem) (ext : Bytes) (found : List Bytes) : Prop :=
  ∃ walk ∈ found, fs.stat walk ≠ none ∧ ∃ info, fs.filenameInfo walk = some info ∧ info.ext = ext

/-- So is one that is newer than the database, or the time of the database cannot
be had. -/
def NewerMatched (fs : FileSystem) (ext : Bytes) (found : List Bytes) (dbMtime : Timespec) : Prop :=
  ∃ walk ∈ found, ∃ mtime, fs.stat walk = some mtime ∧ (dbMtime.sec = -1 ∨ timespecCmp mtime dbMtime = .gt) ∧
    ∃ info, fs.filenameInfo walk = some info ∧ info.ext = ext

/-- The files `look_for_file` finds for a page of the kind of an entry. -/
def filesOf (fs : FileSystem) (manpath catpath : Bytes) (info : Mandata) (ext name : Bytes) : List Bytes :=
  fs.lookForFile (entryHierarchy manpath catpath info).1 ext name (entryHierarchy manpath catpath info).2

/-- The entries whose page does not exist any more. -/
def Dead (fs : FileSystem) (manpath catpath : Bytes) (dbMtime : Timespec) (ref : NameExt) (info : Mandata) : Prop :=
  (info.id ∈ [ultMan, soMan, strayCat] ∧ ¬Matched fs ref.ext (filesOf fs manpath catpath info ref.ext ref.name)) ∨
  (info.id ∈ [whatisMan, whatisCat] ∧
    ¬NewerMatched fs ref.ext (filesOf fs manpath catpath info ref.ext ref.name) dbMtime ∧
    (info.pointer = some [dash] ∨
      ∃ pointer, info.pointer = some pointer ∧ ¬Matched fs ref.ext (filesOf fs manpath catpath info ref.ext pointer)))

/-- The kinds of entries there are. -/
def KnownIds (loc : Locale) (db : Store) : Prop :=
  ∀ ref info, entry loc db ref = some info → info.id ∈ [ultMan, soMan, whatisMan, strayCat, whatisCat]

variable {loc : Locale} {db now : Store} {fs : FileSystem} {manpath catpath key name ext k : Bytes}
  {dbMtime : Timespec}
  {ref : NameExt} {info found : Mandata} {files : List Bytes} {s : PurgeState}

theorem countGlobMatches_newer : countGlobMatches fs ext files dbMtime ≠ 0 ↔ NewerMatched fs ext files dbMtime := by
  unfold countGlobMatches NewerMatched
  rw [← Nat.pos_iff_ne_zero, List.countP_pos_iff]
  refine exists_congr fun walk => and_congr_right fun _ => ?_
  unfold globMatch
  cases stat : fs.stat walk with
  | none => simp
  | some mtime =>
    cases info : fs.filenameInfo walk with
    | none => simp
    | some found =>
      by_cases old : dbMtime.sec ≠ -1 ∧ timespecCmp mtime dbMtime ≠ .gt
      · simp [old]
      · have newer : dbMtime.sec = -1 ∨ timespecCmp mtime dbMtime = .gt := by tauto
        simp only [if_neg old, beq_iff_eq, Option.some.injEq, exists_eq_left']
        exact ⟨fun same => ⟨newer, same.symm⟩, fun both => both.2.symm⟩

theorem countGlobMatches_any : countGlobMatches fs ext files noTime ≠ 0 ↔ Matched fs ext files := by
  rw [countGlobMatches_newer]
  refine exists_congr fun walk => and_congr_right fun _ => ?_
  cases stat : fs.stat walk with
  | none => simp
  | some mtime => simp [noTime]

/-- The lists of pairs the index keeps pass the check. -/
theorem checkMultiKey_refs (settled : loc.Settled) {refs : List NameExt}
    (members : ∀ ref ∈ refs, ref.Clean ∧ nameToKey loc ref.name = k) :
    checkMultiKey loc k (makeExtensionsReference refs) = false := by
  rw [checkMultiKey_pairs fun ref member => ⟨(members ref member).1.1.2.1, (members ref member).1.2⟩,
    all_startsKey_iff]
  intro ref member
  have same : loc.lower k = loc.lower ref.name := by
    rw [← (members ref member).2, nameToKey, settled.lower]
  simp only [StartsKey, same, List.prefix_rfl]

/-- What a turn makes of the state: nothing happens to the database unless the key
holds a condemned record, which is then deleted and counted. -/
inductive TurnOutcome (loc : Locale) (condemned : NameExt → Mandata → Prop) (key : Bytes) (s s' : PurgeState) : Prop
  | pass (same : s'.db = s.db) (count : s'.count = s.count)
      (innocent : ∀ ref found, RecordAt s.db key ref found → ¬condemned ref found.unnamed)
  | delete (ref : NameExt) (found : Mandata) (record : RecordAt s.db key ref found)
      (guilty : condemned ref found.unnamed) (deletes : DeletesRecord loc s.db key ref found s'.db)
      (count : s'.count = s.count + 1)

theorem purge_deletes {s : PurgeState} (condemned : NameExt → Mandata → Prop) (wf : WellFormed loc s.db)
    (settled : loc.Settled) (record : RecordAt s.db key ref found) (guilty : condemned ref found.unnamed) :
    ∃ db', purge loc false (Separated.cut tab key).1 found s = .ok { s with db := db', count := s.count + 1 } ∧
      ∀ rescan, TurnOutcome loc condemned key s ⟨db', rescan, s.count + 1⟩ := by
  obtain ⟨db', deletes⟩ := wf.deletesRecord settled record
  refine ⟨db', ?_, fun rescan => .delete ref found record guilty deletes rfl⟩
  simp [purge, deletes.run, bind, Except.bind, pure, Except.pure]

theorem TurnOutcome.spare {s s' : PurgeState} {condemned : NameExt → Mandata → Prop}
    (record : RecordAt s.db key ref found)
    (innocent : ¬condemned ref found.unnamed) (same : s'.db = s.db) (count : s'.count = s.count) :
    TurnOutcome loc condemned key s s' := by
  refine .pass same count fun other read record' => ?_
  obtain ⟨rfl, rfl⟩ := record.unique record'
  exact innocent

theorem purgeNormal_outcome {s : PurgeState} (wf : WellFormed loc s.db) (settled : loc.Settled)
    (record : RecordAt s.db key ref found) (kind : found.id ∈ [ultMan, soMan, strayCat]) :
    ∃ s', purgeNormal loc fs false (Separated.cut tab key).1 found
      (filesOf fs manpath catpath found ref.ext ref.name) s =
      .ok s' ∧ TurnOutcome loc (Dead fs manpath catpath dbMtime) key s s' := by
  have notWhatis : found.unnamed.id ∉ [whatisMan, whatisCat] := by
    change found.id ∉ _
    revert kind
    simp only [List.mem_cons, List.not_mem_nil, or_false]
    rintro (same | same | same) <;> rw [same] <;> decide
  unfold purgeNormal
  rw [record.ext]
  by_cases matched : Matched fs ref.ext (filesOf fs manpath catpath found ref.ext ref.name)
  · rw [if_pos (countGlobMatches_any.mpr matched)]
    refine ⟨s, rfl, .spare record ?_ rfl rfl⟩
    rintro (⟨_, missing⟩ | ⟨whatis, _⟩)
    · exact missing matched
    · exact notWhatis whatis
  · rw [if_neg (fun count => matched (countGlobMatches_any.mp count))]
    obtain ⟨db', run, outcome⟩ :=
      purge_deletes (Dead fs manpath catpath dbMtime) wf settled record (Or.inl ⟨kind, matched⟩)
    exact ⟨_, run, outcome _⟩

theorem purgeWhatis_outcome {s : PurgeState} (fs : FileSystem) (manpath catpath : Bytes) (dbMtime : Timespec)
    (wf : WellFormed loc s.db) (settled : loc.Settled)
    (record : RecordAt s.db key ref found) (kind : found.id ∈ [whatisMan, whatisCat])
    (pointed : found.pointer ≠ none) :
    ∃ s', purgeWhatis loc fs false (entryHierarchy manpath catpath found).1 (entryHierarchy manpath catpath found).2
      (Separated.cut tab key).1 found (filesOf fs manpath catpath found ref.ext ref.name) dbMtime s = .ok s' ∧
      TurnOutcome loc (Dead fs manpath catpath dbMtime) key s s' := by
  have notNormal : found.unnamed.id ∉ [ultMan, soMan, strayCat] := by
    change found.id ∉ _
    revert kind
    simp only [List.mem_cons, List.not_mem_nil, or_false]
    rintro (same | same) <;> rw [same] <;> decide
  obtain ⟨pointer, atPointer⟩ := Option.ne_none_iff_exists'.mp pointed
  unfold purgeWhatis
  rw [record.ext]
  by_cases newer : NewerMatched fs ref.ext (filesOf fs manpath catpath found ref.ext ref.name) dbMtime
  · rw [if_pos (countGlobMatches_newer.mpr newer)]
    refine ⟨_, rfl, .spare record ?_ rfl rfl⟩
    rintro (⟨normal, _⟩ | ⟨_, old, _⟩)
    · exact notNormal normal
    · exact old newer
  · rw [if_neg (fun count => newer (countGlobMatches_newer.mp count))]
    by_cases empty : found.pointer = some [dash]
    · rw [if_pos empty]
      obtain ⟨db', run, outcome⟩ :=
        purge_deletes (Dead fs manpath catpath dbMtime) wf settled record (Or.inr ⟨kind, newer, Or.inl empty⟩)
      exact ⟨_, by rw [run]; rfl, outcome true⟩
    · rw [if_neg empty, atPointer]
      by_cases matched : Matched fs ref.ext (filesOf fs manpath catpath found ref.ext pointer)
      · refine ⟨s, if_pos (countGlobMatches_any.mpr matched), .spare record ?_ rfl rfl⟩
        rintro (⟨normal, _⟩ | ⟨_, _, noPointer | ⟨other, atOther, missing⟩⟩)
        · exact notNormal normal
        · exact empty noPointer
        · cases atPointer.symm.trans atOther
          exact missing matched
      · obtain ⟨db', run, outcome⟩ := purge_deletes (Dead fs manpath catpath dbMtime) wf settled record
          (Or.inr ⟨kind, newer, Or.inr ⟨pointer, atPointer, matched⟩⟩)
        exact ⟨_, (if_neg (fun count => matched (countGlobMatches_any.mp count))).trans run, outcome _⟩

theorem RecordAt.pointed (wf : WellFormed loc db) (record : RecordAt db key ref found) : found.pointer ≠ none := by
  obtain ⟨cont, atKey, notIndex, read⟩ := record.content
  have isStored : found.Stored := by
    cases wf.kept record.plain atKey notIndex read with
    | singular page ok holds => exact ok.1
    | indexed other refs rec clean member ok holds key isRecord => exact isRecord ▸ (ok.2.2 other member).2.2.1
  rw [← isStored.filled]
  exact Option.some_ne_none _

/-- The turn of an index. -/
theorem purgeMissingTurn_index {s : PurgeState} {cont : Bytes} (wf : WellFormed loc s.db) (settled : loc.Settled)
    (condemned : NameExt → Mandata → Prop) (atKey : s.db.fetch key = some cont) (indexed : isIndex cont = true) :
    (if checkMultiKey loc (Separated.cut tab key).1 cont then
        .ok { s with db := s.db.delete key, forceRescan := true } else .ok s : Except Fatal PurgeState) = .ok s ∧
      TurnOutcome loc condemned key s s := by
  obtain ⟨refs, record, page, ok, holds, _⟩ := wf.index_group atKey indexed
  have content : cont = makeExtensionsReference refs := Option.some.inj (atKey.symm.trans holds.simple)
  have passes : checkMultiKey loc key cont = false := by
    rw [content]
    exact checkMultiKey_refs settled fun ref member => ⟨(ok.2.2 ref member).1, (ok.2.2 ref member).2.1⟩
  refine ⟨by simp [Separated.cut_of_not_mem page.2.1, passes], .pass rfl rfl fun ref found record => ?_⟩
  obtain ⟨_, content, notIndex, _⟩ := record.content
  cases atKey.symm.trans content
  rw [indexed] at notIndex
  cases notIndex

/-- The turn of a record. -/
theorem purgeMissingTurn_record {s : PurgeState} (wf : WellFormed loc s.db) (settled : loc.Settled)
    (record : RecordAt s.db key ref found) (known : found.id ∈ [ultMan, soMan, whatisMan, strayCat, whatisCat]) :
    ∃ s', (if found.id = ultMan ∨ found.id = soMan ∨ found.id = strayCat then
          purgeNormal loc fs false (Separated.cut tab key).1 found
            (filesOf fs manpath catpath found ref.ext ref.name) s
        else if found.id = whatisMan then
          purgeWhatis loc fs false manpath false (Separated.cut tab key).1 found
            (filesOf fs manpath catpath found ref.ext ref.name) dbMtime s
        else purgeWhatis loc fs false catpath true (Separated.cut tab key).1 found
          (filesOf fs manpath catpath found ref.ext ref.name) dbMtime s) = .ok s' ∧
      TurnOutcome loc (Dead fs manpath catpath dbMtime) key s s' := by
  by_cases normal : found.id = ultMan ∨ found.id = soMan ∨ found.id = strayCat
  · rw [if_pos normal]
    exact purgeNormal_outcome wf settled record (by simpa using normal)
  · rw [if_neg normal]
    have kind : found.id = whatisMan ∨ found.id = whatisCat := by
      simp only [List.mem_cons, List.not_mem_nil, or_false] at known
      tauto
    have outcome := purgeWhatis_outcome fs manpath catpath dbMtime wf settled record (by simpa using kind)
      (record.pointed wf)
    by_cases man : found.id = whatisMan
    · rw [if_pos man]
      have hier : entryHierarchy manpath catpath found = (manpath, false) := by
        rw [entryHierarchy, man, if_pos (by decide)]
      simpa only [hier] using outcome
    · rw [if_neg man]
      have hier : entryHierarchy manpath catpath found = (catpath, true) := by
        rw [entryHierarchy, kind.resolve_left man, if_neg (by decide)]
      simpa only [hier] using outcome

/-- Every turn returns, and deletes the record at its key if that is dead. -/
theorem purgeMissingTurn_outcome {s : PurgeState} (key : Bytes) (wf : WellFormed loc s.db) (settled : loc.Settled)
    (known : ∀ ref found, RecordAt s.db key ref found →
      found.id ∈ [ultMan, soMan, whatisMan, strayCat, whatisCat]) :
    ∃ s', purgeMissingTurn loc fs false manpath catpath dbMtime key s = .ok s' ∧
      TurnOutcome loc (Dead fs manpath catpath dbMtime) key s s' := by
  unfold purgeMissingTurn
  by_cases special : key.head? = some dollar
  · refine ⟨s, if_pos special, .pass rfl rfl fun ref found record => ?_⟩
    exact absurd special record.plain
  · rw [if_neg special]
    cases atKey : s.db.fetch key with
    | none =>
      refine ⟨s, rfl, .pass rfl rfl fun ref found record => ?_⟩
      obtain ⟨_, content, _⟩ := record.content
      rw [atKey] at content
      cases content
    | some cont =>
      dsimp only
      cases indexed : isIndex cont with
      | true => exact ⟨s, purgeMissingTurn_index wf settled _ atKey indexed⟩
      | false =>
        obtain ⟨found, read⟩ := wf.readable atKey special indexed
        have record : RecordAt s.db key ⟨found.name.getD (Separated.cut tab key).1, found.ext⟩ found :=
          ⟨special, ⟨cont, atKey, indexed, read⟩, rfl, rfl⟩
        simp only [read, bind, Except.bind, Bool.false_eq_true, if_false]
        exact purgeMissingTurn_record wf settled record (known _ _ record)

/-- A purge in progress, with the list of what it has deleted. -/
structure MissingPurged (loc : Locale) (db : Store) (condemned : NameExt → Mandata → Prop) (visited : List Bytes)
    (deleted : List NameExt) (s : PurgeState) : Prop where
  purged : Purged loc db condemned visited s.db
  nodup : deleted.Nodup
  members : ∀ ref, ref ∈ deleted ↔ ∃ info, entry loc db ref = some info ∧ home loc db ref ∈ visited ∧
    condemned ref info
  count : s.count = deleted.length

theorem MissingPurged.step {s s' : PurgeState} {condemned : NameExt → Mandata → Prop} {visited : List Bytes}
    {deleted : List NameExt} (state : MissingPurged loc db condemned visited deleted s) (new : key ∉ visited)
    (outcome : TurnOutcome loc condemned key s s') :
    ∃ deleted', MissingPurged loc db condemned (visited ++ [key]) deleted' s' := by
  cases outcome with
  | pass same count innocent =>
    refine ⟨deleted, same ▸ state.purged.pass new innocent, state.nodup, fun ref => ?_, count.trans state.count⟩
    rw [state.members]
    refine exists_congr fun info => and_congr_right fun present => ?_
    rw [List.mem_append, List.mem_singleton]
    refine ⟨fun old => ⟨Or.inl old.1, old.2⟩, fun both => ⟨both.1.resolve_right fun here => ?_, both.2⟩⟩
    obtain ⟨found, record, rfl⟩ := state.purged.ahead new present here
    exact innocent ref found record both.2
  | delete ref found record guilty deletes count =>
    obtain ⟨present, atHome⟩ := state.purged.of_record record
    refine ⟨ref :: deleted, state.purged.delete new record guilty deletes, List.nodup_cons.mpr ⟨?_, state.nodup⟩,
      fun other => ?_, by rw [count, state.count, List.length_cons]⟩
    · intro member
      obtain ⟨_, _, old, _⟩ := (state.members ref).mp member
      exact new (atHome ▸ old)
    · rw [List.mem_cons, state.members]
      constructor
      · rintro (rfl | ⟨info, before, old, dead⟩)
        · exact ⟨_, present, by simp [atHome], guilty⟩
        · exact ⟨info, before, List.mem_append_left _ old, dead⟩
      · rintro ⟨info, before, member, dead⟩
        rcases List.mem_append.mp member with old | here
        · exact Or.inr ⟨info, before, old, dead⟩
        · obtain ⟨_, record', _⟩ := state.purged.ahead new before (List.mem_singleton.mp here)
          exact Or.inl (record'.unique record).1

theorem MissingPurged.run (settled : loc.Settled) (known : KnownIds loc db) {rest : List Bytes} :
    ∀ {visited : List Bytes} {deleted : List NameExt} {s : PurgeState}, db.keys = visited ++ rest →
      MissingPurged loc db (Dead fs manpath catpath dbMtime) visited deleted s →
      ∃ s' deleted', rest.foldlM (fun s key => purgeMissingTurn loc fs false manpath catpath dbMtime key s) s =
        .ok s' ∧
        MissingPurged loc db (Dead fs manpath catpath dbMtime) db.keys deleted' s' := by
  induction rest with
  | nil =>
    intro visited deleted s split state
    rw [List.append_nil] at split
    exact ⟨s, deleted, rfl, split ▸ state⟩
  | cons key rest ih =>
    intro visited deleted s split state
    obtain ⟨s', turn, outcome⟩ := purgeMissingTurn_outcome key state.purged.wf settled fun ref found record =>
      known ref found.unnamed (state.purged.of_record record).1
    obtain ⟨deleted', state'⟩ := state.step (key_not_visited split) outcome
    obtain ⟨last, gone, run, final⟩ := ih (by simp [split]) state'
    refine ⟨last, gone, ?_, final⟩
    rw [List.foldlM_cons, turn]
    exact run

/-- With the version it should have, a well-formed index of known entries loses its
dead entries, each of them counted, and nothing else. -/
theorem purgeMissing_exact (wf : WellFormed loc db) (settled : loc.Settled) (known : KnownIds loc db)
    (version : db.dbverRd = false) (fs : FileSystem) (manpath catpath : Bytes) (dbMtime : Timespec)
    (forceRescan : Bool) :
    ∃ s', purgeMissing loc fs false manpath catpath dbMtime db forceRescan = .ok s' ∧
      (∀ ref info, entry loc db ref = some info → Dead fs manpath catpath dbMtime ref info →
        entry loc s'.db ref = none) ∧
      (∀ ref, (∀ info, entry loc db ref = some info → ¬Dead fs manpath catpath dbMtime ref info) →
        entry loc s'.db ref = entry loc db ref) ∧
      (∀ key, key.head? = some dollar → s'.db.fetch key = db.fetch key) ∧
      (∃ deleted : List NameExt, deleted.Nodup ∧ s'.count = deleted.length ∧
        ∀ ref, ref ∈ deleted ↔ entry loc db ref ≠ none ∧ entry loc s'.db ref = none) ∧
      WellFormed loc s'.db := by
  have sane : sanityCheckDb db = true := by
    simp only [sanityCheckDb, version, Bool.not_false, Bool.true_and, List.all_eq_true]
    intro key member
    obtain ⟨cont, atKey⟩ := Store.mem_keys_iff.mp member
    rw [atKey]
    rfl
  have start : MissingPurged loc db (Dead fs manpath catpath dbMtime) [] [] ⟨db, forceRescan, 0⟩ :=
    ⟨wf.purged _, List.nodup_nil, by simp, rfl⟩
  obtain ⟨s', deleted, run, state⟩ := MissingPurged.run settled known (List.nil_append db.keys).symm start
  have whole := state.purged.whole wf
  refine ⟨s', ?_, fun ref => (whole ref).1, fun ref => (whole ref).2, state.purged.ident,
    ⟨deleted, state.nodup, state.count, fun ref => ?_⟩, state.purged.wf⟩
  · rw [purgeMissing, if_pos sane, run]
  · rw [state.members]
    constructor
    · rintro ⟨info, present, _, dead⟩
      exact ⟨by simp [present], (whole ref).1 info present dead⟩
    · rintro ⟨present, gone⟩
      obtain ⟨info, isThere⟩ := Option.ne_none_iff_exists'.mp present
      refine ⟨info, isThere, wf.home_mem_keys isThere, ?_⟩
      by_contra alive
      rw [(whole ref).2 fun other same => by cases isThere.symm.trans same; exact alive] at gone
      exact present gone

theorem knownIds_of_keys (wf : WellFormed loc db)
    (known : ∀ key ∈ db.keys, ∀ cont ∈ db.fetch key, ∀ info ∈ (splitContent cont).toOption,
      info.id ∈ [ultMan, soMan, whatisMan, strayCat, whatisCat]) : KnownIds loc db := by
  intro ref info present
  obtain ⟨found, record, rfl⟩ := wf.record_home present
  obtain ⟨cont, atHome, _, read⟩ := record.content
  exact known _ (wf.home_mem_keys present) cont atHome found (by rw [read]; rfl)

/-- The page foo(1), a reference zed(1) to bar, and the version of the database. -/
def versionedStore : Store :=
  (indexOf .posix [(ascii "foo", samplePage "1" ultMan 5 "-"), (ascii "zed", sampleLink "1")]).replace Store.verKey
    Store.verId

theorem versionedStore_wellFormed : WellFormed .posix versionedStore := by
  refine WellFormed.replace_ident (indexOf_wellFormed fun page member => ?_) (by decide) (by decide)
  simp only [List.mem_cons, List.not_mem_nil, or_false] at member
  rcases member with rfl | rfl
  · exact ⟨by decide, by decide⟩
  · exact ⟨by decide, by decide⟩

/-- A file system in which bar.1 is the only page there is. -/
def barOnly : FileSystem where
  lookForFile _ _ name _ := if name = ascii "bar" then [ascii "/man/man1/bar.1"] else []
  stat _ := some ⟨1, 0⟩
  filenameInfo _ := some (samplePage "1" ultMan 1 "-")

theorem purgeMissing_exact_foo :
    WellFormed .posix versionedStore ∧ ∃ s', purgeMissing .posix barOnly false (ascii "/man") (ascii "/cat") ⟨5, 0⟩
      versionedStore false = .ok s' ∧ entry .posix s'.db ⟨ascii "foo", ascii "1"⟩ = none ∧
        WellFormed .posix s'.db := by
  have known : KnownIds .posix versionedStore := knownIds_of_keys versionedStore_wellFormed (by decide +kernel)
  obtain ⟨s', run, dead, _, _, _, wf⟩ := purgeMissing_exact versionedStore_wellFormed posix_settled known
    (by decide +kernel) barOnly (ascii "/man") (ascii "/cat") ⟨5, 0⟩ false
  have present : entry .posix versionedStore ⟨ascii "foo", ascii "1"⟩ = some
    (stored (samplePage "1" ultMan 5 "-")) := by
    decide +kernel
  refine ⟨versionedStore_wellFormed, s', run, dead _ _ present (Or.inl ⟨by decide, ?_⟩), wf⟩
  rintro ⟨walk, member, _⟩
  exact absurd member (by simp [filesOf, barOnly, ascii])

end ManDb
