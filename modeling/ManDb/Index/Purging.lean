import ManDb.Purge
import ManDb.Index.Homes

namespace ManDb

/-- A purge that has come past the visited keys: the condemned entries with their
record at one of them are gone, and all other entries are where they were. -/
structure Purged (loc : Locale) (db : Store) (condemned : NameExt → Mandata → Prop) (visited : List Bytes)
    (now : Store) : Prop where
  wf : WellFormed loc now
  gone : ∀ ref info, entry loc db ref = some info → home loc db ref ∈ visited → condemned ref info →
    entry loc now ref = none
  kept : ∀ ref info, entry loc db ref = some info → ¬(home loc db ref ∈ visited ∧ condemned ref info) →
    entry loc now ref = some info ∧ home loc now ref = home loc db ref
  fresh : ∀ ref, entry loc db ref = none → entry loc now ref = none
  ident : ∀ key, key.head? = some dollar → now.fetch key = db.fetch key

variable {loc : Locale} {db now now' : Store} {condemned : NameExt → Mandata → Prop} {visited : List Bytes}
  {key : Bytes} {ref : NameExt} {info found : Mandata}

theorem WellFormed.purged (wf : WellFormed loc db) (condemned : NameExt → Mandata → Prop) :
    Purged loc db condemned [] db where
  wf := wf
  gone _ _ _ member := absurd member List.not_mem_nil
  kept _ _ present _ := ⟨present, rfl⟩
  fresh _ missing := missing
  ident _ _ := rfl

theorem Purged.entry_sub (purged : Purged loc db condemned visited now) (present : entry loc now ref = some info) :
    entry loc db ref = some info ∧ home loc now ref = home loc db ref ∧
      ¬(home loc db ref ∈ visited ∧ condemned ref info) := by
  cases before : entry loc db ref with
  | none =>
    rw [purged.fresh ref before] at present
    cases present
  | some old =>
    by_cases deleted : home loc db ref ∈ visited ∧ condemned ref old
    · rw [purged.gone ref old before deleted.1 deleted.2] at present
      cases present
    · obtain ⟨same, sameHome⟩ := purged.kept ref old before deleted
      cases same.symm.trans present
      exact ⟨rfl, sameHome, deleted⟩

/-- The records still ahead are those of the start. -/
theorem Purged.ahead (purged : Purged loc db condemned visited now) (new : key ∉ visited)
    (present : entry loc db ref = some info) (atHome : home loc db ref = key) :
    ∃ found, RecordAt now key ref found ∧ found.unnamed = info := by
  obtain ⟨still, sameHome⟩ := purged.kept ref info present (fun deleted => new (atHome ▸ deleted.1))
  obtain ⟨found, record, unnamed⟩ := purged.wf.record_home still
  rw [sameHome, atHome] at record
  exact ⟨found, record, unnamed⟩

theorem Purged.of_record (purged : Purged loc db condemned visited now) (record : RecordAt now key ref found) :
    entry loc db ref = some found.unnamed ∧ home loc db ref = key := by
  obtain ⟨present, atHome⟩ := purged.wf.home_record record
  obtain ⟨before, sameHome, _⟩ := purged.entry_sub present
  exact ⟨before, sameHome ▸ atHome⟩

/-- A turn that deletes nothing was not at a condemned record. -/
theorem Purged.pass (purged : Purged loc db condemned visited now) (new : key ∉ visited)
    (innocent : ∀ ref found, RecordAt now key ref found → ¬condemned ref found.unnamed) :
    Purged loc db condemned (visited ++ [key]) now where
  wf := purged.wf
  gone ref info present member isCondemned := by
    rcases List.mem_append.mp member with old | here
    · exact purged.gone ref info present old isCondemned
    · obtain ⟨found, record, rfl⟩ := purged.ahead new present (List.mem_singleton.mp here)
      exact absurd isCondemned (innocent ref found record)
  kept ref info present spared :=
    purged.kept ref info present (fun deleted => spared ⟨List.mem_append_left _ deleted.1, deleted.2⟩)
  fresh := purged.fresh
  ident := purged.ident

/-- A turn that deletes the condemned record it is at. -/
theorem Purged.delete (purged : Purged loc db condemned visited now) (new : key ∉ visited)
    (record : RecordAt now key ref found) (isCondemned : condemned ref found.unnamed)
    (deletes : DeletesRecord loc now key ref found now') : Purged loc db condemned (visited ++ [key]) now' where
  wf := deletes.wf
  gone other info present member guilty := by
    rw [deletes.entry, Function.update_apply]
    by_cases same : other = ref
    · rw [if_pos same]
    · rw [if_neg same]
      rcases List.mem_append.mp member with old | here
      · exact purged.gone other info present old guilty
      · obtain ⟨_, record', _⟩ := purged.ahead new present (List.mem_singleton.mp here)
        exact absurd (record'.unique record).1 same
  kept other info present spared := by
    obtain ⟨before, atHome⟩ := purged.of_record record
    have different : other ≠ ref := by
      rintro rfl
      cases before.symm.trans present
      exact spared ⟨List.mem_append_right _ (by simp [atHome]), isCondemned⟩
    obtain ⟨still, sameHome⟩ :=
      purged.kept other info present (fun deleted => spared ⟨List.mem_append_left _ deleted.1, deleted.2⟩)
    have after : entry loc now' other = some info := by
      rw [deletes.entry, Function.update_apply, if_neg different, still]
    refine ⟨after, ?_⟩
    rw [deletes.home other (by simp [after]), sameHome]
  fresh other missing := by
    rw [deletes.entry, Function.update_apply, purged.fresh other missing, ite_self]
  ident key special := by rw [deletes.ident key special, purged.ident key special]

/-- All keys visited: the condemned entries and no others are gone. -/
theorem Purged.whole (purged : Purged loc db condemned db.keys now) (wf : WellFormed loc db) (ref : NameExt) :
    (∀ info, entry loc db ref = some info → condemned ref info → entry loc now ref = none) ∧
    ((∀ info, entry loc db ref = some info → ¬condemned ref info) → entry loc now ref = entry loc db ref) := by
  constructor
  · intro info present guilty
    obtain ⟨found, record, _⟩ := wf.record_home present
    obtain ⟨cont, atHome, _⟩ := record.content
    exact purged.gone ref info present (Store.mem_keys_iff.mpr ⟨cont, atHome⟩) guilty
  · intro innocent
    cases before : entry loc db ref with
    | none => exact purged.fresh ref before
    | some info => exact (purged.kept ref info before (fun deleted => innocent info before deleted.2)).1

end ManDb
