import ManDb.Index.Search
import ManDb.Lib.Batches

namespace ManDb

/-- What `parse_for_sec` is called with: `MAN`, the limits `ARG_MAX` and `NAME_MAX` of the system, the locale, and
the exit status of a command (0 where `debug_level` has it shown only). -/
structure CatmanRequest where
  man : Bytes
  argMax : Nat
  nameMax : Nat
  locale : Option Bytes
  manpath : Bytes
  section_ : Bytes
  status : List Bytes → Nat

/-- `cmd` with its size in `arg_size`, and the commands that were run before. -/
structure CatmanState where
  ran : List (List Bytes)
  cmd : List Bytes
  argSize : Nat
  deriving DecidableEq

/-- Why the process ends: "NULL content for key", an error of the index, or `CHILD_FAIL` from the last command. -/
inductive CatmanStop where
  | noContent (key : Bytes)
  | fatal (fatal : Fatal)
  | childFail (ran : List (List Bytes))
  deriving DecidableEq

namespace CatmanRequest

/-- `MAX_ARGS`. -/
def maxArgs : Nat := 1024

variable (r : CatmanRequest)

def basecmd : List Bytes :=
  [r.man] ++ r.locale.elim [] (fun locale => [ascii "-L", locale]) ++
    [ascii "-caM", r.manpath, ascii "-S", r.section_]

/-- `sizeof` counts the terminator. -/
def initialBit : Nat :=
  r.locale.elim 0 (fun locale => 3 + locale.length + 1) +
    (r.man.length + 1 + 5 + r.manpath.length + r.section_.length + 2)

/-- What `arg_size` is with these pages. -/
def argSize (pages : List Bytes) : Nat := r.initialBit + (pages.map fun page => page.length + 1).sum

def start : CatmanState := ⟨[], r.basecmd, r.initialBit⟩

/-- `catman`: the command is run, and a new one is begun. -/
def catman (s : CatmanState) : Except CatmanStop CatmanState :=
  if r.status s.cmd = 0 then .ok ⟨s.ran ++ [s.cmd], r.basecmd, r.initialBit⟩
  else .error (.childFail (s.ran ++ [s.cmd]))

/-- What `add_arg` takes of a key: what stands before its last tab, unless that is at its start. -/
def keyArgument (key : Bytes) : Bytes := if upToLastTab key = [] then key else upToLastTab key

/-- `add_arg`, and the test for the room that is left. -/
def addArg (page : Bytes) (s : CatmanState) : Except CatmanStop CatmanState :=
  let s := { s with cmd := s.cmd ++ [page], argSize := s.argSize + page.length + 1 }
  if r.argMax - r.nameMax ≤ s.argSize ∨ s.cmd.length = maxArgs then r.catman s else .ok s

/-- One turn of the loop over the keys. -/
def parseTurn (db : Store) (s : CatmanState) (key : Bytes) : Except CatmanStop CatmanState :=
  if key.head? = some dollar then .ok s
  else
    match db.fetch key with
    | none => .error (.noContent key)
    | some content =>
      -- overflow entries
      if content.head? = some tab then .ok s
      else
        match splitContent content with
        | .error fatal => .error (.fatal fatal)
        | .ok entry =>
          if entry.id = ultMan ∧ entry.sec = r.section_ then r.addArg (keyArgument key) s else .ok s

/-- `parse_for_sec`: the commands that it runs. -/
def parseForSec (db : Store) : Except CatmanStop (List (List Bytes)) := do
  let s ← db.keys.foldlM (r.parseTurn db) r.start
  if r.basecmd.length < s.cmd.length then
    let s ← r.catman s
    return s.ran
  else return s.ran

/-- A command that is run before another page is added to it. -/
def full (pages : List Bytes) : Bool :=
  r.argMax - r.nameMax ≤ r.argSize pages || (r.basecmd ++ pages).length == maxArgs

/-- The record at a key that is passed to man. -/
def ultimateAt (db : Store) (key : Bytes) : Option Mandata :=
  if key.head? = some dollar then none
  else (db.fetch key).bind fun content =>
    if isIndex content then none
    else (splitContent content).toOption.bind fun entry =>
      if entry.id = ultMan ∧ entry.sec = r.section_ then some entry else none

/-- The pages that are to be passed to man. -/
def pages (db : Store) (keys : List Bytes) : List Bytes :=
  keys.filterMap fun key => (r.ultimateAt db key).map fun _ => keyArgument key

/-- A command with these pages. -/
def command (pages : List Bytes) : List Bytes := r.basecmd ++ pages

/-- What a run of commands leads to, if each but the last has succeeded. -/
inductive Runs (batches : List (List Bytes)) : Except CatmanStop (List (List Bytes)) → Prop
  | done (good : ∀ batch ∈ batches, r.status (r.command batch) = 0) : Runs batches (.ok (batches.map r.command))
  | failed {before last after} (split : batches = before ++ last :: after)
      (good : ∀ batch ∈ before, r.status (r.command batch) = 0) (bad : r.status (r.command last) ≠ 0) :
      Runs batches (.error (.childFail ((before ++ [last]).map r.command)))

/-- A command keeps within the limits: without its last page it has room for one more. -/
structure Fits (batch : List Bytes) : Prop where
  nonempty : batch ≠ []
  args : (r.command batch).length ≤ maxArgs
  size : batch.dropLast ≠ [] → r.argSize batch.dropLast < r.argMax - r.nameMax

/-- The state of the loop with a list of pages that is cut into batches. -/
def Stands (f : Batches.Filling Bytes) (s : CatmanState) : Prop :=
  s = ⟨f.closed.map r.command, r.command f.current, r.argSize f.current⟩ ∧
    ∀ batch ∈ f.closed, r.status (r.command batch) = 0

end CatmanRequest

variable {loc : Locale} {db : Store} {r : CatmanRequest} {f : Batches.Filling Bytes} {s : CatmanState}
  {key page : Bytes} {batch : List Bytes} {ref : NameExt} {info : Mandata}

namespace CatmanRequest

theorem command_nil (r : CatmanRequest) : r.command [] = r.basecmd := List.append_nil _

theorem argSize_snoc (r : CatmanRequest) (pages : List Bytes) (page : Bytes) :
    r.argSize (pages ++ [page]) = r.argSize pages + page.length + 1 := by
  simp only [argSize, List.map_append, List.sum_append, List.map_singleton, List.sum_singleton]
  omega

/-- `catman` on the command that stands for a batch. -/
theorem catman_stands (stands : r.Stands ⟨f.closed, batch⟩ s) :
    (r.status (r.command batch) = 0 ∧ ∃ s', r.catman s = .ok s' ∧ r.Stands ⟨f.closed ++ [batch], []⟩ s') ∨
      (r.status (r.command batch) ≠ 0 ∧
        r.catman s = .error (.childFail ((f.closed ++ [batch]).map r.command))) := by
  obtain ⟨rfl, good⟩ := stands
  by_cases passes : r.status (r.command batch) = 0
  · refine Or.inl ⟨passes, _, if_pos passes, ?_, ?_⟩
    · simp [command_nil, argSize]
    · intro other member
      rcases List.mem_append.mp member with old | new
      · exact good other old
      · exact List.mem_singleton.mp new ▸ passes
  · refine Or.inr ⟨passes, (if_neg passes).trans ?_⟩
    simp

/-- One more page: the command goes on, or it is run. -/
theorem addArg_stands (stands : r.Stands f s) (page : Bytes) :
    (∃ s', r.addArg page s = .ok s' ∧ r.Stands (f.add r.full page) s') ∨
      ∃ last, (f.add r.full page).closed = f.closed ++ [last] ∧ r.status (r.command last) ≠ 0 ∧
        r.addArg page s = .error (.childFail ((f.closed ++ [last]).map r.command)) := by
  obtain ⟨rfl, good⟩ := stands
  have next : r.Stands ⟨f.closed, f.current ++ [page]⟩
      ⟨f.closed.map r.command, r.command f.current ++ [page], r.argSize f.current + page.length + 1⟩ := by
    refine ⟨?_, good⟩
    rw [argSize_snoc, command, command, List.append_assoc]
  have test : r.full (f.current ++ [page]) = true ↔
      r.argMax - r.nameMax ≤ r.argSize f.current + page.length + 1 ∨
        (r.command f.current ++ [page]).length = maxArgs := by
    simp [full, argSize_snoc, command]
  unfold addArg Batches.Filling.add
  by_cases isFull : r.full (f.current ++ [page]) = true
  · rw [if_pos isFull]
    simp only [if_pos (test.mp isFull)]
    rcases catman_stands (f := f) next with ⟨_, s', run, after⟩ | ⟨bad, run⟩
    · exact Or.inl ⟨s', run, after⟩
    · exact Or.inr ⟨_, rfl, bad, run⟩
  · rw [if_neg isFull]
    simp only [if_neg (mt test.mpr isFull)]
    exact Or.inl ⟨_, rfl, next⟩

/-- A turn on a well-formed index passes the page if its record is an ultimate one of the section. -/
theorem parseTurn_eq (wf : WellFormed loc db) (member : key ∈ db.keys) (s : CatmanState) :
    r.parseTurn db s key = match r.ultimateAt db key with
      | some _ => r.addArg (keyArgument key) s
      | none => .ok s := by
  obtain ⟨content, atKey⟩ := Store.mem_keys_iff.mp member
  unfold parseTurn ultimateAt
  by_cases own : key.head? = some dollar
  · rw [if_pos own, if_pos own]
  · rw [if_neg own, if_neg own, atKey]
    cases index : isIndex content with
    | true =>
      have starts : content.head? = some tab := by simpa [isIndex] using index
      simp [starts, index]
    | false =>
      have other : content.head? ≠ some tab := by simpa [isIndex] using index
      obtain ⟨entry, read⟩ := wf.readable atKey own index
      simp only [if_neg other, read, Option.bind_some, index, Bool.false_eq_true, if_false, Except.toOption]
      by_cases asked : entry.id = ultMan ∧ entry.sec = r.section_
      · rw [if_pos asked, if_pos asked]
      · rw [if_neg asked, if_neg asked]

/-- The loop over some of the keys. -/
theorem parseTurns_stands (wf : WellFormed loc db) {keys : List Bytes} (members : ∀ key ∈ keys, key ∈ db.keys)
    (stands : r.Stands f s) :
    (∃ s', keys.foldlM (r.parseTurn db) s = .ok s' ∧ r.Stands (Batches.fill r.full f (r.pages db keys)) s') ∨
      ∃ before last after, (Batches.fill r.full f (r.pages db keys)).closed = before ++ last :: after ∧
        (∀ batch ∈ before, r.status (r.command batch) = 0) ∧ r.status (r.command last) ≠ 0 ∧
        keys.foldlM (r.parseTurn db) s = .error (.childFail ((before ++ [last]).map r.command)) := by
  induction keys generalizing f s with
  | nil => exact Or.inl ⟨s, rfl, stands⟩
  | cons key keys ih =>
    obtain ⟨member, members⟩ := List.forall_mem_cons.mp members
    have turn := parseTurn_eq (r := r) wf member s
    cases ultimate : r.ultimateAt db key with
    | none =>
      have same : r.pages db (key :: keys) = r.pages db keys := by simp [pages, ultimate]
      rw [ultimate] at turn
      rw [same, List.foldlM_cons, turn]
      exact ih members stands
    | some entry =>
      have more : r.pages db (key :: keys) = keyArgument key :: r.pages db keys := by simp [pages, ultimate]
      rw [ultimate] at turn
      rw [more, List.foldlM_cons, turn]
      rcases addArg_stands stands (keyArgument key) with ⟨s', run, after⟩ | ⟨last, closed, bad, run⟩
      · rw [run]
        exact ih members after
      · have stays : (f.add r.full (keyArgument key)).closed <+:
            (Batches.fill r.full (f.add r.full (keyArgument key)) (r.pages db keys)).closed :=
          Batches.closed_fill _ _
        obtain ⟨rest, whole⟩ := stays
        -- the commands that the rest of the keys would give are never built
        refine Or.inr ⟨f.closed, last, rest, ?_, stands.2, bad, ?_⟩
        · refine whole.symm.trans ?_
          rw [closed, List.append_assoc, List.singleton_append]
        · rw [run]
          rfl

/-- The commands that `parse_for_sec` runs are those of the batches, up to the first that fails. -/
theorem parseForSec_runs (r : CatmanRequest) (wf : WellFormed loc db) :
    r.Runs (Batches.batches r.full (r.pages db db.keys)) (r.parseForSec db) := by
  have begins : r.Stands ⟨[], []⟩ r.start := ⟨by simp [start, command_nil, argSize], nofun⟩
  unfold parseForSec Batches.batches
  rcases parseTurns_stands wf (fun _ => id) begins with ⟨s, run, stands⟩ | ⟨before, last, after, split, good, bad, run⟩
  · generalize Batches.fill r.full ⟨[], []⟩ (r.pages db db.keys) = f at stands
    obtain ⟨closed, current⟩ := f
    rw [run]
    simp only [bind, Except.bind]
    have cmd : s.cmd = r.command current := by rw [stands.1]
    have ran : s.ran = closed.map r.command := by rw [stands.1]
    have longer : r.basecmd.length < s.cmd.length ↔ current ≠ [] := by
      rw [cmd, command, List.length_append, ← List.length_pos_iff]
      omega
    by_cases empty : current = []
    · rw [if_neg (mt longer.mp (not_not.mpr empty)), ran, empty]
      exact .done stands.2
    · rw [if_pos (longer.mpr empty)]
      have all : (⟨closed, current⟩ : Batches.Filling Bytes).all = closed ++ [current] := by
        simp [Batches.Filling.all, empty]
      rw [all]
      rcases catman_stands (f := ⟨closed, current⟩) stands with ⟨good, s', last, after⟩ | ⟨bad, last⟩
      · rw [last]
        have ranAll : s'.ran = (closed ++ [current]).map r.command := by rw [after.1]
        change r.Runs _ (.ok s'.ran)
        rw [ranAll]
        exact .done after.2
      · rw [last]
        exact .failed rfl stands.2 bad
  · rw [run]
    obtain ⟨rest, whole⟩ := Batches.closed_all (Batches.fill r.full ⟨[], []⟩ (r.pages db db.keys))
    refine @Runs.failed r _ before last (after ++ rest) ?_ good bad
    rw [← whole, split, List.append_assoc, List.cons_append]

theorem basecmd_length (r : CatmanRequest) : r.basecmd.length < maxArgs := by
  unfold basecmd
  cases r.locale <;> simp [maxArgs]

/-- Every batch keeps within the limits. -/
theorem batches_fit {pages : List Bytes} (member : batch ∈ Batches.batches r.full pages) : r.Fits batch := by
  have room := r.basecmd_length
  have early := Batches.batches_early member
  have nonempty := Batches.batches_nonempty member
  have notFull : ∀ front, front <+: batch → front ≠ [] → front ≠ batch →
      r.argSize front < r.argMax - r.nameMax ∧ r.basecmd.length + front.length ≠ maxArgs := by
    intro front starts filled other
    have short := early front starts filled other
    simp only [full, Bool.or_eq_false_iff, decide_eq_false_iff_not, beq_eq_false_iff_ne, List.length_append] at short
    exact ⟨Nat.lt_of_not_le short.1, short.2⟩
  refine ⟨nonempty, ?_, fun filled => ?_⟩
  -- else a part of the batch has exactly as many arguments as there may be
  · by_contra long
    rw [command, List.length_append] at long
    have taken : (batch.take (maxArgs - r.basecmd.length)).length = maxArgs - r.basecmd.length := by
      rw [List.length_take]
      omega
    refine (notFull (batch.take (maxArgs - r.basecmd.length)) (List.take_prefix _ _) ?_ ?_).2 ?_
    · rw [← List.length_pos_iff, taken]
      omega
    · intro same
      have := congrArg List.length same
      omega
    · omega
  · refine (notFull _ (List.dropLast_prefix batch) filled fun same => ?_).1
    have shorter := congrArg List.length same
    rw [List.length_dropLast] at shorter
    have := List.length_pos_iff.mpr nonempty
    omega

/-- A pair whose page is to be passed to man. -/
def Asks (r : CatmanRequest) (loc : Locale) (db : Store) (ref : NameExt) : Prop :=
  ∃ info, entry loc db ref = some info ∧ info.id = ultMan ∧ info.sec = r.section_

theorem ultimateAt_record (record : RecordAt db key ref info) (id : info.id = ultMan) (sec : info.sec = r.section_) :
    r.ultimateAt db key = some info := by
  obtain ⟨content, atKey, notIndex, read⟩ := record.content
  simp [ultimateAt, record.plain, atKey, notIndex, read, id, sec, Except.toOption]

theorem keyArgument_eq (key : Bytes) (nonempty : upToLastTab key ≠ []) : keyArgument key = upToLastTab key :=
  if_neg nonempty

/-- The entry of a record that is passed to man. -/
theorem ultimateAt_entry (wf : WellFormed loc db) (settled : loc.Settled) (ultimate : r.ultimateAt db key = some info) :
    ∃ ref, r.Asks loc db ref ∧ home loc db ref = key ∧ loc.lower (keyArgument key) = loc.lower ref.name := by
  unfold ultimateAt at ultimate
  split at ultimate
  · cases ultimate
  · rename_i plain
    obtain ⟨content, atKey, ultimate⟩ := Option.bind_eq_some_iff.mp ultimate
    split at ultimate
    · cases ultimate
    · rename_i notIndex
      obtain ⟨found, read, ultimate⟩ := Option.bind_eq_some_iff.mp ultimate
      split at ultimate
      · rename_i asked
        cases ultimate
        have split : splitContent content = .ok info := by
          cases read' : splitContent content with
          | error fatal => simp [read', Except.toOption] at read
          | ok found => simpa [read', Except.toOption] using read
        have record : RecordAt db key ⟨info.name.getD (Separated.cut tab key).1, info.ext⟩ info :=
          ⟨plain, ⟨content, atKey, by simpa using notIndex, split⟩, rfl, rfl⟩
        obtain ⟨present, atHome⟩ := wf.home_record record
        have spelled := (record.page_case wf settled).1
        refine ⟨_, ⟨_, present, asked⟩, atHome, ?_⟩
        have named := (entry_pageName (Option.ne_none_iff_exists'.mpr ⟨_, present⟩)).1
        rw [keyArgument_eq key fun empty => ?_, spelled]
        rw [empty] at spelled
        exact named (loc.lower_eq_nil.mp spelled.symm)
      · cases ultimate

/-- The pages of some of the keys are those of the pairs with their records there. -/
theorem pages_refs (wf : WellFormed loc db) (settled : loc.Settled) {keys : List Bytes} (nodup : keys.Nodup) :
    ∃ refs : List NameExt, refs.Nodup ∧ (∀ ref, ref ∈ refs ↔ home loc db ref ∈ keys ∧ r.Asks loc db ref) ∧
      (r.pages db keys).map loc.lower = refs.map fun ref => loc.lower ref.name := by
  induction keys with
  | nil => exact ⟨[], List.nodup_nil, by simp, rfl⟩
  | cons key keys ih =>
    obtain ⟨new, nodup⟩ := List.nodup_cons.mp nodup
    obtain ⟨refs, distinct, members, names⟩ := ih nodup
    cases ultimate : r.ultimateAt db key with
    | none =>
      have same : r.pages db (key :: keys) = r.pages db keys := by simp [pages, ultimate]
      refine ⟨refs, distinct, fun ref => ?_, by rw [same, names]⟩
      rw [members, List.mem_cons]
      refine ⟨fun asks => ⟨Or.inr asks.1, asks.2⟩, fun asks => ⟨asks.1.resolve_left fun atKey => ?_, asks.2⟩⟩
      obtain ⟨info, present, id, sec⟩ := asks.2
      obtain ⟨found, record, unnamed⟩ := wf.record_home present
      subst unnamed
      rw [atKey] at record
      rw [ultimateAt_record record id sec] at ultimate
      cases ultimate
    | some info =>
      have more : r.pages db (key :: keys) = keyArgument key :: r.pages db keys := by simp [pages, ultimate]
      obtain ⟨ref, asks, atHome, name⟩ := ultimateAt_entry wf settled ultimate
      refine ⟨ref :: refs, List.nodup_cons.mpr ⟨fun old => new ?_, distinct⟩, fun other => ?_, ?_⟩
      · rw [← atHome]
        exact ((members ref).mp old).1
      · rw [List.mem_cons, members, List.mem_cons]
        refine ⟨?_, ?_⟩
        · rintro (same | later)
          · rw [same]
            exact ⟨Or.inl atHome, asks⟩
          · exact ⟨Or.inr later.1, later.2⟩
        · rintro ⟨here | later, asks'⟩
          -- two pairs with one home are one
          · obtain ⟨_, present, _⟩ := asks
            obtain ⟨_, present', _⟩ := asks'
            exact Or.inl (wf.home_inj present' present (here.trans atHome.symm))
          · exact Or.inr ⟨later, asks'⟩
      · rw [more, List.map_cons, List.map_cons, name, names]

/-- `parse_for_sec` passes every ultimate page of the section to man once, in commands that keep within the limits and
are as long as these allow, up to the first command that fails. -/
theorem parseForSec_passes (r : CatmanRequest) (wf : WellFormed loc db) (settled : loc.Settled) :
    ∃ (refs : List NameExt) (batches : List (List Bytes)), refs.Nodup ∧ (∀ ref, ref ∈ refs ↔ r.Asks loc db ref) ∧
      batches.flatten.map loc.lower = refs.map (fun ref => loc.lower ref.name) ∧
      (∀ batch ∈ batches, r.Fits batch) ∧ (∀ batch ∈ batches.dropLast, r.full batch = true) ∧
      r.Runs batches (r.parseForSec db) := by
  obtain ⟨refs, distinct, members, names⟩ := pages_refs (r := r) wf settled (Std.ExtTreeMap.nodup_keys (t := db))
  refine ⟨refs, _, distinct, fun ref => ?_, ?_, fun _ => batches_fit, fun _ => Batches.batches_full,
    r.parseForSec_runs wf⟩
  · rw [members]
    exact ⟨And.right, fun asks => ⟨wf.home_mem_keys asks.choose_spec.1, asks⟩⟩
  · rw [Batches.batches_flatten, names]

/-- A `man` that never fails, called without a locale for section 1. -/
def sampleCatman : CatmanRequest where
  man := ascii "man"
  argMax := 4096
  nameMax := 255
  locale := none
  manpath := ascii "/usr/share/man"
  section_ := ascii "1"
  status _ := 0

theorem parseForSec_passes_sample : WellFormed .posix fileUtilities ∧ Locale.posix.Settled ∧
    ∃ (refs : List NameExt) (batches : List (List Bytes)), refs.Nodup ∧
      (∀ ref, ref ∈ refs ↔ sampleCatman.Asks .posix fileUtilities ref) ∧
      batches.flatten.map Locale.posix.lower = refs.map (fun ref => Locale.posix.lower ref.name) ∧
      (∀ batch ∈ batches, sampleCatman.Fits batch) ∧ (∀ batch ∈ batches.dropLast, sampleCatman.full batch = true) ∧
      sampleCatman.Runs batches (sampleCatman.parseForSec fileUtilities) :=
  ⟨fileUtilities_displayable.wf, posix_settled,
    parseForSec_passes sampleCatman fileUtilities_displayable.wf posix_settled⟩

example : sampleCatman.parseForSec fileUtilities =
    .ok [["man", "-caM", "/usr/share/man", "-S", "1", "cp", "ls"].map ascii] := by decide +kernel

end CatmanRequest

end ManDb
