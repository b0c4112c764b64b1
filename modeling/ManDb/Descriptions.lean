import Mathlib.Data.List.DropRight
import ManDb.References

namespace ManDb

/-- The byte between two records of a description. -/
def recordSep : UInt8 := 0x11

/-- What stands between the names of a record and their description. -/
def dashSep : Bytes := [space, dash, space]

/-- A copy with leading and trailing spaces removed. -/
def trimSpaces (s : Bytes) : Bytes := (s.dropWhile (· == space)).rdropWhile (· == space)

/-- The tokens `strtok` finds one after the other. -/
def strtok (delim : UInt8) (s : Bytes) : List Bytes := (s.splitOn delim).filter (· ≠ [])

/-- `descs` and `seen_base`. -/
structure Parsed where
  descs : List PageDescription
  seenBase : Bool

/-- One turn of the loop over the names of a record. Names with white space are
almost never useful as manual page names. -/
def addName (base : Option Bytes) (whatis : Option Bytes) (s : Parsed) (token : Bytes) : Parsed :=
  let name := trimSpaces token
  if name.any (fun b => b == space || b == tab) then s
  else ⟨s.descs ++ [⟨name, whatis⟩], s.seenBase || base == some name⟩

/-- A record is split into its names and their description. Without a description it
counts only if nothing was found before it. -/
def addRecord (base : Option Bytes) (s : Parsed) (record : Bytes) : Parsed :=
  match Separated.cutAt dashSep record with
  | some (names, whatis) => (strtok comma names).foldl (addName base (some (trimSpaces whatis))) s
  | none => if s.descs = [] then (strtok comma record).foldl (addName base none) s else s

/-- The loop over the records: `sep` is what is left of the text. -/
def parseRecords (base : Option Bytes) (sep : Bytes) (s : Parsed) : Parsed :=
  match _cut : Separated.cut recordSep (sep.dropWhile fun b => b == recordSep || b == space) with
  | ([], _) => s
  | (record, none) => addRecord base s record
  | (record, some nextsep) => parseRecords base nextsep (addRecord base s record)
termination_by sep.length
decreasing_by
  have shorter := Separated.length_cut_lt (congrArg Prod.snd _cut)
  exact Nat.lt_of_lt_of_le shorter (List.dropWhile_suffix _).length_le

/-- The descriptions of a page, with its base name added if it is not among them. A
null pointer is `none`. -/
def parseDescriptions (base whatis : Option Bytes) : List PageDescription :=
  match whatis with
  | none => []
  | some whatis =>
    let s := parseRecords base whatis ⟨[], false⟩
    match base with
    | none => s.descs
    | some base => if s.seenBase then s.descs else s.descs ++ [⟨base, s.descs.head?.bind (·.whatis)⟩]

/-- The records of a text: what stands between two separators, without the spaces
before it. -/
def records (whatis : Bytes) : List Bytes :=
  ((whatis.splitOn recordSep).map (·.dropWhile (· == space))).filter (· ≠ [])

/-- The names in a list with commas: those with no white space inside. -/
def namesOf (names : Bytes) : List Bytes :=
  ((names.splitOn comma).map trimSpaces).filter fun name => name ≠ [] ∧ space ∉ name ∧ tab ∉ name

/-- What a record adds to the descriptions before it. -/
def withRecord (descs : List PageDescription) (record : Bytes) : List PageDescription :=
  match Separated.cutAt dashSep record with
  | some (names, whatis) => descs ++ (namesOf names).map (⟨·, some (trimSpaces whatis)⟩)
  | none => if descs = [] then (namesOf record).map (⟨·, none⟩) else descs

/-- A page is described under its base name at least. -/
def withBase (base : Bytes) (descs : List PageDescription) : List PageDescription :=
  if base ∈ descs.map (·.name) then descs else descs ++ [⟨base, descs.head?.bind (·.whatis)⟩]

/-- What `parse_descriptions` promises of its result, and with it `store_descriptions`
of the calls it makes. -/
structure ParsedRight (base whatis : Bytes) (descs : List PageDescription) : Prop where
  names : ∀ desc ∈ descs, desc.name ≠ base → desc.name ≠ [] ∧ comma ∉ desc.name ∧ space ∉ desc.name ∧ tab ∉ desc.name
  present : base ∈ descs.map (·.name)
  records : descs = withBase base ((records whatis).foldl withRecord [])
  stored : ∀ (loc : Locale) (r : StoreRequest) (db : Store) (run : StoreRun), r.base = base →
    storeDescriptions loc r descs db = some run → ∀ call ∈ run.calls, ∀ before after,
      dbstore loc before call.2 call.1 ≠ .ok (2, after)

/-- The part of a record in which names are looked for. -/
def namesPart (record : Bytes) : Bytes := (Separated.cutAt dashSep record).elim record Prod.fst

/-- A token of spaces only. -/
def BlankToken (names : Bytes) : Prop := ∃ token ∈ names.splitOn comma, token ≠ [] ∧ ∀ b ∈ token, b = space

/-- No record that is looked at for names, either for its description or because no
record before it has a name, has a blank between two commas where a name should be. -/
def NoBlankName (whatis : Bytes) : Prop :=
  ∀ before record after, records whatis = before ++ record :: after →
    (dashSep <:+: record ∨ ∀ earlier ∈ before, namesOf (namesPart earlier) = []) → ¬BlankToken (namesPart record)

theorem records_sep (s : Bytes) : records (recordSep :: s) = records s := by
  simp [records, List.splitOn_cons_eq_if_modifyHead]

theorem records_space (s : Bytes) : records (space :: s) = records s := by
  have other : (space == recordSep) = false := by decide
  cases shape : s.splitOn recordSep with
  | nil => exact absurd shape (List.splitOn_ne_nil _ _)
  | cons first rest => simp [records, List.splitOn_cons_eq_if_modifyHead, other, shape]

theorem records_skip (s : Bytes) : records (s.dropWhile fun b => b == recordSep || b == space) = records s := by
  induction s with
  | nil => rfl
  | cons b s ih =>
    rw [List.dropWhile_cons]
    split
    · rename_i skipped
      rcases Bool.or_eq_true_iff.mp skipped with isSep | isSpace
      · rw [ih, eq_of_beq isSep, records_sep]
      · rw [ih, eq_of_beq isSpace, records_space]
    · rfl

/-- A text that starts with neither a separator nor a space starts with its first record. -/
theorem records_cut {s record : Bytes} {nextsep : Option Bytes}
    (start : ∀ b ∈ s.head?, b ≠ recordSep ∧ b ≠ space) (cut : Separated.cut recordSep s = (record, nextsep)) :
    records s = if record = [] then [] else record :: nextsep.elim [] records := by
  have whole := Separated.cut_join recordSep s
  have clean := Separated.cut_fst_clean recordSep s
  simp only [cut] at whole clean
  cases record with
  | nil =>
    cases nextsep with
    | none => simp [whole, records]
    | some rest => exact absurd rfl (start recordSep (by simp [whole])).1
  | cons b record =>
    have bare : ((b :: record).dropWhile (· == space)) = b :: record := by
      rw [List.dropWhile_cons_of_neg]
      simpa using (start b (by simp [whole])).2
    cases nextsep with
    | none =>
      simp only [Option.elim_none, List.append_nil] at whole
      simp only [records, whole, List.splitOn_eq_singleton clean, List.map_singleton, bare]
      simp
    | some rest =>
      simp only [Option.elim_some] at whole
      simp only [records, whole, List.splitOn_append_cons_self_of_not_mem clean, List.map_cons, bare]
      simp [records]

theorem skipped_start (s : Bytes) :
    ∀ b ∈ (s.dropWhile fun b => b == recordSep || b == space).head?, b ≠ recordSep ∧ b ≠ space := by
  intro b first
  have stops := List.head?_dropWhile_not (fun b => b == recordSep || b == space) s
  rw [Option.mem_def.mp first] at stops
  simpa using stops

/-- The loop takes the records one after the other. -/
theorem parseRecords_eq (base : Option Bytes) (sep : Bytes) (s : Parsed) :
    parseRecords base sep s = (records sep).foldl (addRecord base) s := by
  fun_induction parseRecords base sep s with
  | case1 sep s _ cut =>
    rw [← records_skip sep, records_cut (skipped_start sep) cut, if_pos rfl]
    rfl
  | case2 sep s record nonempty cut =>
    rw [← records_skip sep, records_cut (skipped_start sep) cut, if_neg nonempty]
    rfl
  | case3 sep s record nextsep nonempty cut ih =>
    rw [← records_skip sep, records_cut (skipped_start sep) cut, if_neg nonempty, ih]
    rfl

/-- The names the loop over a list with commas finds. -/
def foundNames (names : Bytes) : List Bytes :=
  ((strtok comma names).map trimSpaces).filter fun name => space ∉ name ∧ tab ∉ name

theorem namesOf_eq (names : Bytes) : namesOf names = (foundNames names).filter (· ≠ []) := by
  have blank : trimSpaces [] = [] := rfl
  unfold namesOf foundNames strtok
  induction names.splitOn comma with
  | nil => rfl
  | cons token tokens ih =>
    by_cases empty : token = []
    · simp_all
    · by_cases kept : space ∉ trimSpaces token ∧ tab ∉ trimSpaces token <;>
        by_cases bare : trimSpaces token = [] <;> simp_all

theorem trimSpaces_eq_nil_iff {s : Bytes} : trimSpaces s = [] ↔ ∀ b ∈ s, b = space := by
  rw [trimSpaces, List.rdropWhile_eq_nil_iff]
  constructor
  · intro spaces b member
    have dropped : s.dropWhile (· == space) = [] := by
      cases shape : s.dropWhile (· == space) with
      | nil => rfl
      | cons first rest =>
        have stops := List.head?_dropWhile_not (· == space) s
        have isSpace := spaces first (by simp [shape])
        simp_all
    simpa using List.dropWhile_eq_nil_iff.mp dropped b member
  · intro spaces b member
    simpa using spaces b ((List.dropWhile_suffix _).subset member)

theorem nil_mem_foundNames_iff {names : Bytes} : [] ∈ foundNames names ↔ BlankToken names := by
  simp only [foundNames, strtok, List.mem_filter, List.mem_map, BlankToken, ← trimSpaces_eq_nil_iff]
  simp [and_assoc]

theorem foundNames_eq {names : Bytes} (noBlank : ¬BlankToken names) : foundNames names = namesOf names := by
  rw [namesOf_eq, List.filter_eq_self.mpr]
  intro name member
  have nonempty : name ≠ [] := by
    rintro rfl
    exact noBlank (nil_mem_foundNames_iff.mp member)
  simpa using nonempty

/-- Does the loop look for names in a record? -/
def LooksAt (descs : List PageDescription) (record : Bytes) : Prop := dashSep <:+: record ∨ descs = []

/-- What a record does to the state: it adds descriptions, and the flag follows them. -/
structure Adds (base : Option Bytes) (s : Parsed) (added : List PageDescription) (s' : Parsed) : Prop where
  descs : s'.descs = s.descs ++ added
  seenBase : s'.seenBase = (s.seenBase || added.any fun desc => base == some desc.name)

theorem addName_adds (base whatis : Option Bytes) (s : Parsed) (tokens : List Bytes) :
    Adds base s (((tokens.map trimSpaces).filter fun name => space ∉ name ∧ tab ∉ name).map (⟨·, whatis⟩))
      (tokens.foldl (addName base whatis) s) := by
  induction tokens generalizing s with
  | nil => exact ⟨by simp, by simp⟩
  | cons token tokens ih =>
    rw [List.foldl_cons]
    by_cases kept : space ∉ trimSpaces token ∧ tab ∉ trimSpaces token
    · have step : addName base whatis s token =
          ⟨s.descs ++ [⟨trimSpaces token, whatis⟩], s.seenBase || base == some (trimSpaces token)⟩ := by
        rw [addName, if_neg]
        simp only [List.any_eq_true, Bool.or_eq_true, beq_iff_eq, not_exists, not_and, not_or]
        exact fun b member => ⟨fun same => kept.1 (same ▸ member), fun same => kept.2 (same ▸ member)⟩
      rw [step]
      have rest := ih ⟨s.descs ++ [⟨trimSpaces token, whatis⟩], s.seenBase || base == some (trimSpaces token)⟩
      refine ⟨rest.descs.trans ?_, rest.seenBase.trans ?_⟩ <;> simp [kept, Bool.or_assoc]
    · have step : addName base whatis s token = s := by
        rw [addName, if_pos]
        simp only [List.any_eq_true, Bool.or_eq_true, beq_iff_eq]
        by_cases isSpace : space ∈ trimSpaces token
        · exact ⟨space, isSpace, Or.inl rfl⟩
        · exact ⟨tab, by simpa [isSpace] using kept, Or.inr rfl⟩
      rw [step, List.map_cons, List.filter_cons, if_neg (by simpa using kept)]
      exact ih s

/-- The description of a record, if it has one. -/
def whatisPart (record : Bytes) : Option Bytes := (Separated.cutAt dashSep record).map fun cut => trimSpaces cut.2

theorem addRecord_adds (base : Option Bytes) (s : Parsed) {record : Bytes} (looks : LooksAt s.descs record) :
    Adds base s ((foundNames (namesPart record)).map (⟨·, whatisPart record⟩)) (addRecord base s record) := by
  unfold addRecord namesPart whatisPart
  cases cut : Separated.cutAt dashSep record with
  | some parts => exact addName_adds base _ s _
  | none =>
    have empty : s.descs = [] := looks.resolve_left (Separated.cutAt_eq_none_iff.mp cut)
    simp only [if_pos empty]
    exact addName_adds base _ s _

theorem addRecord_skips (base : Option Bytes) (s : Parsed) {record : Bytes} (skips : ¬LooksAt s.descs record) :
    addRecord base s record = s := by
  obtain ⟨noDash, nonempty⟩ := not_or.mp skips
  simp only [addRecord, Separated.cutAt_eq_none_iff.mpr noDash, if_neg nonempty]

theorem withRecord_looks {descs : List PageDescription} {record : Bytes} (looks : LooksAt descs record) :
    withRecord descs record = descs ++ (namesOf (namesPart record)).map (⟨·, whatisPart record⟩) := by
  unfold withRecord namesPart whatisPart
  cases cut : Separated.cutAt dashSep record with
  | some parts => rfl
  | none =>
    have empty : descs = [] := looks.resolve_left (Separated.cutAt_eq_none_iff.mp cut)
    simp [empty]

theorem withRecord_skips {descs : List PageDescription} {record : Bytes} (skips : ¬LooksAt descs record) :
    withRecord descs record = descs := by
  obtain ⟨noDash, nonempty⟩ := not_or.mp skips
  simp only [withRecord, Separated.cutAt_eq_none_iff.mpr noDash, if_neg nonempty]

theorem withRecord_eq_nil_iff {descs : List PageDescription} {record : Bytes} :
    withRecord descs record = [] ↔ descs = [] ∧ namesOf (namesPart record) = [] := by
  by_cases looks : LooksAt descs record
  · simp [withRecord_looks looks]
  · have nonempty : descs ≠ [] := (not_or.mp looks).2
    simp [withRecord_skips looks, nonempty]

/-- One record whose names are in order if it is looked at. -/
theorem addRecord_descs (base : Option Bytes) {s : Parsed} {record : Bytes}
    (noBlank : LooksAt s.descs record → ¬BlankToken (namesPart record)) :
    (addRecord base s record).descs = withRecord s.descs record := by
  by_cases looks : LooksAt s.descs record
  · rw [(addRecord_adds base s looks).descs, withRecord_looks looks, foundNames_eq (noBlank looks)]
  · rw [addRecord_skips base s looks, withRecord_skips looks]

/-- `NoBlankName` for the records that are left, with the descriptions found so far. -/
def NoBlankFrom (descs : List PageDescription) (left : List Bytes) : Prop :=
  ∀ before record after, left = before ++ record :: after →
    (dashSep <:+: record ∨ descs = [] ∧ ∀ earlier ∈ before, namesOf (namesPart earlier) = []) →
      ¬BlankToken (namesPart record)

theorem noBlankFrom_nil (descs : List PageDescription) : NoBlankFrom descs [] := by
  intro before record after same
  simp at same

theorem noBlankFrom_cons {descs : List PageDescription} {record : Bytes} {left : List Bytes} :
    NoBlankFrom descs (record :: left) ↔
      (LooksAt descs record → ¬BlankToken (namesPart record)) ∧ NoBlankFrom (withRecord descs record) left := by
  simp only [NoBlankFrom, withRecord_eq_nil_iff, LooksAt]
  constructor
  · intro noBlank
    refine ⟨fun looks => noBlank [] record left rfl (by simpa using looks), fun before later after same looks => ?_⟩
    refine noBlank (record :: before) later after (by simp [same]) (looks.imp id fun ⟨⟨empty, nameless⟩, rest⟩ => ?_)
    exact ⟨empty, List.forall_mem_cons.mpr ⟨nameless, rest⟩⟩
  · rintro ⟨here, rest⟩ before later after same looks
    cases before with
    | nil =>
      obtain ⟨rfl, rfl⟩ := List.cons.inj same
      exact here (by simpa using looks)
    | cons first before =>
      obtain ⟨rfl, rfl⟩ := List.cons.inj same
      refine rest before later after rfl (looks.imp id fun ⟨empty, nameless⟩ => ?_)
      obtain ⟨first, rest⟩ := List.forall_mem_cons.mp nameless
      exact ⟨⟨empty, first⟩, rest⟩

/-- As long as no blank is taken for a name, the loop does what it should. -/
theorem addRecord_run {base : Option Bytes} {left : List Bytes} {s : Parsed} (noBlank : NoBlankFrom s.descs left) :
    (left.foldl (addRecord base) s).descs = left.foldl withRecord s.descs := by
  induction left generalizing s with
  | nil => rfl
  | cons record left ih =>
    obtain ⟨here, rest⟩ := noBlankFrom_cons.mp noBlank
    have step := addRecord_descs base here
    rw [List.foldl_cons, List.foldl_cons, ← step]
    exact ih (step ▸ rest)

theorem addRecord_keeps {base : Option Bytes} (left : List Bytes) (s : Parsed) {desc : PageDescription}
    (member : desc ∈ s.descs) : desc ∈ (left.foldl (addRecord base) s).descs := by
  induction left generalizing s with
  | nil => exact member
  | cons record left ih =>
    refine ih _ ?_
    by_cases looks : LooksAt s.descs record
    · rw [(addRecord_adds base s looks).descs]
      exact List.mem_append_left _ member
    · rw [addRecord_skips base s looks]
      exact member

/-- A blank taken for a name leaves an empty name. -/
theorem addRecord_blank {base : Option Bytes} {left : List Bytes} {s : Parsed} (blank : ¬NoBlankFrom s.descs left) :
    ∃ desc ∈ (left.foldl (addRecord base) s).descs, desc.name = [] := by
  induction left generalizing s with
  | nil => exact absurd (noBlankFrom_nil _) blank
  | cons record left ih =>
    rw [List.foldl_cons]
    by_cases here : LooksAt s.descs record → ¬BlankToken (namesPart record)
    · refine ih fun rest => blank (noBlankFrom_cons.mpr ⟨here, ?_⟩)
      rwa [addRecord_descs base here] at rest
    · obtain ⟨looks, isBlank⟩ := Classical.not_imp.mp here
      refine ⟨⟨[], whatisPart record⟩, addRecord_keeps left _ ?_, rfl⟩
      rw [(addRecord_adds base s looks).descs]
      exact List.mem_append_right _ (List.mem_map.mpr ⟨[], nil_mem_foundNames_iff.mpr (not_not.mp isBlank), rfl⟩)

theorem addRecord_seen {base : Bytes} (left : List Bytes) {s : Parsed}
    (seen : s.seenBase = true ↔ base ∈ s.descs.map (·.name)) :
    (left.foldl (addRecord (some base)) s).seenBase = true ↔
      base ∈ (left.foldl (addRecord (some base)) s).descs.map (·.name) := by
  induction left generalizing s with
  | nil => exact seen
  | cons record left ih =>
    refine ih ?_
    by_cases looks : LooksAt s.descs record
    · have adds := addRecord_adds (some base) s looks
      rw [adds.seenBase, adds.descs, List.map_append, List.mem_append, Bool.or_eq_true, seen]
      simp only [List.any_eq_true, List.mem_map, beq_iff_eq, Option.some.injEq, @eq_comm _ base]
    · rw [addRecord_skips _ s looks]
      exact seen

theorem parseDescriptions_eq (base whatis : Bytes) :
    parseDescriptions (some base) (some whatis) =
      withBase base ((records whatis).foldl (addRecord (some base)) ⟨[], false⟩).descs := by
  have seen := @addRecord_seen base (records whatis) ⟨[], false⟩ (by simp)
  simp only [parseDescriptions, parseRecords_eq, withBase, seen]

theorem mem_withBase {base : Bytes} {descs : List PageDescription} {desc : PageDescription} :
    desc ∈ withBase base descs → desc ∈ descs ∨ desc.name = base := by
  unfold withBase
  split
  · exact Or.inl
  · intro member
    rcases List.mem_append.mp member with old | new
    · exact Or.inl old
    · exact Or.inr (by rw [List.mem_singleton.mp new])

theorem base_mem_withBase (base : Bytes) (descs : List PageDescription) :
    base ∈ (withBase base descs).map (·.name) := by
  unfold withBase
  split
  · assumption
  · simp

theorem subset_withBase (base : Bytes) (descs : List PageDescription) : descs ⊆ withBase base descs := by
  unfold withBase
  split
  · exact List.Subset.refl _
  · exact List.subset_append_left _ _

theorem trimSpaces_sublist (s : Bytes) : (trimSpaces s).Sublist s :=
  (List.rdropWhile_prefix _ _).sublist.trans (List.dropWhile_suffix _).sublist

theorem namesOf_proper {names name : Bytes} (member : name ∈ namesOf names) :
    name ≠ [] ∧ comma ∉ name ∧ space ∉ name ∧ tab ∉ name := by
  obtain ⟨found, proper⟩ := List.mem_filter.mp member
  obtain ⟨token, isToken, rfl⟩ := List.mem_map.mp found
  obtain ⟨nonempty, noSpace, noTab⟩ := of_decide_eq_true proper
  exact ⟨nonempty, fun inside => Separated.not_mem_of_mem_splitOn isToken ((trimSpaces_sublist token).subset inside),
    noSpace, noTab⟩

theorem withRecord_proper (left : List Bytes) {descs : List PageDescription}
    (proper : ∀ desc ∈ descs, desc.name ≠ [] ∧ comma ∉ desc.name ∧ space ∉ desc.name ∧ tab ∉ desc.name) :
    ∀ desc ∈ left.foldl withRecord descs,
      desc.name ≠ [] ∧ comma ∉ desc.name ∧ space ∉ desc.name ∧ tab ∉ desc.name := by
  induction left generalizing descs with
  | nil => exact proper
  | cons record left ih =>
    refine ih fun desc member => ?_
    by_cases looks : LooksAt descs record
    · rw [withRecord_looks looks] at member
      rcases List.mem_append.mp member with old | new
      · exact proper desc old
      · obtain ⟨name, found, rfl⟩ := List.mem_map.mp new
        exact namesOf_proper found
    · rw [withRecord_skips looks] at member
      exact proper desc member

theorem replaceIfNecessary_code (db : Store) (newdata olddata : Mandata) (newkey newcont : Bytes) :
    (replaceIfNecessary db newdata olddata newkey newcont).1 ≤ 1 := by
  unfold replaceIfNecessary
  split <;> simp

/-- `dbstore` gives the code 2 for an empty name, and for nothing else. -/
theorem dbstore_refuses {loc : Locale} {db db' : Store} {data : Mandata} {base : Bytes}
    (refused : dbstore loc db data base = .ok (2, db')) : base = [] := by
  by_contra nonempty
  simp only [dbstore, if_neg nonempty] at refused
  split at refused
  · cases refused
  · split at refused
    · unfold dbstoreIndexed at refused
      dsimp only at refused
      split at refused
      · cases read : splitContent ((db.fetch (makeMultiKey base data.ext)).getD []) with
        | error fatal => simp [read, bind, Except.bind] at refused
        | ok info =>
          simp only [read, bind, Except.bind, pure, Except.pure, Except.ok.injEq] at refused
          have code := replaceIfNecessary_code db
          grind
      · cases refused
    · rename_i oldcont atKey single
      unfold dbstoreSingular at refused
      cases read : splitContent oldcont with
      | error fatal => simp [read, bind, Except.bind] at refused
      | ok old =>
        simp only [read, bind, Except.bind, pure, Except.pure] at refused
        split at refused
        · have code := replaceIfNecessary_code db
          grind
        · have code := replaceIfNecessary_code
          grind

theorem dbstore_nil (loc : Locale) (db : Store) (data : Mandata) : dbstore loc db data [] = .ok (2, db) := by
  simp [dbstore]

theorem describe_reference_name {r : StoreRequest} {desc : PageDescription} {entry : Mandata}
    (reference : r.describe desc = .reference entry) : entry.name = some desc.name := by
  unfold StoreRequest.describe at reference
  split at reference
  · cases reference
  · split at reference
    · cases reference
    · cases reference
    · rw [← Described.reference.inj reference]

/-- `dbstore` is called with the names of the descriptions only. -/
theorem storeDescriptions_names {loc : Locale} {r : StoreRequest} {descs : List PageDescription} {db : Store}
    {run : StoreRun} (returns : storeDescriptions loc r descs db = some run) :
    ∀ call ∈ run.calls, ∃ desc ∈ descs, call.1 = desc.name := by
  have reals : ∀ call ∈ r.realEntries descs, ∃ desc ∈ descs, call.1 = desc.name := by
    intro call member
    obtain ⟨desc, inDescs, real⟩ := List.mem_filterMap.mp member
    split at real
    · exact ⟨desc, inDescs, by rw [← Option.some.inj real]⟩
    · cases real
  have looped := @storeDescriptionTurn_looped loc r descs [] db []
  unfold storeDescriptions at returns
  split at returns
  · cases returns
  dsimp only at returns
  have first : ∀ call ∈ (descs.foldl (storeDescriptionTurn loc r) (⟨[], .ok db, false⟩, [])).1.calls,
      ∃ desc ∈ descs, call.1 = desc.name :=
    fun call member => reals call ((looped.calls call member).resolve_left (List.not_mem_nil))
  split at returns
  · rw [← Option.some.inj returns]
    exact first
  · rename_i going
    obtain ⟨pointerInfo, _, rfl⟩ := Option.map_eq_some_iff.mp returns
    have taken : accepts loc db (r.realEntries descs) = true := by
      by_contra refused
      exact going (looped.refused (by simpa using refused))
    intro call member
    rcases storeReference_sub pointerInfo _ _ call member with old | ⟨entry, kept, rfl⟩
    · exact first call old
    · rw [(looped.taken taken).2.2, List.nil_append] at kept
      obtain ⟨desc, inDescs, reference⟩ := List.mem_filterMap.mp kept
      split at reference
      · rename_i entry' described
        rw [Option.some.inj reference] at described
        exact ⟨desc, inDescs, by simp [pointed, describe_reference_name described]⟩
      · cases reference

/-- A page without a name, in a file from which no name can be read. -/
def namelessPage : StoreRequest where
  host := ⟨[], fun _ => none, fun _ => false⟩
  info :=
    { name := none, ext := ascii "1", sec := ascii "1", id := ultMan, pointer := none, comp := none, filter := none
      whatis := none, mtime := ⟨0, 0⟩ }
  path := none
  base := []
  trace := [[]]

theorem namelessPage_describe (desc : PageDescription) :
    (desc.name = [] → ∃ entry, namelessPage.describe desc = .real entry) ∧
      (desc.name ≠ [] → ∃ entry, namelessPage.describe desc = .reference entry) := by
  have unread : namelessPage.traceInfo [] = none := rfl
  constructor
  · intro empty
    exact ⟨_, if_pos empty.symm⟩
  · intro named
    have search : namelessPage.findRealPage desc.name namelessPage.trace (namelessPage.entryFor desc) false =
        some (namelessPage.entryFor desc, false) := by
      change namelessPage.findRealPage desc.name [[]] _ _ = _
      simp only [StoreRequest.findRealPage, unread]
    have other : namelessPage.base ≠ desc.name := Ne.symm named
    exact ⟨_, by rw [StoreRequest.describe, if_neg other, search]⟩

/-- The loop gets to the description without a name, and is stopped there. -/
theorem namelessPage_refused (loc : Locale) {descs : List PageDescription} (empty : [] ∈ descs.map (·.name)) :
    ∃ run, storeDescriptions loc namelessPage descs ∅ = some run ∧ ∃ call ∈ run.calls, call.1 = [] := by
  have loop : ∀ whatisInfos, ∃ entry infos, descs.foldl (storeDescriptionTurn loc namelessPage)
      (⟨[], .ok ∅, false⟩, whatisInfos) = (⟨[([], entry)], .ok ∅, true⟩, infos) := by
    induction descs with
    | nil => simp at empty
    | cons desc descs ih =>
      intro whatisInfos
      obtain ⟨whenEmpty, whenNamed⟩ := namelessPage_describe desc
      rw [List.foldl_cons]
      by_cases named : desc.name = []
      · obtain ⟨entry, real⟩ := whenEmpty named
        refine ⟨entry, whatisInfos, ?_⟩
        have step : storeDescriptionTurn loc namelessPage (⟨[], .ok ∅, false⟩, whatisInfos) desc =
            (⟨[([], entry)], .ok ∅, true⟩, whatisInfos) := by
          simp [storeDescriptionTurn, real, named, StoreRun.store, dbstore_nil]
        rw [step, storeDescriptionTurn_stopped rfl]
      · obtain ⟨entry, reference⟩ := whenNamed named
        have step : storeDescriptionTurn loc namelessPage (⟨[], .ok ∅, false⟩, whatisInfos) desc =
            (⟨[], .ok ∅, false⟩, whatisInfos ++ [entry]) := by
          simp [storeDescriptionTurn, reference]
        rw [step]
        exact ih (by simpa [Ne.symm named] using empty) _
  obtain ⟨entry, infos, ends⟩ := loop []
  have started : namelessPage.trace ≠ [] := by simp [namelessPage]
  exact ⟨⟨[([], entry)], .ok ∅, true⟩, by simp [storeDescriptions, started, ends], _, List.mem_singleton.mpr rfl, rfl⟩

/-- Descriptions are parsed as they should be if and only if the page has a name and
no blank stands where a name should be. -/
theorem parseDescriptions_right_iff (base whatis : Bytes) :
    ParsedRight base whatis (parseDescriptions (some base) (some whatis)) ↔ base ≠ [] ∧ NoBlankName whatis := by
  have fromStart : NoBlankFrom [] (records whatis) ↔ NoBlankName whatis := by simp [NoBlankFrom, NoBlankName]
  rw [parseDescriptions_eq, ← fromStart]
  constructor
  · intro right
    have named : base ≠ [] := by
      rintro rfl
      obtain ⟨run, returns, call, made, empty⟩ := namelessPage_refused .posix right.present
      exact right.stored .posix namelessPage ∅ run rfl returns call made ∅ ∅ (by rw [empty, dbstore_nil])
    refine ⟨named, ?_⟩
    by_contra blank
    obtain ⟨desc, member, empty⟩ := @addRecord_blank (some base) _ ⟨[], false⟩ blank
    exact (right.names desc (subset_withBase _ _ member) (by rw [empty]; exact named.symm)).1 empty
  · rintro ⟨named, noBlank⟩
    have run := @addRecord_run (some base) _ ⟨[], false⟩ noBlank
    have proper := @withRecord_proper (records whatis) [] (by simp)
    rw [run]
    refine ⟨fun desc member other => ?_, base_mem_withBase _ _, rfl, ?_⟩
    · exact proper desc ((mem_withBase member).resolve_right other)
    · intro loc r db run _ returns call made before after refused
      obtain ⟨desc, member, same⟩ := storeDescriptions_names returns call made
      have empty := same.symm.trans (dbstore_refuses refused)
      rcases mem_withBase member with parsed | isBase
      · exact (proper desc parsed).1 empty
      · exact named (isBase.symm.trans empty)

/-- In "foo, , bar - d" the blank between the commas becomes a name. -/
theorem parseDescriptions_empty_name :
    ¬∀ base whatis, ParsedRight base whatis (parseDescriptions (some base) (some whatis)) := by
  intro right
  have named := (right (ascii "foo") (ascii "foo, , bar - d")).names ⟨[], some (ascii "d")⟩
  rw [parseDescriptions_eq] at named
  exact (named (by decide +kernel) (by decide)).1 rfl

end ManDb
