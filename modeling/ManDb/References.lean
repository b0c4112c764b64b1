import ManDb.DescriptionsStore

namespace ManDb

/-- A file of the trace that lies in the hierarchy and has this name, section and
extension. -/
def StoreRequest.InTrace (r : StoreRequest) (path name sec ext : Bytes) : Prop :=
  ∃ file ∈ r.trace, isPrefix path file = true ∧
    ∃ info, r.traceInfo file = some info ∧ info.name = some name ∧ info.sec = sec ∧ info.ext = ext

/-- A call as `test_manfile` makes it, for a page of the hierarchy. -/
structure StoreRequest.Starts (r : StoreRequest) (path : Bytes) : Prop where
  given : r.path = some path
  id : r.info.id = ultMan ∨ r.info.id = soMan
  first : ∃ start rest info, r.trace = start :: rest ∧ isPrefix path start = true ∧ r.traceInfo start = some info ∧
    info.name = some r.base ∧ info.sec = r.info.sec ∧ info.ext = r.info.ext

/-- An entry that man can open: a reference to a page of the hierarchy, or such a
page itself. -/
structure FollowableEntry (r : StoreRequest) (path : Bytes) (call : Bytes × Mandata) : Prop where
  reference : call.2.id = whatisMan → ∃ pointer, call.2.pointer = some pointer ∧
    r.InTrace path pointer call.2.sec call.2.ext ∧
    makeFilename r.host.canAccess path pointer call.2 (ascii "man") ≠ none
  real : call.2.id = ultMan ∨ call.2.id = soMan → r.InTrace path call.1 call.2.sec call.2.ext

/-- Every entry it stores can be followed. -/
def StoresFollowable (loc : Locale) (r : StoreRequest) (path : Bytes) (descs : List PageDescription)
    (db : Store) : Prop :=
  ∃ run, storeDescriptions loc r descs db = some run ∧ ∀ call ∈ run.calls, FollowableEntry r path call

/-- No file of the trace has the name of the description. -/
def StoreRequest.IsReference (r : StoreRequest) (desc : PageDescription) : Prop :=
  r.base ≠ desc.name ∧ ∀ file ∈ r.trace, ∀ info, r.traceInfo file = some info → info.name ≠ some desc.name

/-- The entries of the descriptions that are real pages. -/
def StoreRequest.realEntries (r : StoreRequest) (descs : List PageDescription) : List (Bytes × Mandata) :=
  descs.filterMap fun desc =>
    match r.describe desc with
    | .real entry => some (desc.name, entry)
    | _ => none

/-- The database takes the entries, one after the other. -/
def accepts (loc : Locale) : Store → List (Bytes × Mandata) → Bool
  | _, [] => true
  | db, (name, entry) :: rest =>
    match dbstore loc db entry name with
    | .ok (0, db') => accepts loc db' rest
    | _ => false

variable {loc : Locale} {r : StoreRequest} {path name : Bytes} {descs : List PageDescription} {desc : PageDescription}
  {db : Store} {entry : Mandata}

theorem StoreRequest.Starts.base (starts : r.Starts path) : r.InTrace path r.base r.info.sec r.info.ext := by
  obtain ⟨start, rest, info, trace, inside, parsed, name, sec, ext⟩ := starts.first
  exact ⟨start, by simp [trace], inside, info, parsed, name, sec, ext⟩

/-- What the search for the real page of a description leaves behind. -/
inductive Found (r : StoreRequest) (path name : Bytes) (files : List Bytes) (entry : Mandata) (found : Bool) :
    Option (Mandata × Bool) → Prop
  | external (outside : ∃ file ∈ files, ∃ info, r.traceInfo file = some info ∧ info.name = some name) :
      Found r path name files entry found none
  | missing (none : ∀ file ∈ files, ∀ info, r.traceInfo file = some info → info.name ≠ some name) :
      Found r path name files entry found (some (entry, found))
  | real (real : Mandata) (id : real.id = entry.id ∨ real.id = ultMan ∨ real.id = soMan)
      (inside : ∃ file ∈ files, isPrefix path file = true ∧
        ∃ info, r.traceInfo file = some info ∧ info.name = some name ∧ info.sec = real.sec ∧ info.ext = real.ext) :
      Found r path name files entry found (some (real, true))

theorem realEntry_id (r : StoreRequest) (entry : Mandata) (file : Bytes) (info : Mandata) (isLast : Bool) :
    (r.realEntry entry file info isLast).id = entry.id ∨ (r.realEntry entry file info isLast).id = ultMan ∨
      (r.realEntry entry file info isLast).id = soMan := by
  unfold StoreRequest.realEntry
  dsimp only
  split <;> split
  · exact Or.inr (Or.inl rfl)
  · exact Or.inl rfl
  · exact Or.inr (Or.inr rfl)
  · exact Or.inl rfl

/-- A file that does not name the page changes nothing. -/
theorem Found.skip {file : Bytes} {files : List Bytes} {found : Bool} {result : Option (Mandata × Bool)}
    (after : Found r path name files entry found result)
    (other : ∀ info, r.traceInfo file = some info → info.name ≠ some name) :
    Found r path name (file :: files) entry found result := by
  cases after with
  | external outside =>
    obtain ⟨later, member, match_⟩ := outside
    exact .external ⟨later, List.mem_cons_of_mem _ member, match_⟩
  | missing none =>
    refine .missing fun later member => ?_
    rcases List.mem_cons.mp member with rfl | after
    · exact other
    · exact none later after
  | real real id inside =>
    obtain ⟨later, member, match_⟩ := inside
    exact .real real id ⟨later, List.mem_cons_of_mem _ member, match_⟩

/-- A file within the hierarchy that names the page is taken, unless a later one is. -/
theorem Found.take {file : Bytes} {files : List Bytes} {found : Bool} {result : Option (Mandata × Bool)}
    {info : Mandata} {isLast : Bool}
    (after : Found r path name files (r.realEntry entry file info isLast) true result)
    (parsed : r.traceInfo file = some info) (named : info.name = some name) (inside : isPrefix path file = true) :
    Found r path name (file :: files) entry found result := by
  have own := realEntry_id r entry file info isLast
  cases after with
  | external outside =>
    obtain ⟨later, member, match_⟩ := outside
    exact .external ⟨later, List.mem_cons_of_mem _ member, match_⟩
  | missing none => exact .real _ own ⟨file, List.mem_cons_self .., inside, info, parsed, named, rfl, rfl⟩
  | real real id inside =>
    obtain ⟨later, member, match_⟩ := inside
    refine .real real ?_ ⟨later, List.mem_cons_of_mem _ member, match_⟩
    rcases id with same | other
    · exact same ▸ own
    · exact Or.inr other

theorem findRealPage_found (given : r.path = some path) (files : List Bytes) (entry : Mandata) (found : Bool) :
    Found r path name files entry found (r.findRealPage name files entry found) := by
  induction files generalizing entry found with
  | nil => exact .missing (by simp)
  | cons file rest ih =>
    cases parsed : r.traceInfo file with
    | none =>
      simp only [StoreRequest.findRealPage, parsed]
      exact (ih entry found).skip (by simp [parsed])
    | some info =>
      by_cases named : info.name = some name
      · cases inside : isPrefix path file with
        | false =>
          simp only [StoreRequest.findRealPage, parsed, named, given, inside, ne_eq, not_true_eq_false, if_false,
            Option.any_some, Bool.not_false, if_true]
          exact .external ⟨file, List.mem_cons_self .., info, parsed, named⟩
        | true =>
          simp only [StoreRequest.findRealPage, parsed, named, given, inside, ne_eq, not_true_eq_false, if_false,
            Option.any_some, Bool.not_true, Bool.false_eq_true]
          exact (ih _ true).take parsed named inside
      · simp only [StoreRequest.findRealPage, parsed, named, ne_eq, not_false_eq_true, if_true]
        exact (ih entry found).skip (by simpa [parsed] using named)

theorem strayCat_gt (starts : r.Starts path) : r.info.id < strayCat := by
  rcases starts.id with same | same <;> rw [same] <;> decide

/-- A description that is kept as a reference names no file of the trace. -/
theorem describe_reference_iff (starts : r.Starts path) :
    (∃ entry, r.describe desc = .reference entry) ↔ r.IsReference desc := by
  unfold StoreRequest.describe StoreRequest.IsReference
  by_cases own : r.base = desc.name
  · simp [own]
  · have found := @findRealPage_found r path desc.name starts.given r.trace (r.entryFor desc) false
    rw [if_neg own, and_iff_right own]
    generalize r.findRealPage desc.name r.trace (r.entryFor desc) false = result at found
    cases found with
    | external outside =>
      obtain ⟨file, member, info, parsed, named⟩ := outside
      refine iff_of_false ?_ fun none => none file member info parsed named
      rintro ⟨_, kept⟩
      cases kept
    | missing none => exact iff_of_true ⟨_, rfl⟩ none
    | real real id inside =>
      obtain ⟨file, member, _, info, parsed, named, _⟩ := inside
      refine iff_of_false ?_ fun none => none file member info parsed named
      rintro ⟨_, kept⟩
      cases kept

theorem describe_reference (starts : r.Starts path) (kept : r.describe desc = .reference entry) :
    entry = { r.entryFor desc with name := some desc.name, id := whatisMan, whatis := none } := by
  unfold StoreRequest.describe at kept
  split at kept
  · cases kept
  · have found := @findRealPage_found r path desc.name starts.given r.trace (r.entryFor desc) false
    generalize r.findRealPage desc.name r.trace (r.entryFor desc) false = result at found kept
    cases found with
    | external outside => cases kept
    | missing none =>
      rw [if_pos (strayCat_gt starts)] at kept
      exact (Described.reference.inj kept).symm
    | real real id inside => cases kept

/-- Every real page has its own entry or that of a file of its name in the trace. -/
theorem describe_real (starts : r.Starts path) (real : r.describe desc = .real entry) :
    FollowableEntry r path (desc.name, entry) := by
  suffices both : (entry.id = ultMan ∨ entry.id = soMan) ∧ r.InTrace path desc.name entry.sec entry.ext by
    refine ⟨fun whatis => ?_, fun _ => both.2⟩
    rcases both.1 with same | same
    · exact absurd (same.symm.trans whatis) (by decide)
    · exact absurd (same.symm.trans whatis) (by decide)
  unfold StoreRequest.describe at real
  split at real
  · rename_i own
    cases real
    exact ⟨starts.id, own ▸ starts.base⟩
  · have found := @findRealPage_found r path desc.name starts.given r.trace (r.entryFor desc) false
    generalize r.findRealPage desc.name r.trace (r.entryFor desc) false = result at found real
    cases found with
    | external outside => cases real
    | missing none => cases real
    | real page id inside =>
      cases real
      refine ⟨?_, inside⟩
      rcases id with same | other
      · exact same ▸ starts.id
      · exact other

theorem pointerInfo_named (starts : r.Starts path) : ∃ info pointer, r.pointerInfo = some info ∧
    info.name = some pointer := by
  obtain ⟨start, rest, first, trace, _, parsed, name, sec, ext⟩ := starts.first
  unfold StoreRequest.pointerInfo
  rw [trace, List.foldl_cons, parsed]
  simp only [sec, ext, and_self, if_true]
  have named : ∃ pointer, first.name = some pointer := ⟨_, name⟩
  clear trace parsed name sec ext
  induction rest generalizing first with
  | nil => exact ⟨first, named.choose, rfl, named.choose_spec⟩
  | cons file rest ih =>
    rw [List.foldl_cons]
    cases parsed : r.traceInfo file with
    | none => exact ih first named
    | some info =>
      by_cases same : info.sec = r.info.sec ∧ info.ext = r.info.ext
      · simp only [if_pos same]
        exact ih info (filenameInfo_named parsed)
      · simp only [if_neg same]
        exact ih first named

theorem StoreRun.store_calls {run : StoreRun} (going : run.stopped = false) (open_ : run.db = .ok db) :
    (run.store loc name entry).calls = run.calls ++ [(name, entry)] := by
  unfold StoreRun.store
  rw [going, open_]
  dsimp only
  split <;> rfl

theorem StoreRun.store_sub (run : StoreRun) {call : Bytes × Mandata}
    (member : call ∈ (run.store loc name entry).calls) :
    call ∈ run.calls ∨ call = (name, entry) := by
  unfold StoreRun.store at member
  split at member
  · split at member
    · simpa using member
    · simpa using member
  · exact Or.inl member

/-- The references a list of descriptions leads to. -/
def StoreRequest.references (r : StoreRequest) (descs : List PageDescription) : List Mandata :=
  descs.filterMap fun desc =>
    match r.describe desc with
    | .reference entry => some entry
    | _ => none

theorem storeDescriptionTurn_stopped {run : StoreRun} (stopped : run.stopped = true) (whatisInfos : List Mandata) :
    descs.foldl (storeDescriptionTurn loc r) (run, whatisInfos) = (run, whatisInfos) := by
  induction descs with
  | nil => rfl
  | cons desc descs ih => rw [List.foldl_cons, storeDescriptionTurn, if_pos stopped, ih]

/-- The loop over the descriptions stores the real pages as far as the database
takes them, and keeps the references. -/
structure Looped (loc : Locale) (reals : List (Bytes × Mandata)) (references : List Mandata)
    (calls : List (Bytes × Mandata)) (db : Store) (whatisInfos : List Mandata) (s : StoreRun × List Mandata) :
      Prop where
  calls : ∀ call ∈ s.1.calls, call ∈ calls ∨ call ∈ reals
  taken : accepts loc db reals = true →
    s.1.stopped = false ∧ (∃ db', s.1.db = .ok db') ∧ s.2 = whatisInfos ++ references
  refused : accepts loc db reals = false → s.1.stopped = true

/-- The loop ends at an entry that the database does not take. -/
theorem Looped.ended {reals : List (Bytes × Mandata)} {references whatisInfos : List Mandata}
    {calls : List (Bytes × Mandata)} {run : StoreRun} (grown : ∀ call ∈ run.calls, call ∈ calls ∨ call ∈ reals)
    (refuses : accepts loc db reals = false) (stopped : run.stopped = true) :
    Looped loc reals references calls db whatisInfos (descs.foldl (storeDescriptionTurn loc r)
      (run, whatisInfos)) := by
  rw [storeDescriptionTurn_stopped stopped]
  exact ⟨grown, fun yes => absurd (refuses.symm.trans yes) (by decide), fun _ => stopped⟩

/-- The turn of a real page, if the turns after it are as they should be. -/
theorem Looped.real {reals : List (Bytes × Mandata)} {references whatisInfos : List Mandata}
    {calls : List (Bytes × Mandata)}
    (later : ∀ db', Looped loc reals references (calls ++ [(name, entry)]) db' whatisInfos
      (descs.foldl (storeDescriptionTurn loc r) (⟨calls ++ [(name, entry)], .ok db', false⟩, whatisInfos))) :
    Looped loc ((name, entry) :: reals) references calls db whatisInfos
      (descs.foldl (storeDescriptionTurn loc r)
        ((⟨calls, .ok db, false⟩ : StoreRun).store loc name entry, whatisInfos)) := by
  have grown : ∀ call ∈ calls ++ [(name, entry)], call ∈ calls ∨ call ∈ (name, entry) :: reals := by
    intro call member
    rcases List.mem_append.mp member with old | new
    · exact Or.inl old
    · exact Or.inr (List.mem_cons.mpr (Or.inl (List.mem_singleton.mp new)))
  match stored : dbstore loc db entry name with
  | .ok (0, db') =>
    have onward : accepts loc db ((name, entry) :: reals) = accepts loc db' reals := by
      simp [accepts, stored]
    have step : (⟨calls, .ok db, false⟩ : StoreRun).store loc name entry =
        ⟨calls ++ [(name, entry)], .ok db', false⟩ := by
      simp [StoreRun.store, stored]
    have rest := later db'
    rw [step]
    refine ⟨fun call member => ?_, onward ▸ rest.taken, onward ▸ rest.refused⟩
    rcases rest.calls call member with old | new
    · exact grown call old
    · exact Or.inr (List.mem_cons_of_mem _ new)
  | .ok (code + 1, db') =>
    have step : (⟨calls, .ok db, false⟩ : StoreRun).store loc name entry =
        ⟨calls ++ [(name, entry)], .ok db', true⟩ := by
      simp [StoreRun.store, stored]
    rw [step]
    exact .ended grown (by simp [accepts, stored]) rfl
  | .error fatal =>
    have step : (⟨calls, .ok db, false⟩ : StoreRun).store loc name entry =
        ⟨calls ++ [(name, entry)], .error fatal, true⟩ := by
      simp [StoreRun.store, stored]
    rw [step]
    exact .ended grown (by simp [accepts, stored]) rfl

theorem storeDescriptionTurn_looped (calls : List (Bytes × Mandata)) (db : Store) (whatisInfos : List Mandata) :
    Looped loc (r.realEntries descs) (r.references descs) calls db whatisInfos
      (descs.foldl (storeDescriptionTurn loc r) (⟨calls, .ok db, false⟩, whatisInfos)) := by
  induction descs generalizing calls db whatisInfos with
  | nil =>
    refine ⟨fun call member => Or.inl member, fun _ => ⟨rfl, ⟨db, rfl⟩, (List.append_nil _).symm⟩, fun refused => ?_⟩
    exact absurd refused (by simp [accepts, StoreRequest.realEntries])
  | cons desc descs ih =>
    rw [List.foldl_cons]
    simp only [storeDescriptionTurn, Bool.false_eq_true, if_false]
    cases described : r.describe desc with
    | external =>
      have reals : r.realEntries (desc :: descs) = r.realEntries descs := by
        simp [StoreRequest.realEntries, described]
      have refs : r.references (desc :: descs) = r.references descs := by
        simp [StoreRequest.references, described]
      rw [reals, refs]
      exact ih calls db whatisInfos
    | reference entry =>
      have reals : r.realEntries (desc :: descs) = r.realEntries descs := by
        simp [StoreRequest.realEntries, described]
      have refs : r.references (desc :: descs) = entry :: r.references descs := by
        simp [StoreRequest.references, described]
      have rest := ih calls db (whatisInfos ++ [entry])
      rw [reals, refs]
      exact ⟨rest.calls, by rw [List.append_cons]; exact rest.taken, rest.refused⟩
    | real entry =>
      have reals : r.realEntries (desc :: descs) = (desc.name, entry) :: r.realEntries descs := by
        simp [StoreRequest.realEntries, described]
      have refs : r.references (desc :: descs) = r.references descs := by
        simp [StoreRequest.references, described]
      rw [reals, refs]
      exact .real fun db' => ih (calls ++ [(desc.name, entry)]) db' whatisInfos

/-- The entry of a reference, with its pointer. -/
def pointed (pointerInfo : Mandata) (entry : Mandata) : Bytes × Mandata :=
  (entry.name.getD [], { entry with name := none, pointer := pointerInfo.name })

theorem storeReference_sub (pointerInfo : Mandata) (whatisInfos : List Mandata) (run : StoreRun) :
    ∀ call ∈ (whatisInfos.foldl (storeReference loc pointerInfo) run).calls,
      call ∈ run.calls ∨ ∃ entry ∈ whatisInfos, call = pointed pointerInfo entry := by
  induction whatisInfos generalizing run with
  | nil => exact fun call member => Or.inl member
  | cons entry rest ih =>
    intro call member
    rcases ih _ call member with old | ⟨later, inRest, same⟩
    · rcases run.store_sub old with before | here
      · exact Or.inl before
      · exact Or.inr ⟨entry, List.mem_cons_self .., here⟩
    · exact Or.inr ⟨later, List.mem_cons_of_mem _ inRest, same⟩

theorem StoreRun.store_mono (run : StoreRun) {call : Bytes × Mandata} (member : call ∈ run.calls) :
    call ∈ (run.store loc name entry).calls := by
  unfold StoreRun.store
  split
  · split <;> exact List.mem_append_left _ member
  · exact member

theorem storeReference_mono (pointerInfo : Mandata) (whatisInfos : List Mandata) {run : StoreRun}
    {call : Bytes × Mandata}
    (member : call ∈ run.calls) : call ∈ (whatisInfos.foldl (storeReference loc pointerInfo) run).calls := by
  induction whatisInfos generalizing run with
  | nil => exact member
  | cons entry rest ih => exact ih (run.store_mono member)

/-- The page that references lead to: the last trace file with the section and
extension of the starting page has a namesake in the hierarchy, which can be read
under its name with the compression of the starting page. -/
def StoreRequest.PointerKept (r : StoreRequest) (path : Bytes) : Prop :=
  ∀ info pointer, r.pointerInfo = some info → info.name = some pointer →
    r.InTrace path pointer r.info.sec r.info.ext ∧
      makeFilename r.host.canAccess path pointer r.info (ascii "man") ≠ none

theorem mem_references_iff (starts : r.Starts path) :
    entry ∈ r.references descs ↔ ∃ desc ∈ descs, r.IsReference desc ∧
      entry = { r.entryFor desc with name := some desc.name, id := whatisMan, whatis := none } := by
  unfold StoreRequest.references
  rw [List.mem_filterMap]
  refine exists_congr fun desc => and_congr_right fun _ => ?_
  rw [← describe_reference_iff starts]
  constructor
  · intro kept
    split at kept
    · rename_i found described
      rw [← Option.some.inj kept]
      exact ⟨⟨found, described⟩, describe_reference starts described⟩
    · cases kept
  · rintro ⟨⟨found, described⟩, rfl⟩
    rw [described, describe_reference starts described]

theorem realEntries_followable (starts : r.Starts path) {call : Bytes × Mandata}
    (member : call ∈ r.realEntries descs) :
    FollowableEntry r path call := by
  obtain ⟨desc, _, described⟩ := List.mem_filterMap.mp member
  split at described
  · rename_i entry real
    rw [← Option.some.inj described]
    exact describe_real starts real
  · cases described

theorem pointed_followable_iff (starts : r.Starts path) {info : Mandata} (last : r.pointerInfo = some info)
    (member : entry ∈ r.references descs) : FollowableEntry r path (pointed info entry) ↔ r.PointerKept path := by
  obtain ⟨desc, _, _, rfl⟩ := (mem_references_iff starts).mp member
  constructor
  · intro followable found pointer isLast named
    rw [last] at isLast
    cases isLast
    obtain ⟨other, atPointer, inTrace, readable⟩ := followable.reference rfl
    cases named.symm.trans atPointer
    exact ⟨inTrace, readable⟩
  · intro kept
    obtain ⟨found, pointer, isLast, named⟩ := pointerInfo_named starts
    cases last.symm.trans isLast
    obtain ⟨inTrace, readable⟩ := kept info pointer last named
    refine ⟨fun _ => ⟨pointer, named, inTrace, readable⟩, fun real => ?_⟩
    exact absurd real (by simp only [pointed]; decide)

/-- Every entry that is stored can be followed exactly if no reference is stored, or
the page that references lead to is kept. -/
theorem storeDescriptions_followable_iff (starts : r.Starts path) (descs : List PageDescription) (db : Store) :
    StoresFollowable loc r path descs db ↔
      ((∃ desc ∈ descs, r.IsReference desc) → accepts loc db (r.realEntries descs) = true → r.PointerKept path) := by
  have traced : r.trace ≠ [] := by
    obtain ⟨start, rest, _, trace, _⟩ := starts.first
    simp [trace]
  have looped := @storeDescriptionTurn_looped loc r descs [] db []
  unfold StoresFollowable storeDescriptions
  rw [if_neg traced]
  generalize descs.foldl (storeDescriptionTurn loc r) (⟨[], .ok db, false⟩, []) = s at looped
  obtain ⟨run, whatisInfos⟩ := s
  have reals : ∀ call ∈ run.calls, FollowableEntry r path call := fun call member =>
    realEntries_followable starts ((looped.calls call member).resolve_left (List.not_mem_nil))
  cases taken : accepts loc db (r.realEntries descs) with
  | false =>
    have stopped : run.stopped = true := looped.refused taken
    exact iff_of_true ⟨run, if_pos stopped, reals⟩ fun _ yes => absurd yes (by decide)
  | true =>
    obtain ⟨going, ⟨db', isOpen⟩, rfl⟩ := looped.taken taken
    obtain ⟨info, pointer, last, named⟩ := pointerInfo_named starts
    dsimp only at going isOpen ⊢
    simp only [going, last, Bool.false_eq_true, if_false, Option.map_some, Option.some.injEq, exists_eq_left',
      List.nil_append, true_implies]
    constructor
    · rintro followable ⟨desc, inDescs, isReference⟩
      have member := (mem_references_iff starts).mpr ⟨desc, inDescs, isReference, rfl⟩
      cases references : r.references descs with
      | nil => simp [references] at member
      | cons first rest =>
        rw [references] at followable
        refine (pointed_followable_iff starts last (by rw [references]; exact List.mem_cons_self ..)).mp
          (followable _ (storeReference_mono info rest ?_))
        rw [storeReference, StoreRun.store_calls going isOpen]
        exact List.mem_append_right _ (List.mem_singleton.mpr rfl)
    · intro kept call member
      rcases storeReference_sub info _ run call member with old | ⟨entry, inReferences, rfl⟩
      · exact reals call old
      · obtain ⟨desc, inDescs, isReference, _⟩ := (mem_references_iff starts).mp inReferences
        exact (pointed_followable_iff starts last inReferences).mpr (kept ⟨desc, inDescs, isReference⟩)

/-- The page foo(1) of /man, which is a link to a page bar(1). -/
def linkToBar (target : String) : StoreRequest where
  host := ⟨[ascii "gz"], fun _ => some ⟨5, 0⟩, fun file => file ∈ [ascii "/man/man1/foo.1", ascii target]⟩
  info :=
    { name := none, ext := ascii "1", sec := ascii "1", id := soMan, pointer := none, comp := none, filter := none
      whatis := none, mtime := ⟨5, 0⟩ }
  path := some (ascii "/man")
  base := ascii "foo"
  trace := [ascii "/man/man1/foo.1", ascii target]

/-- "foo, bar, baz - an example". -/
def fooBarBaz : List PageDescription :=
  [⟨ascii "foo", some (ascii "an example")⟩, ⟨ascii "bar", some (ascii "an example")⟩,
    ⟨ascii "baz", some (ascii "an example")⟩]

theorem linkToBar_starts (target : String) : (linkToBar target).Starts (ascii "/man") := by
  have parsed : filenameInfo [ascii "gz"] (ascii "/man/man1/foo.1") = some
      { name := some (ascii "foo"), ext := ascii "1", sec := ascii "1", id := 0, pointer := none, comp := none
        filter := none, whatis := none, mtime := ⟨0, 0⟩ } := by decide
  exact ⟨rfl, Or.inr rfl, _, _, _, rfl, by decide, parsed, rfl, rfl, rfl⟩

theorem storeDescriptions_followable_iff_local :
    (linkToBar "/man/man1/bar.1").Starts (ascii "/man") ∧
      StoresFollowable .posix (linkToBar "/man/man1/bar.1") (ascii "/man") fooBarBaz ∅ := by
  refine ⟨linkToBar_starts _, (storeDescriptions_followable_iff (linkToBar_starts _) _ _).mpr ?_⟩
  intro _ _ info pointer last named
  have isBar : ((linkToBar "/man/man1/bar.1").pointerInfo.bind (·.name)) = some (ascii "bar") := by decide +kernel
  rw [last, Option.bind_some, named, Option.some.injEq] at isBar
  subst isBar
  exact ⟨⟨ascii "/man/man1/bar.1", by decide, by decide, _, rfl, rfl, rfl, rfl⟩, by decide⟩

/-- Where bar(1) is in another hierarchy, baz(1) becomes a reference to a page
/man/man1/bar.1 that does not exist. -/
theorem storeDescriptions_dangling :
    (linkToBar "/other/man1/bar.1").Starts (ascii "/man") ∧
      ¬StoresFollowable .posix (linkToBar "/other/man1/bar.1") (ascii "/man") fooBarBaz ∅ := by
  refine ⟨linkToBar_starts _, ?_⟩
  rintro ⟨run, same, followable⟩
  have calls : (storeDescriptions .posix (linkToBar "/other/man1/bar.1") fooBarBaz ∅).bind (fun run =>
      run.calls[1]?) =
      some (ascii "baz",
        { (linkToBar "/other/man1/bar.1").info with id := whatisMan, pointer := some (ascii "bar") }) := by
    decide +kernel
  rw [same, Option.bind_some] at calls
  obtain ⟨pointer, atPointer, _, readable⟩ := (followable _ (List.mem_of_getElem? calls)).reference rfl
  cases atPointer
  exact readable (by decide)

end ManDb
