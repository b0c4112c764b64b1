import ManDb.Security
import ManDb.Text

namespace ManDb

/-- Drops of privileges, each with the regain that belongs to it. -/
inductive Balanced : List PrivCall → Prop
  | nil : Balanced []
  | bracket {inner rest : List PrivCall} (inside : Balanced inner) (after : Balanced rest) :
      Balanced (.drop :: inner ++ .regain :: rest)

/-- What a call of `man` or `display` comes to: whether it found the page, and the
privileges it dropped and regained on its way. -/
structure NestedCall where
  found : Bool
  calls : List PrivCall
  balanced : Balanced calls

/-- The globals that `local_man_loop` sets. -/
structure GlobalState where
  localManFile : Bool
  manpathlist : List Bytes
  security : SecurityState

def NestedCall.run (call : NestedCall) (g : GlobalState) : GlobalState :=
  { g with security := call.calls.foldl PrivCall.run g.security }

inductive FileKind where
  | regular
  | directory
  | charDevice
  | blockDevice
  | other
  deriving DecidableEq, Repr

/-- What the mode of a file says: its kind, and whether some execute bit is set. -/
structure FileMode where
  kind : FileKind
  executable : Bool

/-- What comes of the calls that are made for an argument. -/
structure Outcomes where
  stat : Except Nat FileMode
  directoryOnPath : Bool
  newManp : Bytes
  pathlist : List Bytes
  man : NestedCall
  display : NestedCall

inductive ManStatus where
  | ok
  | notFound
  deriving DecidableEq, Repr

/-- The error that is reported for an argument. -/
inductive LocalError where
  | stat (errno : Nat)
  | isDirectory
  | invalid
  | display
  deriving DecidableEq, Repr

/-- The lookup of the page of an executable, in the hierarchy its directory belongs to. -/
def lookupExecutable (outcomes : Outcomes) (g : GlobalState) : GlobalState × Bool :=
  if outcomes.directoryOnPath ∧ outcomes.newManp ≠ [] then
    let oldManpathlist := g.manpathlist
    let g := outcomes.man.run { g with manpathlist := outcomes.pathlist }
    ({ g with manpathlist := oldManpathlist }, outcomes.man.found)
  else (g, false)

/-- The page of an executable comes before the file itself. -/
def executablePage (mode : FileMode) (outcomes : Outcomes) (g : GlobalState) : GlobalState × Bool :=
  if mode.executable then lookupExecutable outcomes g else (g, false)

def localManLoop (argv : Bytes) (outcomes : Outcomes) (g : GlobalState) :
    GlobalState × ManStatus × Option LocalError :=
  let localMf := g.localManFile
  let g := { g with security := dropEffectivePrivs g.security, localManFile := true }
  let restored (g : GlobalState) : GlobalState :=
    { g with localManFile := localMf, security := regainEffectivePrivs g.security }
  if argv = ascii "-" then (restored (outcomes.display.run g), .ok, none)
  else
    match outcomes.stat with
    | .error errno => (g, .notFound, some (.stat errno))
    | .ok mode =>
      if mode.kind = .directory then (g, .notFound, some .isDirectory)
      else if mode.kind = .charDevice ∨ mode.kind = .blockDevice then (g, .notFound, some .invalid)
      else
        let page := executablePage mode outcomes g
        if page.2 then (page.1, .ok, none)
        else
          let shown := restored (outcomes.display.run page.1)
          if outcomes.display.found then (shown, .ok, none)
          else (shown, .notFound, if localMf then some .display else none)

def manMaybeLocal (name : Bytes) (outcomes : Outcomes) (g : GlobalState) : GlobalState :=
  if slash ∈ name then (localManLoop name outcomes g).1 else outcomes.man.run g

/-- A call for an argument: of `man`, of `man_maybe_local`, or of `local_man_loop` with `-l`. -/
inductive ManCall where
  | man (call : NestedCall)
  | maybeLocal (name : Bytes) (outcomes : Outcomes)
  | localFile (argv : Bytes) (outcomes : Outcomes)

def ManCall.run (g : GlobalState) : ManCall → GlobalState
  | man call => call.run g
  | maybeLocal name outcomes => manMaybeLocal name outcomes g
  | localFile argv outcomes => (localManLoop argv outcomes g).1

/-- The globals are again what they were. -/
structure Restored (before after : GlobalState) : Prop where
  localManFile : after.localManFile = before.localManFile
  manpathlist : after.manpathlist = before.manpathlist
  privDropCount : after.security.privDropCount = before.security.privDropCount

/-- The argument is the standard input, or a file that is shown: not missing, no
directory, no device, and no executable whose page was found. -/
def Shown (argv : Bytes) (outcomes : Outcomes) : Prop :=
  argv = ascii "-" ∨ ∃ mode, outcomes.stat = .ok mode ∧
    mode.kind ≠ .directory ∧ mode.kind ≠ .charDevice ∧ mode.kind ≠ .blockDevice ∧
    ¬(mode.executable = true ∧ outcomes.directoryOnPath = true ∧ outcomes.newManp ≠ [] ∧ outcomes.man.found = true)

def ManCall.Shown : ManCall → Prop
  | man _ => True
  | maybeLocal name outcomes => slash ∈ name → ManDb.Shown name outcomes
  | localFile argv outcomes => ManDb.Shown argv outcomes

variable {calls : List PrivCall} {s : SecurityState} {g g' g'' : GlobalState} {argv name : Bytes}
  {outcomes : Outcomes}

theorem Balanced.count (balanced : Balanced calls) (s : SecurityState) :
    (calls.foldl PrivCall.run s).privDropCount = s.privDropCount := by
  induction balanced generalizing s with
  | nil => rfl
  | @bracket inner rest _ _ inside after =>
    have kept := after (regainEffectivePrivs (inner.foldl PrivCall.run (dropEffectivePrivs s)))
    rw [regain_count, inside, drop_count, Nat.add_sub_cancel] at kept
    rw [List.cons_append, List.foldl_cons, List.foldl_append, List.foldl_cons]
    exact kept

theorem Restored.refl (g : GlobalState) : Restored g g := ⟨rfl, rfl, rfl⟩

theorem Restored.trans (first : Restored g g') (second : Restored g' g'') : Restored g g'' :=
  ⟨second.localManFile.trans first.localManFile, second.manpathlist.trans first.manpathlist,
    second.privDropCount.trans first.privDropCount⟩

theorem Restored.symm (restored : Restored g g') : Restored g' g :=
  ⟨restored.localManFile.symm, restored.manpathlist.symm, restored.privDropCount.symm⟩

theorem NestedCall.restored (call : NestedCall) (g : GlobalState) : Restored g (call.run g) :=
  ⟨rfl, rfl, call.balanced.count _⟩

theorem executablePage_restored (mode : FileMode) (outcomes : Outcomes) (g : GlobalState) :
    Restored g (executablePage mode outcomes g).1 := by
  unfold executablePage lookupExecutable
  split
  · split
    · exact ⟨rfl, rfl, outcomes.man.balanced.count _⟩
    · exact .refl g
  · exact .refl g

theorem executablePage_found (mode : FileMode) (outcomes : Outcomes) (g : GlobalState) :
    (executablePage mode outcomes g).2 = true ↔ mode.executable = true ∧ outcomes.directoryOnPath = true ∧
      outcomes.newManp ≠ [] ∧ outcomes.man.found = true := by
  unfold executablePage lookupExecutable
  by_cases executable : mode.executable = true
  · by_cases both : outcomes.directoryOnPath = true ∧ outcomes.newManp ≠ []
    · simp [executable, both]
    · simp only [executable, if_true, if_neg both, Bool.false_eq_true, false_iff, true_and]
      exact fun all => both ⟨all.1, all.2.1⟩
  · simp [executable]

/-- A call that has dropped privileges and not regained them does not restore the count. -/
theorem not_restored (more : g'.security.privDropCount = g.security.privDropCount + 1) :
    ¬Restored g g' := fun restored =>
  Nat.succ_ne_self _ (more.symm.trans restored.privDropCount)

theorem localManLoop_restored_iff (argv : Bytes) (outcomes : Outcomes) (g : GlobalState) :
    Restored g (localManLoop argv outcomes g).1 ↔ Shown argv outcomes := by
  have dropped := drop_count g.security
  have regained : ∀ g' : GlobalState,
      Restored { g with security := dropEffectivePrivs g.security, localManFile := true } g' →
      Restored g { g' with localManFile := g.localManFile, security := regainEffectivePrivs g'.security } := by
    intro g' kept
    refine ⟨rfl, kept.manpathlist, ?_⟩
    rw [regain_count, kept.privDropCount, dropped, Nat.add_sub_cancel]
  unfold localManLoop Shown
  by_cases stdin : argv = ascii "-"
  · refine iff_of_true ?_ (Or.inl stdin)
    simp only [if_pos stdin]
    exact regained _ (outcomes.display.restored _)
  · rw [or_iff_right stdin]
    simp only [if_neg stdin]
    cases status : outcomes.stat with
    | error errno => exact iff_of_false (not_restored dropped) nofun
    | ok mode =>
      simp only [Except.ok.injEq, exists_eq_left']
      by_cases directory : mode.kind = .directory
      · rw [if_pos directory]
        exact iff_of_false (not_restored dropped) fun shown => shown.1 directory
      · rw [if_neg directory]
        by_cases device : mode.kind = .charDevice ∨ mode.kind = .blockDevice
        · rw [if_pos device]
          exact iff_of_false (not_restored dropped) fun shown => device.elim shown.2.1 shown.2.2.1
        · rw [if_neg device]
          rw [not_or] at device
          have kept := executablePage_restored mode outcomes
            { g with security := dropEffectivePrivs g.security, localManFile := true }
          rw [← executablePage_found mode outcomes
            { g with security := dropEffectivePrivs g.security, localManFile := true }]
          generalize executablePage mode outcomes _ = page at kept ⊢
          by_cases found : page.2 = true
          · rw [if_pos found]
            exact iff_of_false (not_restored (kept.privDropCount.trans dropped)) fun shown => shown.2.2.2 found
          · rw [if_neg found]
            refine iff_of_true ?_ ⟨directory, device.1, device.2, found⟩
            have shown := regained _ (kept.trans (outcomes.display.restored page.1))
            split <;> exact shown

theorem ManCall.restored_iff (call : ManCall) (g : GlobalState) : Restored g (call.run g) ↔ call.Shown := by
  cases call with
  | man call => exact iff_of_true (call.restored g) trivial
  | maybeLocal name outcomes =>
    by_cases file : slash ∈ name
    · have run : (ManCall.maybeLocal name outcomes).run g = (localManLoop name outcomes g).1 := if_pos file
      rw [run, localManLoop_restored_iff]
      exact ⟨fun shown _ => shown, fun shown => shown file⟩
    · have run : (ManCall.maybeLocal name outcomes).run g = outcomes.man.run g := if_neg file
      rw [run]
      exact iff_of_true (outcomes.man.restored g) fun inside => absurd inside file
  | localFile argv outcomes => exact localManLoop_restored_iff argv outcomes g

/-- All through a run the globals are what they were exactly if every local file in it
is shown. -/
theorem run_restored_iff (calls : List ManCall) (g : GlobalState) :
    (∀ done, done <+: calls → Restored g (done.foldl ManCall.run g)) ↔ ∀ call ∈ calls, call.Shown := by
  induction calls generalizing g with
  | nil =>
    refine iff_of_true (fun done start => ?_) nofun
    rw [List.prefix_nil.mp start]
    exact .refl g
  | cons call calls ih =>
    rw [List.forall_mem_cons, ← call.restored_iff g, ← ih (call.run g)]
    constructor
    · intro all
      have first := all [call] (List.prefix_append [call] calls)
      refine ⟨first, fun done start => first.symm.trans ?_⟩
      exact all (call :: done) (List.cons_prefix_cons.mpr ⟨rfl, start⟩)
    · rintro ⟨first, later⟩ done start
      cases done with
      | nil => exact .refl g
      | cons head done =>
        obtain ⟨rfl, rest⟩ := List.cons_prefix_cons.mp start
        exact first.trans (later done rest)

/-- The globals are restored after an argument, and all through a run, exactly if every
local file is shown. -/
theorem globals_restored_iff (g : GlobalState) (argv : Bytes) (outcomes : Outcomes) (calls : List ManCall) :
    (Restored g (localManLoop argv outcomes g).1 ↔ Shown argv outcomes) ∧
      ((∀ done, done <+: calls → Restored g (done.foldl ManCall.run g)) ↔ ∀ call ∈ calls, call.Shown) :=
  ⟨localManLoop_restored_iff argv outcomes g, run_restored_iff calls g⟩

/-- A file that is missing. -/
def missing : Outcomes where
  stat := .error 2
  directoryOnPath := false
  newManp := []
  pathlist := []
  man := ⟨false, [], .nil⟩
  display := ⟨false, [], .nil⟩

theorem globals_after_missing : ¬Restored ⟨false, [], afterCalls (.start 1000 6 1000 6) [.regain]⟩
    (localManLoop (ascii "./missing") missing ⟨false, [], afterCalls (.start 1000 6 1000 6) [.regain]⟩).1 := by
  intro restored
  exact absurd restored.localManFile (by decide)

end ManDb
