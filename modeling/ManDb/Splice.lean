import ManDb.SystemManpath

namespace ManDb

open Separated (ofSegments)

/-- `get_manpath`, for what `guess_manpath` gives. -/
def getManpath (env : PathEnv) (systems : Option Bytes) (guessed : Bytes) : Option Bytes :=
  match env.manpath with
  | none => some guessed
  | some manpathlist =>
    if manpathlist = [] then some guessed
    else if manpathlist.head? = some colon then
      (addSystemManpath env systems manpathlist).map fun system1 => guessed ++ system1
    else if manpathlist.getLast? = some colon then
      (addSystemManpath env systems manpathlist).map fun system1 => system1 ++ guessed
    else
      match Separated.cutAt [colon, colon] manpathlist with
      | some (before, after) =>
        (addSystemManpath env systems before).bind fun system1 =>
          (addSystemManpath env systems (colon :: after)).map fun system2 =>
            system1 ++ colon :: (guessed ++ system2)
      | none => addSystemManpath env systems manpathlist

/-- A search path of the user with one empty component, which stands for the default path. -/
inductive UserPath
  | leading (fields : List Bytes)
  | trailing (fields : List Bytes)
  | doubled (before after : List Bytes)

namespace UserPath

def text : UserPath → Bytes
  | leading fields => colon :: pathOf fields
  | trailing fields => pathOf fields ++ [colon]
  | doubled before after => pathOf before ++ colon :: colon :: pathOf after

/-- Components of a path: they are there, and none is empty or has a separator. -/
def AreComponents (fields : List Bytes) : Prop := fields ≠ [] ∧ [] ∉ fields ∧ ∀ field ∈ fields, colon ∉ field

def WellFormed : UserPath → Prop
  | leading fields => AreComponents fields
  | trailing fields => AreComponents fields
  | doubled before after => AreComponents before ∧ AreComponents after

/-- The components with the default path in the place of the empty one. -/
def spliced (expand : List Bytes → List Bytes) (default : List Bytes) : UserPath → List Bytes
  | leading fields => default ++ expand fields
  | trailing fields => expand fields ++ default
  | doubled before after => expand before ++ default ++ expand after

end UserPath

/-- The first system that has a directory is "man", which is named once unless there is
a single component, and the directories of the root change nothing. -/
def PathEnv.LeadingKept (env : PathEnv) (names fields : List Bytes) : Prop :=
  (∀ name ∈ names.takeWhile (· ≠ ascii "man"), env.offers ([] :: fields) name = []) ∧
    (names.count (ascii "man") ≤ 1 ∨ fields.length = 1) ∧
    env.expansion names ([] :: fields) = env.expansion names fields

/-- No system has a directory, or "man" is named once, no component is found before it
and nothing that is new behind it. -/
def PathEnv.TrailingKept (env : PathEnv) (names fields : List Bytes) : Prop :=
  (ascii "man" ∉ names ∧ ∀ name ∈ names, env.offers (fields ++ [[]]) name = []) ∨
    ∃ early late, names = early ++ ascii "man" :: late ∧ ascii "man" ∉ early ∧ ascii "man" ∉ late ∧
      (∀ field ∈ fields, field ∉ env.found (fields ++ [[]]) early []) ∧
      (∀ name ∈ late, ∀ dir ∈ env.offers (fields ++ [[]]) name, dir ∈ env.found (fields ++ [[]]) early [] ++ fields) ∧
      env.found (fields ++ [[]]) early [] ++ fields = env.expansion names fields

def UserPath.Kept (env : PathEnv) (names : List Bytes) : UserPath → Prop
  | .leading fields => env.LeadingKept names fields
  | .trailing fields => env.TrailingKept names fields
  | .doubled before after => env.AddsPlainly before names [] ∧ env.LeadingKept names after

variable {env : PathEnv} {fields names acc dirs : List Bytes} {name dir old new : Bytes} {systems : Option Bytes}

/-- A path that has become longer by components. -/
def Grown (old new : Bytes) : Prop := new = old ∨ ∃ more, new = old ++ colon :: more

theorem Grown.trans {newer : Bytes} (first : Grown old new) (second : Grown new newer) : Grown old newer := by
  rcases first with rfl | ⟨more, rfl⟩
  · exact second
  · rcases second with rfl | ⟨further, rfl⟩
    · exact Or.inr ⟨more, rfl⟩
    · exact Or.inr ⟨more ++ colon :: further, by simp only [List.append_assoc, List.cons_append]⟩

theorem Grown.splitOn (grown : Grown old new) : old.splitOn colon <+: new.splitOn colon := by
  rcases grown with rfl | ⟨more, rfl⟩
  · exact List.prefix_rfl
  · rw [List.splitOn_append_cons_self]
    exact List.prefix_append _ _

theorem pathappend_grown {appendage : Bytes} (result : pathappend (some old) appendage = some new) :
    Grown old new := by
  unfold pathappend at result
  split at result
  · rename_i shape
    cases shape
  · rename_i shape
    cases shape
    split at result
    · cases result
    · obtain ⟨app, _, rfl⟩ := Option.map_eq_some_iff.mp result
      split
      · exact Or.inr ⟨app, rfl⟩
      · exact Or.inl rfl

theorem foldlM_grown {f : Option Bytes → Bytes → Option (Option Bytes)} {manpath : Option Bytes}
    (steps : ∀ old x manpath, f (some old) x = some manpath → ∃ new, manpath = some new ∧ Grown old new)
    (result : names.foldlM f (some old) = some manpath) : ∃ new, manpath = some new ∧ Grown old new := by
  induction names generalizing old with
  | nil => exact ⟨old, (Option.some.inj result).symm, Or.inl rfl⟩
  | cons name names ih =>
    rw [List.foldlM_cons] at result
    obtain ⟨next, first, later⟩ := Option.bind_eq_some_iff.mp result
    obtain ⟨new, rfl, grown⟩ := steps _ _ _ first
    obtain ⟨newer, rfl, further⟩ := ih later
    exact ⟨newer, rfl, grown.trans further⟩

theorem addElement_grown {manpath : Option Bytes} {element : Bytes}
    (result : addElement env name (some old) element = some manpath) : ∃ new, manpath = some new ∧ Grown old new := by
  unfold addElement at result
  simp only at result
  split at result
  · obtain ⟨new, appended, rfl⟩ := Option.map_eq_some_iff.mp result
    exact ⟨new, rfl, pathappend_grown appended⟩
  · exact ⟨old, (Option.some.inj result).symm, Or.inl rfl⟩

theorem addOneSystem_grown {manpath : Option Bytes} {manpathlist : Bytes}
    (result : addOneSystem env manpathlist (some old) name = some manpath) :
    ∃ new, manpath = some new ∧ Grown old new := by
  unfold addOneSystem at result
  split at result
  · exact foldlM_grown (fun _ _ _ => addElement_grown) result
  · obtain ⟨new, appended, rfl⟩ := Option.map_eq_some_iff.mp result
    exact ⟨new, rfl, pathappend_grown appended⟩

theorem addDirs_eq_self_iff : dirs.foldl (fun acc dir => extend acc [dir]) acc = acc ↔ ∀ dir ∈ dirs, dir ∈ acc := by
  constructor
  · intro same dir member
    rw [← same]
    exact mem_addDirs.mpr (Or.inr member)
  · intro inside
    induction dirs with
    | nil => rfl
    | cons dir dirs ih =>
      rw [List.foldl_cons, extend_singleton, if_pos (inside dir (List.mem_cons_self ..))]
      exact ih fun other member => inside other (List.mem_cons_of_mem _ member)

/-- Systems other than "man" find nothing new exactly if all they offer is there. -/
theorem found_eq_self_iff (others : ascii "man" ∉ names) :
    env.found fields names acc = acc ↔ ∀ name ∈ names, ∀ dir ∈ env.offers fields name, dir ∈ acc := by
  induction names generalizing acc with
  | nil => exact iff_of_true rfl nofun
  | cons name names ih =>
    rw [List.mem_cons, not_or] at others
    have first : env.expandName fields acc name = acc ↔ ∀ dir ∈ env.offers fields name, dir ∈ acc := by
      rw [PathEnv.expandName, if_neg (Ne.symm others.1), addDirs_eq_self_iff]
    rw [List.forall_mem_cons, ← first]
    constructor
    · intro same
      have still : env.expandName fields acc name = acc := by
        have back := prefix_found env fields names (env.expandName fields acc name)
        rw [← PathEnv.found_cons, same] at back
        exact (List.IsPrefix.eq_of_length_le (prefix_expandName env fields acc name) back.length_le).symm
      rw [PathEnv.found_cons, still] at same
      exact ⟨still, (ih others.2).mp same⟩
    · rintro ⟨same, later⟩
      rw [PathEnv.found_cons, same]
      exact (ih others.2).mpr later

section Leading

variable (filled : [] ∉ fields) (clean : ∀ field ∈ fields, colon ∉ field)

theorem pathOf_nil_cons (some : fields ≠ []) : pathOf ([] :: fields) = colon :: pathOf fields :=
  @pathOf_append [[]] fields (List.cons_ne_nil _ _) some

theorem addDirs_nil_cons (dirsFilled : [] ∉ dirs) : dirs.foldl (fun acc dir => extend acc [dir]) ([] :: acc) =
    [] :: dirs.foldl (fun acc dir => extend acc [dir]) acc := by
  induction dirs generalizing acc with
  | nil => rfl
  | cons dir dirs ih =>
    rw [List.mem_cons, not_or] at dirsFilled
    have next : extend ([] :: acc) [dir] = [] :: extend acc [dir] := by
      simp only [extend_singleton, List.mem_cons, Ne.symm dirsFilled.1, false_or]
      split <;> rfl
    rw [List.foldl_cons, next, ih dirsFilled.2, List.foldl_cons]

/-- A component with an empty one before it goes as a whole when it is repeated. -/
theorem dedups_single {component : Bytes} {toks : List Bytes} (tokens : ∀ tok ∈ toks, tok ≠ [] ∧ colon ∉ tok)
    (componentClean : colon ∉ component) (repeated : component ∈ toks) :
    toks.foldlM (fun app tok => dedup tok app) (pathOf [[], component]) = some [] := by
  induction toks with
  | nil => cases repeated
  | cons tok toks ih =>
    have later := fun other member => tokens other (List.mem_cons_of_mem tok member)
    obtain ⟨nonempty, tokClean⟩ := tokens tok (List.mem_cons_self ..)
    rw [List.foldlM_cons]
    by_cases same : tok = component
    · subst same
      have single : dedup tok (pathOf ([[]] ++ [tok])) = some [] :=
        dedup_last nonempty tokClean (by simp) (by simpa using nonempty)
      rw [List.singleton_append] at single
      rw [single]
      exact (dedups_pathOf later List.not_mem_nil nofun).1 fun pre other post _ member => by simp at member
    · have absent : tok ∉ [[], component] := by simp [nonempty, same]
      rw [dedup_absent (by simpa using componentClean) nonempty tokClean absent]
      exact ih later ((List.mem_cons.mp repeated).resolve_left (Ne.symm same))

theorem addOneSystem_repeated {component : Bytes} (componentFilled : component ≠ [])
    (componentClean : colon ∉ component)
    (accClean : ∀ field ∈ acc, colon ∉ field) (member : component ∈ acc) :
    addOneSystem env (pathOf [[], component]) (manpathOf ([] :: acc)) (ascii "man") =
      some (manpathOf ([] :: acc)) := by
  have more : acc ≠ [] := List.ne_nil_of_mem member
  have some : pathOf ([] :: acc) ≠ [] := pathOf_ne_nil (List.cons_ne_nil _ _) (by simpa using more)
  have allClean : ∀ field ∈ [] :: acc, colon ∉ field := by simpa using accClean
  have tokens : ∀ tok ∈ ([] :: acc).filter (· ≠ []), tok ≠ [] ∧ colon ∉ tok := fun tok inside =>
    ⟨of_decide_eq_true (List.mem_filter.mp inside).2, allClean tok (List.mem_filter.mp inside).1⟩
  have repeated : component ∈ ([] :: acc).filter (· ≠ []) := by
    simpa [componentFilled] using member
  rw [addOneSystem, if_neg (not_not.mpr rfl), manpathOf_some (List.cons_ne_nil _ _)]
  simp only [pathappend, if_neg some, splitOn_pathOf allClean (List.cons_ne_nil _ _),
    dedups_single tokens componentClean repeated]
  rfl

/-- With more than one component the search goes on in the freed buffer. -/
theorem addOneSystem_freed {first second : Bytes} (firstFilled : first ≠ [])
    (allClean : ∀ field ∈ first :: second :: fields, colon ∉ field) (accClean : ∀ field ∈ acc, colon ∉ field) :
    addOneSystem env (pathOf ([] :: first :: second :: fields)) (manpathOf ([] :: first :: acc)) (ascii "man") =
      none := by
  have firstClean := allClean first (List.mem_cons_self ..)
  have listClean : ∀ field ∈ [] :: first :: second :: fields, colon ∉ field := by simpa using allClean
  have accAll : ∀ field ∈ [] :: first :: acc, colon ∉ field := by simpa using ⟨firstClean, accClean⟩
  have some : pathOf ([] :: first :: acc) ≠ [] := pathOf_ne_nil (List.cons_ne_nil _ _) (by simp)
  have stops : dedup first (pathOf ([] :: first :: second :: fields)) = none :=
    dedup_freed listClean firstFilled firstClean (by simp)
  have tokens : ([] :: first :: acc).filter (· ≠ []) = first :: acc.filter (· ≠ []) := by simp [firstFilled]
  rw [addOneSystem, if_neg (not_not.mpr rfl), manpathOf_some (List.cons_ne_nil _ _)]
  simp only [pathappend, if_neg some, splitOn_pathOf accAll (List.cons_ne_nil _ _), tokens, List.foldlM_cons, stops]
  rfl

theorem expandName_nil_cons (other : name ≠ ascii "man") :
    env.expandName fields ([] :: acc) name = [] :: env.expandName fields acc name := by
  rw [PathEnv.expandName, PathEnv.expandName, if_neg other, if_neg other,
    addDirs_nil_cons (offers_filled fields name)]

/-- The systems behind the first "man" leave the empty component where it is. -/
theorem addSystems_leading (namesClean : ∀ name ∈ names, colon ∉ name)
    (once : ascii "man" ∉ names ∨ fields.length = 1)
    (filled : [] ∉ fields) (clean : ∀ field ∈ fields, colon ∉ field) (some : fields ≠ [])
    (accClean : ∀ field ∈ acc, colon ∉ field) (inside : fields ⊆ acc) :
    names.foldlM (addOneSystem env (pathOf ([] :: fields))) (manpathOf ([] :: acc)) =
      .some (manpathOf ([] :: env.found ([] :: fields) names acc)) := by
  have listClean : ∀ field ∈ [] :: fields, colon ∉ field := by simpa using clean
  have accAll : ∀ field ∈ [] :: acc, colon ∉ field := by simpa using accClean
  induction names generalizing acc with
  | nil => rfl
  | cons name names ih =>
    have nameClean := namesClean name (List.mem_cons_self ..)
    have later := fun other member => namesClean other (List.mem_cons_of_mem name member)
    have onceLater : ascii "man" ∉ names ∨ fields.length = 1 :=
      once.imp_left fun absent member => absent (List.mem_cons_of_mem _ member)
    have grows : fields ⊆ env.expandName ([] :: fields) acc name :=
      List.Subset.trans inside (prefix_expandName env ([] :: fields) acc name).subset
    have nextClean := expandName_clean env listClean nameClean accClean
    rw [List.foldlM_cons, PathEnv.found_cons]
    by_cases man : name = ascii "man"
    · subst man
      obtain ⟨component, rfl⟩ := List.length_eq_one_iff.mp (once.resolve_left fun absent =>
          absent (List.mem_cons_self ..))
      have there : component ∈ acc := inside (List.mem_singleton_self _)
      have same : env.expandName [[], component] acc (ascii "man") = acc := by
        have full : [] ≠ component := by simpa using filled
        simp [PathEnv.expandName, extend, Ne.symm full, there]
      rw [addOneSystem_repeated (by simpa using Ne.symm (by simpa using filled)) (clean _ (List.mem_singleton_self _))
        accClean there, same]
      exact ih later onceLater accClean inside accAll
    · have notBare : [] :: acc ≠ [[]] := by
        intro bare
        have empty : acc = [] := (List.cons_eq_cons.mp bare).2
        exact some (List.subset_nil.mp (empty ▸ inside))
      rw [addOneSystem_other listClean (List.cons_ne_nil _ _) man nameClean accAll notBare, expandName_nil_cons man]
      exact ih later onceLater nextClean grows (by simpa using nextClean)

/-- If "man" is named again and there are several components, the search goes on in the
freed buffer. -/
theorem addSystems_freed (namesClean : ∀ name ∈ names, colon ∉ name) (again : ascii "man" ∈ names)
    (filled : [] ∉ fields) (clean : ∀ field ∈ fields, colon ∉ field) (some : fields ≠ [])
    (several : fields.length ≠ 1) :
    names.foldlM (addOneSystem env (pathOf ([] :: fields))) (manpathOf ([] :: fields)) = none := by
  obtain ⟨early, late, rfl, others⟩ := List.eq_append_cons_of_mem again
  have earlyClean := fun name member => namesClean name (List.mem_append_left _ member)
  have listClean : ∀ field ∈ [] :: fields, colon ∉ field := by simpa using clean
  obtain ⟨first, fields, rfl⟩ := List.exists_cons_of_ne_nil some
  obtain ⟨second, fields, rfl⟩ : ∃ second rest, fields = second :: rest := by
    cases fields with
    | nil => exact absurd rfl several
    | cons second rest => exact ⟨second, rest, rfl⟩
  have firstFilled : first ≠ [] := fun empty => filled (empty ▸ List.mem_cons_self ..)
  obtain ⟨acc, shape⟩ := prefix_found env ([] :: first :: second :: fields) early (first :: second :: fields)
  have accClean := found_clean env listClean earlyClean clean
  rw [← shape] at accClean
  rw [List.foldlM_append,
    addSystems_leading earlyClean (Or.inl others) filled clean some clean (List.Subset.refl _), ← shape]
  have stops : addOneSystem env (pathOf ([] :: first :: second :: fields))
      (manpathOf ([] :: first :: (second :: fields ++ acc))) (ascii "man") = none :=
    addOneSystem_freed firstFilled clean fun field member => accClean field (List.mem_cons_of_mem _ member)
  change Option.bind (addOneSystem env _ (manpathOf ([] :: first :: (second :: fields ++ acc)))
    (ascii "man")) _ = none
  rw [stops]
  rfl

/-- The systems up to the first "man". -/
theorem names_split (names : List Bytes) : ascii "man" ∉ names.takeWhile (· ≠ ascii "man") ∧
    (names = names.takeWhile (· ≠ ascii "man") ∨
      ∃ late, names = names.takeWhile (· ≠ ascii "man") ++ ascii "man" :: late) := by
  refine ⟨fun member => by simpa using List.mem_takeWhile_imp member, ?_⟩
  have whole := (List.takeWhile_append_dropWhile (p := (· ≠ ascii "man")) (l := names)).symm
  cases shape : names.dropWhile (· ≠ ascii "man") with
  | nil =>
    rw [shape, List.append_nil] at whole
    exact Or.inl whole
  | cons name late =>
    have first := List.head?_dropWhile_not (· ≠ ascii "man") names
    rw [shape] at first whole
    have man : name = ascii "man" := by simpa using first
    exact Or.inr ⟨late, man ▸ whole⟩

theorem expansion_of_found {found : List Bytes} (more : found ≠ []) (shape : env.found fields names [] = found) :
    env.expansion names fields = found := by
  rw [PathEnv.expansion, shape, if_neg more]

theorem expansion_of_none (filled : [] ∉ fields) (nothing : env.found fields names [] = []) :
    env.expansion names fields = fields := by
  rw [PathEnv.expansion, if_pos nothing, filter_filled filled]

theorem addSystems_start (env : PathEnv) (clean : ∀ field ∈ fields, colon ∉ field) (some : fields ≠ [])
    (others : ascii "man" ∉ names)
    (namesClean : ∀ name ∈ names, colon ∉ name) :
    names.foldlM (addOneSystem env (pathOf fields)) none = .some (manpathOf (env.found fields names [])) :=
  @addSystems_other env _ _ [] clean some others namesClean (fun _ member => absurd member List.not_mem_nil) (by simp)

/-- Where systems before "man" have directories, the path starts with one of them. -/
theorem addSystems_starts {early late : List Bytes} {path : Bytes} (clean : ∀ field ∈ fields, colon ∉ field)
    (some : fields ≠ []) (others : ascii "man" ∉ early) (earlyClean : ∀ name ∈ early, colon ∉ name)
    (finds : env.found fields early [] ≠ [])
    (result : ((early ++ late).foldlM (addOneSystem env (pathOf fields)) none).map (·.getD (pathOf fields)) =
      .some path) :
    env.found fields early [] <+: path.splitOn colon := by
  obtain ⟨manpath, loop, rfl⟩ := Option.map_eq_some_iff.mp result
  rw [List.foldlM_append, addSystems_start env clean some others earlyClean, manpathOf_some finds] at loop
  obtain ⟨new, rfl, grown⟩ := foldlM_grown (fun _ _ _ => addOneSystem_grown) loop
  have fieldsFirst := grown.splitOn
  rwa [splitOn_pathOf (found_clean env clean earlyClean fun _ member =>
    absurd member List.not_mem_nil) finds] at fieldsFirst

/-- No system but "man" finds anything exactly if none has a directory. -/
theorem found_eq_nil_iff (others : ascii "man" ∉ names) :
    env.found fields names [] = [] ↔ ∀ name ∈ names, env.offers fields name = [] := by
  rw [found_eq_self_iff others]
  simp only [List.not_mem_nil, List.eq_nil_iff_forall_not_mem]

theorem found_eq_nil_of_subset {fields' : List Bytes} (others : ascii "man" ∉ names) (sub : fields ⊆ fields')
    (nothing : env.found fields' names [] = []) : env.found fields names [] = [] := by
  rw [found_eq_nil_iff others] at nothing ⊢
  exact fun name member => List.subset_nil.mp (nothing name member ▸ offers_mono sub)

theorem filter_nil_cons (filled : [] ∉ fields) : ([] :: fields).filter (· ≠ []) = fields := by
  rw [List.filter_cons_of_neg (by simp), filter_filled filled]

/-- Where the systems before "man" find nothing, it makes the list the path. -/
theorem addSystems_man_leading {early : List Bytes} (late : List Bytes) (clean : ∀ field ∈ fields, colon ∉ field)
    (others : ascii "man" ∉ early) (earlyClean : ∀ name ∈ early, colon ∉ name)
    (finds : env.found ([] :: fields) early [] = []) :
    (early ++ ascii "man" :: late).foldlM (addOneSystem env (pathOf ([] :: fields))) none =
      late.foldlM (addOneSystem env (pathOf ([] :: fields))) (manpathOf ([] :: fields)) := by
  have listClean : ∀ field ∈ [] :: fields, colon ∉ field := by simpa using clean
  have start := addSystems_start env listClean (List.cons_ne_nil _ _) others earlyClean
  have man : addOneSystem env (pathOf ([] :: fields)) (manpathOf []) (ascii "man") =
      .some (manpathOf ([] :: fields)) := rfl
  rw [finds] at start
  rw [List.foldlM_append, start]
  exact congrArg (Option.bind · fun manpath =>
    late.foldlM (addOneSystem env (pathOf ([] :: fields))) manpath) man

theorem found_man_leading {early : List Bytes} (late : List Bytes) (filled : [] ∉ fields)
    (finds : env.found ([] :: fields) early [] = []) :
    env.found ([] :: fields) (early ++ ascii "man" :: late) [] = env.found ([] :: fields) late fields := by
  have step : env.expandName ([] :: fields) [] (ascii "man") = fields := by
    rw [PathEnv.expandName, if_pos rfl, filter_nil_cons filled, extend_nil]
  rw [PathEnv.found_append, finds, PathEnv.found_cons, step]

/-- What the systems behind the first "man" come to. -/
theorem late_leading {late expanded : List Bytes} (lateClean : ∀ name ∈ late, colon ∉ name) (filled : [] ∉ fields)
    (clean : ∀ field ∈ fields, colon ∉ field) (some : fields ≠ []) (default : Bytes) :
    (∃ path, (late.foldlM (addOneSystem env (pathOf ([] :: fields))) (manpathOf ([] :: fields))).map
        (·.getD default) = .some path ∧ path.splitOn colon = [] :: expanded) ↔
      (ascii "man" ∉ late ∨ fields.length = 1) ∧ env.found ([] :: fields) late fields = expanded := by
  have listClean : ∀ field ∈ [] :: fields, colon ∉ field := by simpa using clean
  by_cases once : ascii "man" ∉ late ∨ fields.length = 1
  · have foundClean := found_clean env listClean lateClean clean
    have shape : (pathOf ([] :: env.found ([] :: fields) late fields)).splitOn colon =
        [] :: env.found ([] :: fields) late fields :=
      splitOn_pathOf (by simpa using foundClean) (List.cons_ne_nil _ _)
    rw [addSystems_leading lateClean once filled clean some clean (List.Subset.refl _),
      manpathOf_some (List.cons_ne_nil _ _)]
    constructor
    · rintro ⟨path, result, parts⟩
      obtain rfl := Option.some.inj result
      exact ⟨once, (List.cons_eq_cons.mp (shape.symm.trans parts)).2⟩
    · rintro ⟨_, same⟩
      exact ⟨_, rfl, shape.trans (congrArg ([] :: ·) same)⟩
  · refine iff_of_false ?_ fun kept => once kept.1
    rintro ⟨path, result, _⟩
    rw [not_or, not_not] at once
    rw [addSystems_freed lateClean once.1 filled clean some once.2] at result
    cases result

/-- Where a system before "man" has a directory, the path does not start with an empty
component. -/
theorem starts_filled {early late expanded : List Bytes} {path : Bytes} (clean : ∀ field ∈ fields, colon ∉ field)
    (others : ascii "man" ∉ early) (earlyClean : ∀ name ∈ early, colon ∉ name)
    (finds : env.found ([] :: fields) early [] ≠ [])
    (result : ((early ++ late).foldlM (addOneSystem env (pathOf ([] :: fields))) none).map
      (·.getD (pathOf ([] :: fields))) = some path) :
    path.splitOn colon ≠ [] :: expanded := by
  intro shape
  have listClean : ∀ field ∈ [] :: fields, colon ∉ field := by simpa using clean
  have starts := addSystems_starts listClean (List.cons_ne_nil _ _) others earlyClean finds result
  obtain ⟨first, rest, found⟩ := List.exists_cons_of_ne_nil finds
  rw [found, shape] at starts
  obtain ⟨rfl, _⟩ := List.cons_prefix_cons.mp starts
  exact found_filled env ([] :: fields) early (found ▸ List.mem_cons_self ..)

theorem addSystemManpath_leading (systems : Option Bytes) (filled : [] ∉ fields)
    (clean : ∀ field ∈ fields, colon ∉ field) (some : fields ≠ []) :
    (∃ path, addSystemManpath env systems (colon :: pathOf fields) = .some path ∧
      path.splitOn colon = [] :: env.expansion (env.names systems) fields) ↔
    env.LeadingKept (env.names systems) fields := by
  have listClean : ∀ field ∈ [] :: fields, colon ∉ field := by simpa using clean
  have allNames : ∀ name ∈ env.names systems, colon ∉ name := fun _ => names_clean
  rw [addSystemManpath_eq, ← pathOf_nil_cons some]
  unfold PathEnv.LeadingKept
  generalize env.names systems = names at allNames ⊢
  obtain ⟨others, split⟩ := names_split names
  generalize names.takeWhile (· ≠ ascii "man") = early at others split ⊢
  rw [← found_eq_nil_iff others]
  rcases split with rfl | ⟨late, rfl⟩
  · by_cases finds : env.found ([] :: fields) names [] = []
    · have nothing := found_eq_nil_of_subset others (List.subset_cons_self [] fields) finds
      have start := addSystems_start env listClean (List.cons_ne_nil _ _) others allNames
      have count : names.count (ascii "man") ≤ 1 := by
        rw [List.count_eq_zero_of_not_mem others]
        exact Nat.zero_le 1
      have same : env.expansion names ([] :: fields) = fields := by
        rw [PathEnv.expansion, if_pos finds, filter_nil_cons filled]
      rw [start, finds, same, expansion_of_none filled nothing]
      exact iff_of_true ⟨_, rfl, splitOn_pathOf listClean (List.cons_ne_nil _ _)⟩ ⟨rfl, Or.inl count, rfl⟩
    · refine iff_of_false ?_ fun kept => finds kept.1
      rintro ⟨path, result, shape⟩
      rw [← List.append_nil names] at result
      exact starts_filled clean others allNames finds result shape
  · have earlyClean := fun name member => allNames name (List.mem_append_left _ member)
    have lateClean := fun name member => allNames name (List.mem_append_right _ (List.mem_cons_of_mem _ member))
    by_cases finds : env.found ([] :: fields) early [] = []
    · have whole := found_man_leading late filled finds
      have more : env.found ([] :: fields) late fields ≠ [] := fun empty =>
        some (List.prefix_nil.mp (empty ▸ prefix_found env ([] :: fields) late fields))
      have counts : (early ++ ascii "man" :: late).count (ascii "man") ≤ 1 ↔ ascii "man" ∉ late := by
        rw [List.count_append, List.count_eq_zero_of_not_mem others, List.count_cons_self, ← List.count_eq_zero]
        omega
      rw [addSystems_man_leading late clean others earlyClean finds, counts, expansion_of_found more whole,
        late_leading lateClean filled clean some]
      exact (and_iff_right finds).symm
    · refine iff_of_false ?_ fun kept => finds kept.1
      rintro ⟨path, result, shape⟩
      exact starts_filled clean others earlyClean finds result shape

end Leading

section Trailing

theorem clean_concat (clean : ∀ field ∈ fields, colon ∉ field) : ∀ field ∈ fields ++ [[]], colon ∉ field := by
  intro field member
  rcases List.mem_append.mp member with first | last
  · exact clean field first
  · simp [List.mem_singleton.mp last]

/-- A repeated component is always followed by a separator here. -/
theorem dedups_trailing {toks : List Bytes} (tokens : ∀ tok ∈ toks, tok ≠ [] ∧ colon ∉ tok)
    (clean : ∀ field ∈ fields, colon ∉ field) :
    ((∃ field ∈ fields, field ∈ toks) → toks.foldlM (fun app tok => dedup tok app) (pathOf (fields ++ [[]])) = none) ∧
    ((∀ field ∈ fields, field ∉ toks) →
      toks.foldlM (fun app tok => dedup tok app) (pathOf (fields ++ [[]])) = some (pathOf (fields ++ [[]]))) := by
  have listClean := clean_concat clean
  induction toks with
  | nil => exact ⟨nofun, fun _ => rfl⟩
  | cons tok toks ih =>
    obtain ⟨freed, ends⟩ := ih fun other member => tokens other (List.mem_cons_of_mem _ member)
    obtain ⟨nonempty, tokClean⟩ := tokens tok (List.mem_cons_self ..)
    rw [List.foldlM_cons]
    by_cases repeated : tok ∈ fields
    · rw [dedup_freed listClean nonempty tokClean (by simpa using repeated)]
      exact ⟨fun _ => rfl, fun absent => absurd (List.mem_cons_self ..) (absent tok repeated)⟩
    · rw [dedup_absent listClean nonempty tokClean (by simp [repeated, nonempty])]
      refine ⟨?_, fun absent => ends fun field member later => absent field member (List.mem_cons_of_mem _ later)⟩
      rintro ⟨field, member, inside⟩
      refine freed ⟨field, member, (List.mem_cons.mp inside).resolve_left ?_⟩
      rintro rfl
      exact repeated member

theorem addOneSystem_trailing (filled : [] ∉ fields) (clean : ∀ field ∈ fields, colon ∉ field)
    (someFields : fields ≠ [])
    (accClean : ∀ field ∈ acc, colon ∉ field) (notBare : acc ≠ [[]]) :
    ((∃ field ∈ fields, field ∈ acc) →
      addOneSystem env (pathOf (fields ++ [[]])) (manpathOf acc) (ascii "man") = none) ∧
    ((∀ field ∈ fields, field ∉ acc) → addOneSystem env (pathOf (fields ++ [[]])) (manpathOf acc) (ascii "man") =
      some (manpathOf (acc ++ (fields ++ [[]])))) := by
  have more : fields ++ [[]] ≠ [] := List.append_ne_nil_of_right_ne_nil _ (List.cons_ne_nil _ _)
  rw [addOneSystem, if_neg (not_not.mpr rfl)]
  by_cases nothing : acc = []
  · subst nothing
    exact ⟨fun repeated => by simp at repeated, fun _ => by rw [List.nil_append, manpathOf_some more]; rfl⟩
  · have some := pathOf_ne_nil nothing notBare
    have tokens : ∀ tok ∈ acc.filter (· ≠ []), tok ≠ [] ∧ colon ∉ tok := fun tok inside =>
      ⟨of_decide_eq_true (List.mem_filter.mp inside).2, accClean tok (List.mem_filter.mp inside).1⟩
    have inside : ∀ field ∈ fields, field ∈ acc.filter (· ≠ []) ↔ field ∈ acc := by
      intro field member
      have full : field ≠ [] := fun empty => filled (empty ▸ member)
      simp [full]
    have left : pathOf (fields ++ [[]]) ≠ [] :=
      pathOf_ne_nil more fun bare => someFields (by simpa using bare)
    obtain ⟨freed, ends⟩ := dedups_trailing tokens clean
    rw [manpathOf_some nothing, manpathOf_some (List.append_ne_nil_of_left_ne_nil nothing _)]
    simp only [pathappend, if_neg some, splitOn_pathOf accClean nothing]
    constructor
    · rintro ⟨field, member, repeated⟩
      rw [freed ⟨field, member, (inside field member).mpr repeated⟩]
      rfl
    · intro absent
      rw [ends fun field member repeated => absent field member ((inside field member).mp repeated), Option.map_some,
        if_pos left, pathOf_append nothing more]
      rfl

/-- If "man" is named again the search goes on in the freed buffer. -/
theorem addSystems_trailing_freed (namesClean : ∀ name ∈ names, colon ∉ name) (again : ascii "man" ∈ names)
    (filled : [] ∉ fields) (clean : ∀ field ∈ fields, colon ∉ field) (some : fields ≠ [])
    (accClean : ∀ field ∈ acc, colon ∉ field) (notBare : acc ≠ [[]]) (inside : fields ⊆ acc) :
    names.foldlM (addOneSystem env (pathOf (fields ++ [[]]))) (manpathOf acc) = none := by
  obtain ⟨early, late, rfl, others⟩ := List.eq_append_cons_of_mem again
  have earlyClean := fun name member => namesClean name (List.mem_append_left _ member)
  have listClean := clean_concat clean
  have more : fields ++ [[]] ≠ [] := List.append_ne_nil_of_right_ne_nil _ (List.cons_ne_nil _ _)
  have still : env.found (fields ++ [[]]) early acc ≠ [[]] := found_notBare notBare
  obtain ⟨field, member⟩ := List.exists_mem_of_ne_nil fields some
  have there : field ∈ env.found (fields ++ [[]]) early acc := (prefix_found env _ early acc).subset (inside member)
  have foundClean := found_clean env listClean earlyClean accClean
  have stops := (@addOneSystem_trailing env _ _ filled clean some foundClean still).1
    ⟨field, member, there⟩
  rw [List.foldlM_append, addSystems_other listClean more others earlyClean accClean notBare]
  exact congrArg (Option.bind · fun manpath => late.foldlM (addOneSystem env (pathOf (fields ++ [[]]))) manpath) stops

/-- The systems around the only "man". -/
theorem man_once {early late early' late' : List Bytes} (others : ascii "man" ∉ early)
    (others' : ascii "man" ∉ early')
    (same : early ++ ascii "man" :: late = early' ++ ascii "man" :: late') : early = early' ∧ late = late' := by
  have cut := Separated.cut_append_cons others late
  rw [same, Separated.cut_append_cons others' late'] at cut
  simp only [Prod.mk.injEq, Option.some.injEq] at cut
  exact ⟨cut.1.symm, cut.2.symm⟩

/-- What follows a path with an empty component at its end. -/
theorem grown_ends {front found new expanded : List Bytes} (shape : found = front ++ [[]] ++ new)
    (filled : [] ∉ new) :
    found = expanded ++ [[]] ↔ new = [] ∧ front = expanded := by
  subst shape
  constructor
  · intro same
    rcases List.eq_nil_or_concat new with rfl | ⟨init, last, rfl⟩
    · rw [List.append_nil] at same
      exact ⟨rfl, List.append_cancel_right same⟩
    · rw [List.concat_eq_append, ← List.append_assoc] at same
      have empty : last = [] := List.singleton_inj.mp (List.append_inj_right' same rfl)
      exact absurd (by simp [empty]) filled
  · rintro ⟨rfl, rfl⟩
    exact List.append_nil _

/-- A list with "man" in it is kept as the systems around that "man" say. -/
theorem trailingKept_man {early late : List Bytes} (others : ascii "man" ∉ early) :
    env.TrailingKept (early ++ ascii "man" :: late) fields ↔
      ascii "man" ∉ late ∧ (∀ field ∈ fields, field ∉ env.found (fields ++ [[]]) early []) ∧
        (∀ name ∈ late, ∀ dir ∈ env.offers (fields ++ [[]]) name,
          dir ∈ env.found (fields ++ [[]]) early [] ++ fields) ∧
        env.found (fields ++ [[]]) early [] ++ fields = env.expansion (early ++ ascii "man" :: late) fields := by
  constructor
  · rintro (⟨absent, _⟩ | ⟨early', late', same, others', rest⟩)
    · exact absurd (List.mem_append_right early (List.mem_cons_self ..)) absent
    · obtain ⟨rfl, rfl⟩ := man_once others others' same
      exact rest
  · exact fun rest => Or.inr ⟨early, late, rfl, others, rest⟩

/-- What the systems behind the first "man" come to. -/
theorem late_trailing {late expanded : List Bytes} (lateClean : ∀ name ∈ late, colon ∉ name) (filled : [] ∉ fields)
    (clean : ∀ field ∈ fields, colon ∉ field) (some : fields ≠ []) (accClean : ∀ field ∈ acc, colon ∉ field)
    (default : Bytes) :
    (∃ path, (late.foldlM (addOneSystem env (pathOf (fields ++ [[]]))) (manpathOf (acc ++ (fields ++ [[]])))).map
        (·.getD default) = .some path ∧ path.splitOn colon = expanded ++ [[]]) ↔
      ascii "man" ∉ late ∧ (∀ name ∈ late, ∀ dir ∈ env.offers (fields ++ [[]]) name, dir ∈ acc ++ fields) ∧
        acc ++ fields = expanded := by
  have more : fields ++ [[]] ≠ [] := List.append_ne_nil_of_right_ne_nil _ (List.cons_ne_nil _ _)
  have listClean := clean_concat clean
  have nextClean : ∀ field ∈ acc ++ (fields ++ [[]]), colon ∉ field := by
    intro field member
    exact (List.mem_append.mp member).elim (accClean field) (listClean field)
  have nextBare : acc ++ (fields ++ [[]]) ≠ [[]] := by
    intro bare
    have length := congrArg List.length bare
    have positive := List.length_pos_of_ne_nil some
    simp only [List.length_append, List.length_singleton] at length
    omega
  by_cases again : ascii "man" ∈ late
  · have inside : fields ⊆ acc ++ (fields ++ [[]]) := fun field member => by simp [member]
    rw [addSystems_trailing_freed lateClean again filled clean some nextClean nextBare inside]
    exact iff_of_false (fun ⟨_, result, _⟩ => by cases result) fun kept => kept.1 again
  · obtain ⟨new, shape, newFilled⟩ := found_new env (fields ++ [[]]) late (acc ++ (fields ++ [[]]))
    have whole : env.found (fields ++ [[]]) late (acc ++ (fields ++ [[]])) ≠ [] := by
      rw [shape]
      simp
    have result := splitOn_pathOf (found_clean env listClean lateClean nextClean) whole
    have nothingNew : (∀ name ∈ late, ∀ dir ∈ env.offers (fields ++ [[]]) name, dir ∈ acc ++ fields) ↔ new = [] := by
      have same : env.found (fields ++ [[]]) late (acc ++ (fields ++ [[]])) = acc ++ (fields ++ [[]]) ↔ new = [] := by
        rw [shape, List.append_right_eq_self]
      rw [← same, found_eq_self_iff again]
      refine forall₂_congr fun name _ => forall₂_congr fun dir offered => ?_
      have full : dir ≠ [] := fun empty => offers_filled _ _ (empty ▸ offered)
      simp [full]
    have ends := @grown_ends (acc ++ fields) _ new expanded (shape.trans (by simp only [List.append_assoc])) newFilled
    rw [addSystems_other listClean more again lateClean nextClean nextBare, manpathOf_some whole, nothingNew, ← ends]
    constructor
    · rintro ⟨path, found, parts⟩
      obtain rfl := Option.some.inj found
      exact ⟨again, result.symm.trans parts⟩
    · rintro ⟨_, same⟩
      exact ⟨_, rfl, result.trans same⟩

/-- Without "man" the path is one of directories, or the list itself. -/
theorem systems_trailing (namesClean : ∀ name ∈ names, colon ∉ name) (others : ascii "man" ∉ names)
    (filled : [] ∉ fields) (clean : ∀ field ∈ fields, colon ∉ field) :
    (∃ path, (names.foldlM (addOneSystem env (pathOf (fields ++ [[]]))) none).map (·.getD (pathOf (fields ++ [[]]))) =
        some path ∧ path.splitOn colon = env.expansion names fields ++ [[]]) ↔
      env.found (fields ++ [[]]) names [] = [] := by
  have more : fields ++ [[]] ≠ [] := List.append_ne_nil_of_right_ne_nil _ (List.cons_ne_nil _ _)
  have listClean := clean_concat clean
  rw [addSystems_start env listClean more others namesClean]
  by_cases nothing : env.found (fields ++ [[]]) names [] = []
  · have plain := found_eq_nil_of_subset others (List.subset_append_left fields [[]]) nothing
    rw [nothing, expansion_of_none filled plain]
    exact iff_of_true ⟨_, rfl, splitOn_pathOf listClean more⟩ rfl
  · rw [manpathOf_some nothing]
    refine iff_of_false ?_ nothing
    rintro ⟨path, found, parts⟩
    obtain rfl := Option.some.inj found
    have foundClean := found_clean env listClean namesClean fun _ member => absurd member List.not_mem_nil
    have filledAll := found_filled env (fields ++ [[]]) names
    rw [(splitOn_pathOf foundClean nothing).symm.trans parts] at filledAll
    exact filledAll (by simp)

theorem addSystemManpath_trailing (systems : Option Bytes) (filled : [] ∉ fields)
    (clean : ∀ field ∈ fields, colon ∉ field) (some : fields ≠ []) :
    (∃ path, addSystemManpath env systems (pathOf fields ++ [colon]) = .some path ∧
      path.splitOn colon = env.expansion (env.names systems) fields ++ [[]]) ↔
    env.TrailingKept (env.names systems) fields := by
  have more : fields ++ [[]] ≠ [] := List.append_ne_nil_of_right_ne_nil _ (List.cons_ne_nil _ _)
  have listClean := clean_concat clean
  have text : pathOf fields ++ [colon] = pathOf (fields ++ [[]]) :=
    (pathOf_append some (List.cons_ne_nil [] [])).symm
  have allNames : ∀ name ∈ env.names systems, colon ∉ name := fun _ => names_clean
  rw [addSystemManpath_eq, text]
  generalize env.names systems = names at allNames ⊢
  by_cases man : ascii "man" ∈ names
  · obtain ⟨early, late, rfl, others⟩ := List.eq_append_cons_of_mem man
    have earlyClean := fun name member => allNames name (List.mem_append_left _ member)
    have lateClean := fun name member => allNames name (List.mem_append_right _ (List.mem_cons_of_mem _ member))
    have foundClean := found_clean env listClean earlyClean fun _ member => absurd member List.not_mem_nil
    have notBare : env.found (fields ++ [[]]) early [] ≠ [[]] := found_notBare (by simp)
    obtain ⟨stops, goes⟩ := @addOneSystem_trailing env _ _ filled clean some foundClean notBare
    have loop : (early ++ ascii "man" :: late).foldlM (addOneSystem env (pathOf (fields ++ [[]]))) none =
        (addOneSystem env (pathOf (fields ++ [[]])) (manpathOf (env.found (fields ++ [[]]) early []))
          (ascii "man")).bind fun manpath => late.foldlM (addOneSystem env (pathOf (fields ++ [[]]))) manpath := by
      rw [List.foldlM_append, addSystems_start env listClean more others earlyClean]
      rfl
    rw [trailingKept_man others, loop]
    by_cases disjoint : ∀ field ∈ fields, field ∉ env.found (fields ++ [[]]) early []
    · rw [goes disjoint, Option.bind_some, late_trailing lateClean filled clean some foundClean,
        and_iff_right disjoint]
    · have repeated : ∃ field ∈ fields, field ∈ env.found (fields ++ [[]]) early [] := by simpa using disjoint
      rw [stops repeated]
      exact iff_of_false (fun ⟨_, result, _⟩ => by cases result) fun kept => disjoint kept.2.1
  · rw [systems_trailing allNames man filled clean, found_eq_nil_iff man]
    constructor
    · exact fun nothing => Or.inl ⟨man, nothing⟩
    · rintro (⟨_, nothing⟩ | ⟨early, late, rfl, _⟩)
      · exact nothing
      · exact absurd (List.mem_append_right early (List.mem_cons_self ..)) man

end Trailing

theorem expansion_some (filled : [] ∉ fields) (some : fields ≠ []) : env.expansion names fields ≠ [] := by
  unfold PathEnv.expansion
  split
  · rwa [filter_filled filled]
  · assumption

theorem expansion_clean (env : PathEnv) (namesClean : ∀ name ∈ names, colon ∉ name)
    (clean : ∀ field ∈ fields, colon ∉ field) :
    ∀ field ∈ env.expansion names fields, colon ∉ field := by
  unfold PathEnv.expansion
  split
  · exact fun field member => clean field (List.mem_filter.mp member).1
  · exact found_clean env clean namesClean fun _ member => absurd member List.not_mem_nil

namespace UserPath

/-- A path of components neither starts nor ends with a separator. -/
theorem AreComponents.ends (are : AreComponents fields) :
    pathOf fields ≠ [] ∧ (pathOf fields).head? ≠ some colon ∧ (pathOf fields).getLast? ≠ some colon := by
  obtain ⟨more, filled, clean⟩ := are
  have some : pathOf fields ≠ [] := (pathOf_eq_nil filled).not.mpr more
  refine ⟨some, fun first => ?_, fun last => ?_⟩
  · obtain ⟨rest, shape⟩ := List.head?_eq_some_iff.mp first
    have split := splitOn_pathOf clean more
    rw [shape, ← List.nil_append (colon :: rest), List.splitOn_append_cons_self, List.splitOn_nil] at split
    exact filled (split ▸ List.mem_cons_self ..)
  · obtain ⟨front, shape⟩ := List.getLast?_eq_some_iff.mp last
    have split := splitOn_pathOf clean more
    rw [shape, List.splitOn_append_cons_self, List.splitOn_nil] at split
    exact filled (split ▸ List.mem_append_right _ (List.mem_singleton_self _))

/-- The first empty component is found. -/
theorem AreComponents.cutAt_doubled (are : AreComponents fields) (rest : Bytes) :
    Separated.cutAt [colon, colon] (pathOf fields ++ colon :: colon :: rest) = some (pathOf fields, rest) := by
  obtain ⟨more, filled, clean⟩ := are
  induction fields with
  | nil => exact absurd rfl more
  | cons field fields ih =>
    have fieldClean := clean field (List.mem_cons_self ..)
    cases fields with
    | nil =>
      have bare : pathOf [field] = field := List.intercalate_singleton
      have here : Separated.cutAt [colon, colon] ([colon, colon] ++ rest) = some ([], rest) :=
        Separated.cutAt_append (List.cons_ne_nil _ _) rest
      rw [List.cons_append, List.cons_append, List.nil_append] at here
      rw [bare, Separated.cutAt_clean_append fieldClean, here, Option.map_some, List.append_nil]
    | cons second fields =>
      rw [List.mem_cons, not_or] at filled
      have later := fun other member => clean other (List.mem_cons_of_mem field member)
      have next := ih (List.cons_ne_nil _ _) filled.2 later
      have head := (AreComponents.ends ⟨List.cons_ne_nil second fields, filled.2, later⟩).2.1
      have bare : pathOf [field] = field := List.intercalate_singleton
      have shape : pathOf (field :: second :: fields) = field ++ colon :: pathOf (second :: fields) := by
        have parts := @pathOf_append [field] (second :: fields) (List.cons_ne_nil _ _) (List.cons_ne_nil _ _)
        rwa [bare] at parts
      have other : ¬[colon, colon] <+: colon :: (pathOf (second :: fields) ++ colon :: colon :: rest) := by
        rintro ⟨after, starts⟩
        cases text : pathOf (second :: fields) with
        | nil => exact filled.2 (absurd ((pathOf_eq_nil filled.2).mp text) (List.cons_ne_nil _ _))
        | cons b text' =>
          rw [text] at starts head
          simp only [List.cons_append, List.nil_append, List.cons.injEq, true_and] at starts
          exact head (congrArg some starts.1.symm)
      rw [shape, List.append_assoc, Separated.cutAt_clean_append fieldClean, List.cons_append,
        Separated.cutAt_cons other, next]
      rfl

end UserPath

open UserPath (AreComponents)

theorem getManpath_leading (set : env.manpath = some (colon :: pathOf fields)) (guessed : Bytes) :
    getManpath env systems guessed = (addSystemManpath env systems (colon :: pathOf fields)).map (guessed ++ ·) := by
  rw [getManpath, set]
  simp only [if_neg (List.cons_ne_nil _ _), List.head?_cons, if_pos]

theorem getManpath_trailing (are : AreComponents fields) (set : env.manpath = some (pathOf fields ++ [colon]))
    (guessed : Bytes) :
    getManpath env systems guessed =
      (addSystemManpath env systems (pathOf fields ++ [colon])).map (· ++ guessed) := by
  obtain ⟨more, first, _⟩ := are.ends
  have head : (pathOf fields ++ [colon]).head? ≠ some colon := by rwa [List.head?_append_of_ne_nil _ more]
  rw [getManpath, set]
  simp only [if_neg (List.append_ne_nil_of_left_ne_nil more _), if_neg head, List.getLast?_concat, if_pos]

theorem getManpath_doubled {after : List Bytes} (are : AreComponents fields) (areAfter : AreComponents after)
    (set : env.manpath = some (pathOf fields ++ colon :: colon :: pathOf after)) (guessed : Bytes) :
    getManpath env systems guessed = (addSystemManpath env systems (pathOf fields)).bind fun system1 =>
      (addSystemManpath env systems (colon :: pathOf after)).map fun system2 =>
        system1 ++ colon :: (guessed ++ system2) := by
  obtain ⟨more, first, _⟩ := are.ends
  obtain ⟨moreAfter, _, last⟩ := areAfter.ends
  have head : (pathOf fields ++ colon :: colon :: pathOf after).head? ≠ some colon := by
    rwa [List.head?_append_of_ne_nil _ more]
  have final : (pathOf fields ++ colon :: colon :: pathOf after).getLast? ≠ some colon := by
    rw [List.append_cons, List.append_cons, List.getLast?_append_of_ne_nil _ moreAfter]
    exact last
  rw [getManpath, set]
  simp only [if_neg (List.append_ne_nil_of_left_ne_nil more _), if_neg head, if_neg final, are.cutAt_doubled]

/-- The default path comes to stand where the empty component is exactly if the systems
leave that component in its place. -/
theorem getManpath_spliced_iff {user : UserPath} (wellFormed : user.WellFormed) (set : env.manpath = some user.text)
    (guessed : Bytes) :
    (∃ path, getManpath env systems guessed = some path ∧
      path.splitOn colon = user.spliced (env.expansion (env.names systems)) (guessed.splitOn colon)) ↔
    user.Kept env (env.names systems) := by
  cases user with
  | leading fields =>
    obtain ⟨more, filled, clean⟩ := wellFormed
    rw [getManpath_leading set]
    refine Iff.trans ?_ (addSystemManpath_leading systems filled clean more)
    simp only [Option.map_eq_some_iff, UserPath.spliced, exists_exists_and_eq_and,
      Separated.splitOn_append_eq_iff_left]
  | trailing fields =>
    obtain ⟨more, filled, clean⟩ := wellFormed
    rw [getManpath_trailing ⟨more, filled, clean⟩ set]
    refine Iff.trans ?_ (addSystemManpath_trailing systems filled clean more)
    simp only [Option.map_eq_some_iff, UserPath.spliced, exists_exists_and_eq_and,
      Separated.splitOn_append_eq_iff_right]
  | doubled before after =>
    obtain ⟨⟨more, filled, clean⟩, are⟩ := wellFormed
    obtain ⟨ends, freed⟩ := @addSystemManpath_plain env before systems clean more filled
    rw [getManpath_doubled ⟨more, filled, clean⟩ are set]
    by_cases plainly : env.AddsPlainly before (env.names systems) []
    · have split : (pathOf (env.expansion (env.names systems) before)).splitOn colon =
          env.expansion (env.names systems) before :=
        splitOn_pathOf (expansion_clean env (fun _ => names_clean) clean) (expansion_some filled more)
      have leading := @addSystemManpath_leading env _ systems are.2.1 are.2.2 are.1
      refine Iff.trans ?_ (leading.trans (and_iff_right plainly).symm)
      rw [ends plainly, Option.bind_some]
      simp only [Option.map_eq_some_iff, UserPath.spliced, exists_exists_and_eq_and, List.splitOn_append_cons_self,
        split, List.append_assoc, List.append_cancel_left_eq, Separated.splitOn_append_eq_iff_left]
    · rw [freed plainly]
      exact iff_of_false (fun ⟨_, result, _⟩ => by cases result) fun kept => plainly kept.1

/-- Directories of a system. -/
def newOS : PathEnv where
  system := none
  manpath := some (ascii ":/b")
  isDirectory path := if path = ascii "/b/newOS" then 1 else -1

theorem getManpath_spliced_plain : ∃ path, getManpath newOS (some (ascii "man")) (ascii "/usr/man") = some path ∧
    path.splitOn colon = (UserPath.leading [ascii "/b"]).spliced (newOS.expansion (newOS.names (some (ascii "man"))))
      ((ascii "/usr/man").splitOn colon) := by
  have wellFormed : (UserPath.leading [ascii "/b"]).WellFormed :=
    ⟨by decide +kernel, by decide +kernel, by decide +kernel⟩
  have kept : newOS.LeadingKept (newOS.names (some (ascii "man"))) [ascii "/b"] :=
    ⟨by decide +kernel, by decide +kernel, by decide +kernel⟩
  exact (getManpath_spliced_iff wellFormed (by decide +kernel) (ascii "/usr/man")).mpr kept

/-- The separator is gone when the systems rebuild the list. -/
theorem getManpath_glued : (UserPath.leading [ascii "/b"]).WellFormed ∧
    newOS.manpath = some (UserPath.leading [ascii "/b"]).text ∧
    ¬∃ path, getManpath newOS (some (ascii "newOS")) (ascii "/usr/man") = some path ∧
      path.splitOn colon =
        (UserPath.leading [ascii "/b"]).spliced (newOS.expansion (newOS.names (some (ascii "newOS"))))
        ((ascii "/usr/man").splitOn colon) := by
  have glued : getManpath newOS (some (ascii "newOS")) (ascii "/usr/man") = some (ascii "/usr/man/b/newOS") := by
    decide +kernel
  refine ⟨⟨by decide +kernel, by decide +kernel, by decide +kernel⟩, by decide +kernel, ?_⟩
  rintro ⟨path, result, parts⟩
  rw [glued] at result
  obtain rfl := Option.some.inj result
  exact absurd parts (by decide +kernel)

end ManDb
