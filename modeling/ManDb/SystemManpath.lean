import ManDb.Manpath

namespace ManDb

/-- What the search path depends on: two variables of the environment and which
directories there are. -/
structure PathEnv where
  system : Option Bytes
  manpath : Option Bytes
  isDirectory : Bytes → Int

/-- `strtok (systems, ",:")`. -/
def systemTokens (systems : Bytes) : List Bytes :=
  (systems.splitOnP fun b => b = comma ∨ b = colon).filter (· ≠ [])

def addElement (env : PathEnv) (oneSystem : Bytes) (manpath : Option Bytes) (element : Bytes) :
    Option (Option Bytes) :=
  let newdir := element ++ slash :: oneSystem
  if env.isDirectory newdir = 1 then (pathappend manpath newdir).map some else some manpath

/-- A turn of the loop over the systems, for the path so far. -/
def addOneSystem (env : PathEnv) (manpathlist : Bytes) (manpath : Option Bytes) (oneSystem : Bytes) :
    Option (Option Bytes) :=
  if oneSystem ≠ ascii "man" then (manpathlist.splitOn colon).foldlM (addElement env oneSystem) manpath
  else (pathappend manpath manpathlist).map some

/-- It gives nothing where `pathappend` does not. -/
def addSystemManpath (env : PathEnv) (systems : Option Bytes) (manpathlist : Bytes) : Option Bytes :=
  match systems.or env.system with
  | none => some manpathlist
  | some systems =>
    if systems = [] then some manpathlist
    else ((systemTokens systems).foldlM (addOneSystem env manpathlist) none).map (·.getD manpathlist)

/-- The systems that are asked for. -/
def PathEnv.names (env : PathEnv) (systems : Option Bytes) : List Bytes :=
  ((systems.or env.system).map systemTokens).getD []

/-- What a system makes of these components. -/
def PathEnv.offers (env : PathEnv) (fields : List Bytes) (name : Bytes) : List Bytes :=
  (fields.map (· ++ slash :: name)).filter (env.isDirectory · = 1)

/-- The components so far with those of one more system. -/
def PathEnv.expandName (env : PathEnv) (fields acc : List Bytes) (name : Bytes) : List Bytes :=
  if name = ascii "man" then extend acc (fields.filter (· ≠ []))
  else (env.offers fields name).foldl (fun acc dir => extend acc [dir]) acc

def PathEnv.found (env : PathEnv) (fields names acc : List Bytes)  : List Bytes :=
  names.foldl (env.expandName fields) acc

/-- The system expansion of components; empty ones stand for the root directory only. -/
def PathEnv.expansion (env : PathEnv) (names fields : List Bytes) : List Bytes :=
  if env.found fields names [] = [] then fields.filter (· ≠ []) else env.found fields names []

/-- Each time the components are added, those that are there already are at their end. -/
def PathEnv.AddsPlainly (env : PathEnv) (fields names acc : List Bytes) : Prop :=
  ∀ early late, names = early ++ ascii "man" :: late → RepeatsAtEnd (env.found fields early acc) fields

/-- The path with these components, if there are any. -/
def manpathOf (acc : List Bytes) : Option Bytes := if acc = [] then none else some (pathOf acc)

variable {env : PathEnv} {fields names acc dirs : List Bytes} {name dir : Bytes}

theorem PathEnv.found_cons (fields names acc : List Bytes) (name : Bytes) :
    env.found fields (name :: names) acc = env.found fields names (env.expandName fields acc name) := rfl

theorem PathEnv.found_append (fields names acc late : List Bytes) :
    env.found fields (names ++ late) acc = env.found fields late (env.found fields names acc) := List.foldl_append

theorem addSystemManpath_eq (systems : Option Bytes) (manpathlist : Bytes) :
    addSystemManpath env systems manpathlist =
      ((env.names systems).foldlM (addOneSystem env manpathlist) none).map (·.getD manpathlist) := by
  unfold addSystemManpath PathEnv.names
  cases systems.or env.system with
  | none => rfl
  | some systems =>
    simp only [Option.map_some, Option.getD_some]
    split
    · rename_i empty
      rw [empty]
      rfl
    · rfl

theorem names_clean {systems : Option Bytes} (member : name ∈ env.names systems) : colon ∉ name := by
  unfold PathEnv.names at member
  cases effective : systems.or env.system with
  | none =>
    rw [effective] at member
    cases member
  | some systems =>
    rw [effective] at member
    exact Separated.not_mem_of_mem_splitOnP (by simp) (List.mem_filter.mp member).1

theorem extend_singleton (acc : List Bytes) (dir : Bytes) :
    extend acc [dir] = if dir ∈ acc then acc else acc ++ [dir] := by
  unfold extend
  split <;> simp [*]

theorem extend_nil (new : List Bytes) : extend [] new = new := by simp [extend]

theorem mem_extend {new : List Bytes} {field : Bytes} : field ∈ extend acc new ↔ field ∈ acc ∨ field ∈ new := by
  simp only [extend, List.mem_append, List.mem_filter, decide_eq_true_iff]
  tauto

theorem prefix_extend (acc new : List Bytes) : acc <+: extend acc new := List.prefix_append _ _

theorem mem_offers : dir ∈ env.offers fields name ↔
    ∃ field ∈ fields, field ++ slash :: name = dir ∧ env.isDirectory dir = 1 := by
  simp only [PathEnv.offers, List.mem_filter, List.mem_map, decide_eq_true_iff]
  constructor
  · rintro ⟨⟨field, member, same⟩, there⟩
    exact ⟨field, member, same, there⟩
  · rintro ⟨field, member, same, there⟩
    exact ⟨⟨field, member, same⟩, there⟩

theorem offers_mono {fields' : List Bytes} (sub : fields ⊆ fields') :
    env.offers fields name ⊆ env.offers fields' name := by
  intro dir member
  obtain ⟨field, inside, made⟩ := mem_offers.mp member
  exact mem_offers.mpr ⟨field, sub inside, made⟩

theorem offers_filled (fields : List Bytes) (name : Bytes) : [] ∉ env.offers fields name := by
  intro member
  obtain ⟨field, _, same, _⟩ := mem_offers.mp member
  exact List.append_ne_nil_of_right_ne_nil _ (List.cons_ne_nil _ _) same

theorem mem_addDirs {field : Bytes} :
    field ∈ dirs.foldl (fun acc dir => extend acc [dir]) acc ↔ field ∈ acc ∨ field ∈ dirs := by
  induction dirs generalizing acc with
  | nil => simp
  | cons dir dirs ih =>
    rw [List.foldl_cons, ih, mem_extend, List.mem_singleton, List.mem_cons, or_assoc]

theorem addDirs_new (filled : [] ∉ dirs) :
    ∃ new, dirs.foldl (fun acc dir => extend acc [dir]) acc = acc ++ new ∧ [] ∉ new := by
  induction dirs generalizing acc with
  | nil => exact ⟨[], (List.append_nil acc).symm, List.not_mem_nil⟩
  | cons dir dirs ih =>
    rw [List.mem_cons, not_or] at filled
    obtain ⟨new, shape, newFilled⟩ := @ih (extend acc [dir]) filled.2
    refine ⟨[dir].filter (· ∉ acc) ++ new, by rw [List.foldl_cons, shape, extend, List.append_assoc], ?_⟩
    exact List.not_mem_append (fun member => filled.1 (List.mem_singleton.mp (List.mem_filter.mp member).1)) newFilled

/-- A system adds components that are not empty. -/
theorem expandName_new (env : PathEnv) (fields acc : List Bytes) (name : Bytes) :
    ∃ new, env.expandName fields acc name = acc ++ new ∧ [] ∉ new := by
  unfold PathEnv.expandName
  split
  · exact ⟨_, rfl, by simp⟩
  · exact addDirs_new (offers_filled fields name)

theorem found_new (env : PathEnv) (fields names acc : List Bytes) :
    ∃ new, env.found fields names acc = acc ++ new ∧ [] ∉ new := by
  induction names generalizing acc with
  | nil => exact ⟨[], (List.append_nil acc).symm, List.not_mem_nil⟩
  | cons name names ih =>
    obtain ⟨first, shape, firstFilled⟩ := expandName_new env fields acc name
    obtain ⟨later, shape', laterFilled⟩ := ih (env.expandName fields acc name)
    refine ⟨first ++ later, by rw [PathEnv.found_cons, shape', shape, List.append_assoc], ?_⟩
    exact List.not_mem_append firstFilled laterFilled

theorem prefix_expandName (env : PathEnv) (fields acc : List Bytes) (name : Bytes) :
    acc <+: env.expandName fields acc name := by
  obtain ⟨new, shape, _⟩ := expandName_new env fields acc name
  exact ⟨new, shape.symm⟩

theorem prefix_found (env : PathEnv) (fields names acc : List Bytes) : acc <+: env.found fields names acc := by
  obtain ⟨new, shape, _⟩ := found_new env fields names acc
  exact ⟨new, shape.symm⟩

theorem expandName_filled (env : PathEnv) (fields : List Bytes) (name : Bytes) (accFilled : [] ∉ acc) :
    [] ∉ env.expandName fields acc name := by
  obtain ⟨new, shape, filled⟩ := expandName_new env fields acc name
  rw [shape, List.mem_append, not_or]
  exact ⟨accFilled, filled⟩

theorem found_filled (env : PathEnv) (fields names : List Bytes) : [] ∉ env.found fields names [] := by
  obtain ⟨new, shape, filled⟩ := found_new env fields names []
  rwa [shape]

theorem pathOf_ne_nil (some : acc ≠ []) (notBare : acc ≠ [[]]) : pathOf acc ≠ [] := fun empty =>
  (pathOf_eq_nil_iff.mp empty).elim some notBare

theorem manpathOf_nil : manpathOf [] = none := rfl

theorem manpathOf_some (some : acc ≠ []) : manpathOf acc = .some (pathOf acc) := if_neg some

/-- A single component is added unless it is there. -/
theorem pathappend_single (accClean : ∀ field ∈ acc, colon ∉ field) (notBare : acc ≠ [[]]) (filled : dir ≠ [])
    (clean : colon ∉ dir) : (pathappend (manpathOf acc) dir).map some = some (manpathOf (extend acc [dir])) := by
  have bare : pathOf [dir] = dir := List.intercalate_singleton
  by_cases nothing : acc = []
  · rw [nothing, extend_nil, manpathOf_some (List.cons_ne_nil _ _), bare]
    rfl
  · have more : extend acc [dir] ≠ [] := fun empty => nothing (List.prefix_nil.mp (empty ▸ prefix_extend acc [dir]))
    have condition : RepeatsAtEnd (acc.filter (· ≠ [])) [dir] := by
      intro pre tok post _ member
      have short := List.length_filter_le (· ∉ pre) [dir]
      have positive := List.length_pos_of_mem member
      rw [List.length_dropLast, List.length_singleton] at *
      omega
    have added := (pathappend_fields accClean (pathOf_ne_nil nothing notBare) (by simpa using filled)
      (by simpa using clean)).1 condition
    rw [bare] at added
    rw [manpathOf_some nothing, added, manpathOf_some more]
    rfl

theorem extend_notBare {new : List Bytes} (notBare : acc ≠ [[]]) (filled : [] ∉ new) : extend acc new ≠ [[]] := by
  intro bare
  rcases List.append_eq_singleton_iff.mp bare with ⟨_, left⟩ | ⟨same, _⟩
  · exact filled (List.mem_filter.mp (left ▸ List.mem_singleton_self [])).1
  · exact notBare same

/-- The loop over the components for a system other than "man". -/
theorem addElements (clean : ∀ field ∈ fields, colon ∉ field) (nameClean : colon ∉ name)
    (accClean : ∀ field ∈ acc, colon ∉ field) (notBare : acc ≠ [[]]) :
    fields.foldlM (addElement env name) (manpathOf acc) =
      some (manpathOf ((env.offers fields name).foldl (fun acc dir => extend acc [dir]) acc)) := by
  induction fields generalizing acc with
  | nil => rfl
  | cons field fields ih =>
    have later := fun other member => clean other (List.mem_cons_of_mem field member)
    rw [List.foldlM_cons, addElement, PathEnv.offers, List.map_cons]
    by_cases there : env.isDirectory (field ++ slash :: name) = 1
    · have dirClean : colon ∉ field ++ slash :: name := by
        rw [List.mem_append, List.mem_cons, not_or, not_or]
        exact ⟨clean field (List.mem_cons_self ..), by decide, nameClean⟩
      have filled : field ++ slash :: name ≠ [] := List.append_ne_nil_of_right_ne_nil _ (List.cons_ne_nil _ _)
      have nextClean : ∀ other ∈ extend acc [field ++ slash :: name], colon ∉ other := by
        intro other member
        rcases mem_extend.mp member with old | new
        · exact accClean other old
        · exact List.mem_singleton.mp new ▸ dirClean
      rw [List.filter_cons_of_pos (by simpa using there), List.foldl_cons, if_pos there,
        pathappend_single accClean notBare filled dirClean]
      exact ih later nextClean (extend_notBare notBare (by simp))
    · rw [List.filter_cons_of_neg (by simpa using there), if_neg there]
      exact ih later accClean notBare

theorem expandName_clean (env : PathEnv) (clean : ∀ field ∈ fields, colon ∉ field) (nameClean : colon ∉ name)
    (accClean : ∀ field ∈ acc, colon ∉ field) :
    ∀ field ∈ env.expandName fields acc name, colon ∉ field := by
  intro field member
  unfold PathEnv.expandName at member
  split at member
  · rcases mem_extend.mp member with old | new
    · exact accClean field old
    · exact clean field (List.mem_filter.mp new).1
  · rcases mem_addDirs.mp member with old | new
    · exact accClean field old
    · obtain ⟨element, offered, rfl, _⟩ := mem_offers.mp new
      rw [List.mem_append, List.mem_cons, not_or, not_or]
      exact ⟨clean element offered, by decide, nameClean⟩

theorem found_clean (env : PathEnv) (clean : ∀ field ∈ fields, colon ∉ field)
    (namesClean : ∀ name ∈ names, colon ∉ name) (accClean : ∀ field ∈ acc, colon ∉ field) :
    ∀ field ∈ env.found fields names acc, colon ∉ field := by
  induction names generalizing acc with
  | nil => exact accClean
  | cons name names ih =>
    exact ih (fun other member => namesClean other (List.mem_cons_of_mem _ member))
      (expandName_clean env clean (namesClean name (List.mem_cons_self ..)) accClean)

section Loop

variable (clean : ∀ field ∈ fields, colon ∉ field) (some : fields ≠ [])

include clean some

theorem addOneSystem_other (other : name ≠ ascii "man") (nameClean : colon ∉ name)
    (accClean : ∀ field ∈ acc, colon ∉ field) (notBare : acc ≠ [[]]) :
    addOneSystem env (pathOf fields) (manpathOf acc) name = .some (manpathOf (env.expandName fields acc name)) := by
  rw [addOneSystem, if_pos other, splitOn_pathOf clean some, addElements clean nameClean accClean notBare,
    PathEnv.expandName, if_neg other]

omit clean some in
theorem addDirs_notBare (filled : [] ∉ dirs) (notBare : acc ≠ [[]]) :
    dirs.foldl (fun acc dir => extend acc [dir]) acc ≠ [[]] := by
  induction dirs generalizing acc with
  | nil => exact notBare
  | cons dir dirs ih =>
    rw [List.mem_cons, not_or] at filled
    exact ih filled.2 (extend_notBare notBare (by simpa using filled.1))

omit clean some in
theorem expandName_notBare (notBare : acc ≠ [[]]) : env.expandName fields acc name ≠ [[]] := by
  unfold PathEnv.expandName
  split
  · exact extend_notBare notBare (by simp)
  · exact addDirs_notBare (offers_filled fields name) notBare

omit clean some in
theorem found_notBare (notBare : acc ≠ [[]]) : env.found fields names acc ≠ [[]] := by
  induction names generalizing acc with
  | nil => exact notBare
  | cons name names ih => exact ih (expandName_notBare notBare)

/-- Systems other than "man" add what they are found to. -/
theorem addSystems_other (others : ascii "man" ∉ names) (namesClean : ∀ name ∈ names, colon ∉ name)
    (accClean : ∀ field ∈ acc, colon ∉ field) (notBare : acc ≠ [[]]) :
    names.foldlM (addOneSystem env (pathOf fields)) (manpathOf acc) =
      .some (manpathOf (env.found fields names acc)) := by
  induction names generalizing acc with
  | nil => rfl
  | cons name names ih =>
    rw [List.mem_cons, not_or] at others
    have nameClean := namesClean name (List.mem_cons_self ..)
    rw [List.foldlM_cons, addOneSystem_other clean some (Ne.symm others.1) nameClean accClean notBare]
    exact ih others.2 (fun other member => namesClean other (List.mem_cons_of_mem _ member))
      (expandName_clean env clean nameClean accClean) (expandName_notBare notBare)

/-- The system "man" adds the components themselves, if none of them is repeated but at the end. -/
theorem addOneSystem_man (filled : [] ∉ fields) (accClean : ∀ field ∈ acc, colon ∉ field) (accFilled : [] ∉ acc) :
    (RepeatsAtEnd acc fields → addOneSystem env (pathOf fields) (manpathOf acc) (ascii "man") =
      .some (manpathOf (env.expandName fields acc (ascii "man")))) ∧
    (¬RepeatsAtEnd acc fields → addOneSystem env (pathOf fields) (manpathOf acc) (ascii "man") = none) := by
  have fieldsAll : fields.filter (· ≠ []) = fields := filter_filled filled
  have more : extend acc fields ≠ [] := by
    intro empty
    obtain ⟨field, member⟩ := List.exists_mem_of_ne_nil fields some
    have inside : field ∈ extend acc fields := mem_extend.mpr (Or.inr member)
    rw [empty] at inside
    cases inside
  rw [addOneSystem, if_neg (not_not.mpr rfl), PathEnv.expandName, if_pos rfl, fieldsAll, manpathOf_some more]
  by_cases nothing : acc = []
  · rw [nothing, extend_nil]
    exact ⟨fun _ => rfl, fun not => absurd (repeatsAtEnd_nil fields) not⟩
  · have notBare : acc ≠ [[]] := fun bare => accFilled (bare ▸ List.mem_singleton_self [])
    obtain ⟨ends, freed⟩ := pathappend_fields accClean (pathOf_ne_nil nothing notBare) filled clean
    rw [filter_filled accFilled] at ends freed
    rw [manpathOf_some nothing]
    exact ⟨fun condition => by rw [ends condition]; rfl, fun not => by rw [freed not]; rfl⟩

end Loop

theorem addsPlainly_nil (fields acc : List Bytes) : env.AddsPlainly fields [] acc := by
  intro early late split
  simp at split

theorem addsPlainly_cons : env.AddsPlainly fields (name :: names) acc ↔
    (name = ascii "man" → RepeatsAtEnd acc fields) ∧
      env.AddsPlainly fields names (env.expandName fields acc name) := by
  constructor
  · intro adds
    refine ⟨fun man => adds [] names (by rw [man]; rfl), fun early late split => ?_⟩
    exact adds (name :: early) late (by rw [split]; rfl)
  · rintro ⟨first, later⟩ early late split
    cases early with
    | nil =>
      obtain ⟨man, _⟩ := List.cons_eq_cons.mp split
      exact first man
    | cons head early =>
      obtain ⟨rfl, rest⟩ := List.cons_eq_cons.mp split
      exact later early late rest

/-- The loop over the systems, for components none of which is empty. -/
theorem addSystems_plain (clean : ∀ field ∈ fields, colon ∉ field) (some : fields ≠ []) (filled : [] ∉ fields)
    (namesClean : ∀ name ∈ names, colon ∉ name) (accClean : ∀ field ∈ acc, colon ∉ field) (accFilled : [] ∉ acc) :
    (env.AddsPlainly fields names acc → names.foldlM (addOneSystem env (pathOf fields)) (manpathOf acc) =
      .some (manpathOf (env.found fields names acc))) ∧
    (¬env.AddsPlainly fields names acc → names.foldlM (addOneSystem env (pathOf fields)) (manpathOf acc) = none) := by
  induction names generalizing acc with
  | nil => exact ⟨fun _ => rfl, fun not => absurd (addsPlainly_nil fields acc) not⟩
  | cons name names ih =>
    have nameClean := namesClean name (List.mem_cons_self ..)
    obtain ⟨ends, freed⟩ := ih (fun other member => namesClean other (List.mem_cons_of_mem _ member))
      (expandName_clean env clean nameClean accClean) (expandName_filled env fields name accFilled)
    rw [addsPlainly_cons, List.foldlM_cons]
    by_cases man : name = ascii "man"
    · subst man
      obtain ⟨added, stops⟩ := @addOneSystem_man env _ _ clean some filled accClean accFilled
      by_cases condition : RepeatsAtEnd acc fields
      · rw [added condition]
        exact ⟨fun both => ends both.2, fun not => freed fun later => not ⟨fun _ => condition, later⟩⟩
      · rw [stops condition]
        exact ⟨fun both => absurd (both.1 rfl) condition, fun _ => rfl⟩
    · have notBare : acc ≠ [[]] := fun bare => accFilled (bare ▸ List.mem_singleton_self [])
      rw [addOneSystem_other clean some man nameClean accClean notBare]
      exact ⟨fun both => ends both.2, fun not => freed fun later => not ⟨fun same => absurd same man, later⟩⟩

/-- What the systems make of a path none of whose components is empty. -/
theorem addSystemManpath_plain (systems : Option Bytes) (clean : ∀ field ∈ fields, colon ∉ field) (some : fields ≠ [])
    (filled : [] ∉ fields) :
    (env.AddsPlainly fields (env.names systems) [] → addSystemManpath env systems (pathOf fields) =
      .some (pathOf (env.expansion (env.names systems) fields))) ∧
    (¬env.AddsPlainly fields (env.names systems) [] → addSystemManpath env systems (pathOf fields) = none) := by
  obtain ⟨ends, freed⟩ := @addSystems_plain env fields (env.names systems) [] clean some filled
    (fun _ => names_clean) nofun List.not_mem_nil
  rw [addSystemManpath_eq]
  refine ⟨fun condition => ?_, fun not => by rw [← manpathOf_nil, freed not]; rfl⟩
  rw [← manpathOf_nil, ends condition, PathEnv.expansion, filter_filled filled]
  split
  · rename_i nothing
    rw [nothing]
    rfl
  · rename_i more
    rw [manpathOf_some more]
    rfl

end ManDb
