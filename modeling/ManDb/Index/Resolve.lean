import ManDb.Apropos
import ManDb.Lib.Chain
import ManDb.Index.Homes
import ManDb.Index.Lookup
import ManDb.Index.StoreMap

namespace ManDb

/-- The loop of `resolve_pointers`, with the warning about a pointer loop at its end. -/
def resolveRoundsWarned (loc : Locale) (db : Store) (newpage : Bytes) :
    Nat → Option Mandata → Except Fatal (Option Mandata × Bool)
  | 0, _ => .ok (none, true)
  | _ + 1, none => .ok (none, false)
  | n + 1, some info =>
    if resolved info newpage then .ok (some info, false)
    else do
      let newinfo ← dblookupExact loc db (info.pointer.getD []) (some info.ext) true
      resolveRoundsWarned loc db newpage n newinfo

/-- `resolve_pointers`: its result, and whether it warns. -/
def resolvePointersWarned (loc : Locale) (db : Store) (info : Mandata) (page : Bytes) :
    Except Fatal (Option Mandata × Bool) :=
  if resolved info page then .ok (some info, false)
  else do
    let newpage := info.pointer.getD []
    let newinfo ← dblookupExact loc db newpage (some info.ext) true
    resolveRoundsWarned loc db newpage 10 newinfo

/-- The search of apropos uses the result alone. -/
theorem resolvePointers_eq (loc : Locale) (db : Store) (info : Mandata) (page : Bytes) :
    resolvePointers loc db info page = Prod.fst <$> resolvePointersWarned loc db info page := by
  have rounds : ∀ newpage n newinfo, resolveRounds loc db newpage n newinfo =
      Prod.fst <$> resolveRoundsWarned loc db newpage n newinfo := by
    intro newpage n
    induction n with
    | zero => intro newinfo; rfl
    | succ n ih =>
      intro newinfo
      cases newinfo with
      | none => rfl
      | some info =>
        rw [resolveRounds, resolveRoundsWarned]
        split
        · rfl
        · simp only [bind, Except.bind]
          split
          · rfl
          · exact ih _
  rw [resolvePointers, resolvePointersWarned]
  split
  · rfl
  · simp only [bind, Except.bind]
    split
    · rfl
    · exact rounds _ _ _

/-- The entry that the pointer of an entry leads to. -/
def follow (loc : Locale) (db : Store) (info : Mandata) : Option Mandata :=
  match dblookupExact loc db (info.pointer.getD []) (some info.ext) true with
  | .ok found => found
  | .error _ => none

/-- The end of a chain: a page without a pointer, or with a pointer to its own name. The
name is that of the page where the entry has none. -/
def Terminal (page : Bytes) (info : Mandata) : Prop :=
  info.pointer = some [dash] ∨ info.pointer = some (info.name.getD page)

instance (page : Bytes) : DecidablePred (Terminal page) := fun _ => inferInstanceAs (Decidable (_ ∨ _))

/-- A key that the database keeps for itself. -/
def OwnKey (loc : Locale) (db : Store) (name : Bytes) : Prop :=
  name.head? = some dollar ∧ db.fetch (nameToKey loc name) ≠ none

variable {loc : Locale} {db : Store} {page name ext newpage : Bytes} {info found : Mandata}

theorem dblookupExact_ok {infos : List Mandata} (section? : Option Bytes)
    (run : dblookup loc db name section? true true = .ok infos) :
    dblookupExact loc db name section? true = .ok infos.head? := by
  simp [dblookupExact, run, Functor.map, Except.map]

/-- An entry that a lookup has found under a name: a stored record. -/
structure FoundAs (name ext : Bytes) (found : Mandata) : Prop where
  name : found.name = some name
  ext : found.ext = ext
  record : ∃ record : Mandata, record.Stored ∧ found.pointer = record.pointer

theorem FoundAs.pointer (is : FoundAs name ext found) : ∃ q, found.pointer = some q ∧ tab ∉ q := by
  obtain ⟨record, isStored, same⟩ := is.record
  have filled := congrArg Mandata.pointer isStored.filled
  exact ⟨record.pointer.getD [dash], by rw [same, ← filled]; rfl, tab_not_mem_default isStored.clean.pointer⟩

/-- A lookup of a name that belongs to no key of the database itself. -/
theorem dblookupExact_found (wf : WellFormed loc db) (plain : tab ∉ name) (other : ¬OwnKey loc db name)
    (ext : Bytes) :
    ∃ result, dblookupExact loc db name (some ext) true = .ok result ∧
      ∀ found ∈ result, FoundAs name ext found := by
  by_cases page : PageName name
  · have pageKey : PageName (nameToKey loc name) := pageName_nameToKey.mpr page
    obtain ⟨g, ok, holds⟩ := wf.group pageKey
    match g, ok, holds with
    | .absent, ok, holds => exact ⟨none, dblookupExact_ok _ (dblookup_absent holds.simple), by simp⟩
    | .singular info, ok, holds =>
      have run := @dblookup_record loc db name (some ext) true true info ok.1 ok.2.1 holds.simple
      refine ⟨_, dblookupExact_ok _ run, fun found member => ?_⟩
      split at member
      · rename_i suitable
        obtain rfl : info.as (info.name.getD name) = found := by simpa using member
        have sameName : info.name.getD name = name := suitable.1 rfl
        have sameExt : ext = info.ext := by simpa [sectionMatches] using suitable.2
        exact ⟨by rw [Mandata.as, sameName], sameExt.symm, info, ok.1, rfl⟩
      · simp at member
    | .indexed refs record, ok, holds =>
      obtain ⟨infos, run, answers⟩ := @dblookup_indexed loc db name (some ext) true true refs record page ok holds
      refine ⟨_, dblookupExact_ok _ run, fun found member => ?_⟩
      obtain ⟨ref, record', present, wanted, rfl⟩ := (answers.mem found).mp (List.mem_of_head? member)
      have sameName : ref.name = name := wanted.2.1 rfl
      have sameExt : ext = ref.ext := by simpa [sectionMatches] using wanted.2.2
      have atGroup := ((wanted_iff_find page ok holds).mp ⟨present, wanted⟩).1
      by_cases inRefs : ref ∈ refs
      · simp only [Group.find, if_pos inRefs, Option.some.injEq] at atGroup
        obtain ⟨_, _, isStored, _, isExt⟩ := ok.2.2 ref inRefs
        rw [atGroup] at isStored isExt
        exact ⟨by rw [Mandata.as, sameName], isExt.trans sameExt.symm, record', isStored, rfl⟩
      · simp [Group.find, inRefs] at atGroup
  · have missing : db.fetch (nameToKey loc name) = none := by
      by_contra present
      by_cases special : name.head? = some dollar
      · exact other ⟨special, present⟩
      · have empty : name = [] := by
          by_contra nonempty
          exact page ⟨nonempty, plain, special⟩
        rw [empty] at present
        exact present wf.nonempty
    exact ⟨none, dblookupExact_ok _ (dblookup_absent missing), by simp⟩

/-- A lookup of a key of the database itself ends the process. -/
theorem dblookupExact_ownKey (wf : WellFormed loc db) (own : OwnKey loc db name) (section? : Option Bytes) :
    ∃ fatal, dblookupExact loc db name section? true = .error fatal := by
  obtain ⟨cont, atKey⟩ := Option.ne_none_iff_exists'.mp own.2
  have plain := wf.ident _ cont (loc.head_lower_dollar.mpr own.1) atKey
  refine ⟨.onlyFields 1, ?_⟩
  simp [dblookupExact, dblookup, atKey, isIndex_plain plain, splitContent_plain plain, bind, Except.bind, Functor.map,
    Except.map]

/-- A lookup of an entry finds it. -/
theorem dblookupExact_entry (wf : WellFormed loc db) {record : Mandata}
    (present : entry loc db ⟨name, ext⟩ = some record) :
    dblookupExact loc db name (some ext) true = .ok (some (record.as name)) := by
  have page : PageName name := entry_pageName (Option.ne_none_iff_exists'.mpr ⟨_, present⟩)
  have wanted : Wanted loc name (some ext) true true ⟨name, ext⟩ := ⟨rfl, fun _ => rfl, by simp [sectionMatches]⟩
  have known : NameKnown loc db name (some ext) true := by
    intro cont atKey single
    have pageKey : PageName (nameToKey loc name) := pageName_nameToKey.mpr page
    rcases wf.simple _ cont pageKey atKey with ⟨info, isStored, field, _, rfl⟩ | ⟨refs, nonempty, _, rfl, _⟩
    · refine ⟨info, isStored.split field, fun _ => ⟨page, fun unnamed => ?_⟩⟩
      have shape : (if (⟨name, ext⟩ : NameExt) = info.ref (nameToKey loc name) then some info.unnamed else none) =
          some record := by
        rw [← present, entry, if_pos page, atKey, Option.bind_some, isIndex_makeContent field, isStored.split field]
        rfl
      split at shape
      · rename_i same
        simpa [Mandata.ref, unnamed] using congrArg NameExt.name same
      · cases shape
    · rw [isIndex_makeExtensionsReference nonempty] at single
      cases single
  obtain ⟨infos, run, answers⟩ := (dblookup_answers_iff wf).mpr known
  obtain ⟨result, exactRun, isSome, members⟩ := dblookupExact_of_answers run answers
  obtain ⟨found, rfl⟩ := Option.isSome_iff_exists.mp (isSome.mpr ⟨_, _, present, wanted⟩)
  obtain ⟨ref, record', present', wanted', rfl⟩ := members found rfl
  obtain rfl : ref = ⟨name, ext⟩ := by
    have sameName : ref.name = name := wanted'.2.1 rfl
    have sameExt : ext = ref.ext := by simpa [sectionMatches] using wanted'.2.2
    cases ref
    simp_all
  rw [present', Option.some.injEq] at present
  rw [exactRun, present]

theorem entry_pointer (wf : WellFormed loc db) {record : Mandata} (present : entry loc db ⟨name, ext⟩ = some record) :
    ∃ q, record.pointer = some q ∧ tab ∉ q := by
  have page : PageName name := entry_pageName (Option.ne_none_iff_exists'.mpr ⟨_, present⟩)
  obtain ⟨result, run, is⟩ := dblookupExact_found wf page.2.1 (fun own => page.2.2 own.1) ext
  rw [dblookupExact_entry wf present, Except.ok.injEq] at run
  exact (is (record.as name) (by rw [← run]; rfl)).pointer

/-- What `resolve_pointers` should give for an entry that is `n` lookups away from the
limit: the first terminal entry, with a warning just if there is none within them. -/
def Resolves (loc : Locale) (db : Store) (page : Bytes) (n : Nat) (info : Mandata)
    (result : Except Fatal (Option Mandata × Bool)) : Prop :=
  ∃ warned, result = .ok (Chain.firstStop (follow loc db) (Terminal page) n info, warned) ∧
    (warned = true ↔ Chain.GoesOn (follow loc db) (Terminal page) n info)

/-- An entry reached after `k` lookups that `resolve_pointers` sees for what it is: a dash
at the start of its pointer makes it terminal, and from the second lookup on nothing
else does; and its pointer is not a key of the database itself. -/
structure Harmless (loc : Locale) (db : Store) (page : Bytes) (k : Nat) (info : Mandata) : Prop where
  dashed : (info.pointer.getD []).head? = some dash → Terminal page info
  selfPointing : 2 ≤ k → Terminal page info → (info.pointer.getD []).head? = some dash
  foreign : ¬Terminal page info → ¬OwnKey loc db (info.pointer.getD [])

theorem resolves_stop {n : Nat} (stops : Terminal page info) : Resolves loc db page n info (.ok (some info, false)) :=
  ⟨false, by rw [Chain.firstStop_stop stops], by simpa using Chain.not_goesOn_of_stop stops⟩

/-- An entry that is not terminal is no result. -/
theorem not_resolves_going {n : Nat} {warned : Bool} (going : ¬Terminal page info) :
    ¬Resolves loc db page n info (.ok (some info, warned)) := by
  rintro ⟨_, same, _⟩
  have found := (congrArg Prod.fst (Except.ok.inj same)).symm
  exact going (Chain.firstStop_eq_some_iff.mp found).2

/-- The turn of the loop for an entry that is not terminal, and has no dash. -/
theorem resolves_turn (wf : WellFormed loc db) {q : Bytes} {n : Nat} (atPointer : info.pointer = some q)
    (plain : tab ∉ q) (going : ¬Terminal page info) :
    Resolves loc db page n info (do
      let newinfo ← dblookupExact loc db (info.pointer.getD []) (some info.ext) true
      resolveRoundsWarned loc db newpage n newinfo) ↔
    ¬OwnKey loc db q ∧ ∀ m, n = m + 1 → ∀ found, follow loc db info = some found → FoundAs q info.ext found →
      Resolves loc db page m found (resolveRoundsWarned loc db newpage n (some found)) := by
  have pointer : info.pointer.getD [] = q := by rw [atPointer, Option.getD_some]
  by_cases own : OwnKey loc db q
  · obtain ⟨fatal, run⟩ := dblookupExact_ownKey wf own (some info.ext)
    rw [pointer, run]
    refine iff_of_false ?_ fun both => both.1 own
    rintro ⟨_, same, _⟩
    cases same
  · obtain ⟨result, run, is⟩ := dblookupExact_found wf plain own info.ext
    have next : follow loc db info = result := by rw [follow, pointer, run]
    rw [pointer, run]
    simp only [own, not_false_eq_true, true_and, bind, Except.bind]
    cases n with
    | zero =>
      refine iff_of_true ⟨true, ?_, by simpa using Chain.goesOn_zero_iff.mpr going⟩ (by simp)
      rw [Chain.firstStop_zero going, resolveRoundsWarned]
    | succ n =>
      rw [Resolves, Chain.firstStop_succ going, Chain.goesOn_succ_iff, next]
      cases result with
      | none =>
        refine iff_of_true ⟨false, rfl, by simp⟩ (by simp)
      | some found =>
        simp only [Option.bind_some, Option.some.injEq, going, not_false_eq_true, true_and, exists_eq_left']
        constructor
        · rintro right m same found' rfl _
          obtain rfl : n = m := by omega
          exact right
        · intro all
          exact all n rfl found rfl (is found rfl)

theorem follow_some (follows : follow loc db info = some found) :
    dblookupExact loc db (info.pointer.getD []) (some info.ext) true = .ok (some found) := by
  unfold follow at follows
  split at follows
  · rename_i run
    rw [run, follows]
  · cases follows

/-- Every entry reached from here on, `depth` lookups into the chain, is harmless. -/
def HarmlessFrom (loc : Locale) (db : Store) (page : Bytes) (depth n : Nat) (info : Mandata) : Prop :=
  ∀ k ≤ n, ∀ e, Chain.Reaches (follow loc db) (Terminal page) info k e → Harmless loc db page (k + depth) e

theorem harmlessFrom_stop {depth n : Nat} (stops : Terminal page info) :
    HarmlessFrom loc db page depth n info ↔ (2 ≤ depth → (info.pointer.getD []).head? = some dash) := by
  rw [HarmlessFrom, @Chain.forall_reaches_stop _ _ _ _ _ (fun k e => Harmless loc db page (k + depth) e) stops,
    Nat.zero_add]
  exact ⟨fun harmless deep => harmless.selfPointing deep stops, fun dashed =>
    ⟨fun _ => stops, fun deep _ => dashed deep, fun going => absurd stops going⟩⟩

/-- The whole turn for an entry that is not terminal and has no dash, from what the rest
of the loop does with the entry it leads to. -/
theorem resolves_turn_iff (wf : WellFormed loc db) {q : Bytes} {n depth : Nat} (atPointer : info.pointer = some q)
    (plain : tab ∉ q) (going : ¬Terminal page info) (bare : q.head? ≠ some dash)
    (rest : ∀ m, n = m + 1 → ∀ found, FoundAs q info.ext found →
      dblookupExact loc db q (some info.ext) true = .ok (some found) →
        (Resolves loc db page m found (resolveRoundsWarned loc db newpage n (some found)) ↔
          HarmlessFrom loc db page (depth + 1) m found)) :
    Resolves loc db page n info (do
      let newinfo ← dblookupExact loc db (info.pointer.getD []) (some info.ext) true
      resolveRoundsWarned loc db newpage n newinfo) ↔ HarmlessFrom loc db page depth n info := by
  have pointer : info.pointer.getD [] = q := by rw [atPointer, Option.getD_some]
  have here : Harmless loc db page (0 + depth) info ↔ ¬OwnKey loc db q := by
    constructor
    · intro harmless
      exact pointer ▸ harmless.foreign going
    · intro foreign
      exact ⟨fun dashed => absurd (pointer ▸ dashed) bare, fun _ stops => absurd stops going,
        fun _ => pointer ▸ foreign⟩
  rw [resolves_turn wf atPointer plain going, HarmlessFrom]
  cases n with
  | zero =>
    rw [@Chain.forall_reaches_zero _ _ _ _ (fun k e => Harmless loc db page (k + depth) e), here]
    simp
  | succ n =>
    rw [@Chain.forall_reaches_succ _ _ _ _ _ (fun k e => Harmless loc db page (k + depth) e) going, here]
    refine and_congr_right fun foreign => ?_
    obtain ⟨result, run, is⟩ := dblookupExact_found wf plain foreign info.ext
    have sum : ∀ k, k + 1 + depth = k + (depth + 1) := by intro k; omega
    simp only [sum]
    constructor
    · intro right found follows
      have looked := follow_some follows
      rw [pointer] at looked
      have found_ : FoundAs q info.ext found := is found (by rw [run, Except.ok.injEq] at looked; exact looked)
      exact (rest n rfl found found_ looked).mp (right n rfl found follows found_)
    · intro harmless m same found follows found_
      obtain rfl : n = m := by omega
      have looked := follow_some follows
      rw [pointer] at looked
      exact (rest n rfl found found_ looked).mpr (harmless found follows)

/-- The test of the loop on an entry found under a name. -/
theorem resolved_iff {q : Bytes} (is : FoundAs name ext info) (atPointer : info.pointer = some q) :
    resolved info newpage = true ↔ q.head? = some dash ∨ name = newpage ∧ q = newpage := by
  simp [resolved, is.name, atPointer]

theorem terminal_iff {q : Bytes} (is : FoundAs name ext info) (atPointer : info.pointer = some q) :
    Terminal page info ↔ q = [dash] ∨ q = name := by
  simp [Terminal, is.name, atPointer]

/-- A page that points to itself under another name than the first pointer is looked up
until the rounds are over. -/
theorem resolveRounds_selfPointing (is : FoundAs name ext info) (atPointer : info.pointer = some name)
    (looked : dblookupExact loc db name (some ext) true = .ok (some info)) (bare : name.head? ≠ some dash)
    (other : name ≠ newpage) (n : Nat) : resolveRoundsWarned loc db newpage n (some info) = .ok (none, true) := by
  have unresolved : ¬resolved info newpage = true := by
    rw [resolved_iff is atPointer]
    rintro (dashed | ⟨same, _⟩)
    · exact bare dashed
    · exact other same
  induction n with
  | zero => rfl
  | succ n ih =>
    rw [resolveRoundsWarned, if_neg unresolved, atPointer, Option.getD_some, is.ext, looked]
    exact ih

/-- The loop from the second lookup on. -/
theorem resolveRounds_iff (wf : WellFormed loc db) {first : Mandata} {n depth : Nat} (deep : 2 ≤ depth)
    (atFirst : dblookupExact loc db newpage (some ext) true = .ok (some first)) (going : ¬Terminal page first)
    (is : FoundAs name ext info) (looked : dblookupExact loc db name (some ext) true = .ok (some info)) :
    Resolves loc db page n info (resolveRoundsWarned loc db newpage (n + 1) (some info)) ↔
      HarmlessFrom loc db page depth n info := by
  induction n using Nat.strong_induction_on generalizing info name depth with
  | _ n ih =>
    obtain ⟨q, atPointer, plain⟩ := is.pointer
    have test := @resolved_iff name ext newpage info q is atPointer
    have ends := @terminal_iff page name ext info q is atPointer
    have pointer : info.pointer.getD [] = q := by rw [atPointer, Option.getD_some]
    have other : Terminal page info → name ≠ newpage := by
      rintro stops rfl
      rw [atFirst, Except.ok.injEq, Option.some.injEq] at looked
      exact going (looked ▸ stops)
    by_cases dashed : q.head? = some dash
    · rw [resolveRoundsWarned, if_pos (test.mpr (Or.inl dashed))]
      by_cases stops : Terminal page info
      · exact iff_of_true (resolves_stop stops) ((harmlessFrom_stop stops).mpr fun _ => pointer ▸ dashed)
      · refine iff_of_false (not_resolves_going stops) fun harmless => stops ?_
        exact (harmless 0 (Nat.zero_le n) info (.here info)).dashed (pointer ▸ dashed)
    · by_cases stops : Terminal page info
      · have self : q = name := by
          rcases ends.mp stops with rfl | same
          · exact absurd rfl dashed
          · exact same
        rw [resolveRounds_selfPointing is (self ▸ atPointer) looked (self ▸ dashed) (other stops)]
        refine iff_of_false ?_ fun harmless => dashed (pointer ▸ (harmlessFrom_stop stops).mp harmless deep)
        rintro ⟨_, same, _⟩
        rw [Chain.firstStop_stop stops] at same
        cases same
      · have unresolved : ¬resolved info newpage = true := by
          rw [test]
          rintro (isDash | ⟨rfl, rfl⟩)
          · exact dashed isDash
          · exact stops (ends.mpr (Or.inr rfl))
        rw [resolveRoundsWarned, if_neg unresolved]
        refine resolves_turn_iff wf atPointer plain stops dashed fun m same found isFound lookedUp => ?_
        subst same
        rw [is.ext] at isFound lookedUp
        exact ih m (Nat.lt_succ_self m) (Nat.le_succ_of_le deep) isFound lookedUp

/-- The first turn of the loop, for an entry found under the first pointer. -/
theorem resolveRounds_first_iff (wf : WellFormed loc db) {n : Nat} (is : FoundAs newpage ext info)
    (looked : dblookupExact loc db newpage (some ext) true = .ok (some info)) :
    Resolves loc db page n info (resolveRoundsWarned loc db newpage (n + 1) (some info)) ↔
      HarmlessFrom loc db page 1 n info := by
  obtain ⟨q, atPointer, plain⟩ := is.pointer
  have test := @resolved_iff newpage ext newpage info q is atPointer
  have ends := @terminal_iff page newpage ext info q is atPointer
  have pointer : info.pointer.getD [] = q := by rw [atPointer, Option.getD_some]
  rw [resolveRoundsWarned]
  by_cases stops : Terminal page info
  · have sees : resolved info newpage = true := by
      rw [test]
      rcases ends.mp stops with rfl | rfl
      · exact Or.inl rfl
      · exact Or.inr ⟨rfl, rfl⟩
    rw [if_pos sees]
    exact iff_of_true (resolves_stop stops) ((harmlessFrom_stop stops).mpr fun deep => absurd deep (by decide))
  · by_cases dashed : q.head? = some dash
    · rw [if_pos (test.mpr (Or.inl dashed))]
      refine iff_of_false (not_resolves_going stops) fun harmless => stops ?_
      exact (harmless 0 (Nat.zero_le n) info (.here info)).dashed (pointer ▸ dashed)
    · have unresolved : ¬resolved info newpage = true := by
        rw [test]
        rintro (isDash | ⟨_, same⟩)
        · exact dashed isDash
        · exact stops (ends.mpr (Or.inr same))
      rw [if_neg unresolved]
      refine resolves_turn_iff wf atPointer plain stops dashed fun m same found isFound lookedUp => ?_
      subst same
      rw [is.ext] at isFound lookedUp
      exact resolveRounds_iff wf (Nat.le_refl 2) looked stops isFound lookedUp

/-- An entry that points to its own name, which is not the page's, is looked up and found
again. -/
theorem lookedUp_again {info : Mandata} {page q : Bytes} (wf : WellFormed loc db)
    (present : entry loc db ⟨info.name.getD page, info.ext⟩ = some info.unnamed) (named : info.name = some q)
    (atPointer : info.pointer = some q) (plain : tab ∉ q) :
    (do
      let newinfo ← dblookupExact loc db q (some info.ext) true
      resolveRoundsWarned loc db q 10 newinfo) = .ok (some info, false) := by
  have self : info.name.getD page = q := by rw [named, Option.getD_some]
  rw [self] at present
  have ownName : PageName q := entry_pageName (Option.ne_none_iff_exists'.mpr ⟨_, present⟩)
  have again : info.unnamed.as q = info := by rw [Mandata.as, Mandata.unnamed, ← named]
  have looked := dblookupExact_entry wf present
  rw [again] at looked
  have is : FoundAs q info.ext info := by
    obtain ⟨result, run, is⟩ := dblookupExact_found wf plain (fun own => ownName.2.2 own.1) info.ext
    rw [looked, Except.ok.injEq] at run
    exact is info (by rw [← run]; rfl)
  have sees : resolved info q = true := (resolved_iff is atPointer).mpr (Or.inr ⟨rfl, rfl⟩)
  simp only [looked, bind, Except.bind, resolveRoundsWarned, sees, if_true]

/-- `resolve_pointers` gives the first terminal entry within ten lookups, and warns just
when there is none, if and only if every entry reached on the way is harmless. -/
theorem resolvePointers_iff (wf : WellFormed loc db) (info : Mandata) (page : Bytes)
    (present : entry loc db ⟨info.name.getD page, info.ext⟩ = some info.unnamed) :
    Resolves loc db page 10 info (resolvePointersWarned loc db info page) ↔
      ∀ k ≤ 10, ∀ e, Chain.Reaches (follow loc db) (Terminal page) info k e → Harmless loc db page k e := by
  obtain ⟨q, atPointer, plain⟩ := entry_pointer wf present
  change info.pointer = some q at atPointer
  have pointer : info.pointer.getD [] = q := by rw [atPointer, Option.getD_some]
  have test : resolved info page = true ↔
      q.head? = some dash ∨ (info.name = none ∨ info.name = some page) ∧ q = page := by
    simp [resolved, atPointer]
  have ends : Terminal page info ↔ q = [dash] ∨ q = info.name.getD page := by simp [Terminal, atPointer]
  change _ ↔ HarmlessFrom loc db page 0 10 info
  rw [resolvePointersWarned]
  by_cases dashed : q.head? = some dash
  · rw [if_pos (test.mpr (Or.inl dashed))]
    by_cases stops : Terminal page info
    · exact iff_of_true (resolves_stop stops) ((harmlessFrom_stop stops).mpr fun deep => absurd deep (by decide))
    · refine iff_of_false (not_resolves_going stops) fun harmless => stops ?_
      exact (harmless 0 (Nat.zero_le _) info (.here info)).dashed (pointer ▸ dashed)
  · by_cases stops : Terminal page info
    · have self : q = info.name.getD page := by
        rcases ends.mp stops with rfl | same
        · exact absurd rfl dashed
        · exact same
      refine iff_of_true ?_ ((harmlessFrom_stop stops).mpr fun deep => absurd deep (by decide))
      split
      · exact resolves_stop stops
      · rename_i unresolved
        have named : info.name = some q := by
          cases atName : info.name with
          | none => exact absurd (test.mpr (Or.inr ⟨Or.inl atName, by simpa [atName] using self⟩)) unresolved
          | some name => rw [self, atName, Option.getD_some]
        simp only [pointer]
        rw [lookedUp_again wf present named atPointer plain]
        exact resolves_stop stops
    · have unresolved : ¬resolved info page = true := by
        rw [test]
        rintro (isDash | ⟨named, rfl⟩)
        · exact dashed isDash
        · exact stops (ends.mpr (Or.inr (by rcases named with name | name <;> simp [name])))
      rw [if_neg unresolved]
      refine resolves_turn_iff wf atPointer plain stops dashed fun m same found isFound lookedUp => ?_
      obtain rfl : m = 9 := by omega
      rw [pointer]
      exact resolveRounds_first_iff wf isFound lookedUp

theorem resolvePointers_iff_page :
    Resolves .posix sampleStore (ascii "foo") 10 (stored (samplePage "1" ultMan 5 "-"))
      (resolvePointersWarned .posix sampleStore (stored (samplePage "1" ultMan 5 "-")) (ascii "foo")) := by
  refine (resolvePointers_iff sampleStore_wellFormed _ _ (by decide +kernel)).mpr fun k _ e reaches => ?_
  have stops : Terminal (ascii "foo") (stored (samplePage "1" ultMan 5 "-")) := by decide
  obtain ⟨rfl, rfl⟩ := reaches.of_stop stops
  exact ⟨fun _ => stops, fun deep _ => absurd deep (by decide), fun going => absurd stops going⟩

/-- A reference to a page. -/
def referenceTo (target : String) : Mandata :=
  { samplePage "1" whatisMan 5 "-" with pointer := some (ascii target) }

/-- An index in which a(1) refers to b(1), b(1) to c(1), and c(1) to itself. -/
def referenceIndex : Store :=
  indexOf .posix [(ascii "a", referenceTo "b"), (ascii "b", referenceTo "c"), (ascii "c", referenceTo "c")]

theorem referenceIndex_wellFormed : WellFormed .posix referenceIndex :=
  indexOf_wellFormed (by decide)

/-- From a(1) the page c(1) is reached in two lookups, and taken for a pointer loop. -/
theorem resolvePointers_loses_page :
    ¬∀ (loc : Locale) (db : Store) (info : Mandata) (page : Bytes), WellFormed loc db →
      entry loc db ⟨info.name.getD page, info.ext⟩ = some info.unnamed →
        Resolves loc db page 10 info (resolvePointersWarned loc db info page) := by
  intro right
  obtain ⟨warned, run, _⟩ := right .posix referenceIndex (stored (referenceTo "b")) (ascii "a")
    referenceIndex_wellFormed (by decide +kernel)
  have lost : resolvePointersWarned .posix referenceIndex (stored (referenceTo "b")) (ascii "a") =
      .ok (none, true) := by
    decide +kernel
  have reached : (Chain.firstStop (follow .posix referenceIndex) (Terminal (ascii "a")) 10
      (stored (referenceTo "b"))).isSome = true := by decide +kernel
  rw [lost, Except.ok.injEq, Prod.mk.injEq] at run
  rw [← run.1] at reached
  cases reached

end ManDb
