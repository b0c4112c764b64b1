import ManDb.Lib.Loop
import ManDb.Purge

namespace ManDb

/-- A byte of a string in memory, which ends with its terminator. -/
def byteAt (content : Bytes) (offset : Nat) : Option UInt8 := (content ++ [0])[offset]?

/-- `strchr (content + walk, '\t')` as an offset. The search may not start behind the
terminator. -/
def strchrTab (content : Bytes) (walk : Nat) : Option (Option Nat) :=
  if walk ≤ content.length then
    match Separated.cut tab (content.drop walk) with
    | (_, none) => some none
    | (field, some _) => some (some (walk + field.length))
  else none

/-- A turn of the loop of `check_multi_key`, with the offset of `walk` in the content
unless it is null. It ends with whether the key is broken, or with nothing when it
reads outside the content. -/
def multiKeyTurn (loc : Locale) (name content : Bytes) : Option Nat → Option Bool ⊕ Option Nat
  | none => .inl (some false)
  | some walk =>
    match byteAt content walk with
    | none => .inl none
    | some byte =>
      if byte = 0 then .inl (some false)
      else
        match strchrTab content (walk + 1) with
        | none => .inl none
        | some none => if loc.caseEq name (content.drop (walk + 1)) then .inr none else .inl (some true)
        | some (some next) =>
          -- strncasecmp (name, walk, next - walk)
          let listed := (content.drop (walk + 1)).take (next - (walk + 1))
          if loc.caseEq (name.take listed.length) listed then
            match strchrTab content (next + 1) with
            | none => .inl none
            | some walk => .inr walk
          else .inl (some true)

/-- `check_multi_key` on the offsets; nothing when it reads outside the content. -/
def scanMultiKey (loc : Locale) (name content : Bytes) : Option Bool :=
  if content = [] then some false
  else (Loop.run (multiKeyTurn loc name content) (content.length + 2) (some 0)).join

/-- No listed name, ignoring case, is another one than the key. -/
def AllOwn (loc : Locale) (name : Bytes) (refs : List NameExt) : Prop := ∀ ref ∈ refs, loc.caseEq name ref.name = true

/-- What the check lets pass: the listed name is how the key starts. -/
def StartsKey (loc : Locale) (name : Bytes) (ref : NameExt) : Prop := loc.lower ref.name <+: loc.lower name

instance instDecidableStartsKey (loc : Locale) (name : Bytes) (ref : NameExt) : Decidable (StartsKey loc name ref) :=
  decidable_of_iff _ List.isPrefixOf_iff_prefix

variable {loc : Locale} {name content pre field rest : Bytes} {ref : NameExt} {refs : List NameExt}

theorem caseEq_take_iff : loc.caseEq (name.take ref.name.length) ref.name = true ↔ StartsKey loc name ref := by
  rw [Locale.caseEq, beq_iff_eq, StartsKey, List.prefix_iff_eq_take, Locale.lower_length, Locale.lower, Locale.lower,
    List.map_take, eq_comm]
  rfl

theorem StartsKey.of_caseEq (same : loc.caseEq name ref.name = true) : StartsKey loc name ref := by
  have lowered : loc.lower name = loc.lower ref.name := eq_of_beq same
  simp only [StartsKey, lowered, List.prefix_rfl]

theorem strchrTab_found (clean : tab ∉ field) (pre rest : Bytes) :
    strchrTab (pre ++ (field ++ tab :: rest)) pre.length = some (some (pre.length + field.length)) := by
  rw [strchrTab, if_pos (by simp), List.drop_left, Separated.cut_append_cons clean]

theorem strchrTab_none (clean : tab ∉ field) (pre : Bytes) : strchrTab (pre ++ field) pre.length = some none := by
  rw [strchrTab, if_pos (by simp), List.drop_left, Separated.cut_of_not_mem clean]

theorem byteAt_append (pre rest : Bytes) (b : UInt8) : byteAt (pre ++ b :: rest) pre.length = some b := by
  simp [byteAt]

/-- The next pair of the list, or its end. -/
theorem strchrTab_refs (clean : tab ∉ ref.ext) (pre : Bytes) (refs : List NameExt) :
    strchrTab (pre ++ (ref.ext ++ makeExtensionsReference refs)) pre.length =
      some (if refs = [] then none else some (pre ++ ref.ext).length) := by
  cases refs with
  | nil =>
    rw [if_pos rfl, makeExtensionsReference, List.flatMap_nil, List.append_nil]
    exact strchrTab_none clean pre
  | cons next refs =>
    rw [if_neg (List.cons_ne_nil _ _), makeExtensionsReference_cons, strchrTab_found clean, List.length_append]

/-- A turn at a pair of a list. -/
theorem multiKeyTurn_pair (loc : Locale) (name : Bytes) (cleanName : tab ∉ ref.name) (cleanExt : tab ∉ ref.ext)
    (pre : Bytes) (refs : List NameExt) :
    multiKeyTurn loc name (pre ++ makeExtensionsReference (ref :: refs)) (some pre.length) =
      if StartsKey loc name ref then
        .inr (if refs = [] then none else some (pre ++ tab :: (ref.name ++ tab :: ref.ext)).length)
      else .inl (some true) := by
  have first : pre ++ makeExtensionsReference (ref :: refs) =
      (pre ++ [tab]) ++ (ref.name ++ tab :: (ref.ext ++ makeExtensionsReference refs)) := by
    simp [makeExtensionsReference_cons]
  have second : pre ++ makeExtensionsReference (ref :: refs) =
      (pre ++ [tab] ++ ref.name ++ [tab]) ++ (ref.ext ++ makeExtensionsReference refs) := by
    simp [makeExtensionsReference_cons]
  have atTab : byteAt (pre ++ makeExtensionsReference (ref :: refs)) pre.length = some tab := by
    rw [makeExtensionsReference_cons, byteAt_append]
  have next : strchrTab (pre ++ makeExtensionsReference (ref :: refs)) (pre.length + 1) =
      some (some (pre.length + 1 + ref.name.length)) := by
    rw [first]
    simpa using strchrTab_found cleanName (pre ++ [tab]) (ref.ext ++ makeExtensionsReference refs)
  have onward : strchrTab (pre ++ makeExtensionsReference (ref :: refs)) (pre.length + 1 + ref.name.length + 1) =
      some (if refs = [] then none else some (pre ++ tab :: (ref.name ++ tab :: ref.ext)).length) := by
    have offset : pre.length + 1 + ref.name.length + 1 = (pre ++ [tab] ++ ref.name ++ [tab]).length := by
      simp only [List.length_append, List.length_singleton]
    have shape : pre ++ tab :: (ref.name ++ tab :: ref.ext) = pre ++ [tab] ++ ref.name ++ [tab] ++ ref.ext := by simp
    rw [offset, second, strchrTab_refs cleanExt, shape]
  have listed : ((pre ++ makeExtensionsReference (ref :: refs)).drop (pre.length + 1)).take
      (pre.length + 1 + ref.name.length - (pre.length + 1)) = ref.name := by
    rw [Nat.add_sub_cancel_left, first, List.drop_left' (by simp), List.take_left]
  have notEnd : tab ≠ 0 := by decide
  unfold multiKeyTurn
  simp only [atTab, if_neg notEnd, next, listed, onward]
  exact if_congr caseEq_take_iff rfl rfl

/-- The loop from a pair of a list on. -/
theorem multiKeyLoop (loc : Locale) (name : Bytes) (clean : ∀ ref ∈ refs, tab ∉ ref.name ∧ tab ∉ ref.ext)
    (nonempty : refs ≠ []) (pre : Bytes) :
    Loop.run (multiKeyTurn loc name (pre ++ makeExtensionsReference refs)) (refs.length + 1) (some pre.length) =
      some (some (!refs.all (StartsKey loc name ·))) := by
  induction refs generalizing pre with
  | nil => exact absurd rfl nonempty
  | cons ref refs ih =>
    obtain ⟨cleanName, cleanExt⟩ := clean ref (List.mem_cons_self ..)
    have turn := multiKeyTurn_pair loc name cleanName cleanExt pre refs
    by_cases starts : StartsKey loc name ref
    · rw [if_pos starts] at turn
      rw [Loop.run_turn turn, List.all_cons, decide_eq_true starts, Bool.true_and]
      cases refs with
      | nil => rfl
      | cons next refs =>
        have later := ih (fun other member => clean other (List.mem_cons_of_mem _ member)) (List.cons_ne_nil _ _)
          (pre ++ tab :: (ref.name ++ tab :: ref.ext))
        have whole : pre ++ tab :: (ref.name ++ tab :: ref.ext) ++ makeExtensionsReference (next :: refs) =
            pre ++ makeExtensionsReference (ref :: next :: refs) := by
          simp [makeExtensionsReference_cons]
        rw [whole] at later
        exact later
    · rw [if_neg starts] at turn
      rw [Loop.run_ends turn, List.all_cons, decide_eq_false starts, Bool.false_and]
      rfl

theorem length_refs (refs : List NameExt) : 2 * refs.length ≤ (makeExtensionsReference refs).length := by
  induction refs with
  | nil => exact Nat.zero_le _
  | cons ref refs ih =>
    rw [makeExtensionsReference_cons]
    simp only [List.length_cons, List.length_append]
    omega

/-- The scan of a list of pairs stays inside it. -/
theorem scanMultiKey_refs (clean : ∀ ref ∈ refs, tab ∉ ref.name ∧ tab ∉ ref.ext) :
    scanMultiKey loc name (makeExtensionsReference refs) = some (!refs.all (StartsKey loc name ·)) := by
  unfold scanMultiKey
  cases refs with
  | nil => rfl
  | cons ref refs =>
    have more : makeExtensionsReference (ref :: refs) ≠ [] := by
      rw [makeExtensionsReference_cons]
      exact List.cons_ne_nil _ _
    obtain ⟨k, enough⟩ : ∃ k, (makeExtensionsReference (ref :: refs)).length + 2 = (ref :: refs).length + 1 + k := by
      have length := length_refs (ref :: refs)
      exact ⟨(makeExtensionsReference (ref :: refs)).length + 1 - (ref :: refs).length, by omega⟩
    have loop := multiKeyLoop loc name clean (List.cons_ne_nil _ _) []
    rw [if_neg more, enough]
    exact congrArg Option.join (Loop.run_mono loop k)

/-- The same loop on what is left of the content. -/
theorem checkMultiKeyLoop_pairs (clean : ∀ ref ∈ refs, tab ∉ ref.name ∧ tab ∉ ref.ext) {n : Nat}
    (enough : refs.length ≤ n) :
    checkMultiKeyLoop loc name n (makeExtensionsReference refs) = !refs.all (StartsKey loc name ·) := by
  induction refs generalizing n with
  | nil => cases n <;> rfl
  | cons ref refs ih =>
    obtain ⟨n, rfl⟩ : ∃ m, n = m + 1 := ⟨n - 1, by simp only [List.length_cons] at enough; omega⟩
    obtain ⟨cleanName, cleanExt⟩ := clean ref (List.mem_cons_self ..)
    have rest := ih (fun other member => clean other (List.mem_cons_of_mem _ member)) (Nat.le_of_succ_le_succ enough)
    rw [makeExtensionsReference_cons, checkMultiKeyLoop, List.append_assoc, List.cons_append,
      Separated.cut_append_cons cleanName, List.all_cons]
    by_cases starts : StartsKey loc name ref
    · simp only [caseEq_take_iff.mpr starts, if_true, decide_eq_true starts, Bool.true_and]
      cases refs with
      | nil => simp [makeExtensionsReference, Separated.cut_of_not_mem cleanExt]
      | cons next refs =>
        rw [makeExtensionsReference_cons] at rest ⊢
        rw [Separated.cut_append_cons cleanExt]
        exact rest
    · have other : loc.caseEq (name.take ref.name.length) ref.name = false :=
        Bool.eq_false_iff.mpr (caseEq_take_iff.not.mpr starts)
      simp only [other, Bool.false_eq_true, if_false, decide_eq_false starts, Bool.false_and, Bool.not_false]

theorem checkMultiKey_pairs (clean : ∀ ref ∈ refs, tab ∉ ref.name ∧ tab ∉ ref.ext) :
    checkMultiKey loc name (makeExtensionsReference refs) = !refs.all (StartsKey loc name ·) := by
  have length := length_refs refs
  exact checkMultiKeyLoop_pairs clean (by omega)

/-- What a purge makes of a list of pairs: it keeps the list if all its names are those
of the key, and deletes it if one is another. -/
def PurgedRight (loc : Locale) (name : Bytes) (refs : List NameExt) (key : Bytes) (s s' : PurgeState) : Prop :=
  (AllOwn loc name refs → s' = s) ∧
    (¬AllOwn loc name refs → s' = { s with db := s.db.delete key, forceRescan := true })

theorem all_startsKey_iff : (!refs.all (StartsKey loc name ·)) = false ↔ ∀ ref ∈ refs, StartsKey loc name ref := by
  rw [Bool.not_eq_false', List.all_eq_true]
  simp only [decide_eq_true_iff]

/-- A turn of the purge at a list of pairs. -/
theorem purgeMissingTurn_pairs (clean : ∀ ref ∈ refs, tab ∉ ref.name ∧ tab ∉ ref.ext) (fs : FileSystem)
    (optTest : Bool)
    (manpath catpath : Bytes) (dbMtime : Timespec) {key : Bytes} {s : PurgeState} (plain : key.head? ≠ some dollar)
    (atKey : s.db.fetch key = some (makeExtensionsReference refs)) (nonempty : refs ≠ []) :
    purgeMissingTurn loc fs optTest manpath catpath dbMtime key s =
      .ok (if ∀ ref ∈ refs, StartsKey loc (Separated.cut tab key).1 ref then s
        else { s with db := s.db.delete key, forceRescan := true }) := by
  unfold purgeMissingTurn
  simp only [if_neg plain, atKey, isIndex_makeExtensionsReference nonempty, if_true, checkMultiKey_pairs clean]
  by_cases all : ∀ ref ∈ refs, StartsKey loc (Separated.cut tab key).1 ref
  · rw [if_pos all, all_startsKey_iff.mpr all]
    rfl
  · rw [if_neg all, Bool.eq_true_of_not_eq_false (all_startsKey_iff.not.mpr all)]
    rfl

/-- The check, and the purge with it, find the names of other pages exactly if not all
of the listed names are how the key starts, unless they are all the key itself. -/
theorem multiKey_checked_iff (clean : ∀ ref ∈ refs, tab ∉ ref.name ∧ tab ∉ ref.ext) :
    ((∃ broken, scanMultiKey loc name (makeExtensionsReference refs) = some broken ∧
        (broken = false ↔ AllOwn loc name refs)) ↔
      (AllOwn loc name refs ∨ ∃ ref ∈ refs, ¬StartsKey loc name ref)) ∧
    ∀ fs optTest manpath catpath dbMtime key s, key.head? ≠ some dollar → (Separated.cut tab key).1 = name →
      s.db.fetch key = some (makeExtensionsReference refs) → refs ≠ [] →
      ((∃ s', purgeMissingTurn loc fs optTest manpath catpath dbMtime key s = .ok s' ∧
          PurgedRight loc name refs key s s') ↔
        (AllOwn loc name refs ∨ ∃ ref ∈ refs, ¬StartsKey loc name ref)) := by
  have starting : AllOwn loc name refs → ∀ ref ∈ refs, StartsKey loc name ref := fun own ref member =>
    .of_caseEq (own ref member)
  have right : (AllOwn loc name refs ∨ ∃ ref ∈ refs, ¬StartsKey loc name ref) ↔
      ((∀ ref ∈ refs, StartsKey loc name ref) ↔ AllOwn loc name refs) := by
    by_cases all : ∀ ref ∈ refs, StartsKey loc name ref
    · have none : ¬∃ ref ∈ refs, ¬StartsKey loc name ref := fun ⟨ref, member, not⟩ => not (all ref member)
      rw [or_iff_left none, iff_true_left all]
    · have some : ∃ ref ∈ refs, ¬StartsKey loc name ref := by simpa using all
      exact iff_of_true (Or.inr some) (iff_of_false all fun own => all (starting own))
  rw [right]
  refine ⟨?_, fun fs optTest manpath catpath dbMtime key s plain key_name atKey nonempty => ?_⟩
  · rw [scanMultiKey_refs clean]
    simp only [Option.some.injEq, exists_eq_left', all_startsKey_iff]
  · subst key_name
    rw [purgeMissingTurn_pairs clean fs optTest manpath catpath dbMtime plain atKey nonempty]
    have differ : s ≠ { s with db := s.db.delete key, forceRescan := true } := by
      intro same
      have gone := congrArg (fun s : PurgeState => s.db.fetch key) same
      simp only [atKey, Store.fetch_delete_self] at gone
      cases gone
    simp only [Except.ok.injEq, exists_eq_left', PurgedRight]
    by_cases all : ∀ ref ∈ refs, StartsKey loc (Separated.cut tab key).1 ref
    · rw [if_pos all, iff_true_left all]
      constructor
      · rintro ⟨_, deletes⟩
        by_contra foreign
        exact differ (deletes foreign)
      · exact fun own => ⟨fun _ => rfl, fun not => absurd own not⟩
    · rw [if_neg all, iff_false_left all]
      have foreign : ¬AllOwn loc (Separated.cut tab key).1 refs := fun own => all (starting own)
      exact iff_of_true ⟨fun own => absurd own foreign, fun _ => rfl⟩ foreign

theorem multiKey_checked_case :
    ∃ broken, scanMultiKey .posix (ascii "foo") (makeExtensionsReference [⟨ascii "Foo", ascii "1"⟩]) =
    some broken ∧ (broken = false ↔ AllOwn .posix (ascii "foo") [⟨ascii "Foo", ascii "1"⟩]) := by
  have clean : ∀ ref ∈ [(⟨ascii "Foo", ascii "1"⟩ : NameExt)], tab ∉ ref.name ∧ tab ∉ ref.ext := by decide +kernel
  have own : AllOwn .posix (ascii "foo") [⟨ascii "Foo", ascii "1"⟩] := by
    intro ref member
    rw [List.mem_singleton.mp member]
    decide +kernel
  exact (multiKey_checked_iff clean).1.mpr (Or.inl own)

/-- A page under the key of another whose name goes on behind its own. -/
theorem multiKey_longer_key : ¬∃ broken, scanMultiKey .posix (ascii "foobar")
    (makeExtensionsReference [⟨ascii "foo", ascii "1"⟩]) =
    some broken ∧ (broken = false ↔ AllOwn .posix (ascii "foobar") [⟨ascii "foo", ascii "1"⟩]) := by
  have passes : scanMultiKey .posix (ascii "foobar") (makeExtensionsReference [⟨ascii "foo", ascii "1"⟩]) =
      some false := by
    decide +kernel
  rintro ⟨broken, scanned, right⟩
  rw [passes] at scanned
  have own := right.mp (Option.some.inj scanned).symm ⟨ascii "foo", ascii "1"⟩ (List.mem_singleton_self _)
  exact absurd own (by decide +kernel)

end ManDb
