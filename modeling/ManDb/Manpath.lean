import Mathlib.Data.List.DropRight
import ManDb.Lib.Loop
import ManDb.Text

namespace ManDb

open Separated (ofSegments)

/-- A turn of the search for a component in the appendage, of which the first part lies
before the search. It ends with what is left of the appendage, or with nothing when the
search would go on in the buffer that was freed. -/
def dedupTurn (tok : Bytes) : Bytes × Bytes → Option Bytes ⊕ Bytes × Bytes
  | (before, rest) =>
    match Separated.cutAt tok rest with
    | none => .inl (some (before ++ rest))
    | some (skipped, terminator) =>
      let search := before ++ skipped
      if search ≠ [] ∧ search.getLast? ≠ some colon then .inr (search ++ tok, terminator)
      else if terminator = [] then .inl (some (search.rdropWhile (· = colon)))
      else if terminator.head? = some colon then .inl none
      else .inr (search ++ tok, terminator)

def dedup (tok appDedup : Bytes) : Option Bytes :=
  (Loop.run (dedupTurn tok) (appDedup.length + 1) ([], appDedup)).join

/-- It gives nothing when the assertion fails, or the search goes on in a freed buffer. -/
def pathappend (oldpath : Option Bytes) (appendage : Bytes) : Option Bytes :=
  match oldpath with
  | none => some appendage
  | some oldpath =>
    if oldpath = [] then none
    else
      (((oldpath.splitOn colon).filter (· ≠ [])).foldlM (fun app tok => dedup tok app) appendage).map
        fun app => if app ≠ [] then oldpath ++ colon :: app else oldpath

/-- The path with these components. -/
def pathOf (fields : List Bytes) : Bytes := [colon].intercalate fields

/-- The components of a path; the empty path has none. -/
def components (path : Bytes) : List Bytes := if path = [] then [] else path.splitOn colon

/-- What a search that has come to some place of the appendage leaves of it. -/
def Deduped (tok before rest : Bytes) (result : Option Bytes) : Prop :=
  ∃ n, n ≤ rest.length + 1 ∧ Loop.run (dedupTurn tok) n (before, rest) = some result

/-- A component starts behind this text. -/
def AtStart (before : Bytes) : Prop := before = [] ∨ before.getLast? = some colon

/-- A component ends before this text. -/
def AtEnd (rest : Bytes) : Prop := rest = [] ∨ rest.head? = some colon

/-- A component that is repeated in the appendage is the last of what the components
before it leave of the appendage. -/
def RepeatsAtEnd (old app : List Bytes) : Prop :=
  ∀ pre tok post, old = pre ++ tok :: post → tok ∉ (app.filter (· ∉ pre)).dropLast

variable {tok before rest part field : Bytes} {result : Option Bytes} {fields toks : List Bytes}

theorem not_atStart : ¬AtStart before ↔ before ≠ [] ∧ before.getLast? ≠ some colon := not_or

theorem not_atEnd : ¬AtEnd rest ↔ rest ≠ [] ∧ rest.head? ≠ some colon := not_or

theorem AtStart.ofSegments (start : AtStart before) (ended : List Bytes) :
    AtStart (before ++ ofSegments colon ended []) := by
  induction ended generalizing before with
  | nil => simpa using start
  | cons first ended ih =>
    have next : AtStart (before ++ first ++ [colon]) := Or.inr List.getLast?_concat
    have whole := ih next
    rwa [Separated.ofSegments_cons, ← List.singleton_append, ← List.append_assoc, ← List.append_assoc]

theorem not_atStart_concat {b : UInt8} (letter : b ≠ colon) : ¬AtStart (before ++ [b]) := by
  rw [not_atStart]
  refine ⟨List.append_ne_nil_of_right_ne_nil _ (List.cons_ne_nil _ _), ?_⟩
  rw [List.getLast?_concat]
  exact fun same => letter (Option.some.inj same)

theorem not_atStart_append (nonempty : tok ≠ []) (clean : colon ∉ tok) : ¬AtStart (before ++ tok) := by
  obtain ⟨init, b, rfl⟩ := (List.eq_nil_or_concat tok).resolve_left nonempty
  rw [List.concat_eq_append, ← List.append_assoc]
  refine not_atStart_concat ?_
  rintro rfl
  exact clean (by simp)

theorem atEnd_colon (rest : Bytes) : AtEnd (colon :: rest) := Or.inr rfl

theorem prefix_part (clean : colon ∉ tok) (ends : AtEnd rest) (starts : tok <+: part ++ rest) : tok <+: part := by
  rcases ends with rfl | colonNext
  · rwa [List.append_nil] at starts
  · obtain ⟨rest, rfl⟩ := List.head?_eq_some_iff.mp colonNext
    refine List.prefix_of_prefix_length_le starts (List.prefix_append _ _) ?_
    by_contra longer
    have whole : part ++ [colon] <+: tok := by
      have inside : part ++ [colon] <+: part ++ colon :: rest := ⟨rest, by simp⟩
      refine List.prefix_of_prefix_length_le inside starts ?_
      rw [List.length_append, List.length_singleton]
      omega
    exact clean (whole.subset (by simp))

theorem Deduped.skip {b : UInt8} (other : ¬tok <+: b :: rest) (later : Deduped tok (before ++ [b]) rest result) :
    Deduped tok before (b :: rest) result := by
  obtain ⟨n, bound, run⟩ := later
  have same : dedupTurn tok (before, b :: rest) = dedupTurn tok (before ++ [b], rest) := by
    simp only [dedupTurn, Separated.cutAt_cons other]
    cases Separated.cutAt tok rest with
    | none => simp
    | some cut => simp
  exact ⟨n, Nat.le_succ_of_le bound, (Loop.run_congr same n).trans run⟩

section Token

variable (nonempty : tok ≠ []) (clean : colon ∉ tok)

include nonempty

theorem deduped_nil (before : Bytes) : Deduped tok before [] (some before) := by
  have turn : dedupTurn tok (before, []) = .inl (some before) := by
    simp [dedupTurn, Separated.cutAt, nonempty]
  exact ⟨1, Nat.le_refl _, Loop.run_ends turn 0⟩

/-- An occurrence that is no component is passed. -/
theorem Deduped.pass (inside : ¬AtStart before ∨ ¬AtEnd rest) (later : Deduped tok (before ++ tok) rest result) :
    Deduped tok before (tok ++ rest) result := by
  obtain ⟨n, bound, run⟩ := later
  have turn : dedupTurn tok (before, tok ++ rest) = .inr (before ++ tok, rest) := by
    simp only [dedupTurn, Separated.cutAt_append nonempty, List.append_nil]
    rw [not_atStart, not_atEnd] at inside
    rcases inside with inside | ⟨more, letter⟩
    · rw [if_pos inside]
    · rw [if_neg more, if_neg letter, ite_self]
  refine ⟨n + 1, ?_, by rw [Loop.run_turn turn, run]⟩
  have positive := List.length_pos_of_ne_nil nonempty
  rw [List.length_append]
  omega

theorem deduped_last (start : AtStart before) : Deduped tok before tok (some (before.rdropWhile (· = colon))) := by
  have found : Separated.cutAt tok tok = some ([], []) := by
    rw [← Separated.cutAt_append nonempty [], List.append_nil]
  have turn : dedupTurn tok (before, tok) = .inl (some (before.rdropWhile (· = colon))) := by
    simp only [dedupTurn, found, List.append_nil]
    rw [if_neg (not_atStart.not.mp (not_not.mpr start)), if_pos trivial]
  exact ⟨1, Nat.le_add_left 1 _, Loop.run_ends turn 0⟩

theorem deduped_freed (start : AtStart before) (rest : Bytes) : Deduped tok before (tok ++ colon :: rest) none := by
  have turn : dedupTurn tok (before, tok ++ colon :: rest) = .inl none := by
    simp only [dedupTurn, Separated.cutAt_append nonempty, List.append_nil]
    rw [if_neg (not_atStart.not.mp (not_not.mpr start)), if_neg (List.cons_ne_nil _ _), List.head?_cons, if_pos rfl]
  exact ⟨1, Nat.le_add_left 1 _, Loop.run_ends turn 0⟩

include clean

theorem Deduped.separator (later : Deduped tok (before ++ [colon]) rest result) :
    Deduped tok before (colon :: rest) result := by
  refine later.skip fun starts => ?_
  obtain ⟨b, tok, rfl⟩ := List.exists_cons_of_ne_nil nonempty
  obtain ⟨rfl, _⟩ := List.cons_prefix_cons.mp starts
  exact clean (List.mem_cons_self ..)

/-- The rest of a component that was entered is passed. -/
theorem Deduped.inside (entered : ¬AtStart before) (partClean : colon ∉ part) (ends : AtEnd rest)
    (later : Deduped tok (before ++ part) rest result) : Deduped tok before (part ++ rest) result := by
  generalize size : part.length = k
  induction k using Nat.strong_induction_on generalizing before part with
  | _ k ih =>
    by_cases starts : tok <+: part ++ rest
    · obtain ⟨after, rfl⟩ := prefix_part clean ends starts
      have positive := List.length_pos_of_ne_nil nonempty
      rw [List.length_append] at size
      rw [← List.append_assoc] at later
      have afterClean : colon ∉ after := fun member => partClean (List.mem_append_right _ member)
      have further := ih after.length (by omega) (not_atStart_append nonempty clean) afterClean later rfl
      rw [List.append_assoc]
      exact further.pass nonempty (Or.inl entered)
    · cases part with
      | nil => simpa using later
      | cons b part =>
        rw [List.mem_cons, not_or] at partClean
        rw [← List.singleton_append, ← List.append_assoc] at later
        have further := ih part.length (by rw [← size]; exact Nat.lt_succ_self _)
          (not_atStart_concat fun same => partClean.1 same.symm) partClean.2 later rfl
        exact further.skip starts

/-- A component that is another one is passed. -/
theorem Deduped.other (different : field ≠ tok) (fieldClean : colon ∉ field) (ends : AtEnd rest)
    (later : Deduped tok (before ++ field) rest result) : Deduped tok before (field ++ rest) result := by
  by_cases starts : tok <+: field ++ rest
  · obtain ⟨after, rfl⟩ := prefix_part clean ends starts
    have afterClean : colon ∉ after := fun member => fieldClean (List.mem_append_right _ member)
    have goesOn : ¬AtEnd (after ++ rest) := by
      cases after with
      | nil => exact absurd (List.append_nil _) different
      | cons b after =>
        rw [not_atEnd]
        exact ⟨List.cons_ne_nil _ _, fun same => afterClean (by simp [Option.some.inj same])⟩
    rw [← List.append_assoc] at later
    rw [List.append_assoc]
    have inside := later.inside nonempty clean (not_atStart_append nonempty clean) afterClean ends
    exact inside.pass nonempty (Or.inr goesOn)
  · cases field with
    | nil => simpa using later
    | cons b field =>
      rw [List.mem_cons, not_or] at fieldClean
      rw [← List.singleton_append, ← List.append_assoc] at later
      have entered : ¬AtStart (before ++ [b]) := not_atStart_concat fun same => fieldClean.1 same.symm
      exact (later.inside nonempty clean entered fieldClean.2 ends).skip starts

/-- Components that are others are passed one after the other. -/
theorem Deduped.others (absent : tok ∉ fields) (fieldsClean : ∀ field ∈ fields, colon ∉ field)
    (later : Deduped tok (before ++ ofSegments colon fields []) rest result) :
    Deduped tok before (ofSegments colon fields rest) result := by
  induction fields generalizing before with
  | nil => simpa using later
  | cons field fields ih =>
    rw [List.mem_cons, not_or] at absent
    have first := fieldsClean field (List.mem_cons_self ..)
    rw [Separated.ofSegments_cons]
    refine Deduped.other nonempty clean (Ne.symm absent.1) first (atEnd_colon _) (Deduped.separator nonempty clean ?_)
    refine ih absent.2 (fun other member => fieldsClean other (List.mem_cons_of_mem _ member)) ?_
    rwa [Separated.ofSegments_cons, ← List.singleton_append, ← List.append_assoc, ← List.append_assoc] at later

end Token

section Paths

variable (fieldsClean : ∀ field ∈ fields, colon ∉ field)

theorem pathOf_concat (init : List Bytes) (last : Bytes) : pathOf (init ++ [last]) = ofSegments colon init last :=
  Separated.intercalate_eq_ofSegments init last

include fieldsClean in
theorem splitOn_pathOf (nonempty : fields ≠ []) : (pathOf fields).splitOn colon = fields :=
  List.splitOn_intercalate colon fieldsClean nonempty

theorem pathOf_components (path : Bytes) : pathOf (components path) = path := by
  unfold components
  split
  · rename_i empty
    rw [empty]
    rfl
  · exact List.intercalate_splitOn colon

theorem pathOf_append {fields' : List Bytes} (some : fields ≠ []) (more : fields' ≠ []) :
    pathOf (fields ++ fields') = pathOf fields ++ colon :: pathOf fields' := by
  obtain ⟨init, last, rfl⟩ := (List.eq_nil_or_concat fields).resolve_left some
  obtain ⟨init', last', rfl⟩ := (List.eq_nil_or_concat fields').resolve_left more
  rw [List.concat_eq_append, List.concat_eq_append, ← List.append_assoc, pathOf_concat, pathOf_concat, pathOf_concat,
    Separated.ofSegments_append_left, Separated.ofSegments_append_left, Separated.ofSegments_append,
    Separated.ofSegments_cons]
  rfl

theorem components_clean {path : Bytes} : ∀ field ∈ components path, colon ∉ field := by
  intro field member
  unfold components at member
  split at member
  · cases member
  · exact Separated.not_mem_of_mem_splitOn member

theorem pathOf_eq_nil_iff : pathOf fields = [] ↔ fields = [] ∨ fields = [[]] := by
  rcases List.eq_nil_or_concat fields with rfl | ⟨init, last, rfl⟩
  · exact iff_of_true rfl (Or.inl rfl)
  · rw [List.concat_eq_append, pathOf_concat, ofSegments, List.append_eq_nil_iff, List.flatMap_eq_nil_iff]
    constructor
    · rintro ⟨none, rfl⟩
      cases init with
      | nil => exact Or.inr rfl
      | cons first init =>
        have absurdity := none first (List.mem_cons_self ..)
        simp at absurdity
    · rintro (none | single)
      · simp at none
      · obtain ⟨rfl, same⟩ := List.append_eq_singleton_iff.mp single |>.resolve_right fun both => by simp at both
        exact ⟨fun _ member => absurd member List.not_mem_nil, List.singleton_inj.mp same⟩

theorem pathOf_eq_nil (filled : [] ∉ fields) : pathOf fields = [] ↔ fields = [] := by
  refine pathOf_eq_nil_iff.trans (or_iff_left ?_)
  rintro rfl
  exact filled (List.mem_singleton_self _)

theorem components_pathOf (filled : [] ∉ fields) (fieldsClean : ∀ field ∈ fields, colon ∉ field) :
    components (pathOf fields) = fields := by
  unfold components
  split
  · rename_i empty
    exact ((pathOf_eq_nil filled).mp empty).symm
  · rename_i some
    exact splitOn_pathOf fieldsClean fun none => some (none ▸ rfl)

theorem dedup_of_deduped (found : Deduped tok [] rest result) : dedup tok rest = result := by
  obtain ⟨n, bound, run⟩ := found
  obtain ⟨k, enough⟩ := Nat.exists_eq_add_of_le bound
  rw [dedup, enough, Loop.run_mono run k]
  rfl

/-- The separators at the end go with the last component. -/
theorem rdropWhile_ofSegments (filled : [] ∉ fields) :
    (∀ field ∈ fields, colon ∉ field) → (ofSegments colon fields []).rdropWhile (· = colon) = pathOf fields := by
  intro fieldsClean
  rcases List.eq_nil_or_concat fields with rfl | ⟨init, last, rfl⟩
  · rfl
  · rw [List.concat_eq_append] at filled fieldsClean ⊢
    have shape : ofSegments colon (init ++ [last]) [] = ofSegments colon init last ++ [colon] := by
      rw [Separated.ofSegments_append_left, Separated.ofSegments_append, Separated.ofSegments_cons,
        Separated.ofSegments_nil]
    rw [shape, List.rdropWhile_concat_pos _ _ _ (by simp), pathOf_concat, List.rdropWhile_eq_self_iff]
    intro nonempty
    obtain ⟨front, b, rfl⟩ := (List.eq_nil_or_concat last).resolve_left fun empty => filled (by simp [empty])
    have letter : b ≠ colon := by
      rintro rfl
      exact fieldsClean _ (List.mem_append_right _ (List.mem_singleton_self _)) (by simp)
    simp [ofSegments, letter]

variable (nonempty : tok ≠ []) (clean : colon ∉ tok)

include fieldsClean nonempty clean

theorem dedup_absent (absent : tok ∉ fields) : dedup tok (pathOf fields) = some (pathOf fields) := by
  refine dedup_of_deduped ?_
  rcases List.eq_nil_or_concat fields with rfl | ⟨init, last, rfl⟩
  · exact deduped_nil nonempty []
  · rw [List.concat_eq_append] at absent fieldsClean ⊢
    rw [List.mem_append, not_or, List.mem_singleton] at absent
    have lastClean := fieldsClean last (List.mem_append_right _ (List.mem_singleton_self _))
    rw [pathOf_concat]
    refine Deduped.others nonempty clean absent.1 (fun field member =>
      fieldsClean field (List.mem_append_left _ member)) ?_
    have final := deduped_nil nonempty ([] ++ ofSegments colon init [] ++ last)
    have passed := Deduped.other nonempty clean (Ne.symm absent.2) lastClean (Or.inl rfl) final
    rwa [List.nil_append, List.append_nil, Separated.ofSegments_append] at passed

theorem dedup_freed (member : tok ∈ fields.dropLast) : dedup tok (pathOf fields) = none := by
  have some : fields ≠ [] := by
    rintro rfl
    cases member
  obtain ⟨init, rest, split, absent⟩ := List.eq_append_cons_of_mem member
  rw [← List.dropLast_append_getLast some, split, pathOf_concat, Separated.ofSegments_append_left,
    Separated.ofSegments_cons]
  refine dedup_of_deduped (Deduped.others nonempty clean absent (fun field inside => fieldsClean field ?_) ?_)
  · refine List.dropLast_subset _ ?_
    rw [split]
    exact List.mem_append_left _ inside
  · exact deduped_freed nonempty (AtStart.ofSegments (Or.inl rfl) init) _

omit fieldsClean in
theorem dedup_last {init : List Bytes} (initClean : ∀ field ∈ init, colon ∉ field) (absent : tok ∉ init) :
    dedup tok (pathOf (init ++ [tok])) = some ((ofSegments colon init []).rdropWhile (· = colon)) := by
  rw [pathOf_concat]
  refine dedup_of_deduped (Deduped.others nonempty clean absent initClean ?_)
  exact deduped_last nonempty (AtStart.ofSegments (Or.inl rfl) init)

theorem dedup_pathOf (filled : [] ∉ fields) : dedup tok (pathOf fields) =
    if tok ∈ fields.dropLast then none else some (pathOf (fields.filter (· ≠ tok))) := by
  split
  · rename_i member
    exact dedup_freed fieldsClean nonempty clean member
  · rename_i absent
    rcases List.eq_nil_or_concat fields with rfl | ⟨init, last, rfl⟩
    · exact dedup_absent fieldsClean nonempty clean List.not_mem_nil
    · rw [List.concat_eq_append] at *
      rw [List.dropLast_concat] at absent
      have others : init.filter (· ≠ tok) = init := by
        refine List.filter_eq_self.mpr fun field member => decide_eq_true ?_
        rintro rfl
        exact absent member
      rw [List.filter_append, others]
      by_cases same : last = tok
      · subst same
        have initClean := fun field member => fieldsClean field (List.mem_append_left _ member)
        rw [dedup_last nonempty clean initClean absent,
          rdropWhile_ofSegments (fun member => filled (List.mem_append_left _ member)) initClean]
        simp
      · have missing : tok ∉ init ++ [last] := by simpa [absent] using Ne.symm same
        rw [dedup_absent fieldsClean nonempty clean missing]
        simp [same]

end Paths

theorem filter_absent_cons (app : List Bytes) :
    (app.filter (· ≠ tok)).filter (· ∉ toks) = app.filter (· ∉ tok :: toks) := by
  rw [List.filter_filter]
  refine List.filter_congr fun field _ => ?_
  simp [Bool.and_comm]

theorem repeatsAtEnd_nil (app : List Bytes) : RepeatsAtEnd [] app := by
  intro pre tok post split
  simp at split

theorem repeatsAtEnd_cons (app : List Bytes) : RepeatsAtEnd (tok :: toks) app ↔
    tok ∉ app.dropLast ∧ RepeatsAtEnd toks (app.filter (· ≠ tok)) := by
  constructor
  · intro condition
    refine ⟨by simpa using condition [] tok toks rfl, fun pre other post split => ?_⟩
    rw [filter_absent_cons]
    exact condition (tok :: pre) other post (by rw [split]; rfl)
  · rintro ⟨first, later⟩ pre other post split
    cases pre with
    | nil =>
      obtain ⟨rfl, _⟩ := List.cons_eq_cons.mp split
      simpa using first
    | cons head pre =>
      obtain ⟨rfl, rest⟩ := List.cons_eq_cons.mp split
      rw [← filter_absent_cons]
      exact later pre other post rest

/-- The loop over the components of the old path. -/
theorem dedups_pathOf (tokens : ∀ tok ∈ toks, tok ≠ [] ∧ colon ∉ tok) (filled : [] ∉ fields)
    (fieldsClean : ∀ field ∈ fields, colon ∉ field) :
    (RepeatsAtEnd toks fields → toks.foldlM (fun app tok => dedup tok app) (pathOf fields) =
      some (pathOf (fields.filter (· ∉ toks)))) ∧
    (¬RepeatsAtEnd toks fields → toks.foldlM (fun app tok => dedup tok app) (pathOf fields) = none) := by
  induction toks generalizing fields with
  | nil =>
    exact ⟨fun _ => by simp, fun not => absurd (repeatsAtEnd_nil fields) not⟩
  | cons tok toks ih =>
    obtain ⟨nonempty, clean⟩ := tokens tok (List.mem_cons_self ..)
    have sub : ∀ field ∈ fields.filter (· ≠ tok), field ∈ fields := fun field member => (List.mem_filter.mp member).1
    obtain ⟨ends, freed⟩ := ih (fun other member => tokens other (List.mem_cons_of_mem _ member))
      (fun member => filled (sub _ member)) fun field member => fieldsClean field (sub field member)
    rw [repeatsAtEnd_cons, List.foldlM_cons, dedup_pathOf fieldsClean nonempty clean filled]
    by_cases member : tok ∈ fields.dropLast
    · rw [if_pos member]
      exact ⟨fun both => absurd member both.1, fun _ => rfl⟩
    · rw [if_neg member]
      refine ⟨fun both => ?_, fun not => freed fun later => not ⟨member, later⟩⟩
      rw [← filter_absent_cons]
      exact ends both.2

theorem filter_filled (filled : [] ∉ fields) : fields.filter (· ≠ []) = fields := by
  refine List.filter_eq_self.mpr fun field member => decide_eq_true ?_
  rintro rfl
  exact filled member

/-- A list with those of others that it does not have. -/
def extend (acc new : List Bytes) : List Bytes := acc ++ new.filter (· ∉ acc)

theorem pathappend_fields {acc : List Bytes} (accClean : ∀ field ∈ acc, colon ∉ field) (some : pathOf acc ≠ [])
    (filled : [] ∉ fields) (fieldsClean : ∀ field ∈ fields, colon ∉ field) :
    (RepeatsAtEnd (acc.filter (· ≠ [])) fields →
      pathappend (.some (pathOf acc)) (pathOf fields) = .some (pathOf (extend acc fields))) ∧
    (¬RepeatsAtEnd (acc.filter (· ≠ [])) fields → pathappend (.some (pathOf acc)) (pathOf fields) = none) := by
  have nonempty : acc ≠ [] := fun empty => some (pathOf_eq_nil_iff.mpr (Or.inl empty))
  have tokens : ∀ tok ∈ acc.filter (· ≠ []), tok ≠ [] ∧ colon ∉ tok := fun tok member =>
    ⟨of_decide_eq_true (List.mem_filter.mp member).2, accClean tok (List.mem_filter.mp member).1⟩
  obtain ⟨ends, freed⟩ := dedups_pathOf tokens filled fieldsClean
  simp only [pathappend, if_neg some, splitOn_pathOf accClean nonempty]
  refine ⟨fun condition => ?_, fun not => by rw [freed not]; rfl⟩
  have same : fields.filter (· ∉ acc.filter (· ≠ [])) = fields.filter (· ∉ acc) := by
    refine List.filter_congr fun field member => ?_
    have full : field ≠ [] := fun empty => filled (empty ▸ member)
    simp [full]
  have left : [] ∉ fields.filter (· ∉ acc) := fun member => filled (List.mem_filter.mp member).1
  rw [ends condition, same, Option.map_some, extend]
  split
  · rename_i more
    rw [← pathOf_append nonempty ((pathOf_eq_nil left).not.mp more)]
  · rename_i nothing
    rw [(pathOf_eq_nil left).mp (not_not.mp nothing), List.append_nil]

/-- The appendage loses the components of the old path exactly if no occurrence of one
that is still there is followed by another component: behind such an occurrence the
search goes on in the buffer that has been freed. -/
theorem pathappend_iff {oldpath appendage : Bytes} (nonempty : oldpath ≠ []) (old : [] ∉ components oldpath)
    (app : [] ∉ components appendage) :
    (∃ path, pathappend (some oldpath) appendage = some path ∧
      components path = components oldpath ++ (components appendage).filter (· ∉ components oldpath)) ↔
    RepeatsAtEnd (components oldpath) (components appendage) := by
  have tokens := filter_filled old
  have some : pathOf (components oldpath) ≠ [] := by rwa [pathOf_components]
  obtain ⟨ends, freed⟩ := pathappend_fields components_clean some app components_clean
  rw [tokens, pathOf_components, pathOf_components] at ends freed
  constructor
  · rintro ⟨path, result, _⟩
    by_contra not
    rw [freed not] at result
    cases result
  · intro condition
    refine ⟨_, ends condition, components_pathOf ?_ ?_⟩
    · rw [extend, List.mem_append, not_or]
      exact ⟨old, fun member => app (List.mem_filter.mp member).1⟩
    · intro field member
      rcases List.mem_append.mp member with first | second
      · exact components_clean field first
      · exact components_clean field (List.mem_filter.mp second).1

theorem pathappend_iff_last : ∃ path, pathappend (some (ascii "/a:/b")) (ascii "/a/x:/b") = some path ∧
    components path = components (ascii "/a:/b") ++
      (components (ascii "/a/x:/b")).filter (· ∉ components (ascii "/a:/b")) := by
  refine (pathappend_iff (by decide +kernel) (by decide +kernel) (by decide +kernel)).mpr ?_
  have old : components (ascii "/a:/b") = [ascii "/a", ascii "/b"] := by decide +kernel
  have app : components (ascii "/a/x:/b") = [ascii "/a/x", ascii "/b"] := by decide +kernel
  rw [old, app, repeatsAtEnd_cons, repeatsAtEnd_cons]
  exact ⟨by decide +kernel, by decide +kernel, repeatsAtEnd_nil _⟩

/-- A component that is repeated before another one. -/
theorem pathappend_freed : ¬∃ path, pathappend (some (ascii "/a")) (ascii "/a:/b") = some path ∧
    components path = components (ascii "/a") ++
      (components (ascii "/a:/b")).filter (· ∉ components (ascii "/a")) := by
  have freed : pathappend (some (ascii "/a")) (ascii "/a:/b") = none := by decide +kernel
  rintro ⟨path, result, _⟩
  rw [freed] at result
  cases result

end ManDb
