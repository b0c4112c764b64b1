import ManDb.Lexgrog.CutOff
import ManDb.Straycats

namespace ManDb.Lexgrog

/-- The loop from the terminator over trailing spaces: it reads what is before the pointer, and at the
start of `newname` that is outside. -/
def skipTrailing (newname : Bytes) : Nat → Option Nat
  | 0 => none
  | p + 1 =>
    match newname[p]? with
    | none => none
    | some c => if c = space then skipTrailing newname p else some (p + 1)

/-- Wipe out any trailing spaces. -/
def wipeTrailing (newname : Bytes) : Option Bytes := do
  if (← newname[0]?) = 0 then some newname
  else
    let p ← skipTrailing newname (← stringAt newname 0).length
    if (← newname[p]?) = space then poke newname p 0 else some newname

/-- The loop over leading spaces. -/
def skipLeading : Bytes → Nat → Option Nat
  | [], _ => none
  | c :: rest, p => if c = space then skipLeading rest (p + 1) else some p

/-- The loop that collects the filters in `f_tmp`: what is in it, and `k`. -/
def collectFilters (filters : Bytes) : Option (Bytes × Nat) :=
  filters.foldlM (fun s c => if c = underscore then some s else (poke s.1 s.2 c).map fun fTmp => (fTmp, s.2 + 1))
    (dash :: List.replicate 5 0, 0)

/-- What `find_name_decompressed` puts into the `lexgrog` it was given, and what it returns. -/
structure Found where
  whatis : Bytes
  filters : Bytes
  value : UInt8
  deriving DecidableEq

/-- The end of `find_name_decompressed`. A read or a store outside of a buffer gives `none`. -/
def epilogue (newname filters : Bytes) : Option Found := do
  let newname ← wipeTrailing newname
  let p ← skipLeading newname 0
  let whatis ← stringAt newname p
  let fTmp ← collectFilters filters
  let filters ← stringAt fTmp.1 0
  let value ← newname[p]?
  some ⟨whatis, filters, value⟩

/-- `newname` when `yylex` has returned: there is a terminator in it. -/
structure Newname where
  bytes : Bytes
  size : bytes.length = maxName
  terminated : 0 ∈ bytes

def Newname.text (newname : Newname) : Bytes := cString newname.bytes

/-- The array of the filters that have been found. -/
def filterBytes (found : Filter → Bool) : Bytes := Filter.all.map fun f => if found f then f.letter else underscore

/-- The letters of the filters that have been found, or a dash. -/
def filterText (found : Filter → Bool) : Bytes :=
  if (Filter.all.filter found) = [] then [dash] else (Filter.all.filter found).map Filter.letter

/-- Six answers, one for each filter. -/
def Filter.pick (t e p g r v : Bool) : Filter → Bool
  | .tbl => t
  | .eqn => e
  | .pic => p
  | .grap => g
  | .ref => r
  | .vgrind => v

theorem Filter.pick_eq (found : Filter → Bool) :
    pick (found .tbl) (found .eqn) (found .pic) (found .grap) (found .ref) (found .vgrind) = found := by
  funext f
  cases f <;> rfl

theorem collectFilters_pick : ∀ t e p g r v : Bool,
    ((collectFilters (filterBytes (Filter.pick t e p g r v))).bind fun fTmp => stringAt fTmp.1 0) =
      if t && e && p && g && r && v then none else some (filterText (Filter.pick t e p g r v)) := by
  decide +kernel

/-- Six letters leave no room for a terminator. -/
theorem collectFilters_eq_some_iff (found : Filter → Bool) :
    ((collectFilters (filterBytes found)).bind fun fTmp => stringAt fTmp.1 0) = some (filterText found) ↔
      ∃ f, found f = false := by
  have table := collectFilters_pick (found .tbl) (found .eqn) (found .pic) (found .grap) (found .ref) (found .vgrind)
  rw [Filter.pick_eq] at table
  rw [table]
  split
  · rename_i all
    simp only [Bool.and_eq_true] at all
    simp only [reduceCtorEq, false_iff, not_exists, Bool.not_eq_false]
    intro f
    cases f <;> simp [all]
  · rename_i missing
    simp only [true_iff]
    by_contra none
    simp only [not_exists, Bool.not_eq_false] at none
    exact missing (by simp [none])

variable {text rest : Bytes} {p : Nat}

theorem stringAt_append (nulFree : 0 ∉ text) (front rest : Bytes) :
    stringAt (front ++ (text ++ 0 :: rest)) front.length = some text := by
  rw [stringAt, List.drop_left, if_pos (by simp), cString_nul nulFree]

theorem getElem?_terminator (text rest : Bytes) : (text ++ 0 :: rest)[text.length]? = some 0 := by
  rw [List.getElem?_append_right (Nat.le_refl _), Nat.sub_self]
  rfl

/-- The loop over trailing spaces stops behind the last byte that is none, if there is one. -/
theorem skipTrailing_eq (within : p ≤ text.length) (rest : Bytes) :
    skipTrailing (text ++ rest) p =
      if (text.take p).rdropWhile (· == space) = [] then none
      else some ((text.take p).rdropWhile (· == space)).length := by
  induction p with
  | zero => rfl
  | succ p ih =>
    have inside : p < text.length := within
    have byte : (text ++ rest)[p]? = some text[p] := by
      rw [List.getElem?_append_left inside, List.getElem?_eq_getElem inside]
    rw [skipTrailing, byte, List.take_succ_eq_append_getElem inside]
    by_cases isSpace : text[p] = space
    · simp only [isSpace, if_true]
      rw [ih (Nat.le_of_lt inside), List.rdropWhile_concat_pos _ _ _ (by simp)]
    · simp only [if_neg isSpace]
      rw [List.rdropWhile_concat_neg _ _ _ (by simpa using isSpace),
        if_neg (List.append_ne_nil_of_right_ne_nil _ (List.cons_ne_nil _ _)), List.length_append, List.length_take,
        Nat.min_eq_left (Nat.le_of_lt inside)]
      rfl

theorem wipeTrailing_cons {c : UInt8} (nulFree : 0 ∉ c :: text) (rest : Bytes) :
    wipeTrailing (c :: text ++ 0 :: rest) =
      (skipTrailing (c :: text ++ 0 :: rest) (c :: text).length).bind fun p =>
        (c :: text ++ 0 :: rest)[p]?.bind fun b =>
          if b = space then poke (c :: text ++ 0 :: rest) p 0 else some (c :: text ++ 0 :: rest) := by
  have first : c ≠ 0 := fun same => nulFree (by simp [same])
  have whole : stringAt (c :: text ++ 0 :: rest) 0 = some (c :: text) := stringAt_append nulFree [] rest
  have head : (c :: text ++ 0 :: rest)[0]? = some c := rfl
  rw [wipeTrailing, head, whole]
  simp [first]

/-- In front of spaces only the loop does not stop. -/
theorem wipeTrailing_spaces (nonempty : text ≠ []) (spaces : ∀ c ∈ text, c = space) (rest : Bytes) :
    wipeTrailing (text ++ 0 :: rest) = none := by
  obtain ⟨c, text, rfl⟩ := List.exists_cons_of_ne_nil nonempty
  have nulFree : 0 ∉ c :: text := fun nul => absurd (spaces 0 nul) (by decide)
  have nothing : ((c :: text).take (c :: text).length).rdropWhile (· == space) = [] := by
    rw [List.take_length, List.rdropWhile_eq_nil_iff]
    simpa using spaces
  rw [wipeTrailing_cons nulFree, skipTrailing_eq (Nat.le_refl _), if_pos nothing, Option.bind_none]

theorem wipeTrailing_text (nulFree : 0 ∉ text) (letter : text = [] ∨ ∃ c ∈ text, c ≠ space) (rest : Bytes) :
    ∃ behind, wipeTrailing (text ++ 0 :: rest) = some (text.rdropWhile (· == space) ++ 0 :: behind) := by
  cases text with
  | nil => exact ⟨rest, rfl⟩
  | cons c text =>
    have kept : (c :: text).rdropWhile (· == space) ≠ [] := by
      obtain ⟨b, member, other⟩ := letter.resolve_left (List.cons_ne_nil _ _)
      rw [Ne, List.rdropWhile_eq_nil_iff]
      exact fun spaces => other (by simpa using spaces b member)
    rw [wipeTrailing_cons nulFree, skipTrailing_eq (Nat.le_refl _), List.take_length, if_neg kept, Option.bind_some]
    have parts := List.rdropWhile_append_rtakeWhile (p := (· == space)) (l := c :: text)
    have trailing : ∀ b ∈ (c :: text).rtakeWhile (· == space), b = space := fun b member => by
      simpa using List.mem_rtakeWhile_imp member
    generalize (c :: text).rdropWhile (· == space) = front at parts kept ⊢
    generalize (c :: text).rtakeWhile (· == space) = spaces at parts trailing
    rw [← parts]
    cases spaces with
    | nil =>
      rw [List.append_nil, getElem?_terminator]
      exact ⟨rest, rfl⟩
    | cons b spaces =>
      have isSpace : b = space := trailing b (List.mem_cons_self ..)
      have byte : (front ++ b :: spaces ++ 0 :: rest)[front.length]? = some space := by
        rw [List.append_assoc, List.getElem?_append_right (Nat.le_refl _), Nat.sub_self, isSpace]
        rfl
      rw [byte, Option.bind_some, if_pos rfl, poke, if_pos (by simp)]
      exact ⟨spaces ++ 0 :: rest, by simp⟩

/-- The loop over leading spaces stops at the first byte that is none. -/
theorem skipLeading_eq {lead : Bytes} (spaces : ∀ b ∈ lead, b = space) {c : UInt8} (other : c ≠ space) (rest : Bytes)
    (p : Nat) : skipLeading (lead ++ c :: rest) p = some (p + lead.length) := by
  induction lead generalizing p with
  | nil => exact if_neg other
  | cons b lead ih =>
    have isSpace : b = space := spaces b (List.mem_cons_self ..)
    rw [List.cons_append, skipLeading, if_pos isSpace, ih fun b member => spaces b (List.mem_cons_of_mem _ member)]
    rw [List.length_cons, Nat.add_assoc, Nat.add_comm 1]

/-- It does not matter at which end a list is trimmed first. -/
theorem dropWhile_rdropWhile {α : Type*} (q : α → Bool) (xs : List α) :
    (xs.rdropWhile q).dropWhile q = (xs.dropWhile q).rdropWhile q := by
  induction xs using List.reverseRecOn with
  | nil => rfl
  | append_singleton xs x ih =>
    rw [List.dropWhile_append]
    by_cases drop : q x = true
    · rw [List.rdropWhile_concat_pos _ _ _ drop, ih]
      split
      · rename_i empty
        rw [List.isEmpty_iff.mp empty, List.dropWhile_cons_of_pos drop]
        rfl
      · rw [List.rdropWhile_concat_pos _ _ _ drop]
    · rw [List.rdropWhile_concat_neg _ _ _ drop, List.dropWhile_append]
      split
      · rw [List.dropWhile_cons_of_neg drop, List.rdropWhile_singleton, if_neg drop]
      · rw [List.rdropWhile_concat_neg _ _ _ drop]

/-- What the end of `find_name_decompressed` is meant to make of a text and of the filters. -/
def trimmedFound (text : Bytes) (found : Filter → Bool) : Found :=
  ⟨trimSpaces text, filterText found, (trimSpaces text).head?.getD 0⟩

/-- The loop over leading spaces stops at what is left of a text without them, or at its terminator. -/
theorem skipLeading_text (nulFree : 0 ∉ text) (behind : Bytes) :
    skipLeading (text ++ 0 :: behind) 0 = some (text.takeWhile (· == space)).length ∧
      stringAt (text ++ 0 :: behind) (text.takeWhile (· == space)).length = some (text.dropWhile (· == space)) ∧
      (text ++ 0 :: behind)[(text.takeWhile (· == space)).length]? =
        some ((text.dropWhile (· == space)).head?.getD 0) := by
  have parts := List.takeWhile_append_dropWhile (p := (· == space)) (l := text)
  have stops := List.head?_dropWhile_not (· == space) text
  have spaces : ∀ b ∈ text.takeWhile (· == space), b = space := fun b member =>
    beq_iff_eq.mp (List.mem_takeWhile_imp (p := (· == space)) member)
  have clean : 0 ∉ text.dropWhile (· == space) := fun nul => nulFree ((List.dropWhile_suffix _).subset nul)
  generalize text.takeWhile (· == space) = lead at parts spaces ⊢
  generalize text.dropWhile (· == space) = trimmed at parts stops clean ⊢
  have whole : text ++ 0 :: behind = lead ++ (trimmed ++ 0 :: behind) := by rw [← parts, List.append_assoc]
  obtain ⟨c, more, shape, other, head⟩ : ∃ c more, trimmed ++ 0 :: behind = c :: more ∧ c ≠ space ∧
      c = trimmed.head?.getD 0 := by
    cases trimmed with
    | nil => exact ⟨0, behind, rfl, by decide, rfl⟩
    | cons c more => exact ⟨c, more ++ 0 :: behind, rfl, by simpa using stops, rfl⟩
  rw [whole]
  refine ⟨?_, stringAt_append clean lead behind, ?_⟩
  · rw [shape, skipLeading_eq spaces other, Nat.zero_add]
  · rw [shape, List.getElem?_append_right (Nat.le_refl _), Nat.sub_self, ← head]
    rfl

theorem epilogue_text {found : Filter → Bool} (nulFree : 0 ∉ text) (letter : text = [] ∨ ∃ c ∈ text, c ≠ space)
    (rest : Bytes) :
    epilogue (text ++ 0 :: rest) (filterBytes found) =
      ((collectFilters (filterBytes found)).bind fun fTmp => stringAt fTmp.1 0).map fun filters =>
        { trimmedFound text found with filters := filters } := by
  obtain ⟨behind, wiped⟩ := wipeTrailing_text nulFree letter rest
  have clean : 0 ∉ text.rdropWhile (· == space) := fun nul => nulFree ((List.rdropWhile_prefix _ _).subset nul)
  obtain ⟨pointer, string, value⟩ := skipLeading_text clean behind
  have trims : trimSpaces text = (text.rdropWhile (· == space)).dropWhile (· == space) := by
    rw [dropWhile_rdropWhile, trimSpaces]
  simp only [epilogue, wiped, Option.bind_eq_bind, Option.bind_some, pointer, string, value, trimmedFound, trims]
  cases collectFilters (filterBytes found) with
  | none => rfl
  | some fTmp =>
    rw [Option.bind_some, Option.bind_some]
    cases stringAt fTmp.1 0 <;> rfl

theorem Newname.shape (newname : Newname) :
    ∃ rest, newname.bytes = newname.text ++ 0 :: rest ∧ 0 ∉ newname.text := by
  obtain ⟨front, rest, whole, nulFree⟩ := List.eq_append_cons_of_mem newname.terminated
  have same : newname.text = front := by rw [Newname.text, whole, cString_nul nulFree]
  exact ⟨rest, by rw [same, whole], same ▸ nulFree⟩

section Leaves

variable {limit : Option Nat} {s : Scanner}

theorem filterBytes_set (found : Filter → Bool) (f : Filter) :
    (filterBytes found).set f.index f.letter = filterBytes (Function.update found f true) := by
  cases f <;> simp [filterBytes, Filter.all, Filter.index, Filter.letter, Function.update]

/-- Only the filter rules change the array of the filters. -/
theorem runOp_filters {found : Filter → Bool} (filters : s.filters = filterBytes found) (text : Bytes) (op : Op) :
    ∃ found, (runOp limit text op s).filters = filterBytes found := by
  cases op with
  | filter f => exact ⟨Function.update found f true, by rw [← filterBytes_set, ← filters]; rfl⟩
  | newlineFound => exact ⟨found, s.kept_newlineFound.filters.trans filters⟩
  | addStr operand => exact ⟨found, (s.kept_addStr _ _).filters.trans filters⟩
  | addChar c => exact ⟨found, (s.kept_addChar _).filters.trans filters⟩
  | addSeparator => exact ⟨found, s.kept_addSeparator.filters.trans filters⟩
  | addWordn operand => exact ⟨found, (s.kept_addWordn _ _).filters.trans filters⟩
  | addWord string | mdocText string => exact ⟨found, (s.kept_addWordn string _).filters.trans filters⟩
  | addGlyph operand | addPerldoc operand => exact ⟨found, (s.kept_addMacro _ _ _).filters.trans filters⟩
  | begin | yyless | terminate | ret | fill | waitForQuote => exact ⟨found, filters⟩

theorem runAction_filters {found : Filter → Bool} (filters : s.filters = filterBytes found) (text : Bytes)
    (action : List Op) : ∃ found, (runAction limit text action s).filters = filterBytes found := by
  induction action generalizing s found with
  | nil => exact ⟨found, filters⟩
  | cons op action ih =>
    obtain ⟨_, next⟩ := runOp_filters filters text op
    exact ih next

theorem turn_filters {found : Filter → Bool} (filters : s.filters = filterBytes found) :
    ∃ found, (turn limit s).filters = filterBytes found := by
  unfold turn
  split
  · exact ⟨found, filters⟩
  · rename_i action text rest next
    have left : (s.leave rest).filters = filterBytes found := filters
    exact runAction_filters left text action

theorem scan_filters (limit : Option Nat) (type : PageType) (page : Bytes) (turns : Nat) :
    ∃ found, (scan limit type page turns).filters = filterBytes found := by
  induction turns with
  | zero => exact ⟨fun _ => false, rfl⟩
  | succ turns ih =>
    obtain ⟨_, filters⟩ := ih
    rw [scan_succ]
    exact turn_filters filters

end Leaves

/-- `newname` when a scan has terminated the text in it, with what was in it before. -/
def Scanner.newname (before : Newname) (s : Scanner) : Bytes :=
  s.whatis ++ 0 :: before.bytes.drop (s.whatis.length + 1)

/-- What a scan leaves for the end of `find_name_decompressed`. -/
theorem scan_leaves (before : Newname) (type : PageType) (page : Bytes) (turns : Nat) :
    (∃ newname : Newname, newname.bytes = (scan (some maxName) type page turns).newname before) ∧
      ∃ found, (scan (some maxName) type page turns).filters = filterBytes found := by
  refine ⟨⟨⟨_, ?_, ?_⟩, rfl⟩, scan_filters _ type page turns⟩
  · have room := (scan_within type page turns).room
    simp only [List.length_append, List.length_cons, List.length_drop, before.size]
    omega
  · simp

/-- The end of `find_name_decompressed` reads and stores inside of its buffers, and what it returns is what
is meant, exactly if the text does not consist of spaces only and some filter has not been found. -/
theorem epilogue_right_iff (newname : Newname) (found : Filter → Bool) :
    epilogue newname.bytes (filterBytes found) = some (trimmedFound newname.text found) ↔
      (newname.text = [] ∨ ∃ c ∈ newname.text, c ≠ space) ∧ ∃ f, found f = false := by
  obtain ⟨rest, shape, nulFree⟩ := newname.shape
  rw [shape]
  by_cases letter : newname.text = [] ∨ ∃ c ∈ newname.text, c ≠ space
  · rw [and_iff_right letter, epilogue_text nulFree letter, ← collectFilters_eq_some_iff, Option.map_eq_some_iff]
    constructor
    · rintro ⟨filters, collected, same⟩
      exact collected.trans (congrArg (fun result => some (Found.filters result)) same)
    · exact fun collected => ⟨_, collected, rfl⟩
  · rw [not_or] at letter
    have spaces : ∀ c ∈ newname.text, c = space := by simpa using letter.2
    simp [epilogue, wipeTrailing_spaces letter.1 spaces, letter]

/-- A page whose name is an escaped space. -/
def spacesPage : Bytes := ascii ".SH NAME\n\\ \n.SH X\n"

/-- A page with a request for each of the filters. -/
def filtersPage : Bytes := ascii ".SH NAME\na \\- b\n.SH X\n.TS\n.EQ\n.PS\n.G1\n.[\n.vS\n"

theorem scan_spacesPage : (scan (some maxName) .manpage spacesPage 7).result = some 0 ∧
    (scan (some maxName) .manpage spacesPage 7).whatis = [space] := by
  decide +kernel

theorem scan_filtersPage : (scan (some maxName) .manpage filtersPage 15).result = some 0 ∧
    (scan (some maxName) .manpage filtersPage 15).whatis = ascii "a - b" ∧
    (scan (some maxName) .manpage filtersPage 15).filters = filterBytes fun _ => true := by
  decide +kernel

/-- From a name that consists of a space the loop over trailing spaces runs out of `newname`, and the letters of
all the filters run out of `f_tmp`. -/
theorem epilogue_outside :
    (scan (some maxName) .manpage spacesPage 7).result = some 0 ∧
      (scan (some maxName) .manpage spacesPage 7).whatis = [space] ∧
      (∀ behind, epilogue ([space] ++ 0 :: behind) (scan (some maxName) .manpage spacesPage 7).filters = none) ∧
      (scan (some maxName) .manpage filtersPage 15).result = some 0 ∧
      (scan (some maxName) .manpage filtersPage 15).whatis = ascii "a - b" ∧
      ∀ behind, epilogue (ascii "a - b" ++ 0 :: behind) (scan (some maxName) .manpage filtersPage 15).filters = none := by
  obtain ⟨returned, text, all⟩ := scan_filtersPage
  refine ⟨scan_spacesPage.1, scan_spacesPage.2, fun behind => ?_, returned, text, fun behind => ?_⟩
  · have runs : wipeTrailing ([space] ++ 0 :: behind) = none :=
      wipeTrailing_spaces (List.cons_ne_nil _ _) (by simp) behind
    rw [epilogue, runs]
    rfl
  · have overrun : ((collectFilters (filterBytes fun _ => true)).bind fun fTmp => stringAt fTmp.1 0) = none := by
      decide +kernel
    rw [all, epilogue_text (by decide) (Or.inr ⟨97, by decide, by decide⟩), overrun]
    rfl

end ManDb.Lexgrog
