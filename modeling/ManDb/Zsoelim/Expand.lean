import ManDb.Zsoelim.Lines

namespace ManDb.Zsoelim

/-- The lines of a text, of which the last may lack its newline. -/
def linesOf (text : Bytes) : List Bytes :=
  (Separated.segments newline text).1 ++ if (Separated.segments newline text).2 =
    [] then [] else [(Separated.segments newline text).2]

/-- The text ends with a newline, or is empty. -/
def endsInNewline (text : Bytes) : Bool := (Separated.segments newline text).2 == []

/-- The file name of a `.so` line, and what follows it. -/
def soName (line : Bytes) : Bytes := ((line.drop 3).dropWhile isBlank).takeWhile isFileByte

def soAfter (line : Bytes) : Bytes := ((line.drop 3).dropWhile isBlank).dropWhile isFileByte

/-- Whether the next line lies in a macro definition. -/
def nextDefinition (inDefinition : Bool) (line : Bytes) : Bool :=
  if inDefinition then !endsDefinition line else startsDefinition line

/-- The text of some lines with their `.so` requests replaced: a request outside a
definition by what is included, and every other line by itself. -/
def expandLines (included : Bytes → Option (List Bytes)) : Bool → List Bytes → Option (List Bytes)
  | _, [] => some []
  | inDefinition, line :: lines =>
    (if inDefinition = false ∧ isSoLine line = true then included (soName line) else some [line]).bind fun here =>
      (expandLines included (nextDefinition inDefinition line) lines).map (here ++ ·)

/-- The lines of a text, expanded to some depth: none if that is not enough, or if a file does not open. -/
def expand (openFile : OpenFile) : Nat → Bytes → Option (List Bytes)
  | 0, text => expandLines (fun _ => none) false (linesOf text)
  | depth + 1, text =>
    expandLines (fun file => (openFile file).bind fun opened => expand openFile depth opened.2) false (linesOf text)

/-- What the scanner makes of the next line: it looks for requests, it copies the line
because the line before took its newline, or it looks for the end of a definition. -/
inductive Mode where
  | copy
  | swallow
  | define
  deriving DecidableEq, Repr

def nextMode (mode : Mode) (line : Bytes) : Mode :=
  match mode with
  | .copy => if startsDefinition line then .define else if line ∈ loneLines then .swallow else .copy
  | .swallow => .copy
  | .define => if endsDefinition line then .copy else .define

/-- A request that is the last line of its file, where what follows the name is copied. -/
def Glued (ended : Bool) (line : Bytes) (lines : List Bytes) : Prop := ended = false ∧ lines = [] ∧ soAfter line ≠ []

instance (ended : Bool) (line : Bytes) (lines : List Bytes) : Decidable (Glued ended line lines) :=
  inferInstanceAs (Decidable (_ ∧ _))

/-- What the scanner makes of the lines of a file. There is no result if a request is
nested too deeply or its rest is glued to the next line. -/
def scanLines (included : Bytes → Option (List Bytes)) (ended : Bool) : Mode → List Bytes → Option (List Bytes)
  | mode, [] => some (if mode = .swallow ∧ ended = true then [[]] else [])
  | mode, line :: lines =>
    (if mode = .copy ∧ isSoLine line = true then (if Glued ended line lines then none else included (soName line))
      else some [line]).bind fun here => (scanLines included ended (nextMode mode line) lines).map (here ++ ·)

def scan (openFile : OpenFile) : Nat → Bytes → Option (List Bytes)
  | 0, text => scanLines (fun _ => none) (endsInNewline text) .copy (linesOf text)
  | depth + 1, text =>
    scanLines (fun file => (openFile file).bind fun opened => scan openFile depth opened.2) (endsInNewline text) .copy
      (linesOf text)

/-- At every `.so` line of a file, the scanner looks for requests just where the line
is outside a definition, and the file does not end after a line that takes the newline
of the next. -/
def CleanLines (included : Bytes → Prop) (ended : Bool) : Bool → Mode → List Bytes → Prop
  | _, mode, [] => ¬(mode = .swallow ∧ ended = true)
  | inDefinition, mode, line :: lines =>
    (isSoLine line = true →
      if inDefinition = true then mode ≠ .copy else mode = .copy ∧ ¬Glued ended line lines ∧ included (soName line)) ∧
    CleanLines included ended (nextDefinition inDefinition line) (nextMode mode line) lines

/-- The same for a file and those it includes. -/
def Clean (openFile : OpenFile) : Nat → Bytes → Prop
  | 0, text => CleanLines (fun _ => False) (endsInNewline text) false .copy (linesOf text)
  | depth + 1, text =>
    CleanLines (fun file => ∀ opened, openFile file = some opened → Clean openFile depth opened.2)
      (endsInNewline text) false
      .copy (linesOf text)

instance CleanLines.decidable (included : Bytes → Prop) [DecidablePred included] (ended : Bool) :
    ∀ inDefinition mode lines, Decidable (CleanLines included ended inDefinition mode lines)
  | _, _, [] => inferInstanceAs (Decidable (¬(_ ∧ _)))
  | inDefinition, mode, line :: lines =>
    have := CleanLines.decidable included ended (nextDefinition inDefinition line) (nextMode mode line) lines
    inferInstanceAs (Decidable ((_ → if inDefinition = true then _ else _) ∧ _))

instance Clean.decidable (openFile : OpenFile) : ∀ depth text, Decidable (Clean openFile depth text)
  | 0, text => inferInstanceAs (Decidable (CleanLines (fun _ => False) (endsInNewline text) false .copy
    (linesOf text)))
  | depth + 1, text =>
    have : DecidablePred fun file => ∀ opened, openFile file = some opened → Clean openFile depth opened.2 :=
      fun file =>
      match found : openFile file with
      | none => .isTrue (by simp [found])
      | some opened =>
        have := Clean.decidable openFile depth opened.2
        decidable_of_iff (Clean openFile depth opened.2) (by simp [found])
    inferInstanceAs (Decidable (CleanLines (fun file => ∀ opened, openFile file = some opened →
      Clean openFile depth opened.2)
      (endsInNewline text) false .copy (linesOf text)))

variable {line : Bytes} {lines : List Bytes} {ended inDefinition : Bool} {mode : Mode}

section Requests

theorem so_nextDefinition (isSo : isSoLine line = true) : nextDefinition false line = false := by
  obtain ⟨more, rfl⟩ := List.isPrefixOf_iff_prefix.mp isSo
  rfl

theorem so_nextMode (isSo : isSoLine line = true) : nextMode .copy line = .copy := by
  obtain ⟨more, rfl⟩ := List.isPrefixOf_iff_prefix.mp isSo
  have notLone : ascii ".so" ++ more ∉ loneLines := by
    simp [loneLines, ascii]
  have notDe : startsDefinition (ascii ".so" ++ more) = false := rfl
  simp [nextMode, notLone, notDe]

/-- A text that does not start with a `.so` line. -/
def NoSoHead (lines : List Bytes) : Prop := ∀ line ∈ lines.head?, isSoLine line = false

theorem NoSoHead.ne_request {line : Bytes} {lines rest : List Bytes} (noSo : NoSoHead lines)
    (isSo : isSoLine line = true) : line :: rest ≠ lines := by
  rintro rfl
  exact absurd (noSo line rfl) (by simp [isSo])

theorem NoSoHead.cons (notSo : isSoLine line = false) (lines : List Bytes) : NoSoHead (line :: lines) := by
  rintro _ ⟨⟩
  exact notSo

end Requests

section Compare

/-- What may follow a file: neither text starts with a `.so` line, and the second one
is not the first one with empty lines before it. -/
structure Continues (rest rest' : List Bytes) : Prop where
  noSo : NoSoHead rest
  noSo' : NoSoHead rest'
  shift : ∀ k, List.replicate (k + 1) [] ++ rest' ≠ rest

theorem Continues.nil : Continues [] [] := by
  refine ⟨by simp [NoSoHead], by simp [NoSoHead], fun k same => ?_⟩
  simp at same

/-- How two readings of the same file compare: whatever may follow them may still do
so, and they differ for good unless the file is clean. -/
structure Compares (expanded scanned : Option (List Bytes)) (clean : Prop) : Prop where
  head : ∀ text, expanded = some text → ∀ rest, NoSoHead rest → NoSoHead (text ++ rest)
  head' : ∀ text, scanned = some text → ∀ rest, NoSoHead rest → NoSoHead (text ++ rest)
  continues : ∀ text text', expanded = some text → scanned = some text' → ∀ rest rest', Continues rest rest' →
    Continues (text ++ rest) (text' ++ rest')
  same : clean → expanded = scanned
  differ : ¬clean → ∀ text text', expanded = some text → scanned = some text' → ∀ rest rest', Continues rest rest' →
    text ++ rest ≠ text' ++ rest'

variable {included included' : Bytes → Option (List Bytes)} {clean : Bytes → Prop} {text text' : List Bytes}

/-- The parts of an expanded text. -/
theorem expandLines_cons (expanded : expandLines included inDefinition (line :: lines) = some text) :
    ∃ here rest, text = here ++ rest ∧ expandLines included (nextDefinition inDefinition line) lines = some rest ∧
      (if inDefinition = false ∧ isSoLine line = true then included (soName line) else some [line]) = some here := by
  obtain ⟨here, isHere, more⟩ := Option.bind_eq_some_iff.mp expanded
  obtain ⟨rest, isRest, rfl⟩ := Option.map_eq_some_iff.mp more
  exact ⟨here, rest, rfl, isRest, isHere⟩

theorem scanLines_cons (scanned : scanLines included ended mode (line :: lines) = some text) :
    ∃ here rest, text = here ++ rest ∧ scanLines included ended (nextMode mode line) lines = some rest ∧
      (if mode = .copy ∧ isSoLine line = true then (if Glued ended line lines then none else included (soName line))
        else some [line]) = some here := by
  obtain ⟨here, isHere, more⟩ := Option.bind_eq_some_iff.mp scanned
  obtain ⟨rest, isRest, rfl⟩ := Option.map_eq_some_iff.mp more
  exact ⟨here, rest, rfl, isRest, isHere⟩

/-- A request that the scanner follows. -/
theorem scanned_request (isSo : isSoLine line = true)
    (isHere : (if Mode.copy = .copy ∧ isSoLine line = true then (if Glued ended line lines then none
      else included (soName line)) else some [line]) = some text) :
    ¬Glued ended line lines ∧ included (soName line) = some text := by
  rw [if_pos ⟨rfl, isSo⟩] at isHere
  split at isHere
  · cases isHere
  · exact ⟨‹_›, isHere⟩

theorem expandLines_head (heads : ∀ file text, included file = some text → ∀ rest, NoSoHead rest →
    NoSoHead (text ++ rest))
    (expanded : expandLines included false lines = some text) {rest : List Bytes} (noSo : NoSoHead rest) :
    NoSoHead (text ++ rest) := by
  induction lines generalizing text with
  | nil =>
    cases expanded
    exact noSo
  | cons line lines ih =>
    obtain ⟨here, after, rfl, isAfter, isHere⟩ := expandLines_cons expanded
    cases isSo : isSoLine line with
    | true =>
      rw [if_pos ⟨rfl, isSo⟩] at isHere
      rw [so_nextDefinition isSo] at isAfter
      rw [List.append_assoc]
      exact heads _ _ isHere _ (ih isAfter)
    | false =>
      rw [if_neg (by simp [isSo])] at isHere
      cases isHere
      exact .cons isSo _

theorem scanLines_head (heads : ∀ file text, included file = some text → ∀ rest, NoSoHead rest →
    NoSoHead (text ++ rest))
    (scanned : scanLines included ended .copy lines = some text) {rest : List Bytes} (noSo : NoSoHead rest) :
    NoSoHead (text ++ rest) := by
  induction lines generalizing text with
  | nil =>
    cases scanned
    exact noSo
  | cons line lines ih =>
    obtain ⟨here, after, rfl, isAfter, isHere⟩ := scanLines_cons scanned
    cases isSo : isSoLine line with
    | true =>
      obtain ⟨_, isHere⟩ := scanned_request isSo isHere
      rw [so_nextMode isSo] at isAfter
      rw [List.append_assoc]
      exact heads _ _ isHere _ (ih isAfter)
    | false =>
      rw [if_neg (by simp [isSo])] at isHere
      cases isHere
      exact .cons isSo _

/-- An empty line more stays one more. -/
theorem replicate_shift (k : Nat) (lines : List Bytes) :
    List.replicate (k + 1) [] ++ [] :: lines = [] :: (List.replicate (k + 1) ([] : Bytes) ++ lines) := by
  rw [List.append_cons, ← List.replicate_succ', List.replicate_succ, List.cons_append]

theorem lines_continue (includes : ∀ file, Compares (included file) (included' file) (clean file))
    (expanded : expandLines included false lines = some text)
    (scanned : scanLines included' ended .copy lines = some text')
    {rest rest' : List Bytes} (continues : Continues rest rest') : Continues (text ++ rest) (text' ++ rest') := by
  refine ⟨expandLines_head (fun file => (includes file).head) expanded continues.noSo,
    scanLines_head (fun file => (includes file).head') scanned continues.noSo', ?_⟩
  induction lines generalizing text text' with
  | nil =>
    cases expanded
    cases scanned
    exact continues.shift
  | cons line lines ih =>
    obtain ⟨here, after, rfl, isAfter, isHere⟩ := expandLines_cons expanded
    obtain ⟨here', after', rfl, isAfter', isHere'⟩ := scanLines_cons scanned
    cases isSo : isSoLine line with
    | true =>
      rw [if_pos ⟨rfl, isSo⟩] at isHere
      obtain ⟨_, isHere'⟩ := scanned_request isSo isHere'
      rw [so_nextDefinition isSo] at isAfter
      rw [so_nextMode isSo] at isAfter'
      have later : Continues (after ++ rest) (after' ++ rest') :=
        ⟨expandLines_head (fun file => (includes file).head) isAfter continues.noSo,
          scanLines_head (fun file => (includes file).head') isAfter' continues.noSo', ih isAfter isAfter'⟩
      rw [List.append_assoc, List.append_assoc]
      exact ((includes _).continues _ _ isHere isHere' _ _ later).shift
    | false =>
      rw [if_neg (by simp [isSo])] at isHere isHere'
      cases isHere
      cases isHere'
      intro k same
      have empty : line = [] := by
        rw [List.replicate_succ] at same
        exact (List.cons.inj same).1.symm
      subst empty
      change List.replicate (k + 1) [] ++ [] :: (after' ++ rest') = [] :: (after ++ rest) at same
      rw [replicate_shift] at same
      exact ih isAfter isAfter' k (List.cons.inj same).2

theorem lines_same (includes : ∀ file, clean file → included file = included' file)
    (isClean : CleanLines clean ended inDefinition mode lines) :
    expandLines included inDefinition lines = scanLines included' ended mode lines := by
  induction lines generalizing inDefinition mode with
  | nil => rw [expandLines, scanLines, if_neg isClean]
  | cons line lines ih =>
    obtain ⟨request, later⟩ := isClean
    rw [expandLines, scanLines, ih later]
    congr 1
    cases isSo : isSoLine line with
    | false => simp
    | true =>
      have agrees := request isSo
      cases inDefinition with
      | true =>
        rw [if_pos rfl] at agrees
        simp [agrees]
      | false =>
        obtain ⟨rfl, notGlued, isClean⟩ := agrees
        simp [notGlued, includes _ isClean]

/-- The first line at which the two readings part tells them apart. -/
theorem lines_differ (includes : ∀ file, Compares (included file) (included' file) (clean file))
    (notClean : ¬CleanLines clean ended inDefinition mode lines)
    (expanded : expandLines included inDefinition lines = some text)
    (scanned : scanLines included' ended mode lines = some text')
    {rest rest' : List Bytes} (continues : Continues rest rest') : text ++ rest ≠ text' ++ rest' := by
  induction lines generalizing text text' inDefinition mode with
  | nil =>
    have atEnd : mode = .swallow ∧ ended = true := not_not.mp notClean
    rw [scanLines, if_pos atEnd] at scanned
    cases expanded
    cases scanned
    exact fun same => continues.shift 0 same.symm
  | cons line lines ih =>
    obtain ⟨here, after, rfl, isAfter, isHere⟩ := expandLines_cons expanded
    obtain ⟨here', after', rfl, isAfter', isHere'⟩ := scanLines_cons scanned
    rw [CleanLines, not_and_or] at notClean
    have copied : here = here' → (isSoLine line = true → if inDefinition = true then mode ≠ .copy
        else mode = .copy ∧ ¬Glued ended line lines ∧ clean (soName line)) →
          here ++ after ++ rest ≠ here' ++ after' ++ rest' := by
      rintro rfl agrees same
      have later := notClean.resolve_left (not_not.mpr agrees)
      rw [List.append_assoc, List.append_assoc] at same
      exact ih later isAfter isAfter' (List.append_cancel_left same)
    cases isSo : isSoLine line with
    | false =>
      rw [if_neg (by simp [isSo])] at isHere isHere'
      cases isHere
      cases isHere'
      exact copied rfl (by simp [isSo])
    | true =>
      cases inDefinition with
      | true =>
        rw [if_neg (by simp)] at isHere
        cases isHere
        by_cases looks : mode = .copy
        · -- the scanner follows a request of a definition
          subst looks
          obtain ⟨_, isHere'⟩ := scanned_request isSo isHere'
          rw [so_nextMode isSo] at isAfter'
          have noSo := (includes _).head' _ isHere' _
            (scanLines_head (fun file => (includes file).head') isAfter' continues.noSo')
          rw [List.append_assoc, List.append_assoc]
          exact noSo.ne_request isSo
        · rw [if_neg (by simp [looks])] at isHere'
          cases isHere'
          exact copied rfl (by simp [looks])
      | false =>
        rw [if_pos ⟨rfl, isSo⟩] at isHere
        rw [so_nextDefinition isSo] at isAfter
        by_cases looks : mode = .copy
        · subst looks
          obtain ⟨notGlued, isHere'⟩ := scanned_request isSo isHere'
          by_cases isClean : clean (soName line)
          · have same : here = here' := by
              rw [(includes _).same isClean, isHere'] at isHere
              exact (Option.some.inj isHere).symm
            exact copied same (by simp [notGlued, isClean])
          · rw [so_nextMode isSo] at isAfter'
            rw [List.append_assoc, List.append_assoc]
            exact (includes _).differ isClean _ _ isHere isHere' _ _
              (lines_continue includes isAfter isAfter' continues)
        · -- a request outside a definition that the scanner copies
          rw [if_neg (by simp [looks])] at isHere'
          cases isHere'
          have noSo := (includes _).head _ isHere _
            (expandLines_head (fun file => (includes file).head) isAfter continues.noSo)
          rw [List.append_assoc, List.append_assoc]
          exact (noSo.ne_request isSo).symm

theorem lines_compare (includes : ∀ file, Compares (included file) (included' file) (clean file)) (ended : Bool)
    (lines : List Bytes) :
    Compares (expandLines included false lines) (scanLines included' ended .copy lines)
      (CleanLines clean ended false .copy lines) where
  head _ expanded _ noSo := expandLines_head (fun file => (includes file).head) expanded noSo
  head' _ scanned _ noSo := scanLines_head (fun file => (includes file).head') scanned noSo
  continues _ _ expanded scanned _ _ continues := lines_continue includes expanded scanned continues
  same isClean := lines_same (fun file => (includes file).same) isClean
  differ notClean _ _ expanded scanned _ _ continues := lines_differ includes notClean expanded scanned continues

theorem compares_none {clean : Prop} : Compares none none clean where
  head _ expanded := by cases expanded
  head' _ scanned := by cases scanned
  continues _ _ expanded := by cases expanded
  same _ := rfl
  differ _ _ _ expanded := by cases expanded

theorem file_compares (openFile : OpenFile) (depth : Nat) (text : Bytes) :
    Compares (expand openFile depth text) (scan openFile depth text) (Clean openFile depth text) := by
  induction depth generalizing text with
  | zero => exact lines_compare (fun _ => compares_none) _ _
  | succ depth ih =>
    refine lines_compare (fun file => ?_) _ _
    cases opens : openFile file with
    | none => exact compares_none
    | some opened =>
      have every : (∀ other, some opened = some other → Clean openFile depth other.2) ↔
        Clean openFile depth opened.2 :=
        ⟨fun all => all opened rfl, fun isClean _ same => Option.some.inj same ▸ isClean⟩
      rw [every]
      exact ih opened.2

/-- The scanner gives the expanded text just on clean files. -/
theorem scan_eq_iff {openFile : OpenFile} {depth : Nat} {file : Bytes}
    (expanded : expand openFile depth file = some lines) :
    scan openFile depth file = some lines ↔ Clean openFile depth file := by
  have compares := file_compares openFile depth file
  constructor
  · intro scanned
    by_contra notClean
    exact compares.differ notClean _ _ expanded scanned _ _ .nil rfl
  · intro isClean
    rw [← compares.same isClean, expanded]

end Compare

section Clean

variable {included : Bytes → Option (List Bytes)} {text : List Bytes} {openFile : OpenFile} {depth : Nat}

theorem linesOf_clean (text : Bytes) : ∀ line ∈ linesOf text, newline ∉ line := by
  obtain ⟨clean, cleanLast⟩ := Separated.segments_clean newline text
  intro line member
  rcases List.mem_append.mp member with inLines | isLast
  · exact clean line inLines
  · split at isLast
    · cases isLast
    · rw [List.mem_singleton.mp isLast]
      exact cleanLast

theorem expandLines_clean (cleanIncluded : ∀ file text, included file = some text → ∀ line ∈ text, newline ∉ line)
    (isLines : ∀ line ∈ lines, newline ∉ line) (expanded : expandLines included inDefinition lines = some text) :
    ∀ line ∈ text, newline ∉ line := by
  induction lines generalizing text inDefinition with
  | nil =>
    cases expanded
    simp
  | cons line lines ih =>
    obtain ⟨here, rest, rfl, isRest, isHere⟩ := expandLines_cons expanded
    intro other member
    rcases List.mem_append.mp member with inHere | inRest
    · split at isHere
      · exact cleanIncluded _ _ isHere other inHere
      · cases isHere
        rw [List.mem_singleton.mp inHere]
        exact isLines line (List.mem_cons_self ..)
    · exact ih (fun line member => isLines line (List.mem_cons_of_mem _ member)) isRest other inRest

theorem scanLines_clean (cleanIncluded : ∀ file text, included file = some text → ∀ line ∈ text, newline ∉ line)
    (isLines : ∀ line ∈ lines, newline ∉ line) (scanned : scanLines included ended mode lines = some text) :
    ∀ line ∈ text, newline ∉ line := by
  induction lines generalizing text mode with
  | nil =>
    cases scanned
    split <;> simp
  | cons line lines ih =>
    obtain ⟨here, rest, rfl, isRest, isHere⟩ := scanLines_cons scanned
    intro other member
    rcases List.mem_append.mp member with inHere | inRest
    · split at isHere
      · split at isHere
        · cases isHere
        · exact cleanIncluded _ _ isHere other inHere
      · cases isHere
        rw [List.mem_singleton.mp inHere]
        exact isLines line (List.mem_cons_self ..)
    · exact ih (fun line member => isLines line (List.mem_cons_of_mem _ member)) isRest other inRest

theorem expand_clean {file : Bytes} (expanded : expand openFile depth file = some text) :
    ∀ line ∈ text, newline ∉ line := by
  induction depth generalizing file text with
  | zero => exact expandLines_clean (fun _ _ none => by cases none) (linesOf_clean file) expanded
  | succ depth ih =>
    refine expandLines_clean (fun name lines opened => ?_) (linesOf_clean file) expanded
    obtain ⟨content, _, isText⟩ := Option.bind_eq_some_iff.mp opened
    exact ih isText

theorem scan_clean {file : Bytes} (scanned : scan openFile depth file = some text) :
    ∀ line ∈ text, newline ∉ line := by
  induction depth generalizing file text with
  | zero => exact scanLines_clean (fun _ _ none => by cases none) (linesOf_clean file) scanned
  | succ depth ih =>
    refine scanLines_clean (fun name lines opened => ?_) (linesOf_clean file) scanned
    obtain ⟨content, _, isText⟩ := Option.bind_eq_some_iff.mp opened
    exact ih isText

end Clean

end ManDb.Zsoelim
