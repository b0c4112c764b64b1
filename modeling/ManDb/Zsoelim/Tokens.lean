import ManDb.Zsoelim.Zsoelim

namespace ManDb.Zsoelim

open Lexer

variable {line next tail rest blanks file : Bytes} {b c : UInt8} {atBol : Bool}

theorem isAny_of_line (isLine : newline ∉ line) : ∀ b ∈ line, isAny b = true := by
  intro b member
  simp only [isAny, bne_iff_ne, ne_eq]
  rintro rfl
  exact isLine member

theorem longest_line (isLine : newline ∉ line) (ends : Stops isAny tail) :
    longest [.star isAny] (line ++ tail) = some line.length := longest_star (isAny_of_line isLine) ends

theorem stops_newline (rest : Bytes) : Stops isAny (newline :: rest) := by
  intro b head
  cases head
  rfl

theorem stops_nil {cls : UInt8 → Bool} : Stops cls [] := by
  intro b head
  cases head

theorem isBlank_any : ∀ {b : UInt8}, isBlank b = true → isAny b = true := @(forall_byte (by decide))

theorem isBlank_not_newline : ∀ {b : UInt8}, isBlank b = true → isByte newline b = false :=
  @(forall_byte (by decide))

theorem isFileByte_not_quote : ∀ {b : UInt8}, isFileByte b = true → isQuote b = false :=
  @(forall_byte (by decide))

/-- The rule behind a token. -/
theorem token_rule {condition : Condition} {buffer : Buffer} {action : Action} {n : Nat}
    (taken : token condition buffer = (action, n)) :
    (action = .default ∧ n = 1) ∨ ∃ rule ∈ rules, rule.Applies condition buffer.atBol ∧ rule.action = action ∧
      longest rule.pattern buffer.rest = some n := by
  unfold token at taken
  cases selected : select condition buffer.atBol buffer.rest rules with
  | none =>
    rw [selected] at taken
    obtain ⟨rfl, rfl⟩ := Prod.mk.inj taken
    exact Or.inl ⟨rfl, rfl⟩
  | some best =>
    rw [selected] at taken
    obtain rfl := taken
    exact Or.inr (select_mem selected)

theorem token_within {condition : Condition} {buffer : Buffer} (nonempty : buffer.rest ≠ []) :
    (token condition buffer).2 ≤ buffer.rest.length := by
  cases taken : token condition buffer with
  | mk action n =>
  rcases token_rule taken with ⟨_, rfl⟩ | ⟨rule, _, _, _, found⟩
  · exact List.length_pos_of_ne_nil nonempty
  · exact (longest_sound rule.pattern buffer.rest n found).1

/-- A token is as long as the match of any rule that applies. -/
theorem token_max {condition : Condition} {buffer : Buffer} {n : Nat} (rule : Rule UInt8 Condition Action)
    (member : rule ∈ rules) (applies : rule.Applies condition buffer.atBol)
    (found : longest rule.pattern buffer.rest = some n) : n ≤ (token condition buffer).2 := by
  obtain ⟨action, m, selected, le⟩ := select_max member applies found
  rw [token, selected]
  exact le

theorem rule_nonempty {rule : Rule UInt8 Condition Action} (member : rule ∈ rules) :
    (∃ cls, .one cls ∈ rule.pattern) ∨ rule.conditions = [.de] ∧ rule.pattern = [.star isAny] := by
  revert rule
  simp [rules, dotted, quoted, ascii]

/-- Every token takes something: where the rule for text in a definition takes
nothing, that for the newline takes more. -/
theorem token_positive {condition : Condition} {buffer : Buffer} (nonempty : buffer.rest ≠ []) :
    0 < (token condition buffer).2 := by
  cases taken : token condition buffer with
  | mk action n =>
  rcases token_rule taken with ⟨_, rfl⟩ | ⟨rule, member, applies, _, found⟩
  · exact Nat.one_pos
  · refine Nat.pos_of_ne_zero fun zero => ?_
    change n = 0 at zero
    subst zero
    rcases rule_nonempty member with ⟨cls, one⟩ | ⟨inDe, pattern⟩
    · obtain ⟨a, member, _⟩ := (longest_matches found).has_one one
      cases member
    · obtain ⟨inCondition, _⟩ := applies
      rw [inDe, List.mem_singleton] at inCondition
      subst inCondition
      obtain ⟨rest, bol⟩ := buffer
      obtain ⟨c, rest, rfl⟩ := List.exists_cons_of_ne_nil nonempty
      cases any : isAny c with
      | true =>
        have inLine : ∀ e ∈ (c :: rest).takeWhile isAny, isAny e = true := fun e => List.mem_takeWhile_imp
        have long := longest_star inLine (stops_dropWhile isAny (c :: rest))
        rw [List.takeWhile_append_dropWhile, ← pattern, found] at long
        simp [any] at long
      | false =>
        have same : c = newline := by simpa [isAny] using any
        have one : 1 ≤ (token .de ⟨c :: rest, bol⟩).2 :=
          token_max ⟨[.de], false, [.one (isByte newline)], .newline⟩ (by simp [rules]) ⟨by simp, by simp⟩
            (by simp [longest, isByte, same])
        rw [taken] at one
        exact absurd one (Nat.not_succ_le_zero 0)

/-- The rest of a request ends with a newline. -/
theorem endRequest_newline {condition : Condition} {buffer : Buffer} {n : Nat}
    (taken : token condition buffer = (.endRequest, n)) : newline ∈ buffer.rest.take n := by
  rcases token_rule taken with ⟨default, _⟩ | ⟨rule, member, _, action, found⟩
  · cases default
  · have pattern : .one (isByte newline) ∈ rule.pattern := by
      revert rule
      simp [rules]
    obtain ⟨b, inText, same⟩ := (longest_matches found).has_one pattern
    rwa [beq_iff_eq.mp same] at inText

section LineStart

/-- A line of text. -/
theorem token_text (plain : b ≠ period) (isLine : newline ∉ b :: line) (ends : Stops isAny tail) :
    token .initial ⟨b :: line ++ tail, true⟩ = (.echo, (b :: line).length) := by
  have notNewline : b ≠ newline := fun same => isLine (by simp [same])
  have whole := longest_line (fun member => isLine (List.mem_cons_of_mem _ member)) ends
  simp only [longest] at whole
  simp [token, rules, select, Rule.Applies, longest, dotted, quoted, isByte, plain, notNewline, whole, isAny]

/-- A request that does not start as those that are looked for do. -/
theorem token_request (notS : b ≠ 115) (notL : b ≠ 108) (isLine : newline ∉ b :: line) (ends : Stops isAny tail)
    (notDe : ∀ c rest, b :: line ≠ ascii "de" ++ c :: rest) :
    token .initial ⟨period :: b :: line ++ tail, true⟩ = (.echo, (period :: b :: line).length) := by
  have inLine : newline ∉ line := fun member => isLine (List.mem_cons_of_mem _ member)
  have whole := longest_line inLine ends
  simp only [longest] at whole
  by_cases isD : b = 100
  · subst isD
    have noDe : longest (dotted "de" ++ [.star isBlank, .one isAny, .star isAny])
      (period :: 100 :: (line ++ tail)) = none := by
      cases line with
      | nil =>
        cases tail with
        | nil => rfl
        | cons e tail =>
          have atEnd : e = newline := by simpa [isAny] using ends e rfl
          subst atEnd
          rfl
      | cons e line =>
        by_cases isE : e = 101
        · subst isE
          have empty : line = [] := by
            cases line with
            | nil => rfl
            | cons c line => exact absurd rfl (notDe c line)
          subst empty
          have long := longest_star_some (fun _ => isBlank_any) (isAny_of_line (List.not_mem_nil)) ends
          change (((longest [.star isBlank, .one isAny, .star isAny] ([] ++ tail)).map (· + 1)).map (· + 1)).map
            (· + 1) = none
          rw [long]
          rfl
        · simp [dotted, longest, isByte, isE, ascii]
    simp [token, rules, select, Rule.Applies, noDe]
    simp [longest, dotted, isByte, whole, isAny, ascii, period, newline]
  · simp [token, rules, select, Rule.Applies, longest, dotted, quoted, isByte, notS, notL, isD, whole, isAny,
      ascii, period,
      newline]

theorem token_de (isLine : newline ∉ c :: line) (ends : Stops isAny tail) :
    token .initial ⟨ascii ".de" ++ c :: line ++ tail, true⟩ = (.de, (ascii ".de" ++ c :: line).length) := by
  have long := longest_star_some (fun _ => isBlank_any) (isAny_of_line isLine) ends
  have withE : newline ∉ 101 :: c :: line := fun member => by
    rcases List.mem_cons.mp member with same | later
    · exact absurd same (by decide)
    · exact isLine later
  have whole := longest_line withE ends
  rw [if_neg (List.cons_ne_nil c line)] at long
  simp only [longest, List.cons_append] at whole long
  simp [token, rules, select, Rule.Applies, longest, dotted, quoted, isByte, whole, long, isAny, ascii, period,
    newline]

/-- A line that starts as a request that is looked for, and goes on with another
letter. -/
theorem token_other_s (other : b ≠ 111) (isLine : newline ∉ b :: line) (ends : Stops isAny tail) :
    token .initial ⟨ascii ".s" ++ b :: line ++ tail, true⟩ = (.echo, (ascii ".s" ++ b :: line).length) := by
  have whole := longest_line (fun member => isLine (List.mem_cons_of_mem _ member)) ends
  have long : ¬line.length + 1 + 1 + 1 < 2 := by omega
  simp only [longest] at whole
  simp [token, rules, select, Rule.Applies, longest, dotted, quoted, isByte, other, whole, isAny, ascii,
    period, newline, long]

theorem token_other_l (other : b ≠ 102) (isLine : newline ∉ b :: line) (ends : Stops isAny tail) :
    token .initial ⟨ascii ".l" ++ b :: line ++ tail, true⟩ = (.echo, (ascii ".l" ++ b :: line).length) := by
  have whole := longest_line (fun member => isLine (List.mem_cons_of_mem _ member)) ends
  have long : ¬line.length + 1 + 1 + 1 < 2 := by omega
  simp only [longest] at whole
  simp [token, rules, select, Rule.Applies, longest, dotted, quoted, isByte, other, whole, isAny, ascii,
    period, newline, long]

theorem token_so (isBlanks : ∀ b ∈ blanks, isBlank b = true) (ends : Stops isBlank tail) :
    token .initial ⟨ascii ".so" ++ blanks ++ tail, true⟩ = (.so, (ascii ".so" ++ blanks).length) := by
  have whole := longest_star isBlanks ends
  have long : ¬blanks.length + 1 + 1 + 1 < 2 := by omega
  simp only [longest] at whole
  simp [token, rules, select, Rule.Applies, longest, dotted, quoted, isByte, whole, isAny, ascii, period,
    newline, long]

/-- The lines after which the negated class of a rule takes the newline. -/
def loneLines : List Bytes := [ascii ".", ascii ".s", ascii ".l"]

theorem token_lone (lone : line ∈ loneLines) (isLine : newline ∉ next) (ends : Stops isAny tail) :
    token .initial ⟨line ++ newline :: (next ++ tail), true⟩ = (.echo, line.length + 1 + next.length) := by
  have whole := longest_line isLine ends
  have long : ¬next.length + 1 + 1 + 1 < 2 := by omega
  simp only [longest] at whole
  simp only [loneLines, List.mem_cons, List.not_mem_nil, or_false] at lone
  rcases lone with rfl | rfl | rfl
  · simp [token, rules, select, Rule.Applies, longest, dotted, quoted, isByte, whole, isAny, ascii, period,
      newline]
    omega
  · simp [token, rules, select, Rule.Applies, longest, dotted, quoted, isByte, whole, isAny, ascii, period,
      newline, long]
    omega
  · simp [token, rules, select, Rule.Applies, longest, dotted, quoted, isByte, whole, isAny, ascii, period,
      newline, long]
    omega

/-- At the end of a file there is no newline to be taken. -/
theorem token_lone_end (lone : line ∈ loneLines) : token .initial ⟨line, true⟩ = (.echo, line.length) := by
  simp only [loneLines, List.mem_cons, List.not_mem_nil, or_false] at lone
  rcases lone with rfl | rfl | rfl <;> decide

end LineStart

theorem token_newline : token .initial ⟨newline :: rest, atBol⟩ = (.newline, 1) := by
  cases atBol <;>
    simp [token, rules, select, Rule.Applies, longest, dotted, quoted, isByte, isAny, period, newline]

theorem token_de_newline : token .de ⟨newline :: rest, atBol⟩ = (.newline, 1) := by
  cases atBol <;>
    simp [token, rules, select, Rule.Applies, longest, starLongest, dotted, quoted, isByte, isAny, period,
      newline]

theorem token_de_end (isLine : newline ∉ line) (ends : Stops isAny tail) :
    token .de ⟨ascii ".." ++ line ++ tail, true⟩ = (.deEnd, (ascii ".." ++ line).length) := by
  have withDots : newline ∉ (46 : UInt8) :: 46 :: line := fun member => by
    rcases List.mem_cons.mp member with same | later
    · exact absurd same (by decide)
    · rcases List.mem_cons.mp later with same | later
      · exact absurd same (by decide)
      · exact isLine later
  have whole := longest_line isLine ends
  have long := longest_line withDots ends
  simp only [longest, List.cons_append] at whole long
  simp [token, rules, select, Rule.Applies, longest, dotted, quoted, isByte, whole, long, ascii, period, newline]

theorem token_de_text (nonempty : line ≠ []) (isLine : newline ∉ line) (ends : Stops isAny tail)
    (notEnd : atBol = true → ∀ rest, line ≠ ascii ".." ++ rest) :
    token .de ⟨line ++ tail, atBol⟩ = (.echo, line.length) := by
  have whole := longest_line isLine ends
  obtain ⟨b, line, rfl⟩ := List.exists_cons_of_ne_nil nonempty
  have other : b ≠ newline := fun same => isLine (by simp [same])
  have noNewline : longest [.one (isByte newline)] (b :: line ++ tail) = none := by simp [longest, isByte, other]
  have noEnd : atBol = true → longest (dotted "." ++ [.star isAny]) (b :: line ++ tail) = none := by
    intro bol
    by_cases dot : b = 46
    · subst dot
      cases line with
      | nil =>
        cases tail with
        | nil => rfl
        | cons c tail =>
          have atEnd : c = newline := by simpa [isAny] using ends c rfl
          subst atEnd
          rfl
      | cons c line =>
        have second : c ≠ 46 := by
          rintro rfl
          exact notEnd bol line rfl
        simp [dotted, longest, isByte, ascii, second]
    · simp [dotted, longest, isByte, ascii, period, dot]
  generalize b :: line ++ tail = text at whole noNewline noEnd ⊢
  cases atBol with
  | false => simp [token, rules, select, Rule.Applies, whole, noNewline]
  | true => simp [token, rules, select, Rule.Applies, whole, noNewline, noEnd rfl]

theorem isQuote_not_newline {b : UInt8} (quote : isQuote b = true) : b ≠ newline := by
  rintro rfl
  exact absurd quote (by decide)

theorem longest_fileName (isName : Lexer.Matches (quoted isFileByte) file) (stops : Stops isFileByte tail)
    (unquoted : Stops isQuote tail) : longest (quoted isFileByte) (file ++ tail) = some file.length := by
  obtain ⟨opening, word, closing, rfl, opens, nonempty, all, closes⟩ := matches_quoted isName
  exact longest_quoted (fun _ => isFileByte_not_quote) opens nonempty all closes fun _ => ⟨stops, unquoted⟩

/-- A file name does not start with a newline. -/
theorem fileName_head (isName : Lexer.Matches (quoted isFileByte) file) : ∃ b rest, file = b :: rest ∧
    b ≠ newline := by
  obtain ⟨opening, word, closing, rfl, opens, nonempty, all, _⟩ := matches_quoted isName
  rcases opens with rfl | ⟨b, quote, rfl⟩
  · obtain ⟨b, word, rfl⟩ := List.exists_cons_of_ne_nil nonempty
    refine ⟨b, word ++ closing, rfl, ?_⟩
    rintro rfl
    exact absurd (all newline (List.mem_cons_self ..)) (by decide)
  · exact ⟨b, word ++ closing, rfl, isQuote_not_newline quote⟩

theorem fileName_stops (isName : Lexer.Matches (quoted isFileByte) file) : Stops isBlank (file ++ tail) := by
  obtain ⟨opening, word, closing, rfl, opens, nonempty, all, _⟩ := matches_quoted isName
  have apart : ∀ b, isFileByte b = true ∨ isQuote b = true → isBlank b = false := forall_byte (by decide)
  intro b head
  rcases opens with rfl | ⟨c, quote, rfl⟩
  · obtain ⟨c, word, rfl⟩ := List.exists_cons_of_ne_nil nonempty
    cases head
    exact apart b (Or.inl (all b (List.mem_cons_self ..)))
  · cases head
    exact apart b (Or.inr quote)

theorem fileName_line (isName : Lexer.Matches (quoted isFileByte) file) : newline ∉ file := by
  intro member
  obtain ⟨atom, inPattern, accepts⟩ := isName.accepted member
  simp only [quoted, List.mem_cons, List.not_mem_nil, or_false] at inPattern
  rcases inPattern with rfl | rfl | rfl | rfl <;> exact absurd accepts (by decide)

/-- The end of a request: neither a name nor a quote goes on. -/
theorem blanks_stop {cls : UInt8 → Bool} {after : Bytes} (isBlanks : ∀ b ∈ after, isBlank b = true)
    (apart : ∀ b, isBlank b = true ∨ b = newline → cls b = false) : Stops cls (after ++ newline :: rest) := by
  intro b head
  cases after with
  | nil =>
    cases head
    exact apart newline (Or.inr rfl)
  | cons c after =>
    cases head
    exact apart b (Or.inl (isBlanks b (List.mem_cons_self ..)))

theorem isFileByte_apart : ∀ b, isBlank b = true ∨ b = newline → isFileByte b = false := forall_byte (by decide)

theorem isQuote_apart : ∀ b, isBlank b = true ∨ b = newline → isQuote b = false := forall_byte (by decide)

theorem token_soFile (isName : Lexer.Matches (quoted isFileByte) file) (stops : Stops isFileByte tail)
    (unquoted : Stops isQuote tail) : token .so ⟨file ++ tail, atBol⟩ = (.soFile, file.length) := by
  have whole := longest_fileName isName stops unquoted
  have noNewline : longest [.one (isByte newline)] (file ++ tail) = none := by
    obtain ⟨b, rest, rfl, other⟩ := fileName_head isName
    simp [longest, isByte, other]
  cases atBol <;> simp [token, rules, select, Rule.Applies, whole, noNewline]

theorem token_endRequest (isBlanks : ∀ b ∈ blanks, isBlank b = true) :
    token .endRequest ⟨blanks ++ newline :: rest, atBol⟩ = (.endRequest, blanks.length + 1) := by
  have whole := @longest_star_one _ isBlank newline (isByte newline) blanks rest
    (fun _ => isBlank_not_newline) isBlanks rfl
  simp only [longest] at whole
  cases atBol <;> simp [token, rules, select, Rule.Applies, longest, whole]

end ManDb.Zsoelim
