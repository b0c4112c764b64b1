import ManDb.Globbing

namespace ManDb

def doubleQuote : UInt8 := 34
def hash : UInt8 := 35
def percent : UInt8 := 37
def singleQuote : UInt8 := 39
def backquote : UInt8 := 96

/-- The bytes before which a backslash in double quotes is left out. -/
def quotedSpecial (b : UInt8) : Bool := b == dollar || b == backquote || b == doubleQuote || b == backslash

/-- The bytes that end a word. -/
def endsWord (b : UInt8) : Bool := b == tab || b == space || b == newline || b == hash

/-- The loop for single quotes: the text, and the place where it stops. Positions in the
string are what follows them up to the terminator. -/
def singleQuotes : Bytes → Bytes × Bytes
  | [] => ([], [])
  | b :: rest =>
    if b = singleQuote then ([], b :: rest)
    else (b :: (singleQuotes rest).1, (singleQuotes rest).2)

/-- The loop for double quotes. -/
def doubleQuotes : Bytes → Bytes × Bytes
  | [] => ([], [])
  | b :: rest =>
    if b = doubleQuote then ([], b :: rest)
    else if b = backslash then
      match rest with
      -- the terminator is none of the bytes that are asked for
      | [] => ([b], [])
      | c :: rest =>
        if quotedSpecial c then (c :: (doubleQuotes rest).1, (doubleQuotes rest).2)
        else if c = newline then doubleQuotes rest
        else (b :: (doubleQuotes (c :: rest)).1, (doubleQuotes (c :: rest)).2)
    else (b :: (doubleQuotes rest).1, (doubleQuotes rest).2)

theorem singleQuotes_shorter (cmd : Bytes) : (singleQuotes cmd).2.length ≤ cmd.length := by
  induction cmd with
  | nil => exact Nat.le_refl _
  | cons b rest ih =>
    unfold singleQuotes
    split
    · exact Nat.le_refl _
    · exact Nat.le_succ_of_le ih

theorem doubleQuotes_shorter (cmd : Bytes) : (doubleQuotes cmd).2.length ≤ cmd.length := by
  fun_induction doubleQuotes cmd <;> simp_all <;> omega

/-- What a turn of the loop comes to: the word ends, or the next turn would read behind
the terminator, or there is some text of the word and the place of the next turn. -/
inductive WordTurn
  | done | beyond | next (text rest : Bytes)

/-- The end of a turn behind a quoted text: the index is advanced by one, also where it is
at the terminator. -/
def quotedTurn : Bytes × Bytes → WordTurn
  | (_, []) => .beyond
  | (text, _ :: rest) => .next text rest

/-- One turn of the loop of `sh_lang_first_word`. -/
def wordTurn : Bytes → WordTurn
  | [] => .done
  | b :: rest =>
    if b = backslash then
      match rest with
      | [] => .done
      | c :: rest => .next (if c = newline then [] else [c]) rest
    else if b = singleQuote then quotedTurn (singleQuotes rest)
    else if b = doubleQuote then quotedTurn (doubleQuotes rest)
    else if endsWord b then .done
    else .next [b] rest

theorem quotedTurn_shorter {quoted : Bytes × Bytes} {text rest : Bytes} (next : quotedTurn quoted = .next text rest) :
    rest.length < quoted.2.length := by
  obtain ⟨_, _ | ⟨b, rest⟩⟩ := quoted
  · cases next
  · cases next
    exact Nat.lt_succ_self _

theorem wordTurn_shorter {cmd text rest : Bytes} (next : wordTurn cmd = .next text rest) :
    rest.length < cmd.length := by
  cases cmd with
  | nil => cases next
  | cons b cmd =>
    have single := singleQuotes_shorter cmd
    have double := doubleQuotes_shorter cmd
    rw [List.length_cons]
    simp only [wordTurn] at next
    split at next
    · split at next
      · cases next
      · cases next
        simp only [List.length_cons]
        omega
    split at next
    · have shorter := quotedTurn_shorter next
      omega
    split at next
    · have shorter := quotedTurn_shorter next
      omega
    split at next
    · cases next
    · cases next
      exact Nat.lt_succ_self _

/-- `sh_lang_first_word`; `none` where it reads behind the terminator. -/
def shLangFirstWord (cmd : Bytes) : Option Bytes :=
  match _turn : wordTurn cmd with
  | .done => some []
  | .beyond => none
  | .next text rest => (shLangFirstWord rest).map (text ++ ·)
termination_by cmd.length
decreasing_by exact wordTurn_shorter _turn

namespace Shell

/-- A text in double quotes and what it stands for. -/
inductive Quoted : Bytes → Bytes → Prop
  | nil : Quoted [] []
  | plain {b source text} : b ≠ doubleQuote → b ≠ backslash → Quoted source text → Quoted (b :: source) (b :: text)
  | escaped {b source text} : quotedSpecial b = true → Quoted source text →
      Quoted (backslash :: b :: source) (b :: text)
  | continued {source text} : Quoted source text → Quoted (backslash :: newline :: source) text
  | kept {b source text} : quotedSpecial b = false → b ≠ newline → Quoted (b :: source) text →
      Quoted (backslash :: b :: source) (backslash :: text)

/-- A segment of a word and what it stands for. -/
inductive Segment : Bytes → Bytes → Prop
  | plain {b} : b ≠ backslash → b ≠ singleQuote → b ≠ doubleQuote → endsWord b = false → Segment [b] [b]
  | escaped {b} : b ≠ newline → Segment [backslash, b] [b]
  | continued : Segment [backslash, newline] []
  | single {text} : singleQuote ∉ text → Segment (singleQuote :: text ++ [singleQuote]) text
  | double {source text} : Quoted source text → Segment (doubleQuote :: source ++ [doubleQuote]) text

/-- A quote that is not closed, and what the text behind it stands for. -/
inductive Open : Bytes → Bytes → Prop
  | single {text} : singleQuote ∉ text → Open (singleQuote :: text) text
  | double {source text} : Quoted source text → Open (doubleQuote :: source) text
  | backslash {source text} : Quoted source text → Open (doubleQuote :: source ++ [backslash]) (text ++ [backslash])

/-- The first word of a command. -/
inductive FirstWord : Bytes → Bytes → Prop
  | nil : FirstWord [] []
  | ends {b rest} : endsWord b = true → FirstWord (b :: rest) []
  | backslash : FirstWord [backslash] []
  | unclosed {rest text} : Open rest text → FirstWord rest text
  | segment {source text rest word} : Segment source text → FirstWord rest word →
      FirstWord (source ++ rest) (text ++ word)

/-- A quote of the first word is not closed. -/
inductive Unclosed : Bytes → Prop
  | here {rest text} : Open rest text → Unclosed rest
  | segment {source text rest} : Segment source text → Unclosed rest → Unclosed (source ++ rest)

end Shell

open Shell

variable {cmd source text rest word : Bytes}

theorem shLangFirstWord_done (done : wordTurn cmd = .done) : shLangFirstWord cmd = some [] := by
  rw [shLangFirstWord.eq_def]
  split <;> simp_all

theorem shLangFirstWord_beyond (beyond : wordTurn cmd = .beyond) : shLangFirstWord cmd = none := by
  rw [shLangFirstWord.eq_def]
  split <;> simp_all

theorem shLangFirstWord_next (next : wordTurn cmd = .next text rest) :
    shLangFirstWord cmd = (shLangFirstWord rest).map (text ++ ·) := by
  rw [shLangFirstWord.eq_def]
  split <;> simp_all

theorem singleQuotes_open (absent : singleQuote ∉ text) : singleQuotes text = (text, []) := by
  induction text with
  | nil => rfl
  | cons b text ih =>
    rw [List.mem_cons, not_or] at absent
    rw [singleQuotes, if_neg (Ne.symm absent.1), ih absent.2]

theorem singleQuotes_closed (absent : singleQuote ∉ text) (rest : Bytes) :
    singleQuotes (text ++ singleQuote :: rest) = (text, singleQuote :: rest) := by
  induction text with
  | nil => exact if_pos rfl
  | cons b text ih =>
    rw [List.mem_cons, not_or] at absent
    rw [List.cons_append, singleQuotes, if_neg (Ne.symm absent.1), ih absent.2]

/-- What a quoted text stands for does not depend on what follows it. -/
theorem doubleQuotes_append (quoted : Quoted source text) (after : Bytes) :
    doubleQuotes (source ++ after) = (text ++ (doubleQuotes after).1, (doubleQuotes after).2) := by
  have notQuote : backslash ≠ doubleQuote := by decide
  induction quoted with
  | nil => rfl
  | plain other notBackslash _ ih =>
    rw [List.cons_append, doubleQuotes.eq_def]
    simp only [if_neg other, if_neg notBackslash, ih, List.cons_append]
  | escaped special _ ih =>
    rw [List.cons_append, List.cons_append, doubleQuotes, if_neg notQuote, if_pos rfl]
    simp only [special, if_true, ih, List.cons_append]
  | continued _ ih =>
    have notSpecial : quotedSpecial newline = false := by decide
    rw [List.cons_append, List.cons_append, doubleQuotes, if_neg notQuote, if_pos rfl]
    simp [notSpecial, ih]
  | kept notSpecial notNewline _ ih =>
    rw [List.cons_append] at ih
    rw [List.cons_append, List.cons_append, doubleQuotes, if_neg notQuote, if_pos rfl]
    simp [notSpecial, notNewline, ih]

theorem doubleQuotes_closed (quoted : Quoted source text) (rest : Bytes) :
    doubleQuotes (source ++ doubleQuote :: rest) = (text, doubleQuote :: rest) := by
  have here : doubleQuotes (doubleQuote :: rest) = ([], doubleQuote :: rest) := by
    rw [doubleQuotes.eq_def]
    exact if_pos rfl
  rw [doubleQuotes_append quoted, here, List.append_nil]

theorem wordTurn_single (rest : Bytes) : wordTurn (singleQuote :: rest) = quotedTurn (singleQuotes rest) := rfl

theorem wordTurn_double (rest : Bytes) : wordTurn (doubleQuote :: rest) = quotedTurn (doubleQuotes rest) := rfl

/-- An open quote is left at the end of the string. -/
theorem wordTurn_open (unclosed : Open rest text) : wordTurn rest = .beyond := by
  cases unclosed with
  | single absent => rw [wordTurn_single, singleQuotes_open absent, quotedTurn]
  | double quoted =>
    have stops := doubleQuotes_append quoted []
    rw [List.append_nil] at stops
    rw [wordTurn_double, stops]
    rfl
  | backslash quoted =>
    rw [List.cons_append, wordTurn_double, doubleQuotes_append quoted]
    rfl

/-- A turn of the loop reads a segment. -/
theorem wordTurn_segment (segment : Segment source text) (rest : Bytes) :
    wordTurn (source ++ rest) = .next text rest := by
  cases segment with
  | plain notBackslash notSingle notDouble goesOn =>
    simp [wordTurn, notBackslash, notSingle, notDouble, goesOn]
  | escaped other => simp [wordTurn, other]
  | continued => simp [wordTurn]
  | single absent =>
    rw [List.append_assoc, List.cons_append, wordTurn_single]
    exact congrArg quotedTurn (singleQuotes_closed absent rest)
  | double quoted =>
    rw [List.append_assoc, List.cons_append, wordTurn_double]
    exact congrArg quotedTurn (doubleQuotes_closed quoted rest)

theorem wordTurn_ends {b : UInt8} (ends : endsWord b = true) (rest : Bytes) : wordTurn (b :: rest) = .done := by
  have others : b ≠ backslash ∧ b ≠ singleQuote ∧ b ≠ doubleQuote := by
    refine ⟨?_, ?_, ?_⟩ <;> (rintro rfl; revert ends; decide)
  rw [wordTurn.eq_def]
  simp only [if_neg others.1, if_neg others.2.1, if_neg others.2.2, ends, if_true]

theorem shLangFirstWord_segment (segment : Segment source text) (rest : Bytes) :
    shLangFirstWord (source ++ rest) = (shLangFirstWord rest).map (text ++ ·) :=
  shLangFirstWord_next (wordTurn_segment segment rest)

/-- With a quote that is not closed the terminator is passed. -/
theorem shLangFirstWord_unclosed (unclosed : Unclosed cmd) : shLangFirstWord cmd = none := by
  induction unclosed with
  | here unclosed => exact shLangFirstWord_beyond (wordTurn_open unclosed)
  | segment segment _ ih => rw [shLangFirstWord_segment segment, ih, Option.map_none]

/-- Otherwise the first word is what is returned. -/
theorem Shell.FirstWord.returned (first : FirstWord cmd word) : Unclosed cmd ∨ shLangFirstWord cmd = some word := by
  induction first with
  | nil => exact Or.inr (shLangFirstWord_done rfl)
  | ends ends => exact Or.inr (shLangFirstWord_done (wordTurn_ends ends _))
  | backslash => exact Or.inr (shLangFirstWord_done rfl)
  | unclosed unclosed => exact Or.inl (.here unclosed)
  | segment segment _ ih =>
    rcases ih with unclosed | returned
    · exact Or.inl (.segment segment unclosed)
    · exact Or.inr (by rw [shLangFirstWord_segment segment, returned, Option.map_some])

/-- A text behind a double quote is quoted up to the next one, or to its end. -/
theorem quoted_exists (cmd : Bytes) : ∃ source text, Quoted source text ∧
    (cmd = source ∨ cmd = source ++ [backslash] ∨ ∃ rest, cmd = source ++ doubleQuote :: rest) := by
  have prepend : ∀ (before : Bytes) {source after : Bytes},
      (after = source ∨ after = source ++ [backslash] ∨ ∃ rest, after = source ++ doubleQuote :: rest) →
      before ++ after = before ++ source ∨ before ++ after = before ++ source ++ [backslash] ∨
        ∃ rest, before ++ after = before ++ source ++ doubleQuote :: rest := by
    rintro before source after (rfl | rfl | ⟨rest, rfl⟩)
    · exact Or.inl rfl
    · exact Or.inr (Or.inl (List.append_assoc _ _ _).symm)
    · exact Or.inr (Or.inr ⟨rest, (List.append_assoc _ _ _).symm⟩)
  fun_induction doubleQuotes cmd with
  | case1 => exact ⟨[], [], .nil, Or.inl rfl⟩
  | case2 rest => exact ⟨[], [], .nil, Or.inr (Or.inr ⟨rest, rfl⟩)⟩
  | case3 => exact ⟨[], [], .nil, Or.inr (Or.inl rfl)⟩
  | case4 c rest special _ ih =>
    obtain ⟨source, text, quoted, shape⟩ := ih
    exact ⟨_, _, .escaped special quoted, prepend [backslash, c] shape⟩
  | case5 rest _ _ ih =>
    obtain ⟨source, text, quoted, shape⟩ := ih
    exact ⟨_, _, .continued quoted, prepend [backslash, newline] shape⟩
  | case6 c rest notSpecial other _ ih =>
    obtain ⟨source, text, quoted, shape⟩ := ih
    have ordinary : c ≠ backslash ∧ c ≠ doubleQuote := by
      refine ⟨?_, ?_⟩ <;> (rintro rfl; exact absurd rfl notSpecial)
    -- the byte behind the backslash is the first of the text
    obtain ⟨b, tail, rfl⟩ : ∃ b tail, source = b :: tail := by
      cases source with
      | cons b tail => exact ⟨b, tail, rfl⟩
      | nil =>
        rcases shape with same | same | ⟨after, same⟩
        · cases same
        · exact absurd (List.cons.inj same).1 ordinary.1
        · exact absurd (List.cons.inj same).1 ordinary.2
    obtain rfl : b = c := by
      rcases shape with same | same | ⟨after, same⟩ <;> exact (List.cons.inj same).1.symm
    rw [Bool.not_eq_true] at notSpecial
    exact ⟨_, _, .kept notSpecial other quoted, prepend [backslash] shape⟩
  | case7 b rest notQuote notBackslash ih =>
    obtain ⟨source, text, quoted, shape⟩ := ih
    exact ⟨_, _, .plain notQuote notBackslash quoted, prepend [b] shape⟩

/-- A word goes on with a segment, or it ends. -/
theorem segment_or_end (cmd : Bytes) : (∃ text, FirstWord cmd text) ∨
    ∃ source text rest, cmd = source ++ rest ∧ Segment source text ∧ rest.length < cmd.length := by
  cases cmd with
  | nil => exact Or.inl ⟨_, .nil⟩
  | cons b rest =>
    by_cases isBackslash : b = backslash
    · subst isBackslash
      cases rest with
      | nil => exact Or.inl ⟨_, .backslash⟩
      | cons c rest =>
        have shorter : rest.length < (backslash :: c :: rest).length := by
          simp only [List.length_cons]
          omega
        by_cases line : c = newline
        · subst line
          exact Or.inr ⟨_, _, rest, rfl, .continued, shorter⟩
        · exact Or.inr ⟨_, _, rest, rfl, .escaped line, shorter⟩
    by_cases isSingle : b = singleQuote
    · subst isSingle
      by_cases closed : singleQuote ∈ rest
      · obtain ⟨text, after, rfl, absent⟩ := List.eq_append_cons_of_mem closed
        exact Or.inr ⟨_, _, after, by simp, .single absent, by simp; omega⟩
      · exact Or.inl ⟨_, .unclosed (.single closed)⟩
    by_cases isDouble : b = doubleQuote
    · subst isDouble
      obtain ⟨source, text, quoted, rfl | rfl | ⟨after, rfl⟩⟩ := quoted_exists rest
      · exact Or.inl ⟨_, .unclosed (.double quoted)⟩
      · exact Or.inl ⟨_, .unclosed (.backslash quoted)⟩
      · exact Or.inr ⟨_, _, after, by simp, .double quoted, by simp; omega⟩
    by_cases ends : endsWord b = true
    · exact Or.inl ⟨_, .ends ends⟩
    · rw [Bool.not_eq_true] at ends
      exact Or.inr ⟨_, _, rest, rfl, .plain isBackslash isSingle isDouble ends, Nat.lt_succ_self _⟩

theorem firstWord_exists (cmd : Bytes) : ∃ word, FirstWord cmd word := by
  generalize size : cmd.length = k
  induction k using Nat.strong_induction_on generalizing cmd with
  | _ k ih =>
    rcases segment_or_end cmd with ends | ⟨source, text, rest, rfl, segment, shorter⟩
    · exact ends
    · obtain ⟨word, first⟩ := ih rest.length (size ▸ shorter) rest rfl
      exact ⟨_, .segment segment first⟩

theorem Shell.Quoted.length_le (quoted : Quoted source text) : text.length ≤ source.length := by
  induction quoted with
  | nil => exact Nat.le_refl _
  | plain _ _ _ ih => exact Nat.succ_le_succ ih
  | escaped _ _ ih => exact Nat.succ_le_succ (Nat.le_succ_of_le ih)
  | continued _ ih => exact Nat.le_succ_of_le (Nat.le_succ_of_le ih)
  | kept _ _ _ ih => exact Nat.succ_le_succ ih

theorem Shell.Segment.length_le (segment : Segment source text) : text.length ≤ source.length := by
  cases segment with
  | plain | escaped | continued => simp
  | single =>
    simp only [List.length_cons, List.length_append]
    omega
  | double quoted =>
    have fits := quoted.length_le
    simp only [List.length_cons, List.length_append]
    omega

theorem Shell.Open.length_le (unclosed : Open rest text) : text.length ≤ rest.length := by
  cases unclosed with
  | single => exact Nat.le_succ _
  | double quoted => exact Nat.le_succ_of_le quoted.length_le
  | backslash quoted =>
    have fits := quoted.length_le
    simp only [List.length_cons, List.length_append]
    omega

/-- The word has room in a buffer of the size of the command. -/
theorem Shell.FirstWord.length_le (first : FirstWord cmd word) : word.length ≤ cmd.length := by
  induction first with
  | nil => exact Nat.le_refl _
  | ends | backslash => exact Nat.zero_le _
  | unclosed unclosed => exact unclosed.length_le
  | segment segment _ ih =>
    have fits := segment.length_le
    simp only [List.length_append]
    omega

/-- The scan stays in the string and returns its first word, for which there is room. -/
def ReadsFirstWord (cmd : Bytes) : Prop :=
  ∃ word, shLangFirstWord cmd = some word ∧ word.length ≤ cmd.length ∧ ∀ text, FirstWord cmd text ↔ text = word

/-- The first word is read exactly if every quote in it is closed. -/
theorem readsFirstWord_iff (cmd : Bytes) : ReadsFirstWord cmd ↔ ¬Unclosed cmd := by
  constructor
  · rintro ⟨word, returned, _, _⟩ unclosed
    rw [shLangFirstWord_unclosed unclosed] at returned
    cases returned
  · intro closed
    obtain ⟨word, first⟩ := firstWord_exists cmd
    have returned := first.returned.resolve_left closed
    refine ⟨word, returned, first.length_le, fun text => ⟨fun other => ?_, ?_⟩⟩
    · exact Option.some.inj ((other.returned.resolve_left closed).symm.trans returned)
    · rintro rfl
      exact first

/-- A quote that is not closed. -/
theorem readsFirstWord_open : ¬ReadsFirstWord (ascii "'less") := by
  rintro ⟨word, returned, _, _⟩
  have clean : singleQuote ∉ ascii "less" := by decide +kernel
  have unclosed : Unclosed (ascii "'less") := .here (.single clean)
  rw [shLangFirstWord_unclosed unclosed] at returned
  cases returned

end ManDb
