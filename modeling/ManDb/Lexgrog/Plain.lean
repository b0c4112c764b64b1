import ManDb.Descriptions
import ManDb.Lexgrog.Scan

namespace ManDb.Lexgrog

open Regex

def bytesWhere (p : UInt8 → Bool) : Bytes := ((List.range 256).map UInt8.ofNat).filter p

/-- The bytes of a plain word: those that are no blanks and ask for nothing by themselves. -/
def isPlain (b : UInt8) : Bool := 33 ≤ b && b ≠ comma && b ≠ backslash

/-- The plain bytes that some pattern starts with: a quote, a parenthesis, a dash and a period. -/
def marks : Bytes := [39, 40, dash, period]

/-- The bytes that the first name may start with. -/
def isInitial (b : UInt8) : Bool := isPlain b && !marks.contains b

/-- The second byte does not make anything of the first one. -/
def isQuiet (c d : UInt8) : Bool := d ≠ backslash && !(c = dash && d = dash)

/-- After the word no match goes on with any of these bytes. -/
def halts (w next : Bytes) (r : Regex UInt8) : Bool := (r.derivs w).heads.all fun cls => next.all fun d => !cls d

/-- The rules before those for plain text. -/
def frontRules (start : Start) : List (Regex UInt8 × Nat × List Op) :=
  (rulesOf start).take ((rulesOf start).length - 5)

def alnumRule : Regex UInt8 × Nat × List Op := (.star (.one isAlnum), 0, [.addStr .yytext])

def commaRule : Regex UInt8 × Nat × List Op :=
  (seqs [.star blank, lit ",", .star blank], 0, [.addStr (.const (ascii ", "))])

def lineRule : Regex UInt8 × Nat × List Op := (.seq bol dot, 0, [.newlineFound, .addChar .last])

def byteRule : Regex UInt8 × Nat × List Op := (dot, 0, [.addChar .first])

/-- What stands between the words, the bytes that end it, and the token that it is. -/
def plainTokens : List (Start × Bytes × (UInt8 → Bool) × List Op × Nat) :=
  [(.manFile, ascii ".SH NAME\n", isInitial, [.begin .manPrename], 8),
    (.manPrename, [newline], isInitial, [.yyless 0, .begin .manName], 1),
    (.manName, ascii ", ", isPlain, [.addStr (.const (ascii ", "))], 2),
    (.manName, ascii " \\- ", isPlain, [.addSeparator, .begin .manDesc], 4),
    (.manDesc, ascii ", ", isPlain, [.addStr (.const (ascii ", "))], 2),
    (.manDesc, [space], isPlain, [.addChar (.const space)], 1)]

variable {start : Start} {w text : Bytes} {c d : UInt8} {n : Nat} {r : Regex UInt8}

theorem mem_bytesWhere {p : UInt8 → Bool} {b : UInt8} : b ∈ bytesWhere p ↔ p b = true := by
  have all : b ∈ (List.range 256).map UInt8.ofNat :=
    List.mem_map.mpr ⟨b.toNat, List.mem_range.mpr b.toNat_lt, UInt8.ofNat_toNat⟩
  rw [bytesWhere, List.mem_filter, and_iff_right all]

theorem halts_iff {next : Bytes} :
    halts w next r = true ↔ ∀ cls ∈ (r.derivs w).heads, ∀ d ∈ next, cls d = false := by
  simp only [halts, List.all_eq_true, Bool.not_eq_true']

theorem halts_longest {p : UInt8 → Bool} (halt : halts w (bytesWhere p) r = true) (other : p d = true) :
    r.longest (w ++ d :: text) = r.longest w :=
  longest_stops fun cls inHeads => halts_iff.mp halt cls inHeads d (mem_bytesWhere.mpr other)

theorem plainTokens_halt : ∀ token ∈ plainTokens, nextToken token.1 token.2.1 = some token.2.2.2 ∧
    ∀ rule ∈ rulesOf token.1, halts token.2.1 (bytesWhere token.2.2.1) rule.1 = true := by
  decide +kernel

theorem nextToken_plain {p : UInt8 → Bool} {token : List Op × Nat} (listed : (start, w, p, token) ∈ plainTokens)
    (other : p d = true) : nextToken start (w ++ d :: text) = some token := by
  obtain ⟨alone, halt⟩ := plainTokens_halt _ listed
  have same : select (w ++ d :: text) (rulesOf start) = select w (rulesOf start) :=
    select_stops fun rule member cls inHeads =>
      halts_iff.mp (halt rule member) cls inHeads d (mem_bytesWhere.mpr other)
  rw [nextToken, same]
  exact alone

theorem rulesOf_front (named : start ∈ nameDesc) :
    rulesOf start = frontRules start ++ [alnumRule, commaRule, lineRule, byteRule, (defaultRule, 0, [])] := by
  rcases List.mem_cons.mp named with rfl | named
  · rfl
  · rcases List.mem_singleton.mp named with rfl
    rfl

/-- Apart from the marks, no rule before those for plain text starts with a plain byte; a mark is no match by itself,
and none goes on with a quiet byte. The first byte of a name does not go on behind a newline. -/
theorem frontRules_halt : ∀ start ∈ nameDesc, ∀ rule ∈ frontRules start,
    halts [] (bytesWhere isInitial) rule.1 = true ∧
      (∀ c ∈ marks, (rule.1.derivs [c]).nullable = false ∧ halts [c] (bytesWhere (isQuiet c)) rule.1 = true) ∧
      (start = .manName → halts [newline] (bytesWhere isInitial) rule.1 = true) := by
  decide +kernel

theorem longest_one_le {cls : UInt8 → Bool} (found : (Regex.one cls).longest text = some n) : n ≤ 1 := by
  obtain ⟨le, _, _, same⟩ := longest_sound found
  have length := congrArg List.length same
  rw [List.length_take, Nat.min_eq_left le] at length
  exact length.le

theorem longest_nil_eq (found : r.longest [] = some n) : n = 0 := by
  rw [longest_nil, Option.ite_none_right_eq_some, Option.some.injEq] at found
  exact found.2.symm

/-- The rules before those for plain text match nothing at a plain byte that is followed by a quiet one. -/
theorem frontRules_longest (named : start ∈ nameDesc) (plain : isPlain c = true) (quiet : isQuiet c d = true)
    {rule : Regex UInt8 × Nat × List Op} (member : rule ∈ frontRules start)
    (found : rule.1.longest (c :: d :: text) = some n) : n = 0 := by
  by_cases mark : c ∈ marks
  · obtain ⟨more, halt⟩ := (frontRules_halt start named rule member).2.1 c mark
    have two : rule.1.longest ([c] ++ d :: text) = rule.1.longest [c] := halts_longest halt quiet
    have none : (rule.1.deriv c).longest [] = none := by
      rw [longest_nil]
      exact if_neg (Bool.eq_false_iff.mp more)
    rw [List.singleton_append] at two
    rw [two, longest_cons, none, Option.map_none, Option.none_or, Option.ite_none_right_eq_some,
      Option.some.injEq] at found
    exact found.2.symm
  · have plainOnly : isInitial c = true := by
      rw [isInitial, plain, Bool.true_and, Bool.not_eq_true', ← Bool.not_eq_true, List.contains_iff_mem]
      exact mark
    have one : rule.1.longest ([] ++ c :: d :: text) = rule.1.longest [] :=
      halts_longest (frontRules_halt start named rule member).1 plainOnly
    rw [List.nil_append] at one
    rw [one] at found
    exact longest_nil_eq found

theorem isAlnum_plain (alnum : isAlnum c = true) : isPlain c = true ∧ c ∉ marks := by
  simp only [isAlnum, isAlpha, isUpper, isDigit, Bool.or_eq_true, Bool.and_eq_true, decide_eq_true_eq,
    UInt8.le_iff_toNat_le] at alnum
  simp only [isPlain, marks, comma, backslash, dash, period, Bool.and_eq_true, decide_eq_true_eq, ne_eq,
    UInt8.le_iff_toNat_le, List.mem_cons, List.not_mem_nil, ← UInt8.toNat_inj]
  simp at alnum ⊢
  omega

theorem frontRules_alnum (named : start ∈ nameDesc) (alnum : isAlnum c = true)
    {rule : Regex UInt8 × Nat × List Op} (member : rule ∈ frontRules start)
    (found : rule.1.longest (c :: text) = some n) : n = 0 := by
  obtain ⟨plain, mark⟩ := isAlnum_plain alnum
  have plainOnly : isInitial c = true := by
    rw [isInitial, plain, Bool.true_and, Bool.not_eq_true', ← Bool.not_eq_true, List.contains_iff_mem]
    exact mark
  have one : rule.1.longest ([] ++ c :: text) = rule.1.longest [] :=
    halts_longest (frontRules_halt start named rule member).1 plainOnly
  rw [List.nil_append] at one
  rw [one] at found
  exact longest_nil_eq found

/-- The rules for a comma and for a line match nothing at a plain byte. -/
theorem lateRules_longest (plain : isPlain c = true) (text : Bytes) :
    commaRule.1.longest (c :: text) = none ∧ lineRule.1.longest (c :: text) = none := by
  have halt : halts [] (bytesWhere isPlain) commaRule.1 = true ∧ halts [] (bytesWhere isPlain) lineRule.1 = true := by
    decide +kernel
  have first : commaRule.1.longest ([] ++ c :: text) = none := halts_longest halt.1 plain
  have second : lineRule.1.longest ([] ++ c :: text) = none := halts_longest halt.2 plain
  exact ⟨first, second⟩

theorem nextToken_letters (named : start ∈ nameDesc) (alnum : ∀ b ∈ c :: w, isAlnum b = true)
    (stops : ∀ b ∈ text.head?, isAlnum b = false) :
    nextToken start (c :: w ++ text) = some ([.addStr .yytext], w.length + 1) := by
  have letter : isAlnum c = true := alnum c List.mem_cons_self
  have longest : alnumRule.1.longest (c :: w ++ text) = some (w.length + 1) := longest_star_one alnum stops
  obtain ⟨comma, line⟩ := lateRules_longest (isAlnum_plain letter).1 (w ++ text)
  have selects : Selects (c :: w ++ text) (rulesOf start) alnumRule.2 (w.length + 1) := by
    refine ⟨frontRules start, alnumRule.1, _, rulesOf_front named, longest, fun rule member m found => ?_, ?_⟩
    · rw [frontRules_alnum named letter member found]
      exact Nat.succ_pos _
    · simp only [List.forall_mem_cons]
      refine ⟨fun m found => ?_, fun m found => ?_, fun m found => ?_, fun m found => ?_, List.forall_mem_nil _⟩
      · exact absurd (comma.symm.trans found) (by simp)
      · exact absurd (line.symm.trans found) (by simp)
      · exact (longest_one_le found).trans (Nat.succ_pos _)
      · exact (longest_one_le found).trans (Nat.succ_pos _)
  rw [nextToken, selects.select]
  rfl

theorem nextToken_byte (named : start ∈ nameDesc) (plain : isPlain c = true) (other : isAlnum c = false)
    (quiet : isQuiet c d = true) : nextToken start (c :: d :: text) = some ([.addChar .first], 1) := by
  have notNewline : (c != newline) = true := by
    rw [bne_iff_ne]
    rintro rfl
    cases plain
  have longest : byteRule.1.longest (c :: d :: text) = some 1 := by
    have deriv : byteRule.1.deriv c = .empty := if_pos notNewline
    have nothing : Regex.empty.longest (d :: text) = some 0 := longest_cons_of_heads (List.forall_mem_nil _)
    rw [longest_cons, deriv, nothing]
    rfl
  have noLetter : alnumRule.1.longest (c :: d :: text) = some 0 :=
    longest_star_one (w := []) (List.forall_mem_nil _) fun b first => Option.some.inj first ▸ other
  obtain ⟨comma, line⟩ := lateRules_longest plain (d :: text)
  have selects : Selects (c :: d :: text) (rulesOf start) byteRule.2 1 := by
    refine ⟨frontRules start ++ [alnumRule, commaRule, lineRule], byteRule.1, [(defaultRule, 0, [])], ?_, longest, ?_,
      ?_⟩
    · rw [rulesOf_front named, List.append_assoc]
      rfl
    · refine List.forall_mem_append.mpr ⟨fun rule member m found => ?_, ?_⟩
      · rw [frontRules_longest named plain quiet member found]
        exact Nat.one_pos
      · simp only [List.forall_mem_cons]
        refine ⟨fun m found => ?_, fun m found => ?_, fun m found => ?_, List.forall_mem_nil _⟩
        · exact Option.some.inj (noLetter.symm.trans found) ▸ Nat.one_pos
        · exact absurd (comma.symm.trans found) (by simp)
        · exact absurd (line.symm.trans found) (by simp)
    · exact List.forall_mem_singleton.mpr fun m found => longest_one_le found
  rw [nextToken, selects.select]
  rfl

theorem nextToken_comma (named : start ∈ nameDesc) (plain : isPlain d = true) :
    nextToken start (ascii ", " ++ d :: text) = some ([.addStr (.const (ascii ", "))], 2) := by
  have listed : (start, ascii ", ", isPlain, [Op.addStr (.const (ascii ", "))], 2) ∈ plainTokens := by
    rcases List.mem_cons.mp named with rfl | named
    · simp [plainTokens]
    · rcases List.mem_singleton.mp named with rfl
      simp [plainTokens]
  exact nextToken_plain listed plain

/-- A space in the description. -/
theorem nextToken_space (plain : isPlain d = true) :
    nextToken .manDesc ([space] ++ d :: text) = some ([.addChar (.const space)], 1) :=
  nextToken_plain (by simp [plainTokens]) plain

theorem nextToken_dash (plain : isPlain d = true) :
    nextToken .manName (ascii " \\- " ++ d :: text) = some ([.addSeparator, .begin .manDesc], 4) :=
  nextToken_plain (by simp [plainTokens]) plain

theorem nextToken_heading (initial : isInitial c = true) :
    nextToken .manFile (ascii ".SH NAME\n" ++ c :: text) = some ([.begin .manPrename], 8) :=
  nextToken_plain (by simp [plainTokens]) initial

theorem nextToken_prename (initial : isInitial c = true) :
    nextToken .manPrename ([newline] ++ c :: text) = some ([.yyless 0, .begin .manName], 1) :=
  nextToken_plain (by simp [plainTokens]) initial

theorem lineRule_longest (plain : isPlain c = true) : lineRule.1.longest (newline :: c :: text) = some 2 := by
  have bytes : (c == newline) = false ∧ (c == carriageReturn) = false ∧ (c != newline) = true := by
    have other (b : UInt8) (blank : isPlain b = false) : (c == b) = false :=
      beq_false_of_ne fun same => Bool.false_ne_true (blank.symm.trans (same ▸ plain))
    have notNewline := other newline rfl
    exact ⟨notNewline, other carriageReturn rfl, bne_iff_ne.mpr (ne_of_beq_false notNewline)⟩
  have last : (((lineRule.1.deriv newline).deriv c).longest text) = some 0 := by
    have begun : lineRule.1.deriv newline = .seq (.star eol) dot := rfl
    have ends : (lineRule.1.deriv newline).deriv c = .empty := by
      simp [begun, eol, opt, byte, dot, Regex.deriv, nullable, join, either, bytes]
    rw [ends]
    cases text with
    | nil => rfl
    | cons b text => exact longest_cons_of_heads (List.forall_mem_nil _)
  rw [longest_cons, longest_cons, last]
  rfl

theorem nextToken_newline (initial : isInitial c = true) :
    nextToken .manName (newline :: c :: text) = some ([.newlineFound, .addChar .last], 2) := by
  have named : Start.manName ∈ nameDesc := List.mem_cons_self
  have plain : isPlain c = true := (Bool.and_eq_true_iff.mp initial).1
  have selects : Selects (newline :: c :: text) (rulesOf .manName) lineRule.2 2 := by
    refine ⟨frontRules .manName ++ [alnumRule, commaRule], lineRule.1, [byteRule, (defaultRule, 0, [])], ?_,
      lineRule_longest plain, ?_, ?_⟩
    · rw [rulesOf_front named, List.append_assoc]
      rfl
    · refine List.forall_mem_append.mpr ⟨fun rule member m found => ?_, ?_⟩
      · have one : rule.1.longest ([newline] ++ c :: text) = rule.1.longest [newline] :=
          halts_longest ((frontRules_halt _ named rule member).2.2 rfl) initial
        rw [List.singleton_append] at one
        rw [one] at found
        exact Nat.lt_succ_of_le (longest_sound found).1
      · simp only [List.forall_mem_cons]
        refine ⟨fun m found => ?_, fun m found => ?_, List.forall_mem_nil _⟩
        · have none : alnumRule.1.longest (newline :: c :: text) = some 0 :=
            longest_star_one (w := []) (List.forall_mem_nil _) fun b first => Option.some.inj first ▸ rfl
          exact Option.some.inj (none.symm.trans found) ▸ Nat.two_pos
        · have heads : commaRule.1.heads.all (!· newline) = true := rfl
          have none : commaRule.1.longest (newline :: c :: text) = none :=
            longest_cons_of_heads (by simpa only [List.all_eq_true, Bool.not_eq_true'] using heads)
          exact absurd (none.symm.trans found) (by simp)
    · simp only [List.forall_mem_cons]
      exact ⟨fun m found => (longest_one_le found).trans (Nat.le_succ 1),
        fun m found => (longest_one_le found).trans (Nat.le_succ 1), List.forall_mem_nil _⟩
  rw [nextToken, selects.select]
  rfl

/-- The heading of the next section ends the description. -/
theorem nextToken_section (text : Bytes) :
    ∃ n, nextToken .manDesc (ascii "\n.SH" ++ text) = some ([.terminate, .begin .manRest], n) := by
  have others : ∀ rule ∈ rulesOf .manDesc,
      rule.2 = (0, [.terminate, .begin .manRest]) ∨ rule.1.dead (ascii "\n.SH") = true := by
    decide +kernel
  have listed : (seqs [bol, secRequest, .star blank], 0, [.terminate, .begin .manRest]) ∈ rulesOf .manDesc :=
    List.mem_cons_self
  have heading : (ascii "\n.SH" ++ text).take 4 ∈ (seqs [bol, secRequest, .star blank]).lang := by
    have found : (seqs [bol, secRequest, .star blank]).longest (ascii "\n.SH") = some 4 := by
      decide +kernel
    exact (longest_sound found).2
  obtain ⟨m, found, le⟩ := longest_max (by simp [ascii]) heading
  obtain ⟨best, k, selected, further⟩ := select_max listed found
  obtain ⟨pattern, member, match_⟩ := select_mem selected
  rcases others _ member with same | dead
  · exact ⟨k - best.1, by rw [nextToken, selected, show best = _ from same]; rfl⟩
  · have short : k < 4 := longest_lt_of_dead dead match_
    omega

end ManDb.Lexgrog
