import Mathlib.Data.List.Chain
import ManDb.Lexgrog.Plain
import ManDb.Lexgrog.Returns

namespace ManDb.Lexgrog

variable {limit : Option Nat} {start : Start} {whatis w rest text : Bytes} {c d : UInt8} {s t u : Scanner} {m n : Nat}

/-- A scan in the middle of the NAME section. -/
def reading (start : Start) (whatis rest : Bytes) : Scanner := { Scanner.init .manpage rest with start, whatis }

/-- There is room for so many bytes and the terminator. -/
def Fits (limit : Option Nat) (n : Nat) : Prop := limit.any (· ≤ n) = false

/-- Some turns lead from one scanner to another. -/
def Leads (limit : Option Nat) (s t : Scanner) : Prop := ∃ n, (turn limit)^[n] s = t

theorem Fits.mono (fits : Fits limit n) (le : m ≤ n) : Fits limit m := by
  cases limit with
  | none => rfl
  | some size =>
    have less : ¬size ≤ n := of_decide_eq_false fits
    exact decide_eq_false fun small => less (small.trans le)

theorem Fits.within (fits : Fits limit n) : limit.any (· < n) = false := by
  cases limit with
  | none => rfl
  | some size =>
    have less : ¬size ≤ n := of_decide_eq_false fits
    exact decide_eq_false fun small => less small.le

theorem Leads.refl (s : Scanner) : Leads limit s s := ⟨0, rfl⟩

theorem Leads.trans (first : Leads limit s t) (second : Leads limit t u) : Leads limit s u := by
  obtain ⟨m, rfl⟩ := first
  obtain ⟨n, rfl⟩ := second
  exact ⟨n + m, Function.iterate_add_apply ..⟩

theorem Leads.turn (same : turn limit s = t) : Leads limit s t := ⟨1, same⟩

theorem store_reading (fits : Fits limit (whatis.length + w.length)) :
    (reading start whatis rest).store limit w = reading start (whatis ++ w) rest := by
  have outside : limit.any (· < (reading start whatis rest).whatis.length + w.length) = false := fits.within
  rw [Scanner.store, outside]
  rfl

theorem addStr_reading (nulFree : 0 ∉ w) (fits : Fits limit (whatis.length + w.length)) :
    (reading start whatis rest).addStr limit w w.length = reading start (whatis ++ w) rest := by
  have room : limit.any (· ≤ (reading start whatis rest).whatis.length + w.length) = false := fits
  rw [Scanner.addStr, room, strncpy_nulFree nulFree, if_neg Bool.false_ne_true]
  exact store_reading fits

theorem addChar_reading (fits : Fits limit (whatis.length + 1)) :
    (reading start whatis rest).addChar limit c = reading start (whatis ++ [c]) rest := by
  have room : limit.any (· ≤ (reading start whatis rest).whatis.length + 1) = false := fits
  rw [Scanner.addChar, room, if_neg Bool.false_ne_true, if_neg fun both => Bool.false_ne_true both.1]
  exact store_reading fits

/-- A turn from the token that it takes. -/
theorem turn_reading {action : List Op} (more : w ≠ [])
    (token : nextToken start (w ++ rest) = some (action, w.length)) :
    turn limit (reading start whatis (w ++ rest)) = runAction limit w action (reading start whatis rest) := by
  have next : nextAction (reading start whatis (w ++ rest)) = some (action, w, rest) := by
    have found : nextToken (reading start whatis (w ++ rest)).start (reading start whatis (w ++ rest)).rest =
        some (action, w.length) := token
    rw [nextAction_token rfl (List.append_ne_nil_of_left_ne_nil more _) found]
    exact congrArg some (Prod.ext rfl (Prod.ext (List.take_left ..) (List.drop_left ..)))
  exact turn_eq next limit

theorem isPlain_nulFree (plain : ∀ b ∈ w, isPlain b = true) : 0 ∉ w := fun nul => absurd (plain 0 nul) (by decide)

theorem turn_letters (whatis rest : Bytes) (named : start ∈ nameDesc) (alnum : ∀ b ∈ c :: w, isAlnum b = true)
    (stops : ∀ b ∈ rest.head?, isAlnum b = false) (fits : Fits limit (whatis.length + (c :: w).length)) :
    turn limit (reading start whatis (c :: w ++ rest)) = reading start (whatis ++ c :: w) rest := by
  rw [turn_reading (List.cons_ne_nil _ _) (nextToken_letters named alnum stops)]
  exact addStr_reading (isPlain_nulFree fun b member => (isAlnum_plain (alnum b member)).1) fits

theorem turn_byte (whatis rest : Bytes) (named : start ∈ nameDesc) (plain : isPlain c = true)
    (other : isAlnum c = false) (quiet : isQuiet c d = true) (fits : Fits limit (whatis.length + 1)) :
    turn limit (reading start whatis (c :: d :: rest)) = reading start (whatis ++ [c]) (d :: rest) := by
  have token : nextToken start ([c] ++ d :: rest) = some ([.addChar .first], [c].length) :=
    nextToken_byte named plain other quiet
  exact (turn_reading (List.cons_ne_nil _ _) token).trans (addChar_reading fits)

/-- The bytes of the word are plain, and none of them makes anything of the one before it. -/
structure PlainWord (w : Bytes) : Prop where
  nonempty : w ≠ []
  plain : ∀ b ∈ w, isPlain b = true
  quiet : w.IsChain (isQuiet · · = true)

/-- The first token of a word is a run of letters and digits, or a byte of its own. -/
theorem turn_word_first (whatis rest : Bytes) (named : start ∈ nameDesc) (plain : ∀ b ∈ c :: w, isPlain b = true)
    (quiet : (c :: w ++ [d]).IsChain (isQuiet · · = true)) (stops : isAlnum d = false)
    (fits : Fits limit (whatis.length + (c :: w).length)) :
    ∃ token left, c :: w = token ++ left ∧ token ≠ [] ∧
      turn limit (reading start whatis (c :: w ++ d :: rest)) =
        reading start (whatis ++ token) (left ++ d :: rest) := by
  by_cases alnum : isAlnum c = true
  · have parts : w.takeWhile isAlnum ++ w.dropWhile isAlnum = w := List.takeWhile_append_dropWhile
    have letters : ∀ b ∈ c :: w.takeWhile isAlnum, isAlnum b = true :=
      List.forall_mem_cons.mpr ⟨alnum, fun b member => List.mem_takeWhile_imp member⟩
    have behind : ∀ b ∈ (w.dropWhile isAlnum ++ d :: rest).head?, isAlnum b = false := by
      intro b first
      have head := List.head?_dropWhile_not isAlnum w
      cases left : w.dropWhile isAlnum with
      | nil =>
        rw [left] at first
        exact Option.some.inj first ▸ stops
      | cons e left' =>
        rw [left] at first head
        exact Option.some.inj first ▸ by simpa using head
    have shorter : (c :: w.takeWhile isAlnum).length ≤ (c :: w).length :=
      Nat.succ_le_succ (List.takeWhile_prefix _).length_le
    refine ⟨c :: w.takeWhile isAlnum, w.dropWhile isAlnum, ?_, List.cons_ne_nil _ _, ?_⟩
    · rw [List.cons_append, parts]
    · have step := turn_letters whatis _ named letters behind (fits.mono (Nat.add_le_add_left shorter _))
      rwa [← List.append_assoc, List.cons_append, parts] at step
  · obtain ⟨after, _⟩ := List.isChain_cons.mp quiet
    have step {e : UInt8} {more : Bytes} (quiet : isQuiet c e = true) :=
      turn_byte whatis more named (plain c List.mem_cons_self) (Bool.eq_false_iff.mpr alnum) quiet
        (fits.mono (Nat.add_le_add_left (Nat.succ_le_succ (Nat.zero_le _)) _))
    refine ⟨[c], w, rfl, List.cons_ne_nil _ _, ?_⟩
    cases w with
    | nil => exact step (after d rfl)
    | cons e w => exact step (after e rfl)

/-- A plain word is copied as it stands. -/
theorem leads_word (whatis rest : Bytes) (named : start ∈ nameDesc) (plain : ∀ b ∈ w, isPlain b = true)
    (quiet : (w ++ [d]).IsChain (isQuiet · · = true)) (stops : isAlnum d = false)
    (fits : Fits limit (whatis.length + w.length)) :
    Leads limit (reading start whatis (w ++ d :: rest)) (reading start (whatis ++ w) (d :: rest)) := by
  induction length : w.length using Nat.strong_induction_on generalizing w whatis with
  | _ n ih =>
    cases w with
    | nil =>
      rw [List.nil_append, List.append_nil]
      exact .refl _
    | cons c w =>
      obtain ⟨token, left, parts, nonempty, step⟩ := turn_word_first whatis rest named plain quiet stops fits
      rw [parts] at plain quiet fits length ⊢
      rw [parts] at step
      have shorter : left.length < n := by
        rw [← length, List.length_append]
        exact Nat.lt_add_of_pos_left (List.length_pos_iff.mpr nonempty)
      have goesOn : Leads limit (reading start (whatis ++ token) (left ++ d :: rest)) _ :=
        ih _ shorter _ (List.forall_mem_append.mp plain).2
        (by rw [List.append_assoc] at quiet; exact (List.isChain_append.mp quiet).2.1)
        (by rwa [List.length_append, Nat.add_assoc, ← List.length_append]) rfl
      rw [List.append_assoc whatis] at goesOn
      exact (Leads.turn step).trans goesOn

theorem PlainWord.before (word : PlainWord w) (notBackslash : d ≠ backslash) (notDash : d ≠ dash) :
    (w ++ [d]).IsChain (isQuiet · · = true) := by
  refine List.isChain_append.mpr ⟨word.quiet, List.isChain_singleton d, fun c _ e same => ?_⟩
  obtain rfl := Option.some.inj same
  simp [isQuiet, notBackslash, notDash]

/-- Plain words with spaces between them, and perhaps with commas. -/
inductive PlainText : Bytes → Prop
  | word {w : Bytes} (word : PlainWord w) : PlainText w
  | space {w text : Bytes} (word : PlainWord w) (plain : PlainText text) : PlainText (w ++ ManDb.space :: text)
  | comma {w text : Bytes} (word : PlainWord w) (plain : PlainText text) :
      PlainText (w ++ (ascii ", " ++ text))

theorem PlainWord.head (word : PlainWord w) (rest : Bytes) : ∃ d text, w ++ rest = d :: text ∧ isPlain d = true := by
  obtain ⟨d, text, rfl⟩ := List.exists_cons_of_ne_nil word.nonempty
  exact ⟨d, text ++ rest, rfl, word.plain d List.mem_cons_self⟩

theorem PlainText.head (plain : PlainText text) (rest : Bytes) :
    ∃ d more, text ++ rest = d :: more ∧ isPlain d = true := by
  cases plain with
  | word word => exact word.head rest
  | space word text =>
    rw [List.append_assoc]
    exact word.head _
  | comma word text =>
    rw [List.append_assoc]
    exact word.head _

theorem space_ne : space ≠ backslash ∧ space ≠ dash := by decide

theorem comma_ne : comma ≠ backslash ∧ comma ≠ dash := by decide

theorem leads_plainWord (whatis rest : Bytes) (named : start ∈ nameDesc) (word : PlainWord w)
    (notBackslash : d ≠ backslash) (notDash : d ≠ dash) (stops : isAlnum d = false)
    (fits : Fits limit (whatis.length + w.length)) :
    Leads limit (reading start whatis (w ++ d :: rest)) (reading start (whatis ++ w) (d :: rest)) :=
  leads_word whatis rest named word.plain (word.before notBackslash notDash) stops fits

theorem turn_comma (whatis rest : Bytes) (named : start ∈ nameDesc) (plain : isPlain d = true)
    (fits : Fits limit (whatis.length + 2)) :
    turn limit (reading start whatis (ascii ", " ++ d :: rest)) = reading start (whatis ++ ascii ", ") (d :: rest) := by
  have token : nextToken start (ascii ", " ++ d :: rest) =
      some ([.addStr (.const (ascii ", "))], (ascii ", ").length) :=
    nextToken_comma named plain
  rw [turn_reading (by decide) token]
  exact addStr_reading (w := ascii ", ") (by decide) fits

theorem turn_space (whatis rest : Bytes) (plain : isPlain d = true) (fits : Fits limit (whatis.length + 1)) :
    turn limit (reading .manDesc whatis (space :: d :: rest)) = reading .manDesc (whatis ++ [space]) (d :: rest) := by
  have token : nextToken .manDesc ([space] ++ d :: rest) = some ([.addChar (.const space)], [space].length) :=
    nextToken_space plain
  exact (turn_reading (List.cons_ne_nil _ _) token).trans (addChar_reading fits)

/-- A description is copied as it stands. -/
theorem leads_text (whatis rest : Bytes) (plain : PlainText text) (fits : Fits limit (whatis.length + text.length)) :
    Leads limit (reading .manDesc whatis (text ++ newline :: rest))
      (reading .manDesc (whatis ++ text) (newline :: rest)) := by
  have named : Start.manDesc ∈ nameDesc := List.mem_cons_of_mem _ List.mem_cons_self
  induction plain generalizing whatis with
  | word word => exact leads_plainWord whatis rest named word (by decide) (by decide) rfl fits
  | @space w text word plain ih =>
    obtain ⟨d, more, shape, head⟩ := plain.head (newline :: rest)
    rw [List.length_append, List.length_cons] at fits
    have first := leads_plainWord whatis (text ++ newline :: rest) named word space_ne.1 space_ne.2 rfl
      (fits.mono (by omega))
    have second := turn_space (whatis ++ w) more head
      (fits.mono (by rw [List.length_append]; omega))
    have third := ih (whatis ++ w ++ [space])
      (fits.mono (by simp only [List.length_append, List.length_singleton]; omega))
    rw [← shape] at second
    rw [List.append_assoc, List.cons_append]
    refine first.trans ((Leads.turn second).trans ?_)
    simpa only [List.append_assoc, List.singleton_append] using third
  | @comma w text word plain ih =>
    obtain ⟨d, more, shape, head⟩ := plain.head (newline :: rest)
    have separator : (ascii ", ").length = 2 := rfl
    rw [List.length_append, List.length_append, separator] at fits
    have first : Leads limit (reading .manDesc whatis (w ++ (ascii ", " ++ (text ++ newline :: rest)))) _ :=
      leads_plainWord whatis (space :: (text ++ newline :: rest)) named word comma_ne.1 comma_ne.2 rfl
        (fits.mono (by omega))
    have second := turn_comma (whatis ++ w) more named head (fits.mono (by rw [List.length_append]; omega))
    have third := ih (whatis ++ w ++ ascii ", ") (fits.mono (by simp only [List.length_append, separator]; omega))
    rw [← shape] at second
    rw [List.append_assoc, List.append_assoc]
    refine first.trans ((Leads.turn second).trans ?_)
    simpa only [List.append_assoc] using third

/-- The names of a page, with commas between them. -/
def namesText (first : Bytes) (more : List Bytes) : Bytes := first ++ more.flatMap (ascii ", " ++ ·)

/-- A page with a NAME section on one line, and a section behind it. -/
def plainPage (first : Bytes) (more : List Bytes) (text rest : Bytes) : Bytes :=
  ascii ".SH NAME\n" ++ namesText first more ++ ascii " \\- " ++ text ++ ascii "\n.SH" ++ rest

/-- What follows a name is a comma, or the space before the dash. -/
theorem namesText_rest (more : List Bytes) (rest : Bytes) : ∃ e behind,
    more.flatMap (ascii ", " ++ ·) ++ space :: rest = e :: behind ∧ e ≠ backslash ∧ e ≠ dash ∧ isAlnum e = false := by
  cases more with
  | nil => exact ⟨space, rest, rfl, by decide, by decide, rfl⟩
  | cons name more => exact ⟨comma, _, rfl, by decide, by decide, rfl⟩

theorem leads_more (whatis rest : Bytes) {more : List Bytes} (words : ∀ name ∈ more, PlainWord name)
    (fits : Fits limit (whatis.length + (more.flatMap (ascii ", " ++ ·)).length)) :
    Leads limit (reading .manName whatis (more.flatMap (ascii ", " ++ ·) ++ space :: rest))
      (reading .manName (whatis ++ more.flatMap (ascii ", " ++ ·)) (space :: rest)) := by
  have named : Start.manName ∈ nameDesc := List.mem_cons_self
  induction more generalizing whatis with
  | nil =>
    rw [List.flatMap_nil, List.nil_append, List.append_nil]
    exact .refl _
  | cons name more ih =>
    obtain ⟨word, words⟩ := List.forall_mem_cons.mp words
    have separator : (ascii ", ").length = 2 := rfl
    rw [List.flatMap_cons, List.length_append, List.length_append, separator] at fits
    obtain ⟨e, behind, shape, notBackslash, notDash, stops⟩ := namesText_rest more rest
    obtain ⟨d, rest', head, plain⟩ := word.head (e :: behind)
    have first := turn_comma whatis rest' named plain (fits.mono (by omega))
    have second := leads_plainWord (whatis ++ ascii ", ") behind named word notBackslash notDash stops
      (fits.mono (by rw [List.length_append, separator]; omega))
    have third := ih (whatis ++ ascii ", " ++ name) words
      (fits.mono (by simp only [List.length_append, separator]; omega))
    rw [← head] at first
    rw [← shape] at first second
    rw [List.flatMap_cons, List.append_assoc, List.append_assoc]
    refine (Leads.turn first).trans (second.trans ?_)
    simpa only [List.append_assoc] using third

/-- The heading is passed, and the first byte of the first name is taken with the newline before it. -/
theorem leads_heading (rest : Bytes) (initial : isInitial c = true) (fits : Fits limit 1) :
    Leads limit (Scanner.init .manpage (ascii ".SH NAME\n" ++ c :: rest)) (reading .manName [c] rest) := by
  have heading : nextToken .manFile (ascii ".SH NAME" ++ newline :: c :: rest) =
      some ([.begin .manPrename], (ascii ".SH NAME").length) := nextToken_heading initial
  have prename : nextToken .manPrename ([newline] ++ c :: rest) =
      some ([.yyless 0, .begin .manName], [newline].length) := nextToken_prename initial
  have line : nextToken .manName ([newline, c] ++ rest) = some ([.newlineFound, .addChar .last], [newline, c].length) :=
    nextToken_newline initial
  have first : turn limit (reading .manFile [] (ascii ".SH NAME" ++ newline :: c :: rest)) =
      reading .manPrename [] ([newline] ++ c :: rest) := turn_reading (by decide) heading
  have second : turn limit (reading .manPrename [] ([newline] ++ c :: rest)) =
      reading .manName [] ([newline, c] ++ rest) := turn_reading (List.cons_ne_nil _ _) prename
  have third : turn limit (reading .manName [] ([newline, c] ++ rest)) = reading .manName [c] rest :=
    (turn_reading (List.cons_ne_nil _ _) line).trans (addChar_reading fits)
  exact (Leads.turn first).trans ((Leads.turn second).trans (.turn third))

/-- The dash behind a name becomes the separator. -/
theorem turn_dash (whatis rest : Bytes) {b : UInt8} (last : b ≠ space) (plain : isPlain d = true)
    (fits : Fits limit ((whatis ++ [b]).length + 3)) :
    turn limit (reading .manName (whatis ++ [b]) (ascii " \\- " ++ d :: rest)) =
      reading .manDesc (whatis ++ [b] ++ ascii " - ") (d :: rest) := by
  have token : nextToken .manName (ascii " \\- " ++ d :: rest) =
      some ([.addSeparator, .begin .manDesc], (ascii " \\- ").length) := nextToken_dash plain
  have needs : (reading .manName (whatis ++ [b]) (d :: rest)).needsSpace = true := by
    simp [Scanner.needsSpace, reading, last]
  have separated : (reading .manName (whatis ++ [b]) (d :: rest)).addSeparator limit =
      reading .manName (whatis ++ [b] ++ ascii " - ") (d :: rest) := by
    rw [Scanner.addSeparator, if_pos needs, addChar_reading (fits.mono (Nat.add_le_add_left (by decide) _))]
    refine (addStr_reading (w := ascii "- ") (by decide) (fits.mono ?_)).trans ?_
    · rw [List.length_append]
      exact Nat.le_refl _
    · rw [List.append_assoc _ [space]]
      rfl
  rw [turn_reading (by decide) token]
  simp only [runAction, List.foldl_cons, List.foldl_nil, runOp, separated]
  rfl

/-- The section behind the description ends the text. -/
theorem turn_section (whatis rest : Bytes) (fits : Fits limit whatis.length) :
    ∃ left, turn limit (reading .manDesc whatis (ascii "\n.SH" ++ rest)) = reading .manRest whatis left := by
  obtain ⟨n, token⟩ := nextToken_section rest
  have next : nextAction (reading .manDesc whatis (ascii "\n.SH" ++ rest)) =
      some ([.terminate, .begin .manRest], _, _) := nextAction_token rfl (List.cons_ne_nil _ _) token
  refine ⟨(ascii "\n.SH" ++ rest).drop n, (turn_eq next limit).trans ?_⟩
  have room : limit.any (· ≤ whatis.length) = false := fits
  simp only [runAction, List.foldl_cons, List.foldl_nil, runOp, Scanner.terminate, Scanner.begin, Scanner.leave,
    reading, Scanner.init, room]
  rfl

/-- The text has been terminated, and the scan goes on or has returned without an error. -/
def Behind (whatis : Bytes) (s : Scanner) : Prop :=
  s.whatis = whatis ∧ (s.result = none ∧ s.start = .manRest ∨ s.result = some 0)

/-- Behind the NAME section a scan looks for filters only. -/
theorem rulesOf_manRest : ∀ rule ∈ rulesOf .manRest, ∀ op ∈ rule.2.2, ∃ f, op = .filter f := by
  have each : (rulesOf .manRest).all (fun rule => rule.2.2.all fun op => match op with
      | .filter _ => true
      | _ => false) = true := by
    decide +kernel
  intro rule member op inAction
  have filter := List.all_eq_true.mp (List.all_eq_true.mp each rule member) op inAction
  cases op with
  | filter f => exact ⟨f, rfl⟩
  | _ => cases filter

theorem runAction_behind {action : List Op} (filters : ∀ op ∈ action, ∃ f, op = .filter f) (behind : Behind whatis s) :
    Behind whatis (runAction limit text action s) := by
  induction action generalizing s with
  | nil => exact behind
  | cons op action ih =>
    obtain ⟨here, later⟩ := List.forall_mem_cons.mp filters
    obtain ⟨f, rfl⟩ := here
    exact ih later behind

theorem turn_behind (behind : Behind whatis s) : Behind whatis (turn limit s) := by
  unfold turn
  split
  · exact behind
  · rename_i action text rest next
    have running : ¬s.result.isSome = true := by
      intro returned
      rw [nextAction, if_pos returned] at next
      cases next
    obtain ⟨same, ⟨_, start⟩ | ended⟩ := behind
    · have none : s.result = none := Option.not_isSome_iff_eq_none.mp running
      rw [nextAction, if_neg running] at next
      split at next
      · obtain ⟨rfl, -⟩ := Prod.mk.inj (Option.some.inj next)
        rw [start]
        exact ⟨same, Or.inr rfl⟩
      · obtain ⟨⟨action', n⟩, token, found⟩ := Option.map_eq_some_iff.mp next
        obtain ⟨rfl, -⟩ := Prod.mk.inj found
        obtain ⟨⟨chosen, m⟩, selected, whole⟩ := Option.map_eq_some_iff.mp token
        obtain ⟨rfl, -⟩ := Prod.mk.inj whole
        obtain ⟨pattern, member, _⟩ := Regex.select_mem selected
        rw [start] at member
        exact runAction_behind (rulesOf_manRest _ member) ⟨same, Or.inl ⟨none, start⟩⟩
    · exact absurd (by rw [ended]; rfl) running

variable (limit) in
theorem turns_behind (behind : Behind whatis s) (n : Nat) : Behind whatis ((turn limit)^[n] s) :=
  Function.Iterate.rec (Behind whatis ·) behind (fun _ behind => turn_behind behind) n

end ManDb.Lexgrog
