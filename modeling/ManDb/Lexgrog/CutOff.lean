import ManDb.Lexgrog.Appends

namespace ManDb.Lexgrog

open Regex

/-- An append of an action has no room, and the action begins a start condition with it or behind it. -/
def Slips (text : Bytes) : List Op → Scanner → Prop
  | [], _ => False
  | op :: action, s =>
    if op.needs text s < maxName then Slips text action (runOp none text op s)
    else ∃ later ∈ op :: action, later.switches s = true

/-- The action of the turn that comes next does. -/
def TurnSlips (s : Scanner) : Prop :=
  ∃ action text rest, nextAction s = some (action, text, rest) ∧ Slips text action (s.leave rest)

/-- The statements that ask for room. -/
def Op.appends : Op → Bool
  | .newlineFound | .addStr _ | .addChar _ | .addSeparator | .addWordn _ | .addWord _ | .addGlyph _ | .addPerldoc _
  | .mdocText _ => true
  | _ => false

def Op.begins : Op → Bool
  | .begin _ | .mdocText _ => true
  | _ => false

/-- The actions of the rules: they append nothing, or begin a start condition at their end, or make one
append, perhaps for a new line that they have found. -/
def shaped (action : List Op) : Bool :=
  action.all (!·.appends) || action.getLast?.any Op.begins || action.length == 1 ||
    action == [.newlineFound, .waitForQuote] || action == [.newlineFound, .addChar .last]

theorem rules_shaped : ∀ rule ∈ rules, shaped rule.action = true := by
  decide +kernel

variable {s t b u : Scanner} {text rest : Bytes} {action : List Op} {op : Op} {start : Start}

theorem nextToken_shaped {n : Nat} (next : nextToken start rest = some (action, n)) : shaped action = true := by
  obtain ⟨⟨⟨trailing, found⟩, m⟩, selected, same⟩ := Option.map_eq_some_iff.mp next
  obtain ⟨rfl, _⟩ := Prod.mk.inj same
  obtain ⟨pattern, member, _⟩ := select_mem selected
  rcases List.mem_append.mp member with listed | default
  · obtain ⟨rule, inRules, same⟩ := List.mem_map.mp listed
    obtain ⟨_, same⟩ := Prod.mk.inj same
    obtain ⟨_, rfl⟩ := Prod.mk.inj same
    exact rules_shaped rule (List.mem_of_mem_filter inRules)
  · obtain ⟨_, same⟩ := Prod.mk.inj (List.mem_singleton.mp default)
    obtain ⟨_, rfl⟩ := Prod.mk.inj same
    rfl

theorem nextAction_shaped (next : nextAction s = some (action, text, rest)) : shaped action = true := by
  unfold nextAction at next
  split at next
  · cases next
  · split at next
    · obtain ⟨rfl, _⟩ := Prod.mk.inj (Option.some.inj next)
      cases s.start <;> rfl
    · obtain ⟨⟨found, n⟩, token, same⟩ := Option.map_eq_some_iff.mp next
      obtain ⟨rfl, _⟩ := Prod.mk.inj same
      exact nextToken_shaped token

theorem runAction_within (within : s.Within) (text : Bytes) (action : List Op) :
    (runAction (some maxName) text action s).Within := by
  induction action generalizing s with
  | nil => exact within
  | cons op action ih => exact ih (runOp_within within text op)

theorem runAction_longer (s : Scanner) (text : Bytes) (action : List Op) : s.Longer (runAction none text action s) := by
  induction action generalizing s with
  | nil => exact .refl s
  | cons op action ih => exact (runOp_longer s text op).trans (ih _)

theorem turn_within (within : s.Within) : (turn (some maxName) s).Within := by
  unfold turn
  split
  · exact within
  · rename_i action text rest next
    have left : (s.leave rest).Within := ⟨within.room, within.inside⟩
    exact runAction_within left text action

theorem turn_longer (s : Scanner) : s.Longer (turn none s) := by
  unfold turn
  split
  · exact .refl s
  · rename_i action text rest next
    have longer := runAction_longer (s.leave rest) text action
    exact ⟨longer.text, longer.calm⟩

/-- Up to the first append without room the size of the buffer does not matter, and nothing behind that
append switches the start condition. -/
theorem runAction_upTo (within : s.Within) (clean : ¬Slips text action s) :
    runAction (some maxName) text action s = runAction none text action s ∨
      ∃ front op back t, action = front ++ op :: back ∧ t = runAction none text front s ∧
        t = runAction (some maxName) text front s ∧ t.Within ∧ maxName ≤ op.needs text t ∧
        ∀ later ∈ op :: back, later.switches t = false := by
  induction action generalizing s with
  | nil => exact Or.inl rfl
  | cons op action ih =>
    obtain ⟨stop, grows, _⟩ := runOp_grows within text op
    rw [Slips] at clean
    split at clean
    · rename_i room
      have same : runOp (some maxName) text op s = runOp none text op s := grows.fits room
      rcases ih (same ▸ grows.within) clean with equal | ⟨front, next, back, t, rfl, unlimited, bounded, rest⟩
      · refine Or.inl ?_
        simp only [runAction, List.foldl_cons] at equal ⊢
        rw [same]
        exact equal
      · refine Or.inr ⟨op :: front, next, back, t, rfl, unlimited, ?_, rest⟩
        simp only [runAction, List.foldl_cons] at bounded ⊢
        rw [same]
        exact bounded
    · rename_i full
      refine Or.inr ⟨[], op, action, s, rfl, rfl, rfl, within, Nat.not_lt.mp full, fun later member => ?_⟩
      rw [← Bool.not_eq_true]
      exact fun switches => clean ⟨later, member, switches⟩

theorem Op.needs_quiet (quiet : op.appends = false) (text : Bytes) (s : Scanner) : op.needs text s = 0 := by
  cases op <;> first | rfl | cases quiet

theorem Op.switches_begins (begins : op.begins = true) (s : Scanner) : op.switches s = true := by
  cases op <;> first | rfl | cases begins

/-- What may stand behind an append if no start condition begins there. -/
theorem shaped_append {front back : List Op} (shape : shaped (front ++ op :: back) = true) (asks : op.appends = true)
    (static : ∀ later ∈ op :: back, later.switches t = false) :
    back = [] ∨ back = [.waitForQuote] ∨ op = .newlineFound ∧ back = [.addChar .last] := by
  simp only [shaped, Bool.or_eq_true, beq_iff_eq] at shape
  rcases shape with (((quiet | last) | one) | quote) | line
  · have silent := List.all_eq_true.mp quiet op (by simp)
    simp [asks] at silent
  · rw [List.getLast?_append_of_ne_nil _ (List.cons_ne_nil op back)] at last
    cases isLast : (op :: back).getLast? with
    | none => simp [isLast] at last
    | some last' =>
      have begins : last'.begins = true := by simpa [isLast] using last
      have switched := Op.switches_begins begins t
      rw [static last' (List.mem_of_getLast? isLast)] at switched
      cases switched
  · rw [List.length_append, List.length_cons] at one
    exact Or.inl (List.eq_nil_of_length_eq_zero (by omega))
  · cases front with
    | nil => exact Or.inr (Or.inl (List.cons_eq_cons.mp quote).2)
    | cons first front =>
      cases front with
      | nil => exact Or.inl (List.cons_eq_cons.mp (List.cons_eq_cons.mp quote).2).2
      | cons second front => simp at quote
  · cases front with
    | nil => exact Or.inr (Or.inr (List.cons_eq_cons.mp line))
    | cons first front =>
      cases front with
      | nil => exact Or.inl (List.cons_eq_cons.mp (List.cons_eq_cons.mp line).2).2
      | cons second front => simp at line

/-- A line that has no room for its space has none for its first character either. -/
theorem newlineFound_addChar_cut (within : t.Within) (full : maxName ≤ t.spaced)
    (cut : t.Cut .forceExit (t.newlineFound (some maxName)) (t.newlineFound none)) (c : UInt8) :
    t.Cut .forceExit ((t.newlineFound (some maxName)).addChar (some maxName) c)
      ((t.newlineFound none).addChar none c) := by
  have room := within.room
  have last : maxName ≤ (t.newlineFound (some maxName)).whatis.length + 1 := by
    have longer := cut.front.length_le
    unfold Scanner.spaced at full
    split at full <;> omega
  have again : (t.newlineFound (some maxName)).addChar (some maxName) c = (t.newlineFound (some maxName)).tooBig :=
    if_pos (decide_eq_true last)
  rw [again]
  exact cut.again (Scanner.longer_addChar _ c)

/-- The size of the buffer does not matter for an action, or the scanner is forced to exit. -/
theorem runAction_cut (within : s.Within) (shape : shaped action = true) (clean : ¬Slips text action s) :
    runAction (some maxName) text action s = runAction none text action s ∨
      s.Cut .forceExit (runAction (some maxName) text action s) (runAction none text action s) := by
  rcases runAction_upTo within clean with same | ⟨front, op, back, t, rfl, unlimited, bounded, inside, full, static⟩
  · exact Or.inl same
  refine Or.inr ?_
  obtain ⟨stop, grows, forced⟩ := runOp_grows inside text op
  have cut := grows.cuts full
  rw [forced (static op (List.mem_cons_self ..))] at cut
  have asks : op.appends = true := by
    rw [← Bool.not_eq_false]
    intro quiet
    rw [Op.needs_quiet quiet] at full
    exact absurd full (by decide)
  have longer : s.Longer t := unlimited ▸ runAction_longer s text front
  have split (limit : Option Nat) : runAction limit text (front ++ op :: back) s =
      runAction limit text back (runOp limit text op (runAction limit text front s)) := by
    simp only [runAction, List.foldl_append, List.foldl_cons]
  rw [split, split, ← unlimited, ← bounded]
  suffices rest : t.Cut .forceExit (runAction (some maxName) text back (runOp (some maxName) text op t))
      (runAction none text back (runOp none text op t)) from
    rest.of_longer longer
  rcases shaped_append shape asks static with rfl | rfl | ⟨rfl, rfl⟩
  · exact cut
  · exact ⟨cut.warned, cut.start, cut.front, cut.text⟩
  · exact newlineFound_addChar_cut inside full cut _

theorem rulesOf_forceExit :
    rulesOf .forceExit = [(anything, 0, [.terminate, .ret 0]), (defaultRule, 0, [])] := by
  rfl

/-- Whatever comes ends a scan that is forced to exit. -/
theorem nextToken_forceExit (more : rest ≠ []) : ∃ n, nextToken .forceExit rest = some ([.terminate, .ret 0], n) := by
  obtain ⟨c, rest, rfl⟩ := List.exists_cons_of_ne_nil more
  have first : (c :: rest).take 1 ∈ anything.lang := by
    by_cases end_ : c = newline
    · exact Or.inr ⟨[], Or.inr rfl, [newline], ⟨newline, rfl, rfl⟩, by simp [end_]⟩
    · exact Or.inl ⟨c, by simpa using end_, rfl⟩
  obtain ⟨n, longest, positive⟩ := longest_max (by simp) first
  have selected : select (c :: rest) (rulesOf .forceExit) = some ((0, [.terminate, .ret 0]), n) := by
    rw [select_eq_some_iff, rulesOf_forceExit]
    refine ⟨[], anything, [(defaultRule, 0, [])], rfl, longest, by simp, fun rule member m found => ?_⟩
    rw [List.mem_singleton.mp member] at found
    obtain ⟨le, _, _, single⟩ := longest_sound found
    have one := congrArg List.length single
    rw [List.length_take, Nat.min_eq_left le] at one
    exact one ▸ positive
  exact ⟨n - 0, by rw [nextToken, selected]; rfl⟩

theorem turn_ended (ended : s.result.isSome) (limit : Option Nat) : turn limit s = s := by
  have done : nextAction s = none := if_pos ended
  rw [turn, done]

theorem turn_forceExit (start : s.start = .forceExit) (running : s.result.isSome = false) (limit : Option Nat) :
    (turn limit s).whatis = s.whatis ∧ (turn limit s).warnings = s.warnings ∧ (turn limit s).result.isSome := by
  by_cases done : s.rest = []
  · have next : nextAction s = some ([.ret 1], [], []) := by
      rw [nextAction, if_neg (by simp [running]), if_pos done, start]
      rfl
    rw [turn, next]
    exact ⟨rfl, rfl, rfl⟩
  · obtain ⟨n, token⟩ := nextToken_forceExit done
    have next : nextAction s = some ([.terminate, .ret 0], s.rest.take n, s.rest.drop n) := by
      rw [nextAction, if_neg (by simp [running]), if_neg done, start, token]
      rfl
    rw [turn, next]
    exact ⟨rfl, rfl, rfl⟩

/-- A scan with the buffer of the program beside one with a buffer without an end. -/
def Lockstep (bounded unlimited : Scanner) : Prop :=
  bounded = unlimited ∧ bounded.warnings = 0 ∨
    0 < bounded.warnings ∧ (bounded.start = .forceExit ∨ bounded.result.isSome) ∧ bounded.whatis <+: unlimited.whatis

theorem Lockstep.whatis (lock : Lockstep b u) : b.whatis <+: u.whatis := by
  rcases lock with ⟨rfl, _⟩ | ⟨_, _, text⟩
  · exact List.prefix_refl _
  · exact text

/-- A scan that has been cut off appends nothing more, and ends. -/
theorem turn_cutOff (forced : b.start = .forceExit ∨ b.result.isSome) (limit : Option Nat) :
    (turn limit b).whatis = b.whatis ∧ (turn limit b).warnings = b.warnings ∧ (turn limit b).result.isSome := by
  cases running : b.result.isSome with
  | true => simp [turn_ended running, running]
  | false => exact turn_forceExit (forced.resolve_right (by simp [running])) running limit

theorem turn_lockstep (within : b.Within) (lock : Lockstep b u) (clean : ¬TurnSlips b) :
    Lockstep (turn (some maxName) b) (turn none u) := by
  rcases lock with ⟨rfl, calm⟩ | ⟨warned, forced, text⟩
  · unfold turn
    cases next : nextAction b with
    | none => exact Or.inl ⟨rfl, calm⟩
    | some found =>
      obtain ⟨action, text, rest⟩ := found
      have left : (b.leave rest).Within := ⟨within.room, within.inside⟩
      have longer := runAction_longer (b.leave rest) text action
      rcases runAction_cut left (nextAction_shaped next) fun slips => clean ⟨action, text, rest, next, slips⟩ with
        same | cut
      · exact Or.inl ⟨same, (congrArg Scanner.warnings same).trans (longer.calm.trans calm)⟩
      · exact Or.inr ⟨Nat.zero_lt_of_lt cut.warned, Or.inl cut.start, cut.text⟩
  · obtain ⟨same, warnings, ended⟩ := turn_cutOff forced (some maxName)
    exact Or.inr ⟨warnings ▸ warned, Or.inr ended, same ▸ text.trans (turn_longer u).text⟩

theorem scan_within (type : PageType) (page : Bytes) (turns : Nat) : (scan (some maxName) type page turns).Within := by
  induction turns with
  | zero => exact ⟨(by decide : 0 < maxName), rfl⟩
  | succ turns ih =>
    rw [scan_succ]
    exact turn_within ih

theorem scan_lockstep {type : PageType} {page : Bytes} {turns : Nat}
    (clean : ∀ earlier < turns, ¬TurnSlips (scan (some maxName) type page earlier)) :
    Lockstep (scan (some maxName) type page turns) (scan none type page turns) := by
  induction turns with
  | zero => exact Or.inl ⟨rfl, rfl⟩
  | succ turns ih =>
    rw [scan_succ, scan_succ]
    exact turn_lockstep (scan_within type page turns) (ih fun earlier before => clean earlier (Nat.lt_succ_of_lt before))
      (clean turns (Nat.lt_succ_self turns))

theorem wordRules_manName :
    (rulesOf .manName).filter (·.2 = (0, [.addStr .yytext])) = [(.star (.one isAlnum), 0, [.addStr .yytext])] := by
  rfl

theorem otherRules_manName : ∀ rule ∈ rulesOf .manName,
    rule.2 = (0, [.addStr .yytext]) ∨ rule.1.dead [97, 97] = true := by
  decide +kernel

/-- A long word is passed as a chunk. -/
theorem nextToken_word (n : Nat) {tail : Bytes} (stops : ∀ b ∈ tail.head?, isAlnum b = false) :
    nextToken .manName (List.replicate (n + 2) 97 ++ tail) = some ([.addStr .yytext], n + 2) := by
  have all : ∀ b ∈ List.replicate (n + 2) (97 : UInt8), isAlnum b = true := fun b member => by
    rw [List.eq_of_mem_replicate member]
    rfl
  have longest : (Regex.star (.one isAlnum)).longest (List.replicate (n + 2) 97 ++ tail) = some (n + 2) := by
    rw [longest_star_one all stops, List.length_replicate]
  have listed : (Regex.star (.one isAlnum), 0, [.addStr .yytext]) ∈ rulesOf .manName :=
    List.mem_of_mem_filter (p := (·.2 = (0, [.addStr .yytext]))) (wordRules_manName ▸ List.mem_singleton_self _)
  obtain ⟨best, m, selected, le⟩ := select_max listed longest
  obtain ⟨pattern, member, found⟩ := select_mem selected
  rcases otherRules_manName _ member with same | dead
  · have word : (pattern, best) ∈ (rulesOf .manName).filter (·.2 = (0, [.addStr .yytext])) :=
      List.mem_filter.mpr ⟨member, decide_eq_true same⟩
    rw [wordRules_manName, List.mem_singleton, Prod.mk.injEq] at word
    rw [word.1, longest, Option.some.injEq] at found
    rw [nextToken, selected, word.2, ← found]
    rfl
  · have short : m < 2 := longest_lt_of_dead dead found
    omega

theorem turn_word {n : Nat} {tail : Bytes} (start : s.start = .manName) (running : s.result = none)
    (shape : s.rest = List.replicate (n + 2) 97 ++ tail) (stops : ∀ b ∈ tail.head?, isAlnum b = false)
    {limit : Option Nat} (room : limit.any (· ≤ s.whatis.length + (n + 2)) = false) :
    turn limit s =
      { s with rest := tail, whatis := s.whatis ++ List.replicate (n + 2) 97
               storedOutside := s.storedOutside || limit.any (· < s.whatis.length + (n + 2)) } := by
  have next : nextAction s = some ([.addStr .yytext], List.replicate (n + 2) 97, tail) := by
    have token := nextToken_word n stops
    rw [← start, ← shape] at token
    rw [nextAction_token running (by simp [shape]) token, shape, List.take_left' List.length_replicate,
      List.drop_left' List.length_replicate]
  have bytes : strncpy (List.replicate (n + 2) 97) (n + 2) = List.replicate (n + 2) 97 := by
    have nulFree : 0 ∉ List.replicate (n + 2) (97 : UInt8) := fun nul => by cases List.eq_of_mem_replicate nul
    have copied := strncpy_nulFree nulFree
    rwa [List.length_replicate] at copied
  rw [turn_eq next]
  simp only [runAction, List.foldl_cons, List.foldl_nil, runOp, Operand.string, Operand.length, List.length_replicate,
    Scanner.addStr, Scanner.store, Scanner.leave, bytes, room, Bool.false_eq_true, if_false]

/-- The first turns of a scan whose page has a name that starts with a letter. -/
theorem scan_heading {limit : Option Nat} (either : limit = some maxName ∨ limit = none) {body : Bytes}
    (heading : nextToken .manFile (ascii ".SH NAME\n" ++ 97 :: body) = some ([.begin .manPrename], 8))
    (inPrename : nextToken .manPrename (newline :: 97 :: body) = some ([.yyless 0, .begin .manName], 1))
    (inName : nextToken .manName (newline :: 97 :: body) = some ([.newlineFound, .addChar .last], 2)) :
    scan limit .manpage (ascii ".SH NAME\n" ++ 97 :: body) 3 =
      { Scanner.init .manpage body with start := .manName, whatis := [97] } := by
  have first : turn limit (Scanner.init .manpage (ascii ".SH NAME\n" ++ 97 :: body)) =
      { Scanner.init .manpage (newline :: 97 :: body) with start := .manPrename } :=
    (turn_eq (nextAction_token rfl (List.cons_ne_nil _ _) heading) limit).trans rfl
  have second : turn limit { Scanner.init .manpage (newline :: 97 :: body) with start := .manPrename } =
      { Scanner.init .manpage (newline :: 97 :: body) with start := .manName } :=
    (turn_eq (nextAction_token rfl (List.cons_ne_nil _ _) inPrename) limit).trans rfl
  have third : turn limit { Scanner.init .manpage (newline :: 97 :: body) with start := .manName } =
      { Scanner.init .manpage body with start := .manName, whatis := [97] } := by
    refine (turn_eq (nextAction_token rfl (List.cons_ne_nil _ _) inName) limit).trans ?_
    rcases either with rfl | rfl <;> rfl
  simp only [scan, Function.iterate_succ_apply, Function.iterate_zero_apply, first, second, third]

/-- What follows the first letter of a name of 8189 letters. -/
def longBody : Bytes := List.replicate (8186 + 2) 97 ++ ascii " \\- x"

def longPage : Bytes := ascii ".SH NAME\n" ++ 97 :: longBody

/-- The name of this page. -/
def longName : Bytes := [97] ++ List.replicate (8186 + 2) 97

/-- A scan that has read a name, before the dash and the description. -/
def dashed (whatis : Bytes) : Scanner :=
  { Scanner.init .manpage (ascii " \\- x") with start := .manName, whatis := whatis }

theorem scan_longName {limit : Option Nat} (either : limit = some maxName ∨ limit = none) :
    scan limit .manpage longPage 4 = dashed longName := by
  have heading : scan limit .manpage longPage 3 =
      { Scanner.init .manpage longBody with start := .manName, whatis := [97] } :=
    scan_heading either (by decide +kernel) (by decide +kernel) (by decide +kernel)
  have shape : longBody = List.replicate (8186 + 2) 97 ++ ascii " \\- x" := rfl
  have stops : ∀ b ∈ (ascii " \\- x").head?, isAlnum b = false := fun b first => by
    obtain rfl := Option.some.inj first
    rfl
  rw [scan_succ, heading]
  refine (turn_word rfl rfl shape stops ?_).trans ?_
  · rcases either with rfl | rfl <;> decide
  · rcases either with rfl | rfl <;> rfl

theorem turn_dashed (limit : Option Nat) (whatis : Bytes) :
    turn limit (dashed whatis) = (((dashed whatis).leave (ascii "x")).addSeparator limit).begin .manDesc := by
  have token : nextToken .manName (ascii " \\- x") = some ([.addSeparator, .begin .manDesc], 4) := by decide +kernel
  exact turn_eq (nextAction_token (s := dashed whatis) rfl (List.cons_ne_nil _ _) token) limit

/-- The end of a page that ends with its description. -/
theorem turns_eof (start : s.start = .manDesc) (running : s.result = none) (done : s.rest = []) (limit : Option Nat) :
    (turn limit (turn limit s)).whatis = s.whatis ∧ (turn limit (turn limit s)).result = some 0 := by
  have first : nextAction s = some ([.terminate, .begin .manRest], [], []) := by
    rw [nextAction, if_neg (by simp [running]), if_pos done, start]
    rfl
  have second : nextAction (((s.leave []).terminate limit).begin .manRest) = some ([.terminate, .ret 0], [], []) := by
    have goes : ¬(((s.leave []).terminate limit).begin .manRest).result.isSome = true := by
      simp [Scanner.leave, Scanner.terminate, Scanner.begin, running]
    rw [nextAction, if_neg goes]
    rfl
  have step : turn limit s = ((s.leave []).terminate limit).begin .manRest := turn_eq first limit
  rw [step, turn_eq second]
  exact ⟨rfl, rfl⟩

/-- The last word of a page, in its description. -/
theorem turns_described (start : s.start = .manDesc) (running : s.result = none) (last : s.rest = ascii "x")
    {limit : Option Nat} (room : limit.any (· ≤ s.whatis.length + 1) = false) :
    ((turn limit)^[3] s).whatis = s.whatis ++ ascii "x" ∧ ((turn limit)^[3] s).result = some 0 := by
  have token : nextToken s.start s.rest = some ([.addStr .yytext], 1) := by
    rw [start, last]
    decide +kernel
  have more : s.rest ≠ [] := by
    rw [last]
    decide
  have next : nextAction s = some ([.addStr .yytext], ascii "x", []) := by
    rw [nextAction_token running more token, last]
    rfl
  have step : turn limit s = (s.leave []).store limit (ascii "x") := by
    rw [turn_eq next]
    exact if_neg (by rw [Bool.not_eq_true]; exact room)
  obtain ⟨whatis, result⟩ := turns_eof (s := (s.leave []).store limit (ascii "x")) start running rfl limit
  simp only [Function.iterate_succ_apply, Function.iterate_zero_apply, step]
  exact ⟨whatis, result⟩

/-- The separator behind a name of 8189 letters. -/
theorem addSeparator_full (length : s.whatis.length = 8189) (letter : s.needsSpace = true) :
    s.addSeparator (some maxName) = (s.store (some maxName) [space]).tooBig ∧
      s.addSeparator none = (s.store none [space]).store none (ascii "- ") := by
  have room : ¬(some maxName).any (· ≤ s.whatis.length + 1) = true := by
    rw [length]
    decide
  have spaced (limit : Option Nat) (room : ¬limit.any (· ≤ s.whatis.length + 1) = true) :
      s.addChar limit space = s.store limit [space] :=
    (if_neg room).trans (if_neg fun (both : s.waitingForQuote ∧ space = 34) => absurd both.2 (by decide))
  have full : (some maxName).any (· ≤ (s.store (some maxName) [space]).whatis.length + 2) = true := by
    rw [Scanner.store, List.length_append, length]
    decide
  unfold Scanner.addSeparator
  rw [if_pos letter, if_pos letter, spaced (some maxName) room, spaced none Bool.false_ne_true]
  exact ⟨if_pos full, rfl⟩

/-- The rest of the scan behind such a name. -/
theorem scan_longPage {limit : Option Nat} (either : limit = some maxName ∨ limit = none) {dash : Scanner}
    (separator : ((dashed longName).leave (ascii "x")).addSeparator limit = dash) (running : dash.result = none)
    (last : dash.rest = ascii "x") (room : limit.any (· ≤ dash.whatis.length + 1) = false) :
    scan limit .manpage longPage 5 = dash.begin .manDesc ∧
      (scan limit .manpage longPage 8).whatis = dash.whatis ++ ascii "x" ∧
      (scan limit .manpage longPage 8).result = some 0 := by
  have five : scan limit .manpage longPage 5 = dash.begin .manDesc := by
    rw [scan_succ, scan_longName either, turn_dashed, separator]
  have eight : scan limit .manpage longPage 8 = (turn limit)^[3] (dash.begin .manDesc) := by
    rw [← five]
    exact Function.iterate_add_apply (turn limit) 3 5 _
  rw [eight]
  exact ⟨five, turns_described (s := dash.begin .manDesc) rfl running last room⟩

end ManDb.Lexgrog
