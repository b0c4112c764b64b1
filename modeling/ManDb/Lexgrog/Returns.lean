import ManDb.Lexgrog.Scan
import ManDb.Lib.Loop

namespace ManDb.Lexgrog

open Regex

/-- How many times a scan can go on to another start condition without taking anything from the page. -/
def Start.rank : Start → Nat
  | .manName | .manDesc => 1
  | .manRest | .forceExit | .catFile | .manFile | .catName | .catRest => 0
  | _ => 2

theorem Start.rank_le (start : Start) : start.rank ≤ 2 := by
  cases start <;> decide

def Op.takesBack : Op → Bool
  | .yyless _ => true
  | _ => false

/-- A rule takes something from the page, or it gives all of it back and goes on to a lower start condition. -/
def Rule.progresses (rule : Rule) : Bool :=
  match rule.action with
  | [.yyless 0, .begin start] => rule.starts.all fun from_ => start.rank < from_.rank
  | [.yyless 0, .mdocText _] => rule.starts.all fun from_ => 1 < from_.rank
  | [.yyless 1] => rule.trailing == 0
  | action => action.all (!·.takesBack) && (rule.trailing == 0 || rule.trailing < rule.pattern.minLength)

theorem rules_progress : ∀ rule ∈ rules, rule.progresses = true := by
  decide +kernel

/-- What is left to do: to take the rest of the page, and to go on to other start conditions. -/
def Scanner.left (s : Scanner) : Nat := 3 * s.rest.length + s.start.rank

variable {limit : Option Nat} {s : Scanner} {text : Bytes} {action : List Op} {n : Nat}

/-- Where less of the page is left, the start condition does not matter. -/
theorem Scanner.left_lt {t : Scanner} (shorter : t.rest.length < s.rest.length) : t.left < s.left := by
  have low := t.start.rank_le
  simp only [left]
  omega

theorem runOp_rest {op : Op} (takes : op.takesBack = false) (text : Bytes) (s : Scanner) :
    (runOp limit text op s).rest = s.rest := by
  cases op with
  | yyless => cases takes
  | newlineFound => exact s.kept_newlineFound.rest
  | addStr => exact (s.kept_addStr _ _).rest
  | addChar => exact (s.kept_addChar _).rest
  | addSeparator => exact s.kept_addSeparator.rest
  | addWordn => exact (s.kept_addWordn _ _).rest
  | addWord => exact (s.kept_addWordn _ _).rest
  | addGlyph => exact (s.kept_addMacro _ _ _).rest
  | addPerldoc => exact (s.kept_addMacro _ _ _).rest
  | mdocText => exact (s.kept_addWordn _ _).rest
  | _ => rfl

theorem runAction_rest (takes : action.all (!·.takesBack) = true) (text : Bytes) (s : Scanner) :
    (runAction limit text action s).rest = s.rest := by
  induction action generalizing s with
  | nil => rfl
  | cons op action ih =>
    simp only [List.all_cons, Bool.and_eq_true, Bool.not_eq_true'] at takes
    exact (ih takes.2 _).trans (runOp_rest takes.1 text s)

/-- There is always a rule, and its match is not empty. -/
theorem nextToken_isSome (start : Start) {rest : Bytes} (more : rest ≠ []) :
    ∃ token, select rest (rulesOf start) = some token ∧ 1 ≤ token.2 := by
  obtain ⟨c, rest, rfl⟩ := List.exists_cons_of_ne_nil more
  have default : defaultRule.longest (c :: rest) = some 1 := by
    have once : defaultRule.deriv c = .empty := rfl
    rw [longest_cons, once]
    cases rest <;> simp [longest, Regex.deriv, nullable]
  have member : (defaultRule, 0, []) ∈ rulesOf start := by simp [rulesOf]
  obtain ⟨best, m, selected, le⟩ := select_max member default
  exact ⟨(best, m), selected, le⟩

/-- What an action of a rule takes, or gives back to go on to a lower start condition. -/
theorem runAction_left {rule : Rule} (progresses : rule.progresses = true) (inStart : s.start ∈ rule.starts) {m : Nat}
    (found : rule.pattern.longest s.rest = some m) (nonempty : 1 ≤ m) :
      (runAction limit (s.rest.take (m - rule.trailing)) rule.action (s.leave (s.rest.drop (m - rule.trailing)))).left <
        s.left := by
  obtain ⟨starts, pattern, trailing, action⟩ := rule
  obtain ⟨le, _⟩ := longest_sound found
  have least := minLength_le_longest found
  simp only [Rule.progresses] at progresses
  dsimp only at found inStart least ⊢
  split at progresses
  · rename_i start
    simp only [List.all_eq_true, decide_eq_true_eq] at progresses
    simp only [runAction, List.foldl_cons, List.foldl_nil, runOp, Scanner.leave, Scanner.begin, Scanner.left,
      List.drop_zero, List.take_append_drop]
    exact Nat.add_lt_add_left (progresses _ inStart) _
  · rename_i string
    simp only [List.all_eq_true, decide_eq_true_eq] at progresses
    have lower := progresses _ inStart
    simp only [runAction, List.foldl_cons, List.foldl_nil, runOp, Scanner.leave, Scanner.mdocText, Scanner.begin,
      Scanner.left, Scanner.addWord, (Scanner.kept_addWordn _ _ _).rest, List.drop_zero, List.take_append_drop]
    exact Nat.add_lt_add_left lower _
  · simp only [beq_iff_eq] at progresses
    obtain rfl := progresses
    apply Scanner.left_lt
    simp only [runAction, List.foldl_cons, List.foldl_nil, runOp, Scanner.leave, List.length_append, List.length_drop,
      List.length_take]
    omega
  · rw [Bool.and_eq_true] at progresses
    have shorter : trailing < m := by
      rcases Bool.or_eq_true_iff.mp progresses.2 with none | less
      · rw [beq_iff_eq] at none
        omega
      · exact Nat.lt_of_lt_of_le (of_decide_eq_true less) least
    apply Scanner.left_lt
    rw [runAction_rest progresses.1, Scanner.leave, List.length_drop]
    omega

/-- At the end of the page the scan returns, or it goes on to the end of the rest of a page. -/
theorem runAction_eof (start : Start) (empty : s.rest = []) (same : s.start = start) :
    (runAction limit [] (eofAction start) (s.leave [])).result.isSome = true ∨
      (runAction limit [] (eofAction start) (s.leave [])).left < s.left := by
  cases start with
  | manPrename | manName | manDesc =>
    right
    simp [runAction, eofAction, runOp, Scanner.leave, Scanner.terminate, Scanner.begin, Scanner.left, empty, same,
      Start.rank]
  | _ => exact Or.inl rfl

/-- A turn returns, or it leaves less to do. -/
theorem turn_left (running : s.result = none) : (turn limit s).result.isSome = true ∨ (turn limit s).left < s.left := by
  by_cases empty : s.rest = []
  · have next : nextAction s = some (eofAction s.start, [], []) := by
      rw [nextAction, if_neg (by simp [running]), if_pos empty]
    rw [turn_eq next]
    exact runAction_eof s.start empty rfl
  · right
    obtain ⟨⟨⟨trailing, action⟩, m⟩, selected, nonempty⟩ := nextToken_isSome s.start empty
    obtain ⟨pattern, member, found⟩ := select_mem selected
    have token : nextToken s.start s.rest = some (action, m - trailing) := by
      rw [nextToken, selected]
      rfl
    rw [turn_eq (nextAction_token running empty token)]
    rcases List.mem_append.mp member with ofRule | default
    · obtain ⟨rule, inRules, equal⟩ := List.mem_map.mp ofRule
      obtain ⟨rfl, rest⟩ := Prod.mk.inj equal
      obtain ⟨rfl, rfl⟩ := Prod.mk.inj rest
      rw [List.mem_filter, decide_eq_true_eq] at inRules
      exact runAction_left (rules_progress rule inRules.1) inRules.2 found nonempty
    · obtain ⟨rfl, rest⟩ := Prod.mk.inj (List.mem_singleton.mp default)
      obtain ⟨rfl, rfl⟩ := Prod.mk.inj rest
      apply Scanner.left_lt
      have le := (longest_sound found).1
      simp only [runAction, List.foldl_nil, Scanner.leave, List.length_drop]
      omega

theorem turn_returned {s : Scanner} (returned : s.result.isSome = true) : turn limit s = s := by
  rw [turn, nextAction, if_pos returned]

/-- From any state of a scan, so many turns return. -/
theorem turns_return (enough : s.left < n) : ((turn limit)^[n] s).result.isSome = true :=
  Loop.iterate_reaches (·.result.isSome = true) Scanner.left
    (fun _ returned => (turn_returned returned).symm ▸ returned)
    (fun _ running => turn_left (Option.not_isSome_iff_eq_none.mp running)) enough

end ManDb.Lexgrog
