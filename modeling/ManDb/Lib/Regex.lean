import Mathlib.Computability.Language

open Computability

/-- Regular expressions over letters that are given by classes. -/
inductive Regex (α : Type*) where
  | never
  | empty
  | one (cls : α → Bool)
  | seq (first second : Regex α)
  | alt (first second : Regex α)
  | star (body : Regex α)

namespace Regex

variable {α ρ : Type*}

/-- The words that an expression stands for. -/
def lang : Regex α → Language α
  | never => 0
  | empty => 1
  | one cls => {w | ∃ a, cls a = true ∧ w = [a]}
  | seq r s => r.lang * s.lang
  | alt r s => r.lang + s.lang
  | star r => r.lang∗

/-- One after the other, where it shows at once that there is nothing, or nothing more. -/
def join : Regex α → Regex α → Regex α
  | never, _ => never
  | empty, s => s
  | r, s => seq r s

/-- One or the other likewise. -/
def either : Regex α → Regex α → Regex α
  | never, s => s
  | r, never => r
  | r, s => alt r s

def nullable : Regex α → Bool
  | never | one _ => false
  | empty | star _ => true
  | seq r s => r.nullable && s.nullable
  | alt r s => r.nullable || s.nullable

/-- What may follow a letter. -/
def deriv (a : α) : Regex α → Regex α
  | never | empty => never
  | one cls => if cls a then empty else never
  | seq r s => if r.nullable then either (join (r.deriv a) s) (s.deriv a) else join (r.deriv a) s
  | alt r s => either (r.deriv a) (s.deriv a)
  | star r => join (r.deriv a) (star r)

/-- The length of the longest beginning of a text that is one of the words. -/
def longest : Regex α → List α → Option Nat
  | never, _ => none
  | r, [] => if r.nullable then some 0 else none
  | r, a :: text => ((longest (r.deriv a) text).map (· + 1)).or (if r.nullable then some 0 else none)

/-- No word is shorter. -/
def minLength : Regex α → Nat
  | never | empty | star _ => 0
  | one _ => 1
  | seq r s => r.minLength + s.minLength
  | alt r s => min r.minLength s.minLength

/-- The classes that words start with. -/
def heads : Regex α → List (α → Bool)
  | never | empty => []
  | one cls => [cls]
  | seq r s => if r.nullable then r.heads ++ s.heads else r.heads
  | alt r s => r.heads ++ s.heads
  | star r => r.heads

/-- What may follow a word. -/
def derivs (w : List α) (r : Regex α) : Regex α := w.foldl (fun r a => r.deriv a) r

/-- The rule with the longest match, and of these the first. -/
def select (text : List α) : List (Regex α × ρ) → Option (ρ × Nat)
  | [] => none
  | (pattern, action) :: rules =>
    match pattern.longest text, select text rules with
    | none, others => others
    | some n, none => some (action, n)
    | some n, some (other, m) => if n < m then some (other, m) else some (action, n)

variable {r s : Regex α} {a : α} {w text : List α} {n m : Nat} {rules before after : List (Regex α × ρ)}
  {pattern : Regex α} {action : ρ}

@[simp] theorem mem_lang_never : ¬w ∈ (never : Regex α).lang := Set.notMem_empty w

@[simp] theorem mem_lang_empty : w ∈ (empty : Regex α).lang ↔ w = [] := Iff.rfl

@[simp] theorem mem_lang_one {cls : α → Bool} : w ∈ (one cls).lang ↔ ∃ a, cls a = true ∧ w = [a] := Iff.rfl

@[simp] theorem mem_lang_seq : w ∈ (seq r s).lang ↔ ∃ u ∈ r.lang, ∃ v ∈ s.lang, u ++ v = w := Language.mem_mul

@[simp] theorem mem_lang_alt : w ∈ (alt r s).lang ↔ w ∈ r.lang ∨ w ∈ s.lang := Iff.rfl

/-- A word of a sequence takes its first letter from the first part, unless that may be empty. -/
theorem cons_mem_lang_seq : a :: w ∈ (seq r s).lang ↔
    (∃ u v, a :: u ∈ r.lang ∧ v ∈ s.lang ∧ u ++ v = w) ∨ [] ∈ r.lang ∧ a :: w ∈ s.lang := by
  rw [mem_lang_seq]
  constructor
  · rintro ⟨u, left, v, right, whole⟩
    rcases List.append_eq_cons_iff.mp whole with ⟨rfl, rfl⟩ | ⟨u, rfl, rfl⟩
    · exact Or.inr ⟨left, right⟩
    · exact Or.inl ⟨u, v, left, right, rfl⟩
  · rintro (⟨u, v, left, right, rfl⟩ | ⟨left, right⟩)
    · exact ⟨a :: u, left, v, right, rfl⟩
    · exact ⟨[], left, a :: w, right, rfl⟩

theorem nil_mem_lang_star : [] ∈ (star r).lang := Language.nil_mem_kstar _

/-- A word of a star takes its first letter from a word of the body. -/
theorem cons_mem_lang_star : a :: w ∈ (star r).lang ↔ ∃ u v, a :: u ∈ r.lang ∧ v ∈ (star r).lang ∧ u ++ v = w := by
  constructor
  · intro member
    obtain ⟨parts, whole, each⟩ := Language.mem_kstar_iff_exists_nonempty.mp member
    cases parts with
    | nil => cases whole
    | cons part parts =>
      obtain ⟨inBody, nonempty⟩ := each part (List.mem_cons_self ..)
      obtain ⟨b, u, rfl⟩ := List.exists_cons_of_ne_nil nonempty
      rw [List.flatten_cons, List.cons_append, List.cons.injEq] at whole
      obtain ⟨rfl, rfl⟩ := whole
      have later : ∀ part ∈ parts, part ∈ r.lang := fun part inside => (each part (List.mem_cons_of_mem _ inside)).1
      exact ⟨u, parts.flatten, inBody, Language.join_mem_kstar later, rfl⟩
  · rintro ⟨u, v, first, ⟨parts, rfl, each⟩, rfl⟩
    exact ⟨(a :: u) :: parts, rfl, List.forall_mem_cons.mpr ⟨first, each⟩⟩

theorem mem_lang_join : w ∈ (join r s).lang ↔ w ∈ (seq r s).lang := by
  cases r with
  | never => simp [join]
  | empty => simp [join]
  | one | seq | alt | star => rfl

theorem mem_lang_either : w ∈ (either r s).lang ↔ w ∈ (alt r s).lang := by
  cases r <;> cases s <;> simp [either]

theorem nullable_iff : r.nullable = true ↔ [] ∈ r.lang := by
  induction r with
  | never | one => simp [nullable]
  | empty => simp [nullable]
  | seq r s first second => simp [nullable, first, second]
  | alt r s first second => simp [nullable, first, second]
  | star r => exact iff_of_true rfl nil_mem_lang_star

theorem mem_lang_deriv : w ∈ (r.deriv a).lang ↔ a :: w ∈ r.lang := by
  induction r generalizing w with
  | never | empty => simp [deriv]
  | one cls =>
    by_cases inside : cls a = true
    · simp [deriv, inside]
    · simp [deriv, inside]
  | alt r s first second => rw [deriv, mem_lang_either, mem_lang_alt, first, second, mem_lang_alt]
  | star r ih =>
    rw [deriv, mem_lang_join, mem_lang_seq, cons_mem_lang_star]
    constructor
    · rintro ⟨u, body, v, more, rfl⟩
      exact ⟨u, v, ih.mp body, more, rfl⟩
    · rintro ⟨u, v, body, more, rfl⟩
      exact ⟨u, ih.mpr body, v, more, rfl⟩
  | seq r s first second =>
    have inFirst : w ∈ (join (r.deriv a) s).lang ↔ ∃ u v, a :: u ∈ r.lang ∧ v ∈ s.lang ∧ u ++ v = w := by
      rw [mem_lang_join, mem_lang_seq]
      simp only [first]
      constructor
      · rintro ⟨u, left, v, right, rfl⟩
        exact ⟨u, v, left, right, rfl⟩
      · rintro ⟨u, v, left, right, rfl⟩
        exact ⟨u, left, v, right, rfl⟩
    rw [cons_mem_lang_seq, ← inFirst, ← nullable_iff, ← second, deriv]
    split
    · rename_i null
      rw [mem_lang_either, mem_lang_alt, and_iff_right null]
    · rename_i notNull
      rw [or_iff_left fun both => notNull both.1]

@[simp] theorem longest_nil : r.longest [] = if r.nullable then some 0 else none := by
  cases r <;> rfl

theorem longest_cons : r.longest (a :: text) =
    (((r.deriv a).longest text).map (· + 1)).or (if r.nullable then some 0 else none) := by
  cases r with
  | never => simp [longest, deriv, nullable]
  | empty | one | seq | alt | star => rfl

theorem longest_sound (found : r.longest text = some n) : n ≤ text.length ∧ text.take n ∈ r.lang := by
  have nothing {r : Regex α} {n : Nat} (found : (if r.nullable then some 0 else none) = some n) :
      n = 0 ∧ [] ∈ r.lang := by
    rw [Option.ite_none_right_eq_some, Option.some.injEq] at found
    exact ⟨found.2.symm, nullable_iff.mp found.1⟩
  induction text generalizing r n with
  | nil =>
    rw [longest_nil] at found
    obtain ⟨rfl, null⟩ := nothing found
    exact ⟨Nat.le_refl 0, null⟩
  | cons a text ih =>
    rw [longest_cons] at found
    rcases Option.or_eq_some_iff.mp found with more | ⟨_, last⟩
    · obtain ⟨m, rest, rfl⟩ := Option.map_eq_some_iff.mp more
      obtain ⟨le, member⟩ := ih rest
      exact ⟨Nat.succ_le_succ le, mem_lang_deriv.mp member⟩
    · obtain ⟨rfl, null⟩ := nothing last
      exact ⟨Nat.zero_le _, null⟩

/-- No beginning that is longer is one of the words. -/
theorem longest_max (le : n ≤ text.length) (member : text.take n ∈ r.lang) :
    ∃ m, r.longest text = some m ∧ n ≤ m := by
  induction text generalizing r n with
  | nil =>
    have null : r.nullable = true := nullable_iff.mpr (by simpa using member)
    exact ⟨0, by rw [longest_nil, if_pos null], le⟩
  | cons a text ih =>
    rw [longest_cons]
    cases n with
    | zero =>
      have null : r.nullable = true := nullable_iff.mpr member
      rw [if_pos null]
      cases (r.deriv a).longest text with
      | none => exact ⟨0, rfl, Nat.le_refl 0⟩
      | some m => exact ⟨m + 1, rfl, Nat.zero_le _⟩
    | succ n =>
      obtain ⟨m, rest, further⟩ := ih (Nat.le_of_succ_le_succ le) (mem_lang_deriv.mpr member)
      exact ⟨m + 1, by rw [rest]; rfl, Nat.succ_le_succ further⟩

theorem minLength_le (member : w ∈ r.lang) : r.minLength ≤ w.length := by
  induction r generalizing w with
  | never | empty | star => exact Nat.zero_le _
  | one cls =>
    obtain ⟨a, _, rfl⟩ := member
    exact Nat.le_refl 1
  | seq r s first second =>
    obtain ⟨u, left, v, right, rfl⟩ := member
    rw [minLength, List.length_append]
    exact Nat.add_le_add (first left) (second right)
  | alt r s first second =>
    rcases member with left | right
    · exact (Nat.min_le_left _ _).trans (first left)
    · exact (Nat.min_le_right _ _).trans (second right)

theorem minLength_le_longest (found : r.longest text = some n) : r.minLength ≤ n := by
  obtain ⟨le, member⟩ := longest_sound found
  have least := minLength_le member
  rwa [List.length_take, Nat.min_eq_left le] at least

/-- A star of a class takes all the letters that are in it. -/
theorem longest_star_one {cls : α → Bool} (all : ∀ a ∈ w, cls a = true) (stops : ∀ a ∈ text.head?, cls a = false) :
    (star (one cls)).longest (w ++ text) = some w.length := by
  have again {a : α} (inside : cls a = true) : (star (one cls)).deriv a = star (one cls) := by
    simp [deriv, inside, join]
  induction w with
  | nil =>
    cases text with
    | nil => rfl
    | cons a text =>
      have outside : cls a = false := stops a rfl
      have dead : (star (one cls)).deriv a = never := by simp [deriv, outside, join]
      rw [List.nil_append, longest_cons, dead]
      cases text <;> rfl
  | cons a w ih =>
    rw [List.cons_append, longest_cons, again (all a (List.mem_cons_self ..)),
      ih fun b member => all b (List.mem_cons_of_mem _ member)]
    rfl

/-- Nothing may follow the beginning of a text. -/
def dead (w : List α) (r : Regex α) : Bool :=
  match w.foldl (fun r a => r.deriv a) r with
  | never => true
  | _ => false

theorem longest_lt_of_dead (dead : r.dead w = true) (found : r.longest (w ++ text) = some n) : n < w.length := by
  induction w generalizing r n with
  | nil =>
    have nothing : r = never := by cases r <;> first | rfl | cases dead
    rw [nothing] at found
    cases text <;> cases found
  | cons a w ih =>
    rw [List.cons_append, longest_cons] at found
    rcases Option.or_eq_some_iff.mp found with more | ⟨_, last⟩
    · obtain ⟨m, rest, rfl⟩ := Option.map_eq_some_iff.mp more
      exact Nat.succ_lt_succ (ih dead rest)
    · rw [Option.ite_none_right_eq_some, Option.some.injEq] at last
      rw [← last.2]
      exact Nat.succ_pos _

theorem exists_head (member : a :: w ∈ r.lang) : ∃ cls ∈ r.heads, cls a = true := by
  induction r generalizing w with
  | never | empty => cases member
  | one cls =>
    obtain ⟨b, inside, same⟩ := member
    exact ⟨cls, List.mem_singleton_self _, (List.cons_eq_cons.mp same).1 ▸ inside⟩
  | seq r s first second =>
    rcases cons_mem_lang_seq.mp member with ⟨u, v, left, _, _⟩ | ⟨null, right⟩
    · obtain ⟨cls, inHeads, inside⟩ := first left
      refine ⟨cls, ?_, inside⟩
      rw [heads]
      split
      · exact List.mem_append_left _ inHeads
      · exact inHeads
    · obtain ⟨cls, inHeads, inside⟩ := second right
      rw [heads, if_pos (nullable_iff.mpr null)]
      exact ⟨cls, List.mem_append_right _ inHeads, inside⟩
  | alt r s first second =>
    rcases member with left | right
    · obtain ⟨cls, inHeads, inside⟩ := first left
      exact ⟨cls, List.mem_append_left _ inHeads, inside⟩
    · obtain ⟨cls, inHeads, inside⟩ := second right
      exact ⟨cls, List.mem_append_right _ inHeads, inside⟩
  | star r body =>
    obtain ⟨_, _, left, _, _⟩ := cons_mem_lang_star.mp member
    exact body left

/-- A match ends before a letter that no word starts with. -/
theorem longest_cons_of_heads (none : ∀ cls ∈ r.heads, cls a = false) : r.longest (a :: text) = r.longest [] := by
  have nothing : (r.deriv a).longest text = Option.none := by
    by_contra some
    obtain ⟨n, found⟩ := Option.ne_none_iff_exists'.mp some
    obtain ⟨cls, inHeads, inside⟩ := exists_head (mem_lang_deriv.mp (longest_sound found).2)
    exact Bool.false_ne_true ((none cls inHeads).symm.trans inside)
  rw [longest_cons, nothing, longest_nil]
  rfl

theorem longest_stops (stops : ∀ cls ∈ (r.derivs w).heads, cls a = false) :
    r.longest (w ++ a :: text) = r.longest w := by
  induction w generalizing r with
  | nil => exact longest_cons_of_heads stops
  | cons b w ih => rw [List.cons_append, longest_cons, ih stops, ← longest_cons]

/-- If no rule can go on with the next letter, the selection does not depend on it and on what follows. -/
theorem select_stops {rules : List (Regex α × ρ)}
    (stops : ∀ rule ∈ rules, ∀ cls ∈ (rule.1.derivs w).heads, cls a = false) :
      select (w ++ a :: text) rules = select w rules := by
  induction rules with
  | nil => rfl
  | cons rule rules ih =>
    obtain ⟨here, later⟩ := List.forall_mem_cons.mp stops
    simp only [select, ih later, longest_stops here]

/-- The first of the rules with the longest match: those before it match less, and those behind it
match no more. -/
def Selects (text : List α) (rules : List (Regex α × ρ)) (action : ρ) (n : Nat) : Prop :=
  ∃ before pattern after, rules = before ++ (pattern, action) :: after ∧ pattern.longest text = some n ∧
    (∀ rule ∈ before, ∀ m, rule.1.longest text = some m → m < n) ∧
    ∀ rule ∈ after, ∀ m, rule.1.longest text = some m → m ≤ n

theorem select_mem (selected : select text rules = some (action, n)) :
    ∃ pattern, (pattern, action) ∈ rules ∧ pattern.longest text = some n := by
  induction rules with
  | nil => cases selected
  | cons rule rules ih =>
    obtain ⟨pattern, first⟩ := rule
    have later : select text rules = some (action, n) →
        ∃ other, (other, action) ∈ (pattern, first) :: rules ∧ other.longest text = some n := fun found => by
      obtain ⟨other, member, match_⟩ := ih found
      exact ⟨other, List.mem_cons_of_mem _ member, match_⟩
    unfold select at selected
    split at selected
    · exact later selected
    · rename_i m found none
      obtain ⟨rfl, rfl⟩ := Prod.mk.inj (Option.some.inj selected)
      exact ⟨pattern, List.mem_cons_self .., found⟩
    · rename_i m other k found others
      split at selected
      · exact later (others.trans selected)
      · obtain ⟨rfl, rfl⟩ := Prod.mk.inj (Option.some.inj selected)
        exact ⟨pattern, List.mem_cons_self .., found⟩

/-- No rule has a longer match. -/
theorem select_max (member : (pattern, action) ∈ rules) (found : pattern.longest text = some n) :
    ∃ best m, select text rules = some (best, m) ∧ n ≤ m := by
  induction rules with
  | nil => cases member
  | cons rule rules ih =>
    obtain ⟨first, own⟩ := rule
    unfold select
    rcases List.mem_cons.mp member with same | later
    · obtain ⟨rfl, rfl⟩ := Prod.mk.inj same
      rw [found]
      cases others : select text rules with
      | none => exact ⟨_, _, rfl, Nat.le_refl n⟩
      | some best =>
        obtain ⟨other, m⟩ := best
        dsimp only
        split
        · exact ⟨_, _, rfl, Nat.le_of_lt ‹_›⟩
        · exact ⟨_, _, rfl, Nat.le_refl n⟩
    · obtain ⟨best, m, selected, le⟩ := ih later
      rw [selected]
      cases first.longest text with
      | none => exact ⟨_, _, rfl, le⟩
      | some k =>
        dsimp only
        split
        · exact ⟨_, _, rfl, le⟩
        · exact ⟨_, _, rfl, by omega⟩

/-- A rule that matches less may stand in front. -/
theorem Selects.later (selects : Selects text rules action n) {own : ρ}
    (less : ∀ m, pattern.longest text = some m → m < n) : Selects text ((pattern, own) :: rules) action n := by
  obtain ⟨before, found, after, rfl, match_, front, behind⟩ := selects
  exact ⟨(pattern, own) :: before, found, after, rfl, match_, List.forall_mem_cons.mpr ⟨less, front⟩, behind⟩

/-- Rules of which none is selected with a longer match may stand behind. -/
theorem Selects.here (found : pattern.longest text = some n)
    (behind : ∀ best m, select text rules = some (best, m) → m ≤ n) :
    Selects text ((pattern, action) :: rules) action n := by
  refine ⟨[], pattern, rules, rfl, found, by simp, fun rule member m match_ => ?_⟩
  have inside : (rule.1, rule.2) ∈ rules := member
  obtain ⟨best, k, chosen, le⟩ := select_max inside match_
  exact le.trans (behind best k chosen)

theorem selects_of_select (selected : select text rules = some (action, n)) : Selects text rules action n := by
  induction rules with
  | nil => cases selected
  | cons rule rules ih =>
    obtain ⟨pattern, own⟩ := rule
    unfold select at selected
    split at selected
    · rename_i none
      exact (ih selected).later fun m found => by simp [none] at found
    · rename_i k found none
      obtain ⟨rfl, rfl⟩ := Prod.mk.inj (Option.some.inj selected)
      exact .here found fun best m chosen => by simp [none] at chosen
    · rename_i k other m found others
      split at selected
      · rename_i less
        obtain ⟨rfl, rfl⟩ := Prod.mk.inj (Option.some.inj selected)
        refine (ih others).later fun i match_ => ?_
        rw [found, Option.some.injEq] at match_
        exact match_ ▸ less
      · rename_i notLess
        obtain ⟨rfl, rfl⟩ := Prod.mk.inj (Option.some.inj selected)
        refine .here found fun best i chosen => ?_
        rw [others, Option.some.injEq, Prod.mk.injEq] at chosen
        exact chosen.2 ▸ Nat.not_lt.mp notLess

theorem Selects.select (selects : Selects text rules action n) : select text rules = some (action, n) := by
  obtain ⟨before, pattern, after, rfl, found, front, behind⟩ := selects
  induction before with
  | nil =>
    rw [List.nil_append, Regex.select, found]
    cases others : Regex.select text after with
    | none => rfl
    | some best =>
      obtain ⟨other, m⟩ := best
      obtain ⟨rule, member, match_⟩ := select_mem others
      have le : ¬n < m := Nat.not_lt.mpr (behind _ member m match_)
      simp only [if_neg le]
  | cons rule before ih =>
    have rest := ih fun other member => front other (List.mem_cons_of_mem _ member)
    rw [List.cons_append, Regex.select, rest]
    cases match_ : rule.1.longest text with
    | none => rfl
    | some m =>
      have less : m < n := front rule (List.mem_cons_self ..) m match_
      simp only [if_pos less]

theorem select_eq_some_iff : select text rules = some (action, n) ↔ Selects text rules action n :=
  ⟨selects_of_select, Selects.select⟩

end Regex
