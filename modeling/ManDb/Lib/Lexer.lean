import Mathlib.Data.List.Basic
import Mathlib.Data.List.TakeWhile

namespace Lexer

variable {α κ ρ : Type*}

/-- A part of a pattern: one letter of a class, at most one, or any number. -/
inductive Atom (α : Type*) where
  | one (cls : α → Bool)
  | opt (cls : α → Bool)
  | star (cls : α → Bool)

abbrev Pattern (α : Type*) := List (Atom α)

/-- The longer of two matches, where there may be none. -/
def longer : Option Nat → Option Nat → Option Nat
  | none, other => other
  | some m, none => some m
  | some m, some n => some (max m n)

/-- One letter of the class, then whatever `rest` matches. -/
def oneLongest (cls : α → Bool) (rest : List α → Option Nat) : List α → Option Nat
  | [] => none
  | a :: text => if cls a then (rest text).map (· + 1) else none

@[simp] theorem oneLongest_nil (cls : α → Bool) (rest : List α → Option Nat) : oneLongest cls rest [] = none := rfl

@[simp] theorem oneLongest_cons (cls : α → Bool) (rest : List α → Option Nat) (a : α) (text : List α) :
    oneLongest cls rest (a :: text) = if cls a then (rest text).map (· + 1) else none := rfl

def starLongest (cls : α → Bool) (rest : List α → Option Nat) : List α → Option Nat
  | [] => rest []
  | a :: text =>
    if cls a then longer ((starLongest cls rest text).map (· + 1)) (rest (a :: text)) else rest (a :: text)

/-- The length of the longest beginning of a text that matches a pattern. -/
def longest : Pattern α → List α → Option Nat
  | [], _ => some 0
  | .one cls :: pattern, text => oneLongest cls (longest pattern) text
  | .opt cls :: pattern, text => longer (oneLongest cls (longest pattern) text) (longest pattern text)
  | .star cls :: pattern, text => starLongest cls (longest pattern) text

/-- A rule applies in some start conditions, perhaps only at the start of a line. -/
structure Rule (α κ ρ : Type*) where
  conditions : List κ
  atBol : Bool
  pattern : Pattern α
  action : ρ

/-- The rule applies here. -/
def Rule.Applies (rule : Rule α κ ρ) (condition : κ) (atBol : Bool) : Prop :=
  condition ∈ rule.conditions ∧ (rule.atBol = true → atBol = true)

instance [DecidableEq κ] (rule : Rule α κ ρ) (condition : κ) (atBol : Bool) :
    Decidable (rule.Applies condition atBol) :=
  inferInstanceAs (Decidable (_ ∧ _))

/-- The rule with the longest match, and of these the first. -/
def select [DecidableEq κ] (condition : κ) (atBol : Bool) (text : List α) : List (Rule α κ ρ) → Option (ρ × Nat)
  | [] => none
  | rule :: rules =>
    let others := select condition atBol text rules
    if rule.Applies condition atBol then
      match longest rule.pattern text, others with
      | none, _ => others
      | some n, none => some (rule.action, n)
      | some n, some (other, m) => if n < m then some (other, m) else some (rule.action, n)
    else others

/-- What a pattern means. -/
inductive Matches : Pattern α → List α → Prop
  | nil : Matches [] []
  | one {cls : α → Bool} {a : α} {pattern : Pattern α} {text : List α} (inClass : cls a = true)
      (rest : Matches pattern text) : Matches (.one cls :: pattern) (a :: text)
  | optTake {cls : α → Bool} {a : α} {pattern : Pattern α} {text : List α} (inClass : cls a = true)
      (rest : Matches pattern text) : Matches (.opt cls :: pattern) (a :: text)
  | optSkip {cls : α → Bool} {pattern : Pattern α} {text : List α} (rest : Matches pattern text) :
      Matches (.opt cls :: pattern) text
  | starTake {cls : α → Bool} {a : α} {pattern : Pattern α} {text : List α} (inClass : cls a = true)
      (rest : Matches (.star cls :: pattern) text) : Matches (.star cls :: pattern) (a :: text)
  | starSkip {cls : α → Bool} {pattern : Pattern α} {text : List α} (rest : Matches pattern text) :
      Matches (.star cls :: pattern) text

variable {pattern : Pattern α} {text : List α} {cls : α → Bool} {a : α} {n : Nat}

theorem longer_eq_some {first second : Option Nat} (some_ : longer first second = some n) :
    first = some n ∨ second = some n := by
  cases first with
  | none => exact Or.inr some_
  | some m =>
    cases second with
    | none => exact Or.inl some_
    | some k =>
      simp only [longer, Option.some.injEq] at some_
      rcases Nat.le_total m k with le | le
      · exact Or.inr (by rw [← some_, Nat.max_eq_right le])
      · exact Or.inl (by rw [← some_, Nat.max_eq_left le])

/-- A match lies within the text, and is one. -/
def Sound (pattern : Pattern α) (match_ : List α → Option Nat) : Prop :=
  ∀ text n, match_ text = some n → n ≤ text.length ∧ Matches pattern (text.take n)

theorem Sound.one {rest : List α → Option Nat} (sound : Sound pattern rest) {text : List α}
    (found : oneLongest cls rest text = some n) :
    ∃ a after m, text = a :: after ∧ n = m + 1 ∧ cls a = true ∧ m ≤ after.length ∧
      Matches pattern (after.take m) := by
  cases text with
  | nil => cases found
  | cons a after =>
    simp only [oneLongest] at found
    split at found
    · rename_i inClass
      obtain ⟨m, ofRest, rfl⟩ := Option.map_eq_some_iff.mp found
      obtain ⟨le, matches_⟩ := sound after m ofRest
      exact ⟨a, after, m, rfl, rfl, inClass, le, matches_⟩
    · cases found

theorem Sound.star {rest : List α → Option Nat} (sound : Sound pattern rest) :
    Sound (.star cls :: pattern) (starLongest cls rest) := by
  intro text
  induction text with
  | nil =>
    intro n found
    exact ⟨(sound [] n found).1, .starSkip (sound [] n found).2⟩
  | cons a text ih =>
    intro n found
    simp only [starLongest] at found
    split at found
    · rename_i inClass
      rcases longer_eq_some found with taken | skipped
      · obtain ⟨m, ofRest, rfl⟩ := Option.map_eq_some_iff.mp taken
        obtain ⟨le, matches_⟩ := ih m ofRest
        exact ⟨Nat.succ_le_succ le, .starTake inClass matches_⟩
      · exact ⟨(sound _ n skipped).1, .starSkip (sound _ n skipped).2⟩
    · exact ⟨(sound _ n found).1, .starSkip (sound _ n found).2⟩

theorem longest_sound (pattern : Pattern α) : Sound pattern (longest pattern) := by
  induction pattern with
  | nil =>
    intro text n found
    cases found
    exact ⟨Nat.zero_le _, .nil⟩
  | cons atom pattern ih =>
    cases atom with
    | one cls =>
      intro text n found
      obtain ⟨a, after, m, rfl, rfl, inClass, le, matches_⟩ := ih.one found
      exact ⟨Nat.succ_le_succ le, .one inClass matches_⟩
    | opt cls =>
      intro text n found
      rcases longer_eq_some found with taken | skipped
      · obtain ⟨a, after, m, rfl, rfl, inClass, le, matches_⟩ := ih.one taken
        exact ⟨Nat.succ_le_succ le, .optTake inClass matches_⟩
      · exact ⟨(ih _ n skipped).1, .optSkip (ih _ n skipped).2⟩
    | star cls => exact ih.star

theorem longest_matches (found : longest pattern text = some n) : Matches pattern (text.take n) :=
  (longest_sound pattern text n found).2

/-- The classes of a pattern. -/
def Atom.accepts : Atom α → α → Bool
  | .one cls | .opt cls | .star cls => cls

/-- Every letter of a match is in some class of the pattern. -/
theorem Matches.accepted (matches_ : Matches pattern text) (member : a ∈ text) :
    ∃ atom ∈ pattern, atom.accepts a = true := by
  induction matches_ with
  | nil => cases member
  | one inClass _ ih | optTake inClass _ ih =>
    rcases List.mem_cons.mp member with rfl | later
    · exact ⟨_, List.mem_cons_self .., inClass⟩
    · obtain ⟨atom, inPattern, inAtom⟩ := ih later
      exact ⟨atom, List.mem_cons_of_mem _ inPattern, inAtom⟩
  | optSkip _ ih | starSkip _ ih =>
    obtain ⟨atom, inPattern, inAtom⟩ := ih member
    exact ⟨atom, List.mem_cons_of_mem _ inPattern, inAtom⟩
  | starTake inClass _ ih =>
    rcases List.mem_cons.mp member with rfl | later
    · exact ⟨_, List.mem_cons_self .., inClass⟩
    · exact ih later

/-- A match has a letter for each that the pattern asks for. -/
theorem Matches.has_one (matches_ : Matches pattern text) (member : .one cls ∈ pattern) :
    ∃ a ∈ text, cls a = true := by
  induction matches_ with
  | nil => cases member
  | one inClass _ ih =>
    rcases List.mem_cons.mp member with same | later
    · cases same
      exact ⟨_, List.mem_cons_self .., inClass⟩
    · obtain ⟨a, inText, inside⟩ := ih later
      exact ⟨a, List.mem_cons_of_mem _ inText, inside⟩
  | optTake _ _ ih =>
    obtain ⟨a, inText, inside⟩ := ih (by simpa using member)
    exact ⟨a, List.mem_cons_of_mem _ inText, inside⟩
  | starTake _ _ ih =>
    obtain ⟨a, inText, inside⟩ := ih member
    exact ⟨a, List.mem_cons_of_mem _ inText, inside⟩
  | optSkip _ ih | starSkip _ ih => exact ih (by simpa using member)

/-- A text that does not start in the class. -/
def Stops (cls : α → Bool) (text : List α) : Prop := ∀ a ∈ text.head?, cls a = false

/-- A star takes nothing if need be. -/
theorem starLongest_some {rest : List α → Option Nat} (total : ∀ text, ∃ n, rest text = some n) (text : List α) :
    ∃ n, starLongest cls rest text = some n := by
  induction text with
  | nil => exact total []
  | cons a text ih =>
    obtain ⟨n, found⟩ := ih
    obtain ⟨m, skipped⟩ := total (a :: text)
    unfold starLongest
    split
    · exact ⟨max (n + 1) m, by simp [found, skipped, longer]⟩
    · exact ⟨m, skipped⟩

theorem longest_opt_some (cls : α → Bool) (text : List α) : ∃ n, longest [.opt cls] text = some n := by
  cases text with
  | nil => exact ⟨0, rfl⟩
  | cons a text => cases inside : cls a <;> simp [longest, inside, longer]

theorem stops_dropWhile (cls : α → Bool) (text : List α) : Stops cls (text.dropWhile cls) := by
  intro a head
  have outside := List.head?_dropWhile_not cls text
  rw [head] at outside
  exact outside

theorem longest_star {line tail : List α} (all : ∀ a ∈ line, cls a = true) (stops : Stops cls tail) :
    longest [.star cls] (line ++ tail) = some line.length := by
  induction line with
  | nil =>
    cases tail with
    | nil => rfl
    | cons a tail =>
      have outside : cls a = false := stops a rfl
      simp [longest, starLongest, outside]
  | cons a line ih =>
    have rest := ih fun b member => all b (List.mem_cons_of_mem _ member)
    have inside : cls a = true := all a (List.mem_cons_self ..)
    simp only [longest] at rest ⊢
    simp [starLongest, inside, rest, longer]

/-- Of two classes, one within the other, what is not taken by the first is by the
second. -/
theorem longest_star_some {inner : α → Bool} {line tail : List α} (within : ∀ a, inner a = true → cls a = true)
    (all : ∀ a ∈ line, cls a = true) (stops : Stops cls tail) :
    longest [.star inner, .one cls, .star cls] (line ++ tail) = if line = [] then none else some line.length := by
  induction line with
  | nil =>
    cases tail with
    | nil => rfl
    | cons a tail =>
      have outside : cls a = false := stops a rfl
      have outer : inner a = false := Bool.eq_false_iff.mpr fun yes => by simp [within a yes] at outside
      simp [longest, starLongest, oneLongest, outside, outer]
  | cons a line ih =>
    have inside : cls a = true := all a (List.mem_cons_self ..)
    have rest : starLongest inner (longest [.one cls, .star cls]) (line ++ tail) = _ :=
      ih fun b member => all b (List.mem_cons_of_mem _ member)
    have plain := longest_star (fun b member => all b (List.mem_cons_of_mem _ member)) stops
    have taken : longest [.one cls, .star cls] (a :: (line ++ tail)) = some (line.length + 1) := by
      change oneLongest cls (longest [.star cls]) (a :: (line ++ tail)) = _
      rw [oneLongest, if_pos inside, plain]
      rfl
    change starLongest inner (longest [.one cls, .star cls]) (a :: (line ++ tail)) = _
    rw [starLongest, rest, taken, if_neg (List.cons_ne_nil a line)]
    split
    · split <;> simp [longer]
    · rfl

/-- A star before a letter of another class. -/
theorem longest_star_one {other : α → Bool} {line tail : List α} (apart : ∀ a, cls a = true → other a = false)
    (all : ∀ a ∈ line, cls a = true) (isOther : other a = true) :
    longest [.star cls, .one other] (line ++ a :: tail) = some (line.length + 1) := by
  induction line with
  | nil =>
    have outside : cls a = false := Bool.eq_false_iff.mpr fun yes => by simp [apart a yes] at isOther
    simp [longest, starLongest, oneLongest, outside, isOther]
  | cons b line ih =>
    have inside : cls b = true := all b (List.mem_cons_self ..)
    have rest : starLongest cls (longest [.one other]) (line ++ a :: tail) = _ :=
      ih fun c member => all c (List.mem_cons_of_mem _ member)
    have skipped : longest [.one other] (b :: (line ++ a :: tail)) = none := by
      simp [longest, oneLongest, apart b inside]
    change starLongest cls (longest [.one other]) (b :: (line ++ a :: tail)) = _
    rw [starLongest, if_pos inside, rest, skipped]
    rfl

/-- One letter of the class, or nothing. -/
def AtMostOne (cls : α → Bool) (text : List α) : Prop := text = [] ∨ ∃ a, cls a = true ∧ text = [a]

theorem longest_opt {optional tail : List α} (short : AtMostOne cls optional)
    (stops : optional = [] → Stops cls tail) :
    longest [.opt cls] (optional ++ tail) = some optional.length := by
  rcases short with rfl | ⟨a, inside, rfl⟩
  · cases tail with
    | nil => rfl
    | cons a tail =>
      have outside : cls a = false := stops rfl a rfl
      simp [longest, outside, longer]
  · simp [longest, inside, longer]

/-- The letters of a word, up to the quote that closes it. -/
theorem starLongest_word {quote : α → Bool} {word closing tail : List α}
    (apart : ∀ a, cls a = true → quote a = false) (all : ∀ a ∈ word, cls a = true) (closes : AtMostOne quote closing)
    (stops : closing = [] → Stops cls tail ∧ Stops quote tail) :
    starLongest cls (longest [.opt quote]) (word ++ (closing ++ tail)) = some (word.length + closing.length) := by
  induction word with
  | nil =>
    have last := longest_opt closes fun none => (stops none).2
    have ends : Stops cls (closing ++ tail) := by
      rcases closes with rfl | ⟨a, isQuote, rfl⟩
      · exact (stops rfl).1
      · rintro b ⟨⟩
        exact Bool.eq_false_iff.mpr fun yes => by simp [apart a yes] at isQuote
    cases shape : closing ++ tail with
    | nil =>
      rw [shape] at last
      simpa [starLongest] using last
    | cons a rest =>
      rw [shape] at last ends
      have stopped : cls a = false := ends a rfl
      simpa [starLongest, stopped] using last
  | cons a word ih =>
    have inside : cls a = true := all a (List.mem_cons_self ..)
    have rest := ih fun b member => all b (List.mem_cons_of_mem _ member)
    have none : longest [.opt quote] (a :: (word ++ (closing ++ tail))) = some 0 := by
      simp [longest, apart a inside, longer]
    simp only [List.cons_append, starLongest, inside, if_true, rest, none, Option.map_some, longer,
      List.length_cons, Nat.max_zero]
    congr 1
    omega

/-- A word that may stand in quotes. -/
theorem longest_quoted {quote : α → Bool} {opening word closing tail : List α}
    (apart : ∀ a, cls a = true → quote a = false) (opens : AtMostOne quote opening) (nonempty : word ≠ [])
    (all : ∀ a ∈ word, cls a = true) (closes : AtMostOne quote closing)
    (stops : closing = [] → Stops cls tail ∧ Stops quote tail) :
    longest [.opt quote, .one cls, .star cls, .opt quote] (opening ++ word ++ closing ++ tail) =
      some (opening ++ word ++ closing).length := by
  obtain ⟨a, word, rfl⟩ := List.exists_cons_of_ne_nil nonempty
  have inside : cls a = true := all a (List.mem_cons_self ..)
  have rest := starLongest_word apart (fun b member => all b (List.mem_cons_of_mem a member)) closes stops
  have taken : longest [.one cls, .star cls, .opt quote] (a :: (word ++ (closing ++ tail))) =
      some (word.length + closing.length + 1) := by
    change oneLongest cls (starLongest cls (longest [.opt quote])) (a :: (word ++ (closing ++ tail))) = _
    rw [oneLongest, if_pos inside, rest]
    rfl
  rcases opens with rfl | ⟨q, isQuote, rfl⟩
  · simp only [List.nil_append, List.append_assoc, List.cons_append, List.length_cons, List.length_append]
    rw [longest, taken, oneLongest, if_neg (by simp [apart a inside])]
    simp only [longer]
  · have outside : cls q = false := Bool.eq_false_iff.mpr fun yes => by simp [apart q yes] at isQuote
    have noWord : longest [.one cls, .star cls, .opt quote] (q :: a :: (word ++ (closing ++ tail))) = none := by
      simp [longest, outside]
    simp only [List.nil_append, List.append_assoc, List.cons_append, List.length_cons, List.length_append]
    rw [longest, noWord, oneLongest, if_pos isQuote, taken]
    simp only [Option.map_some, longer]

theorem matches_opt (matches_ : Matches [.opt cls] text) : AtMostOne cls text := by
  cases matches_ with
  | optTake inClass rest =>
    cases rest
    exact Or.inr ⟨_, inClass, rfl⟩
  | optSkip rest =>
    cases rest
    exact Or.inl rfl

/-- The letters of a run, and what matches the rest of the pattern. -/
theorem matches_star (matches_ : Matches (.star cls :: pattern) text) :
    ∃ word rest, text = word ++ rest ∧ (∀ a ∈ word, cls a = true) ∧ Matches pattern rest := by
  generalize whole : Atom.star cls :: pattern = starred at matches_
  induction matches_ with
  | starTake inClass _ ih =>
    obtain ⟨word, rest, rfl, all, after⟩ := ih whole
    cases whole
    exact ⟨_ :: word, rest, rfl, List.forall_mem_cons.mpr ⟨inClass, all⟩, after⟩
  | starSkip rest _ =>
    cases whole
    exact ⟨[], _, rfl, by simp, rest⟩
  | nil | one | optTake | optSkip => cases whole

theorem matches_word {quote : α → Bool} (matches_ : Matches [.one cls, .star cls, .opt quote] text) :
    ∃ word closing, text = word ++ closing ∧ word ≠ [] ∧ (∀ a ∈ word, cls a = true) ∧ AtMostOne quote closing := by
  cases matches_ with
  | one inClass rest =>
    obtain ⟨word, after, rfl, all, closes⟩ := matches_star rest
    exact ⟨_ :: word, after, rfl, List.cons_ne_nil _ _, List.forall_mem_cons.mpr ⟨inClass, all⟩, matches_opt closes⟩

/-- The parts of such a word. -/
theorem matches_quoted {quote : α → Bool} {text : List α}
    (matches_ : Matches [.opt quote, .one cls, .star cls, .opt quote] text) :
    ∃ opening word closing, text = opening ++ word ++ closing ∧ AtMostOne quote opening ∧ word ≠ [] ∧
      (∀ a ∈ word, cls a = true) ∧ AtMostOne quote closing := by
  cases matches_ with
  | optTake inClass rest =>
    obtain ⟨word, after, rfl, nonempty, all, closes⟩ := matches_word rest
    exact ⟨[_], word, after, rfl, Or.inr ⟨_, inClass, rfl⟩, nonempty, all, closes⟩
  | optSkip rest =>
    obtain ⟨word, after, rfl, nonempty, all, closes⟩ := matches_word rest
    exact ⟨[], word, after, rfl, Or.inl rfl, nonempty, all, closes⟩

theorem Matches.star_append {word rest : List α} (all : ∀ a ∈ word, cls a = true) (after : Matches pattern rest) :
    Matches (.star cls :: pattern) (word ++ rest) := by
  induction word with
  | nil => exact .starSkip after
  | cons a word ih =>
    exact .starTake (all a (List.mem_cons_self ..)) (ih fun b member => all b (List.mem_cons_of_mem _ member))

/-- A word without quotes is one. -/
theorem matches_unquoted {quote : α → Bool} {word : List α} (nonempty : word ≠ []) (all : ∀ a ∈ word, cls a = true) :
    Matches [.opt quote, .one cls, .star cls, .opt quote] word := by
  obtain ⟨a, word, rfl⟩ := List.exists_cons_of_ne_nil nonempty
  have letters := Matches.star_append (fun b member => all b (List.mem_cons_of_mem a member))
    (.optSkip .nil : Matches [.opt quote] [])
  rw [List.append_nil] at letters
  exact .optSkip (.one (all a (List.mem_cons_self ..)) letters)

section Select

variable [DecidableEq κ] {condition : κ} {atBol : Bool} {rule : Rule α κ ρ} {rules : List (Rule α κ ρ)} {action : ρ}

theorem select_mem (selected : select condition atBol text rules = some (action, n)) :
    ∃ rule ∈ rules, rule.Applies condition atBol ∧ rule.action = action ∧ longest rule.pattern text = some n := by
  induction rules with
  | nil => cases selected
  | cons rule rules ih =>
    have later : select condition atBol text rules = some (action, n) → ∃ other ∈ rule :: rules,
        other.Applies condition atBol ∧ other.action = action ∧ longest other.pattern text = some n := by
      intro found
      obtain ⟨other, member, rest⟩ := ih found
      exact ⟨other, List.mem_cons_of_mem _ member, rest⟩
    unfold select at selected
    dsimp only at selected
    split at selected
    · rename_i applies
      split at selected
      · exact later selected
      · rename_i m found none
        obtain ⟨rfl, rfl⟩ := Prod.mk.inj (Option.some.inj selected)
        exact ⟨rule, List.mem_cons_self .., applies, rfl, found⟩
      · rename_i m other k found others
        split at selected
        · exact later (others.trans selected)
        · obtain ⟨rfl, rfl⟩ := Prod.mk.inj (Option.some.inj selected)
          exact ⟨rule, List.mem_cons_self .., applies, rfl, found⟩
    · exact later selected

/-- No rule that applies has a longer match. -/
theorem select_max (member : rule ∈ rules) (applies : rule.Applies condition atBol)
    (found : longest rule.pattern text = some n) :
    ∃ action m, select condition atBol text rules = some (action, m) ∧ n ≤ m := by
  induction rules with
  | nil => cases member
  | cons first rules ih =>
    unfold select
    dsimp only
    rcases List.mem_cons.mp member with rfl | later
    · rw [if_pos applies, found]
      cases others : select condition atBol text rules with
      | none => exact ⟨_, _, rfl, Nat.le_refl _⟩
      | some best =>
        obtain ⟨other, m⟩ := best
        dsimp only
        split
        · exact ⟨_, _, rfl, Nat.le_of_lt ‹_›⟩
        · exact ⟨_, _, rfl, Nat.le_refl _⟩
    · obtain ⟨other, m, selected, le⟩ := ih later
      rw [selected]
      split
      · cases longest first.pattern text with
        | none => exact ⟨_, _, rfl, le⟩
        | some k =>
          dsimp only
          split
          · exact ⟨_, _, rfl, le⟩
          · exact ⟨_, _, rfl, by omega⟩
      · exact ⟨_, _, rfl, le⟩

end Select

end Lexer
