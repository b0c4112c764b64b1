import Mathlib.Data.List.Basic
import Mathlib.Data.List.TakeWhile

namespace Words

variable {α : Type*} {isWord : α → Bool} {left : Option α} {current text word : List α} {b : α}

/-- A maximal run of letters of a class in a text. -/
def IsWordOf (isWord : α → Bool) (word text : List α) : Prop :=
  ∃ before after, text = before ++ word ++ after ∧ word ≠ [] ∧ (∀ b ∈ word, isWord b = true) ∧
    (∀ b ∈ before.getLast?, isWord b = false) ∧ ∀ b ∈ after.head?, isWord b = false

/-- A word with the letter before it, and whether a letter follows it. -/
structure Run (α : Type*) where
  left : Option α
  text : List α
  ended : Bool

/-- The scan for words from left to right: the letter before the word that is being
read, and that word so far. -/
def runsFrom (isWord : α → Bool) (left : Option α) (current : List α) : List α → List (Run α)
  | [] => if current.isEmpty then [] else [⟨left, current, false⟩]
  | b :: rest =>
    if isWord b then runsFrom isWord left (current ++ [b]) rest
    else if current.isEmpty then runsFrom isWord (some b) [] rest
    else ⟨left, current, true⟩ :: runsFrom isWord (some b) [] rest

/-- The words of a text. -/
def runs (isWord : α → Bool) (text : List α) : List (Run α) := runsFrom isWord none [] text

/-- No word starts after a letter. -/
theorem before_eq_nil {before : List α} (letters : ∀ b ∈ before, isWord b = true)
    (start : ∀ b ∈ before.getLast?, isWord b = false) : before = [] := by
  by_contra some_
  have last := start _ (List.getLast?_eq_getLast_of_ne_nil some_)
  rw [letters _ (List.getLast_mem some_)] at last
  cases last

theorem takeWhile_word {after : List α} (letters : ∀ b ∈ word, isWord b = true)
    (stop : ∀ b ∈ after.head?, isWord b = false) : (word ++ after).takeWhile isWord = word := by
  rw [List.takeWhile_append_of_pos letters]
  cases after with
  | nil => simp
  | cons b after => simp [stop b rfl]

theorem isWordOf_self_iff (letters : ∀ b ∈ current, isWord b = true) :
    IsWordOf isWord word current ↔ word = current ∧ current ≠ [] := by
  constructor
  · rintro ⟨before, after, same, nonempty, isLetters, start, stop⟩
    obtain rfl : before = [] := before_eq_nil (fun b member => letters b (by simp [same, member])) start
    have taken := takeWhile_word isLetters stop
    rw [← List.nil_append word, ← same, List.takeWhile_eq_self_iff.mpr letters, List.nil_append] at taken
    exact ⟨taken.symm, taken ▸ nonempty⟩
  · rintro ⟨rfl, nonempty⟩
    exact ⟨[], [], by simp, nonempty, letters, by simp, by simp⟩

/-- A letter that is none of a word's separates the words before it from those after it. -/
theorem isWordOf_separated_iff (letters : ∀ b ∈ current, isWord b = true) (stops : isWord b = false) :
    IsWordOf isWord word (current ++ b :: text) ↔ word = current ∧ current ≠ [] ∨ IsWordOf isWord word text := by
  constructor
  · rintro ⟨before, after, same, nonempty, isLetters, start, stop⟩
    rcases List.append_eq_append_iff.mp (same.trans (List.append_assoc ..)) with
      ⟨inside, rfl, tail⟩ | ⟨inside, rfl, tail⟩
    · cases inside with
      | nil =>
        have starts : b ∈ word := by
          cases word with
          | nil => exact absurd rfl nonempty
          | cons first word => simp_all
        rw [isLetters b starts] at stops
        cases stops
      | cons first inside =>
        obtain ⟨rfl, rfl⟩ := List.cons.inj tail
        refine Or.inr ⟨inside, after, by simp, nonempty, isLetters, fun last member => ?_, stop⟩
        exact start last (by simp [List.getLast?_append, List.getLast?_cons, Option.mem_def.mp member])
    · obtain rfl : before = [] := before_eq_nil (fun c member => letters c (List.mem_append_left _ member)) start
      -- both are what is read up to the first letter that is none of a word's
      have insideOnly : ∀ c ∈ inside, isWord c = true := fun c member => letters c (List.mem_append_right _ member)
      have taken := takeWhile_word isLetters stop
      rw [tail, takeWhile_word insideOnly (by simpa using stops)] at taken
      subst taken
      exact Or.inl ⟨by simp, by simpa using nonempty⟩
  · rintro (⟨rfl, nonempty⟩ | ⟨before, after, rfl, nonempty, isLetters, start, stop⟩)
    · exact ⟨[], b :: text, by simp, nonempty, letters, by simp, by simpa using stops⟩
    · refine ⟨current ++ b :: before, after, by simp, nonempty, isLetters, fun last member => ?_, stop⟩
      cases before with
      | nil => simp_all
      | cons first before => exact start last (by simpa [List.getLast?_append, List.getLast?_cons] using member)

theorem isWordOf_runsFrom_iff (letters : ∀ b ∈ current, isWord b = true) :
    IsWordOf isWord word (current ++ text) ↔ ∃ run ∈ runsFrom isWord left current text, run.text = word := by
  induction text generalizing left current with
  | nil =>
    rw [List.append_nil, isWordOf_self_iff letters, runsFrom]
    cases current <;> simp [eq_comm]
  | cons b text ih =>
    rw [runsFrom]
    split
    · rename_i isLetter
      rw [← ih (by simpa [isLetter, or_imp, forall_and] using letters)]
      simp
    · rename_i separates
      have rest := @ih (some b) [] (by simp)
      rw [isWordOf_separated_iff letters (by simpa using separates), ← List.nil_append text, rest]
      cases current <;> simp [eq_comm]

/-- The scan finds the words and nothing else. -/
theorem isWordOf_iff_runs : IsWordOf isWord word text ↔ ∃ run ∈ runs isWord text, run.text = word :=
  @isWordOf_runsFrom_iff α isWord none [] text word (by simp)

/-- The number of words of one letter that stand directly before the end of a list of words. -/
def singlesBefore (earlier : List (Run α)) : Nat := (earlier.reverse.takeWhile fun run => run.text.length = 1).length

@[simp] theorem singlesBefore_nil : singlesBefore ([] : List (Run α)) = 0 := rfl

theorem singlesBefore_snoc (earlier : List (Run α)) (run : Run α) :
    singlesBefore (earlier ++ [run]) = if run.text.length = 1 then singlesBefore earlier + 1 else 0 := by
  unfold singlesBefore
  rw [List.reverse_append, List.reverse_singleton, List.singleton_append, List.takeWhile_cons]
  split <;> simp_all

end Words
