import Mathlib.Algebra.Ring.Parity
import ManDb.Apropos
import ManDb.Lib.Words

namespace ManDb

variable {loc : Locale} {tests : TextTests} {pattern string : Bytes}

/-- What `word_fnmatch` has tested from here on, with what stands between `begin` and
`p`. At a byte that is none of a word's, `begin` moves on by one if at most one byte
stands there, whatever that byte is. -/
def wordTests (isWord : UInt8 → Bool) (pending : Bytes) : Bytes → List Bytes
  | [] => []
  | b :: rest =>
    if isWord b then wordTests isWord (pending ++ [b]) rest
    else if pending.length ≤ 1 then wordTests isWord (pending ++ [b]).tail rest
    else pending :: wordTests isWord [] rest

theorem wordFnmatchFrom_tests {done rest : Bytes} {start : Nat} (whole : string = done ++ rest)
    (inside : start ≤ done.length) :
    wordFnmatchFrom tests pattern string rest done.length start =
      (wordTests tests.wordByte (done.drop start) rest).any (tests.fnmatch true pattern) := by
  induction rest generalizing done start with
  | nil => rfl
  | cons b rest ih =>
    have next : string = (done ++ [b]) ++ rest := by simp [whole]
    have size : (done ++ [b]).length = done.length + 1 := by simp
    have pending : (string.drop start).take (done.length - start) = done.drop start := by
      rw [whole, List.drop_append_of_le_length inside, List.take_append_of_le_length (by simp)]
      exact List.take_of_length_le (by simp)
    simp only [wordFnmatchFrom, wordTests]
    split
    · rw [← size, ih next (by omega), List.drop_append_of_le_length inside]
    · by_cases short : done.length ≤ start + 1
      · rw [if_pos short, if_pos (by simp; omega), ← size, ih next (by omega),
          ← List.drop_append_of_le_length inside, List.tail_drop]
      · have long : ¬(done.drop start).length ≤ 1 := by simp; omega
        rw [if_neg short, if_neg long, pending, List.any_cons, ← size, ih next (Nat.le_refl _), List.drop_length]
        simp

/-- The tests, word by word: `skewed` tells that `begin` stands at the separator
before the word. -/
def runTests : (skewed : Bool) → List (Words.Run UInt8) → List Bytes
  | _, [] => []
  | skewed, run :: rest =>
    (if run.ended then
      if skewed then [run.left.toList ++ run.text] else if run.text.length = 1 then [] else [run.text]
    else []) ++ runTests (!skewed && run.text.length == 1) rest

theorem wordTests_runs (isWord : UInt8 → Bool) {skewed : Bool} {left : Option UInt8} {current : Bytes}
    (has : skewed = true → left.isSome) (rest : Bytes) :
    wordTests isWord (if skewed then left.toList ++ current else current) rest =
      runTests skewed (Words.runsFrom isWord left current rest) := by
  induction rest generalizing skewed left current with
  | nil =>
    rw [wordTests, Words.runsFrom]
    split <;> simp [runTests]
  | cons b rest ih =>
    rw [wordTests, Words.runsFrom]
    split
    · rw [← ih has]
      cases skewed <;> simp
    · cases skewed with
      | true =>
        obtain ⟨c, rfl⟩ := Option.isSome_iff_exists.mp (has rfl)
        cases current with
        | nil => simpa using @ih true (some b) [] (by simp)
        | cons first current => simpa [runTests] using @ih false (some b) [] (by simp)
      | false =>
        cases current with
        | nil => simpa using @ih false (some b) [] (by simp)
        | cons first current =>
          cases current with
          | nil => simpa [runTests] using @ih true (some b) [] (by simp)
          | cons second current => simpa [runTests] using @ih false (some b) [] (by simp)

theorem wordFnmatch_tests (tests : TextTests) (pattern string : Bytes) :
    wordFnmatch tests pattern string =
      (runTests false (Words.runs tests.wordByte string)).any (tests.fnmatch true pattern) := by
  have words := @wordTests_runs tests.wordByte false none [] (by simp) string
  rw [wordFnmatch, Words.runs, ← words]
  exact @wordFnmatchFrom_tests tests pattern string [] string 0 rfl (Nat.le_refl 0)

/-- A word of a string, with the words before it. -/
def WordAt (tests : TextTests) (string : Bytes) (earlier : List (Words.Run UInt8)) (run : Words.Run UInt8) : Prop :=
  ∃ later, Words.runs tests.wordByte string = earlier ++ run :: later

/-- A word of two bytes or more that does not end the string and has an even number of
words of one byte directly before it. -/
def Regular (earlier : List (Words.Run UInt8)) (run : Words.Run UInt8) : Prop :=
  run.ended = true ∧ run.text.length ≠ 1 ∧ Even (Words.singlesBefore earlier)

/-- A word that does not end the string and has an odd number of words of one byte
directly before it. -/
def Skewed (earlier : List (Words.Run UInt8)) (run : Words.Run UInt8) : Prop :=
  run.ended = true ∧ Odd (Words.singlesBefore earlier)

theorem mem_runTests_iff {earlier : List (Words.Run UInt8)} (runs : List (Words.Run UInt8)) {text : Bytes} :
    text ∈ runTests (decide (Odd (Words.singlesBefore earlier))) runs ↔
      ∃ before run after, runs = before ++ run :: after ∧
        (Regular (earlier ++ before) run ∧ text = run.text ∨
          Skewed (earlier ++ before) run ∧ text = run.left.toList ++ run.text) := by
  induction runs generalizing earlier with
  | nil => simp [runTests]
  | cons run runs ih =>
    have next : (!decide (Odd (Words.singlesBefore earlier)) && run.text.length == 1) =
        decide (Odd (Words.singlesBefore (earlier ++ [run]))) := by
      rw [Words.singlesBefore_snoc]
      by_cases single : run.text.length = 1 <;> simp [single, Nat.odd_add_one, -Nat.not_odd_iff_even]
    rw [runTests, next, List.mem_append, ih]
    have here : (text ∈ if run.ended then
          if decide (Odd (Words.singlesBefore earlier)) then [run.left.toList ++ run.text]
          else if run.text.length = 1 then [] else [run.text]
        else []) ↔
        Regular earlier run ∧ text = run.text ∨ Skewed earlier run ∧ text = run.left.toList ++ run.text := by
      simp only [Regular, Skewed, ← Nat.not_odd_iff_even]
      by_cases ended : run.ended = true <;> by_cases odd : Odd (Words.singlesBefore earlier) <;>
        by_cases single : run.text.length = 1 <;> simp [ended, odd, single]
    rw [here]
    constructor
    · rintro (now | ⟨before, found, after, rfl, later⟩)
      · exact ⟨[], run, runs, rfl, by simpa using now⟩
      · exact ⟨run :: before, found, after, rfl, by simpa using later⟩
    · rintro ⟨before, found, after, same, matches_⟩
      cases before with
      | nil =>
        obtain ⟨rfl, rfl⟩ := List.cons.inj same
        exact Or.inl (by simpa using matches_)
      | cons first before =>
        obtain ⟨rfl, rfl⟩ := List.cons.inj same
        exact Or.inr ⟨before, found, after, rfl, by simpa using matches_⟩

/-- What `word_fnmatch` answers: some regular word matches, or some skewed word does
together with the separator before it. -/
theorem wordFnmatch_iff (tests : TextTests) (pattern string : Bytes) :
    wordFnmatch tests pattern string = true ↔
      (∃ earlier run, WordAt tests string earlier run ∧ Regular earlier run ∧
        tests.fnmatch true pattern run.text = true) ∨
      ∃ earlier run, WordAt tests string earlier run ∧ Skewed earlier run ∧
        tests.fnmatch true pattern (run.left.toList ++ run.text) = true := by
  have tested := @mem_runTests_iff [] (Words.runs tests.wordByte string)
  simp only [List.nil_append, Words.singlesBefore_nil, Nat.not_odd_zero, decide_false] at tested
  rw [wordFnmatch_tests, List.any_eq_true]
  constructor
  · rintro ⟨text, member, hit⟩
    obtain ⟨earlier, run, later, at_, ⟨regular, rfl⟩ | ⟨skewed, rfl⟩⟩ := tested.mp member
    · exact Or.inl ⟨earlier, run, ⟨later, at_⟩, regular, hit⟩
    · exact Or.inr ⟨earlier, run, ⟨later, at_⟩, skewed, hit⟩
  · rintro (⟨earlier, run, ⟨later, at_⟩, regular, hit⟩ | ⟨earlier, run, ⟨later, at_⟩, skewed, hit⟩)
    · exact ⟨_, tested.mpr ⟨earlier, run, later, at_, Or.inl ⟨regular, rfl⟩⟩, hit⟩
    · exact ⟨_, tested.mpr ⟨earlier, run, later, at_, Or.inr ⟨skewed, rfl⟩⟩, hit⟩

/-- Some word of the string matches, as the words are found one after the other. -/
theorem word_matches_iff (tests : TextTests) (pattern string : Bytes) :
    (∃ word, Words.IsWordOf tests.wordByte word string ∧ tests.fnmatch true pattern word = true) ↔
      ∃ earlier run, WordAt tests string earlier run ∧ tests.fnmatch true pattern run.text = true := by
  simp only [Words.isWordOf_iff_runs]
  constructor
  · rintro ⟨word, ⟨run, member, rfl⟩, hit⟩
    obtain ⟨earlier, later, split⟩ := List.append_of_mem member
    exact ⟨earlier, run, ⟨later, split⟩, hit⟩
  · rintro ⟨earlier, run, ⟨later, split⟩, hit⟩
    exact ⟨run.text, ⟨run, by simp [split], rfl⟩, hit⟩

/-- `word_fnmatch` finds the matching words if and only if a regular word matches, or
the pattern matches a skewed word with its separator just when it matches a word that
is not regular. -/
theorem wordFnmatch_words_iff (tests : TextTests) (pattern string : Bytes) :
    (wordFnmatch tests pattern string = true ↔
        ∃ word, Words.IsWordOf tests.wordByte word string ∧ tests.fnmatch true pattern word = true) ↔
      (∃ earlier run, WordAt tests string earlier run ∧ Regular earlier run ∧
          tests.fnmatch true pattern run.text = true) ∨
        ((∃ earlier run, WordAt tests string earlier run ∧ Skewed earlier run ∧
            tests.fnmatch true pattern (run.left.toList ++ run.text) = true) ↔
          ∃ earlier run, WordAt tests string earlier run ∧ ¬Regular earlier run ∧
            tests.fnmatch true pattern run.text = true) := by
  have parts : (∃ earlier run, WordAt tests string earlier run ∧ tests.fnmatch true pattern run.text = true) ↔
      (∃ earlier run, WordAt tests string earlier run ∧ Regular earlier run ∧
          tests.fnmatch true pattern run.text = true) ∨
        ∃ earlier run, WordAt tests string earlier run ∧ ¬Regular earlier run ∧
          tests.fnmatch true pattern run.text = true := by
    constructor
    · rintro ⟨earlier, run, at_, hit⟩
      by_cases regular : Regular earlier run
      · exact Or.inl ⟨earlier, run, at_, regular, hit⟩
      · exact Or.inr ⟨earlier, run, at_, regular, hit⟩
    · rintro (⟨earlier, run, at_, _, hit⟩ | ⟨earlier, run, at_, _, hit⟩) <;> exact ⟨earlier, run, at_, hit⟩
  have common : ∀ a b c : Prop, (a ∨ b ↔ a ∨ c) ↔ a ∨ (b ↔ c) := by tauto
  rw [wordFnmatch_iff, word_matches_iff, parts]
  exact common _ _ _

/-- The last word of "list files" is not found. -/
theorem wordFnmatch_last_word :
    ¬∀ (tests : TextTests) (pattern string : Bytes), wordFnmatch tests pattern string = true ↔
      ∃ word, Words.IsWordOf tests.wordByte word string ∧ tests.fnmatch true pattern word = true := by
  intro finds
  have found : wordFnmatch literalTests (ascii "files") (ascii "list files") = true :=
    (finds literalTests (ascii "files") (ascii "list files")).mpr
      ⟨ascii "files",
        ⟨ascii "list ", [], by decide +kernel, by decide, by decide +kernel, by decide +kernel,
          by decide +kernel⟩,
        by decide +kernel⟩
  revert found
  decide +kernel

/-- Does a text start with a page name, ignoring case? -/
def startsWith (loc : Locale) (page text : Bytes) : Bool :=
  page.length ≤ text.length && loc.caseEq (text.take page.length) page

/-- `strcasestr`: the offset of the first occurrence. -/
def strcasestr (loc : Locale) (page : Bytes) : Bytes → Option Nat
  | [] => if startsWith loc page [] then some 0 else none
  | b :: rest => if startsWith loc page (b :: rest) then some 0 else (strcasestr loc page rest).map (· + 1)

/-- The byte of a C string at an offset: `some none` is its NUL, and `none` a byte
beyond it. -/
def readAt (s : Bytes) (i : Nat) : Option (Option UInt8) :=
  if i < s.length then some s[i]? else if i = s.length then some none else none

/-- `p == begin || (!CTYPE (isalpha, *left) && *left != '_')`. -/
def leftFree (tests : TextTests) (whatis : Bytes) (p : Nat) : Option Bool :=
  if p = 0 then some true else (readAt whatis (p - 1)).map fun byte => !byte.any tests.wordByte

/-- `!*right || (!CTYPE (isalpha, *right) && *right != '_')`. -/
def rightFree (tests : TextTests) (whatis : Bytes) (right : Nat) : Option Bool :=
  (readAt whatis right).map fun byte => !byte.any tests.wordByte

/-- The loop of `match` with the offset of `whatis` from `begin`; `none` if a byte
beyond the NUL is examined. -/
def matchLoop (loc : Locale) (tests : TextTests) (page whatis : Bytes) (pos : Nat) : Option Bool :=
  if _inside : pos ≤ whatis.length then
    match strcasestr loc page (whatis.drop pos) with
    | none => some false
    | some offset =>
      (leftFree tests whatis (pos + offset)).bind fun left =>
        if left then
          (rightFree tests whatis (pos + offset + page.length)).bind fun right =>
            if right then some true else matchLoop loc tests page whatis (pos + offset + 1)
        else matchLoop loc tests page whatis (pos + offset + 1)
  else none
termination_by whatis.length + 1 - pos

/-- An occurrence of the page name at an offset with no word byte on either side. -/
structure HitAt (loc : Locale) (tests : TextTests) (page whatis : Bytes) (p : Nat) : Prop where
  inside : p ≤ whatis.length
  starts : startsWith loc page (whatis.drop p) = true
  left : leftFree tests whatis p = some true
  right : rightFree tests whatis (p + page.length) = some true

theorem strcasestr_some {page text : Bytes} {offset : Nat} (found : strcasestr loc page text = some offset) :
    offset ≤ text.length ∧ startsWith loc page (text.drop offset) = true ∧
      ∀ k < offset, startsWith loc page (text.drop k) = false := by
  induction text generalizing offset with
  | nil =>
    simp only [strcasestr, Option.ite_none_right_eq_some, Option.some.injEq] at found
    obtain ⟨starts, rfl⟩ := found
    exact ⟨Nat.le_refl _, starts, fun k below => absurd below (Nat.not_lt_zero k)⟩
  | cons b rest ih =>
    rw [strcasestr] at found
    split at found
    · rename_i starts
      obtain rfl := Option.some.inj found
      exact ⟨Nat.zero_le _, starts, fun k below => absurd below (Nat.not_lt_zero k)⟩
    · rename_i here
      obtain ⟨k, later, rfl⟩ := Option.map_eq_some_iff.mp found
      obtain ⟨inside, starts, first⟩ := ih later
      refine ⟨by simpa using inside, starts, fun j below => ?_⟩
      cases j with
      | zero => simpa using here
      | succ j => exact first j (by omega)

theorem strcasestr_none {page text : Bytes} (missing : strcasestr loc page text = none) {k : Nat}
    (inside : k ≤ text.length) : startsWith loc page (text.drop k) = false := by
  induction text generalizing k with
  | nil => simpa [strcasestr] using missing
  | cons b rest ih =>
    rw [strcasestr] at missing
    split at missing
    · cases missing
    · rename_i here
      cases k with
      | zero => simpa using here
      | succ k => exact ih (by simpa using missing) (by simpa using inside)

/-- An occurrence ends within the string. -/
theorem startsWith_inside {page whatis : Bytes} {p : Nat} (inside : p ≤ whatis.length)
    (starts : startsWith loc page (whatis.drop p) = true) : p + page.length ≤ whatis.length := by
  have long := (Bool.and_eq_true_iff.mp starts).1
  simp only [List.length_drop, decide_eq_true_eq] at long
  omega

theorem readAt_inside {s : Bytes} {i : Nat} (inside : i ≤ s.length) : readAt s i = some s[i]? := by
  unfold readAt
  split
  · rfl
  · have last : i = s.length := by omega
    simp [last]

theorem leftFree_eq (tests : TextTests) {whatis : Bytes} {p : Nat} (inside : p ≤ whatis.length) :
    leftFree tests whatis p = some (!(whatis.take p).getLast?.any tests.wordByte) := by
  unfold leftFree
  split
  · rename_i start
    simp [start]
  · rename_i later
    rw [readAt_inside (by omega), List.getLast?_take, if_neg later]
    have before : p - 1 < whatis.length := by omega
    have present : whatis[p - 1]? = some whatis[p - 1] := List.getElem?_eq_getElem before
    simp [present]

theorem rightFree_eq (tests : TextTests) {whatis : Bytes} {right : Nat} (inside : right ≤ whatis.length) :
    rightFree tests whatis right = some (!(whatis.drop right).head?.any tests.wordByte) := by
  rw [rightFree, readAt_inside inside, List.head?_drop]
  rfl

/-- One turn of the loop: a hit where the search found the page name, or the search goes
on behind the first byte of what it found. -/
theorem matchLoop_turn (tests : TextTests) {page whatis : Bytes} {pos offset : Nat} (inside : pos ≤ whatis.length)
    (found : strcasestr loc page (whatis.drop pos) = some offset) :
    (HitAt loc tests page whatis (pos + offset) ∧ matchLoop loc tests page whatis pos = some true) ∨
      (¬HitAt loc tests page whatis (pos + offset) ∧
        matchLoop loc tests page whatis pos = matchLoop loc tests page whatis (pos + offset + 1)) := by
  obtain ⟨within, starts, _⟩ := strcasestr_some found
  rw [List.drop_drop] at starts
  have below : pos + offset ≤ whatis.length := by
    rw [List.length_drop] at within
    omega
  have left := leftFree_eq tests below
  have right := rightFree_eq tests (startsWith_inside below starts)
  rw [matchLoop, dif_pos inside, found]
  dsimp only
  rw [left, right, Option.bind_some, Option.bind_some]
  split
  · rename_i leftOk
    split
    · rename_i rightOk
      exact Or.inl ⟨⟨below, starts, by rw [left, leftOk], by rw [right, rightOk]⟩, rfl⟩
    · rename_i rightBad
      exact Or.inr ⟨fun hit => rightBad (Option.some.inj (right.symm.trans hit.right)), rfl⟩
  · rename_i leftBad
    exact Or.inr ⟨fun hit => leftBad (Option.some.inj (left.symm.trans hit.left)), rfl⟩

/-- There is no hit before what the search found. -/
theorem HitAt.reached {page whatis : Bytes} {pos offset p : Nat} (hit : HitAt loc tests page whatis p)
    (from_ : pos ≤ p) (found : strcasestr loc page (whatis.drop pos) = some offset) : pos + offset ≤ p := by
  by_contra before
  have starts := (strcasestr_some found).2.2 (p - pos) (by omega)
  rw [List.drop_drop, Nat.add_sub_cancel' from_, hit.starts] at starts
  cases starts

/-- If there is a hit, the loop gets to it. -/
theorem matchLoop_hit {page whatis : Bytes} {pos p : Nat} (hit : HitAt loc tests page whatis p) (from_ : pos ≤ p) :
    matchLoop loc tests page whatis pos = some true := by
  induction left : p - pos using Nat.strong_induction_on generalizing pos with
  | _ n ih =>
    have inside : pos ≤ whatis.length := from_.trans hit.inside
    cases search : strcasestr loc page (whatis.drop pos) with
    | none =>
      have missing := strcasestr_none search (k := p - pos) (by rw [List.length_drop]; have := hit.inside; omega)
      rw [List.drop_drop, Nat.add_sub_cancel' from_, hit.starts] at missing
      cases missing
    | some offset =>
      have reached := hit.reached from_ search
      rcases matchLoop_turn tests inside search with ⟨_, found⟩ | ⟨other, next⟩
      · exact found
      · have later : pos + offset ≠ p := fun same => other (same ▸ hit)
        rw [next]
        exact ih _ (by omega) (by omega) rfl

/-- If there is none, it ends at the NUL with a keyword, and runs over it without. -/
theorem matchLoop_miss {page whatis : Bytes} {pos : Nat} (inside : page ≠ [] → pos ≤ whatis.length)
    (miss : ∀ p, pos ≤ p → ¬HitAt loc tests page whatis p) :
    matchLoop loc tests page whatis pos = if page = [] then none else some false := by
  induction left : whatis.length + 1 - pos using Nat.strong_induction_on generalizing pos with
  | _ n ih =>
    by_cases within : pos ≤ whatis.length
    · cases search : strcasestr loc page (whatis.drop pos) with
      | none =>
        have nonempty : page ≠ [] := by
          rintro rfl
          have starts := strcasestr_none search (Nat.zero_le _)
          simp [startsWith, Locale.caseEq] at starts
        rw [matchLoop, dif_pos within, search, if_neg nonempty]
      | some offset =>
        rcases matchLoop_turn tests within search with ⟨hit, _⟩ | ⟨_, next⟩
        · exact absurd hit (miss _ (by omega))
        · rw [next]
          refine ih _ (by omega) (fun nonempty => ?_) (fun p later => miss p (by omega)) rfl
          obtain ⟨bound, starts, _⟩ := strcasestr_some search
          rw [List.drop_drop] at starts
          rw [List.length_drop] at bound
          have ends := startsWith_inside (by omega) starts
          have long := List.length_pos_iff.mpr nonempty
          omega
    · have empty : page = [] := by
        by_contra nonempty
        exact within (inside nonempty)
      rw [matchLoop, dif_neg within, if_pos empty]

/-- A hit where a part of the text ends. -/
theorem hitAt_append_iff {page done rest : Bytes} :
    HitAt loc tests page (done ++ rest) done.length ↔
      startsWith loc page rest = true ∧ (!done.getLast?.any tests.wordByte) = true ∧
        (!(rest.drop page.length).head?.any tests.wordByte) = true := by
  have within : done.length ≤ (done ++ rest).length := by simp
  have left := leftFree_eq tests within
  rw [List.take_left] at left
  constructor
  · intro hit
    have right := rightFree_eq tests (startsWith_inside within hit.starts)
    rw [List.drop_append, List.drop_of_length_le (by omega), List.nil_append, Nat.add_sub_cancel_left] at right
    refine ⟨by simpa using hit.starts, ?_, ?_⟩
    · exact Option.some.inj (left.symm.trans hit.left)
    · exact Option.some.inj (right.symm.trans hit.right)
  · rintro ⟨starts, leftOk, rightOk⟩
    have starts' : startsWith loc page ((done ++ rest).drop done.length) = true := by simpa using starts
    have right := rightFree_eq tests (startsWith_inside within starts')
    rw [List.drop_append, List.drop_of_length_le (by omega), List.nil_append, Nat.add_sub_cancel_left] at right
    exact ⟨within, starts', left.trans (congrArg some leftOk), right.trans (congrArg some rightOk)⟩

/-- The keyword occurs in the text, ignoring case, with no word byte on either side. -/
def OccursAsWord (loc : Locale) (tests : TextTests) (page whatis : Bytes) : Prop :=
  ∃ before found after, whatis = before ++ found ++ after ∧ loc.caseEq found page = true ∧
    (∀ b ∈ before.getLast?, tests.wordByte b = false) ∧ ∀ b ∈ after.head?, tests.wordByte b = false

/-- There is a place in the text with no word byte on either side. -/
def HasGap (tests : TextTests) (whatis : Bytes) : Prop :=
  ∃ before after, whatis = before ++ after ∧
    (∀ b ∈ before.getLast?, tests.wordByte b = false) ∧ ∀ b ∈ after.head?, tests.wordByte b = false

theorem any_wordByte_iff (byte : Option UInt8) :
    (!byte.any tests.wordByte) = true ↔ ∀ b ∈ byte, tests.wordByte b = false := by
  cases byte <;> simp

theorem occursAsWord_iff_hit (loc : Locale) (tests : TextTests) (page whatis : Bytes) :
    OccursAsWord loc tests page whatis ↔ ∃ p, HitAt loc tests page whatis p := by
  constructor
  · rintro ⟨before, found, after, rfl, same, left, right⟩
    have size : found.length = page.length := by
      have lowered := congrArg List.length (eq_of_beq same)
      simpa using lowered
    refine ⟨before.length, ?_⟩
    rw [List.append_assoc, hitAt_append_iff, any_wordByte_iff, any_wordByte_iff]
    refine ⟨?_, left, ?_⟩
    · rw [startsWith, ← size, List.take_left, same]
      simp
    · rwa [← size, List.drop_left]
  · rintro ⟨p, hit⟩
    have ends := startsWith_inside hit.inside hit.starts
    refine ⟨whatis.take p, (whatis.drop p).take page.length, whatis.drop (p + page.length), ?_, ?_, ?_, ?_⟩
    · rw [List.append_assoc, ← List.drop_drop, List.take_append_drop, List.take_append_drop]
    · exact (Bool.and_eq_true_iff.mp hit.starts).2
    · have left := hit.left
      rwa [leftFree_eq tests hit.inside, Option.some.injEq, any_wordByte_iff] at left
    · have right := hit.right
      rwa [rightFree_eq tests ends, Option.some.injEq, any_wordByte_iff] at right

theorem occursAsWord_nil_iff (loc : Locale) (tests : TextTests) (whatis : Bytes) :
    OccursAsWord loc tests [] whatis ↔ HasGap tests whatis := by
  constructor
  · rintro ⟨before, found, after, rfl, same, left, right⟩
    obtain rfl : found = [] := by simpa [Locale.caseEq, Locale.lower] using same
    exact ⟨before, after, by simp, left, right⟩
  · rintro ⟨before, after, rfl, left, right⟩
    exact ⟨before, [], after, by simp, by simp [Locale.caseEq], left, right⟩

/-- `match` stays within the string and finds the words if and only if there is a
keyword, or a place where the empty one counts as a word. -/
theorem match_words_iff (loc : Locale) (tests : TextTests) (page whatis : Bytes) :
    (∃ found, matchLoop loc tests page whatis 0 = some found ∧ (found = true ↔ OccursAsWord loc tests page whatis)) ↔
      page ≠ [] ∨ HasGap tests whatis := by
  rw [← occursAsWord_nil_iff loc tests whatis]
  by_cases occurs : OccursAsWord loc tests page whatis
  · obtain ⟨p, hit⟩ := (occursAsWord_iff_hit _ _ _ _).mp occurs
    refine iff_of_true ⟨true, matchLoop_hit hit (Nat.zero_le p), iff_of_true rfl occurs⟩ ?_
    by_cases empty : page = []
    · exact Or.inr (empty ▸ occurs)
    · exact Or.inl empty
  · have ends := @matchLoop_miss loc tests page whatis 0 (fun _ => Nat.zero_le _) fun p _ hit =>
      occurs ((occursAsWord_iff_hit _ _ _ _).mpr ⟨p, hit⟩)
    rw [ends]
    by_cases empty : page = []
    · subst empty
      simp [occurs]
    · simp [empty, occurs]

/-- With an empty keyword and the description "foo" the scan leaves the string. -/
theorem match_leaves_string :
    ¬∀ (loc : Locale) (tests : TextTests) (page whatis : Bytes),
      ∃ found, matchLoop loc tests page whatis 0 = some found ∧
        (found = true ↔ OccursAsWord loc tests page whatis) := by
  intro stays
  obtain ⟨found, returns, _⟩ := stays .posix literalTests [] (ascii "foo")
  have leaves := @matchLoop_miss .posix literalTests [] (ascii "foo") 0 (fun _ => Nat.zero_le _) fun p _ hit => by
      have inside : p ≤ 3 := hit.inside
      have left := hit.left
      have right := hit.right
      have places : p = 0 ∨ p = 1 ∨ p = 2 ∨ p = 3 := by omega
      revert left right
      rcases places with rfl | rfl | rfl | rfl <;> decide
  rw [leaves] at returns
  cases returns

theorem matchFrom_iff_hit {page done rest : Bytes} :
    matchFrom loc tests page done.getLast? rest = true ↔
      ∃ p, done.length ≤ p ∧ HitAt loc tests page (done ++ rest) p := by
  induction rest generalizing done with
  | nil =>
    have here := @hitAt_append_iff loc tests page done []
    have empty : startsWith loc page [] = page.isEmpty := by cases page <;> simp [startsWith, Locale.caseEq]
    rw [matchFrom, Bool.and_eq_true]
    constructor
    · rintro ⟨isEmpty, left⟩
      exact ⟨done.length, Nat.le_refl _, here.mpr ⟨empty.trans isEmpty, left, by simp⟩⟩
    · rintro ⟨p, after, hit⟩
      have inside := hit.inside
      obtain rfl : p = done.length := by simp at inside; omega
      obtain ⟨starts, left, _⟩ := here.mp hit
      exact ⟨empty.symm.trans starts, left⟩
  | cons b rest ih =>
    have here := @hitAt_append_iff loc tests page done (b :: rest)
    have later := @ih (done ++ [b])
    have last : (done ++ [b]).getLast? = some b := by simp
    rw [last, List.append_assoc, List.singleton_append, List.length_append, List.length_singleton] at later
    have test : (page.length ≤ (b :: rest).length && loc.caseEq ((b :: rest).take page.length) page &&
        !done.getLast?.any tests.wordByte && !(((b :: rest).drop page.length).head?).any tests.wordByte) = true ↔
        HitAt loc tests page (done ++ b :: rest) done.length := by
      rw [here, startsWith]
      simp only [Bool.and_eq_true, and_assoc]
    rw [matchFrom, Bool.or_eq_true, test, later]
    constructor
    · rintro (hit | ⟨p, after, hit⟩)
      · exact ⟨done.length, Nat.le_refl _, hit⟩
      · exact ⟨p, by omega, hit⟩
    · rintro ⟨p, after, hit⟩
      by_cases same : p = done.length
      · exact Or.inl (same ▸ hit)
      · exact Or.inr ⟨p, by omega, hit⟩

/-- The search for words that apropos runs on says what `match` says, and takes a text
that is left for one without a match. -/
theorem wordMatch_eq (loc : Locale) (tests : TextTests) (page whatis : Bytes) :
    wordMatch loc tests page whatis = (matchLoop loc tests page whatis 0).getD false := by
  have search : wordMatch loc tests page whatis = true ↔ ∃ p, HitAt loc tests page whatis p := by
    rw [wordMatch]
    simpa using @matchFrom_iff_hit loc tests page [] whatis
  by_cases hits : ∃ p, HitAt loc tests page whatis p
  · obtain ⟨p, hit⟩ := hits
    rw [search.mpr ⟨p, hit⟩, matchLoop_hit hit (Nat.zero_le p)]
    rfl
  · rw [matchLoop_miss (fun _ => Nat.zero_le _) fun p _ hit => hits ⟨p, hit⟩]
    have missed : wordMatch loc tests page whatis = false := by simpa using mt search.mp hits
    rw [missed]
    split <;> rfl

end ManDb
