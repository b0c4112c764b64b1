import Mathlib.Data.List.TakeDrop

namespace Decoding

variable {α β : Type*}

/-- What a decoder finds at the start of its input. -/
inductive Found (β : Type*) where
  | char (width : Nat) (text : List β)
  | illegal (width : Nat)
  | incomplete

/-- A stateless decoder, character by character. A character is recognised from
its own units alone, and what is illegal stays so whatever follows. -/
structure Decoder (α β : Type*) where
  next : List α → Found β
  char_width : ∀ {xs n t}, next xs = .char n t → 0 < n ∧ n ≤ xs.length
  char_text : ∀ {xs n t}, next xs = .char n t → t ≠ []
  char_stable : ∀ {xs n t}, next xs = .char n t → ∀ ys, next (xs.take n ++ ys) = .char n t
  illegal_width : ∀ {xs n}, next xs = .illegal n → 0 < n ∧ n ≤ xs.length
  illegal_stable : ∀ {xs n}, next xs = .illegal n → ∀ ys, ∃ m, next (xs ++ ys) = .illegal m

/-- Buffers of this size hold every character and every incomplete one. -/
structure Decoder.Fits (D : Decoder α β) (size : Nat) : Prop where
  text : ∀ {xs n t}, D.next xs = .char n t → t.length ≤ size
  incomplete : ∀ {xs}, D.next xs = .incomplete → xs.length < size

/-- The input is a sequence of characters with this text. -/
inductive Decodes (D : Decoder α β) : List α → List β → Prop
  | nil : Decodes D [] []
  | char {xs n t ts} : D.next xs = .char n t → Decodes D (xs.drop n) ts → Decodes D xs (t ++ ts)

/-- Why a conversion call stops before the end of its input. -/
inductive Stop where
  | illegal
  | incomplete
  | full
  deriving DecidableEq, Repr

/-- What a conversion call does: the units it uses up, the text it gives, and why
it stops early or complains. -/
structure Outcome (β : Type*) where
  used : Nat
  text : List β
  stop : Option Stop

def Outcome.after (o : Outcome β) (n : Nat) (t : List β) : Outcome β := ⟨n + o.used, t ++ o.text, o.stop⟩

/-- Illegal input that was skipped is still reported at the end. -/
def Outcome.complain (o : Outcome β) : Outcome β := { o with stop := o.stop.or (some .illegal) }

/-- Convert with room for so many units of text, at most `turns` characters. -/
def convert (D : Decoder α β) (skipIllegal : Bool) : (turns room : Nat) → List α → Outcome β
  | _, _, [] => ⟨0, [], none⟩
  | 0, _, _ => ⟨0, [], none⟩
  | turns + 1, room, x :: xs =>
    match D.next (x :: xs) with
    | .char n t =>
      if t.length ≤ room then (convert D skipIllegal turns (room - t.length) ((x :: xs).drop n)).after n t
      else ⟨0, [], some .full⟩
    | .illegal n =>
      if skipIllegal then ((convert D skipIllegal turns room ((x :: xs).drop n)).after n []).complain
      else ⟨0, [], some .illegal⟩
    | .incomplete => ⟨0, [], some .incomplete⟩

/-- One conversion call: every turn uses up a unit, so the input bounds their number. -/
def call (D : Decoder α β) (skipIllegal : Bool) (room : Nat) (xs : List α) : Outcome β :=
  convert D skipIllegal xs.length room xs

variable {D : Decoder α β} {xs ys : List α} {ts us : List β}

theorem Decoder.next_append (D : Decoder α β) {n : Nat} {t : List β} (found : D.next xs = .char n t) (ys : List α) :
    D.next (xs ++ ys) = .char n t := by
  have stable := D.char_stable found (xs.drop n ++ ys)
  rwa [← List.append_assoc, List.take_append_drop] at stable

theorem Decodes.append (first : Decodes D xs ts) (second : Decodes D ys us) : Decodes D (xs ++ ys) (ts ++ us) := by
  induction first with
  | nil => exact second
  | @char xs n t ts found rest ih =>
    have bound := (D.char_width found).2
    rw [List.append_assoc]
    refine .char (D.next_append found ys) ?_
    rw [List.drop_append_of_le_length bound]
    exact ih

theorem Decodes.eq_nil (decodes : Decodes D [] ts) : ts = [] := by
  cases decodes with
  | nil => rfl
  | char found _ =>
    have width := D.char_width found
    simp only [List.length_nil] at width
    omega

theorem Decodes.head (decodes : Decodes D xs ts) (nonempty : xs ≠ []) :
    ∃ n t us, D.next xs = .char n t ∧ Decodes D (xs.drop n) us ∧ ts = t ++ us := by
  cases decodes with
  | nil => exact absurd rfl nonempty
  | char found rest => exact ⟨_, _, _, found, rest, rfl⟩

theorem Decodes.text_ne_nil (decodes : Decodes D xs ts) (nonempty : xs ≠ []) : ts ≠ [] := by
  obtain ⟨n, t, us, found, _, rfl⟩ := decodes.head nonempty
  have some := D.char_text found
  simp [some]

/-- After a part that decodes the rest of a text that decodes does so too. -/
theorem Decodes.cancel (first : Decodes D xs ts) (whole : Decodes D (xs ++ ys) us) :
    ∃ vs, Decodes D ys vs ∧ us = ts ++ vs := by
  induction first generalizing us with
  | nil => exact ⟨us, whole, rfl⟩
  | @char xs n t ts found rest ih =>
    have bound := D.char_width found
    have nonempty : xs ++ ys ≠ [] := by
      intro empty
      simp [(List.append_eq_nil_iff.mp empty).1] at bound
      omega
    obtain ⟨m, t', us', found', rest', rfl⟩ := whole.head nonempty
    rw [D.next_append found ys, Found.char.injEq] at found'
    obtain ⟨rfl, rfl⟩ := found'
    rw [List.drop_append_of_le_length bound.2] at rest'
    obtain ⟨vs, decodes, rfl⟩ := ih rest'
    exact ⟨vs, decodes, by rw [List.append_assoc]⟩

theorem Decodes.unique (first : Decodes D xs ts) (second : Decodes D xs us) : ts = us := by
  have whole : Decodes D (xs ++ []) us := by rwa [List.append_nil]
  obtain ⟨vs, none, rfl⟩ := first.cancel whole
  rw [none.eq_nil, List.append_nil]

/-- What holds where a call stops, of the input that is left. -/
def Halted (D : Decoder α β) (skipIllegal : Bool) (room : Nat) (rest : List α) : Option Stop → Prop
  | none => rest = []
  | some .illegal => if skipIllegal then rest = [] else ∃ n, D.next rest = .illegal n
  | some .incomplete => rest ≠ [] ∧ D.next rest = .incomplete
  | some .full => ∃ n t, D.next rest = .char n t ∧ room < t.length

/-- What one call does. -/
structure CallSpec (D : Decoder α β) (skipIllegal : Bool) (room : Nat) (xs : List α) (o : Outcome β) : Prop where
  used_le : o.used ≤ xs.length
  text_le : o.text.length ≤ room
  halted : Halted D skipIllegal (room - o.text.length) (xs.drop o.used) o.stop
  silent : o.used = 0 → o.text = []
  decodes : skipIllegal = false → Decodes D (xs.take o.used) o.text

theorem CallSpec.after {skipIllegal : Bool} {room n : Nat} {t : List β} {o : Outcome β}
    (found : D.next xs = .char n t)
    (fits : t.length ≤ room) (spec : CallSpec D skipIllegal (room - t.length) (xs.drop n) o) :
    CallSpec D skipIllegal room xs (o.after n t) where
  used_le := by
    have width := D.char_width found
    have used := spec.used_le
    rw [List.length_drop] at used
    simp only [Outcome.after]
    omega
  text_le := by
    have text := spec.text_le
    simp only [Outcome.after, List.length_append]
    omega
  halted := by
    have halted := spec.halted
    simp only [Outcome.after, List.length_append]
    rwa [List.drop_drop, Nat.sub_sub] at halted
  silent none := by
    have width := D.char_width found
    simp only [Outcome.after] at none
    omega
  decodes strict := by
    have width := D.char_width found
    have stable := D.char_stable found (((xs.drop n).take o.used))
    have split : xs.take (n + o.used) = xs.take n ++ (xs.drop n).take o.used := List.take_add
    simp only [Outcome.after, split]
    refine .char stable ?_
    rw [List.drop_append_of_le_length (by rw [List.length_take]; omega), List.drop_eq_nil_of_le
      (by rw [List.length_take]; omega), List.nil_append]
    exact spec.decodes strict

theorem CallSpec.complain {room n : Nat} {o : Outcome β} (found : D.next xs = .illegal n)
    (spec : CallSpec D true room (xs.drop n) o) : CallSpec D true room xs (o.after n []).complain where
  used_le := by
    have width := D.illegal_width found
    have used := spec.used_le
    rw [List.length_drop] at used
    simp only [Outcome.complain, Outcome.after]
    omega
  text_le := spec.text_le
  halted := by
    have halted := spec.halted
    rw [List.drop_drop] at halted
    simp only [Outcome.complain, Outcome.after, List.nil_append]
    cases stop : o.stop with
    | none =>
      rw [stop] at halted
      exact halted
    | some stop' =>
      rw [stop] at halted
      exact halted
  silent none := by
    have width := D.illegal_width found
    simp only [Outcome.complain, Outcome.after] at none
    omega
  decodes := nofun

theorem convert_spec (skipIllegal : Bool) (turns room : Nat) (enough : xs.length ≤ turns) :
    CallSpec D skipIllegal room xs (convert D skipIllegal turns room xs) := by
  induction turns generalizing room xs with
  | zero =>
    have empty : xs = [] := List.length_eq_zero_iff.mp (by omega)
    subst empty
    exact ⟨Nat.le_refl _, Nat.zero_le _, rfl, fun _ => rfl, fun _ => .nil⟩
  | succ turns ih =>
    cases xs with
    | nil => exact ⟨Nat.le_refl _, Nat.zero_le _, rfl, fun _ => rfl, fun _ => .nil⟩
    | cons x xs =>
      unfold convert
      cases found : D.next (x :: xs) with
      | char n t =>
        have width := D.char_width found
        simp only
        split
        · rename_i fits
          refine CallSpec.after found fits (ih _ ?_)
          rw [List.length_drop]
          omega
        · rename_i large
          exact ⟨Nat.zero_le _, Nat.zero_le _, ⟨n, t, found, by simpa using large⟩, fun _ => rfl, fun _ => .nil⟩
      | illegal n =>
        have width := D.illegal_width found
        cases skipIllegal with
        | false => exact ⟨Nat.zero_le _, Nat.zero_le _, ⟨n, found⟩, fun _ => rfl, fun _ => .nil⟩
        | true =>
          refine CallSpec.complain found (ih _ ?_)
          rw [List.length_drop]
          omega
      | incomplete => exact ⟨Nat.zero_le _, Nat.zero_le _, ⟨by simp, found⟩, fun _ => rfl, fun _ => .nil⟩

theorem call_spec (D : Decoder α β) (skipIllegal : Bool) (room : Nat) (xs : List α) :
    CallSpec D skipIllegal room xs (call D skipIllegal room xs) :=
  convert_spec skipIllegal xs.length room (Nat.le_refl _)

/-- A call that does not run into anything illegal does not depend on how that is treated. -/
theorem convert_skip (turns room : Nat) (legal : (convert D false turns room xs).stop ≠ some .illegal) :
    convert D true turns room xs = convert D false turns room xs := by
  induction turns generalizing room xs with
  | zero => cases xs <;> rfl
  | succ turns ih =>
    cases xs with
    | nil => rfl
    | cons x xs =>
      unfold convert at legal ⊢
      cases found : D.next (x :: xs) with
      | char n t =>
        simp only [found] at legal ⊢
        split
        · rename_i fits
          rw [if_pos fits] at legal
          rw [ih _ legal]
        · rfl
      | illegal n => simp [found] at legal
      | incomplete => rfl

theorem call_skip {room : Nat} (legal : (call D false room xs).stop ≠ some .illegal) :
    call D true room xs = call D false room xs := convert_skip _ _ legal

/-- A call that uses nothing up has met something illegal, or all of its input is
incomplete and does not fill the buffer. -/
theorem CallSpec.stuck {skipIllegal : Bool} {room : Nat} {o : Outcome β} (spec : CallSpec D skipIllegal room xs o)
    (fits : D.Fits room) (nonempty : xs ≠ []) (none : o.used = 0) :
    (skipIllegal = false ∧ o.stop = some .illegal) ∨ (o.stop = some .incomplete ∧ xs.length < room) := by
  have halted := spec.halted
  rw [none, spec.silent none, List.drop_zero, List.length_nil, Nat.sub_zero] at halted
  cases stop : o.stop with
  | none =>
    rw [stop] at halted
    exact absurd halted nonempty
  | some stop' =>
    rw [stop] at halted
    cases stop' with
    | illegal =>
      cases skipIllegal with
      | false => exact Or.inl ⟨rfl, rfl⟩
      | true => exact absurd halted nonempty
    | incomplete => exact Or.inr ⟨rfl, fits.incomplete halted.2⟩
    | full =>
      obtain ⟨n, t, found, large⟩ := halted
      have small := fits.text found
      omega

/-- A call on the front part of an input that decodes: it meets nothing illegal, and
nothing incomplete unless there is more, and the rest decodes from there on. -/
theorem Decodes.call {room : Nat} (whole : Decodes D (xs ++ ys) us) :
    (Decoding.call D false room xs).stop ≠ some .illegal ∧
    ((Decoding.call D false room xs).stop = some .incomplete → ys ≠ []) ∧
    ∃ vs, Decodes D (xs.drop (Decoding.call D false room xs).used ++ ys) vs ∧
      us = (Decoding.call D false room xs).text ++ vs := by
  have spec := call_spec D false room xs
  generalize Decoding.call D false room xs = o at spec ⊢
  have split : xs ++ ys = xs.take o.used ++ (xs.drop o.used ++ ys) := by
    rw [← List.append_assoc, List.take_append_drop]
  rw [split] at whole
  obtain ⟨vs, rest, text⟩ := (spec.decodes rfl).cancel whole
  have halted := spec.halted
  refine ⟨fun illegal => ?_, fun incomplete empty => ?_, vs, rest, text⟩
  · rw [illegal] at halted
    obtain ⟨n, found⟩ := halted
    have width := D.illegal_width found
    obtain ⟨m, found'⟩ := D.illegal_stable found ys
    have nonempty : xs.drop o.used ++ ys ≠ [] := by
      intro empty
      rw [(List.append_eq_nil_iff.mp empty).1, List.length_nil] at width
      omega
    obtain ⟨k, t, ws, char, _⟩ := rest.head nonempty
    rw [char] at found'
    cases found'
  · rw [incomplete] at halted
    rw [empty, List.append_nil] at rest
    obtain ⟨k, t, ws, char, _⟩ := rest.head halted.1
    have found := halted.2
    rw [char] at found
    cases found

/-- A call on an input that decodes to a text for which there is room. -/
theorem Decodes.call_eq {room : Nat} (decodes : Decodes D xs ts) (fits : ts.length ≤ room) (skipIllegal : Bool) :
    Decoding.call D skipIllegal room xs = ⟨xs.length, ts, none⟩ := by
  have enough : ∀ turns, xs.length ≤ turns → convert D skipIllegal turns room xs = ⟨xs.length, ts, none⟩ := by
    induction decodes generalizing room with
    | nil => intro turns _; cases turns <;> rfl
    | @char xs n t ts found rest ih =>
      intro turns bound
      have width := D.char_width found
      rw [List.length_append] at fits
      cases xs with
      | nil => simp at width; omega
      | cons x xs =>
        obtain ⟨turns, rfl⟩ : ∃ k, turns = k + 1 := Nat.exists_eq_succ_of_ne_zero (by rintro rfl; simp at bound)
        have shorter := @ih (room - t.length) (by omega) turns (by
          rw [List.length_drop, List.length_cons] at *
          omega)
        rw [convert, found]
        simp only
        rw [if_pos (by omega), shorter, Outcome.after, List.length_drop, Nat.add_sub_of_le width.2]
  exact enough xs.length (Nat.le_refl _)

end Decoding
