import ManDb.Lib.Decoding

namespace Encoding

open Decoding (Stop)

variable {S α β : Type*}

/-- An encoder with shift states. `read` finds the character at the start of the text,
how long it is and whether it can be represented; `put` encodes it in a shift state,
and `reset` returns from one to the initial state. -/
structure Encoder (S α β : Type*) where
  initial : S
  read : List α → Option (Nat × Bool)
  put : S → List α → List β × S
  reset : S → List β
  read_width : ∀ {xs n r}, read xs = some (n, r) → 0 < n ∧ n ≤ xs.length
  read_stable : ∀ {xs n r}, read xs = some (n, r) → ∀ ys, read (xs.take n ++ ys) = some (n, r)

/-- A buffer of this size holds every encoded character. -/
def Encoder.Fits (E : Encoder S α β) (size : Nat) : Prop := ∀ s char, (E.put s char).1.length ≤ size

/-- The text is a sequence of characters, all of which can be represented unless the
others are skipped. -/
inductive Whole (E : Encoder S α β) (skip : Bool) : List α → Prop
  | nil : Whole E skip []
  | char {xs n r} : E.read xs = some (n, r) → (r = false → skip = true) → Whole E skip (xs.drop n) → Whole E skip xs

/-- The output encodes each character of the text once and in order, from one shift
state to another. It may return to the initial state anywhere, and characters that
cannot be represented are missing if they are skipped. -/
inductive Encodes (E : Encoder S α β) (skip : Bool) : S → List α → List β → S → Prop
  | nil {s} : Encodes E skip s [] [] s
  | char {s xs n out s'} : E.read xs = some (n, true) →
      Encodes E skip (E.put s (xs.take n)).2 (xs.drop n) out s' →
      Encodes E skip s xs ((E.put s (xs.take n)).1 ++ out) s'
  | dropped {s xs n out s'} : skip = true → E.read xs = some (n, false) → Encodes E skip s (xs.drop n) out s' →
      Encodes E skip s xs out s'
  | reset {s xs out s'} : Encodes E skip E.initial xs out s' → Encodes E skip s xs (E.reset s ++ out) s'

/-- What a conversion call does: the units it uses up, the output, why it stops early
or complains, and the shift state it leaves. -/
structure Outcome (S β : Type*) where
  used : Nat
  text : List β
  stop : Option Stop
  state : S

def Outcome.after (o : Outcome S β) (n : Nat) (t : List β)  : Outcome S β :=
  { o with used := n + o.used, text := t ++ o.text }

/-- A character that was skipped is still reported at the end. -/
def Outcome.complain (o : Outcome S β) : Outcome S β := { o with stop := o.stop.or (some .illegal) }

/-- Convert with room for so many units of output, at most `turns` characters. -/
def convert (E : Encoder S α β) (skip : Bool) : (turns : Nat) → S → (room : Nat) → List α → Outcome S β
  | _, s, _, [] => ⟨0, [], none, s⟩
  | 0, s, _, _ => ⟨0, [], none, s⟩
  | turns + 1, s, room, x :: xs =>
    match E.read (x :: xs) with
    | some (n, true) =>
      let put := E.put s ((x :: xs).take n)
      if put.1.length ≤ room then (convert E skip turns put.2 (room - put.1.length) ((x :: xs).drop n)).after n put.1
      else ⟨0, [], some .full, s⟩
    | some (n, false) =>
      if skip then ((convert E skip turns s room ((x :: xs).drop n)).after n []).complain
      else ⟨0, [], some .illegal, s⟩
    | none => ⟨0, [], some .incomplete, s⟩

/-- One conversion call: every turn uses up a unit, so the input bounds their number. -/
def call (E : Encoder S α β) (skip : Bool) (s : S) (room : Nat) (xs : List α) : Outcome S β :=
  convert E skip xs.length s room xs

variable {E : Encoder S α β} {skip : Bool} {s s' s'' : S} {xs ys : List α} {out out' : List β} {n room : Nat}

theorem Encoder.read_append (E : Encoder S α β) {r : Bool} (found : E.read xs = some (n, r)) (ys : List α) :
    E.read (xs ++ ys) = some (n, r) := by
  have stable := E.read_stable found (xs.drop n ++ ys)
  rwa [← List.append_assoc, List.take_append_drop] at stable

theorem Encodes.append (first : Encodes E skip s xs out s') (second : Encodes E skip s' ys out' s'') :
    Encodes E skip s (xs ++ ys) (out ++ out') s'' := by
  induction first with
  | nil => exact second
  | @char s xs n out s' found _ ih =>
    have bound := (E.read_width found).2
    have start : (xs ++ ys).take n = xs.take n := List.take_append_of_le_length bound
    rw [List.append_assoc, ← start]
    refine .char (E.read_append found ys) ?_
    rw [List.take_append_of_le_length bound, List.drop_append_of_le_length bound]
    exact ih second
  | @dropped s xs n out s' skips found _ ih =>
    refine .dropped skips (E.read_append found ys) ?_
    rw [List.drop_append_of_le_length (E.read_width found).2]
    exact ih second
  | reset _ ih =>
    rw [List.append_assoc]
    exact .reset (ih second)

/-- What can be encoded is whole. -/
theorem Encodes.whole (encodes : Encodes E skip s xs out s') : Whole E skip xs := by
  induction encodes with
  | nil => exact .nil
  | char found _ ih => exact .char found nofun ih
  | dropped skips found _ ih => exact .char found (fun _ => skips) ih
  | reset _ ih => exact ih

theorem Whole.append (first : Whole E skip xs) (second : Whole E skip ys) : Whole E skip (xs ++ ys) := by
  induction first with
  | nil => exact second
  | char found skips _ ih =>
    refine .char (E.read_append found ys) skips ?_
    rw [List.drop_append_of_le_length (E.read_width found).2]
    exact ih

theorem Whole.mono (whole : Whole E skip xs) : Whole E true xs := by
  induction whole with
  | nil => exact .nil
  | char found _ _ ih => exact .char found (fun _ => rfl) ih

/-- A text whose first part is a sequence of characters is whole in both parts. -/
theorem Whole.split (first : Whole E true xs) (whole : Whole E skip (xs ++ ys)) :
    Whole E skip xs ∧ Whole E skip ys := by
  induction first with
  | nil => exact ⟨.nil, whole⟩
  | @char xs n r found _ _ ih =>
    have width := E.read_width found
    generalize joined : xs ++ ys = zs at whole
    cases whole with
    | nil =>
      rw [(List.append_eq_nil_iff.mp joined).1, List.length_nil] at width
      omega
    | char found' skips rest =>
      subst joined
      rw [E.read_append found ys] at found'
      cases found'
      rw [List.drop_append_of_le_length width.2] at rest
      obtain ⟨front, back⟩ := ih rest
      exact ⟨.char found skips front, back⟩

/-- The bounds of a call on any text. -/
theorem convert_bounds (turns : Nat) (s : S) (room : Nat) (xs : List α) :
    (convert E skip turns s room xs).used ≤ xs.length ∧ (convert E skip turns s room xs).text.length ≤ room := by
  induction turns generalizing s room xs with
  | zero => cases xs <;> exact ⟨Nat.zero_le _, Nat.zero_le _⟩
  | succ turns ih =>
    cases xs with
    | nil => exact ⟨Nat.zero_le _, Nat.zero_le _⟩
    | cons x xs =>
      unfold convert
      cases found : E.read (x :: xs) with
      | none => exact ⟨Nat.zero_le _, Nat.zero_le _⟩
      | some char =>
        obtain ⟨n, r⟩ := char
        have width := E.read_width found
        cases r with
        | true =>
          simp only
          generalize E.put s ((x :: xs).take n) = put
          split
          · obtain ⟨used, text⟩ := ih put.2 (room - put.1.length) ((x :: xs).drop n)
            rw [List.length_drop] at used
            simp only [Outcome.after, List.length_append]
            exact ⟨by omega, by omega⟩
          · exact ⟨Nat.zero_le _, Nat.zero_le _⟩
        | false =>
          cases skip with
          | false => exact ⟨Nat.zero_le _, Nat.zero_le _⟩
          | true =>
            obtain ⟨used, text⟩ := ih s room ((x :: xs).drop n)
            rw [List.length_drop] at used
            simp only [if_true, Outcome.complain, Outcome.after, List.nil_append]
            exact ⟨by omega, text⟩

/-- What one call does with a text that is whole. -/
structure CallSpec (E : Encoder S α β) (skip : Bool) (s : S) (xs : List α) (o : Outcome S β) : Prop where
  encodes : Encodes E skip s (xs.take o.used) o.text o.state
  rest : Whole E skip (xs.drop o.used)
  short : o.stop = some .full → o.used < xs.length
  finished : o.stop ≠ some .full → o.used = xs.length
  skips : o.stop = some .illegal → skip = true
  complete : o.stop ≠ some .incomplete

theorem CallSpec.char {o : Outcome S β} (found : E.read xs = some (n, true))
    (spec : CallSpec E skip (E.put s (xs.take n)).2 (xs.drop n) o) :
    CallSpec E skip s xs (o.after n (E.put s (xs.take n)).1) where
  encodes := by
    have width := E.read_width found
    have stable := E.read_stable found ((xs.drop n).take o.used)
    have size : (xs.take n).length = n := by
      rw [List.length_take]
      omega
    have front : (xs.take n ++ (xs.drop n).take o.used).take n = xs.take n := by
      rw [List.take_append_of_le_length (Nat.le_of_eq size.symm), List.take_of_length_le (Nat.le_of_eq size)]
    have after : (xs.take n ++ (xs.drop n).take o.used).drop n = (xs.drop n).take o.used := by
      rw [List.drop_append_of_le_length (Nat.le_of_eq size.symm), List.drop_eq_nil_of_le (Nat.le_of_eq size),
        List.nil_append]
    have whole := Encodes.char stable (by rw [front, after]; exact spec.encodes)
    rw [front, ← List.take_add] at whole
    exact whole
  rest := by
    have rest := spec.rest
    rwa [List.drop_drop] at rest
  short full := by
    have width := E.read_width found
    have short := spec.short full
    rw [List.length_drop] at short
    simp only [Outcome.after]
    omega
  finished ends := by
    have width := E.read_width found
    have finished := spec.finished ends
    rw [List.length_drop] at finished
    simp only [Outcome.after]
    omega
  skips := spec.skips
  complete := spec.complete

theorem or_illegal {stop : Option Stop} :
    (stop.or (some .illegal) = some .full ↔ stop = some .full) ∧
    (stop.or (some .illegal) = some .incomplete ↔ stop = some .incomplete) := by
  cases stop <;> simp

theorem CallSpec.dropped {o : Outcome S β} (found : E.read xs = some (n, false))
    (spec : CallSpec E true s (xs.drop n) o) : CallSpec E true s xs (o.after n []).complain where
  encodes := by
    have width := E.read_width found
    have stable := E.read_stable found ((xs.drop n).take o.used)
    have size : (xs.take n).length = n := by
      rw [List.length_take]
      omega
    simp only [Outcome.complain, Outcome.after, List.nil_append]
    rw [List.take_add]
    refine .dropped rfl stable ?_
    rw [List.drop_append_of_le_length (Nat.le_of_eq size.symm), List.drop_eq_nil_of_le (Nat.le_of_eq size),
      List.nil_append]
    exact spec.encodes
  rest := by
    have rest := spec.rest
    rwa [List.drop_drop] at rest
  short full := by
    have width := E.read_width found
    have short := spec.short (or_illegal.1.mp full)
    rw [List.length_drop] at short
    simp only [Outcome.complain, Outcome.after]
    omega
  finished ends := by
    have width := E.read_width found
    have finished := spec.finished fun full => ends (or_illegal.1.mpr full)
    rw [List.length_drop] at finished
    simp only [Outcome.complain, Outcome.after]
    omega
  skips _ := rfl
  complete incomplete := spec.complete (or_illegal.2.mp incomplete)

theorem convert_spec (turns room : Nat) (enough : xs.length ≤ turns) (whole : Whole E skip xs) :
    CallSpec E skip s xs (convert E skip turns s room xs) := by
  have nothing : ∀ s : S, CallSpec E skip s [] ⟨0, [], none, s⟩ :=
    fun _ => ⟨.nil, .nil, nofun, fun _ => rfl, nofun, nofun⟩
  induction turns generalizing s room xs with
  | zero =>
    have empty : xs = [] := List.length_eq_zero_iff.mp (by omega)
    subst empty
    exact nothing s
  | succ turns ih =>
    generalize same : xs = zs at whole
    cases whole with
    | nil => exact nothing s
    | @char _ n r found skips rest =>
      subst same
      cases xs with
      | nil => exact nothing s
      | cons x xs =>
        have width := E.read_width found
        have less : ((x :: xs).drop n).length ≤ turns := by
          rw [List.length_drop]
          omega
        unfold convert
        rw [found]
        cases r with
        | true =>
          simp only
          split
          · exact .char found (ih _ less rest)
          · exact ⟨.nil, .char found skips rest, fun _ => Nat.succ_pos _, fun ends => absurd rfl ends, nofun, nofun⟩
        | false =>
          have skipped := skips rfl
          subst skipped
          exact .dropped found (ih _ less rest)

theorem call_spec (s : S) (room : Nat) (whole : Whole E skip xs) : CallSpec E skip s xs (call E skip s room xs) :=
  convert_spec xs.length room (Nat.le_refl _) whole

/-- A call on a text that is not empty makes progress. -/
theorem call_progress (whole : Whole E skip xs) (fits : E.Fits room) (nonempty : xs ≠ []) :
    0 < (call E skip s room xs).used := by
  generalize same : xs = zs at whole
  cases whole with
  | nil => exact absurd same nonempty
  | @char _ n r found skips _ =>
    subst same
    obtain ⟨x, xs, rfl⟩ := List.exists_cons_of_ne_nil nonempty
    have width := E.read_width found
    unfold call
    rw [List.length_cons, convert, found]
    cases r with
    | true =>
      simp only
      rw [if_pos (fits _ _)]
      simp only [Outcome.after]
      omega
    | false =>
      simp only [skips rfl, if_true, Outcome.complain, Outcome.after]
      omega

theorem Encodes.of_nil (stateless : ∀ s, E.reset s = []) (encodes : Encodes E skip s xs out s') (empty : xs = []) :
    out = [] := by
  induction encodes with
  | nil => rfl
  | char found _ _ | dropped _ found _ _ =>
    have width := E.read_width found
    rw [empty, List.length_nil] at width
    omega
  | reset _ ih => rw [stateless, ih empty, List.append_nil]

section Stateless

variable [Subsingleton S] {t t' : S}

/-- Without shift states the output starts with the first character of the text. -/
theorem Encodes.of_char (stateless : ∀ s, E.reset s = []) (found : E.read xs = some (n, true))
    (encodes : Encodes E skip s xs out s') :
    ∃ rest, out = (E.put s (xs.take n)).1 ++ rest ∧ Encodes E skip (E.put s (xs.take n)).2 (xs.drop n) rest s' := by
  induction encodes with
  | nil =>
    have width := E.read_width found
    rw [List.length_nil] at width
    omega
  | char found' rest _ =>
    rw [found] at found'
    cases found'
    exact ⟨_, rfl, rest⟩
  | dropped _ found' _ _ =>
    rw [found] at found'
    cases found'
  | @reset s _ _ _ _ ih =>
    rw [stateless, List.nil_append, Subsingleton.elim s E.initial]
    exact ih found

theorem Encodes.of_dropped (stateless : ∀ s, E.reset s = []) (found : E.read xs = some (n, false))
    (encodes : Encodes E skip s xs out s') : Encodes E skip s (xs.drop n) out s' := by
  induction encodes with
  | nil =>
    have width := E.read_width found
    rw [List.length_nil] at width
    omega
  | char found' _ _ =>
    rw [found] at found'
    cases found'
  | dropped _ found' rest _ =>
    rw [found] at found'
    cases found'
    exact rest
  | @reset s _ _ _ _ ih =>
    rw [stateless, List.nil_append, Subsingleton.elim s E.initial]
    exact ih found

/-- Without shift states there is one conversion of a text. -/
theorem Encodes.unique (stateless : ∀ s, E.reset s = []) (first : Encodes E skip s xs out s')
    (second : Encodes E skip t xs out' t') : out = out' := by
  induction first generalizing t out' with
  | nil => exact (second.of_nil stateless rfl).symm
  | @char s _ _ _ _ found _ ih =>
    obtain ⟨rest, rfl, tail⟩ := second.of_char stateless found
    rw [Subsingleton.elim t s, ih tail]
  | dropped _ found _ ih => exact ih (second.of_dropped stateless found)
  | reset _ ih => rw [stateless, List.nil_append, ih second]

end Stateless

end Encoding
