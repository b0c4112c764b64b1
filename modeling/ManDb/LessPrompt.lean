import ManDb.Globbing
import ManDb.Lib.Substitute

namespace ManDb

/-- A byte stored through a pointer that has moved over a buffer of this size. -/
def putByte (size : Nat) (written : Bytes) (c : UInt8) : Option Bytes :=
  if written.length < size then some (written ++ [c]) else none

/-- The characters that `less` wants escaped in a prompt. -/
def lessSpecial (c : UInt8) : Bool := (ascii "?:.%\\").contains c

/-- The loop of `escape_less`: what is in the buffer, and what is left of the string. -/
def escapeLessLoop (size : Nat) : Bytes → Bytes → Option Bytes
  | written, [] => (putByte size written 0).map fun _ => written
  | written, c :: string => do
    let c := if c = dollar then question else c
    let written ← if lessSpecial c then putByte size written backslash else some written
    let written ← putByte size written c
    escapeLessLoop size written string

/-- `escape_less`. A buffer that is too small gives `none`. -/
def escapeLess (string : Bytes) : Option Bytes := escapeLessLoop (2 * string.length + 1) [] string

/-- `MAN_PN`. -/
def manPn : Bytes := ascii "$MAN_PN"

/-- `xasprintf (LESS_OPTS, prompt_string, prompt_string)`. -/
def lessOpts (promptString : Bytes) : Bytes :=
  ascii "-ix8RmPm" ++ promptString ++ ascii "$PM" ++ promptString ++ ascii "$"

/-- `strcat` into a buffer of this size. -/
def strcat (size : Nat) (dest src : Bytes) : Option Bytes :=
  if (dest ++ src).length + 1 ≤ size then some (dest ++ src) else none

/-- `strncpy` and the NUL behind the copied bytes. -/
def strncpyEnded (size : Nat) (src : Bytes) (n : Nat) : Option Bytes :=
  if n + 1 ≤ size then some (src.take n) else none

/-- A turn of the loop of `setenv_less`, with the buffer that is allocated for it. -/
def setenvLessTurn (escTitle lessOpts : Bytes) : Option Bytes ⊕ Bytes :=
  match Separated.cutAt manPn lessOpts with
  | none => .inl (some lessOpts)
  | some (before, rest) =>
    let size := lessOpts.length - manPn.length + escTitle.length + 1
    match (strncpyEnded size lessOpts before.length).bind fun substOpts =>
      (strcat size substOpts escTitle).bind fun substOpts => strcat size substOpts rest with
    | none => .inl none
    | some substOpts => .inr substOpts

/-- `setenv_less`, for at most so many turns of its loop: the values of LESS and MAN_PN. -/
def setenvLess (promptString : Bytes) (less : Option Bytes) (title : Bytes) (turns : Nat) :
    Option (Option (Bytes × Bytes)) :=
  match escapeLess title with
  | none => some none
  | some escTitle =>
    (Loop.run (setenvLessTurn escTitle) turns (lessOpts promptString ++ less.getD [])).map fun opts =>
      opts.map fun opts => (opts, escTitle)

variable {string written title opts before rest : Bytes} {size : Nat}

/-- What a byte of the title becomes. -/
def escapeLessByte (c : UInt8) : Bytes :=
  let c := if c = dollar then question else c
  if lessSpecial c then [backslash, c] else [c]

theorem escapeLessByte_spec : ∀ c : UInt8, (escapeLessByte c).length ≤ 2 ∧ dollar ∉ escapeLessByte c :=
  forall_byte (by decide)

theorem putByte_fits {c : UInt8} (fits : written.length < size) : putByte size written c = some (written ++ [c]) :=
  if_pos fits

/-- Two bytes for each one of the title are enough, and one for the NUL. -/
theorem escapeLessLoop_fits (enough : written.length + 2 * string.length + 1 ≤ size) :
    escapeLessLoop size written string = some (written ++ string.flatMap escapeLessByte) := by
  induction string generalizing written with
  | nil =>
    rw [List.length_nil] at enough
    rw [escapeLessLoop, putByte_fits (by omega), List.flatMap_nil, List.append_nil]
    rfl
  | cons c string ih =>
    rw [List.length_cons] at enough
    rw [escapeLessLoop, List.flatMap_cons]
    simp only [escapeLessByte]
    generalize (if c = dollar then question else c) = c
    by_cases special : lessSpecial c
    · rw [if_pos special, if_pos special, putByte_fits (by omega), Option.bind_eq_bind, Option.bind_some,
        putByte_fits (by simp; omega), Option.bind_some, ih (by simp; omega)]
      simp
    · rw [if_neg special, if_neg special, Option.bind_eq_bind, Option.bind_some, putByte_fits (by omega),
        Option.bind_some, ih (by simp; omega)]
      simp

theorem escapeLess_eq (string : Bytes) : escapeLess string = some (string.flatMap escapeLessByte) :=
  escapeLessLoop_fits (by rw [List.length_nil, Nat.zero_add])

/-- No dollar sign of the title is left. -/
theorem dollar_not_mem_escaped (string : Bytes) : dollar ∉ string.flatMap escapeLessByte := by
  rw [List.mem_flatMap]
  rintro ⟨c, _, member⟩
  exact (escapeLessByte_spec c).2 member

/-- The new string has precisely the room that it needs. -/
theorem setenvLessTurn_eq (escTitle opts : Bytes) :
    setenvLessTurn escTitle opts = Sum.map some id (Substitute.turn manPn escTitle opts) := by
  unfold setenvLessTurn Substitute.turn
  cases found : Separated.cutAt manPn opts with
  | none => rfl
  | some parts =>
    obtain ⟨before, rest⟩ := parts
    have whole : opts = before ++ (manPn ++ rest) := Separated.cutAt_join found
    have size : opts.length = before.length + (manPn.length + rest.length) := by
      rw [whole, List.length_append, List.length_append]
    have copied : opts.take before.length = before := by rw [whole, List.take_left]
    have fits : ∀ n, n + rest.length ≤ before.length + escTitle.length + rest.length →
        n + 1 ≤ opts.length - manPn.length + escTitle.length + 1 := by
      intro n small
      omega
    simp only [strncpyEnded, strcat, copied]
    rw [if_pos (fits _ (by omega)), Option.bind_some, if_pos (fits _ (by simp)), Option.bind_some,
      if_pos (by simp; omega)]
    rfl

/-- The loop ends, whatever the strings are: it takes at most one turn for each dollar sign and
one more, every string it builds fits its buffer, and no placeholder is left. -/
theorem setenvLess_ends (promptString : Bytes) (less : Option Bytes) (title : Bytes) : ∃ turns opts escTitle,
    turns ≤ (lessOpts promptString ++ less.getD []).count dollar + 1 ∧
      setenvLess promptString less title turns = some (some (opts, escTitle)) ∧ ¬manPn <:+: opts := by
  have fresh := dollar_not_mem_escaped title
  have placed : dollar ∈ manPn := by decide
  obtain ⟨turns, opts, bound, run, absent⟩ :=
    Substitute.run_ends placed fresh (lessOpts promptString ++ less.getD [])
  have loop := Loop.run_map (setenvLessTurn_eq (title.flatMap escapeLessByte)) turns
    (lessOpts promptString ++ less.getD [])
  simp only [run, Option.map_some] at loop
  refine ⟨turns, opts, title.flatMap escapeLessByte, bound, ?_, absent⟩
  simp only [setenvLess, escapeLess_eq, loop]
  rfl

end ManDb
