import ManDb.Manconv.Charsets

namespace ManDb

open Decoding (Decoder Decodes Found)

/-- What the bytes that should continue a character are found to be. -/
inductive Scanned where
  | valid
  | bad
  | short
  deriving DecidableEq, Repr

/-- So many bytes should follow, the first of them in this range. -/
def scanTail : Nat → UInt8 → UInt8 → Bytes → Scanned
  | 0, _, _, _ => .valid
  | _ + 1, _, _, [] => .short
  | n + 1, low, high, b :: rest => if low ≤ b ∧ b ≤ high then scanTail n 0x80 0xBF rest else .bad

/-- The first byte of a character in UTF-8: how many follow, and the range of the
first of these. -/
def utf8Lead (b : UInt8) : Option (Nat × UInt8 × UInt8) :=
  if b < 0x80 then some (0, 0x80, 0xBF)
  else if b < 0xC2 then none
  else if b < 0xE0 then some (1, 0x80, 0xBF)
  else if b = 0xE0 then some (2, 0xA0, 0xBF)
  else if b = 0xED then some (2, 0x80, 0x9F)
  else if b < 0xF0 then some (2, 0x80, 0xBF)
  else if b = 0xF0 then some (3, 0x90, 0xBF)
  else if b < 0xF4 then some (3, 0x80, 0xBF)
  else if b = 0xF4 then some (3, 0x80, 0x8F)
  else none

def utf8Next : Bytes → Found UInt8
  | [] => .incomplete
  | b :: rest =>
    match utf8Lead b with
    | none => .illegal 1
    | some (n, low, high) =>
      match scanTail n low high rest with
      | .valid => .char (n + 1) (b :: rest.take n)
      | .bad => .illegal 1
      | .short => .incomplete

variable {n m : Nat} {low high b : UInt8} {xs rest text : Bytes}

@[simp] theorem scanTail_zero : scanTail 0 low high rest = .valid := rfl

@[simp] theorem scanTail_nil : scanTail (n + 1) low high [] = .short := rfl

@[simp] theorem scanTail_cons : scanTail (n + 1) low high (b :: rest) = .valid ↔
    (low ≤ b ∧ b ≤ high) ∧ scanTail n 0x80 0xBF rest = .valid := by
  rw [scanTail]
  split
  · rename_i inside
    simp [inside]
  · rename_i outside
    simp [outside]

theorem scanTail_valid (valid : scanTail n low high rest = .valid) :
    n ≤ rest.length ∧ ∀ ys, scanTail n low high (rest.take n ++ ys) = .valid := by
  induction n generalizing low high rest with
  | zero => exact ⟨Nat.zero_le _, fun _ => rfl⟩
  | succ n ih =>
    cases rest with
    | nil => cases valid
    | cons b rest =>
      unfold scanTail at valid
      split at valid
      · rename_i inside
        obtain ⟨bound, stable⟩ := ih valid
        refine ⟨Nat.succ_le_succ bound, fun ys => ?_⟩
        rw [List.take_succ_cons, List.cons_append, scanTail, if_pos inside]
        exact stable ys
      · cases valid

theorem scanTail_bad (bad : scanTail n low high rest = .bad) (ys : Bytes) :
    scanTail n low high (rest ++ ys) = .bad := by
  induction n generalizing low high rest with
  | zero => cases bad
  | succ n ih =>
    cases rest with
    | nil => cases bad
    | cons b rest =>
      unfold scanTail at bad
      rw [List.cons_append, scanTail]
      split at bad
      · rename_i inside
        rw [if_pos inside]
        exact ih bad
      · rename_i outside
        rw [if_neg outside]

theorem scanTail_short (short : scanTail n low high rest = .short) : rest.length < n := by
  induction n generalizing low high rest with
  | zero => cases short
  | succ n ih =>
    cases rest with
    | nil => exact Nat.succ_pos n
    | cons b rest =>
      unfold scanTail at short
      split at short
      · exact Nat.succ_lt_succ (ih short)
      · cases short

theorem utf8Lead_le (lead : utf8Lead b = some (n, low, high)) : n ≤ 3 ∧ 0x80 ≤ low := by
  unfold utf8Lead at lead
  split_ifs at lead <;> cases lead <;> decide

/-- A character is found where its first byte and those that follow are as they should be. -/
theorem utf8Next_char (found : utf8Next xs = .char m text) : ∃ b rest n low high, xs = b :: rest ∧
    utf8Lead b = some (n, low, high) ∧ scanTail n low high rest = .valid ∧ m = n + 1 ∧ text = b :: rest.take n := by
  cases xs with
  | nil => cases found
  | cons b rest =>
    unfold utf8Next at found
    cases lead : utf8Lead b with
    | none => simp [lead] at found
    | some shape =>
      obtain ⟨n, low, high⟩ := shape
      simp only [lead] at found
      cases scan : scanTail n low high rest with
      | valid =>
        simp only [scan, Found.char.injEq] at found
        exact ⟨b, rest, n, low, high, rfl, lead, scan, found.1.symm, found.2.symm⟩
      | bad => simp [scan] at found
      | short => simp [scan] at found

theorem utf8Next_illegal (found : utf8Next xs = .illegal m) : m = 1 ∧ ∃ b rest, xs = b :: rest ∧
    (utf8Lead b = none ∨ ∃ n low high, utf8Lead b = some (n, low, high) ∧ scanTail n low high rest = .bad) := by
  cases xs with
  | nil => cases found
  | cons b rest =>
    unfold utf8Next at found
    cases lead : utf8Lead b with
    | none =>
      simp only [lead, Found.illegal.injEq] at found
      exact ⟨found.symm, b, rest, rfl, Or.inl lead⟩
    | some shape =>
      obtain ⟨n, low, high⟩ := shape
      simp only [lead] at found
      cases scan : scanTail n low high rest with
      | bad =>
        simp only [scan, Found.illegal.injEq] at found
        exact ⟨found.symm, b, rest, rfl, Or.inr ⟨n, low, high, lead, scan⟩⟩
      | valid => simp [scan] at found
      | short => simp [scan] at found

theorem utf8Next_valid (lead : utf8Lead b = some (n, low, high)) (valid : scanTail n low high rest = .valid) :
    utf8Next (b :: rest) = .char (n + 1) (b :: rest.take n) := by
  simp only [utf8Next, lead, valid]

/-- UTF-8, as a decoder. -/
def utf8Decoder : Decoder UInt8 UInt8 where
  next := utf8Next
  char_width found := by
    obtain ⟨b, rest, n, low, high, rfl, _, valid, rfl, _⟩ := utf8Next_char found
    exact ⟨Nat.succ_pos n, Nat.succ_le_succ (scanTail_valid valid).1⟩
  char_text found := by
    obtain ⟨b, rest, n, low, high, _, _, _, _, rfl⟩ := utf8Next_char found
    exact nofun
  char_stable found ys := by
    obtain ⟨b, rest, n, low, high, rfl, lead, valid, rfl, rfl⟩ := utf8Next_char found
    obtain ⟨bound, stable⟩ := scanTail_valid valid
    rw [List.take_succ_cons, List.cons_append, utf8Next_valid lead (stable ys),
      List.take_append_of_le_length (by rw [List.length_take]; omega), List.take_take, Nat.min_self]
  illegal_width found := by
    obtain ⟨rfl, b, rest, rfl, _⟩ := utf8Next_illegal found
    exact ⟨Nat.one_pos, Nat.succ_le_succ (Nat.zero_le _)⟩
  illegal_stable found ys := by
    obtain ⟨rfl, b, rest, rfl, none | ⟨n, low, high, lead, bad⟩⟩ := utf8Next_illegal found
    · exact ⟨1, by simp only [List.cons_append, utf8Next, none]⟩
    · exact ⟨1, by simp only [List.cons_append, utf8Next, lead, scanTail_bad bad]⟩

def utf8Charset : Charset where
  val := utf8Decoder
  property := by
    refine ⟨fun found => ?_, @fun xs found => ?_⟩
    · obtain ⟨b, rest, n, low, high, _, lead, _, _, rfl⟩ := utf8Next_char found
      have few := (utf8Lead_le lead).1
      rw [List.length_cons, List.length_take]
      unfold bufSize
      omega
    · cases xs with
      | nil => decide
      | cons b rest =>
        simp only [utf8Decoder, utf8Next] at found
        cases lead : utf8Lead b with
        | none => simp [lead] at found
        | some shape =>
          obtain ⟨n, low, high⟩ := shape
          simp only [lead] at found
          cases scan : scanTail n low high rest with
          | short =>
            have few := (utf8Lead_le lead).1
            have less := scanTail_short scan
            rw [List.length_cons]
            unfold bufSize
            omega
          | valid => simp [scan] at found
          | bad => simp [scan] at found

/-- ISO-8859-1: every byte is a character. -/
def latin1Text (b : UInt8) : Bytes :=
  if b < 0x80 then [b] else [(0xC0 : UInt8) ||| (b >>> 6), (0x80 : UInt8) ||| (b &&& 0x3F)]

def latin1Next : Bytes → Found UInt8
  | [] => .incomplete
  | b :: _ => .char 1 (latin1Text b)

theorem latin1Next_char (found : latin1Next xs = .char m text) :
    ∃ b rest, xs = b :: rest ∧ m = 1 ∧ text = latin1Text b := by
  cases xs with
  | nil => cases found
  | cons b rest =>
    cases found
    exact ⟨b, rest, rfl, rfl, rfl⟩

theorem latin1Text_length (b : UInt8) : 0 < (latin1Text b).length ∧ (latin1Text b).length ≤ 2 := by
  unfold latin1Text
  split <;> simp

def latin1Decoder : Decoder UInt8 UInt8 where
  next := latin1Next
  char_width found := by
    obtain ⟨b, rest, rfl, rfl, _⟩ := latin1Next_char found
    exact ⟨Nat.one_pos, Nat.succ_le_succ (Nat.zero_le _)⟩
  char_text found := by
    obtain ⟨b, rest, _, _, rfl⟩ := latin1Next_char found
    exact List.length_pos_iff.mp (latin1Text_length b).1
  char_stable found ys := by
    obtain ⟨b, rest, rfl, rfl, rfl⟩ := latin1Next_char found
    rfl
  illegal_width := @fun xs n found => by cases xs <;> cases found
  illegal_stable := @fun xs n found => by cases xs <;> cases found

def latin1Charset : Charset where
  val := latin1Decoder
  property := by
    refine ⟨fun found => ?_, @fun xs found => ?_⟩
    · obtain ⟨b, rest, _, _, rfl⟩ := latin1Next_char found
      exact (latin1Text_length b).2.trans (by decide)
    · cases xs with
      | nil => decide
      | cons => cases found

/-- `VALIDATE_BYTE`. -/
def validateByte (mask expect b : UInt8) : Bool := b &&& mask == expect

/-- The second byte of a character of three, by the first. -/
def validateThree (b b₁ : UInt8) : Bool :=
  if b &&& 0x0f = 0 then validateByte 0xe0 0xa0 b₁
  else if b &&& 0x0f = 0x0d then validateByte 0xe0 0x80 b₁
  else validateByte 0xc0 0x80 b₁

/-- The second byte of a character of four, by the first. -/
def validateFour (b b₁ : UInt8) : Bool :=
  if b &&& 0x07 = 0 then validateByte 0xc0 0x80 b₁ && b₁ &&& 0x30 != 0
  else if b &&& 0x07 = 4 then validateByte 0xf0 0x80 b₁
  else validateByte 0xc0 0x80 b₁

/-- `utf8_validate_len`. The loop stops at a NUL, which is then not the end. -/
def utf8ValidateLen : Bytes → Bool
  | [] => true
  | b :: rest =>
    if b = 0 then false
    else if b < 128 then utf8ValidateLen rest
    else if b < 0xe0 then
      match rest with
      | b₁ :: rest => if b < 0xc2 then false else validateByte 0xc0 0x80 b₁ && utf8ValidateLen rest
      | _ => false
    else if b < 0xf0 then
      match rest with
      | b₁ :: b₂ :: rest => validateThree b b₁ && validateByte 0xc0 0x80 b₂ && utf8ValidateLen rest
      | _ => false
    else if b < 0xf5 then
      match rest with
      | b₁ :: b₂ :: b₃ :: rest =>
        validateFour b b₁ && validateByte 0xc0 0x80 b₂ && validateByte 0xc0 0x80 b₃ && utf8ValidateLen rest
      | _ => false
    else false

/-- The masks that are tested stand for ranges of bytes. -/
theorem validateByte_range (b : UInt8) :
    validateByte 0xc0 0x80 b = decide (0x80 ≤ b ∧ b ≤ 0xBF) ∧
      validateByte 0xe0 0xa0 b = decide (0xA0 ≤ b ∧ b ≤ 0xBF) ∧
    validateByte 0xe0 0x80 b = decide (0x80 ≤ b ∧ b ≤ 0x9F) ∧
      validateByte 0xf0 0x80 b = decide (0x80 ≤ b ∧ b ≤ 0x8F) ∧
    (validateByte 0xc0 0x80 b && b &&& 0x30 != 0) = decide (0x90 ≤ b ∧ b ≤ 0xBF) := by
  revert b
  exact forall_byte (by decide)

/-- The range that the first byte of a character of three gives for the second. -/
theorem utf8Lead_three (large : ¬b < 0xe0) (small : b < 0xf0) :
    ∃ low high, utf8Lead b = some (2, low, high) ∧ ∀ b₁, validateThree b b₁ = decide (low ≤ b₁ ∧ b₁ ≤ high) := by
  have leads : ∀ b : UInt8, ¬b < 0xe0 → b < 0xf0 →
      (b &&& 0x0f = 0 ∧ utf8Lead b = some (2, 0xA0, 0xBF)) ∨
      (b &&& 0x0f = 0x0d ∧ utf8Lead b = some (2, 0x80, 0x9F)) ∨
      (b &&& 0x0f ≠ 0 ∧ b &&& 0x0f ≠ 0x0d ∧ utf8Lead b = some (2, 0x80, 0xBF)) := forall_byte (by decide)
  rcases leads b large small with ⟨mask, lead⟩ | ⟨mask, lead⟩ | ⟨notFirst, notLast, lead⟩
  · refine ⟨_, _, lead, fun b₁ => ?_⟩
    rw [validateThree, if_pos mask]
    exact (validateByte_range b₁).2.1
  · refine ⟨_, _, lead, fun b₁ => ?_⟩
    rw [validateThree, if_neg (by rw [mask]; decide), if_pos mask]
    exact (validateByte_range b₁).2.2.1
  · refine ⟨_, _, lead, fun b₁ => ?_⟩
    rw [validateThree, if_neg notFirst, if_neg notLast]
    exact (validateByte_range b₁).1

/-- The range that the first byte of a character of four gives for the second. -/
theorem utf8Lead_four (large : ¬b < 0xf0) (small : b < 0xf5) :
    ∃ low high, utf8Lead b = some (3, low, high) ∧ ∀ b₁, validateFour b b₁ = decide (low ≤ b₁ ∧ b₁ ≤ high) := by
  have leads : ∀ b : UInt8, ¬b < 0xf0 → b < 0xf5 →
      (b &&& 0x07 = 0 ∧ utf8Lead b = some (3, 0x90, 0xBF)) ∨
      (b &&& 0x07 = 4 ∧ utf8Lead b = some (3, 0x80, 0x8F)) ∨
      (b &&& 0x07 ≠ 0 ∧ b &&& 0x07 ≠ 4 ∧ utf8Lead b = some (3, 0x80, 0xBF)) := forall_byte (by decide)
  rcases leads b large small with ⟨mask, lead⟩ | ⟨mask, lead⟩ | ⟨notFirst, notLast, lead⟩
  · refine ⟨_, _, lead, fun b₁ => ?_⟩
    rw [validateFour, if_pos mask]
    exact (validateByte_range b₁).2.2.2.2
  · refine ⟨_, _, lead, fun b₁ => ?_⟩
    rw [validateFour, if_neg (by rw [mask]; decide), if_pos mask]
    exact (validateByte_range b₁).2.2.2.1
  · refine ⟨_, _, lead, fun b₁ => ?_⟩
    rw [validateFour, if_neg notFirst, if_neg notLast]
    exact (validateByte_range b₁).1

theorem utf8Lead_two : ∀ b : UInt8, ¬b < 0x80 → b < 0xe0 →
    utf8Lead b = if b < 0xc2 then none else some (1, 0x80, 0xBF) := forall_byte (by decide)

theorem utf8Lead_large : ∀ b : UInt8, ¬b < 0xf5 → utf8Lead b = none := forall_byte (by decide)

/-- Text is validated character by character. -/
theorem utf8ValidateLen_cons (b : UInt8) (rest : Bytes) : utf8ValidateLen (b :: rest) = true ↔
    b ≠ 0 ∧ ∃ n low high, utf8Lead b = some (n, low, high) ∧ scanTail n low high rest = .valid ∧
      utf8ValidateLen (rest.drop n) = true := by
  have inside : ∀ b : UInt8, validateByte 0xc0 0x80 b = decide (0x80 ≤ b ∧ b ≤ 0xBF) :=
    fun b => (validateByte_range b).1
  rw [utf8ValidateLen.eq_def]
  simp only
  by_cases nul : b = 0
  · simp [nul]
  by_cases small : b < 128
  · have lead : utf8Lead b = some (0, 0x80, 0xBF) := if_pos small
    simp [nul, small, lead]
  by_cases two : b < 0xe0
  · rw [utf8Lead_two b small two]
    by_cases bad : b < 0xc2
    · cases rest <;> simp [nul, small, two, bad]
    · cases rest with
      | nil => simp [nul, small, two, bad]
      | cons b₁ rest => simp [nul, small, two, bad, inside, and_assoc]
  by_cases three : b < 0xf0
  · obtain ⟨low, high, lead, second⟩ := utf8Lead_three two three
    rcases rest with _ | ⟨b₁, _ | ⟨b₂, rest⟩⟩
    · simp [nul, small, two, three, lead]
    · simp [nul, small, two, three, lead]
    · simp [nul, small, two, three, lead, inside, second, and_assoc]
  by_cases four : b < 0xf5
  · obtain ⟨low, high, lead, second⟩ := utf8Lead_four three four
    rcases rest with _ | ⟨b₁, _ | ⟨b₂, _ | ⟨b₃, rest⟩⟩⟩
    · simp [nul, small, two, three, four, lead]
    · simp [nul, small, two, three, four, lead]
    · simp [nul, small, two, three, four, lead]
    · simp [nul, small, two, three, four, lead, inside, second, and_assoc]
  · simp [nul, small, two, three, four, utf8Lead_large b four]

theorem nul_not_mem_tail (valid : scanTail n low high rest = .valid) (positive : 0x80 ≤ low) : 0 ∉ rest.take n := by
  induction n generalizing low high rest with
  | zero => simp
  | succ n ih =>
    cases rest with
    | nil => simp
    | cons b rest =>
      obtain ⟨inside, valid⟩ := scanTail_cons.mp valid
      rw [List.take_succ_cons, List.mem_cons, not_or]
      refine ⟨?_, ih valid (UInt8.le_refl _)⟩
      rintro rfl
      exact absurd (UInt8.le_trans positive inside.1) (by decide)

/-- Decoding UTF-8 to UTF-8 changes nothing. -/
theorem utf8_decodes_self (decodes : Decodes utf8Decoder xs text) : text = xs := by
  induction decodes with
  | nil => rfl
  | char found _ ih =>
    obtain ⟨b, rest, n, low, high, rfl, _, _, rfl, rfl⟩ := utf8Next_char found
    rw [ih, List.drop_succ_cons, List.cons_append, List.take_append_drop]

/-- The validation accepts precisely what decodes as UTF-8 and has no NUL. -/
theorem utf8ValidateLen_iff (content : Bytes) :
    utf8ValidateLen content = true ↔ 0 ∉ content ∧ Decodes utf8Decoder content content := by
  generalize size : content.length = k
  induction k using Nat.strong_induction_on generalizing content with
  | _ k ih =>
    cases content with
    | nil => exact iff_of_true rfl ⟨nofun, .nil⟩
    | cons b rest =>
      have smaller : ∀ n, (rest.drop n).length < k := by
        intro n
        rw [← size, List.length_drop, List.length_cons]
        omega
      rw [utf8ValidateLen_cons]
      constructor
      · rintro ⟨nul, n, low, high, lead, valid, remain⟩
        obtain ⟨nulFree, decodes⟩ := (ih _ (smaller n) _ rfl).mp remain
        have char : Decodes utf8Decoder (b :: rest) ((b :: rest.take n) ++ rest.drop n) :=
          .char (utf8Next_valid lead valid) decodes
        rw [List.cons_append, List.take_append_drop] at char
        refine ⟨?_, char⟩
        rw [← List.take_append_drop n rest, List.mem_cons, List.mem_append, not_or, not_or]
        exact ⟨fun same => nul same.symm, nul_not_mem_tail valid (utf8Lead_le lead).2, nulFree⟩
      · rintro ⟨nulFree, decodes⟩
        obtain ⟨m, t, us, found, remain, _⟩ := decodes.head nofun
        change utf8Next (b :: rest) = .char m t at found
        obtain ⟨_, _, n, low, high, same, lead, valid, rfl, rfl⟩ := utf8Next_char found
        cases same
        rw [List.drop_succ_cons] at remain
        have self := utf8_decodes_self remain
        rw [self] at remain
        refine ⟨?_, n, low, high, lead, valid, (ih _ (smaller n) _ rfl).mpr ⟨fun member => ?_, remain⟩⟩
        · rintro rfl
          exact nulFree List.mem_cons_self
        · exact nulFree (List.mem_cons_of_mem _ (List.mem_of_mem_drop member))

end ManDb
