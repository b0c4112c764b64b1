import ManDb.Manconv.Utf8

namespace ManDb

open Decoding (Decodes)

/-- The byte a pointer stands on. At `str + maxLen` and behind it there is nothing to be read. -/
def loadByte (str : Bytes) (maxLen p : Nat) : Option UInt8 := if p < maxLen then str[p]? else none

/-- The end of the loop of `fast_validate_len`: the last byte of a character. -/
def validateLast (str : Bytes) (maxLen p : Nat) : Option (Option Nat) :=
  (loadByte str maxLen p).map fun b => if validateByte 0xc0 0x80 b then some p else none

/-- The loop of `fast_validate_len` behind its test for ASCII, where `last` is on the first
byte of a character. It leaves the pointer on the last one or goes to `error`. -/
def validateChar (str : Bytes) (maxLen last : Nat) (b : UInt8) : Option (Option Nat) :=
  if b < 0xe0 then
    if maxLen - last < 2 then some none
    else if b < 0xc2 then some none
    else validateLast str maxLen (last + 1)
  else if b < 0xf0 then
    if maxLen - last < 3 then some none
    else (loadByte str maxLen (last + 1)).bind fun b₁ =>
      if validateThree b b₁ then validateLast str maxLen (last + 2) else some none
  else if b < 0xf5 then
    if maxLen - last < 4 then some none
    else (loadByte str maxLen (last + 1)).bind fun b₁ =>
      if validateFour b b₁ then (loadByte str maxLen (last + 2)).bind fun b₂ =>
        if validateByte 0xc0 0x80 b₂ then validateLast str maxLen (last + 3) else some none
      else some none
  else some none

theorem validateLast_lt {str : Bytes} {maxLen p q : Nat} (valid : validateLast str maxLen p = some (some q)) :
    p = q := by
  obtain ⟨b, _, found⟩ := Option.map_eq_some_iff.mp valid
  split at found
  · exact Option.some.inj found
  · cases found

theorem validateChar_lt {str : Bytes} {maxLen last q : Nat} {b : UInt8}
    (valid : validateChar str maxLen last b = some (some q)) : last < q := by
  have ends : ∀ k, 0 < k → validateLast str maxLen (last + k) = some (some q) → last < q := by
    intro k positive valid
    rw [← validateLast_lt valid]
    omega
  have passes : ∀ {c : Prop} [Decidable c] {next : Option (Option Nat)},
      (if c then next else some none) = some (some q) → next = some (some q) := by
    intro c _ next valid
    split at valid
    · exact valid
    · cases valid
  unfold validateChar at valid
  split_ifs at valid with two short overlong three short four short
  · cases valid
  · cases valid
  · exact ends 1 (by decide) valid
  · cases valid
  · obtain ⟨b₁, _, valid⟩ := Option.bind_eq_some_iff.mp valid
    exact ends 2 (by decide) (passes valid)
  · cases valid
  · obtain ⟨b₁, _, valid⟩ := Option.bind_eq_some_iff.mp valid
    obtain ⟨b₂, _, valid⟩ := Option.bind_eq_some_iff.mp (passes valid)
    exact ends 3 (by decide) (passes valid)
  · cases valid

/-- The loop of `fast_validate_len`, and the pointer it returns. -/
def fastValidateFrom (str : Bytes) (maxLen p : Nat) : Option Nat :=
  if p < maxLen then
    match loadByte str maxLen p with
    | none => none
    | some b =>
      if b = 0 then some p
      else if b < 128 then fastValidateFrom str maxLen (p + 1)
      else
        match _char : validateChar str maxLen p b with
        | none => none
        | some none => some p
        | some (some q) => fastValidateFrom str maxLen (q + 1)
  else some p
termination_by maxLen - p
decreasing_by
  · omega
  · have forward := validateChar_lt _char
    omega

/-- `fast_validate_len`. -/
def fastValidateLen (str : Bytes) (maxLen : Nat) : Option Nat := fastValidateFrom str maxLen 0

/-- `utf8_validate_len`, pointer by pointer. -/
def utf8ValidateStr (str : Bytes) (maxLen : Nat) : Option Bool := (fastValidateLen str maxLen).map (· == maxLen)

/-- The bytes are a sequence of characters in UTF-8, each one the encoding of a Unicode
scalar value other than U+0000. -/
def IsUtf8 (text : Bytes) : Prop :=
  ∃ chars : List Char, (∀ c ∈ chars, c.val.toNat ≠ 0) ∧ chars.flatMap String.utf8EncodeChar = text

section Characters

variable {n : Nat} {low high b : UInt8} {rest text : Bytes}

theorem utf8Lead_ascii : ∀ b : UInt8, b.toNat < 0x80 → utf8Lead b = some (0, 0x80, 0xBF) :=
  forall_byte (by decide)

theorem utf8Lead_pair : ∀ b : UInt8, 0xC2 ≤ b.toNat → b.toNat < 0xE0 → utf8Lead b = some (1, 0x80, 0xBF) :=
  forall_byte (by decide)

/-- What the first byte of three or four says of the second: no overlong form, no surrogate,
nothing above U+10FFFF. -/
theorem utf8Lead_second {b : UInt8} (large : 0xE0 ≤ b.toNat) (small : b.toNat < 0xF5) :
    ∃ low high, utf8Lead b = some (if b.toNat < 0xF0 then 2 else 3, low, high) ∧
      ∀ b₁ : UInt8, low.toNat ≤ b₁.toNat ∧ b₁.toNat ≤ high.toNat ↔ 0x80 ≤ b₁.toNat ∧ b₁.toNat ≤ 0xBF ∧
        (b.toNat = 0xE0 → 0xA0 ≤ b₁.toNat) ∧ (b.toNat = 0xED → b₁.toNat ≤ 0x9F) ∧
        (b.toNat = 0xF0 → 0x90 ≤ b₁.toNat) ∧ (b.toNat = 0xF4 → b₁.toNat ≤ 0x8F) := by
  have leads : ∀ b : UInt8, 0xE0 ≤ b.toNat → b.toNat < 0xF5 →
      utf8Lead b = some (if b.toNat < 0xF0 then 2 else 3, ((utf8Lead b).getD (0, 0, 0)).2) ∧
      ((utf8Lead b).getD (0, 0, 0)).2.1.toNat =
        (if b.toNat = 0xE0 then 0xA0 else if b.toNat = 0xF0 then 0x90 else 0x80) ∧
      ((utf8Lead b).getD (0, 0, 0)).2.2.toNat =
        (if b.toNat = 0xED then 0x9F else if b.toNat = 0xF4 then 0x8F else 0xBF) := forall_byte (by decide)
  obtain ⟨lead, least, greatest⟩ := leads b large small
  refine ⟨_, _, lead, fun b₁ => ?_⟩
  rw [least, greatest]
  split_ifs <;> omega

/-- Every other byte starts no character. -/
theorem utf8Lead_none : ∀ b : UInt8, 0x80 ≤ b.toNat → b.toNat < 0xC2 ∨ 0xF5 ≤ b.toNat → utf8Lead b = none :=
  forall_byte (by decide)

/-- The Unicode scalar value with this code point. -/
def scalar (v : Nat) (valid : v.isValidChar) : Char := ⟨.ofNatLT v (by
  unfold Nat.isValidChar at valid
  have : UInt32.size = 4294967296 := rfl
  omega), valid⟩

@[simp] theorem scalar_toNat (v : Nat) (valid : v.isValidChar) : (scalar v valid).val.toNat = v := by
  simp [scalar]

section Encoding

variable {c : Char} {v : Nat}

theorem utf8EncodeChar_one (code : c.val.toNat = v) (small : v ≤ 0x7F) : String.utf8EncodeChar c = [.ofNat v] := by
  unfold String.utf8EncodeChar
  simp only [code]
  rw [if_pos small]

theorem utf8EncodeChar_two (code : c.val.toNat = v) (large : 0x7F < v) (small : v ≤ 0x7FF) :
    String.utf8EncodeChar c = [.ofNat (v / 64 % 32 + 0xC0), .ofNat (v % 64 + 0x80)] := by
  unfold String.utf8EncodeChar
  simp only [code]
  rw [if_neg (by omega), if_pos small]

theorem utf8EncodeChar_three (code : c.val.toNat = v) (large : 0x7FF < v) (small : v ≤ 0xFFFF) :
    String.utf8EncodeChar c =
      [.ofNat (v / 4096 % 16 + 0xE0), .ofNat (v / 64 % 64 + 0x80), .ofNat (v % 64 + 0x80)] := by
  unfold String.utf8EncodeChar
  simp only [code]
  rw [if_neg (by omega), if_neg (by omega), if_pos small]

theorem utf8EncodeChar_four (code : c.val.toNat = v) (large : 0xFFFF < v) : String.utf8EncodeChar c =
    [.ofNat (v / 262144 % 8 + 0xF0), .ofNat (v / 4096 % 64 + 0x80), .ofNat (v / 64 % 64 + 0x80),
      .ofNat (v % 64 + 0x80)] := by
  unfold String.utf8EncodeChar
  simp only [code]
  rw [if_neg (by omega), if_neg (by omega), if_neg (by omega)]

end Encoding

theorem ofNat_eq {k : Nat} (value : k = b.toNat) : UInt8.ofNat k = b := by
  rw [value, UInt8.ofNat_toNat]

theorem scanTail_range : scanTail (n + 1) low high rest = .valid ↔ ∃ b more, rest = b :: more ∧
    (low.toNat ≤ b.toNat ∧ b.toNat ≤ high.toNat) ∧ scanTail n 0x80 0xBF more = .valid := by
  cases rest with
  | nil => simp
  | cons b more => simp [scanTail_cons, UInt8.le_iff_toNat_le]

/-- The bytes behind the second one. -/
theorem scanTail_next : scanTail (n + 1) 0x80 0xBF rest = .valid ↔ ∃ b more, rest = b :: more ∧
    (0x80 ≤ b.toNat ∧ b.toNat ≤ 0xBF) ∧ scanTail n 0x80 0xBF more = .valid :=
  scanTail_range

/-- What is recognised is the encoding of a character. -/
theorem char_of_scan (lead : utf8Lead b = some (n, low, high)) (valid : scanTail n low high rest = .valid) :
    ∃ c, String.utf8EncodeChar c = b :: rest.take n := by
  have bound := b.toNat_lt
  by_cases one : b.toNat < 0x80
  · rw [utf8Lead_ascii b one] at lead
    cases lead
    refine ⟨scalar b.toNat (Or.inl (by omega)), ?_⟩
    rw [utf8EncodeChar_one (scalar_toNat _ _) (by omega), ofNat_eq rfl, List.take_zero]
  by_cases outside : b.toNat < 0xC2 ∨ 0xF5 ≤ b.toNat
  · rw [utf8Lead_none b (by omega) outside] at lead
    cases lead
  by_cases two : b.toNat < 0xE0
  · rw [utf8Lead_pair b (by omega) two] at lead
    cases lead
    obtain ⟨b₁, rest, rfl, range, -⟩ := scanTail_next.mp valid
    refine ⟨scalar ((b.toNat - 0xC0) * 64 + (b₁.toNat - 0x80)) (Or.inl (by omega)), ?_⟩
    rw [utf8EncodeChar_two (scalar_toNat _ _) (by omega) (by omega), ofNat_eq (b := b) (by omega),
      ofNat_eq (b := b₁) (by omega)]
    rfl
  by_cases three : b.toNat < 0xF0
  · obtain ⟨_, _, lead', second⟩ := utf8Lead_second (b := b) (by omega) (by omega)
    rw [if_pos three] at lead'
    cases lead.symm.trans lead'
    obtain ⟨b₁, rest, rfl, range₁, valid⟩ := scanTail_range.mp valid
    obtain ⟨b₂, rest, rfl, range₂, -⟩ := scanTail_next.mp valid
    have range₁ := (second b₁).mp range₁
    refine ⟨scalar ((b.toNat - 0xE0) * 4096 + (b₁.toNat - 0x80) * 64 + (b₂.toNat - 0x80)) ?_, ?_⟩
    · unfold Nat.isValidChar
      omega
    · rw [utf8EncodeChar_three (scalar_toNat _ _) (by omega) (by omega), ofNat_eq (b := b) (by omega),
        ofNat_eq (b := b₁) (by omega), ofNat_eq (b := b₂) (by omega)]
      rfl
  · obtain ⟨_, _, lead', second⟩ := utf8Lead_second (b := b) (by omega) (by omega)
    rw [if_neg three] at lead'
    cases lead.symm.trans lead'
    obtain ⟨b₁, rest, rfl, range₁, valid⟩ := scanTail_range.mp valid
    obtain ⟨b₂, rest, rfl, range₂, valid⟩ := scanTail_next.mp valid
    obtain ⟨b₃, rest, rfl, range₃, -⟩ := scanTail_next.mp valid
    have range₁ := (second b₁).mp range₁
    refine ⟨scalar ((b.toNat - 0xF0) * 262144 + (b₁.toNat - 0x80) * 4096 + (b₂.toNat - 0x80) * 64 +
      (b₃.toNat - 0x80)) ?_, ?_⟩
    · unfold Nat.isValidChar
      omega
    · rw [utf8EncodeChar_four (scalar_toNat _ _) (by omega), ofNat_eq (b := b) (by omega),
        ofNat_eq (b := b₁) (by omega), ofNat_eq (b := b₂) (by omega), ofNat_eq (b := b₃) (by omega)]
      rfl

theorem toNat_ofNat_lt {k : Nat} (bound : k < 256) : (UInt8.ofNat k).toNat = k := by
  rw [UInt8.toNat_ofNat', Nat.mod_eq_of_lt bound]

/-- The encoding of a character is recognised, whatever follows. -/
theorem utf8Next_encode (c : Char) (rest : Bytes) : utf8Next (String.utf8EncodeChar c ++ rest) =
    .char (String.utf8EncodeChar c).length (String.utf8EncodeChar c) := by
  have valid : c.val.toNat < 0xD800 ∨ 0xDFFF < c.val.toNat ∧ c.val.toNat < 0x110000 := c.valid
  generalize code : c.val.toNat = v at valid
  by_cases one : v ≤ 0x7F
  · rw [utf8EncodeChar_one code one, List.singleton_append]
    have lead := utf8Lead_ascii (.ofNat v) (by rw [toNat_ofNat_lt (by omega)]; omega)
    exact utf8Next_valid lead rfl
  by_cases two : v ≤ 0x7FF
  · rw [utf8EncodeChar_two code (by omega) two]
    have first := toNat_ofNat_lt (k := v / 64 % 32 + 0xC0) (by omega)
    have second := toNat_ofNat_lt (k := v % 64 + 0x80) (by omega)
    exact utf8Next_valid (utf8Lead_pair _ (by omega) (by omega))
      (scanTail_next.mpr ⟨_, rest, rfl, by omega, rfl⟩)
  by_cases three : v ≤ 0xFFFF
  · rw [utf8EncodeChar_three code (by omega) three]
    have first := toNat_ofNat_lt (k := v / 4096 % 16 + 0xE0) (by omega)
    have second := toNat_ofNat_lt (k := v / 64 % 64 + 0x80) (by omega)
    have third := toNat_ofNat_lt (k := v % 64 + 0x80) (by omega)
    obtain ⟨low, high, lead, range⟩ := utf8Lead_second (b := .ofNat (v / 4096 % 16 + 0xE0)) (by omega) (by omega)
    rw [if_pos (by omega)] at lead
    exact utf8Next_valid lead (scanTail_range.mpr ⟨_, _, rfl, (range _).mpr (by omega),
      scanTail_next.mpr ⟨_, rest, rfl, by omega, rfl⟩⟩)
  · rw [utf8EncodeChar_four code (by omega)]
    have first := toNat_ofNat_lt (k := v / 262144 % 8 + 0xF0) (by omega)
    have second := toNat_ofNat_lt (k := v / 4096 % 64 + 0x80) (by omega)
    have third := toNat_ofNat_lt (k := v / 64 % 64 + 0x80) (by omega)
    have fourth := toNat_ofNat_lt (k := v % 64 + 0x80) (by omega)
    obtain ⟨low, high, lead, range⟩ := utf8Lead_second (b := .ofNat (v / 262144 % 8 + 0xF0)) (by omega) (by omega)
    rw [if_neg (by omega)] at lead
    exact utf8Next_valid lead (scanTail_range.mpr ⟨_, _, rfl, (range _).mpr (by omega),
      scanTail_next.mpr ⟨_, _, rfl, by omega, scanTail_next.mpr ⟨_, rest, rfl, by omega, rfl⟩⟩⟩)

theorem utf8EncodeChar_of_next {xs : Bytes} {n : Nat} (found : utf8Next xs = .char n text) :
    ∃ c, String.utf8EncodeChar c = text := by
  obtain ⟨b, rest, n, low, high, rfl, lead, valid, _, rfl⟩ := utf8Next_char found
  exact char_of_scan lead valid

theorem nul_mem_encode (c : Char) : 0 ∈ String.utf8EncodeChar c ↔ c.val.toNat = 0 := by
  have same : ∀ k : Nat, k < 256 → (0 = UInt8.ofNat k ↔ k = 0) := by
    intro k bound
    rw [← UInt8.toNat_inj, toNat_ofNat_lt bound, eq_comm]
    rfl
  have valid : c.val.toNat < 0xD800 ∨ 0xDFFF < c.val.toNat ∧ c.val.toNat < 0x110000 := c.valid
  have bound : c.val.toNat < 0x110000 := by omega
  generalize code : c.val.toNat = v at bound
  clear valid
  by_cases one : v ≤ 0x7F
  · rw [utf8EncodeChar_one code one, List.mem_singleton, same v (by omega)]
  by_cases two : v ≤ 0x7FF
  · simp only [utf8EncodeChar_two code (by omega) two, List.mem_cons, List.not_mem_nil, or_false]
    rw [same _ (by omega), same _ (by omega)]
    omega
  by_cases three : v ≤ 0xFFFF
  · simp only [utf8EncodeChar_three code (by omega) three, List.mem_cons, List.not_mem_nil, or_false]
    rw [same _ (by omega), same _ (by omega), same _ (by omega)]
    omega
  · simp only [utf8EncodeChar_four code (by omega), List.mem_cons, List.not_mem_nil, or_false]
    rw [same _ (by omega), same _ (by omega), same _ (by omega), same _ (by omega)]
    omega

theorem chars_of_decodes {xs : Bytes} (decodes : Decodes utf8Decoder xs text) :
    ∃ chars : List Char, chars.flatMap String.utf8EncodeChar = text := by
  induction decodes with
  | nil => exact ⟨[], rfl⟩
  | char found _ ih =>
    obtain ⟨c, rfl⟩ := utf8EncodeChar_of_next found
    obtain ⟨chars, rfl⟩ := ih
    exact ⟨c :: chars, rfl⟩

theorem decodes_of_chars (chars : List Char) : Decodes utf8Decoder (chars.flatMap String.utf8EncodeChar)
    (chars.flatMap String.utf8EncodeChar) := by
  induction chars with
  | nil => exact .nil
  | cons c chars ih =>
    rw [List.flatMap_cons]
    refine .char (utf8Next_encode c _) ?_
    rwa [List.drop_left]

/-- The validation accepts precisely the sequences of characters without U+0000. -/
theorem utf8ValidateLen_isUtf8 (text : Bytes) : utf8ValidateLen text = true ↔ IsUtf8 text := by
  rw [utf8ValidateLen_iff]
  constructor
  · rintro ⟨nulFree, decodes⟩
    obtain ⟨chars, rfl⟩ := chars_of_decodes decodes
    refine ⟨chars, fun c member nul => nulFree ?_, rfl⟩
    exact List.mem_flatMap.mpr ⟨c, member, (nul_mem_encode c).mpr nul⟩
  · rintro ⟨chars, nonzero, rfl⟩
    refine ⟨fun nul => ?_, decodes_of_chars chars⟩
    obtain ⟨c, member, nul⟩ := List.mem_flatMap.mp nul
    exact nonzero c member ((nul_mem_encode c).mp nul)

end Characters

section Pointers

variable {str : Bytes} {maxLen p : Nat} {b : UInt8}

theorem loadByte_take (str : Bytes) (maxLen p : Nat) : loadByte str maxLen p = (str.take maxLen)[p]? := by
  rw [List.getElem?_take]
  rfl

/-- The bytes behind a pointer, up to the end of the string. -/
theorem loadByte_behind {rest : Bytes} (behind : (str.take maxLen).drop (p + 1) = rest) (k : Nat) :
    loadByte str maxLen (p + (k + 1)) = rest[k]? := by
  rw [loadByte_take, ← behind, List.getElem?_drop, Nat.add_right_comm, Nat.add_assoc]

/-- The pointer moves on over a character as it should be, and stays where there is none. -/
theorem validateChar_scan (fits : maxLen ≤ str.length) (inside : p < maxLen) (large : ¬b < 0x80) :
    validateChar str maxLen p b = some ((utf8Lead b).bind fun shape =>
      if scanTail shape.1 shape.2.1 shape.2.2 ((str.take maxLen).drop (p + 1)) = .valid then some (p + shape.1)
      else none) := by
  have final : ∀ b : UInt8, validateByte 0xc0 0x80 b = decide (0x80 ≤ b ∧ b ≤ 0xBF) :=
    fun b => (validateByte_range b).1
  generalize behind : (str.take maxLen).drop (p + 1) = rest
  have size : maxLen - p = rest.length + 1 := by
    rw [← behind, List.length_drop, List.length_take]
    omega
  have bytes := loadByte_behind behind
  simp only [validateChar, validateLast, bytes, size]
  by_cases two : b < 0xe0
  · rw [utf8Lead_two b large two, if_pos two]
    by_cases overlong : b < 0xc2
    · simp [overlong]
    · rcases rest with _ | ⟨b₁, rest⟩
      · simp [overlong]
      · have enough : ¬(b₁ :: rest).length + 1 < 2 := by simp
        rw [if_neg enough]
        simp [overlong, final]
  by_cases three : b < 0xf0
  · obtain ⟨low, high, lead, second⟩ := utf8Lead_three two three
    rw [lead, if_neg two, if_pos three]
    rcases rest with _ | ⟨b₁, _ | ⟨b₂, rest⟩⟩
    · simp
    · simp
    · have enough : ¬(b₁ :: b₂ :: rest).length + 1 < 3 := by simp
      rw [if_neg enough]
      simp [final, second, ite_and, apply_ite some]
  by_cases four : b < 0xf5
  · obtain ⟨low, high, lead, second⟩ := utf8Lead_four three four
    rw [lead, if_neg two, if_neg three, if_pos four]
    rcases rest with _ | ⟨b₁, _ | ⟨b₂, _ | ⟨b₃, rest⟩⟩⟩
    · simp
    · simp
    · simp
    · have enough : ¬(b₁ :: b₂ :: b₃ :: rest).length + 1 < 4 := by simp
      rw [if_neg enough]
      simp [final, second, ite_and, apply_ite some]
  · rw [utf8Lead_large b four, if_neg two, if_neg three, if_neg four]
    rfl

theorem drop_loadByte (found : loadByte str maxLen p = some b) :
    (str.take maxLen).drop p = b :: (str.take maxLen).drop (p + 1) := by
  rw [loadByte_take] at found
  obtain ⟨inside, rfl⟩ := List.getElem?_eq_some_iff.mp found
  exact List.drop_eq_getElem_cons inside

/-- What is behind a character that is recognised decides. -/
theorem utf8ValidateLen_behind {n : Nat} {low high : UInt8} (found : loadByte str maxLen p = some b) (nonzero : b ≠ 0)
    (lead : utf8Lead b = some (n, low, high))
    (scan : scanTail n low high ((str.take maxLen).drop (p + 1)) = .valid) :
    utf8ValidateLen ((str.take maxLen).drop (p + n + 1)) = true ↔ utf8ValidateLen ((str.take maxLen).drop p) = true := by
  have after : (str.take maxLen).drop (p + n + 1) = ((str.take maxLen).drop (p + 1)).drop n := by
    rw [List.drop_drop, Nat.add_right_comm]
  rw [drop_loadByte found, utf8ValidateLen_cons, lead, after]
  simp only [Option.some.injEq, Prod.mk.injEq]
  constructor
  · exact fun valid => ⟨nonzero, n, low, high, ⟨rfl, rfl, rfl⟩, scan, valid⟩
  · rintro ⟨_, _, _, _, ⟨rfl, rfl, rfl⟩, _, valid⟩
    exact valid

/-- The loop comes to the end of the string precisely over text that is accepted. -/
theorem fastValidateFrom_spec (fits : maxLen ≤ str.length) (inside : p ≤ maxLen) : ∃ q,
    fastValidateFrom str maxLen p = some q ∧ (q = maxLen ↔ utf8ValidateLen ((str.take maxLen).drop p) = true) := by
  fun_induction fastValidateFrom str maxLen p with
  | case1 p before outside =>
    rw [loadByte_take, List.getElem?_eq_none_iff, List.length_take] at outside
    omega
  | case2 p before found =>
    refine ⟨p, rfl, iff_of_false before.ne fun valid => ?_⟩
    rw [drop_loadByte found, utf8ValidateLen_cons] at valid
    exact valid.1 rfl
  | case3 p before b found nonzero small ih =>
    obtain ⟨q, ends, whole⟩ := ih before
    have lead : utf8Lead b = some (0, 0x80, 0xBF) := if_pos small
    exact ⟨q, ends, whole.trans (utf8ValidateLen_behind found nonzero lead rfl)⟩
  | case4 p before b found _ large outside =>
    rw [validateChar_scan fits before large] at outside
    cases outside
  | case5 p before b found _ large error =>
    rw [validateChar_scan fits before large, Option.some.injEq] at error
    refine ⟨p, rfl, iff_of_false before.ne fun valid => ?_⟩
    rw [drop_loadByte found, utf8ValidateLen_cons] at valid
    obtain ⟨_, n, low, high, lead, scan, _⟩ := valid
    rw [lead, Option.bind_some, if_pos scan] at error
    cases error
  | case6 p before b found nonzero large q char ih =>
    rw [validateChar_scan fits before large, Option.some.injEq, Option.bind_eq_some_iff] at char
    obtain ⟨⟨n, low, high⟩, lead, char⟩ := char
    split at char
    · rename_i scan
      cases char
      have bound := (scanTail_valid scan).1
      rw [List.length_drop, List.length_take] at bound
      obtain ⟨q, ends, whole⟩ := ih (by simp only at bound; omega)
      exact ⟨q, ends, whole.trans (utf8ValidateLen_behind found nonzero lead scan)⟩
    · cases char
  | case7 p behind =>
    have ended : p = maxLen := by omega
    refine ⟨p, rfl, iff_of_true ended ?_⟩
    rw [List.drop_of_length_le (by rw [List.length_take]; omega)]
    rfl

/-- No byte at the end of the string or behind it is read, and what is accepted is precisely
UTF-8 without a NUL. -/
theorem utf8ValidateStr_isUtf8 (str : Bytes) (maxLen : Nat) (fits : maxLen ≤ str.length) :
    ∃ valid, utf8ValidateStr str maxLen = some valid ∧ (valid = true ↔ IsUtf8 (str.take maxLen)) := by
  obtain ⟨q, ends, whole⟩ := fastValidateFrom_spec fits (Nat.zero_le maxLen)
  refine ⟨q == maxLen, ?_, ?_⟩
  · rw [utf8ValidateStr, fastValidateLen, ends]
    rfl
  · rw [beq_iff_eq, whole, List.drop_zero, utf8ValidateLen_isUtf8]

theorem utf8ValidateStr_isUtf8_euro : 3 ≤ [(0xE2 : UInt8), 0x82, 0xAC, 0xE2].length ∧
    ∃ valid, utf8ValidateStr [0xE2, 0x82, 0xAC, 0xE2] 3 = some valid ∧
      (valid = true ↔ IsUtf8 ([0xE2, 0x82, 0xAC, 0xE2].take 3)) :=
  ⟨by decide, utf8ValidateStr_isUtf8 [0xE2, 0x82, 0xAC, 0xE2] 3 (by decide)⟩

end Pointers

end ManDb
