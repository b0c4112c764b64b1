import Mathlib.Data.List.TakeWhile
import ManDb.Lib.Separated

namespace ManDb

/-- The bytes of a C string, without its terminator. `strcmp` is `compare` on
these: both are lexicographic on unsigned bytes, a proper prefix first. -/
abbrev Bytes := List UInt8

instance : LawfulBEq Bytes := inferInstance

/-- What holds of each of the 256 bytes holds of every byte. -/
theorem forall_byte {p : UInt8 → Prop} (each : ∀ x : BitVec 8, p ⟨x⟩) (b : UInt8) : p b := each b.toBitVec

/-- An ASCII string constant of the source. -/
def ascii (text : String) : Bytes := text.toList.map (fun c => UInt8.ofNat c.toNat)

/-- A C string: what stands before the first NUL. -/
def cString (text : Bytes) : Bytes := text.takeWhile (· ≠ 0)

theorem cString_nulFree {text : Bytes} (nulFree : 0 ∉ text) : cString text = text := by
  refine List.takeWhile_eq_self_iff.mpr fun b member => ?_
  simp only [ne_eq, decide_not, Bool.not_eq_eq_eq_not, Bool.not_true, decide_eq_false_iff_not]
  rintro rfl
  exact nulFree member

theorem cString_nul {text : Bytes} (nulFree : 0 ∉ text) (rest : Bytes) : cString (text ++ 0 :: rest) = text := by
  rw [cString, List.takeWhile_append_of_pos, List.takeWhile_cons_of_neg (by decide), List.append_nil]
  intro b member
  simpa using ne_of_mem_of_not_mem member nulFree

def tab : UInt8 := 9
def newline : UInt8 := 10
def space : UInt8 := 32
def dollar : UInt8 := 36
def comma : UInt8 := 44
def dash : UInt8 := 45
def period : UInt8 := 46
def slash : UInt8 := 47
def colon : UInt8 := 58
def atSign : UInt8 := 64
def underscore : UInt8 := 95

/-- The part of `LC_CTYPE` the program reads. ISO C lets `tolower` change upper
case letters only, and change them to letters only, so the three bytes with a
meaning in the index are neither changed nor produced. -/
structure Locale where
  tolower : UInt8 → UInt8
  tolower_special : ∀ c ∈ [tab, dollar, dash], ∀ b, tolower b = c ↔ b = c

/-- The "C" locale, and every UTF-8 locale on single bytes. -/
def Locale.posix : Locale where
  tolower b := if 65 ≤ b ∧ b ≤ 90 then b + 32 else b
  tolower_special := by
    intro c special b
    have below : c < 65 := by
      simp only [List.mem_cons, List.not_mem_nil, or_false] at special
      rcases special with rfl | rfl | rfl <;> decide
    split
    · constructor <;> intro same <;> subst same <;> grind
    · rfl

namespace Locale

variable (loc : Locale)

def lower (s : Bytes) : Bytes := s.map loc.tolower

@[simp] theorem lower_length (s : Bytes) : (loc.lower s).length = s.length := List.length_map _

@[simp] theorem lower_eq_nil {s : Bytes} : loc.lower s = [] ↔ s = [] := List.map_eq_nil_iff

theorem mem_lower_special {c : UInt8} (special : c ∈ [tab, dollar, dash]) {s : Bytes} :
    c ∈ loc.lower s ↔ c ∈ s := by
  simp only [lower, List.mem_map, loc.tolower_special c special]
  exact exists_eq_right

@[simp] theorem tab_mem_lower {s : Bytes} : tab ∈ loc.lower s ↔ tab ∈ s :=
  loc.mem_lower_special (by simp)

@[simp] theorem head_lower_dollar {s : Bytes} :
    (loc.lower s).head? = some dollar ↔ s.head? = some dollar := by
  cases s with
  | nil => simp [lower]
  | cons b s => simpa [lower] using loc.tolower_special dollar (by simp) b

theorem lower_dash {s : Bytes} : loc.lower s = [dash] ↔ s = [dash] := by
  constructor
  · intro h
    obtain ⟨b, rfl, lowered⟩ := List.map_eq_singleton_iff.mp h
    rw [(loc.tolower_special dash (by simp) b).mp lowered]
  · rintro rfl
    simp [lower, (loc.tolower_special dash (by simp) dash).mpr rfl]

/-- `strcasecmp (a, b) == 0`. -/
def caseEq (a b : Bytes) : Bool := loc.lower a == loc.lower b

end Locale

/-- `%ld`. -/
def printLong (n : Int) : Bytes :=
  (if n < 0 then [dash] else []) ++ (Nat.toDigits 10 n.natAbs).map (fun c => UInt8.ofNat c.toNat)

def isDigit (b : UInt8) : Bool := 48 ≤ b && b ≤ 57

/-- The `isspace` bytes of the "C" locale. -/
def isSpace (b : UInt8) : Bool := b == 32 || (9 ≤ b && b ≤ 13)

def readDigits (s : Bytes) : Nat :=
  (s.takeWhile isDigit).foldl (fun n b => 10 * n + (b.toNat - 48)) 0

/-- `atol`: leading white space, one optional sign, then the digits that follow.
Values printed from a `long` never overflow, so the result is not reduced. -/
def atol (s : Bytes) : Int :=
  match s.dropWhile isSpace with
  | b :: rest =>
    if b = dash then -(readDigits rest : Int)
    else if b = 43 then readDigits rest
    else readDigits (b :: rest)
  | [] => 0

theorem digit_byte {c : Char} (digit : c.isDigit) :
    isDigit (UInt8.ofNat c.toNat) ∧ (UInt8.ofNat c.toNat).toNat = c.toNat := by
  simp only [Char.isDigit, ge_iff_le, Bool.and_eq_true, decide_eq_true_eq] at digit
  have lower : 48 ≤ c.toNat := UInt32.le_iff_toNat_le.mp digit.1
  have upper : c.toNat ≤ 57 := UInt32.le_iff_toNat_le.mp digit.2
  have value : (UInt8.ofNat c.toNat).toNat = c.toNat := by
    rw [UInt8.toNat_ofNat']
    omega
  refine ⟨?_, value⟩
  simp only [isDigit, Bool.and_eq_true, decide_eq_true_eq, UInt8.le_iff_toNat_le, value]
  exact ⟨lower, upper⟩

theorem readDigits_toDigits (n : Nat) :
    readDigits ((Nat.toDigits 10 n).map (fun c => UInt8.ofNat c.toNat)) = n := by
  have digits : ∀ c ∈ Nat.toDigits 10 n, c.isDigit :=
    fun c member => Nat.isDigit_of_mem_toDigits (by decide) (by decide) member
  unfold readDigits
  rw [List.takeWhile_eq_self_iff.mpr]
  · rw [List.foldl_map]
    conv_rhs => rw [← Nat.ofDigitChars_ten_toDigits (n := n)]
    unfold Nat.ofDigitChars
    refine List.foldl_ext _ _ _ ?_
    intro acc c member
    rw [(digit_byte (digits c member)).2]
    rfl
  · intro b member
    obtain ⟨c, atC, rfl⟩ := List.mem_map.mp member
    exact (digit_byte (digits c atC)).1

theorem printLong_bytes {n : Int} {b : UInt8} (member : b ∈ printLong n) :
    b = dash ∨ isDigit b := by
  rcases List.mem_append.mp member with sign | digit
  · by_cases negative : n < 0 <;> simp_all
  · obtain ⟨c, atC, rfl⟩ := List.mem_map.mp digit
    exact Or.inr (digit_byte (Nat.isDigit_of_mem_toDigits (by decide) (by decide) atC)).1

theorem tab_not_mem_printLong (n : Int) : tab ∉ printLong n := by
  intro member
  rcases printLong_bytes member with sign | digit
  · exact absurd sign (by decide)
  · exact absurd digit (by decide)

theorem atol_printLong (n : Int) : atol (printLong n) = n := by
  have noSpace : ∀ b, b = dash ∨ isDigit b → isSpace b = false := by
    rintro b (rfl | digit)
    · decide
    · simp only [isDigit, Bool.and_eq_true, decide_eq_true_eq] at digit
      simp only [isSpace, Bool.or_eq_false_iff, beq_eq_false_iff_ne, Bool.and_eq_false_iff,
        decide_eq_false_iff_not]
      grind
  have start : (printLong n).dropWhile isSpace = printLong n := by
    cases shape : printLong n with
    | nil => rfl
    | cons b rest =>
      rw [List.dropWhile_cons_of_neg]
      simp [noSpace b (printLong_bytes (n := n) (by simp [shape]))]
  unfold atol
  rw [start]
  by_cases negative : n < 0
  · simp only [printLong, if_pos negative, List.singleton_append, if_true]
    rw [readDigits_toDigits]
    omega
  · have nonneg : printLong n = (Nat.toDigits 10 n.natAbs).map (fun c => UInt8.ofNat c.toNat) := by
      simp [printLong, negative]
    cases shape : printLong n with
    | nil =>
      rw [nonneg, List.map_eq_nil_iff] at shape
      exact absurd shape Nat.toDigits_ne_nil
    | cons b rest =>
      have digit : isDigit b := by
        have member : b ∈ printLong n := by simp [shape]
        rw [nonneg] at member
        obtain ⟨c, atC, rfl⟩ := List.mem_map.mp member
        exact (digit_byte (Nat.isDigit_of_mem_toDigits (by decide) (by decide) atC)).1
      have notDash : b ≠ dash := by rintro rfl; exact absurd digit (by decide)
      have notPlus : b ≠ 43 := by rintro rfl; exact absurd digit (by decide)
      simp only [if_neg notDash, if_neg notPlus]
      rw [← shape, nonneg, readDigits_toDigits]
      omega

end ManDb
