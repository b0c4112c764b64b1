import Mathlib.Algebra.Group.Int.Defs
import Mathlib.Algebra.Group.Nat.Defs
import ManDb.Text

namespace ManDb

/-- A value converted to `int`. -/
def toInt (n : Int) : Int := n.bmod (2 ^ 32)

/-- A value converted to `size_t`. -/
def toSize (n : Int) : Nat := (n % 2 ^ 64).toNat

theorem toInt_eq {n : Int} (lower : -2 ^ 31 ≤ n) (upper : n < 2 ^ 31) : toInt n = n :=
  Int.bmod_eq_of_le_mul_two (by omega) (by omega)

theorem toInt_lt (n : Int) : toInt n < 2 ^ 31 := @Int.bmod_lt n (2 ^ 32) (by decide)

theorem le_toInt (n : Int) : -2 ^ 31 ≤ toInt n := @Int.le_bmod n (2 ^ 32) (by decide)

theorem toSize_eq {n : Int} (lower : 0 ≤ n) (upper : n < 2 ^ 64) : (toSize n : Int) = n := by
  rw [toSize, Int.toNat_of_nonneg (Int.emod_nonneg _ (by decide)), Int.emod_eq_of_lt lower upper]

theorem toSize_neg {n : Int} (lower : -2 ^ 31 ≤ n) (upper : n < 0) : (toSize n : Int) = n + 2 ^ 64 := by
  rw [toSize, Int.toNat_of_nonneg (Int.emod_nonneg _ (by decide))]
  omega

/-- The lower half of a `size_t` is all that an `int` takes. -/
theorem toInt_toSize (n : Int) : toInt (toSize n) = toInt n := by
  rw [toInt, toInt, toSize, Int.toNat_of_nonneg (Int.emod_nonneg _ (by decide)), Int.bmod_def, Int.bmod_def,
    Int.emod_emod_of_dvd _ (by decide)]

/-- `atoi`: `strtol` stays within a `long`, and the result is converted. -/
def atoi (s : Bytes) : Int := toInt (max (-2 ^ 63) (min (2 ^ 63 - 1) (atol s)))

/-- A line length: a positive `int`. -/
def LineLength := { n : Nat // 0 < n ∧ n < 2 ^ 31 }

/-- A positive width is taken for the line length. -/
def LineLength.ofWidth (width : Int) : Option LineLength :=
  if inside : 0 < width ∧ width < 2 ^ 31 then some ⟨width.toNat, by omega⟩ else none

/-- `get_line_length` from the two variables of the environment and the columns of the
terminal, if one can be asked. -/
def getLineLength (manwidth columns : Option Bytes) (wsCol : Option UInt16) : LineLength :=
  (manwidth.bind fun width => LineLength.ofWidth (atoi width)).getD <|
    (columns.bind fun width => LineLength.ofWidth (atoi width)).getD <|
      (wsCol.bind fun width => LineLength.ofWidth width.toNat).getD ⟨80, by decide⟩

/-- What `display` prints a line from: the entry's own name if it has one, the page it
was asked for, and the description, which like every object is smaller than
`PTRDIFF_MAX`. -/
structure DisplayRequest where
  lineLen : LineLength
  name : Option Bytes
  page : Bytes
  ext : Bytes
  pointer : Bytes
  whatis : Bytes
  sized : whatis.length < 2 ^ 63

namespace DisplayRequest

variable (r : DisplayRequest)

def pageName : Bytes := r.name.getD r.page

/-- `%.*s`: a negative precision is taken as if there were none. -/
def printPrecision (precision : Int) (s : Bytes) : Bytes := if precision < 0 then s else s.take precision.toNat

/-- The line up to the description. -/
def linePrefix (longOutput : Bool) : Bytes :=
  let half : Int := r.lineLen.val / 2
  let name :=
    if !longOutput && toSize half < r.pageName.length then printPrecision (half - 3) r.pageName ++ ascii "..."
    else r.pageName
  let string := name ++ ascii " (" ++ r.ext ++ ascii ")" ++
    if r.pointer ≠ [dash] ∧ r.pointer ≠ r.page then ascii " [" ++ r.pointer ++ ascii "]" else []
  string ++ List.replicate (20 - string.length) space ++ ascii " - "

/-- `rest`: the difference is a `size_t`, and is kept in an `int`. -/
def rest (longOutput : Bool) : Int := toInt (toSize (r.lineLen.val - (r.linePrefix longOutput).length))

/-- The test for a description that is too long. -/
def shortens (longOutput : Bool) : Bool := !longOutput && toSize (r.rest longOutput) < r.whatis.length

/-- The line that is printed; `none` if a byte outside the description is overwritten. -/
def line (longOutput : Bool) : Option Bytes :=
  if r.shortens longOutput then
    let index := r.rest longOutput - 3
    if 0 ≤ index ∧ index < r.whatis.length then
      some (r.linePrefix longOutput ++ r.whatis.take index.toNat ++ ascii "...\n")
    else none
  else some (r.linePrefix longOutput ++ r.whatis ++ ascii "\n")

/-- A description within a line length: the whole if it fits after the prefix, or else
the longest beginning that fits with "..." behind it. -/
def Fitted (before shown : Bytes) : Prop :=
  (before.length + r.whatis.length ≤ r.lineLen.val → shown = r.whatis) ∧
    (r.lineLen.val < before.length + r.whatis.length → ∃ kept, shown = kept ++ ascii "..." ∧ kept <+: r.whatis ∧
      ∀ other, other <+: r.whatis → before.length + (other ++ ascii "...").length ≤ r.lineLen.val →
        other.length ≤ kept.length)

/-- What is expected of a line that is not printed with `--long`. -/
structure Truncates : Prop where
  inside : r.shortens false = true → 0 ≤ r.rest false - 3 ∧ r.rest false - 3 < r.whatis.length
  fitted : (r.linePrefix false).length + 3 ≤ r.lineLen.val →
    ∃ shown, r.line false = some (r.linePrefix false ++ shown ++ [newline]) ∧
      (r.linePrefix false ++ shown).length ≤ r.lineLen.val ∧ r.Fitted (r.linePrefix false) shown

/-- The columns that the prefix leaves on the line. -/
def columnsLeft : Int := r.lineLen.val - (r.linePrefix false).length

theorem rest_eq : r.rest false = toInt r.columnsLeft := toInt_toSize _

/-- Where three columns are left, the conversion changes nothing. -/
theorem rest_room (room : (r.linePrefix false).length + 3 ≤ r.lineLen.val) : r.rest false = r.columnsLeft := by
  have small := r.lineLen.property.2
  rw [rest_eq, columnsLeft, toInt_eq (by omega) (by omega)]

/-- A negative number of columns is taken for a large one. -/
theorem shortens_iff : r.shortens false = true ↔ 0 ≤ r.rest false ∧ r.rest false < r.whatis.length := by
  have upper : r.rest false < 2 ^ 31 := toInt_lt _
  have lower : -2 ^ 31 ≤ r.rest false := le_toInt _
  have sized := r.sized
  simp only [shortens, Bool.not_false, Bool.true_and, decide_eq_true_eq]
  by_cases negative : r.rest false < 0
  · have size := toSize_neg lower negative
    omega
  · have size := toSize_eq (by omega : 0 ≤ r.rest false) (by omega)
    omega

/-- With three columns left the line is printed as it should be. -/
theorem line_fitted (room : (r.linePrefix false).length + 3 ≤ r.lineLen.val) :
    ∃ shown, r.line false = some (r.linePrefix false ++ shown ++ [newline]) ∧
      (r.linePrefix false ++ shown).length ≤ r.lineLen.val ∧ r.Fitted (r.linePrefix false) shown := by
  have rest := r.rest_room room
  have test := r.shortens_iff
  rw [columnsLeft] at rest
  by_cases long : r.lineLen.val < (r.linePrefix false).length + r.whatis.length
  · have index : (0 : Int) ≤ r.rest false - 3 ∧ r.rest false - 3 < r.whatis.length := by omega
    have kept : (r.whatis.take (r.rest false - 3).toNat).length = (r.rest false - 3).toNat := by
      rw [List.length_take]
      omega
    refine ⟨r.whatis.take (r.rest false - 3).toNat ++ ascii "...", ?_, ?_, ?_, ?_⟩
    · rw [line, if_pos (test.mpr (by omega))]
      dsimp only
      rw [if_pos index]
      simp [ascii, newline]
    · have dots : (ascii "...").length = 3 := rfl
      rw [List.length_append, List.length_append, kept, dots]
      omega
    · intro fits
      omega
    · intro _
      refine ⟨_, rfl, List.take_prefix _ _, fun other _ fits => ?_⟩
      have dots : (ascii "...").length = 3 := rfl
      rw [List.length_append, dots] at fits
      rw [kept]
      omega
  · refine ⟨r.whatis, ?_, ?_, fun _ => rfl, fun wide => absurd wide long⟩
    · rw [line, if_neg (mt test.mp (by omega))]
      rfl
    · rw [List.length_append]
      omega

/-- A description on a line of 24 columns, of which the prefix leaves one. -/
def listOnNarrowLine : DisplayRequest where
  lineLen := getLineLength (some (ascii "24")) none none
  name := none
  page := ascii "ls"
  ext := ascii "1"
  pointer := [dash]
  whatis := ascii "list"
  sized := by decide

end DisplayRequest

end ManDb
