import ManDb.Descriptions
import ManDb.LessPrompt

namespace ManDb

/-- `MAN_ROOT`. -/
def manRoot : Bytes := ascii "/usr"

/-- `CAT_ROOT`. -/
def catRoot : Bytes := ascii "/var/catman"

/-- What the loop of `fsstnd` makes of an element: `man<x>` becomes `cat<x>`, and `man` is passed. -/
def fsstndElement (element : Bytes) : Option Bytes :=
  if ascii "man" <+: element then
    if element.drop 3 = [] then none else some ((element.set 0 99).set 2 116)
  else some element

/-- A turn of that loop: what is in the buffer, and the next element. -/
def fsstndTurn (size : Nat) (catpath element : Bytes) : Option Bytes :=
  match fsstndElement element with
  | none => some catpath
  | some element => (strcat size catpath [slash]).bind fun catpath => strcat size catpath element

/-- `fsstnd`. A store behind the buffer that is allocated gives `none`. -/
def fsstnd (path : Bytes) : Option Bytes :=
  if manRoot <+: path then
    let path := path.drop manRoot.length
    let size := path.length + (catRoot.length + 1) - 3
    (strcat size [] catRoot).bind fun catpath => (strtok slash path).foldlM (fsstndTurn size) catpath
  else some path

/-- What an element adds to the path of the cat pages. -/
def fsstndPart (element : Bytes) : Bytes := (fsstndElement element).elim [] (slash :: ·)

variable {dest element : Bytes} {size : Nat}

theorem fsstndTurn_eq : fsstndTurn size dest element =
    if fsstndPart element = [] then some dest else strcat size dest (fsstndPart element) := by
  unfold fsstndTurn fsstndPart
  cases fsstndElement element with
  | none => rfl
  | some element =>
    simp only [Option.elim_some, strcat, List.length_append, List.length_cons, List.length_nil, reduceCtorEq, if_false]
    by_cases fits : dest.length + (element.length + 1) + 1 ≤ size
    · have slashFits : dest.length + (0 + 1) + 1 ≤ size := by omega
      rw [if_pos slashFits, Option.bind_some, if_pos (by simp; omega), if_pos fits, List.append_assoc,
        List.singleton_append]
    · rw [if_neg fits]
      split
      · rw [Option.bind_some, if_neg (by simp; omega)]
      · rfl

/-- The whole path is built if there is room for it, and otherwise something is stored
behind the buffer. -/
theorem fsstndLoop_eq (elements : List Bytes) (room : dest.length + 1 ≤ size) :
    elements.foldlM (fsstndTurn size) dest = strcat size dest (elements.flatMap fsstndPart) := by
  induction elements generalizing dest with
  | nil => simp [strcat, room]
  | cons element elements ih =>
    rw [List.foldlM_cons, fsstndTurn_eq, List.flatMap_cons]
    by_cases passed : fsstndPart element = []
    · rw [if_pos passed, Option.bind_eq_bind, Option.bind_some, ih room, passed, List.nil_append]
    · rw [if_neg passed]
      by_cases fits : (dest ++ fsstndPart element).length + 1 ≤ size
      · have stored : strcat size dest (fsstndPart element) = some (dest ++ fsstndPart element) := if_pos fits
        rw [stored, Option.bind_eq_bind, Option.bind_some, ih fits, strcat, strcat, List.append_assoc]
      · have outside : strcat size dest (fsstndPart element) = none := if_neg fits
        have longer : ¬(dest ++ (fsstndPart element ++ elements.flatMap fsstndPart)).length + 1 ≤ size := by
          simp only [List.length_append] at fits ⊢
          omega
        rw [outside, strcat, if_neg longer]
        rfl

theorem fsstnd_manRoot (rest : Bytes) :
    fsstnd (manRoot ++ rest) =
      strcat (rest.length + 9) [] (catRoot ++ (strtok slash rest).flatMap fsstndPart) := by
  have begins : manRoot <+: manRoot ++ rest := List.prefix_append manRoot rest
  have allocated : rest.length + (catRoot.length + 1) - 3 = rest.length + 9 := by
    have root : catRoot.length = 11 := by decide
    omega
  simp only [fsstnd, if_pos begins, List.drop_left, allocated]
  by_cases root : catRoot.length + 1 ≤ rest.length + 9
  · have stored : strcat (rest.length + 9) [] catRoot = some catRoot := if_pos root
    rw [stored, Option.bind_some, fsstndLoop_eq _ root]
    rfl
  · have outside : strcat (rest.length + 9) [] catRoot = none := if_neg root
    rw [outside, strcat, if_neg]
    · rfl
    · simp only [List.nil_append, List.length_append]
      omega

/-- An element takes its length and a slash, and only `man` takes nothing. -/
theorem length_fsstndPart (element : Bytes) :
    (fsstndPart element).length + (if element = ascii "man" then 4 else 0) = element.length + 1 := by
  unfold fsstndPart fsstndElement
  split
  · rename_i starts
    obtain ⟨tail, rfl⟩ := starts
    have back : (ascii "man" ++ tail).drop 3 = tail := rfl
    rw [back]
    cases tail with
    | nil => rfl
    | cons c tail =>
      have longer : ascii "man" ++ c :: tail ≠ ascii "man" := by simp
      simp [longer]
  · rename_i other
    have different : element ≠ ascii "man" := by
      rintro rfl
      exact other (List.prefix_refl _)
    simp [different]

theorem length_flatMap_fsstndPart (elements : List Bytes) :
    (elements.flatMap fsstndPart).length + 4 * elements.count (ascii "man") =
      (elements.map List.length).sum + elements.length := by
  induction elements with
  | nil => rfl
  | cons element elements ih =>
    have one := length_fsstndPart element
    simp only [List.flatMap_cons, List.length_append, List.count_cons, List.map_cons, List.sum_cons,
      List.length_cons, beq_iff_eq]
    split at one <;> rename_i same <;> simp only [same, if_true, if_false] at one ⊢ <;> omega

/-- The elements of a path are all of it but its slashes. -/
theorem sum_length_strtok (delim : UInt8) (s : Bytes) :
    ((strtok delim s).map List.length).sum + s.count delim = s.length := by
  rw [← Separated.sum_length_splitOn delim s, strtok]
  congr 1
  induction s.splitOn delim with
  | nil => rfl
  | cons part parts ih =>
    rw [List.map_cons, List.sum_cons, ← ih]
    by_cases empty : part = []
    · simp [empty]
    · simp [empty]

theorem length_strtok_le (delim : UInt8) (s : Bytes) : (strtok delim s).length ≤ s.count delim + 1 := by
  rw [← Separated.length_splitOn]
  exact List.length_filter_le _ _

/-- The path of the cat pages fits into what `fsstnd` allocates exactly if an element `man`
is passed, or there are slashes enough that are not copied. -/
theorem fsstnd_fits_iff (rest : Bytes) :
    fsstnd (manRoot ++ rest) = some (catRoot ++ (strtok slash rest).flatMap fsstndPart) ↔
      ascii "man" ∈ strtok slash rest ∨ (strtok slash rest).length + 3 ≤ rest.count slash := by
  have root : catRoot.length = 11 := by decide
  have copied := length_flatMap_fsstndPart (strtok slash rest)
  have elements := sum_length_strtok slash rest
  have fewer := length_strtok_le slash rest
  have fits : (catRoot ++ (strtok slash rest).flatMap fsstndPart).length + 1 ≤ rest.length + 9 ↔
      0 < (strtok slash rest).count (ascii "man") ∨ (strtok slash rest).length + 3 ≤ rest.count slash := by
    rw [List.length_append]
    omega
  rw [fsstnd_manRoot, ← List.count_pos_iff, ← fits, strcat, List.nil_append, Option.ite_none_right_eq_some,
    and_iff_left rfl]

/-- `/usr/share` has no element `man`: its path takes 18 bytes, and 15 are allocated. -/
theorem fsstnd_share_outside : ascii "/usr/share" = manRoot ++ ascii "/share" ∧
    catRoot ++ (strtok slash (ascii "/share")).flatMap fsstndPart = ascii "/var/catman/share" ∧
    (ascii "/var/catman/share").length + 1 = 18 ∧ (ascii "/share").length + (catRoot.length + 1) - 3 = 15 ∧
    fsstnd (ascii "/usr/share") = none := by
  decide

example : fsstnd (ascii "/usr/local/man/manx") = some (ascii "/var/catman/local/catx") := by decide

end ManDb
