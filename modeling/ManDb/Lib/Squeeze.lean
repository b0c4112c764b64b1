import Mathlib.Data.List.Chain
import Mathlib.Data.List.TakeWhile

namespace Squeeze

variable {α : Type*}

/-- One element for each run of elements with the property, from inside of a run or not. -/
def squeezeFrom (p : α → Bool) (sep : α) : Bool → List α → List α
  | _, [] => []
  | inside, x :: xs =>
    if p x then (if inside then [] else [sep]) ++ squeezeFrom p sep true xs
    else x :: squeezeFrom p sep false xs

def squeeze (p : α → Bool) (sep : α) (xs : List α) : List α := squeezeFrom p sep false xs

/-- Each maximal run of elements with the property has become one element, and the other
elements are as they were. -/
inductive Squeezed (p : α → Bool) (sep : α) : List α → List α → Prop
  | nil : Squeezed p sep [] []
  | other {x xs ys} : p x = false → Squeezed p sep xs ys → Squeezed p sep (x :: xs) (x :: ys)
  | run {run rest ys} : run ≠ [] → (∀ x ∈ run, p x = true) → (∀ x ∈ rest.head?, p x = false) →
      Squeezed p sep rest ys → Squeezed p sep (run ++ rest) (sep :: ys)

/-- No two elements with the property follow each other. -/
def Apart (p : α → Bool) (xs : List α) : Prop := xs.IsChain fun a b => ¬(p a = true ∧ p b = true)

variable {p : α → Bool} {sep x : α} {xs ys run rest : List α} {inside : Bool}

theorem squeezeFrom_run (inRun : ∀ x ∈ run, p x = true) (rest : List α) :
    squeezeFrom p sep true (run ++ rest) = squeezeFrom p sep true rest := by
  induction run with
  | nil => rfl
  | cons x run ih =>
    rw [List.cons_append, squeezeFrom, if_pos (inRun x List.mem_cons_self)]
    exact ih fun y member => inRun y (List.mem_cons_of_mem x member)

theorem squeezeFrom_stop (stops : ∀ x ∈ rest.head?, p x = false) :
    squeezeFrom p sep true rest = squeezeFrom p sep false rest := by
  cases rest with
  | nil => rfl
  | cons x rest =>
    have other := stops x rfl
    simp [squeezeFrom, other]

/-- A run is all that decides what becomes of it. -/
theorem squeeze_run (nonempty : run ≠ []) (inRun : ∀ x ∈ run, p x = true) (stops : ∀ x ∈ rest.head?, p x = false) :
    squeeze p sep (run ++ rest) = sep :: squeeze p sep rest := by
  obtain ⟨x, run, rfl⟩ := List.exists_cons_of_ne_nil nonempty
  have tail : squeezeFrom p sep true (run ++ rest) = squeezeFrom p sep true rest :=
    squeezeFrom_run (fun y member => inRun y (List.mem_cons_of_mem x member)) rest
  rw [squeeze, List.cons_append, squeezeFrom, if_pos (inRun x List.mem_cons_self), tail, squeezeFrom_stop stops]
  rfl

theorem squeeze_other (other : p x = false) (xs : List α) : squeeze p sep (x :: xs) = x :: squeeze p sep xs := by
  simp [squeeze, squeezeFrom, other]

theorem Squeezed.eq (squeezed : Squeezed p sep xs ys) : ys = squeeze p sep xs := by
  induction squeezed with
  | nil => rfl
  | other different _ ih => rw [squeeze_other different, ih]
  | run nonempty inRun stops _ ih => rw [squeeze_run nonempty inRun stops, ih]

theorem squeeze_squeezed (p : α → Bool) (sep : α) (xs : List α) : Squeezed p sep xs (squeeze p sep xs) := by
  generalize size : xs.length = k
  induction k using Nat.strong_induction_on generalizing xs with
  | _ k ih =>
    cases xs with
    | nil => exact .nil
    | cons x xs =>
      cases kind : p x with
      | false =>
        rw [squeeze_other kind]
        exact .other kind (ih xs.length (by rw [← size, List.length_cons]; omega) xs rfl)
      | true =>
        have inRun : ∀ y ∈ x :: xs.takeWhile p, p y = true := by
          intro y member
          rcases List.mem_cons.mp member with rfl | later
          · exact kind
          · exact List.mem_takeWhile_imp later
        have stops : ∀ y ∈ (xs.dropWhile p).head?, p y = false := by
          intro y first
          have found := List.head?_dropWhile_not p xs
          simpa [Option.mem_def.mp first] using found
        have shorter : (xs.dropWhile p).length < k := by
          have fits := (List.dropWhile_suffix p (l := xs)).length_le
          rw [List.length_cons] at size
          omega
        have parts : x :: xs = (x :: xs.takeWhile p) ++ xs.dropWhile p := by
          rw [List.cons_append, List.takeWhile_append_dropWhile]
        rw [parts, squeeze_run (List.cons_ne_nil _ _) inRun stops]
        exact .run (List.cons_ne_nil _ _) inRun stops (ih _ shorter _ rfl)

/-- The other elements stay, in their order. -/
theorem filter_squeezeFrom (isSep : p sep = true) (inside : Bool) (xs : List α) :
    (squeezeFrom p sep inside xs).filter (fun x => !p x) = xs.filter (fun x => !p x) := by
  induction xs generalizing inside with
  | nil => rfl
  | cons x xs ih =>
    cases kind : p x with
    | false => simp [squeezeFrom, kind, ih]
    | true => cases inside <;> simp [squeezeFrom, kind, isSep, ih]

/-- No two such elements are left side by side, and none right behind a run. -/
theorem squeezeFrom_apart (inside : Bool) (xs : List α) : Apart p (squeezeFrom p sep inside xs) ∧
    (inside = true → ∀ x ∈ (squeezeFrom p sep inside xs).head?, p x = false) := by
  induction xs generalizing inside with
  | nil => exact ⟨.nil, nofun⟩
  | cons x xs ih =>
    cases kind : p x with
    | false =>
      have shape : squeezeFrom p sep inside (x :: xs) = x :: squeezeFrom p sep false xs := by
        simp [squeezeFrom, kind]
      rw [shape]
      refine ⟨List.isChain_cons.mpr ⟨fun y _ both => ?_, (ih false).1⟩, fun _ y first => ?_⟩
      · rw [kind] at both
        exact Bool.noConfusion both.1
      · cases first
        exact kind
    | true =>
      obtain ⟨apart, stops⟩ := ih true
      cases inside with
      | true =>
        have shape : squeezeFrom p sep true (x :: xs) = squeezeFrom p sep true xs := by
          simp [squeezeFrom, kind]
        rw [shape]
        exact ih true
      | false =>
        have shape : squeezeFrom p sep false (x :: xs) = sep :: squeezeFrom p sep true xs := by
          simp [squeezeFrom, kind]
        rw [shape]
        refine ⟨List.isChain_cons.mpr ⟨fun y first both => ?_, apart⟩, nofun⟩
        rw [stops rfl y first] at both
        exact Bool.noConfusion both.2

theorem mem_squeezeFrom (member : x ∈ squeezeFrom p sep inside xs) : x = sep ∨ (x ∈ xs ∧ p x = false) := by
  induction xs generalizing inside with
  | nil => cases member
  | cons y xs ih =>
    cases kind : p y with
    | false =>
      simp only [squeezeFrom, kind, Bool.false_eq_true, if_false, List.mem_cons] at member
      rcases member with rfl | later
      · exact Or.inr ⟨List.mem_cons_self, kind⟩
      · exact (ih later).imp_right (And.imp_left (List.mem_cons_of_mem y))
    | true =>
      simp only [squeezeFrom, kind, if_true, List.mem_append] at member
      rcases member with first | later
      · cases inside with
        | true => cases first
        | false => exact Or.inl (List.mem_singleton.mp first)
      · exact (ih later).imp_right (And.imp_left (List.mem_cons_of_mem y))

/-- Where nothing is to be done nothing is done. -/
theorem squeeze_of_apart (apart : Apart p xs) (only : ∀ x ∈ xs, p x = true → x = sep) : squeeze p sep xs = xs := by
  induction xs with
  | nil => rfl
  | cons x xs ih =>
    obtain ⟨next, apart⟩ := List.isChain_cons.mp apart
    have rest := ih apart fun y member => only y (List.mem_cons_of_mem x member)
    cases kind : p x with
    | false => rw [squeeze_other kind, rest]
    | true =>
      have stops : ∀ y ∈ xs.head?, p y = false := by
        intro y first
        rw [← Bool.not_eq_true]
        exact fun other => next y first ⟨kind, other⟩
      have alone : squeeze p sep ([x] ++ xs) = sep :: squeeze p sep xs :=
        squeeze_run (List.cons_ne_nil x []) (by simpa using kind) stops
      rw [List.singleton_append, rest] at alone
      rw [alone, only x List.mem_cons_self kind]

theorem squeeze_idem (p : α → Bool) (sep : α) (xs : List α) :
    squeeze p sep (squeeze p sep xs) = squeeze p sep xs := by
  refine squeeze_of_apart (squeezeFrom_apart false xs).1 fun x member kind => ?_
  rcases mem_squeezeFrom member with same | ⟨_, other⟩
  · exact same
  · rw [kind] at other
    cases other

end Squeeze
