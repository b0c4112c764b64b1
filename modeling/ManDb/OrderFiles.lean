import Mathlib.Logic.Function.Basic
import ManDb.Text
import ManDb.Lib.SortedList

namespace ManDb

/-- What comes of opening a file and asking where its first extent is. -/
inductive Probe
  | unopened
  | opened (physical : Option UInt64)

/-- `order_files` is built in one of three ways. -/
inductive OrderBuild
  | fiemap | fadvise | neither
  deriving DecidableEq

/-- What comes of `open` and `fstatfs` on the directory. -/
structure DirectoryProbe where
  opens : Bool
  statfs : Bool

/-- `gl_sortedlist_add` as gl_list.h describes it: the element is added, and a list that
is sorted by a consistent comparison stays so. -/
structure GlSortedList where
  add : (Bytes → Bytes → Ordering) → List Bytes → Bytes → List Bytes
  add_perm : ∀ cmp xs x, (add cmp xs x).Perm (x :: xs)
  add_sorted : ∀ cmp xs x, SortedList.Consistent cmp (x :: xs) → SortedList.Sorted cmp xs →
    SortedList.Sorted cmp (add cmp xs x)

/-- `physical_offsets` and `sorted_basenames`. -/
structure PhysicalOrder where
  offsets : Bytes → Option UInt64
  sorted : List Bytes

/-- Files without a known offset come last. -/
def physicalOffset (offsets : Bytes → Option UInt64) (name : Bytes) : UInt64 :=
  (offsets name).getD 0xFFFFFFFFFFFFFFFF

/-- `compare_physical_offsets`. -/
def comparePhysicalOffsets (offsets : Bytes → Option UInt64) : Bytes → Bytes → Ordering :=
  compareOn (physicalOffset offsets)

instance (offsets : Bytes → Option UInt64) : Std.TransCmp (comparePhysicalOffsets offsets) :=
  inferInstanceAs (Std.TransCmp (compareOn (physicalOffset offsets)))

/-- One turn of the loop over the names. A file that cannot be opened is left out. -/
def orderTurn (lists : GlSortedList) (s : PhysicalOrder) (file : Bytes × Probe) : PhysicalOrder :=
  match file.2 with
  | .unopened => s
  | .opened physical =>
    let offsets := physical.elim s.offsets fun offset => Function.update s.offsets file.1 (some offset)
    ⟨offsets, lists.add (comparePhysicalOffsets offsets) s.sorted file.1⟩

/-- `order_files`, on the names with what comes of opening each. -/
def orderFiles (build : OrderBuild) (lists : GlSortedList) (dir : DirectoryProbe) (files : List (Bytes × Probe)) :
    List Bytes :=
  match build with
  | .fiemap =>
    if dir.opens && dir.statfs then (files.foldl (orderTurn lists) ⟨fun _ => none, []⟩).sorted
    else files.map Prod.fst
  -- the files are only read ahead
  | .fadvise => files.map Prod.fst
  | .neither => files.map Prod.fst

/-- The name, if the file could be opened. -/
def openedName (file : Bytes × Probe) : Option Bytes :=
  match file.2 with
  | .unopened => none
  | .opened _ => some file.1

variable {lists : GlSortedList} {s : PhysicalOrder} {file : Bytes × Probe} {files : List (Bytes × Probe)}

theorem openedName_eq_none_iff : openedName file = none ↔ file.2 = .unopened := by
  unfold openedName
  split <;> simp_all

theorem orderTurn_perm (lists : GlSortedList) (s : PhysicalOrder) (file : Bytes × Probe) :
    (orderTurn lists s file).sorted.Perm ((openedName file).toList ++ s.sorted) := by
  unfold orderTurn openedName
  cases file.2 with
  | unopened => exact List.Perm.refl _
  | opened physical => exact lists.add_perm _ _ _

/-- The loop adds the names of the files that could be opened, each as often as it came. -/
theorem orderLoop_perm (lists : GlSortedList) (files : List (Bytes × Probe)) (s : PhysicalOrder) :
    (files.foldl (orderTurn lists) s).sorted.Perm (s.sorted ++ files.filterMap openedName) := by
  induction files generalizing s with
  | nil => simp
  | cons file files ih =>
    have turn := (orderTurn_perm lists s file).append_right (files.filterMap openedName)
    refine ((ih (orderTurn lists s file)).trans turn).trans ?_
    rw [List.filterMap_cons, List.append_assoc]
    cases openedName file with
    | none => exact List.Perm.refl _
    | some name =>
      simp only [Option.toList_some, List.singleton_append]
      exact List.perm_middle.symm

/-- No name comes from anywhere else. -/
theorem mem_orderFiles {build : OrderBuild} {dir : DirectoryProbe} {name : Bytes}
    (member : name ∈ orderFiles build lists dir files) : name ∈ files.map Prod.fst := by
  cases build with
  | fadvise => exact member
  | neither => exact member
  | fiemap =>
    unfold orderFiles at member
    simp only at member
    split at member
    · have loop := (orderLoop_perm lists files ⟨fun _ => none, []⟩).mem_iff.mp member
      rw [List.nil_append, List.mem_filterMap] at loop
      obtain ⟨file, inFiles, opened⟩ := loop
      refine List.mem_map.mpr ⟨file, inFiles, ?_⟩
      unfold openedName at opened
      split at opened
      · cases opened
      · exact Option.some.inj opened
    · exact member

/-- The offset of a file that is not in the list yet does not matter for the list. -/
theorem Sorted.fresh {offsets : Bytes → Option UInt64} {name : Bytes} {names : List Bytes} (fresh : name ∉ names)
    (offset : Option UInt64) (sorted : SortedList.Sorted (comparePhysicalOffsets offsets) names) :
    SortedList.Sorted (comparePhysicalOffsets (Function.update offsets name offset)) names := by
  refine List.Pairwise.imp_of_mem (fun {a b} inA inB le => ?_) sorted
  have differentA : a ≠ name := fun same => fresh (same ▸ inA)
  have differentB : b ≠ name := fun same => fresh (same ▸ inB)
  simpa only [comparePhysicalOffsets, compareOn, physicalOffset, Function.update_of_ne differentA,
    Function.update_of_ne differentB] using le

theorem orderTurn_sorted (sorted : SortedList.Sorted (comparePhysicalOffsets s.offsets) s.sorted)
    (fresh : file.1 ∉ s.sorted) :
    SortedList.Sorted (comparePhysicalOffsets (orderTurn lists s file).offsets) (orderTurn lists s file).sorted := by
  unfold orderTurn
  cases file.2 with
  | unopened => exact sorted
  | opened physical =>
    refine lists.add_sorted _ _ _ (SortedList.consistent _ _) ?_
    cases physical with
    | none => exact sorted
    | some offset => exact Sorted.fresh fresh (some offset) sorted

/-- Names that differ end up in the order of their physical offsets. -/
theorem orderLoop_sorted (sorted : SortedList.Sorted (comparePhysicalOffsets s.offsets) s.sorted)
    (nodup : (s.sorted ++ files.map Prod.fst).Nodup) :
    SortedList.Sorted (comparePhysicalOffsets (files.foldl (orderTurn lists) s).offsets)
      (files.foldl (orderTurn lists) s).sorted := by
  induction files generalizing s with
  | nil => exact sorted
  | cons file files ih =>
    rw [List.map_cons, List.nodup_middle, List.nodup_cons, List.mem_append, not_or] at nodup
    refine ih (orderTurn_sorted sorted nodup.1.1) ?_
    have turn := (orderTurn_perm lists s file).append_right (files.map Prod.fst)
    rw [turn.nodup_iff]
    cases opened : openedName file with
    | none => exact nodup.2
    | some name =>
      have same : name = file.1 := by
        unfold openedName at opened
        split at opened
        · cases opened
        · exact (Option.some.inj opened).symm
      subst same
      rw [Option.toList_some, List.singleton_append, List.cons_append, List.nodup_cons, List.mem_append, not_or]
      exact nodup

/-- Names are lost exactly where files cannot be opened. -/
theorem filterMap_openedName_perm_iff :
    (files.filterMap openedName).Perm (files.map Prod.fst) ↔ ∀ file ∈ files, file.2 ≠ .unopened := by
  constructor
  · intro perm file member unopened
    have lengths := perm.length_eq
    rw [List.length_map] at lengths
    have found := List.filterMap_length_eq_length.mp lengths file member
    rw [openedName_eq_none_iff.mpr unopened] at found
    cases found
  · intro opened
    refine List.Perm.of_eq ?_
    rw [← List.filterMap_eq_map]
    refine List.filterMap_congr fun file member => ?_
    unfold openedName
    split
    · rename_i unopened
      exact absurd unopened (opened file member)
    · rfl

/-- The list is only reordered exactly if it is not looked at, or every file of it can be
opened. -/
theorem orderFiles_perm_iff (build : OrderBuild) (lists : GlSortedList) (dir : DirectoryProbe)
    (files : List (Bytes × Probe)) :
    (orderFiles build lists dir files).Perm (files.map Prod.fst) ↔
      (build = .fiemap → dir.opens = true → dir.statfs = true → ∀ file ∈ files, file.2 ≠ .unopened) := by
  cases build with
  | fiemap =>
    have loop := orderLoop_perm lists files ⟨fun _ => none, []⟩
    rw [List.nil_append] at loop
    cases opens : dir.opens with
    | false => simp [orderFiles, opens]
    | true =>
      cases statfs : dir.statfs with
      | false => simp [orderFiles, opens, statfs]
      | true =>
        simp only [orderFiles, opens, statfs, Bool.and_self, if_true, forall_const]
        rw [← filterMap_openedName_perm_iff]
        exact ⟨loop.symm.trans, loop.trans⟩
  | fadvise => simp [orderFiles]
  | neither => simp [orderFiles]

/-- A sorted list as gl_list.h describes it. -/
def insertionList : GlSortedList where
  add cmp xs x := SortedList.add cmp x xs
  add_perm _ xs x := SortedList.add_perm x xs
  add_sorted _ _ _ consistent sorted := consistent.add_sorted sorted

/-- A dangling link is lost. -/
theorem orderFiles_loses_link :
    ¬(orderFiles .fiemap insertionList ⟨true, true⟩
        [(ascii "foo.1", .opened (some 8192)), (ascii "link.1", .unopened)]).Perm
      ([(ascii "foo.1", Probe.opened (some 8192)), (ascii "link.1", .unopened)].map Prod.fst) := by
  intro perm
  exact absurd perm.length_eq (by decide +kernel)

end ManDb
