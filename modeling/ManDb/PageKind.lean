import ManDb.Filenames

namespace ManDb

/-- `comp_info` of a path. With `gunzip` there is a directory ending in ".Z" to look for:
the files of such a directory have an empty extension. -/
def compInfoOfPath (compExts : List Bytes) (gunzip : Bool) (filename : Bytes) : Option (Bytes × Bytes) :=
  match compInfo compExts filename with
  | some found => some found
  | none => if gunzip then (Separated.cutAt (ascii ".Z/") filename).map fun found => (found.1, []) else none

/-- The part of the path of a page that `test_manfile` compares. -/
def scannedStem (compExts : List Bytes) (gunzip : Bool) (file : Bytes) : Bytes :=
  ((compInfoOfPath compExts gunzip file).map Prod.fst).getD file

/-- The kind that `test_manfile` gives a page with this ultimate source. -/
def testManfileId (compExts : List Bytes) (gunzip : Bool) (file ultPath : Bytes) : UInt8 :=
  let len := (scannedStem compExts gunzip file).length
  -- strncmp (ult->path, file, len) == 0
  if ultPath.take len = file.take len then ultMan else soMan

/-- The kind that `try_section` gives it. -/
def trySectionId (foundName ultPath : Bytes) : UInt8 := if ultPath = foundName then ultMan else soMan

/-- The path without a known compression extension. -/
def stemOf (compExts : List Bytes) (file : Bytes) : Bytes := ((compInfo compExts file).map Prod.fst).getD file

/-- The known compression extension of a path. -/
def compExtOf (compExts : List Bytes) (file : Bytes) : Option Bytes := (compInfo compExts file).map Prod.snd

/-- The page is an ultimate source just if its ultimate source is the page itself, up to
a compression extension, and the two programs agree where the extensions do. -/
def KindRight (compExts : List Bytes) (gunzip : Bool) (file ultPath : Bytes) : Prop :=
  testManfileId compExts gunzip file ultPath =
      (if stemOf compExts ultPath = stemOf compExts file then ultMan else soMan) ∧
    (compExtOf compExts ultPath = compExtOf compExts file →
      testManfileId compExts gunzip file ultPath = trySectionId file ultPath)

variable {compExts : List Bytes} {gunzip : Bool} {file ultPath stem ext : Bytes}

theorem compInfo_concat (clean : period ∉ ext) (known : ext ∈ compExts) (stem : Bytes) :
    compInfo compExts (stem ++ period :: ext) = some (stem, ext) := by
  rw [compInfo, Separated.cutLast_append_cons clean]
  simp only [if_pos known]

theorem stemOf_concat (clean : period ∉ ext) (known : ext ∈ compExts) (stem : Bytes) :
    stemOf compExts (stem ++ period :: ext) = stem := by
  rw [stemOf, compInfo_concat clean known]
  rfl

theorem stemOf_none (none : compInfo compExts file = none) : stemOf compExts file = file := by
  rw [stemOf, none]
  rfl

theorem compInfo_unknown (clean : period ∉ ext) (unknown : ext ∉ compExts) (stem : Bytes) :
    compInfo compExts (stem ++ period :: ext) = none := by
  rw [compInfo, Separated.cutLast_append_cons clean]
  simp only [if_neg unknown]

theorem compInfo_undotted (absent : period ∉ file) : compInfo compExts file = none := by
  rw [compInfo, Separated.cutLast_of_not_mem absent]

/-- The directory does not matter for the extension of a file. -/
theorem compInfo_directory (slashless : ∀ ext ∈ compExts, slash ∉ ext) (directory file : Bytes) :
    compInfo compExts (directory ++ slash :: file) =
      (compInfo compExts file).map fun found => (directory ++ slash :: found.1, found.2) := by
  by_cases dotted : period ∈ file
  · obtain ⟨stem, ext, rfl, clean⟩ := Separated.exists_last_of_mem dotted
    rw [← List.cons_append, ← List.append_assoc]
    by_cases known : ext ∈ compExts
    · rw [compInfo_concat clean known, compInfo_concat clean known]
      rfl
    · rw [compInfo_unknown clean known, compInfo_unknown clean known]
      rfl
  · rw [compInfo_undotted dotted, Option.map_none]
    have tail : period ∉ slash :: file := by
      rw [List.mem_cons, not_or]
      exact ⟨by decide, dotted⟩
    by_cases above : period ∈ directory
    · obtain ⟨front, last, rfl, clean⟩ := Separated.exists_last_of_mem above
      rw [List.append_assoc, List.cons_append]
      refine compInfo_unknown ?_ (fun known => slashless _ known (by simp)) front
      exact List.not_mem_append clean tail
    · refine compInfo_undotted ?_
      exact List.not_mem_append above tail

theorem stemOf_directory (slashless : ∀ ext ∈ compExts, slash ∉ ext) (directory file : Bytes) :
    stemOf compExts (directory ++ slash :: file) = directory ++ slash :: stemOf compExts file := by
  rw [stemOf, stemOf, compInfo_directory slashless]
  cases compInfo compExts file <;> rfl

theorem stemOf_eq_iff (plain : ∀ ext ∈ compExts, period ∉ ext) : stemOf compExts file = stem ↔
    (file = stem ∧ compInfo compExts stem = none) ∨ ∃ ext ∈ compExts, file = stem ++ period :: ext := by
  constructor
  · intro same
    cases comp : compInfo compExts file with
    | none =>
      rw [stemOf_none comp] at same
      subst same
      exact Or.inl ⟨rfl, comp⟩
    | some found =>
      obtain ⟨front, ext⟩ := found
      obtain ⟨whole, known⟩ := compInfo_join comp
      rw [stemOf, comp] at same
      obtain rfl : front = stem := same
      exact Or.inr ⟨ext, known, whole⟩
  · rintro (⟨rfl, none⟩ | ⟨ext, known, rfl⟩)
    · exact stemOf_none none
    · exact stemOf_concat (plain ext known) known stem

/-- The stem and the extension make up the path. -/
theorem stemOf_inj (stems : stemOf compExts ultPath = stemOf compExts file)
    (exts : compExtOf compExts ultPath = compExtOf compExts file) : ultPath = file := by
  unfold stemOf compExtOf at *
  cases ult : compInfo compExts ultPath with
  | none =>
    rw [ult] at stems exts
    cases comp : compInfo compExts file with
    | none =>
      rw [comp] at stems
      exact stems
    | some found =>
      rw [comp] at exts
      cases exts
  | some found =>
    obtain ⟨stem, ext⟩ := found
    rw [ult] at stems exts
    cases comp : compInfo compExts file with
    | none =>
      rw [comp] at exts
      cases exts
    | some found' =>
      obtain ⟨stem', ext'⟩ := found'
      rw [comp] at stems exts
      obtain rfl : stem = stem' := stems
      obtain rfl : ext = ext' := Option.some.inj exts
      rw [(compInfo_join ult).1, (compInfo_join comp).1]

theorem stemOf_starts (compExts : List Bytes) (file : Bytes) : stemOf compExts file <+: file := by
  cases comp : compInfo compExts file with
  | none =>
    simp only [stemOf_none comp, List.prefix_rfl]
  | some found =>
    obtain ⟨stem, ext⟩ := found
    refine ⟨period :: ext, ?_⟩
    rw [stemOf, comp]
    exact (compInfo_join comp).1.symm

/-- The part that is compared is the stem, or what stands before ".Z/". -/
theorem scannedStem_starts (compExts : List Bytes) (gunzip : Bool) (file : Bytes) :
    scannedStem compExts gunzip file <+: stemOf compExts file := by
  unfold scannedStem compInfoOfPath
  cases comp : compInfo compExts file with
  | some found =>
    simp only [stemOf, comp, List.prefix_rfl]
  | none =>
    rw [stemOf_none comp]
    cases gunzip with
    | false => exact List.prefix_rfl
    | true =>
      simp only [if_true]
      cases directory : Separated.cutAt (ascii ".Z/") file with
      | none => exact List.prefix_rfl
      | some found => exact ⟨ascii ".Z/" ++ found.2, (Separated.cutAt_join directory).symm⟩

theorem testManfileId_eq (compExts : List Bytes) (gunzip : Bool) (file ultPath : Bytes) :
    testManfileId compExts gunzip file ultPath =
      if scannedStem compExts gunzip file <+: ultPath then ultMan else soMan := by
  have start := (scannedStem_starts compExts gunzip file).trans (stemOf_starts compExts file)
  have part : file.take (scannedStem compExts gunzip file).length = scannedStem compExts gunzip file :=
    (List.prefix_iff_eq_take.mp start).symm
  unfold testManfileId
  simp only [part]
  refine if_congr ?_ rfl rfl
  rw [List.prefix_iff_eq_take]
  exact eq_comm

/-- The kind is right exactly if the ultimate source, where it begins with the part that
is compared, is the page without its compression extension or with another one. -/
theorem kindRight_iff (tools : Decompressors) (gunzip : Bool) (file ultPath : Bytes) :
    KindRight (compList tools) gunzip file ultPath ↔
      (scannedStem (compList tools) gunzip file <+: ultPath →
        (ultPath = stemOf (compList tools) file ∧ compInfo (compList tools) (stemOf (compList tools) file) = none) ∨
          ∃ ext ∈ compList tools, ultPath = stemOf (compList tools) file ++ period :: ext) := by
  rw [← stemOf_eq_iff (compList_plain tools), KindRight, testManfileId_eq]
  have different : ultMan ≠ soMan := by decide
  have begins : stemOf (compList tools) ultPath = stemOf (compList tools) file →
      scannedStem (compList tools) gunzip file <+: ultPath := fun same =>
    (scannedStem_starts _ gunzip file).trans (same ▸ stemOf_starts _ ultPath)
  constructor
  · rintro ⟨right, _⟩ starts
    rw [if_pos starts] at right
    by_contra others
    rw [if_neg others] at right
    exact different right
  · intro condition
    have same : scannedStem (compList tools) gunzip file <+: ultPath ↔
        stemOf (compList tools) ultPath = stemOf (compList tools) file := ⟨condition, begins⟩
    refine ⟨if_congr same rfl rfl, fun exts => ?_⟩
    rw [trySectionId, if_congr same rfl rfl]
    refine if_congr ⟨fun stems => stemOf_inj stems exts, ?_⟩ rfl rfl
    rintro rfl
    rfl

/-- A page that links to one whose name goes on behind its own. -/
theorem kind_of_longer_name : ¬KindRight (compList ⟨true, false, true, true, false, true, true⟩) true
    (ascii "/usr/share/man/man1/foo.1") (ascii "/usr/share/man/man1/foo.1p") := by
  rintro ⟨right, _⟩
  exact absurd right (by decide +kernel)

end ManDb
