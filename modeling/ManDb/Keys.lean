import ManDb.Text
import ManDb.Lib.SortedList

namespace ManDb

/-- `struct name_ext`. -/
structure NameExt where
  name : Bytes
  ext : Bytes
  deriving DecidableEq, Repr

/-- Get the key that should be used for a given name. -/
def nameToKey (loc : Locale) (name : Bytes) : Bytes := loc.lower name

/-- Form a multi-style key from page and extension info. -/
def makeMultiKey (page ext : Bytes) : Bytes := page ++ tab :: ext

def nameExtCompare (ref1 ref2 : NameExt) : Ordering :=
  (compare ref1.name ref2.name).then (compare ref1.ext ref2.ext)

/-- Extract all of the names/extensions associated with a key from its content
after the leading tab: the two `strsep` calls of each turn take two fields. -/
def listExtensions (data : Bytes) : List NameExt :=
  SortedList.addAll nameExtCompare
    ((Separated.pairUp (data.splitOn tab)).map (fun p => ⟨p.1, p.2⟩))

/-- The complement of `listExtensions`. -/
def makeExtensionsReference (refs : List NameExt) : Bytes :=
  refs.flatMap (fun ref => tab :: ref.name ++ tab :: ref.ext)

/-- The test `*MYDBM_DPTR (cont) == '\t'`. -/
def isIndex (content : Bytes) : Bool := content.head? == some tab

/-- A name a page can be stored under without leaving the keys of pages. -/
def PageName (name : Bytes) : Prop := name ≠ [] ∧ tab ∉ name ∧ name.head? ≠ some dollar

instance (name : Bytes) : Decidable (PageName name) := inferInstanceAs (Decidable (_ ∧ _ ∧ _))

def NameExt.Clean (ref : NameExt) : Prop := PageName ref.name ∧ tab ∉ ref.ext

instance : Std.TransCmp nameExtCompare :=
  inferInstanceAs (Std.TransCmp (compareLex (compareOn NameExt.name) (compareOn NameExt.ext)))

instance : Std.LawfulEqCmp nameExtCompare where
  eq_of_compare {a b} same := by
    simp only [nameExtCompare, Ordering.then_eq_eq, Std.compare_eq_iff_eq] at same
    cases a
    cases b
    simp_all

@[simp] theorem pageName_nameToKey {loc : Locale} {name : Bytes} :
    PageName (nameToKey loc name) ↔ PageName name := by
  simp [PageName, nameToKey]

theorem makeMultiKey_inj {page page' ext ext' : Bytes} (clean : tab ∉ page) (clean' : tab ∉ page')
    (same : makeMultiKey page ext = makeMultiKey page' ext') : page = page' ∧ ext = ext' := by
  have cuts := congrArg (Separated.cut tab) same
  simp only [makeMultiKey, Separated.cut_append_cons clean, Separated.cut_append_cons clean',
    Prod.mk.injEq, Option.some.injEq] at cuts
  exact cuts

@[simp] theorem tab_mem_makeMultiKey {page ext : Bytes} : tab ∈ makeMultiKey page ext := by
  simp [makeMultiKey]

theorem PageName.ne_multi {name : Bytes} (page : PageName name) (n e : Bytes) :
    name ≠ makeMultiKey n e := by
  rintro rfl
  exact page.2.1 tab_mem_makeMultiKey

theorem head_makeMultiKey {page : Bytes} (name : PageName page) (ext : Bytes) :
    (makeMultiKey page ext).head? ≠ some dollar := by
  obtain ⟨nonempty, _, plain⟩ := name
  cases page with
  | nil => exact absurd rfl nonempty
  | cons b page => exact plain

theorem makeExtensionsReference_cons (ref : NameExt) (refs : List NameExt) :
    makeExtensionsReference (ref :: refs) =
      tab :: (ref.name ++ tab :: ref.ext ++ makeExtensionsReference refs) := by
  simp [makeExtensionsReference]

theorem isIndex_makeExtensionsReference {refs : List NameExt} (nonempty : refs ≠ []) :
    isIndex (makeExtensionsReference refs) = true := by
  cases refs with
  | nil => exact absurd rfl nonempty
  | cons ref refs => simp [isIndex, makeExtensionsReference_cons]

theorem makeExtensionsReference_joinPairs (refs : List NameExt) :
    makeExtensionsReference refs = Separated.joinPairs tab (refs.map (fun r => (r.name, r.ext))) := by
  simp [makeExtensionsReference, Separated.joinPairs, List.flatMap_map]

/-- A pair the format of an index can hold. -/
def NameExt.TabFree (ref : NameExt) : Prop := tab ∉ ref.name ∧ tab ∉ ref.ext

instance (ref : NameExt) : Decidable ref.TabFree := inferInstanceAs (Decidable (_ ∧ _))

theorem NameExt.Clean.tabFree {ref : NameExt} (clean : ref.Clean) : ref.TabFree := ⟨clean.1.2.1, clean.2⟩

/-- What the readers see of an index: its references, put in order. -/
theorem listExtensions_reference {refs : List NameExt} (tabFree : ∀ ref ∈ refs, ref.TabFree) :
    listExtensions (makeExtensionsReference refs).tail = SortedList.addAll nameExtCompare refs := by
  cases refs with
  | nil => rfl
  | cons first rest =>
    have fieldsFree : ∀ p ∈ (first.name, first.ext) :: rest.map (fun r => (r.name, r.ext)),
        tab ∉ p.1 ∧ tab ∉ p.2 := by
      intro p member
      obtain ⟨ref, atRef, rfl⟩ : ∃ ref ∈ first :: rest, (ref.name, ref.ext) = p := by
        simpa [eq_comm] using member
      exact tabFree ref atRef
    have fields := Separated.pairUp_splitOn_joinPairs fieldsFree
    rw [← makeExtensionsReference_joinPairs] at fields
    unfold listExtensions
    rw [makeExtensionsReference_cons, List.tail_cons, fields]
    simp [Function.comp_def]

theorem listExtensions_sorted {refs : List NameExt} (clean : ∀ ref ∈ refs, ref.Clean)
    (strict : SortedList.Strict nameExtCompare refs) :
    listExtensions (makeExtensionsReference refs).tail = refs := by
  rw [listExtensions_reference fun ref member => (clean ref member).tabFree, SortedList.addAll_strict strict]

end ManDb
