import ManDb.CatPages

namespace ManDb

/-- The path is that of the hierarchy, or goes on behind it with a slash. -/
def IsBelow (key path : Bytes) : Prop := path = key ∨ key ++ [slash] <+: path

/-- The path begins with the text of the key, which ends inside a name there. -/
def EndsInName (key path : Bytes) : Prop := ∃ b rest, path = key ++ b :: rest ∧ b ≠ slash

/-- The item whose cat directory `get_catpath` gives. -/
def catItem (config : List ConfigItem) (cattype : Nat) (name : Bytes) : Option ConfigItem :=
  config.find? fun item => wanted cattype item && item.key.isPrefixOf name

theorem getCatpath_eq (config : List ConfigItem) (cattype : Nat) (name : Bytes) :
    getCatpath config cattype name = (catItem config cattype name).map (catPathOf · name) := rfl

/-- A path has a catpath only below a key of the requested type, and the cat directory is
that of a key it is below. It counts as system-wide only below a key of the system. -/
structure InsideOnly (config : List ConfigItem) (cattype : Nat) (path : Bytes) : Prop where
  catpath : (getCatpath config cattype path).isSome →
    ∃ item ∈ config, wanted cattype item = true ∧ IsBelow item.key path
  directory : ∀ item, catItem config cattype path = some item → IsBelow item.key path
  systemWide : isGlobalMandir config path = true → ∃ item ∈ config, item.flag = .mandbMap ∧ IsBelow item.key path

/-- The first key of the requested type whose text the path begins with does not end
inside a name. -/
def FirstKeyWhole (config : List ConfigItem) (cattype : Nat) (path : Bytes) : Prop :=
  ∀ before item after, config = before ++ item :: after → wanted cattype item = true →
    (∀ earlier ∈ before, wanted cattype earlier = true → ¬earlier.key <+: path) → ¬EndsInName item.key path

/-- If the path begins with the text of a key of the system, there is such a key that does
not end inside a name. -/
def SystemKeyWhole (config : List ConfigItem) (path : Bytes) : Prop :=
  ∀ item ∈ config, item.flag = .mandbMap → EndsInName item.key path →
    ∃ other ∈ config, other.flag = .mandbMap ∧ other.key <+: path ∧ ¬EndsInName other.key path

variable {config : List ConfigItem} {cattype : Nat} {path key : Bytes} {item : ConfigItem}

theorem IsBelow.starts (below : IsBelow key path) : key <+: path := by
  rcases below with rfl | deeper
  · exact List.prefix_rfl
  · exact (List.prefix_append key [slash]).trans deeper

theorem IsBelow.whole (below : IsBelow key path) : ¬EndsInName key path := by
  rintro ⟨b, rest, rfl, other⟩
  rcases below with same | ⟨deeper, whole⟩
  · exact List.cons_ne_nil b rest (List.append_right_eq_self.mp same)
  · rw [List.append_assoc, List.append_cancel_left_eq] at whole
    exact other (List.cons.inj whole).1.symm

/-- A path that begins with the text of a key is below it, or the key ends in a name. -/
theorem isBelow_iff (starts : key <+: path) : IsBelow key path ↔ ¬EndsInName key path := by
  refine ⟨IsBelow.whole, fun whole => ?_⟩
  obtain ⟨rest, rfl⟩ := starts
  cases rest with
  | nil => exact Or.inl (List.append_nil key)
  | cons b rest =>
    have separator : b = slash := by
      by_contra other
      exact whole ⟨b, rest, rfl, other⟩
    subst separator
    exact Or.inr ⟨rest, by simp⟩

/-- The item that is taken is the first one of the type whose text the path begins with. -/
theorem catItem_eq_some_iff : catItem config cattype path = some item ↔
    (wanted cattype item = true ∧ item.key <+: path) ∧ ∃ before after, config = before ++ item :: after ∧
      ∀ earlier ∈ before, wanted cattype earlier = true → ¬earlier.key <+: path := by
  simp only [catItem, List.find?_eq_some_iff_append, Bool.and_eq_true, List.isPrefixOf_iff_prefix,
    Bool.not_eq_true', ← Bool.not_eq_true, not_and]

theorem isGlobalMandir_iff : isGlobalMandir config path = true ↔
    ∃ item ∈ config, item.flag = .mandbMap ∧ item.key <+: path := by
  simp [isGlobalMandir]

theorem directory_iff :
    (∀ item, catItem config cattype path = some item → IsBelow item.key path) ↔
      FirstKeyWhole config cattype path := by
  constructor
  · intro inside before item after whole kind first ends
    have starts : item.key <+: path := by
      obtain ⟨b, rest, rfl, _⟩ := ends
      exact List.prefix_append _ _
    have taken := catItem_eq_some_iff.mpr ⟨⟨kind, starts⟩, before, after, whole, first⟩
    exact (inside item taken).whole ends
  · intro condition item taken
    obtain ⟨⟨kind, starts⟩, before, after, whole, first⟩ := catItem_eq_some_iff.mp taken
    exact (isBelow_iff starts).mpr (condition before item after whole kind first)

theorem systemWide_iff :
    (isGlobalMandir config path = true → ∃ item ∈ config, item.flag = .mandbMap ∧ IsBelow item.key path) ↔
      SystemKeyWhole config path := by
  rw [isGlobalMandir_iff]
  constructor
  · intro inside item member kind ends
    have starts : item.key <+: path := by
      obtain ⟨b, rest, rfl, _⟩ := ends
      exact List.prefix_append _ _
    obtain ⟨other, among, kind', below⟩ := inside ⟨item, member, kind, starts⟩
    exact ⟨other, among, kind', below.starts, below.whole⟩
  · rintro condition ⟨item, member, kind, starts⟩
    by_cases ends : EndsInName item.key path
    · obtain ⟨other, among, kind', starts', whole⟩ := condition item member kind ends
      exact ⟨other, among, kind', (isBelow_iff starts').mpr whole⟩
    · exact ⟨item, member, kind, (isBelow_iff starts).mpr ends⟩

/-- Only paths inside a hierarchy count as such, exactly if the keys that decide do not
end inside a name of the path. -/
theorem insideOnly_iff (config : List ConfigItem) (cattype : Nat) (path : Bytes) :
    InsideOnly config cattype path ↔ FirstKeyWhole config cattype path ∧ SystemKeyWhole config path := by
  constructor
  · intro inside
    exact ⟨directory_iff.mp inside.directory, systemWide_iff.mp inside.systemWide⟩
  · rintro ⟨first, system⟩
    have directory := directory_iff.mpr first
    refine ⟨fun given => ?_, directory, systemWide_iff.mpr system⟩
    rw [getCatpath_eq, Option.isSome_map, Option.isSome_iff_exists] at given
    obtain ⟨item, taken⟩ := given
    obtain ⟨⟨kind, _⟩, before, after, whole, _⟩ := catItem_eq_some_iff.mp taken
    exact ⟨item, by rw [whole]; simp, kind, directory item taken⟩

/-- A directory beside that of the system. -/
theorem sibling_not_insideOnly :
    getCatpath [mandbItem] systemCat (ascii "/usr/share/man-local/man1/foo.1") =
        some (ascii "/var/cache/man-local/cat1/foo.1") ∧
      ¬InsideOnly [mandbItem] systemCat (ascii "/usr/share/man-local/man1/foo.1") := by
  refine ⟨by decide +kernel, fun inside => ?_⟩
  obtain ⟨item, member, _, below⟩ := inside.systemWide (by decide +kernel)
  rw [List.mem_singleton] at member
  subst member
  exact below.whole ⟨dash, ascii "local/man1/foo.1", by decide +kernel, by decide⟩

end ManDb
