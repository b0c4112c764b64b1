import ManDb.Xdbm

namespace ManDb

/-- A string stored with its terminator. -/
def IsTerminated (key : Bytes) : Prop := ∃ text : Bytes, 0 ∉ text ∧ key = text ++ [0]

def KeysTerminated (db : Store) : Prop := ∀ key ∈ db.keys, IsTerminated key

variable {dbm : Unsorted} {lists : GlList} {db : Store} {p p' : Process} {name key : Bytes} {keys : List Bytes}

theorem compare_zero : ∀ {b : UInt8}, b ≠ 0 → compare 0 b = .lt ∧ compare b 0 = .gt := @(forall_byte (by decide))

/-- With their terminators two strings differ before either of them ends, so the
rule for keys of different length never decides. -/
theorem strncmp_terminated {left right : Bytes} (nulFree : 0 ∉ left) (nulFree' : 0 ∉ right) :
    (strncmp (min (left.length + 1) (right.length + 1)) (left ++ [0]) (right ++ [0])).then
      (compare (right.length + 1) (left.length + 1)) = compare left right := by
  induction left generalizing right with
  | nil =>
    cases right with
    | nil => rfl
    | cons b right =>
      have nonzero : b ≠ 0 := fun same => nulFree' (by simp [same])
      simp [strncmp, nonzero.symm, (compare_zero nonzero).1]
  | cons a left ih =>
    have nonzero : a ≠ 0 := fun same => nulFree (by simp [same])
    cases right with
    | nil => simp [strncmp, nonzero, (compare_zero nonzero).2]
    | cons b right =>
      have rest := @ih right (fun member => nulFree (List.mem_cons_of_mem _ member))
        (fun member => nulFree' (List.mem_cons_of_mem _ member))
      have lengths : compare (right.length + 1 + 1) (left.length + 1 + 1) =
          compare (right.length + 1) (left.length + 1) := by
        simp [compare, compareOfLessAndEq]
      simp only [List.cons_append, List.length_cons, List.compare_cons_cons, lengths]
      rw [Nat.add_min_add_right, strncmp]
      by_cases same : a = b
      · subst same
        rw [if_pos rfl, if_neg nonzero, rest, Std.ReflOrd.compare_self, Ordering.eq_then]
      · have order : compare a b ≠ .eq := by simpa using same
        rw [if_neg same]
        cases shape : compare a b with
        | lt => rfl
        | eq => exact absurd shape order
        | gt => rfl

/-- On strings stored with their terminators `datum_compare` is `strcmp`. -/
theorem datumCompare_terminated {left right : Bytes} (nulFree : 0 ∉ left) (nulFree' : 0 ∉ right) :
    datumCompare (some (left ++ [0])) (some (right ++ [0])) = compare left right := by
  have order := strncmp_terminated nulFree nulFree'
  simpa only [datumCompare, List.length_append, List.length_singleton] using order

theorem datumCompare_keys {left right : Bytes} (stored : IsTerminated left) (stored' : IsTerminated right) :
    datumCompare (some left) (some right) = compare left right := by
  obtain ⟨text, nulFree, rfl⟩ := stored
  obtain ⟨text', nulFree', rfl⟩ := stored'
  rw [datumCompare_terminated nulFree nulFree']
  induction text generalizing text' with
  | nil =>
    cases text' with
    | nil => rfl
    | cons b text' =>
      have nonzero : b ≠ 0 := fun same => nulFree' (by simp [same])
      simp [List.compare_cons_cons, (compare_zero nonzero).1]
  | cons a text ih =>
    have nonzero : a ≠ 0 := fun same => nulFree (by simp [same])
    cases text' with
    | nil => simp [List.compare_cons_cons, (compare_zero nonzero).2]
    | cons b text' =>
      simp only [List.cons_append, List.compare_cons_cons]
      rw [ih (fun member => nulFree (List.mem_cons_of_mem _ member)) text'
        (fun member => nulFree' (List.mem_cons_of_mem _ member))]

theorem datumCompare_consistent {xs : List Datum} (stored : ∀ x ∈ xs, ∃ key, IsTerminated key ∧ x = some key) :
    SortedList.Consistent datumCompare xs where
  swap a inA b inB := by
    obtain ⟨left, isLeft, rfl⟩ := stored a inA
    obtain ⟨right, isRight, rfl⟩ := stored b inB
    rw [datumCompare_keys isLeft isRight, datumCompare_keys isRight isLeft]
    exact Std.OrientedOrd.eq_swap
  trans a inA b inB c inC ab bc := by
    obtain ⟨left, isLeft, rfl⟩ := stored a inA
    obtain ⟨middle, isMiddle, rfl⟩ := stored b inB
    obtain ⟨right, isRight, rfl⟩ := stored c inC
    rw [datumCompare_keys isLeft isMiddle] at ab
    rw [datumCompare_keys isMiddle isRight] at bc
    rw [datumCompare_keys isLeft isRight]
    exact Std.TransOrd.isLE_trans ab bc

theorem sorted_keys (stored : ∀ key ∈ keys, IsTerminated key)
    (strict : keys.Pairwise (fun a b => compare a b = .lt)) : SortedList.Sorted datumCompare (keys.map some) := by
  refine List.pairwise_map.mpr (strict.imp_of_mem ?_)
  intro a b inA inB less
  rw [datumCompare_keys (stored a inA) (stored b inB), less]
  rfl

theorem KeysTerminated.texts (stored : KeysTerminated db) :
    ∃ texts : List Bytes, db.keys = texts.map (· ++ [0]) ∧ ∀ text ∈ texts, 0 ∉ text := by
  unfold KeysTerminated at stored
  generalize db.keys = keys at stored
  induction keys with
  | nil => exact ⟨[], rfl, by simp⟩
  | cons key keys ih =>
    obtain ⟨text, nulFree, rfl⟩ := stored key (List.mem_cons_self ..)
    obtain ⟨texts, rfl, clean⟩ := ih fun other member => stored other (List.mem_cons_of_mem _ member)
    refine ⟨text :: texts, rfl, fun other member => ?_⟩
    rcases List.mem_cons.mp member with rfl | later
    · exact nulFree
    · exact clean other later

/-- The loop gathers what the library has left, in the order of `datum_compare`
where that is an order. -/
theorem collectKeys_rest (documented : lists.Documented)
    (next : ∀ (i : Nat) (key : Bytes), keys[i]? = some key → dbm.nextkey db key = keys[i + 1]?) {rest : List Bytes} :
    ∀ {i : Nat} (before : List Datum), keys.drop i = rest →
      ∃ sorted, collectKeys dbm lists db (rest.length + 1) keys[i]? before = some sorted ∧
        sorted.Perm (before ++ rest.map some) ∧
        (SortedList.Consistent datumCompare (before ++ rest.map some) → SortedList.Sorted datumCompare before →
          SortedList.Sorted datumCompare sorted) := by
  induction rest with
  | nil =>
    intro i before atEnd
    have past : keys[i]? = none := by rw [← List.head?_drop, atEnd]; rfl
    exact ⟨before, by rw [past]; rfl, by simp, fun _ sorted => sorted⟩
  | cons key rest ih =>
    intro i before here
    have atKey : keys[i]? = some key := by rw [← List.head?_drop, here]; rfl
    have later : keys.drop (i + 1) = rest := by rw [← List.tail_drop, here]; rfl
    have perm := documented.add_perm datumCompare before (some key)
    have shuffle : (lists.add datumCompare before (some key) ++ rest.map some).Perm
        (before ++ (key :: rest).map some) :=
          (perm.append_right _).trans (@List.perm_middle _ (some key) before _).symm
    obtain ⟨sorted, run, gathered, order⟩ := ih (lists.add datumCompare before (some key)) later
    refine ⟨sorted, ?_, gathered.trans shuffle, fun consistent isSorted => order ?_ ?_⟩
    · rw [atKey, List.length_cons, collectKeys, next i key atKey, run]
    · exact consistent.perm shuffle.symm
    · refine documented.add_sorted datumCompare before (some key) (consistent.subset ?_) isSorted
      intro x member
      rcases List.mem_cons.mp member with rfl | old
      · simp
      · exact List.mem_append_left _ old

theorem manXdbmFirstkey_returns (enumerates : dbm.Enumerates) (documented : lists.Documented) (p : Process)
    (name : Bytes) : ∃ sorted : List Datum, sorted.Perm ((p.file name).keys.map some) ∧
      (KeysTerminated (p.file name) → SortedList.Sorted datumCompare sorted) ∧
      manXdbmFirstkey dbm lists p name =
        some (sorted[0]?.join, { p with parentKeys := Function.update p.parentKeys name (some sorted) }) := by
  obtain ⟨keys, perm, first, next⟩ := enumerates (p.file name)
  obtain ⟨sorted, run, gathered, order⟩ := collectKeys_rest documented next [] List.drop_zero
  have all : sorted.Perm ((p.file name).keys.map some) := gathered.trans (perm.map some)
  refine ⟨sorted, all, fun stored => ?_, ?_⟩
  · refine order (datumCompare_consistent fun x member => ?_) .nil
    obtain ⟨key, inKeys, rfl⟩ := List.mem_map.mp (by simpa using member)
    exact ⟨key, stored key (perm.mem_iff.mp inKeys), rfl⟩
  · rw [perm.length_eq] at run
    simp only [manXdbmFirstkey, first, run]
    rfl

theorem getElem?_map_some_join (xs : List Bytes) (i : Nat) : (xs.map some)[i]?.join = xs[i]? := by
  rw [List.getElem?_map]
  cases xs[i]? <;> rfl

/-- The list that is remembered is that of the keys in `strcmp` order. -/
theorem manXdbmFirstkey_keys (enumerates : dbm.Enumerates) (documented : lists.Documented)
    (stored : KeysTerminated (p.file name)) :
    manXdbmFirstkey dbm lists p name = some ((p.file name).keys[0]?,
      { p with parentKeys := Function.update p.parentKeys name (some ((p.file name).keys.map some)) }) := by
  obtain ⟨sorted, perm, order, run⟩ := manXdbmFirstkey_returns enumerates documented p name
  have same : sorted = (p.file name).keys.map some := by
    refine perm.eq_of_pairwise ?_ (order stored) (sorted_keys stored Std.ExtTreeMap.ordered_keys)
    intro a b inA inB ab ba
    obtain ⟨left, isLeft, rfl⟩ := List.mem_map.mp (perm.mem_iff.mp inA)
    obtain ⟨right, isRight, rfl⟩ := List.mem_map.mp inB
    rw [datumCompare_keys (stored left isLeft) (stored right isRight)] at ab
    rw [datumCompare_keys (stored right isRight) (stored left isLeft)] at ba
    exact congrArg some (Std.LawfulEqOrd.eq_of_compare (Std.OrientedCmp.isLE_antisymm ab ba))
  rw [run, same, getElem?_map_some_join]

/-- The key after a key of the list is found, wherever the search comes to it. -/
theorem manXdbmNextkey_keys (documented : lists.Documented) (stored : ∀ key ∈ keys, IsTerminated key)
    (strict : keys.Pairwise (fun a b => compare a b = .lt)) (remembered : p.parentKeys name = some (keys.map some))
    {i : Nat} (atKey : keys[i]? = some key) : manXdbmNextkey lists p name (some key) = keys[i + 1]? := by
  have member : key ∈ keys := List.mem_of_getElem? atKey
  have consistent : SortedList.Consistent datumCompare (some key :: keys.map some) := by
    refine datumCompare_consistent fun x inList => ?_
    obtain ⟨other, inKeys, rfl⟩ : ∃ other ∈ keys, some other = x := by
      rcases List.mem_cons.mp inList with rfl | later
      · exact ⟨key, member, rfl⟩
      · exact List.mem_map.mp later
    exact ⟨other, stored other inKeys, rfl⟩
  have self : datumCompare (some key) (some key) = .eq := by
    rw [datumCompare_keys (stored key member) (stored key member), Std.ReflOrd.compare_self]
  obtain ⟨j, found, run, atFound, same⟩ :=
    documented.search_some datumCompare _ _ consistent (sorted_keys stored strict)
    ⟨some key, List.mem_map_of_mem member, self⟩
  have atJ : keys[j]? = some key := by
    rw [List.getElem?_map] at atFound
    obtain ⟨other, atOther, rfl⟩ := Option.map_eq_some_iff.mp atFound
    rw [datumCompare_keys (stored other (List.mem_of_getElem? atOther)) (stored key member)] at same
    rw [atOther, Std.LawfulEqOrd.eq_of_compare same]
  have nodup : keys.Nodup := strict.imp fun less equal => by
    rw [equal, Std.ReflOrd.compare_self] at less
    cases less
  have position : j = i := by
    obtain ⟨inside, _⟩ := List.getElem?_eq_some_iff.mp atJ
    exact (List.getElem?_inj inside nodup).mp (atJ.trans atKey.symm)
  simp only [manXdbmNextkey, remembered, run]
  rw [position, getElem?_map_some_join]

/-- Other operations leave the remembered list of a database alone. -/
theorem XdbmOp.run_remembers (enumerates : dbm.Enumerates) (documented : lists.Documented) {op : XdbmOp}
    (other : op ≠ .firstkey name) (p : Process) :
    ∃ p', op.run dbm lists p = some p' ∧ p'.parentKeys name = p.parentKeys name := by
  cases op with
  | insert file key content => exact ⟨_, rfl, rfl⟩
  | replace file key content => exact ⟨_, rfl, rfl⟩
  | delete file key => exact ⟨_, rfl, rfl⟩
  | firstkey file =>
    have different : name ≠ file := by
      rintro rfl
      exact other rfl
    obtain ⟨sorted, _, _, run⟩ := manXdbmFirstkey_returns enumerates documented p file
    refine ⟨_, by rw [XdbmOp.run, run]; rfl, ?_⟩
    exact Function.update_of_ne different _ _

theorem XdbmOp.runs_remember (enumerates : dbm.Enumerates) (documented : lists.Documented) {ops : List XdbmOp}
    (others : ∀ op ∈ ops, op ≠ .firstkey name) (p : Process) :
    ∃ p', ops.foldlM (XdbmOp.run dbm lists) p = some p' ∧ p'.parentKeys name = p.parentKeys name := by
  induction ops generalizing p with
  | nil => exact ⟨p, rfl, rfl⟩
  | cons op ops ih =>
    obtain ⟨next, first, kept⟩ := XdbmOp.run_remembers enumerates documented (others op (List.mem_cons_self ..)) p
    obtain ⟨last, rest, still⟩ := ih (fun op member => others op (List.mem_cons_of_mem _ member)) next
    refine ⟨last, ?_, still.trans kept⟩
    rw [List.foldlM_cons, first]
    exact rest

/-- The walk, key by key. -/
theorem nthKey_keys (enumerates : dbm.Enumerates) (documented : lists.Documented)
    (stored : KeysTerminated (p.file name))
    {between : Nat → List XdbmOp} (others : ∀ n, ∀ op ∈ between n, op ≠ .firstkey name) {n : Nat}
    (inside : n ≤ (p.file name).keys.length) :
    ∃ p', nthKey dbm lists p name between n = some ((p.file name).keys[n]?, p') ∧
      p'.parentKeys name = some ((p.file name).keys.map some) := by
  induction n with
  | zero => exact ⟨_, manXdbmFirstkey_keys enumerates documented stored, Function.update_self ..⟩
  | succ n ih =>
    obtain ⟨before, run, remembered⟩ := ih (Nat.le_of_succ_le inside)
    obtain ⟨after, ops, kept⟩ := XdbmOp.runs_remember enumerates documented (others n) before
    have atKey := List.getElem?_eq_getElem (Nat.lt_of_succ_le inside)
    refine ⟨after, ?_, kept.trans remembered⟩
    simp only [nthKey, run, ops, atKey, Option.bind_eq_bind, Option.bind_some, Option.pure_def]
    rw [manXdbmNextkey_keys documented stored Std.ExtTreeMap.ordered_keys (kept.trans remembered) atKey]

/-- The copy holds the keys that were visited, with their contents. -/
structure Copied (db : Store) (dbname tmp : Bytes) (visited : Nat) (p : Process) : Prop where
  original : p.file dbname = db
  remembered : p.parentKeys dbname = some (db.keys.map some)
  copy : ∀ key, (p.file tmp).fetch key = if key ∈ db.keys.take visited then db.fetch key else none

theorem copyLoop_copies (documented : lists.Documented) (stored : KeysTerminated db) {dbname tmp : Bytes}
    (different : tmp ≠ dbname) {left : Nat} :
    ∀ {visited : Nat} {p : Process}, visited + left = db.keys.length → Copied db dbname tmp visited p →
      ∃ p', copyLoop lists dbname tmp (left + 1) p db.keys[visited]? = some p' ∧
        Copied db dbname tmp db.keys.length p' := by
  induction left with
  | zero =>
    intro visited p count copied
    have atEnd : visited = db.keys.length := count
    have past : db.keys[visited]? = none := List.getElem?_eq_none_iff.mpr (Nat.le_of_eq atEnd.symm)
    exact ⟨p, by rw [past]; rfl, atEnd ▸ copied⟩
  | succ left ih =>
    intro visited p count copied
    have inside : visited < db.keys.length := by omega
    have atKey := List.getElem?_eq_getElem inside
    obtain ⟨content, present⟩ := Store.mem_keys_iff.mp (List.getElem_mem inside)
    have fresh : db.keys[visited] ∉ db.keys.take visited := by
      intro member
      obtain ⟨i, bound, same⟩ := List.mem_take_iff_getElem.mp member
      have equal := (Std.ExtTreeMap.nodup_keys (t := db)).getElem_inj_iff.mp same
      omega
    have room : (p.file tmp).fetch db.keys[visited] = none := by
      rw [copied.copy, if_neg fresh]
    have next : Copied db dbname tmp (visited + 1)
        (p.setFile tmp ((p.file tmp).replace db.keys[visited] content)) := by
      refine ⟨?_, copied.remembered, fun key => ?_⟩
      · rw [p.setFile_of_ne different.symm, copied.original]
      · have oneMore : key ∈ db.keys.take (visited + 1) ↔ key ∈ db.keys.take visited ∨ key = db.keys[visited] := by
          rw [List.take_add_one, atKey]
          simp only [Option.toList_some, List.mem_append, List.mem_singleton]
        rw [Process.setFile_self]
        by_cases same : key = db.keys[visited]
        · rw [if_pos (oneMore.mpr (Or.inr same)), same, Store.fetch_replace_self, present]
        · rw [Store.fetch_replace_of_ne same, copied.copy]
          simp only [oneMore, same, or_false]
    obtain ⟨p', run, whole⟩ := ih (by omega) next
    refine ⟨p', ?_, whole⟩
    rw [atKey, copyLoop]
    simp only [copied.original, present, Store.insertNew_absent room, Option.bind_eq_bind, Option.bind_some]
    rw [manXdbmNextkey_keys documented stored Std.ExtTreeMap.ordered_keys next.remembered atKey, run]

theorem tmpdbname_ne (dbExt catpath : Bytes) (pid : Int) : tmpdbname catpath pid ≠ mkdbname dbExt catpath := by
  intro same
  simp only [tmpdbname, mkdbname, List.append_assoc, List.append_cancel_left_eq] at same
  have start : (printLong pid).head? = some 105 := by
    cases shape : printLong pid with
    | nil => simp [shape, ascii] at same
    | cons b rest => simp_all [ascii]
  rcases printLong_bytes (List.mem_of_head? start) with sign | digit
  · exact absurd sign (by decide)
  · exact absurd digit (by decide)

theorem reorganize_copies (enumerates : dbm.Enumerates) (documented : lists.Documented) {dbExt catpath : Bytes}
    (stored : KeysTerminated (p.file (mkdbname dbExt catpath)))
    (version : fileVersionRd (p.file (mkdbname dbExt catpath)) = false)
    (pid : Int) :
    ∃ p', reorganize dbm lists dbExt p catpath pid = some p' ∧
      p'.file (mkdbname dbExt catpath) = p.file (mkdbname dbExt catpath) := by
  have different := tmpdbname_ne dbExt catpath pid
  have kept := p.setFile_of_ne different.symm ∅
  have first := manXdbmFirstkey_keys (p := p.setFile (tmpdbname catpath pid) ∅) enumerates documented (kept ▸ stored)
  rw [kept] at first
  have start : Copied (p.file (mkdbname dbExt catpath)) (mkdbname dbExt catpath) (tmpdbname catpath pid) 0
      { p.setFile (tmpdbname catpath pid) ∅ with
        parentKeys := Function.update p.parentKeys (mkdbname dbExt catpath)
          (some ((p.file (mkdbname dbExt catpath)).keys.map some)) } :=
    ⟨kept, Function.update_self .., fun key => by simp⟩
  obtain ⟨after, run, copied⟩ := copyLoop_copies documented stored different (Nat.zero_add _) start
  have copy : after.file (tmpdbname catpath pid) = p.file (mkdbname dbExt catpath) := by
    refine Store.ext_fetch fun key => ?_
    rw [copied.copy, List.take_length]
    by_cases member : key ∈ (p.file (mkdbname dbExt catpath)).keys
    · rw [if_pos member]
    · rw [if_neg member]
      by_contra present
      obtain ⟨content, atKey⟩ := Option.ne_none_iff_exists'.mp (Ne.symm present)
      exact member (Store.mem_keys_iff.mpr ⟨content, atKey⟩)
  simp only [reorganize, version, Bool.false_eq_true, if_false, first, Option.bind_eq_bind, Option.bind_some,
    Process.setFile_parentKeys, kept, run]
  refine ⟨_, rfl, ?_⟩
  exact (Process.setFile_of_ne _ different.symm ∅).trans ((Process.setFile_self ..).trans copy)

/-- Whatever is stored or deleted on the way, the walk gives every key the database
had at its start once, in `strcmp` order, and then ends; so a database that is
reorganized keeps its contents. -/
theorem iteration_ordered (enumerates : dbm.Enumerates) (documented : lists.Documented) (p : Process) (name : Bytes)
    (stored : KeysTerminated (p.file name)) :
    (∀ left right : Bytes, 0 ∉ left → 0 ∉ right →
      datumCompare (some (left ++ [0])) (some (right ++ [0])) = compare left right) ∧
    (∃ texts : List Bytes, texts.Pairwise (fun a b => compare a b = .lt) ∧
      (∀ key, (p.file name).fetch key ≠ none ↔ key ∈ texts.map (· ++ [0])) ∧
      ∀ between : Nat → List XdbmOp, (∀ n, ∀ op ∈ between n, op ≠ .firstkey name) → ∀ n ≤ texts.length,
        ∃ p', nthKey dbm lists p name between n = some (texts[n]?.map (· ++ [0]), p')) ∧
    ∀ dbExt catpath pid, name = mkdbname dbExt catpath → fileVersionRd (p.file name) = false →
      ∃ p', reorganize dbm lists dbExt p catpath pid = some p' ∧ p'.file name = p.file name := by
  refine ⟨fun left right => datumCompare_terminated, ?_, ?_⟩
  · obtain ⟨texts, keys, nulFree⟩ := stored.texts
    refine ⟨texts, ?_, fun key => ?_, fun between others n inside => ?_⟩
    · have strict := Std.ExtTreeMap.ordered_keys (t := p.file name)
      rw [keys, List.pairwise_map] at strict
      refine strict.imp_of_mem fun inA inB less => ?_
      rw [← datumCompare_terminated (nulFree _ inA) (nulFree _ inB), datumCompare_keys ⟨_, nulFree _ inA, rfl⟩
        ⟨_, nulFree _ inB, rfl⟩, less]
    · rw [← keys, Store.mem_keys_iff, Option.ne_none_iff_exists']
    · obtain ⟨p', run, _⟩ := nthKey_keys enumerates documented stored others (n := n) (by simpa [keys] using inside)
      rw [keys, List.getElem?_map] at run
      exact ⟨p', run⟩
  · rintro dbExt catpath pid rfl version
    exact reorganize_copies enumerates documented stored version pid

/-- A dbm library that happens to keep its keys in order. -/
def orderedDbm : Unsorted where
  firstkey db := db.keys[0]?
  nextkey db key := db.keys[db.keys.idxOf key + 1]?

theorem orderedDbm_enumerates : orderedDbm.Enumerates := by
  intro db
  refine ⟨db.keys, .refl _, rfl, fun i key atKey => ?_⟩
  obtain ⟨inside, rfl⟩ := List.getElem?_eq_some_iff.mp atKey
  simp only [orderedDbm]
  rw [Std.ExtTreeMap.nodup_keys.idxOf_getElem i inside]

/-- Sorted lists that are searched from their start. -/
def plainLists : GlList where
  add cmp xs x := SortedList.add cmp x xs
  search cmp xs x := xs.findIdx? (fun y => cmp y x == .eq)

theorem plainLists_documented : plainLists.Documented where
  add_perm cmp xs x := SortedList.add_perm x xs
  add_sorted cmp xs x consistent sorted := consistent.add_sorted sorted
  search_some := by
    rintro cmp xs x - - ⟨y, member, same⟩
    obtain ⟨i, found⟩ : ∃ i, xs.findIdx? (fun y => cmp y x == .eq) = some i := by
      rw [← Option.isSome_iff_exists, List.findIdx?_isSome, List.any_eq_true]
      exact ⟨y, member, by simp [same]⟩
    obtain ⟨inside, here, _⟩ := List.findIdx?_eq_some_iff_getElem.mp found
    exact ⟨i, xs[i], found, List.getElem?_eq_getElem inside, by simpa using here⟩

/-- An index with two pages and its version. -/
def walkedStore : Store :=
  Store.replace (Store.replace (Store.replace ∅ (ascii "foo" ++ [0]) (ascii "x")) (Store.verKey ++ [0])
    (Store.verId ++ [0]))
    (ascii "Foo" ++ [0]) (ascii "y")

theorem walkedStore_terminated : KeysTerminated walkedStore := by
  have keys : walkedStore.keys = [Store.verKey ++ [0], ascii "Foo" ++ [0], ascii "foo" ++ [0]] := by decide +kernel
  intro key member
  rw [keys] at member
  simp only [List.mem_cons, List.not_mem_nil, or_false] at member
  rcases member with rfl | rfl | rfl
  · exact ⟨_, by decide, rfl⟩
  · exact ⟨_, by decide, rfl⟩
  · exact ⟨_, by decide, rfl⟩

theorem iteration_ordered_two_pages :
    KeysTerminated walkedStore ∧ ∃ p', reorganize orderedDbm plainLists (ascii ".db")
      ⟨fun _ => walkedStore, fun _ => none⟩ (ascii "/var/cache/man") 7 = some p' ∧
        p'.file (mkdbname (ascii ".db") (ascii "/var/cache/man")) = walkedStore :=
  ⟨walkedStore_terminated, (iteration_ordered orderedDbm_enumerates plainLists_documented
    ⟨fun _ => walkedStore, fun _ => none⟩ _ walkedStore_terminated).2.2 _ _ 7 rfl (by decide +kernel)⟩

end ManDb
