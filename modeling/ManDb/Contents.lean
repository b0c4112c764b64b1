import ManDb.DbDelete

namespace ManDb

/-- The text `dbdelete` puts together for what is left of an index: the pairs are
appended one by one to an empty string. -/
def multiContent (refs : List NameExt) : Bytes :=
  refs.foldl (fun content ref => content ++ tab :: ref.name ++ tab :: ref.ext) []

/-- Both writers of an index write the same text. -/
theorem multiContent_eq (refs : List NameExt) : multiContent refs = makeExtensionsReference refs := by
  have general : ∀ content : Bytes,
      refs.foldl (fun content ref => content ++ tab :: ref.name ++ tab :: ref.ext) content =
        content ++ makeExtensionsReference refs := by
    induction refs with
    | nil => intro content; simp [makeExtensionsReference]
    | cons ref refs ih =>
      intro content
      rw [List.foldl_cons, ih, makeExtensionsReference_cons]
      simp
  simpa only [multiContent, List.nil_append] using general []

/-- The pairs of a list in the order of the readers. -/
structure InOrder (sorted refs : List NameExt) : Prop where
  perm : sorted.Perm refs
  order : SortedList.Sorted nameExtCompare sorted

theorem inOrder_addAll (refs : List NameExt) : InOrder (SortedList.addAll nameExtCompare refs) refs where
  perm := SortedList.addAll_perm nameExtCompare refs
  order := SortedList.addAll_sorted refs

/-- Sorting is settled by what is sorted. -/
theorem InOrder.unique {first second refs : List NameExt} (left : InOrder first refs) (right : InOrder second refs) :
    first = second := by
  refine (left.perm.trans right.perm.symm).eq_of_pairwise (fun a b _ _ le ge => ?_) left.order right.order
  exact Std.LawfulEqCmp.eq_of_compare (Std.OrientedCmp.isLE_antisymm le ge)

/-- The reader puts the pairs in order whichever way they were written. -/
theorem listExtensions_inOrder {refs : List NameExt} (tabFree : ∀ ref ∈ refs, ref.TabFree) :
    InOrder (listExtensions (makeExtensionsReference refs).tail) refs := by
  rw [listExtensions_reference tabFree]
  exact inOrder_addAll refs

theorem isIndex_makeExtensionsReference_iff (refs : List NameExt) :
    isIndex (makeExtensionsReference refs) = true ↔ refs ≠ [] := by
  refine ⟨?_, isIndex_makeExtensionsReference⟩
  rintro index rfl
  exact absurd index (by decide)

/-- Whatever text is read as an index, its pairs can be written again. -/
theorem listExtensions_tabFree {data : Bytes} {ref : NameExt} (member : ref ∈ listExtensions data) : ref.TabFree := by
  have listed := (SortedList.addAll_perm nameExtCompare _).mem_iff.mp member
  obtain ⟨pair, inPairs, rfl⟩ := List.mem_map.mp listed
  obtain ⟨left, right⟩ := Separated.mem_of_mem_pairUp inPairs
  exact ⟨Separated.not_mem_of_mem_splitOn left, Separated.not_mem_of_mem_splitOn right⟩

theorem listExtensions_order (data : Bytes) : SortedList.Sorted nameExtCompare (listExtensions data) :=
  SortedList.addAll_sorted _

/-- A part of what was read, written back and read again, is that part. -/
theorem listExtensions_rewritten {data : Bytes} {refs : List NameExt} (part : refs.Sublist (listExtensions data)) :
    listExtensions (makeExtensionsReference refs).tail = refs := by
  have again := listExtensions_inOrder fun ref member => listExtensions_tabFree (part.subset member)
  exact again.unique ⟨.refl _, (listExtensions_order data).sublist part⟩

/-- What deleting a page leaves under a key with an index. -/
theorem dbdelete_index {loc : Locale} {db db' : Store} {name cont : Bytes} {info : Mandata}
    (atKey : db.fetch (nameToKey loc name) = some cont) (index : isIndex cont = true)
    (deleted : dbdelete loc db name info = .ok (0, db')) :
    db'.fetch (nameToKey loc name) =
      if (listExtensions cont.tail).erase ⟨name, info.ext⟩ = [] then none
      else some (multiContent ((listExtensions cont.tail).erase ⟨name, info.ext⟩)) := by
  have erased := List.erase_eq_eraseIdx (listExtensions cont.tail) ⟨name, info.ext⟩
  simp only [dbdelete, atKey, index, Bool.not_true, Bool.false_eq_true, if_false] at deleted
  cases position : (listExtensions cont.tail).idxOf? ⟨name, info.ext⟩ with
  | none => simp [position, noEntry] at deleted
  | some thisIndex =>
    simp only [position] at deleted erased
    rw [erased, multiContent_eq]
    split at deleted
    · cases deleted
    · split at deleted <;> obtain ⟨-, rfl⟩ := Prod.mk.inj (Except.ok.inj deleted) <;> simp_all

/-- The two formats of a content and their readers. -/
theorem contents_read_back (info : Mandata) (refs : List NameExt) (clean : info.Clean) (field : NameField info.name)
    (tabFree : ∀ ref ∈ refs, ref.TabFree) :
    (splitContent (makeContent info) = .ok (setDefaults info) ∧ isIndex (makeContent info) = false) ∧
      (∀ content ∈ [makeExtensionsReference refs, multiContent refs],
        InOrder (listExtensions content.tail) refs ∧ (isIndex content = true ↔ refs ≠ [])) ∧
      ∀ (loc : Locale) (db db' : Store) (name cont left : Bytes) (gone : Mandata),
        db.fetch (nameToKey loc name) = some cont → isIndex cont = true →
          dbdelete loc db name gone = .ok (0, db') → db'.fetch (nameToKey loc name) = some left →
            isIndex left = true ∧
              listExtensions left.tail = (listExtensions cont.tail).erase ⟨name, gone.ext⟩ := by
  refine ⟨⟨splitContent_makeContent clean field, ?_⟩, fun content written => ?_, ?_⟩
  · simpa [isIndex] using head_makeContent field
  · have same : content = makeExtensionsReference refs := by simpa [multiContent_eq] using written
    rw [same]
    exact ⟨listExtensions_inOrder tabFree, isIndex_makeExtensionsReference_iff refs⟩
  · intro loc db db' name cont left gone atKey index deleted atLeft
    rw [dbdelete_index atKey index deleted, multiContent_eq] at atLeft
    split at atLeft
    · cases atLeft
    · rename_i nonempty
      rw [← Option.some.inj atLeft]
      exact ⟨isIndex_makeExtensionsReference nonempty, listExtensions_rewritten List.erase_sublist⟩

theorem contents_read_back_page :
    splitContent (makeContent ⟨none, ascii "1", ascii "1", 65, none, none, none, none, ⟨-7, 42⟩⟩) =
      .ok (setDefaults ⟨none, ascii "1", ascii "1", 65, none, none, none, none, ⟨-7, 42⟩⟩) :=
  (contents_read_back ⟨none, ascii "1", ascii "1", 65, none, none, none, none, ⟨-7, 42⟩⟩
    [⟨ascii "b", ascii "1"⟩, ⟨ascii "a", ascii "8"⟩] (by decide) (by simp) (by decide)).1.1

end ManDb
