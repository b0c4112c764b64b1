import ManDb.Straycats

namespace ManDb

/-- The names in a cat directory that `check_for_stray` does not take apart as `filename_info`
does. Without the extension of a compression the name has no dot, and what follows the last
dot of the directory starts with the section; or the name has no dot, and the last dot of the
directory is that of a name ending in ".Z", which stands for a compression; or there is no
section and the name ends in a dot. -/
def Misread (compExts : List Bytes) (gunzip : Bool) (directory section_ name : Bytes) : Prop :=
  (period ∉ stemOf compExts name ∧ ∃ front after, directory = front ++ period :: after ∧ period ∉ after ∧
    section_ <+: after ++ stemOf compExts name) ∨
  (period ∉ name ∧ gunzip = true ∧ ∃ front after, directory = front ++ (ascii ".Z/" ++ after) ∧ period ∉ after) ∨
  (section_ = [] ∧ ∃ front, stemOf compExts name = front ++ [period])

section Buffers

variable {xs ys text rest : Bytes} {b c : UInt8}

theorem poke_append (xs ys : Bytes) (b c : UInt8) : poke (xs ++ b :: ys) xs.length c = some (xs ++ c :: ys) := by
  rw [poke, if_pos (by simp), List.set_append_right _ _ (Nat.le_refl _), Nat.sub_self, List.set_cons_zero]

theorem stringAt_append (nulFree : 0 ∉ text) (xs rest : Bytes) :
    stringAt (xs ++ (text ++ 0 :: rest)) xs.length = some text := by
  rw [stringAt, List.drop_left, if_pos (by simp), cString_nul nulFree]

theorem appendstr_append (nulFree : 0 ∉ text) (rest next : Bytes) :
    appendstr (text ++ 0 :: rest) next = text ++ next ++ [0] := by
  rw [appendstr, cString_nul nulFree]

theorem strrchr_found (nulFree : 0 ∉ xs ++ c :: ys) (last : c ∉ ys) (rest : Bytes) :
    strrchr (xs ++ c :: ys ++ 0 :: rest) c = some xs.length := by
  rw [strrchr, cString_nul nulFree, Separated.cutLast_append_cons last]

theorem strrchr_none (nulFree : 0 ∉ text) (absent : c ∉ text) (rest : Bytes) :
    strrchr (text ++ 0 :: rest) c = none := by
  rw [strrchr, cString_nul nulFree, Separated.cutLast_of_not_mem absent]

end Buffers

/-- A directory of the manual as `open_catdir` makes it: its name starts with "man" and has a
section behind that. -/
structure ManDirectory (directory section_ : Bytes) : Prop where
  shape : ∃ parent, directory = parent ++ slash :: (ascii "man" ++ section_) ++ [slash]
  nulFree : 0 ∉ directory
  slashless : slash ∉ section_

variable {compExts : List Bytes} {gunzip : Bool} {directory section_ name core mandir : Bytes}

/-- The last component of the directory ends behind its last dot. -/
theorem ManDirectory.last_dot (man : ManDirectory directory section_) (dotted : period ∈ directory) :
    ∃ front after, directory = front ++ period :: (after ++ [slash]) ∧ period ∉ after ++ [slash] := by
  obtain ⟨front, after, shape, last⟩ := Separated.exists_last_of_mem dotted
  obtain ⟨parent, ends⟩ := man.shape
  rw [shape] at ends
  rcases List.eq_nil_or_concat after with rfl | ⟨after, c, rfl⟩
  · exact absurd (List.append_inj_right' ends rfl) (by decide)
  · rw [List.concat_eq_append] at shape last ends
    rw [← List.cons_append, ← List.append_assoc] at ends
    have same : [c] = [slash] := List.append_inj_right' ends rfl
    rw [same] at shape last
    exact ⟨front, after, shape, last⟩

/-- The compression is recognised just where it is part of the name. -/
theorem compInfoOfPath_extension {suffix : Bytes} (dotless : period ∉ suffix) (slashless : slash ∉ suffix) :
    (compInfoOfPath compExts gunzip (period :: suffix)).isSome = true ↔ suffix ∈ compExts := by
  have whole : period :: suffix = [] ++ period :: suffix := rfl
  by_cases known : suffix ∈ compExts
  · rw [compInfoOfPath, whole, compInfo_concat dotless known]
    simp [known]
  · have absent : Separated.cutAt (ascii ".Z/") (period :: suffix) = none := by
      refine Separated.cutAt_eq_none_iff.mpr fun inside => ?_
      rcases List.mem_cons.mp (inside.subset (show slash ∈ ascii ".Z/" by decide)) with same | later
      · exact absurd same (by decide)
      · exact slashless later
    rw [compInfoOfPath, whole, compInfo_unknown dotless known, ← whole, absent]
    cases gunzip <;> simp [known]

/-- What is found in a name without the extension of a compression. -/
def strayFound (directory section_ core : Bytes) (comp : Option Bytes) : Option StrayName :=
  match Separated.cutLast period (directory ++ core) with
  | (_, none) => none
  | (before, some after) => if section_.isPrefixOf after then some ⟨comp, before.length, section_⟩ else none

theorem readSection_eq (man : ManDirectory directory section_) (rest : Bytes) :
    readSection directory.length (directory ++ rest) = some (section_, directory ++ rest) := by
  obtain ⟨⟨parent, rfl⟩, nulFree, slashless⟩ := man
  generalize shape : parent ++ slash :: (ascii "man" ++ section_) = path at nulFree ⊢
  have clean : 0 ∉ path := fun nul => nulFree (by simp [nul])
  have noSlash : slash ∉ ascii "man" ++ section_ := List.not_mem_append (by decide) slashless
  have last : strrchr (path ++ 0 :: rest) slash = some parent.length := by
    subst path
    exact strrchr_found clean noSlash rest
  have section_read : stringAt (path ++ 0 :: rest) (parent.length + 4) = some section_ := by
    have parts : path ++ 0 :: rest = (parent ++ slash :: ascii "man") ++ (section_ ++ 0 :: rest) := by simp [← shape]
    have length : parent.length + 4 = (parent ++ slash :: ascii "man").length := by simp [ascii]
    rw [parts, length]
    exact stringAt_append (fun nul => clean (by simp [← shape, nul])) _ _
  have whole : path ++ [slash] ++ rest = path ++ slash :: rest := by simp
  have length : (path ++ [slash]).length - 1 = path.length := by simp
  rw [whole]
  simp only [readSection, length, poke_append, Option.bind_eq_bind, Option.bind_some, last, section_read]

theorem checkExtension_eq (man : ManDirectory directory section_) (nulFree : 0 ∉ core) (comp : Option Bytes)
    (rest : Bytes) : checkExtension directory.length (directory ++ core ++ 0 :: rest) comp =
      some (directory ++ core ++ 0 :: rest, strayFound directory section_ core comp) := by
  have clean : 0 ∉ directory ++ core := List.not_mem_append man.nulFree nulFree
  have read := readSection_eq man (core ++ 0 :: rest)
  rw [← List.append_assoc] at read
  unfold checkExtension strayFound
  simp only [read, Option.bind_some]
  by_cases dotted : period ∈ directory ++ core
  · obtain ⟨before, after, shape, last⟩ := Separated.exists_last_of_mem dotted
    rw [shape] at clean ⊢
    have text : stringAt (before ++ period :: after ++ 0 :: rest) (before.length + 1) = some after := by
      have shift : before ++ period :: after ++ 0 :: rest = (before ++ [period]) ++ (after ++ 0 :: rest) := by simp
      have length : before.length + 1 = (before ++ [period]).length := by simp
      rw [shift, length]
      exact stringAt_append (fun nul => clean (by simp [nul])) _ _
    rw [strrchr_found clean last, Separated.cutLast_append_cons last]
    simp only [text, Option.map_some]
  · rw [strrchr_none clean dotted, Separated.cutLast_of_not_mem dotted]

/-- In the directory only a name that ends in ".Z" is taken for that of a compression. -/
theorem compInfoOfPath_directory (slashless : ∀ ext ∈ compExts, slash ∉ ext) {after : Bytes}
    (last : period ∉ after ++ [slash] ++ name) (plain : gunzip = true → ¬ascii "Z/" <+: after ++ [slash]) :
    compInfoOfPath compExts gunzip (period :: (after ++ [slash] ++ name)) = none := by
  have unknown : after ++ [slash] ++ name ∉ compExts := fun known => slashless _ known (by simp)
  have whole : period :: (after ++ [slash] ++ name) = [] ++ period :: (after ++ [slash] ++ name) := rfl
  rw [compInfoOfPath, whole, compInfo_unknown last unknown, ← whole]
  cases gunzip with
  | false => rfl
  | true =>
    have absent : Separated.cutAt (ascii ".Z/") (period :: (after ++ [slash] ++ name)) = none := by
      refine Separated.cutAt_eq_none_iff.mpr fun inside => ?_
      rcases List.infix_cons_iff.mp inside with starts | later
      · have starts : ascii "Z/" <+: after ++ [slash] ++ name := (List.cons_prefix_cons.mp starts).2
        refine plain rfl (List.prefix_of_prefix_length_le starts (List.prefix_append _ _) ?_)
        cases after with
        | nil => exact absurd (List.cons_prefix_cons.mp starts).1 (by decide)
        | cons => simp [ascii]
      · exact last (later.subset (by decide))
    simp only [if_true, absent, Option.map_none]

/-- A compression that is recognised is cut off, if it ends the path. -/
theorem cutCompression_known {h : StrayHost} {front suffix : Bytes} (nulFree : 0 ∉ front ++ period :: suffix)
    (dotless : period ∉ suffix) (slashless : slash ∉ suffix) (known : suffix ∈ h.host.compExts) :
    cutCompression h (front ++ period :: suffix ++ [0]) front.length =
      some (front ++ 0 :: (suffix ++ [0]), some suffix) := by
  have whole : front ++ period :: suffix ++ [0] = front ++ period :: (suffix ++ [0]) := by simp
  have seen : (cString (front ++ period :: suffix ++ [0])).drop front.length = period :: suffix := by
    rw [cString_nul nulFree, List.drop_left]
  have shown : (cString (front ++ period :: suffix ++ [0])).drop (front.length + 1) = suffix := by
    rw [← List.drop_drop, seen]
    rfl
  rw [cutCompression, seen, if_pos ((compInfoOfPath_extension dotless slashless).mpr known), shown, whole, poke_append,
    Option.map_some]

theorem cutCompression_unknown {h : StrayHost} {front tail : Bytes} (nulFree : 0 ∉ front ++ period :: tail)
    (unknown : compInfoOfPath h.host.compExts h.gunzip (period :: tail) = none) :
    cutCompression h (front ++ period :: tail ++ [0]) front.length = some (front ++ period :: tail ++ [0], none) := by
  have seen : (cString (front ++ period :: tail ++ [0])).drop front.length = period :: tail := by
    rw [cString_nul nulFree, List.drop_left]
  rw [cutCompression, seen, unknown]
  rfl

/-- The name is looked at from the last dot of the path on. -/
theorem strayName_dot {h : StrayHost} {front tail : Bytes} (nulFree : 0 ∉ directory ++ name)
    (shape : directory ++ name = front ++ period :: tail) (last : period ∉ tail) (c : UInt8) (rest : Bytes) :
    strayName h directory.length name (directory ++ c :: rest) =
      (cutCompression h (front ++ period :: tail ++ [0]) front.length).bind fun (mandir, comp) =>
        checkExtension directory.length mandir comp := by
  have clean : 0 ∉ directory := fun nul => nulFree (List.mem_append_left _ nul)
  rw [strayName, poke_append, Option.bind_some, appendstr_append clean, shape]
  rw [shape] at nulFree
  simp only [strrchr_found nulFree last []]

/-- The name is taken apart without a change of the directory, unless it is misread. -/
theorem strayName_eq {h : StrayHost} (slashless : ∀ ext ∈ h.host.compExts, slash ∉ ext)
    (plain : ∀ ext ∈ h.host.compExts, period ∉ ext) (man : ManDirectory directory section_)
    (proper : name ≠ [] ∧ 0 ∉ name ∧ slash ∉ name) (read : ¬Misread h.host.compExts h.gunzip directory section_ name)
    (c : UInt8) (rest : Bytes) : ∃ comp rest', strayName h directory.length name (directory ++ c :: rest) =
      some (directory ++ stemOf h.host.compExts name ++ 0 :: rest',
        strayFound directory section_ (stemOf h.host.compExts name) comp) := by
  have clean : 0 ∉ directory ++ name := List.not_mem_append man.nulFree proper.2.1
  by_cases dotted : period ∈ name
  · obtain ⟨stem, suffix, rfl, last⟩ := Separated.exists_last_of_mem dotted
    have shape : directory ++ (stem ++ period :: suffix) = (directory ++ stem) ++ period :: suffix := by simp
    have noSlash : slash ∉ suffix := fun member => proper.2.2 (by simp [member])
    rw [strayName_dot clean shape last]
    by_cases known : suffix ∈ h.host.compExts
    · refine ⟨some suffix, suffix ++ [0], ?_⟩
      rw [cutCompression_known (shape ▸ clean) last noSlash known, Option.bind_some,
        stemOf_concat (plain suffix known) known]
      exact checkExtension_eq man (fun nul => proper.2.1 (by simp [nul])) _ _
    · refine ⟨none, [], ?_⟩
      have unknown : compInfoOfPath h.host.compExts h.gunzip (period :: suffix) = none :=
        Option.not_isSome_iff_eq_none.mp (mt (compInfoOfPath_extension last noSlash).mp known)
      rw [cutCompression_unknown (shape ▸ clean) unknown, Option.bind_some, ← shape,
        stemOf_none (compInfo_unknown last known stem)]
      exact checkExtension_eq man proper.2.1 _ _
  · rw [stemOf_none (compInfo_undotted dotted)]
    refine ⟨none, [], ?_⟩
    by_cases above : period ∈ directory
    · obtain ⟨front, after, shape, last⟩ := man.last_dot above
      have dotless : period ∉ after ++ [slash] ++ name := List.not_mem_append last dotted
      have whole : directory ++ name = front ++ period :: (after ++ [slash] ++ name) := by simp [shape]
      have unread : h.gunzip = true → ¬ascii "Z/" <+: after ++ [slash] := by
        rintro gunzip ⟨tail, starts⟩
        refine read (Or.inr (Or.inl ⟨dotted, gunzip, front, tail, ?_, fun member => last (starts ▸ ?_)⟩))
        · rw [shape, ← starts]
          rfl
        · exact List.mem_append_right _ member
      have unknown := compInfoOfPath_directory slashless dotless unread
      rw [strayName_dot clean whole dotless, cutCompression_unknown (whole ▸ clean) unknown, Option.bind_some, ← whole]
      exact checkExtension_eq man proper.2.1 _ _
    · have absent : period ∉ directory ++ name := List.not_mem_append above dotted
      rw [strayName, poke_append, Option.bind_some, appendstr_append man.nulFree]
      simp only [strrchr_none clean absent, strayFound, Separated.cutLast_of_not_mem absent]

/-- What is accepted has its extension in the name itself, and the extension starts with the
section. -/
theorem strayFound_own {comp : Option Bytes} {found : StrayName}
    (read : ¬Misread compExts gunzip directory section_ name)
    (accepted : strayFound directory section_ (stemOf compExts name) comp = some found) :
    ∃ front ext, stemOf compExts name = front ++ period :: ext ∧ period ∉ ext ∧ ext ≠ [] ∧ section_ <+: ext ∧
      found = ⟨comp, (directory ++ front).length, section_⟩ := by
  by_cases dotted : period ∈ stemOf compExts name
  · obtain ⟨front, ext, shape, last⟩ := Separated.exists_last_of_mem dotted
    have whole : directory ++ stemOf compExts name = (directory ++ front) ++ period :: ext := by simp [shape]
    rw [strayFound, whole, Separated.cutLast_append_cons last] at accepted
    simp only at accepted
    split at accepted
    · rename_i starts
      refine ⟨front, ext, shape, last, ?_, List.isPrefixOf_iff_prefix.mp starts, (Option.some.inj accepted).symm⟩
      rintro rfl
      exact read (Or.inr (Or.inr ⟨List.prefix_nil.mp (List.isPrefixOf_iff_prefix.mp starts), front, shape⟩))
    · cases accepted
  · exfalso
    by_cases above : period ∈ directory
    · obtain ⟨front, after, shape, last⟩ := Separated.exists_last_of_mem above
      have dotless : period ∉ after ++ stemOf compExts name := List.not_mem_append last dotted
      have whole : directory ++ stemOf compExts name = front ++ period :: (after ++ stemOf compExts name) := by
        simp [shape]
      rw [strayFound, whole, Separated.cutLast_append_cons dotless] at accepted
      simp only at accepted
      split at accepted
      · rename_i starts
        exact read (Or.inl ⟨dotted, front, after, shape, last, List.isPrefixOf_iff_prefix.mp starts⟩)
      · cases accepted
    · have absent : period ∉ directory ++ stemOf compExts name := List.not_mem_append above dotted
      rw [strayFound, Separated.cutLast_of_not_mem absent] at accepted
      cases accepted

/-- Such a name is accepted by `filename_info` too, with the same section and extension. -/
theorem filenameInfo_stray {front ext : Bytes} (slashless : slash ∉ section_) (proper : slash ∉ name)
    (shape : stemOf compExts name = front ++ period :: ext) (last : period ∉ ext) (nonempty : ext ≠ [])
    (starts : section_ <+: ext) (parent : Bytes) :
    ∃ info, filenameInfo compExts (parent ++ slash :: (ascii "cat" ++ section_) ++ slash :: name) = some info ∧
      info.sec = section_ ∧ info.ext = ext := by
  have plain : slash ∉ ascii "cat" ++ section_ := List.not_mem_append (by decide) slashless
  have stem : (compInfo compExts name).elim name Prod.fst = front ++ period :: ext := by
    rw [← shape, stemOf]
    cases compInfo compExts name <;> rfl
  have sec : directorySection (dirName (parent ++ slash :: (ascii "cat" ++ section_) ++ slash :: name)) = section_ := by
    rw [dirName_append proper (by simp [ascii]) plain, directorySection_append plain]
    rfl
  have agree : ¬(section_ ≠ [] ∧ section_.head? ≠ ext.head?) := by
    rintro ⟨some, differ⟩
    obtain ⟨b, rest, rfl⟩ := List.exists_cons_of_ne_nil some
    obtain ⟨tail, rfl⟩ := starts
    exact differ rfl
  unfold filenameInfo
  simp only [baseName_append proper, stem, Separated.cutLast_append_cons last, sec, if_neg nonempty, if_neg agree]
  exact ⟨_, rfl, rfl, rfl⟩

/-- A name that is misread is not accepted by `filename_info`. -/
theorem filenameInfo_misread (slashless : slash ∉ name) (misread : Misread compExts gunzip directory section_ name)
    (parent : Bytes) : filenameInfo compExts (parent ++ slash :: name) = none := by
  have stem : (compInfo compExts name).elim name Prod.fst = stemOf compExts name := by
    rw [stemOf]
    cases compInfo compExts name <;> rfl
  unfold filenameInfo
  simp only [baseName_append slashless, stem]
  rcases misread with ⟨dotless, _⟩ | ⟨dotless, _⟩ | ⟨_, front, shape⟩
  · rw [Separated.cutLast_of_not_mem dotless]
  · rw [stemOf_none (compInfo_undotted dotless), Separated.cutLast_of_not_mem dotless]
  · simp only [shape, Separated.cutLast_append_cons List.not_mem_nil, if_true]

/-- `mandir` still starts with the directory. -/
def Intact (directory : Bytes) (s : StrayState) : Prop := ∃ c rest, s.mandir = directory ++ c :: rest

variable {loc : Locale} {h : StrayHost} {s : StrayState} {catdir parent : Bytes}

theorem intact_append {rest : Bytes} (shape : s.mandir = directory ++ rest) (nonempty : rest ≠ []) : Intact directory s := by
  obtain ⟨c, rest, rfl⟩ := List.exists_cons_of_ne_nil nonempty
  exact ⟨c, rest, shape⟩

/-- A cat page has itself as its trace. -/
theorem storeStray_sound {base : Bytes} {info : Mandata} (intact : Intact directory s)
    (own : ∃ found, filenameInfo h.host.compExts catdir = some found ∧ found.sec = info.sec ∧ found.ext = info.ext) :
    (storeStray loc h catdir base info s).Sound (Intact directory) := by
  unfold storeStray
  split
  · exact .pure intact
  · have traced : StoreRequest.Traced ⟨h.host, info, none, base, [catdir]⟩ := ⟨catdir, List.mem_singleton_self catdir, own⟩
    exact (storeCall_sound traced _ _).step fun db _ => .pure intact

theorem filterStray_sound {front ext rest : Bytes} {comp : Option Bytes}
    (nulFree : 0 ∉ ext) (shape : s.mandir = directory ++ (front ++ period :: ext) ++ 0 :: rest)
    (own : ∃ info, filenameInfo h.host.compExts catdir = some info ∧ info.sec = section_ ∧ info.ext = ext) :
    (filterStray loc h catdir ⟨comp, (directory ++ front).length, section_⟩ s).Sound (Intact directory) := by
  have parts : s.mandir = (directory ++ front) ++ period :: (ext ++ 0 :: rest) := by simp [shape]
  have cut : (directory ++ front) ++ 0 :: (ext ++ 0 :: rest) = (directory ++ front ++ [0]) ++ (ext ++ 0 :: rest) := by simp
  have read : stringAt ((directory ++ front) ++ 0 :: (ext ++ 0 :: rest)) ((directory ++ front).length + 1) = some ext := by
    have length : (directory ++ front).length + 1 = (directory ++ front ++ [0]).length := by simp [Nat.add_assoc]
    rw [cut, length]
    exact stringAt_append nulFree _ _
  have intact : ∀ s : StrayState, s.mandir = (directory ++ front) ++ 0 :: (ext ++ 0 :: rest) → Intact directory s :=
    fun s shape => intact_append (shape.trans (List.append_assoc ..)) (by simp)
  unfold filterStray
  simp only [parts, poke_append, read]
  split
  · exact .fatal _
  · split
    · exact .pure (intact _ rfl)
    split
    · exact .pure (intact _ rfl)
    split
    · exact .pure (intact _ rfl)
    · exact storeStray_sound (intact _ rfl) own

/-- A name that is not misread leaves the directory in `mandir` as it is, and the call for it,
if there is one, is as it should be. -/
theorem strayTurn_sound (man : ManDirectory directory section_) (proper : name ≠ [] ∧ 0 ∉ name ∧ slash ∉ name)
    (read : ¬Misread h.host.compExts h.gunzip directory section_ name) (intact : Intact directory s) :
    (strayTurn loc h (parent ++ slash :: (ascii "cat" ++ section_) ++ [slash]) directory.length name s).Sound
      (Intact directory) := by
  obtain ⟨c, rest, shape⟩ := intact
  have slashless : ∀ ext ∈ h.host.compExts, slash ∉ ext := h.compExts ▸ compList_slashless h.tools
  have plain : ∀ ext ∈ h.host.compExts, period ∉ ext := h.compExts ▸ compList_plain h.tools
  obtain ⟨comp, rest', taken⟩ := strayName_eq slashless plain man proper read c rest
  rw [strayTurn, shape, taken]
  have kept : ∀ s : StrayState, s.mandir = directory ++ stemOf h.host.compExts name ++ 0 :: rest' → Intact directory s :=
    fun s shape => intact_append (shape.trans (List.append_assoc ..)) (by simp)
  cases accepted : strayFound directory section_ (stemOf h.host.compExts name) comp with
  | none => exact .pure (kept _ rfl)
  | some found =>
    obtain ⟨front, ext, core, last, nonempty, starts, rfl⟩ := strayFound_own read accepted
    have nulFree : 0 ∉ ext := fun nul => proper.2.1 ((stemOf_starts h.host.compExts name).subset (by simp [core, nul]))
    have whole : parent ++ slash :: (ascii "cat" ++ section_) ++ [slash] ++ name =
        parent ++ slash :: (ascii "cat" ++ section_) ++ slash :: name := by simp
    dsimp only
    split
    · exact .pure (kept _ rfl)
    · rw [whole]
      exact filterStray_sound nulFree (by rw [core])
        (filenameInfo_stray man.slashless proper.2.2 core last nonempty starts parent)

theorem storeStray_trace {base : Bytes} {info : Mandata} {r : StoreRequest}
    (member : r ∈ (storeStray loc h catdir base info s).calls) : r.host = h.host ∧ r.trace = [catdir] := by
  unfold storeStray at member
  split at member
  · cases member
  · simp only [ScanRun.step, storeCall] at member
    split at member
    · obtain rfl := List.mem_singleton.mp member
      exact ⟨rfl, rfl⟩
    · rw [List.append_nil] at member
      obtain rfl := List.mem_singleton.mp member
      exact ⟨rfl, rfl⟩

theorem filterStray_trace {found : StrayName} {r : StoreRequest}
    (member : r ∈ (filterStray loc h catdir found s).calls) : r.host = h.host ∧ r.trace = [catdir] := by
  unfold filterStray at member
  split at member
  · cases member
  split at member
  · cases member
  dsimp only at member
  split at member
  · cases member
  split at member
  · cases member
  split at member
  · cases member
  split at member
  · cases member
  · exact storeStray_trace member

/-- A call for a name has the cat page alone in its trace. -/
theorem strayTurn_trace {lenman : Nat} {r : StoreRequest}
    (member : r ∈ (strayTurn loc h catdir lenman name s).calls) : r.host = h.host ∧ r.trace = [catdir ++ name] := by
  unfold strayTurn at member
  split at member
  · cases member
  · cases member
  · dsimp only at member
    split at member
    · cases member
    · exact filterStray_trace member

/-- So no call for a name that is misread is as it should be. -/
theorem strayTurn_untraced (slashless : slash ∉ name)
    (misread : Misread h.host.compExts h.gunzip directory section_ name) {lenman : Nat} {r : StoreRequest}
    (member : r ∈ (strayTurn loc h (parent ++ [slash]) lenman name s).calls) : ¬r.Traced := by
  obtain ⟨host, trace⟩ := strayTurn_trace member
  refine StoreRequest.untraced fun file inTrace => ?_
  rw [trace] at inTrace
  rw [List.mem_singleton.mp inTrace, StoreRequest.traceInfo, host, List.append_assoc]
  exact filenameInfo_misread slashless misread parent

theorem strayNames_proper {names : List Bytes} (listed : h.strayNames catdir = some names) (member : name ∈ names) :
    name ≠ [] ∧ 0 ∉ name ∧ slash ∉ name := by
  obtain ⟨entries, read, rfl⟩ := Option.map_eq_some_iff.mp listed
  have found := mem_orderFiles member
  rw [List.map_map] at found
  obtain ⟨entry, kept, rfl⟩ := List.mem_map.mp found
  exact h.entries catdir entries read entry (List.mem_of_mem_filter kept)

/-- The directory of the manual that a cat directory of this section belongs to. -/
def manDirectory (manpath section_ : Bytes) : Bytes := manpath ++ slash :: (ascii "man" ++ section_) ++ [slash]

/-- No name in a cat directory below the path is misread. -/
def ReadRight (h : StrayHost) (manpath catpath : Bytes) : Prop :=
  ∀ dirs section_ names name, h.readdir catpath = some dirs → ascii "cat" ++ section_ ∈ dirs →
    h.strayNames (catpath ++ slash :: (ascii "cat" ++ section_)) = some names → name ∈ names →
    ¬Misread h.host.compExts h.gunzip (manDirectory manpath section_) section_ name

variable {manpath catpath : Bytes}

theorem manDirectory_man (nulFree : 0 ∉ manpath ++ section_) (slashless : slash ∉ section_) :
    ManDirectory (manDirectory manpath section_) section_ := by
  rw [List.mem_append, not_or] at nulFree
  refine ⟨⟨manpath, rfl⟩, ?_, slashless⟩
  simp only [manDirectory, List.mem_append, List.mem_cons, List.not_mem_nil, or_false, not_or]
  exact ⟨⟨nulFree.1, by decide, by decide, nulFree.2⟩, by decide⟩

/-- The path stays in `mandir` if the directory does. -/
theorem Intact.above (intact : Intact (manDirectory manpath section_) s) : Intact (manpath ++ [slash]) s := by
  obtain ⟨c, rest, shape⟩ := intact
  have whole : s.mandir = manpath ++ [slash] ++ (ascii "man" ++ section_ ++ [slash] ++ c :: rest) := by
    simp [shape, manDirectory]
  exact intact_append whole (by simp)

theorem checkForStray_sound (nulFree : 0 ∉ manpath ++ section_) (slashless : slash ∉ section_) {rest : Bytes}
    (shape : s.mandir = manpath ++ slash :: (ascii "man" ++ section_) ++ 0 :: rest)
    (read : ∀ names name, h.strayNames (catpath ++ slash :: (ascii "cat" ++ section_)) = some names → name ∈ names →
      ¬Misread h.host.compExts h.gunzip (manDirectory manpath section_) section_ name) :
    (checkForStray loc h (catpath ++ slash :: (ascii "cat" ++ section_)) s).Sound
      (Intact (manpath ++ [slash])) := by
  have man := manDirectory_man nulFree slashless
  have clean : 0 ∉ manpath ++ slash :: (ascii "man" ++ section_) := fun nul => man.nulFree (List.mem_append_left _ nul)
  unfold checkForStray
  cases listed : h.strayNames (catpath ++ slash :: (ascii "cat" ++ section_)) with
  | none =>
    have whole : s.mandir = manpath ++ [slash] ++ (ascii "man" ++ section_ ++ 0 :: rest) := by simp [shape]
    exact .pure (intact_append whole (by simp))
  | some names =>
    have start : appendstr s.mandir [slash] = manDirectory manpath section_ ++ [0] := by
      rw [shape, appendstr_append clean]
      rfl
    have length : (cString (manDirectory manpath section_ ++ [0])).length = (manDirectory manpath section_).length := by
      rw [cString_nul man.nulFree]
    simp only [start, length]
    have run : ScanRun.Sound ⟨[], .ok { s with mandir := manDirectory manpath section_ ++ [0] }⟩
        (Intact (manDirectory manpath section_)) := .pure ⟨0, [], rfl⟩
    refine (run.foldl fun name member s intact => ?_).mono fun _ => Intact.above
    exact strayTurn_sound man (strayNames_proper listed member) (read names name listed member) intact

/-- "cat" becomes "man". -/
theorem openMandir_eq (nulFree : 0 ∉ manpath) (rest : Bytes) :
    openMandir (manpath ++ [slash]).length (manpath ++ [slash] ++ 0 :: rest) (ascii "cat" ++ section_) =
      some (manpath ++ slash :: (ascii "man" ++ section_) ++ [0]) := by
  have clean : 0 ∉ manpath ++ [slash] := List.not_mem_append nulFree (by decide)
  have name : appendstr (manpath ++ [slash] ++ 0 :: rest) (ascii "cat" ++ section_) =
      (manpath ++ [slash]) ++ 99 :: ([97, 116] ++ section_ ++ [0]) := by
    rw [appendstr_append clean, List.append_assoc]
    rfl
  have third : (manpath ++ [slash]) ++ 109 :: ([97, 116] ++ section_ ++ [0]) =
      (manpath ++ [slash] ++ [109, 97]) ++ 116 :: (section_ ++ [0]) := by simp
  have offset : (manpath ++ [slash]).length + 2 = (manpath ++ [slash] ++ [109, 97]).length := by simp
  rw [openMandir, name, poke_append, Option.bind_some, third, offset, poke_append]
  simp [ascii]

theorem catdirTurn_sound (nulFree : 0 ∉ manpath) {dirs : List Bytes} (right : ReadRight h manpath catpath)
    (listed : h.readdir catpath = some dirs) (member : name ∈ dirs)
    (intact : ∃ rest, s.mandir = manpath ++ [slash] ++ 0 :: rest) :
    (catdirTurn loc h (catpath ++ [slash]) (manpath ++ [slash]).length name s).Sound fun s =>
      ∃ rest, s.mandir = manpath ++ [slash] ++ 0 :: rest := by
  obtain ⟨rest, shape⟩ := intact
  unfold catdirTurn
  split
  · exact .pure ⟨rest, shape⟩
  · rename_i isCat
    simp only [Bool.not_eq_true', Bool.not_eq_false, List.isPrefixOf_iff_prefix] at isCat
    obtain ⟨section_, rfl⟩ := isCat
    obtain ⟨_, clean, slashless⟩ := h.entries catpath dirs listed _ member
    rw [List.mem_append, not_or] at clean slashless
    have both : 0 ∉ manpath ++ section_ := List.not_mem_append nulFree clean.2
    have whole : catpath ++ [slash] ++ (ascii "cat" ++ section_) = catpath ++ slash :: (ascii "cat" ++ section_) := by simp
    simp only [shape, openMandir_eq nulFree, whole]
    have checked : (checkForStray loc h (catpath ++ slash :: (ascii "cat" ++ section_))
        { s with mandir := manpath ++ slash :: (ascii "man" ++ section_) ++ [0] }).Sound (Intact (manpath ++ [slash])) :=
      checkForStray_sound both slashless.2 rfl fun names name => right dirs section_ names name listed member
    refine checked.step fun s intact => ?_
    obtain ⟨c, rest, shape⟩ := intact
    simp only [shape, poke_append]
    exact .pure ⟨rest, rfl⟩

theorem openCatdir_sound (nulFree : 0 ∉ manpath) (right : ReadRight h manpath catpath)
    (shape : ∃ rest, s.mandir = manpath ++ 0 :: rest) :
    (openCatdir loc h catpath s).Sound fun s => s.mandir ≠ [] := by
  obtain ⟨rest, shape⟩ := shape
  unfold openCatdir
  cases listed : h.readdir catpath with
  | none => exact .pure (by simp [shape])
  | some dirs =>
    have clean : 0 ∉ manpath ++ [slash] := List.not_mem_append nulFree (by decide)
    have start : appendstr s.mandir [slash] = manpath ++ [slash] ++ [0] := by rw [shape, appendstr_append nulFree]
    have length : (cString (manpath ++ [slash] ++ [0])).length = (manpath ++ [slash]).length := by rw [cString_nul clean]
    simp only [start, length]
    have run : ScanRun.Sound ⟨[], .ok { s with mandir := manpath ++ [slash] ++ [0] }⟩
        (fun s => ∃ rest, s.mandir = manpath ++ [slash] ++ 0 :: rest) := .pure ⟨[], rfl⟩
    refine (run.foldl fun name member s intact => catdirTurn_sound nulFree right listed member intact).mono ?_
    rintro s ⟨rest, shape⟩
    simp [shape]

/-- Every call for a stray cat has the cat page in its trace, if no name is misread. -/
theorem straycats_sound {catpath : Option Bytes} {db : Store} (nulFree : 0 ∉ manpath)
    (usual : ReadRight h manpath manpath) (alternate : ∀ catpath' ∈ catpath, ReadRight h manpath catpath') :
    (straycats loc h manpath catpath db).Sound fun s => s.mandir ≠ [] := by
  have empty : (0 : UInt8) ∉ ([] : Bytes) := List.not_mem_nil
  have fresh : ∀ tail, appendstr (0 :: tail) manpath = manpath ++ 0 :: [] := fun tail => appendstr_append empty tail manpath
  refine (openCatdir_sound nulFree usual ⟨[], fresh []⟩).step fun s nonempty => ?_
  cases catpath with
  | none => exact .pure nonempty
  | some catpath =>
    dsimp only
    split
    · exact .pure nonempty
    · obtain ⟨c, tail, shape⟩ := List.exists_cons_of_ne_nil nonempty
      have cut : poke s.mandir 0 0 = some (0 :: tail) := by rw [shape]; exact poke_append [] tail c 0
      simp only [cut, fresh]
      exact openCatdir_sound nulFree (alternate catpath rfl) ⟨[], rfl⟩

end ManDb
