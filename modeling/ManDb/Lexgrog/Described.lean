import ManDb.Lexgrog.PlainPage

namespace ManDb.Lexgrog

variable {first w text rest whatis name : Bytes} {more names : List Bytes} {s : Scanner}

/-- The names of a page as they may stand in a NAME section. A later name that is a dash would be taken for the
separator. -/
structure PlainNames (first : Bytes) (more : List Bytes) : Prop where
  word : PlainWord first
  initial : ∀ b ∈ first.head?, isInitial b = true
  words : ∀ name ∈ more, PlainWord name
  noDash : ∀ name ∈ more, name ≠ [dash]

/-- What is kept of a plain page. -/
def plainWhatis (first : Bytes) (more : List Bytes) (text : Bytes) : Bytes :=
  namesText first more ++ ascii " - " ++ text

theorem isPlain_apart {b : UInt8} (plain : isPlain b = true) :
    b ≠ space ∧ b ≠ tab ∧ b ≠ comma ∧ b ≠ recordSep ∧ b ≠ 0 := by
  have other (c : UInt8) (blank : isPlain c = false) : b ≠ c := fun same =>
    Bool.false_ne_true (blank.symm.trans (same ▸ plain))
  exact ⟨other _ rfl, other _ rfl, other _ rfl, other _ rfl, other _ rfl⟩

theorem PlainWord.clean (word : PlainWord w) : space ∉ w ∧ tab ∉ w ∧ comma ∉ w ∧ recordSep ∉ w := by
  have apart (b : UInt8) (member : b ∈ w) := isPlain_apart (word.plain b member)
  exact ⟨fun member => (apart _ member).1 rfl, fun member => (apart _ member).2.1 rfl,
    fun member => (apart _ member).2.2.1 rfl, fun member => (apart _ member).2.2.2.1 rfl⟩

theorem PlainText.noSep (plain : PlainText text) : recordSep ∉ text := by
  induction plain with
  | word word => exact word.clean.2.2.2
  | space word _ ih =>
    rw [List.mem_append, List.mem_cons, not_or, not_or]
    exact ⟨word.clean.2.2.2, by decide, ih⟩
  | comma word _ ih =>
    rw [List.mem_append, List.mem_append, not_or, not_or]
    exact ⟨word.clean.2.2.2, by decide, ih⟩

theorem PlainWord.nulFree {w : Bytes} (word : PlainWord w) : 0 ∉ w := fun member =>
  (isPlain_apart (word.plain 0 member)).2.2.2.2 rfl

theorem PlainText.nulFree (plain : PlainText text) : 0 ∉ text := by
  induction plain with
  | word word => exact word.nulFree
  | space word _ ih =>
    rw [List.mem_append, List.mem_cons, not_or, not_or]
    exact ⟨word.nulFree, by decide, ih⟩
  | comma word _ ih =>
    rw [List.mem_append, List.mem_append, not_or, not_or]
    exact ⟨word.nulFree, by decide, ih⟩

theorem plainWhatis_nulFree (names : PlainNames first more) (plain : PlainText text) :
    0 ∉ plainWhatis first more text := by
  rw [plainWhatis, namesText, List.mem_append, List.mem_append, List.mem_append, not_or, not_or, not_or]
  refine ⟨⟨⟨names.word.nulFree, fun member => ?_⟩, by decide⟩, plain.nulFree⟩
  obtain ⟨name, inMore, inside⟩ := List.mem_flatMap.mp member
  rcases List.mem_append.mp inside with separator | inName
  · exact absurd separator (by decide)
  · exact (names.words name inMore).nulFree inName

/-- A text that starts and ends with something else than a space loses nothing. -/
theorem trimSpaces_eq (front : ∀ b ∈ w.head?, b ≠ space) (back : ∀ b ∈ w.getLast?, b ≠ space) : trimSpaces w = w := by
  have starts : w.dropWhile (· == space) = w := by
    cases w with
    | nil => rfl
    | cons b w => exact List.dropWhile_cons_of_neg (by simpa using front b rfl)
  rw [trimSpaces, starts, List.rdropWhile_eq_self_iff]
  intro nonempty
  simpa using back _ (List.getLast?_eq_some_getLast nonempty)

theorem PlainWord.trim (word : PlainWord w) : trimSpaces w = w :=
  trimSpaces_eq (fun _ first same => word.clean.1 (same ▸ List.mem_of_mem_head? first))
    fun _ last same => word.clean.1 (same ▸ List.mem_of_mem_getLast? last)

theorem PlainText.ends (plain : PlainText text) : ∀ b ∈ text.getLast?, isPlain b = true := by
  induction plain with
  | word word => exact fun b last => word.plain b (List.mem_of_mem_getLast? last)
  | @space w text _ plain ih =>
    obtain ⟨d, more, shape, _⟩ := plain.head []
    rw [List.append_nil] at shape
    simpa [shape] using ih
  | @comma w text _ plain ih =>
    obtain ⟨d, more, shape, _⟩ := plain.head []
    rw [List.append_nil] at shape
    simpa [shape, ascii] using ih

theorem PlainText.trim (plain : PlainText text) : trimSpaces text = text := by
  obtain ⟨d, more, shape, head⟩ := plain.head []
  rw [List.append_nil] at shape
  refine trimSpaces_eq (fun b first => ?_) fun b last => (isPlain_apart (plain.ends b last)).1
  rw [shape] at first
  exact Option.some.inj first ▸ (isPlain_apart head).1

theorem splitOn_namesText (clean : comma ∉ first) (words : ∀ name ∈ more, PlainWord name) :
    (namesText first more).splitOn comma = first :: more.map (space :: ·) := by
  induction more generalizing first with
  | nil =>
    rw [namesText, List.flatMap_nil, List.append_nil]
    exact List.splitOn_eq_singleton clean
  | cons name more ih =>
    obtain ⟨word, words⟩ := List.forall_mem_cons.mp words
    have later : comma ∉ space :: name := by
      rw [List.mem_cons, not_or]
      exact ⟨by decide, word.clean.2.2.1⟩
    have shape : namesText first (name :: more) = first ++ comma :: namesText (space :: name) more := rfl
    rw [shape, List.splitOn_append_cons_self_of_not_mem clean, ih later words, List.map_cons]

theorem foundNames_namesText (word : PlainWord first) (words : ∀ name ∈ more, PlainWord name) :
    foundNames (namesText first more) = first :: more := by
  have tokens : strtok comma (namesText first more) = first :: more.map (space :: ·) := by
    rw [strtok, splitOn_namesText word.clean.2.2.1 words, List.filter_eq_self]
    intro token member
    rcases List.mem_cons.mp member with rfl | later
    · simpa using word.nonempty
    · obtain ⟨name, _, rfl⟩ := List.mem_map.mp later
      rfl
  have trimmed : (more.map (space :: ·)).map trimSpaces = more := by
    rw [List.map_map]
    refine (List.map_congr_left fun name member => ?_).trans (List.map_id more)
    exact (words name member).trim
  rw [foundNames, tokens, List.map_cons, word.trim, trimmed, List.filter_eq_self]
  intro name member
  have each : ∀ name ∈ first :: more, PlainWord name := List.forall_mem_cons.mpr ⟨word, words⟩
  have clean := each name member
  exact decide_eq_true ⟨clean.clean.1, clean.clean.2.1⟩

/-- The first dash between two spaces is the separator. -/
theorem cutAt_more (words : ∀ name ∈ more, PlainWord name) (noDash : ∀ name ∈ more, name ≠ [dash]) (text : Bytes) :
    Separated.cutAt dashSep (more.flatMap (ascii ", " ++ ·) ++ (dashSep ++ text)) =
      some (more.flatMap (ascii ", " ++ ·), text) := by
  induction more with
  | nil => exact Separated.cutAt_append (by decide) text
  | cons name more ih =>
    obtain ⟨word, words⟩ := List.forall_mem_cons.mp words
    obtain ⟨notDash, noDash⟩ := List.forall_mem_cons.mp noDash
    have other : ¬dashSep <+: space :: (name ++ (more.flatMap (ascii ", " ++ ·) ++ (dashSep ++ text))) := by
      intro starts
      have behind := (List.cons_prefix_cons.mp starts).2
      cases name with
      | nil => exact word.nonempty rfl
      | cons b name =>
        obtain ⟨rfl, last⟩ := List.cons_prefix_cons.mp behind
        cases name with
        | nil => exact notDash rfl
        | cons b name =>
          obtain ⟨rfl, _⟩ := List.cons_prefix_cons.mp last
          exact word.clean.1 (List.mem_cons_of_mem _ List.mem_cons_self)
    have shape : (name :: more).flatMap (ascii ", " ++ ·) ++ (dashSep ++ text) =
        [comma] ++ space :: (name ++ (more.flatMap (ascii ", " ++ ·) ++ (dashSep ++ text))) := by
      rw [List.flatMap_cons, List.append_assoc, List.append_assoc]
      rfl
    have comma_ : space ∉ [comma] := by decide
    rw [shape, dashSep, Separated.cutAt_clean_append comma_, ← dashSep, Separated.cutAt_cons other, dashSep,
      Separated.cutAt_clean_append word.clean.1, ← dashSep, ih words noDash]
    rfl

theorem cutAt_whatis (names : PlainNames first more) (text : Bytes) :
    Separated.cutAt dashSep (plainWhatis first more text) = some (namesText first more, text) := by
  have shape : plainWhatis first more text = first ++ (more.flatMap (ascii ", " ++ ·) ++ (dashSep ++ text)) := by
    rw [plainWhatis, namesText, List.append_assoc, List.append_assoc]
    rfl
  rw [shape, dashSep, Separated.cutAt_clean_append names.word.clean.1, ← dashSep,
    cutAt_more names.words names.noDash]
  rfl

theorem namesText_noSep (word : PlainWord first) (words : ∀ name ∈ more, PlainWord name) :
    recordSep ∉ namesText first more := by
  rw [namesText, List.mem_append, not_or]
  refine ⟨word.clean.2.2.2, fun member => ?_⟩
  obtain ⟨name, inMore, inside⟩ := List.mem_flatMap.mp member
  rcases List.mem_append.mp inside with separator | inName
  · exact absurd separator (by decide)
  · exact (words name inMore).clean.2.2.2 inName

/-- The names end with a plain byte. -/
theorem namesText_last (word : PlainWord first) (words : ∀ name ∈ more, PlainWord name) :
    ∃ front b, namesText first more = front ++ [b] ∧ isPlain b = true := by
  have ends (front : Bytes) {w : Bytes} (word : PlainWord w) :
      ∃ front' b, front ++ w = front' ++ [b] ∧ isPlain b = true := by
    obtain ⟨init, b, rfl⟩ := (List.eq_nil_or_concat' w).resolve_left word.nonempty
    exact ⟨front ++ init, b, (List.append_assoc ..).symm, word.plain b (by simp)⟩
  rcases List.eq_nil_or_concat' more with rfl | ⟨init, name, rfl⟩
  · exact ends [] word |>.imp fun front found => by simpa [namesText] using found
  · have last : PlainWord name := words name (by simp)
    have shape : namesText first (init ++ [name]) = namesText first init ++ ascii ", " ++ name := by
      simp [namesText, List.append_assoc]
    rw [shape]
    exact ends _ last

/-- The text that a plain page leaves is parsed into a description for each of its names. -/
theorem parseDescriptions_plain (names : PlainNames first more) (plain : PlainText text) (base : Bytes) :
    parseDescriptions (some base) (some (trimSpaces (plainWhatis first more text))) =
      withBase base ((first :: more).map (⟨·, some text⟩)) := by
  have noSpace : ∀ b ∈ (plainWhatis first more text).head?, b ≠ space := by
    obtain ⟨d, behind, shape, head⟩ := names.word.head (more.flatMap (ascii ", " ++ ·) ++ ascii " - " ++ text)
    have whole : plainWhatis first more text = d :: behind := by
      rw [← shape, plainWhatis, namesText]
      simp only [List.append_assoc]
    intro b first
    rw [whole] at first
    exact Option.some.inj first ▸ (isPlain_apart head).1
  have trimmed : trimSpaces (plainWhatis first more text) = plainWhatis first more text := by
    refine trimSpaces_eq noSpace fun b last => (isPlain_apart (plain.ends b ?_)).1
    obtain ⟨d, behind, shape, _⟩ := plain.head []
    rw [List.append_nil] at shape
    rw [plainWhatis, shape, List.getLast?_append_cons] at last
    rwa [shape]
  have single : records (plainWhatis first more text) = [plainWhatis first more text] := by
    have clean : recordSep ∉ plainWhatis first more text := by
      rw [plainWhatis, List.mem_append, List.mem_append, not_or, not_or]
      exact ⟨⟨namesText_noSep names.word names.words, by decide⟩, plain.noSep⟩
    have bare : (plainWhatis first more text).dropWhile (· == space) = plainWhatis first more text := by
      cases whole : plainWhatis first more text with
      | nil => rfl
      | cons b whatis => exact List.dropWhile_cons_of_neg (by simpa using noSpace b (by rw [whole]; rfl))
    have nonempty : plainWhatis first more text ≠ [] := by simp [plainWhatis, ascii]
    rw [records, List.splitOn_eq_singleton clean, List.map_singleton, bare]
    simpa using nonempty
  have adds : Adds (some base) ⟨[], false⟩
      ((foundNames (namesPart (plainWhatis first more text))).map (⟨·, whatisPart (plainWhatis first more text)⟩))
      (addRecord (some base) ⟨[], false⟩ (plainWhatis first more text)) := addRecord_adds _ _ (Or.inr rfl)
  have names_ : namesPart (plainWhatis first more text) = namesText first more := by
    rw [namesPart, cutAt_whatis names]
    rfl
  have whatis_ : whatisPart (plainWhatis first more text) = some text := by
    rw [whatisPart, cutAt_whatis names, Option.map_some, plain.trim]
  rw [parseDescriptions_eq, trimmed, single, List.foldl_cons, List.foldl_nil, adds.descs, names_, whatis_,
    foundNames_namesText names.word names.words]
  rfl

/-- A scan of a plain page leaves its names and its description, and then looks for filters only. -/
theorem leads_plainPage (names : PlainNames first more) (plain : PlainText text) (rest : Bytes)
    (fits : Fits limit (plainWhatis first more text).length) :
    ∃ left, Leads limit (.init .manpage (plainPage first more text rest))
      (reading .manRest (plainWhatis first more text) left) := by
  obtain ⟨front, b, ending, last⟩ := namesText_last names.word names.words
  obtain ⟨d, behindDash, textShape, textHead⟩ := plain.head (ascii "\n.SH" ++ rest)
  obtain ⟨e, behindName, nameShape, notBackslash, notDash, stops⟩ :=
    namesText_rest more (ascii "\\- " ++ (text ++ (ascii "\n.SH" ++ rest)))
  obtain ⟨c, w, rfl⟩ := List.exists_cons_of_ne_nil names.word.nonempty
  have size : (plainWhatis (c :: w) more text).length = (namesText (c :: w) more).length + 3 + text.length := by
    rw [plainWhatis, List.length_append, List.length_append]
    rfl
  have nameSize : (namesText (c :: w) more).length = (c :: w).length + (more.flatMap (ascii ", " ++ ·)).length :=
    List.length_append
  have wordSize : (c :: w).length = 1 + w.length := Nat.add_comm ..
  rw [size] at fits
  have heading : Leads limit (.init .manpage (ascii ".SH NAME\n" ++ c :: (w ++ e :: behindName))) _ :=
    leads_heading _ (names.initial c rfl) (fits.mono (by omega))
  have firstName :
      Leads limit (reading .manName [c] (w ++ e :: behindName)) (reading .manName (c :: w) (e :: behindName)) :=
    leads_word [c] behindName List.mem_cons_self (List.forall_mem_cons.mp names.word.plain).2
      (List.isChain_of_isChain_cons (names.word.before notBackslash notDash)) stops
      (fits.mono (by rw [List.length_singleton]; omega))
  have otherNames := leads_more (c :: w) (ascii "\\- " ++ (text ++ (ascii "\n.SH" ++ rest))) names.words
    (fits.mono (by omega))
  have separator := turn_dash front behindDash (isPlain_apart last).1 textHead
    (fits.mono (by rw [← ending]; omega))
  have description := leads_text (namesText (c :: w) more ++ ascii " - ") (ascii ".SH" ++ rest) plain
    (fits.mono (by rw [List.length_append]; exact Nat.le_refl _))
  obtain ⟨left, section_⟩ := turn_section (plainWhatis (c :: w) more text) rest (fits.mono size.le)
  have page : plainPage (c :: w) more text rest = ascii ".SH NAME\n" ++ c :: (w ++ e :: behindName) := by
    rw [← nameShape, plainPage, namesText]
    simp only [List.append_assoc]
    rfl
  rw [← nameShape] at heading firstName page
  rw [← textShape, ← ending] at separator
  rw [page]
  exact ⟨left, heading.trans (firstName.trans (otherNames.trans ((Leads.turn separator).trans
    (description.trans (.turn section_)))))⟩

/-- A scan of a plain page ends without an error, with its names and its description. -/
theorem scan_plainPage (names : PlainNames first more) (plain : PlainText text)
    (fits : (plainWhatis first more text).length < maxName) (rest : Bytes) :
      let page := plainPage first more text rest
      let found := scan (some maxName) .manpage page (3 * page.length + 1)
      found.result = some 0 ∧ found.whatis = plainWhatis first more text := by
  intro page found
  have room : Fits (some maxName) (plainWhatis first more text).length := decide_eq_false (Nat.not_le.mpr fits)
  obtain ⟨left, n, reached⟩ := leads_plainPage names plain rest room
  have returned : found.result.isSome = true := turns_return (Nat.lt_succ_self _)
  -- the turns behind the end of the text change neither the text nor the end of the scan
  have ended : Behind (plainWhatis first more text) ((turn (some maxName))^[n] (.init .manpage page)) :=
    reached ▸ ⟨rfl, Or.inl ⟨rfl, rfl⟩⟩
  have later : Behind (plainWhatis first more text) ((turn (some maxName))^[n] found) := by
    have turns := turns_behind (some maxName) ended (3 * page.length + 1)
    rwa [← Function.iterate_add_apply, Nat.add_comm, Function.iterate_add_apply] at turns
  have behind : Behind (plainWhatis first more text) found :=
    (Function.iterate_fixed (turn_returned returned) n : (turn (some maxName))^[n] found = found) ▸ later
  obtain ⟨whatis, ⟨running, _⟩ | ended⟩ := behind
  · rw [running] at returned
    cases returned
  · exact ⟨ended, whatis⟩

end ManDb.Lexgrog
