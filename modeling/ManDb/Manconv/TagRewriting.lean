import ManDb.CodingTag
import ManDb.Lib.Loop

namespace ManDb

/-- One turn of the loop over the fields of a directive, of which this text is left: it
ends with the text at the value of a coding tag or without one, or goes on behind the
next semicolon. -/
def fieldTurn (text : Bytes) : Option Bytes ⊕ Bytes :=
  if text = [] then .inl none
  else
    let text := text.dropWhile (· = 32)
    if (ascii "coding:").isPrefixOf text then .inl (some ((text.drop 7).dropWhile (· = 32)))
    else
      match (Separated.cut 59 text).2 with
      | some rest => .inr rest
      | none => .inl none

variable {loc : Locale} {d : Decompress} {text needle pre rest value line directive toEncoding : Bytes}
  {atStart : Bool}

theorem codingValue_skip (text : Bytes) :
    codingValue false text = (Separated.cut 59 text).2.bind (codingValue true) := by
  induction text with
  | nil => rfl
  | cons b text ih =>
    by_cases semicolon : b = 59
    · rw [codingValue, if_pos semicolon, Separated.cut, if_pos semicolon]
      rfl
    · rw [codingValue, if_neg semicolon, if_neg fun both => Bool.false_ne_true both.1,
        if_neg fun both => Bool.false_ne_true both.1, Separated.cut, if_neg semicolon]
      exact ih

theorem fieldTurn_blank (nonempty : text ≠ []) : fieldTurn (32 :: text) = fieldTurn text := by
  unfold fieldTurn
  rw [if_neg nonempty, if_neg (List.cons_ne_nil _ _)]
  rfl

/-- The search for the tag is what a turn and the rest of the loop find. -/
theorem codingValue_turn (text : Bytes) : codingValue true text =
    match fieldTurn text with
    | .inl found => found
    | .inr rest => codingValue true rest := by
  induction text with
  | nil => rfl
  | cons b text ih =>
    by_cases blank : b = 32
    · subst blank
      by_cases nothing : text = []
      · rw [nothing]
        rfl
      · rw [fieldTurn_blank nothing, ← ih]
        rfl
    · have start : (b :: text).dropWhile (· = 32) = b :: text := by simp [blank]
      have onward : fieldTurn (b :: text) =
          if (ascii "coding:").isPrefixOf (b :: text) then
            .inl (some (((b :: text).drop 7).dropWhile (· = 32)))
          else
            match (Separated.cut 59 (b :: text)).2 with
            | some rest => .inr rest
            | none => .inl none := by
        rw [fieldTurn, if_neg (List.cons_ne_nil _ _), start]
      have semicolon : (ascii "coding:").isPrefixOf (59 :: text) = false := rfl
      rw [onward, codingValue]
      cases tag : (ascii "coding:").isPrefixOf (b :: text) with
      | true =>
        have letter : b ≠ 59 := by
          rintro rfl
          rw [tag] at semicolon
          cases semicolon
        simp [letter, blank]
      | false =>
        by_cases ends : b = 59
        · simp [ends, Separated.cut]
        · simp only [ends, blank, codingValue_skip, Separated.cut, if_false, and_false, Bool.false_eq_true]
          cases (Separated.cut 59 text).2 <;> rfl

theorem fieldTurn_shorter (goesOn : fieldTurn text = .inr rest) : rest.length < text.length := by
  unfold fieldTurn at goesOn
  split at goesOn
  · cases goesOn
  · simp only at goesOn
    split at goesOn
    · cases goesOn
    · split at goesOn
      · rename_i found
        cases goesOn
        exact (Separated.length_cut_lt found).trans_le (List.length_dropWhile_le _ _)
      · cases goesOn

/-- The loop ends on every line, with what the search finds. -/
theorem fieldLoop_ends (text : Bytes) :
    ∃ n, n ≤ text.length + 1 ∧ Loop.run fieldTurn n text = some (codingValue true text) := by
  generalize size : text.length = k
  induction k using Nat.strong_induction_on generalizing text with
  | _ k ih =>
    have turn := codingValue_turn text
    cases result : fieldTurn text with
    | inl found =>
      rw [result] at turn
      rw [turn]
      exact ⟨1, Nat.le_add_left 1 k, Loop.run_ends result 0⟩
    | inr rest =>
      rw [result] at turn
      have shorter := fieldTurn_shorter result
      obtain ⟨n, bound, run⟩ := ih _ (size ▸ shorter) rest rfl
      exact ⟨n + 1, by omega, by rw [Loop.run_turn result, run, turn]⟩

/-- Whether a needle starts a text depends on no more of it than its length. -/
theorem isPrefixOf_long (long : needle.length ≤ pre.length) (rest rest' : Bytes) :
    needle.isPrefixOf (pre ++ rest) = needle.isPrefixOf (pre ++ rest') := by
  have short : ∀ rest : Bytes, needle.isPrefixOf (pre ++ rest) = true ↔ needle <+: pre := by
    intro rest
    rw [List.isPrefixOf_iff_prefix]
    exact ⟨fun starts => List.prefix_of_prefix_length_le starts (List.prefix_append _ _) long,
      fun starts => starts.trans (List.prefix_append _ _)⟩
  exact Bool.eq_iff_iff.mpr ((short rest).trans (short rest').symm)

/-- What follows the first occurrence of a needle may be changed. -/
theorem afterFirst_replace (found : afterFirst needle text = some rest) :
    ∃ pre, needle.length ≤ pre.length ∧ text = pre ++ rest ∧
      ∀ rest', afterFirst needle (pre ++ rest') = some rest' := by
  induction text generalizing rest with
  | nil =>
    unfold afterFirst at found
    split at found
    · rename_i empty
      cases found
      refine ⟨[], by simp [empty], rfl, fun rest' => ?_⟩
      cases rest' <;> simp [afterFirst, empty]
    · cases found
  | cons b text ih =>
    unfold afterFirst at found
    split at found
    · rename_i starts
      cases found
      obtain ⟨after, whole⟩ := List.isPrefixOf_iff_prefix.mp starts
      rw [← whole, List.drop_left]
      refine ⟨needle, Nat.le_refl _, rfl, fun rest' => ?_⟩
      cases needle with
      | nil => cases rest' <;> simp [afterFirst]
      | cons c needle =>
        have again : (c :: needle).isPrefixOf (c :: needle ++ rest') = true :=
          List.isPrefixOf_iff_prefix.mpr (List.prefix_append _ _)
        rw [List.cons_append, afterFirst, ← List.cons_append, if_pos again, List.drop_left]
    · rename_i later
      obtain ⟨pre, long, rfl, replace⟩ := ih found
      refine ⟨b :: pre, Nat.le_succ_of_le long, rfl, fun rest' => ?_⟩
      have same : needle.isPrefixOf (b :: pre ++ rest') = needle.isPrefixOf (b :: pre ++ rest) :=
        isPrefixOf_long (Nat.le_succ_of_le long) rest' rest
      rw [List.cons_append, afterFirst, ← List.cons_append, same, List.cons_append, if_neg later, replace]

theorem codingValue_tag (text : Bytes) :
    codingValue true (ascii "coding:" ++ text) = some (text.dropWhile (· = 32)) := rfl

theorem dropWhile_head (text : Bytes) : (text.dropWhile (· = 32)).head? ≠ some 32 := by
  intro head
  have first := List.head?_dropWhile_not (· = (32 : UInt8)) text
  rw [head] at first
  simp at first

theorem dropWhile_filled (filled : text.head? ≠ some 32) : text.dropWhile (· = 32) = text := by
  cases text with
  | nil => rfl
  | cons b text =>
    have different : b ≠ 32 := fun same => filled (congrArg some same)
    simp [different]

/-- The text ends in "coding:" and blanks. -/
def EndsInTag (pre : Bytes) : Prop :=
  ∃ lead blanks, pre = lead ++ ascii "coding:" ++ blanks ∧ ∀ b ∈ blanks, b = 32

theorem EndsInTag.prepend (ends : EndsInTag pre) (front : Bytes) : EndsInTag (front ++ pre) := by
  obtain ⟨lead, blanks, rfl, blank⟩ := ends
  exact ⟨front ++ lead, blanks, by simp only [List.append_assoc], blank⟩

theorem EndsInTag.length (ends : EndsInTag pre) : 7 ≤ pre.length := by
  obtain ⟨lead, blanks, rfl, _⟩ := ends
  have seven : (ascii "coding:").length = 7 := rfl
  rw [List.length_append, List.length_append, seven]
  omega

/-- The value of the tag that is found, and what follows it, may be changed. -/
theorem codingValue_replace (found : codingValue atStart text = some value) :
    ∃ pre, EndsInTag pre ∧ text = pre ++ value ∧ value.head? ≠ some 32 ∧
      ∀ value', value'.head? ≠ some 32 → codingValue atStart (pre ++ value') = some value' := by
  induction text generalizing atStart with
  | nil => cases found
  | cons b text ih =>
    unfold codingValue at found
    split at found
    · rename_i semicolon
      obtain ⟨pre, tag, rfl, filled, replace⟩ := ih found
      refine ⟨b :: pre, tag.prepend [b], rfl, filled, fun value' starts => ?_⟩
      rw [List.cons_append, codingValue, if_pos semicolon, replace value' starts]
    · rename_i letter
      split at found
      · rename_i blank
        obtain ⟨pre, tag, rfl, filled, replace⟩ := ih found
        refine ⟨b :: pre, tag.prepend [b], rfl, filled, fun value' starts => ?_⟩
        rw [List.cons_append, codingValue, if_neg letter, if_pos blank, replace value' starts]
      · rename_i notBlank
        split at found
        · rename_i tag
          cases found
          obtain ⟨rfl, starts⟩ := tag
          obtain ⟨after, whole⟩ := List.isPrefixOf_iff_prefix.mp starts
          have behind : (b :: text).drop 7 = after := by
            rw [← whole]
            rfl
          have blanks : ∀ c ∈ after.takeWhile (· = 32), c = 32 := by
            intro c member
            simpa using List.mem_takeWhile_imp member
          refine ⟨ascii "coding:" ++ after.takeWhile (· = 32), ⟨[], _, rfl, blanks⟩, ?_, ?_, fun value' filled => ?_⟩
          · rw [behind, List.append_assoc, List.takeWhile_append_dropWhile, whole]
          · rw [behind]
            exact dropWhile_head after
          · rw [List.append_assoc, codingValue_tag,
              List.dropWhile_append_of_pos fun c member => decide_eq_true (blanks c member), dropWhile_filled filled]
        · rename_i notTag
          obtain ⟨pre, tag, rfl, filled, replace⟩ := ih found
          refine ⟨b :: pre, tag.prepend [b], rfl, filled, fun value' starts => ?_⟩
          have same : (ascii "coding:").isPrefixOf (b :: pre ++ value') =
              (ascii "coding:").isPrefixOf (b :: pre ++ value) :=
            @isPrefixOf_long (ascii "coding:") (b :: pre) (Nat.le_succ_of_le tag.length) value' value
          rw [List.cons_append, codingValue, if_neg letter, if_neg notBlank, ← List.cons_append, same,
            List.cons_append, if_neg notTag, replace value' starts]

/-- The value of a coding tag, and what follows it in the directive, may be changed. -/
theorem codingTag_replace (tag : codingTag line = some (directive, value)) :
    ∃ before, EndsInTag before ∧ directive = before ++ value ∧
      (line = directive ∨ ∃ after, line = directive ++ newline :: after) ∧
      newline ∉ directive ∧ ∀ value', value'.head? ≠ some 32 → newline ∉ value' →
        codingTag (before ++ value' ++ [newline]) = some (before ++ value', value') := by
  have clean := Separated.cut_fst_clean newline line
  have whole := Separated.cut_join newline line
  unfold codingTag at tag
  split at tag
  · rename_i cookie
    generalize cut : Separated.cut newline line = parts at tag clean whole
    obtain ⟨first, after⟩ := parts
    simp only [Option.map_eq_some_iff, Option.bind_eq_some_iff, Prod.mk.injEq] at tag
    obtain ⟨value, ⟨rest, marked, found⟩, rfl, rfl⟩ := tag
    obtain ⟨pre, marker, split, replaceMarker⟩ := afterFirst_replace marked
    obtain ⟨pre', ends, rfl, _, replaceValue⟩ := codingValue_replace found
    have size : 4 ≤ first.length := by
      have length := congrArg List.length split
      have long := ends.length
      rw [List.length_drop, List.length_append, List.length_append] at length
      omega
    have directive : first = first.take 4 ++ (pre ++ pre') ++ value := by
      rw [List.append_assoc, List.append_assoc, ← split, List.take_append_drop]
    have front : (first.take 4).length = 4 := by
      rw [List.length_take]
      omega
    refine ⟨first.take 4 ++ (pre ++ pre'), (ends.prepend pre).prepend _, directive, ?_, clean,
      fun value' filled lineFree => ?_⟩
    · cases after with
      | none => exact Or.inl (by simpa using whole)
      | some after => exact Or.inr ⟨after, whole⟩
    · have lineStart : line = first.take 4 ++ (first.drop 4 ++ after.elim [] (newline :: ·)) := by
        rw [← List.append_assoc, List.take_append_drop]
        exact whole
      have newStart : first.take 4 ++ (pre ++ pre') ++ value' ++ [newline] =
          first.take 4 ++ (pre ++ (pre' ++ value') ++ [newline]) := by
        simp only [List.append_assoc]
      have marks : ∀ mark : Bytes, mark.length = 4 →
          mark.isPrefixOf (first.take 4 ++ (pre ++ pre') ++ value' ++ [newline]) =
          mark.isPrefixOf line := by
        intro mark four
        rw [lineStart, newStart]
        exact isPrefixOf_long (by omega) _ _
      have free : newline ∉ first.take 4 ++ (pre ++ pre') ++ value' := by
        rw [List.mem_append, not_or]
        refine ⟨fun member => clean ?_, lineFree⟩
        rw [directive]
        exact List.mem_append_left _ member
      have behind : (first.take 4 ++ (pre ++ pre') ++ value').drop 4 = pre ++ (pre' ++ value') := by
        rw [List.append_assoc, List.append_assoc]
        exact List.drop_left' front
      rw [codingTag, marks ppCookie rfl, marks (ascii ".\\\" ") rfl, if_pos cookie, Separated.cut_append_cons free]
      simp only
      rw [behind, replaceMarker, Option.bind_some, replaceValue value' filled]
      rfl
  · cases tag

theorem lineAt_shape {tag : DecompressTag} (found : lineAt tag text = some line) :
    newline ∉ line ∨ ∃ first, line = first ++ [newline] ∧ newline ∉ first := by
  have clean := Separated.cut_fst_clean newline text
  unfold lineAt at found
  cases shape : Separated.cut newline text with
  | mk first rest =>
    rw [shape] at found clean
    cases rest with
    | some rest =>
      cases found
      exact Or.inr ⟨first, rfl, clean⟩
    | none =>
      cases tag with
      | inprocess => cases found
      | pipeline =>
        simp only at found
        split at found
        · cases found
        · cases found
          exact Or.inl clean

/-- The line that is seen has a newline at its end at most, and no NUL. -/
theorem peekline_shape (seen : (decompressPeekline d).map cString = some line) : 0 ∉ line ∧
    ∀ first after, line = first ++ newline :: after → newline ∉ first → after = [] := by
  obtain ⟨cached, peeked, rfl⟩ := Option.map_eq_some_iff.mp seen
  obtain ⟨whole, found, rfl⟩ := Option.map_eq_some_iff.mp peeked
  refine ⟨fun member => by simpa using List.mem_takeWhile_imp member, fun first after split clean => ?_⟩
  have part : cString (lineCache d.tag whole) <+: whole := by
    refine (List.takeWhile_prefix _).trans ?_
    cases d.tag with
    | pipeline => exact List.prefix_rfl
    | inprocess => exact List.takeWhile_prefix _
  obtain ⟨rest, joined⟩ := part
  rw [split, List.append_assoc, List.cons_append] at joined
  rcases lineAt_shape found with none | ⟨first', rfl, clean'⟩
  · rw [← joined] at none
    exact absurd (List.mem_append_right _ List.mem_cons_self) none
  · have same := Separated.cut_append_cons clean (after ++ rest)
    rw [joined, Separated.cut_append_cons clean' []] at same
    simp only [Prod.mk.injEq, Option.some.injEq] at same
    exact (List.append_eq_nil_iff.mp same.2.symm).1

theorem allowed_plain {b : UInt8} (allowed : encodingAllowed b = true) : b ≠ 0 ∧ b ≠ newline ∧ b ≠ 32 := by
  refine ⟨?_, ?_, ?_⟩ <;> rintro rfl <;> exact absurd allowed (by decide +kernel)

/-- A field that starts with "coding:" after its blanks. -/
def IsCodingField (field : Bytes) : Prop := ascii "coding:" <+: field.dropWhile (· = 32)

instance instDecidableIsCodingField (field : Bytes) : Decidable (IsCodingField field) :=
  decidable_of_iff _ List.isPrefixOf_iff_prefix

/-- The line starts with a mark and a blank and has a coding field behind its first "-*-". -/
def CarriesTag (line : Bytes) : Prop :=
  (ppCookie <+: line ∨ ascii ".\\\" " <+: line) ∧
    ∃ fields, afterFirst (ascii "-*-") ((Separated.cut newline line).1.drop 4) = some fields ∧
      ∃ field ∈ fields.splitOn 59, IsCodingField field

/-- A coding field that is the first is found. -/
theorem codingValue_first (tag : IsCodingField (Separated.cut 59 text).1) : codingValue true text ≠ none := by
  induction text with
  | nil => exact absurd (List.prefix_nil.mp tag) (by decide)
  | cons b text ih =>
    unfold Separated.cut at tag
    by_cases semicolon : b = 59
    · rw [if_pos semicolon] at tag
      exact absurd (List.prefix_nil.mp tag) (by decide)
    · rw [if_neg semicolon] at tag
      unfold codingValue
      rw [if_neg semicolon]
      by_cases blank : b = 32
      · rw [if_pos ⟨rfl, blank⟩]
        refine ih ?_
        simpa [IsCodingField, blank] using tag
      · have start : (b :: (Separated.cut 59 text).1).dropWhile (· = 32) =
            b :: (Separated.cut 59 text).1 := by simp [blank]
        have whole : b :: (Separated.cut 59 text).1 <+: b :: text := by
          refine List.cons_prefix_cons.mpr ⟨rfl, ?_⟩
          conv_rhs => rw [Separated.cut_join 59 text]
          exact List.prefix_append _ _
        have found : (ascii "coding:").isPrefixOf (b :: text) = true := by
          rw [IsCodingField, start] at tag
          exact List.isPrefixOf_iff_prefix.mpr (tag.trans whole)
        rw [if_neg fun both => blank both.2, if_pos ⟨rfl, found⟩]
        exact Option.some_ne_none _

/-- Unless it ends at a coding field before, the search comes to the next field. -/
theorem codingValue_later (next : (Separated.cut 59 text).2 = some rest) (found : codingValue true rest ≠ none) :
    codingValue atStart text ≠ none := by
  induction text generalizing atStart with
  | nil => cases next
  | cons b text ih =>
    unfold Separated.cut at next
    unfold codingValue
    split at next
    · rename_i semicolon
      cases next
      rwa [if_pos semicolon]
    · rename_i semicolon
      rw [if_neg semicolon]
      split
      · exact ih next
      · split
        · exact Option.some_ne_none _
        · exact ih next

theorem codingValue_field (field : ∃ field ∈ text.splitOn 59, IsCodingField field) :
    codingValue true text ≠ none := by
  generalize size : text.length = k
  induction k using Nat.strong_induction_on generalizing text with
  | _ k ih =>
    obtain ⟨field, member, tag⟩ := field
    have whole := Separated.cut_join 59 text
    have clean := Separated.cut_fst_clean 59 text
    cases next : (Separated.cut 59 text).2 with
    | none =>
      rw [next, Option.elim_none, List.append_nil] at whole
      rw [whole, List.splitOn_eq_singleton clean, List.mem_singleton] at member
      exact codingValue_first (member ▸ tag)
    | some rest =>
      rw [next, Option.elim_some] at whole
      rw [whole, List.splitOn_append_cons_self_of_not_mem clean] at member
      rcases List.mem_cons.mp member with first | later
      · exact codingValue_first (first ▸ tag)
      · exact codingValue_later next (ih _ (size ▸ Separated.length_cut_lt next) ⟨field, later, tag⟩ rfl)

theorem CarriesTag.found (carries : CarriesTag line) :
    ∃ directive value, codingTag line = some (directive, value) := by
  obtain ⟨mark, fields, marked, field⟩ := carries
  obtain ⟨value, found⟩ := Option.ne_none_iff_exists'.mp (codingValue_field field)
  refine ⟨(Separated.cut newline line).1, value, ?_⟩
  rw [← List.isPrefixOf_iff_prefix, ← List.isPrefixOf_iff_prefix] at mark
  rw [codingTag, if_pos mark]
  simp only [marked, Option.bind_some, found, Option.map_some]

/-- The check of a line that is its own first line. -/
theorem check_of_tag {tag : DecompressTag} {front : Bytes} (lineFree : newline ∉ front) (nulFree : 0 ∉ front)
    (found : codingTag (front ++ [newline]) = some (front, value)) :
    checkPreprocessorEncoding loc (.start tag (front ++ [newline])) toEncoding =
      some (convertEncoding loc (tagEncoding value),
        if loc.caseEq (convertEncoding loc (tagEncoding value)) toEncoding then none
        else some (retaggedLine front value toEncoding)) := by
  have nulFree' : 0 ∉ front ++ [newline] := List.not_mem_append nulFree (by decide)
  have first : lineAt tag (front ++ [newline]) = some (front ++ [newline]) := by
    rw [lineAt, Separated.cut_append_cons lineFree []]
  have whole : cString (front ++ [newline]) = front ++ [newline] := @lineCache_nulFree .inprocess _ nulFree'
  rw [checkPreprocessorEncoding, decompressPeekline, start_remaining, start_tag, first, Option.map_some,
    lineCache_nulFree nulFree', Option.map_some, whole, Option.bind_some, found, Option.map_some]

/-- The value is followed by a character that is not allowed in it. -/
theorem tagEncoding_split (value : Bytes) :
    ∃ after, tagEncoding value ++ after = value ∧ after.takeWhile encodingAllowed = [] := by
  obtain ⟨after, split⟩ : tagEncoding value <+: value := List.takeWhile_prefix _
  refine ⟨after, split, ?_⟩
  have taken : (tagEncoding value ++ after).takeWhile encodingAllowed = tagEncoding value := by
    rw [split]
    rfl
  rw [List.takeWhile_append_of_pos fun b member => List.mem_takeWhile_imp member] at taken
  exact List.append_right_eq_self.mp taken

theorem tagEncoding_append {after : Bytes} (allowed : ∀ b ∈ toEncoding, encodingAllowed b = true)
    (stops : after.takeWhile encodingAllowed = []) : tagEncoding (toEncoding ++ after) = toEncoding := by
  rw [tagEncoding, List.takeWhile_append_of_pos allowed, stops, List.append_nil]

theorem head_of_allowed (allowed : ∀ b ∈ toEncoding, encodingAllowed b = true) (nonempty : toEncoding ≠ [])
    (after : Bytes) : (toEncoding ++ after).head? ≠ some 32 := by
  obtain ⟨b, rest, rfl⟩ := List.exists_cons_of_ne_nil nonempty
  have plain := (allowed_plain (allowed b List.mem_cons_self)).2.2
  simpa using plain

/-- In the new line the value is exchanged. -/
theorem retaggedLine_split {after : Bytes} (split : tagEncoding value ++ after = value) (before toEncoding : Bytes) :
    retaggedLine (before ++ value) value toEncoding = before ++ toEncoding ++ after ++ [newline] := by
  have behind : value.drop (tagEncoding value).length = after := by
    have dropped : (tagEncoding value ++ after).drop (tagEncoding value).length = after := List.drop_left
    rwa [split] at dropped
  have front : (before ++ value).take ((before ++ value).length - value.length) = before := by
    rw [List.length_append, Nat.add_sub_cancel]
    exact List.take_left
  rw [retaggedLine, front, behind]

/-- A tag is rewritten, if it does not denote the encoding already, so that only its
value changes, and the new line needs no change and denotes the encoding. -/
theorem retag_roundtrip (allowed : ∀ b ∈ toEncoding, encodingAllowed b = true) (nonempty : toEncoding ≠ [])
    (fixed : loc.caseEq (convertEncoding loc toEncoding) toEncoding = true)
    (seen : (decompressPeekline d).map cString = some line) (carries : CarriesTag line) :
    (∀ text, ∃ n, n ≤ text.length + 1 ∧ Loop.run fieldTurn n text = some (codingValue true text)) ∧
    ∃ before old after, EndsInTag before ∧ old = (old ++ after).takeWhile encodingAllowed ∧
      (line = before ++ old ++ after ∨ line = before ++ old ++ after ++ [newline]) ∧
      ((checkPreprocessorEncoding loc d toEncoding = some (convertEncoding loc old, none) ∧
          loc.caseEq (convertEncoding loc old) toEncoding = true) ∨
        (checkPreprocessorEncoding loc d toEncoding =
            some (convertEncoding loc old, some (before ++ toEncoding ++ after ++ [newline])) ∧
          ∀ tag, ∃ ppEncoding, loc.caseEq ppEncoding toEncoding = true ∧
            checkPreprocessorEncoding loc (.start tag (before ++ toEncoding ++ after ++ [newline])) toEncoding =
              some (ppEncoding, none))) := by
  refine ⟨fieldLoop_ends, ?_⟩
  obtain ⟨directive, value, tag⟩ := carries.found
  obtain ⟨before, ends, rfl, shape, clean, replace⟩ := codingTag_replace tag
  obtain ⟨nulFree, last⟩ := peekline_shape seen
  obtain ⟨after, split, stops⟩ := tagEncoding_split value
  have avoids : ∀ c, c ∉ before ++ value → (∀ b ∈ toEncoding, b ≠ c) → c ∉ before ++ (toEncoding ++ after) := by
    intro c absent other
    rw [← split] at absent
    simp only [List.mem_append, not_or] at absent ⊢
    exact ⟨absent.1, fun member => other c member rfl, absent.2.2⟩
  have nulFree' : 0 ∉ before ++ value := by
    rcases shape with rfl | ⟨tail, rfl⟩
    · exact nulFree
    · exact fun member => nulFree (List.mem_append_left _ member)
  have free : newline ∉ before ++ (toEncoding ++ after) ∧ 0 ∉ before ++ (toEncoding ++ after) :=
    ⟨avoids _ clean fun b member => (allowed_plain (allowed b member)).2.1,
      avoids _ nulFree' fun b member => (allowed_plain (allowed b member)).1⟩
  have lineShape : line = before ++ tagEncoding value ++ after ∨
      line = before ++ tagEncoding value ++ after ++ [newline] := by
    rw [List.append_assoc before, split]
    rcases shape with bare | ⟨tail, ended⟩
    · exact Or.inl bare
    · rw [last _ tail ended clean] at ended
      exact Or.inr ended
  have check : checkPreprocessorEncoding loc d toEncoding = some (convertEncoding loc (tagEncoding value),
      if loc.caseEq (convertEncoding loc (tagEncoding value)) toEncoding then none
      else some (before ++ toEncoding ++ after ++ [newline])) := by
    rw [checkPreprocessorEncoding, seen, Option.bind_some, tag, Option.map_some]
    simp only [retaggedLine_split split]
  refine ⟨before, tagEncoding value, after, ends, ?_, lineShape, ?_⟩
  · rw [split]
    rfl
  · cases same : loc.caseEq (convertEncoding loc (tagEncoding value)) toEncoding with
    | true =>
      rw [same, if_pos rfl] at check
      exact Or.inl ⟨check, rfl⟩
    | false =>
      rw [same, if_neg Bool.false_ne_true] at check
      refine Or.inr ⟨check, fun tag => ⟨convertEncoding loc toEncoding, fixed, ?_⟩⟩
      have found := replace _ (head_of_allowed allowed nonempty after) fun member =>
        free.1 (List.mem_append_right _ member)
      have again := @check_of_tag loc _ toEncoding tag _ free.1 free.2 found
      rwa [tagEncoding_append allowed stops, fixed, if_pos rfl, ← List.append_assoc] at again

/-- A page whose tag gives two encodings. -/
def twoCodings : Decompress := .start .pipeline (ascii "'\\\" -*- coding: koi8 utf8 -*-\n")

theorem retag_roundtrip_utf8 : ∃ before old after, EndsInTag before ∧
    old = (old ++ after).takeWhile encodingAllowed ∧
    (twoCodings.buf = before ++ old ++ after ∨ twoCodings.buf = before ++ old ++ after ++ [newline]) ∧
    ((checkPreprocessorEncoding .posix twoCodings (ascii "UTF-8") = some (convertEncoding .posix old, none) ∧
        Locale.posix.caseEq (convertEncoding .posix old) (ascii "UTF-8") = true) ∨
      (checkPreprocessorEncoding .posix twoCodings (ascii "UTF-8") =
          some (convertEncoding .posix old, some (before ++ ascii "UTF-8" ++ after ++ [newline])) ∧
        ∀ tag, ∃ ppEncoding, Locale.posix.caseEq ppEncoding (ascii "UTF-8") = true ∧
          checkPreprocessorEncoding .posix (.start tag (before ++ ascii "UTF-8" ++ after ++ [newline]))
            (ascii "UTF-8") =
            some (ppEncoding, none))) := by
  have carries : CarriesTag twoCodings.buf := by
    refine ⟨Or.inl (by decide +kernel), ascii " coding: koi8 utf8 -*-", by decide +kernel, ?_⟩
    exact ⟨ascii " coding: koi8 utf8 -*-", by decide +kernel, by decide +kernel⟩
  exact (retag_roundtrip (d := twoCodings) (by decide +kernel) (by decide) (by decide +kernel)
    (by decide +kernel) carries).2

/-- Without a new value the blanks that follow the old one go, and the text behind them
becomes the value. -/
theorem retag_empty_differs : (∀ b ∈ ([] : Bytes), encodingAllowed b = true) ∧
    Locale.posix.caseEq (convertEncoding .posix []) [] = true ∧
    checkPreprocessorEncoding .posix twoCodings [] =
      some (ascii "koi8", some (ascii "'\\\" -*- coding:  utf8 -*-\n")) ∧
    checkPreprocessorEncoding .posix (.start .pipeline (ascii "'\\\" -*- coding:  utf8 -*-\n")) [] =
      some (ascii "utf8", some (ascii "'\\\" -*- coding:   -*-\n")) := by
  refine ⟨nofun, by decide +kernel, by decide +kernel, by decide +kernel⟩

end ManDb
