import ManDb.Text

namespace ManDb

/-- `enum decompress_tag`. -/
inductive DecompressTag where
  | pipeline
  | inprocess
  deriving DecidableEq, Repr

/-- `struct decompress`: the content and how far it has been read. For a pipeline
this is what its output will be. -/
structure Decompress where
  tag : DecompressTag
  buf : Bytes
  offset : Nat
  within : offset ≤ buf.length
  deriving DecidableEq

namespace Decompress

theorem zero_within (buf : Bytes) : 0 ≤ buf.length := Nat.zero_le _

/-- A decompressor that has not been read from. -/
def start (tag : DecompressTag) (content : Bytes) : Decompress := ⟨tag, content, 0, zero_within content⟩

def remaining (d : Decompress) : Bytes := d.buf.drop d.offset

/-- Move the cursor, at most to the end. -/
def skip (d : Decompress) (len : Nat) : Decompress :=
  { d with offset := min (d.offset + len) d.buf.length, within := Nat.min_le_right _ _ }

end Decompress

variable {d d' : Decompress} {len : Nat}

/-- `decompress_peek`: both back ends give the bytes asked for or all that remain. -/
def decompressPeek (d : Decompress) (len : Nat) : Bytes := d.remaining.take len

def decompressRead (d : Decompress) (len : Nat) : Bytes × Decompress :=
  (decompressPeek d len, d.skip (decompressPeek d len).length)

/-- `decompress_peek_skip`. It is an assertion failure to skip more than remains. -/
def decompressPeekSkip (d : Decompress) (len : Nat) : Option Decompress :=
  if len ≤ d.remaining.length then some (d.skip len) else none

/-- The line that starts a text: for a pipeline the last one may lack its newline,
in process `memchr` must find one. -/
def lineAt (tag : DecompressTag) (text : Bytes) : Option Bytes :=
  match Separated.cut newline text with
  | (line, some _) => some (line ++ [newline])
  | (line, none) =>
    match tag with
    | .pipeline => if line = [] then none else some line
    | .inprocess => none

/-- The line as it is handed out: a pointer into the buffer, or an `xstrndup`. -/
def lineCache (tag : DecompressTag) (line : Bytes) : Bytes :=
  match tag with
  | .pipeline => line
  | .inprocess => cString line

def decompressPeekline (d : Decompress) : Option Bytes := (lineAt d.tag d.remaining).map (lineCache d.tag)

def decompressReadline (d : Decompress) : Option Bytes × Decompress :=
  match lineAt d.tag d.remaining with
  | none => (none, d)
  | some line => (some (lineCache d.tag line), d.skip line.length)

/-- The calls that read from a decompressor. -/
inductive Call where
  | read (len : Nat)
  | peek (len : Nat)
  | peekSkip (len : Nat)
  | readline
  | peekline

/-- One call: what it returns, if anything, and the decompressor afterwards.
There is no result where an assertion fails. -/
def Call.run (d : Decompress) : Call → Option (Option Bytes × Decompress)
  | read len => some (some (decompressRead d len).1, (decompressRead d len).2)
  | peek len => some (some (decompressPeek d len), d)
  | peekSkip len => (decompressPeekSkip d len).map (fun d' => (none, d'))
  | readline => some (decompressReadline d)
  | peekline => some (decompressPeekline d, d)

/-- What a sequence of calls shows: each result with the offset reached, up to a
failed assertion. -/
def observe (d : Decompress) : List Call → List (Option (Option Bytes × Nat))
  | [] => []
  | call :: calls =>
    match call.run d with
    | none => [none]
    | some (result, d') => some (result, d'.offset) :: observe d' calls

/-- The content is empty or its last line has its newline. -/
def Terminated (content : Bytes) : Prop := content = [] ∨ content.getLast? = some newline

instance (content : Bytes) : Decidable (Terminated content) := inferInstanceAs (Decidable (_ ∨ _))

/-- The two decompressors are at the same place of the same content. -/
structure Alike (d d' : Decompress) : Prop where
  buf : d.buf = d'.buf
  offset : d.offset = d'.offset

theorem Alike.remaining (alike : Alike d d') : d.remaining = d'.remaining := by
  rw [Decompress.remaining, Decompress.remaining, alike.buf, alike.offset]

theorem Alike.skip (alike : Alike d d') (len : Nat) : Alike (d.skip len) (d'.skip len) := by
  refine ⟨alike.buf, ?_⟩
  simp only [Decompress.skip, alike.buf, alike.offset]

theorem alike_start (tag tag' : DecompressTag) (content : Bytes) :
    Alike (.start tag content) (.start tag' content) := ⟨rfl, rfl⟩

@[simp] theorem start_remaining (tag : DecompressTag) (content : Bytes) :
    (Decompress.start tag content).remaining = content := rfl

@[simp] theorem start_tag (tag : DecompressTag) (content : Bytes) : (Decompress.start tag content).tag = tag := rfl

theorem skip_remaining (d : Decompress) (len : Nat) : (d.skip len).remaining = d.remaining.drop len := by
  simp only [Decompress.remaining, Decompress.skip, List.drop_drop]
  by_cases inside : d.offset + len ≤ d.buf.length
  · rw [Nat.min_eq_left inside]
  · rw [Nat.min_eq_right (by omega), List.drop_eq_nil_of_le (Nat.le_refl _), List.drop_eq_nil_of_le (by omega)]

theorem Terminated.drop {content : Bytes} (terminated : Terminated content) (n : Nat) :
    Terminated (content.drop n) := by
  rcases terminated with rfl | last
  · exact Or.inl List.drop_nil
  · by_cases empty : content.drop n = []
    · exact Or.inl empty
    · refine Or.inr ?_
      have long : n < content.length := by
        by_contra short
        exact empty (List.drop_eq_nil_of_le (by omega))
      rw [List.getLast?_drop, if_neg (by omega), last]

/-- On a text that is terminated both back ends see the same line. -/
theorem lineAt_terminated {text : Bytes} (terminated : Terminated text) (tag tag' : DecompressTag) :
    lineAt tag text = lineAt tag' text := by
  have whole := Separated.cut_join newline text
  have clean := Separated.cut_fst_clean newline text
  unfold lineAt
  cases shape : Separated.cut newline text with
  | mk line rest =>
    rw [shape] at whole clean
    cases rest with
    | some rest => rfl
    | none =>
      have same : text = line := by simpa using whole
      have empty : line = [] := by
        rcases terminated with none | last
        · rw [← same, none]
        · rw [same] at last
          exact absurd (List.mem_of_getLast? last) clean
      subst empty
      cases tag <;> cases tag' <;> rfl

theorem lineAt_mem {tag : DecompressTag} {text line : Bytes} (found : lineAt tag text = some line) :
    ∃ rest, text = line ++ rest ∧ line ≠ [] := by
  have whole := Separated.cut_join newline text
  unfold lineAt at found
  cases shape : Separated.cut newline text with
  | mk first rest =>
    rw [shape] at whole found
    cases rest with
    | some rest =>
      cases found
      exact ⟨rest, by simpa using whole, by simp⟩
    | none =>
      cases tag with
      | pipeline =>
        simp only at found
        split at found
        · cases found
        · cases found
          exact ⟨[], by simpa using whole, by assumption⟩
      | inprocess => cases found

/-- What follows a line starts one, or there is nothing. -/
theorem lineAt_ends {tag : DecompressTag} {text line rest : Bytes} (found : lineAt tag text = some line)
    (whole : text = line ++ rest) : line.getLast? = some newline ∨ rest = [] := by
  unfold lineAt at found
  have joined := Separated.cut_join newline text
  cases shape : Separated.cut newline text with
  | mk first after =>
    rw [shape] at joined found
    cases after with
    | some after =>
      cases found
      exact Or.inl (by simp)
    | none =>
      cases tag with
      | inprocess => cases found
      | pipeline =>
        simp only at found
        split at found
        · cases found
        · cases found
          refine Or.inr ?_
          rw [whole] at joined
          simpa using joined

/-- The only newline of a line is its last byte. -/
theorem lineAt_newline {tag : DecompressTag} {text before after : Bytes}
    (found : lineAt tag text = some (before ++ newline :: after)) : newline ∉ before := by
  have clean := Separated.cut_fst_clean newline text
  unfold lineAt at found
  cases shape : Separated.cut newline text with
  | mk line rest =>
    rw [shape] at clean found
    have inside : before ++ newline :: after = line ++ [newline] ∨ before ++ newline :: after = line := by
      cases rest with
      | some rest => exact Or.inl (Option.some.inj found).symm
      | none =>
        cases tag with
        | inprocess => cases found
        | pipeline =>
          simp only at found
          split at found
          · cases found
          · exact Or.inr (Option.some.inj found).symm
    rcases inside with ended | whole
    · rcases List.append_eq_append_iff.mp ended with ⟨more, isLine, _⟩ | ⟨more, isBefore, ends⟩
      · intro member
        exact clean (by rw [isLine]; exact List.mem_append_left _ member)
      · cases more with
        | nil => simpa [isBefore] using clean
        | cons b more => simp at ends
    · intro member
      exact clean (by rw [← whole]; exact List.mem_append_left _ member)

theorem lineCache_nulFree {tag : DecompressTag} {line : Bytes} (nulFree : 0 ∉ line) : lineCache tag line = line := by
  cases tag with
  | pipeline => rfl
  | inprocess =>
    refine List.takeWhile_eq_self_iff.mpr fun b member => ?_
    have different : b ≠ 0 := by
      rintro rfl
      exact nulFree member
    simpa using different

end ManDb
