import ManDb.CodingTag
import ManDb.Decompress
import ManDb.Lib.Loop

namespace ManDb

/-- A stream as `get_preprocessors_from_file` sees it: what it holds, and how many bytes of
it the calls of `decompress_peek`, counted from 0, make visible for a request. It gives
`none` for a null pointer. -/
structure PeekStream where
  content : Bytes
  peek : Nat → Nat → Option Nat

def peekBlock : Nat := 4096

/-- What `memmem` looks for: the start of the line that ends a prefix. -/
def lfMarker : Bytes := newline :: ascii ".lf "

/-- The loop over the prefixes: `scan` is what is visible from the pointer on. It moves
behind the next ".lf" line, if the end of that is visible. -/
def skipPrefixes : Nat → Bytes → Option Bytes
  | 0, scan => some scan
  | prefixes + 1, scan =>
    match Separated.cutAt lfMarker scan with
    | none => none
    | some (_, after) =>
      match Separated.cut newline (ascii ".lf " ++ after) with
      | (_, none) => none
      | (_, some scan) => skipPrefixes prefixes scan

/-- What is returned for the line. -/
def lineLetters (line : Bytes) : Option Bytes :=
  if ppCookie.isPrefixOf line then some (Separated.cut newline (line.drop 4)).1 else none

/-- A turn of the loop, with `i` and `previous_len`. -/
def preprocessorsTurn (stream : PeekStream) (prefixes : Nat) : Nat × Nat → Option Bytes ⊕ Nat × Nat
  | (i, previousLen) =>
    match stream.peek i (peekBlock * (i + 1)) with
    | none => .inl none
    | some len =>
      if len = 0 then .inl none
      else
        match skipPrefixes prefixes (stream.content.take len) with
        | none => .inr (i + 1, previousLen)
        | some scan =>
          match Separated.cut newline scan with
          | (line, some _) => .inl (lineLetters (cString (line ++ [newline])))
          | (_, none) => if len = previousLen then .inl (lineLetters (cString scan)) else .inr (i + 1, len)

/-- `get_preprocessors_from_file`, for at most so many turns. -/
def getPreprocessorsFromFile (decomp : Option PeekStream) (prefixes turns : Nat) : Option (Option Bytes) :=
  match decomp with
  | none => some none
  | some stream => Loop.run (preprocessorsTurn stream prefixes) turns (0, 0)

/-- The bytes that the calls before a turn have made visible. -/
def visibleBefore (stream : PeekStream) : Nat → Nat
  | 0 => 0
  | i + 1 => (stream.peek i (peekBlock * (i + 1))).getD 0

/-- Every request is answered with at most what it asks for, and with more than the one
before it until all of the stream is visible. -/
structure PeeksGrow (stream : PeekStream) : Prop where
  request : ∀ i, visibleBefore stream (i + 1) ≤ peekBlock * (i + 1)
  bound : ∀ i, visibleBefore stream i ≤ stream.content.length
  grows : ∀ i, visibleBefore stream i < visibleBefore stream (i + 1) ∨
    visibleBefore stream (i + 1) = stream.content.length

/-- Lines as they stand in a text, each with its newline. -/
def joinLines (lines : List Bytes) : Bytes := lines.flatMap (· ++ [newline])

/-- A text as `man` inserts it: at least two lines, of which only the last starts with ".lf ". -/
def InsertedPrefix (text : Bytes) : Prop := ∃ lines last, lines ≠ [] ∧ text = joinLines (lines ++ [last]) ∧
  (∀ line ∈ lines, newline ∉ line ∧ ¬ascii ".lf " <+: line) ∧ newline ∉ last ∧ ascii ".lf " <+: last

/-- The preprocessor letters of a page: what follows the cookie on its first line. -/
def pagePreprocessors (page : Bytes) : Option Bytes :=
  let line := cString (Separated.cut newline page).1
  if ppCookie <+: line then some (line.drop ppCookie.length) else none

variable {stream : PeekStream} {page scan text more line : Bytes} {texts lines : List Bytes} {prefixes i len : Nat}

/-- What is found in what is visible is found in all of the stream. -/
theorem skipPrefixes_append (found : skipPrefixes prefixes text = some scan) (more : Bytes) :
    skipPrefixes prefixes (text ++ more) = some (scan ++ more) := by
  induction prefixes generalizing text with
  | zero => rw [skipPrefixes, Option.some.injEq] at found ⊢; rw [found]
  | succ prefixes ih =>
    unfold skipPrefixes at found ⊢
    cases marker : Separated.cutAt lfMarker text with
    | none => simp [marker] at found
    | some parts =>
      obtain ⟨front, after⟩ := parts
      simp only [marker] at found
      rw [Separated.cutAt_found_append marker (List.cons_ne_nil _ _)]
      cases ended : Separated.cut newline (ascii ".lf " ++ after) with
      | mk line rest =>
        cases rest with
        | none => simp [ended] at found
        | some rest =>
          simp only [ended] at found
          simp only [← List.append_assoc, Separated.cut_found_append ended more]
          exact ih found

/-- The marker is found where the last line starts. -/
theorem cutAt_lines (nonempty : lines ≠ []) (others : ∀ line ∈ lines, newline ∉ line ∧ ¬ascii ".lf " <+: line)
    (rest : Bytes) : ∃ front, Separated.cutAt lfMarker (joinLines lines ++ (ascii ".lf " ++ rest)) = some (front, rest) := by
  induction lines with
  | nil => exact absurd rfl nonempty
  | cons line lines ih =>
    obtain ⟨clean, _⟩ := others line List.mem_cons_self
    have whole : joinLines (line :: lines) ++ (ascii ".lf " ++ rest) =
        line ++ newline :: (joinLines lines ++ (ascii ".lf " ++ rest)) := by simp [joinLines]
    rw [whole, lfMarker, Separated.cutAt_clean_append clean]
    cases lines with
    | nil =>
      have here : Separated.cutAt (newline :: ascii ".lf ") (newline :: ascii ".lf " ++ rest) = some ([], rest) :=
        Separated.cutAt_append (List.cons_ne_nil _ _) rest
      exact ⟨line ++ [], by rw [joinLines, List.flatMap_nil, List.nil_append, ← List.cons_append, here]; rfl⟩
    | cons next lines =>
      obtain ⟨nextClean, nextOther⟩ := others next (by simp)
      obtain ⟨front, found⟩ := ih (by simp) fun line member => others line (List.mem_cons_of_mem _ member)
      have passed : ¬lfMarker <+: newline :: (joinLines (next :: lines) ++ (ascii ".lf " ++ rest)) := by
        intro starts
        have starts := (List.cons_prefix_cons.mp starts).2
        rw [joinLines, List.flatMap_cons, List.append_assoc, List.append_assoc, List.singleton_append] at starts
        exact nextOther (Separated.prefix_of_clean (by decide) starts)
      rw [← lfMarker, Separated.cutAt_cons passed, found]
      exact ⟨_, rfl⟩

/-- A prefix is passed. -/
theorem skipPrefixes_inserted (inserted : ∀ text ∈ texts, InsertedPrefix text) (page : Bytes) :
    skipPrefixes texts.length (texts.flatten ++ page) = some page := by
  induction texts with
  | nil => rfl
  | cons text texts ih =>
    obtain ⟨lines, last, nonempty, rfl, others, clean, starts⟩ := inserted text List.mem_cons_self
    obtain ⟨rest, rfl⟩ := starts
    obtain ⟨front, found⟩ := cutAt_lines nonempty others (rest ++ newline :: (texts.flatten ++ page))
    have whole : ((joinLines (lines ++ [ascii ".lf " ++ rest])) :: texts).flatten ++ page =
        joinLines lines ++ (ascii ".lf " ++ (rest ++ newline :: (texts.flatten ++ page))) := by
      simp [joinLines]
    rw [whole, List.length_cons, skipPrefixes, found]
    simp only
    rw [← List.append_assoc, Separated.cut_append_cons clean]
    exact ih fun text member => inserted text (List.mem_cons_of_mem _ member)

/-- What a line is seen to be, whether its newline is read with it or not. -/
theorem cString_line (line : Bytes) (ended : Bool) : ∃ ended' : Bool,
    cString (line ++ if ended then [newline] else []) = cString line ++ if ended' then [newline] else [] := by
  by_cases nulFree : 0 ∈ line
  · refine ⟨false, ?_⟩
    obtain ⟨front, rest, rfl, clean⟩ := List.eq_append_cons_of_mem nulFree
    rw [List.append_assoc, List.cons_append, cString_nul clean, cString_nul clean]
    exact (List.append_nil front).symm
  · refine ⟨ended, ?_⟩
    rw [cString_nulFree nulFree, cString_nulFree]
    cases ended <;> simp [nulFree, newline]

/-- The letters of a line are those of the string without the newline. -/
theorem lineLetters_line (clean : newline ∉ line) (ended : Bool) :
    lineLetters (cString (line ++ if ended then [newline] else [])) =
      if ppCookie <+: cString line then some ((cString line).drop ppCookie.length) else none := by
  obtain ⟨ended', seen⟩ := cString_line line ended
  have clean' : newline ∉ cString line := fun member => clean ((List.takeWhile_prefix _).subset member)
  rw [seen, lineLetters]
  simp only [List.isPrefixOf_iff_prefix]
  generalize cString line = first at clean'
  have same : ppCookie <+: first ++ (if ended' then [newline] else []) ↔ ppCookie <+: first := by
    refine ⟨fun starts => ?_, fun starts => starts.trans (List.prefix_append _ _)⟩
    cases ended' with
    | false => simpa using starts
    | true => exact Separated.prefix_of_clean (by decide) starts
  simp only [same]
  split
  · rename_i starts
    have enough : 4 ≤ first.length := starts.length_le
    have cleanRest : newline ∉ first.drop 4 := fun member => clean' (List.mem_of_mem_drop member)
    rw [List.drop_append_of_le_length enough]
    cases ended' with
    | false => rw [if_neg (by decide), List.append_nil, Separated.cut_of_not_mem cleanRest]; rfl
    | true => rw [if_pos rfl, Separated.cut_append_cons cleanRest]; rfl
  · rfl

theorem lineLetters_page (first : (Separated.cut newline page).1 = line) (ended : Bool) :
    lineLetters (cString (line ++ if ended then [newline] else [])) = pagePreprocessors page := by
  rw [lineLetters_line (first ▸ Separated.cut_fst_clean newline page), pagePreprocessors, first]

section Loop

variable {previousLen k : Nat} (grows : PeeksGrow stream) (inserted : ∀ text ∈ texts, InsertedPrefix text)
  (whole : stream.content = texts.flatten ++ page)

include whole inserted in
/-- What is visible behind the prefixes is the start of the page. -/
theorem visible_page (found : skipPrefixes texts.length (stream.content.take len) = some scan) :
    page = scan ++ stream.content.drop len := by
  have all := skipPrefixes_append found (stream.content.drop len)
  rw [List.take_append_drop, whole, skipPrefixes_inserted inserted, Option.some.injEq] at all
  rw [all, whole]

include whole inserted in
/-- The first line that is seen to its end is that of the page. -/
theorem pagePreprocessors_line {rest : Bytes}
    (found : skipPrefixes texts.length (stream.content.take len) = some scan)
    (ended : Separated.cut newline scan = (line, some rest)) :
    lineLetters (cString (line ++ [newline])) = pagePreprocessors page := by
  have first : (Separated.cut newline page).1 = line := by
    rw [visible_page inserted whole found, Separated.cut_found_append ended]
  exact lineLetters_page first true

include whole inserted in
/-- A line without an end is the first of the page if all of the stream is seen. -/
theorem pagePreprocessors_last (found : skipPrefixes texts.length (stream.content.take len) = some scan)
    (unended : Separated.cut newline scan = (line, none)) (all : len = stream.content.length) :
    lineLetters (cString scan) = pagePreprocessors page := by
  have start := visible_page inserted whole found
  rw [all, List.drop_length, List.append_nil] at start
  have shown := Separated.cut_join newline scan
  rw [unended, Option.elim_none, List.append_nil] at shown
  have first : (Separated.cut newline page).1 = scan := by rw [start, unended, shown]
  have letters := lineLetters_page first false
  rwa [if_neg (by decide), List.append_nil] at letters

include grows whole in
/-- Nothing is visible of an empty stream only. -/
theorem pagePreprocessors_empty (nothing : visibleBefore stream (i + 1) = 0) : pagePreprocessors page = none := by
  have empty : stream.content.length = 0 := by
    rcases grows.grows i with more | all
    · omega
    · rw [← all, nothing]
  rw [List.length_eq_zero_iff, whole, List.append_eq_nil_iff] at empty
  rw [empty.2]
  decide

include grows inserted whole

/-- A turn returns the letters of the page, or has not seen the end of the prefixes because
there is more to see, or has not seen the end of the line. -/
theorem preprocessorsTurn_cases (before : previousLen ≤ visibleBefore stream i) :
    preprocessorsTurn stream texts.length (i, previousLen) = .inl (pagePreprocessors page) ∨
    (preprocessorsTurn stream texts.length (i, previousLen) = .inr (i + 1, previousLen) ∧
      visibleBefore stream i < visibleBefore stream (i + 1)) ∨
    (preprocessorsTurn stream texts.length (i, previousLen) = .inr (i + 1, visibleBefore stream (i + 1)) ∧
      visibleBefore stream (i + 1) ≠ previousLen) := by
  cases answer : stream.peek i (peekBlock * (i + 1)) with
  | none =>
    have nothing : visibleBefore stream (i + 1) = 0 := by rw [visibleBefore, answer]; rfl
    rw [pagePreprocessors_empty grows whole nothing]
    exact Or.inl (by simp only [preprocessorsTurn, answer])
  | some len =>
    have visible : visibleBefore stream (i + 1) = len := by rw [visibleBefore, answer]; rfl
    by_cases nothing : len = 0
    · rw [pagePreprocessors_empty grows whole (visible.trans nothing)]
      exact Or.inl (by simp only [preprocessorsTurn, answer, if_pos nothing])
    cases found : skipPrefixes texts.length (stream.content.take len) with
    | none =>
      refine Or.inr (Or.inl ⟨by simp only [preprocessorsTurn, answer, if_neg nothing, found], ?_⟩)
      refine (grows.grows i).resolve_right fun all => ?_
      rw [← visible, all, List.take_length, whole, skipPrefixes_inserted inserted] at found
      cases found
    | some scan =>
      cases ended : Separated.cut newline scan with
      | mk line rest =>
        cases rest with
        | some rest =>
          refine Or.inl ?_
          simp only [preprocessorsTurn, answer, if_neg nothing, found, ended]
          exact congrArg Sum.inl (pagePreprocessors_line inserted whole found ended)
        | none =>
          by_cases same : len = previousLen
          · -- nothing more has become visible, so all of the stream is
            have all : len = stream.content.length := by
              rcases grows.grows i with more | all
              · omega
              · rw [← visible, all]
            have letters := pagePreprocessors_last inserted whole found ended all
            exact Or.inl (by simp only [preprocessorsTurn, answer, if_neg nothing, found, ended, if_pos same, letters])
          · refine Or.inr (Or.inr ⟨?_, by rwa [visible]⟩)
            simp only [preprocessorsTurn, answer, if_neg nothing, found, ended, if_neg same, visible]

/-- When all of the stream has been seen, the end of it is recognised. -/
theorem preprocessorsTurn_last (all : visibleBefore stream i = stream.content.length) :
    preprocessorsTurn stream texts.length (i, visibleBefore stream i) = .inl (pagePreprocessors page) := by
  have bound := grows.bound (i + 1)
  rcases preprocessorsTurn_cases grows inserted whole (Nat.le_refl (visibleBefore stream i)) with
    ends | ⟨_, more⟩ | ⟨_, fresh⟩
  · exact ends
  · omega
  · have next := grows.grows i
    omega

/-- From every state that the loop can be in it ends, after at most one turn for each byte
that has not been seen and two more. -/
theorem preprocessorsLoop_ends (before : previousLen ≤ visibleBefore stream i) : ∃ turns,
    turns ≤ stream.content.length - visibleBefore stream i + 2 ∧
      Loop.run (preprocessorsTurn stream texts.length) turns (i, previousLen) = some (pagePreprocessors page) := by
  generalize unseen : stream.content.length - visibleBefore stream i = k
  induction k using Nat.strong_induction_on generalizing i previousLen with
  | _ k ih =>
    have bound := grows.bound (i + 1)
    rcases preprocessorsTurn_cases grows inserted whole before with ends | ⟨turn, more⟩ | ⟨turn, _⟩
    · exact ⟨1, by omega, Loop.run_ends ends 0⟩
    · obtain ⟨turns, few, run⟩ := ih _ (by omega) (before.trans more.le) rfl
      exact ⟨turns + 1, by omega, by rw [Loop.run_turn turn, run]⟩
    · rcases grows.grows i with more | all
      · obtain ⟨turns, few, run⟩ := ih _ (by omega) (Nat.le_refl (visibleBefore stream (i + 1))) rfl
        exact ⟨turns + 1, by omega, by rw [Loop.run_turn turn, run]⟩
      · refine ⟨2, by omega, ?_⟩
        rw [Loop.run_turn turn, Loop.run_ends (preprocessorsTurn_last grows inserted whole all)]

end Loop

/-- The function ends, and returns the letters on the page's own first line. -/
theorem getPreprocessorsFromFile_page (texts : List Bytes) (page : Bytes) (peek : Nat → Nat → Option Nat)
    (inserted : ∀ text ∈ texts, InsertedPrefix text) (grows : PeeksGrow ⟨texts.flatten ++ page, peek⟩) :
    ∃ turns, turns ≤ (texts.flatten ++ page).length + 2 ∧
      getPreprocessorsFromFile (some ⟨texts.flatten ++ page, peek⟩) texts.length turns =
        some (pagePreprocessors page) :=
  preprocessorsLoop_ends (i := 0) grows inserted rfl (Nat.le_refl 0)

/-- What a decompressor gives to see from where it stands. -/
def Decompress.peekStream (d : Decompress) : PeekStream := ⟨d.remaining, fun _ len => some (decompressPeek d len).length⟩

@[simp] theorem Decompress.peekStream_content (d : Decompress) : d.peekStream.content = d.remaining := rfl

theorem Decompress.peekStream_visible (d : Decompress) (i : Nat) :
    visibleBefore d.peekStream i = min (peekBlock * i) d.remaining.length := by
  cases i with
  | zero => simp [visibleBefore]
  | succ i => simp [visibleBefore, peekStream, decompressPeek]

/-- Both back ends of `decompress_peek` answer requests that grow in this way. -/
theorem Decompress.peekStream_grow (d : Decompress) : PeeksGrow d.peekStream where
  request i := by
    rw [peekStream_visible]
    exact Nat.min_le_left _ _
  bound i := by
    rw [peekStream_visible]
    exact Nat.min_le_right _ _
  grows i := by
    rw [peekStream_visible, peekStream_visible, peekStream_content, peekBlock]
    omega

/-- What `disable_hyphenation` prints. -/
def disableHyphenation : Bytes := ascii ".nh\n.de hy\n..\n.lf 1\n"

theorem getPreprocessorsFromFile_page_tbl :
    (∀ text ∈ [disableHyphenation], InsertedPrefix text) ∧
    ∃ peek, PeeksGrow ⟨[disableHyphenation].flatten ++ ascii "'\\\" t\n.TH", peek⟩ ∧
      ∃ turns, turns ≤ ([disableHyphenation].flatten ++ ascii "'\\\" t\n.TH").length + 2 ∧
        getPreprocessorsFromFile (some ⟨[disableHyphenation].flatten ++ ascii "'\\\" t\n.TH", peek⟩) 1 turns =
          some (pagePreprocessors (ascii "'\\\" t\n.TH")) := by
  have inserted : ∀ text ∈ [disableHyphenation], InsertedPrefix text := by
    intro text member
    rw [List.mem_singleton.mp member]
    exact ⟨[ascii ".nh", ascii ".de hy", ascii ".."], ascii ".lf 1", by decide, by decide, by decide, by decide,
      by decide⟩
  have grows := (Decompress.start .pipeline ([disableHyphenation].flatten ++ ascii "'\\\" t\n.TH")).peekStream_grow
  exact ⟨inserted, _, grows, getPreprocessorsFromFile_page _ _ _ inserted grows⟩

end ManDb
