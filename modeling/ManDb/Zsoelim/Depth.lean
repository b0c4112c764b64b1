import ManDb.Include
import ManDb.Zsoelim.Runs

namespace ManDb.Zsoelim

open Lexer

/-- What the two programs see of the pages: `openPage` and `findInclude` are those of
`ult_src`, for the page that it was asked for. -/
structure Pages where
  openPage : Bytes → Option Decompress
  findInclude : Bytes → Option Bytes
  openFile : OpenFile

/-- A page that is a single `.so` line. Both programs resolve its argument to the
next page. -/
inductive Link (pages : Pages) (path next : Bytes) : Prop
  | so {include_ name blanks after : Bytes} {page nextPage : Decompress}
      (opens : pages.openPage path = some page)
      (line : page.remaining = ascii ".so" ++ blanks ++ include_ ++ after ++ [newline])
      (isBlanks : ∀ b ∈ blanks ++ after, isBlank b = true)
      (argument : Lexer.Matches (quoted isFileByte) include_) (word : ∀ b ∈ include_, isSpace b = false ∧ b ≠ 0)
      (relative : include_.head? ≠ some slash)
      (found : pages.findInclude include_ = some next) (opensNext : pages.openPage next = some nextPage)
      (sameFile : pages.openFile include_ = some (name, nextPage.remaining))

/-- The text has no `.so` line, leading white space aside. -/
def NoSoLine (text : Bytes) : Prop :=
  ∀ before spaces after, text = before ++ spaces ++ ascii ".so" ++ after →
    (before = [] ∨ before.getLast? = some newline) →
    ∃ b ∈ spaces, isSpace b = false

/-- A chain of so many links, up to a page with no `.so` line. -/
inductive Chain (pages : Pages) : Nat → Bytes → Bytes → Prop
  | last {path : Bytes} {page : Decompress} (opens : pages.openPage path = some page)
      (noSo : NoSoLine page.remaining) : Chain pages 0 path path
  | link {n : Nat} {path next last : Bytes} (first : Link pages path next) (rest : Chain pages n next last) :
      Chain pages (n + 1) path last

variable {pages : Pages} {path next last text line buffer : Bytes} {page d : Decompress} {n turns : Nat}
  {trace : List Bytes}

section UltSrc

theorem isBlank_isSpace : ∀ {b : UInt8}, isBlank b = true → isSpace b = true := @(forall_byte (by decide))

/-- The line of a link, as `test_for_include` reads it. -/
theorem testForInclude_so {blanks include_ after : Bytes} (isBlanks : ∀ b ∈ blanks ++ after, isBlank b = true)
    (nonempty : include_ ≠ []) (word : ∀ b ∈ include_, isSpace b = false) (relative : include_.head? ≠ some slash) :
    testForInclude (ascii ".so" ++ blanks ++ include_ ++ after ++ [newline]) = some include_ := by
  obtain ⟨c, include_, rfl⟩ := List.exists_cons_of_ne_nil nonempty
  have first : isSpace c = false := word c (List.mem_cons_self ..)
  have skips : (blanks ++ (c :: include_ ++ (after ++ [newline]))).dropWhile isSpace =
      c :: include_ ++ (after ++ [newline]) := by
    rw [List.dropWhile_append_of_pos fun b member => isBlank_isSpace (isBlanks b (List.mem_append_left _ member))]
    exact List.dropWhile_cons_of_neg (by simp [first])
  have takes : (c :: include_ ++ (after ++ [newline])).takeWhile (fun b => !isSpace b) = c :: include_ := by
    rw [List.takeWhile_append_of_pos fun b member => by simp [word b member]]
    cases after with
    | nil => simp [isSpace, newline]
    | cons b after =>
      have blank := isBlank_isSpace (isBlanks b (by simp))
      simp [blank]
  have shape : ascii ".so" ++ blanks ++ c :: include_ ++ after ++ [newline] =
      46 :: 115 :: 111 :: (blanks ++ (c :: include_ ++ (after ++ [newline]))) := by simp [ascii]
  have notSlash : c ≠ slash := fun same => relative (by simp [same])
  rw [shape]
  simp only [testForInclude]
  rw [List.dropWhile_cons_of_neg (by decide), if_pos (by rfl)]
  simp only [List.drop_succ_cons, List.drop_zero, skips]
  rw [if_pos (by simpa using notSlash), takes]

/-- On a page that is one line, that is what `find_include_directive` gives. -/
theorem findIncludeDirective_line (isLine : newline ∉ line) (nulFree : 0 ∉ line)
    (noComment : commentStart.isPrefixOf line = false) (long : commentStart.length ≤ line.length)
    (whole : d.remaining = line ++ [newline]) : findIncludeDirective d = line ++ [newline] := by
  have clean : 0 ∉ line ++ [newline] := by simpa [newline] using nulFree
  have read : decompressReadline d = (some (line ++ [newline]), d.skip (line ++ [newline]).length) := by
    unfold decompressReadline
    rw [whole, lineAt, Separated.cut_append_cons isLine]
    simp only [lineCache_nulFree clean]
  have other : commentStart.isPrefixOf (line ++ [newline]) = false := by
    rw [Bool.eq_false_iff, ne_eq, List.isPrefixOf_iff_prefix] at noComment ⊢
    exact fun starts => noComment (List.prefix_of_prefix_length_le starts (List.prefix_append ..) long)
  rw [findIncludeDirective, skipComments, read]
  simp only [other, Bool.false_eq_true, if_false, Option.map_some, Option.getD_some]
  exact cString_nulFree clean

/-- The line that `find_include_directive` gives stands at the start of a line. -/
theorem skipComments_line (found : skipComments turns d = some buffer) :
    ∃ before line after, d.remaining = before ++ line ++ after ∧ (before = [] ∨ before.getLast? = some newline) ∧
      buffer <+: line := by
  induction turns generalizing d with
  | zero => cases found
  | succ turns ih =>
    rw [skipComments, decompressReadline] at found
    cases shape : lineAt d.tag d.remaining with
    | none => simp [shape] at found
    | some line =>
      obtain ⟨rest, whole, _⟩ := lineAt_mem shape
      simp only [shape] at found
      split at found
      · obtain ⟨before, next, after, inRest, starts, begins⟩ := ih found
        rw [skip_remaining, whole, List.drop_left] at inRest
        rcases lineAt_ends shape whole with ended | none
        · refine ⟨line ++ before, next, after, by rw [whole, inRest]; simp, Or.inr ?_, begins⟩
          rcases starts with rfl | last
          · simpa using ended
          · rw [List.getLast?_append, last]
            rfl
        · rw [none] at inRest
          have empty : before = [] ∧ next = [] ∧ after = [] := by simpa [List.append_assoc] using inRest.symm
          obtain ⟨rfl, rfl, rfl⟩ := empty
          exact ⟨[], [], d.remaining, rfl, Or.inl rfl, begins⟩
      · cases found
        refine ⟨[], line, rest, whole, Or.inl rfl, ?_⟩
        cases d.tag with
        | pipeline => exact List.prefix_rfl
        | inprocess => exact List.takeWhile_prefix _

theorem testForInclude_noSoLine (noSo : NoSoLine d.remaining) : testForInclude (findIncludeDirective d) = none := by
  cases found : skipComments (d.remaining.length + 1) d with
  | none =>
    rw [findIncludeDirective, found]
    decide
  | some buffer =>
    rw [findIncludeDirective, found]
    simp only [Option.map_some, Option.getD_some]
    obtain ⟨before, line, after, whole, starts, begins⟩ := skipComments_line found
    have inLine : cString buffer <+: line := (List.takeWhile_prefix _).trans begins
    have split : (cString buffer).takeWhile isSpace ++ (cString buffer).dropWhile isSpace = cString buffer :=
      List.takeWhile_append_dropWhile
    simp only [testForInclude]
    refine if_neg fun isSo => ?_
    obtain ⟨rest, so⟩ := List.isPrefixOf_iff_prefix.mp isSo
    obtain ⟨more, line_eq⟩ := inLine
    rw [← split, ← so] at line_eq
    obtain ⟨b, member, notSpace⟩ := noSo before ((cString buffer).takeWhile isSpace) (rest ++ more ++ after)
      (by rw [whole, ← line_eq]; simp) starts
    have space := List.mem_takeWhile_imp member
    rw [space] at notSpace
    cases notSpace

/-- The page that a link gives to `ult_src`. -/
theorem Link.followed (link : Link pages path next) :
    followSoLinks pages.openPage pages.findInclude (turns + 1) path trace =
      followSoLinks pages.openPage pages.findInclude turns next (trace ++ [next]) := by
  cases link with
  | @so include_ name blanks after page nextPage opens whole isBlanks argument word relative found _ _ =>
    obtain ⟨c, rest, shape, _⟩ := fileName_head argument
    have noSpace : ∀ b ∈ include_, isSpace b = false := fun b member => (word b member).1
    have blankLine : ∀ b ∈ blanks ++ after, b ≠ newline ∧ b ≠ 0 := by
      intro b member
      have blank := isBlanks b member
      constructor <;> (rintro rfl; exact absurd blank (by decide))
    have clean : ∀ c, c = newline ∨ c = 0 → c ∉ ascii ".so" ++ blanks ++ include_ ++ after := by
      intro c special member
      simp only [List.mem_append] at member
      rcases member with ((so | before) | inName) | behind
      · rcases special with rfl | rfl <;> exact absurd so (by decide)
      · have apart := blankLine c (List.mem_append_left _ before)
        rcases special with same | same
        · exact apart.1 same
        · exact apart.2 same
      · have apart := word c inName
        rcases special with rfl | same
        · exact absurd apart.1 (by decide)
        · exact apart.2 same
      · have apart := blankLine c (List.mem_append_right _ behind)
        rcases special with same | same
        · exact apart.1 same
        · exact apart.2 same
    have directive := findIncludeDirective_line (clean newline (Or.inl rfl)) (clean 0 (Or.inr rfl)) rfl
      (by simp [commentStart, ascii]) whole
    have tested := testForInclude_so isBlanks (by simp [shape]) noSpace relative
    rw [followSoLinks, opens]
    simp only [directive, tested, found]

/-- `ult_src` looks at one page in each turn. -/
theorem followSoLinks_chain (chain : Chain pages n path last) :
    (followSoLinks pages.openPage pages.findInclude turns path trace).map UltValue.path =
      if n < turns then some last else none := by
  induction chain generalizing turns trace with
  | last opens noSo =>
    cases turns with
    | zero => rfl
    | succ turns =>
      rw [followSoLinks, opens]
      simp [testForInclude_noSoLine noSo]
  | link first _ ih =>
    cases turns with
    | zero => rfl
    | succ turns =>
      rw [first.followed, ih]
      simp

/-- It gives up on links that do not end. -/
theorem followSoLinks_endless {file : Nat → Bytes} (links : ∀ i, Link pages (file i) (file (i + 1))) (i : Nat) :
    followSoLinks pages.openPage pages.findInclude turns (file i) trace = none := by
  induction turns generalizing i trace with
  | zero => rfl
  | succ turns ih => rw [(links i).followed, ih]

end UltSrc

section Scanning

variable {openFile : OpenFile} {s s' s'' : State} {condition : Condition} {b : Buffer}

/-- No `.so` request is read from here on. -/
def NoSoAhead (b : Buffer) : Prop :=
  (b.atBol = true → ¬ascii ".so" <+: b.rest) ∧
    ∀ before after, b.rest = before ++ newline :: after → ¬ascii ".so" <+: after

theorem NoSoAhead.drop (ahead : NoSoAhead b) (n : Nat) :
    NoSoAhead ⟨b.rest.drop n, (b.rest.take n).getLast? == some newline⟩ := by
  have whole : b.rest.take n ++ b.rest.drop n = b.rest := List.take_append_drop ..
  constructor
  · intro bol
    obtain ⟨before, ends⟩ := List.getLast?_eq_some_iff.mp (beq_iff_eq.mp bol)
    refine ahead.2 before (b.rest.drop n) ?_
    rw [ends] at whole
    simpa using whole.symm
  · intro before after shape
    change b.rest.drop n = before ++ newline :: after at shape
    refine ahead.2 (b.rest.take n ++ before) after ?_
    rw [shape] at whole
    simpa using whole.symm

theorem so_rule {rule : Rule UInt8 Condition Action} (member : rule ∈ rules) (isSo : rule.action = .so) :
    rule.atBol = true ∧ rule.pattern = dotted "so" ++ [.star isBlank] := by
  revert rule
  simp [rules]

theorem soFile_rule {rule : Rule UInt8 Condition Action} (member : rule ∈ rules) (isFile : rule.action = .soFile) :
    rule.conditions = [.so] := by
  revert rule
  simp [rules]

theorem so_matches (matches_ : Lexer.Matches (dotted "so" ++ [.star isBlank]) text) : ascii ".so" <+: text := by
  cases matches_ with
  | one dot matches_ =>
    cases matches_ with
    | one s matches_ =>
      cases matches_ with
      | one o _ =>
        obtain rfl := beq_iff_eq.mp dot
        obtain rfl := beq_iff_eq.mp s
        obtain rfl := beq_iff_eq.mp o
        exact List.prefix_append _ _

theorem token_notSo (ahead : NoSoAhead b) (notSo : condition ≠ .so) :
    (token condition b).1 ≠ .so ∧ (token condition b).1 ≠ .soFile := by
  cases taken : token condition b with
  | mk action n =>
  rcases token_rule taken with ⟨rfl, _⟩ | ⟨rule, member, applies, rfl, found⟩
  · exact ⟨by simp, by simp⟩
  · constructor
    · intro isSo
      obtain ⟨bol, pattern⟩ := so_rule member isSo
      rw [pattern] at found
      exact ahead.1 (applies.2 bol) ((so_matches (longest_matches found)).trans (List.take_prefix ..))
    · intro isFile
      have inSo := applies.1
      rw [soFile_rule member isFile, List.mem_singleton] at inSo
      exact notSo inSo

/-- The rest of a file with no `.so` line is read to its end. -/
theorem scanned (ahead : NoSoAhead s.buffer) (inOther : s.condition ≠ .so) :
    ∃ s', Reaches openFile s s' ∧ s'.soStackPtr = s.soStackPtr ∧ s'.soStack = s.soStack ∧ s'.buffer.rest = [] := by
  generalize long : s.buffer.rest.length = n
  induction n using Nat.strong_induction_on generalizing s with
  | _ n ih =>
    by_cases empty : s.buffer.rest = []
    · exact ⟨s, .refl s, rfl, rfl, empty⟩
    · obtain ⟨noSo, noFile⟩ := token_notSo ahead inOther
      have positive := @token_positive s.condition s.buffer empty
      have nonempty : 0 < s.buffer.rest.length := List.length_pos_of_ne_nil empty
      cases taken : token s.condition s.buffer with
      | mk action k =>
        rw [taken] at noSo noFile positive
        obtain ⟨s', acts, does⟩ :=
          @act_acts openFile
            { s with buffer := ⟨s.buffer.rest.drop k, (s.buffer.rest.take k).getLast? == some newline⟩ }
            action (s.buffer.rest.take k) noFile
        have once : step openFile s = .next s' := by
          unfold step
          rw [if_neg empty, taken]
          exact acts
        have shorter : s'.buffer.rest.length < n := by
          rw [does.buffer, List.length_drop]
          change 0 < k at positive
          omega
        have other : s'.condition ≠ .so := by
          rw [does.condition]
          exact conditionAfter_notSo noSo inOther
        obtain ⟨s'', reaches, ptr, stack, ends⟩ := ih _ shorter (by rw [does.buffer]; exact ahead.drop k) other rfl
        exact ⟨s'', .step once reaches, ptr.trans does.ptr, stack.trans does.stack, ends⟩

/-- A link opens the next page on top of its own. -/
theorem Link.opened (link : Link pages path next) (opens : pages.openPage path = some page)
    (starts : s.buffer = ⟨page.remaining, true⟩) (initial : s.condition = .initial) :
    (s.soStackPtr = maxSoDepth - 1 → ∃ name line, Ends pages.openFile s (.tooDeep name line)) ∧
      (s.soStackPtr ≠ maxSoDepth - 1 → ∃ nextPage after s', pages.openPage next = some nextPage ∧
        (∀ b ∈ after, isBlank b = true) ∧ Reaches pages.openFile s s' ∧ s'.soStackPtr = s.soStackPtr + 1 ∧
        s'.soStack = Function.update s.soStack s.soStackPtr ⟨after ++ [newline], false⟩ ∧
        s'.buffer = ⟨nextPage.remaining, true⟩ ∧ s'.condition = .initial) := by
  cases link with
  | @so include_ name blanks after firstPage nextPage opensFirst whole isBlanks argument word _ _
      opensNext sameFile =>
    obtain rfl : firstPage = page := Option.some.inj (opensFirst.symm.trans opens)
    have blanksOnly : ∀ b ∈ blanks, isBlank b = true := fun b member => isBlanks b (List.mem_append_left _ member)
    have afterOnly : ∀ b ∈ after, isBlank b = true := fun b member => isBlanks b (List.mem_append_right _ member)
    have nulFree : 0 ∉ include_ := fun member => (word 0 member).2 rfl
    obtain ⟨s₁, first, second⟩ := @soRequest pages.openFile s blanks include_ (after ++ [newline]) initial
      (by rw [starts, whole]; simp) blanksOnly argument (blanks_stop afterOnly isFileByte_apart)
      (blanks_stop afterOnly isQuote_apart)
    rw [cString_nulFree nulFree, soFile] at second
    constructor
    · intro full
      rw [if_pos full] at second
      exact ⟨_, _, (Reaches.step first (.refl s₁)).ends (.of_step (by simp) second)⟩
    · intro room
      rw [if_neg room] at second
      simp only [sameFile] at second
      exact ⟨nextPage, after, _, opensNext, afterOnly, .step first (.step second (.refl _)), rfl, rfl, rfl, rfl⟩

theorem NoSoLine.ahead (noSo : NoSoLine text) : NoSoAhead ⟨text, true⟩ := by
  constructor
  · rintro _ ⟨after, shape⟩
    obtain ⟨b, member, _⟩ := noSo [] [] after shape.symm (Or.inl rfl)
    cases member
  · rintro before after shape ⟨more, so⟩
    obtain ⟨b, member, _⟩ := noSo (before ++ [newline]) [] more (by rw [← so] at shape; simpa using shape)
      (Or.inr (by simp))
    cases member

/-- A chain that fits is read to the end of its first page. -/
theorem Chain.read (chain : Chain pages n path last) (opens : pages.openPage path = some page)
    (starts : s.buffer = ⟨page.remaining, true⟩) (initial : s.condition = .initial)
    (fits : s.soStackPtr + n ≤ maxSoDepth - 1) :
    ∃ s', Reaches pages.openFile s s' ∧ s'.soStackPtr = s.soStackPtr ∧
      (∀ i < s.soStackPtr, s'.soStack i = s.soStack i) ∧ s'.buffer.rest = [] := by
  induction chain generalizing s page with
  | last opensLast noSo =>
    obtain rfl := Option.some.inj (opensLast.symm.trans opens)
    obtain ⟨s', reaches, ptr, stack, ends⟩ :=
      @scanned pages.openFile s (by rw [starts]; exact noSo.ahead) (by simp [initial])
    exact ⟨s', reaches, ptr, fun i _ => by rw [stack], ends⟩
  | link first _ ih =>
    obtain ⟨nextPage, after, s₁, opensNext, isBlanks, reaches, ptr, stack, starts₁, initial₁⟩ :=
      (first.opened opens starts initial).2 (by omega)
    obtain ⟨s₂, reaches₁, ptr₁, stack₁, ends⟩ := ih opensNext starts₁ initial₁ (by omega)
    have saved : s₂.soStack (s₂.soStackPtr - 1) = ⟨after ++ newline :: [], false⟩ := by
      rw [stack₁ _ (by omega), stack, show s₂.soStackPtr - 1 = s.soStackPtr by omega, Function.update_self]
    refine ⟨_, (reaches.trans reaches₁).trans (resumes ends (by omega) saved isBlanks), ?_, fun i below => ?_, rfl⟩
    · change s₂.soStackPtr - 1 = s.soStackPtr
      omega
    · change s₂.soStack i = s.soStack i
      rw [stack₁ i (by omega), stack, Function.update_of_ne (by omega)]

/-- A chain that does not fit ends in an error. -/
theorem Chain.deep (chain : Chain pages n path last) (opens : pages.openPage path = some page)
    (starts : s.buffer = ⟨page.remaining, true⟩) (initial : s.condition = .initial)
    (within : s.soStackPtr ≤ maxSoDepth - 1) (deep : maxSoDepth - 1 < s.soStackPtr + n) :
    ∃ name line, Ends pages.openFile s (.tooDeep name line) := by
  induction chain generalizing s page with
  | last => omega
  | link first _ ih =>
    by_cases full : s.soStackPtr = maxSoDepth - 1
    · exact (first.opened opens starts initial).1 full
    · obtain ⟨nextPage, after, s₁, opensNext, _, reaches, ptr, _, starts₁, initial₁⟩ :=
        (first.opened opens starts initial).2 full
      obtain ⟨name, line, ends⟩ := ih opensNext starts₁ initial₁ (by omega) (by omega)
      exact ⟨name, line, reaches.ends ends⟩

/-- So do links that do not end. -/
theorem endless_deep {file : Nat → Bytes} (links : ∀ i, Link pages (file i) (file (i + 1))) {i : Nat}
    (opens : pages.openPage (file i) = some page) (starts : s.buffer = ⟨page.remaining, true⟩)
    (initial : s.condition = .initial) (within : s.soStackPtr ≤ maxSoDepth - 1) :
    ∃ name line, Ends pages.openFile s (.tooDeep name line) := by
  generalize room : maxSoDepth - 1 - s.soStackPtr = k
  induction k generalizing s page i with
  | zero => exact ((links i).opened opens starts initial).1 (by omega)
  | succ k ih =>
    obtain ⟨nextPage, after, s₁, opensNext, _, reaches, ptr, _, starts₁, initial₁⟩ :=
      ((links i).opened opens starts initial).2 (by omega)
    obtain ⟨name, line, ends⟩ := ih opensNext starts₁ initial₁ (by omega) (by omega)
    exact ⟨name, line, reaches.ends ends⟩

theorem start_link (link : Link pages path next) (opens : pages.openPage path = some page) {name : Bytes} :
    (parseFileStart page name).buffer = ⟨page.remaining, true⟩ := by
  cases link with
  | @so include_ _ blanks after firstPage nextPage opensFirst whole _ _ _ _ _ _ _ =>
    obtain rfl : firstPage = page := Option.some.inj (opensFirst.symm.trans opens)
    obtain ⟨rest, split, _⟩ := firstLine_split firstPage
    have shape : firstLine firstPage ++ rest = 46 :: 115 :: 111 :: (blanks ++ include_ ++ after ++ [newline]) := by
      rw [← split, whole]
      simp [ascii]
    have noCookie : skipsLine (firstLine firstPage) = false := by
      rw [skipsLine, Bool.or_eq_false_iff]
      constructor <;> refine Bool.eq_false_iff.mpr fun starts => ?_
      · obtain ⟨more, cookie⟩ := List.isPrefixOf_iff_prefix.mp starts
        rw [← cookie] at shape
        exact absurd (List.cons.inj shape).1 (by decide)
      · obtain ⟨more, comment⟩ := List.isPrefixOf_iff_prefix.mp starts
        rw [← comment] at shape
        exact absurd (List.cons.inj (List.cons.inj shape).2).1 (by decide)
    rw [parseFileStart_buffer, noCookie]
    rfl

theorem start_noSo (noSo : NoSoLine page.remaining) {name : Bytes} : NoSoAhead (parseFileStart page name).buffer := by
  rw [parseFileStart_buffer]
  split
  · obtain ⟨rest, whole, ends⟩ := firstLine_split page
    rw [whole, List.drop_left]
    have ahead := noSo.ahead
    refine ⟨fun _ so => ?_, fun before after shape => ahead.2 (firstLine page ++ before) after ?_⟩
    · rcases ends with none | last | none | nul
      · exact ahead.1 rfl (by simpa [whole, none] using so)
      · obtain ⟨before, last⟩ := List.getLast?_eq_some_iff.mp last
        exact ahead.2 before rest (by rw [whole, last]; simp) so
      · rw [none] at so
        exact absurd so (by decide)
      · obtain ⟨more, rfl⟩ := so
        simp [ascii] at nul
    · change rest = before ++ newline :: after at shape
      rw [whole, shape]
      simp
  · exact noSo.ahead

/-- A whole chain that zsoelim is given. -/
theorem Chain.processed (chain : Chain pages n path last) (opens : pages.openPage path = some page) (name : Bytes) :
    (n ≤ maxSoDepth - 1 → ∃ s, Ends pages.openFile (parseFileStart page name) (.done s)) ∧
      (maxSoDepth - 1 < n → ∃ file line, Ends pages.openFile (parseFileStart page name) (.tooDeep file line)) := by
  have reads : n ≤ maxSoDepth - 1 → ∃ s, Reaches pages.openFile (parseFileStart page name) s ∧ s.soStackPtr = 0 ∧
      s.buffer.rest = [] := by
    intro fits
    cases chain with
    | last opensLast noSo =>
      obtain rfl := Option.some.inj (opensLast.symm.trans opens)
      obtain ⟨s, reaches, ptr, _, ends⟩ := scanned (start_noSo noSo) (by simp [parseFileStart])
      exact ⟨s, reaches, ptr, ends⟩
    | link first rest =>
      obtain ⟨s, reaches, ptr, _, ends⟩ := (Chain.link first rest).read opens (start_link first opens) rfl
        (by simpa [parseFileStart] using fits)
      exact ⟨s, reaches, ptr, ends⟩
  constructor
  · intro fits
    obtain ⟨s, reaches, top, ended⟩ := reads fits
    exact ⟨_, reaches.ends (.of_step (by simp) ((step_end ended).trans (endOfFile_top top)))⟩
  · intro deep
    cases chain with
    | last => omega
    | link first rest =>
      exact (Chain.link first rest).deep opens (start_link first opens) rfl (Nat.zero_le _)
        (by simpa [parseFileStart] using deep)

end Scanning

section Stack

variable {openFile : OpenFile} {s s₁ s₂ s₃ : State} {ptr : Nat}

theorem reaches_within (reaches : Reaches openFile s s₁) (within : s.soStackPtr ≤ maxSoDepth - 1) :
    s₁.soStackPtr ≤ maxSoDepth - 1 := by
  induction reaches with
  | refl => exact within
  | tail _ once ih =>
    cases step_moves once with
    | stay ptr _ => omega
    | push ptr room _ _ => omega
    | pop ptr _ _ _ _ _ => omega

/-- The scanner gets from one state to another, above a file on the stack. -/
def ReachesAbove (openFile : OpenFile) (ptr : Nat) : State → State → Prop :=
  Relation.ReflTransGen fun s s' => step openFile s = .next s' ∧ ptr < s'.soStackPtr

/-- What is kept of the files up to some level of the stack. -/
def Kept (ptr : Nat) (s s' : State) : Prop := ∀ i ≤ ptr, s'.soName i = s.soName i ∧ s'.soLine i = s.soLine i

theorem Moves.kept (moves : Moves s s₁) (above : ptr < s.soStackPtr) (above₁ : ptr < s₁.soStackPtr) :
    Kept ptr s s₁ := by
  intro i le
  cases moves with
  | stay _ below => exact ⟨(below i (by omega)).1, (below i (by omega)).2.1⟩
  | push _ _ below _ => exact below i (by omega)
  | pop _ name line _ _ _ => exact ⟨name i (by omega), line i (by omega)⟩

theorem reachesAbove_kept (reaches : ReachesAbove openFile ptr s s₁) (above : ptr < s.soStackPtr) :
    ptr < s₁.soStackPtr ∧ Kept ptr s s₁ := by
  induction reaches with
  | refl => exact ⟨above, fun _ _ => ⟨rfl, rfl⟩⟩
  | tail _ once ih =>
    refine ⟨once.2, fun i le => ?_⟩
    obtain ⟨name, line⟩ := (step_moves once.1).kept ih.1 once.2 i le
    obtain ⟨name', line'⟩ := ih.2 i le
    exact ⟨name.trans name', line.trans line'⟩

/-- On return from an included file its includer goes on where it was. -/
theorem returns_line (pushes : step openFile s = .next s₁) (deeper : s₁.soStackPtr = s.soStackPtr + 1)
    (reaches : ReachesAbove openFile s.soStackPtr s₁ s₂) (pops : step openFile s₂ = .next s₃)
    (back : s₃.soStackPtr = s.soStackPtr) : s₃.name = s.name ∧ s₃.line = s.line + 1 := by
  have pushed : Kept s.soStackPtr s s₁ := by
    cases step_moves pushes with
    | stay ptr _ => omega
    | push _ _ below _ => exact below
    | pop ptr _ _ _ _ _ => omega
  obtain ⟨above, kept⟩ := reachesAbove_kept reaches (by omega)
  obtain ⟨name₁, line₁⟩ := pushed _ (Nat.le_refl _)
  obtain ⟨name₂, line₂⟩ := kept _ (Nat.le_refl _)
  cases step_moves pops with
  | stay ptr _ => omega
  | push ptr _ _ _ => omega
  | pop ptr name _ counted _ _ =>
    rw [back] at counted
    refine ⟨?_, ?_⟩
    · rw [State.name, State.name, back, name _ above, name₂, name₁]
    · rw [State.line, State.line, back, counted, line₂, line₁]

/-- A failed request leaves both as they were. -/
theorem fails_line (once : step openFile s = .next s₁) (nonempty : s.buffer.rest ≠ [])
    (request : (token s.condition s.buffer).1 = .soFile)
    (fails : openFile (cString (s.buffer.rest.take (token s.condition s.buffer).2)) = none) :
    s₁.soStackPtr = s.soStackPtr ∧ s₁.name = s.name ∧ s₁.line = s.line := by
  cases taken : token s.condition s.buffer with
  | mk action n =>
    rw [taken] at request fails
    change action = .soFile at request
    subst request
    rw [step, if_neg nonempty, taken] at once
    have refused := soFile_refuses fails once
    exact ⟨refused.ptr, refused.name, refused.line⟩

end Stack

/-- A page that includes another. -/
def includingPages : Pages where
  openPage path :=
    if path = ascii "a.1" then some (.start .inprocess (ascii ".so man1/b.1" ++ [newline]))
    else some (.start .inprocess (ascii "text" ++ [newline]))
  findInclude _ := some (ascii "b.1")
  openFile _ := some (ascii "b.1", ascii "text" ++ [newline])

theorem includingPages_chain : Chain includingPages 1 (ascii "a.1") (ascii "b.1") := by
  have argument : Lexer.Matches (quoted isFileByte) (ascii "man1/b.1") :=
    matches_unquoted (by decide +kernel) (by decide +kernel)
  have link : Link includingPages (ascii "a.1") (ascii "b.1") :=
    @Link.so _ _ _ (ascii "man1/b.1") (ascii "b.1") (ascii " ") [] _ (.start .inprocess (ascii "text" ++ [newline]))
      rfl rfl (by decide +kernel) argument (by decide +kernel) (by decide +kernel) rfl rfl rfl
  refine .link link (.last rfl ?_)
  intro before spaces after shape _
  have dot : (46 : UInt8) ∈ ascii "text" ++ [newline] := by
    change ascii "text" ++ [newline] = _ at shape
    rw [shape]
    simp [ascii]
  exact absurd dot (by decide +kernel)

end ManDb.Zsoelim
