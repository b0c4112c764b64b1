import ManDb.Lexgrog.Scan

namespace ManDb.Lexgrog

/-- The length of `newname` with a space if one is added. -/
def Scanner.spaced (s : Scanner) : Nat := s.whatis.length + if s.needsSpace then 1 else 0

/-- The length of `newname` that a statement asks for. -/
def Op.needs (text : Bytes) (s : Scanner) : Op → Nat
  | .newlineFound => s.spaced
  | .addStr operand => s.whatis.length + operand.length text
  | .addChar _ => s.whatis.length + 1
  | .addSeparator => s.spaced + 2
  | .addWordn operand => s.spaced + Scanner.trimmedLength (operand.string text) (operand.length text)
  | .addWord string | .mdocText string => s.spaced + Scanner.trimmedLength string string.length
  | .addGlyph operand =>
    s.whatis.length + ((findMacro glyphs ((operand.string text).take (operand.length text))).getD []).length
  | .addPerldoc operand =>
    s.whatis.length + ((findMacro perldocs ((operand.string text).take (operand.length text))).getD []).length
  | _ => 0

/-- The statement begins a start condition: `mdoc_text` does, and `newline_found` outside of fill mode. -/
def Op.switches (s : Scanner) : Op → Bool
  | .begin _ | .mdocText _ => true
  | .newlineFound => !s.fillMode
  | _ => false

namespace Scanner

/-- There is room for a terminator, and nothing has been stored outside of `newname`. -/
structure Within (s : Scanner) : Prop where
  room : s.whatis.length < maxName
  inside : s.storedOutside = false

/-- What is left of an append that has no room: the warning, the start condition that follows, and a
part of the text. -/
structure Cut (s : Scanner) (stop : Start) (bounded unlimited : Scanner) : Prop where
  warned : s.warnings < bounded.warnings
  start : bounded.start = stop
  front : s.whatis <+: bounded.whatis
  text : bounded.whatis <+: unlimited.whatis

/-- What an append that asks for this much makes of a state, for every size of the buffer. -/
structure Grows (s : Scanner) (needs : Nat) (stop : Start) (append : Option Nat → Scanner) : Prop where
  fits : needs < maxName → append (some maxName) = append none
  cuts : maxName ≤ needs → s.Cut stop (append (some maxName)) (append none)
  within : (append (some maxName)).Within

/-- What comes of a state in a buffer without an end. -/
structure Longer (s t : Scanner) : Prop where
  text : s.whatis <+: t.whatis
  calm : t.warnings = s.warnings

end Scanner

namespace Scanner

variable {s t u : Scanner} {needs : Nat} {stop : Start} {append : Option Nat → Scanner}

theorem Longer.refl (s : Scanner) : s.Longer s := ⟨List.prefix_refl _, rfl⟩

theorem Longer.trans (first : s.Longer t) (second : t.Longer u) : s.Longer u :=
  ⟨first.text.trans second.text, second.calm.trans first.calm⟩

theorem Cut.of_longer (longer : s.Longer t) {bounded unlimited : Scanner} (cut : t.Cut stop bounded unlimited) :
    s.Cut stop bounded unlimited :=
  ⟨longer.calm ▸ cut.warned, cut.start, longer.text.trans cut.front, cut.text⟩

/-- An append that has no room either warns once more. -/
theorem Cut.again {bounded unlimited later : Scanner} (cut : s.Cut .forceExit bounded unlimited)
    (longer : unlimited.Longer later) : s.Cut .forceExit bounded.tooBig later :=
  ⟨cut.warned.trans (Nat.lt_succ_self _), rfl, cut.front, cut.text.trans longer.text⟩

theorem Grows.of_longer (longer : s.Longer t) (grows : t.Grows needs stop append) : s.Grows needs stop append where
  fits := grows.fits
  cuts full := (grows.cuts full).of_longer longer
  within := grows.within

theorem longer_store (s : Scanner) (bytes : Bytes) : s.Longer (s.store none bytes) := ⟨List.prefix_append _ _, rfl⟩

theorem longer_addStr (s : Scanner) (string : Bytes) (length : Nat) : s.Longer (s.addStr none string length) :=
  s.longer_store _

theorem longer_addChar (s : Scanner) (c : UInt8) : s.Longer (s.addChar none c) := by
  have unlimited : s.addChar none c =
      if s.waitingForQuote ∧ c = 34 then { s with waitingForQuote := false } else s.store none [c] := rfl
  rw [unlimited]
  split
  · exact ⟨List.prefix_refl _, rfl⟩
  · exact s.longer_store [c]

theorem longer_addSpace (s : Scanner) : s.Longer (if s.needsSpace then s.addChar none space else s) := by
  split
  · exact s.longer_addChar space
  · exact .refl s

theorem longer_addWordn (s : Scanner) (string : Bytes) (length : Nat) : s.Longer (s.addWordn none string length) := by
  unfold addWordn
  dsimp only
  split
  · exact s.longer_addSpace.trans (longer_addStr _ _ _)
  · exact s.longer_addSpace

theorem longer_addMacro (s : Scanner) (macros : List Macro) (string : Bytes) (length : Nat) :
    s.Longer (s.addMacro none macros string length) := by
  unfold addMacro
  split
  · exact s.longer_addStr _ _
  · exact .refl s

theorem longer_newlineFound (s : Scanner) : s.Longer (s.newlineFound none) := by
  have more : s.Longer (if s.needsSpace then
      if s.fillMode then s.addChar none space else (s.addChar none 0x11).begin .manName else s) := by
    split
    · split
      · exact s.longer_addChar space
      · exact ⟨(s.longer_addChar 0x11).text, (s.longer_addChar 0x11).calm⟩
    · exact .refl s
  exact ⟨more.text, more.calm⟩

theorem Within.tooBig (within : s.Within) : s.tooBig.Within := ⟨within.room, within.inside⟩

theorem Within.store (within : s.Within) {bytes : Bytes} (fits : s.whatis.length + bytes.length < maxName) :
    (s.store (some maxName) bytes).Within ∧ s.store (some maxName) bytes = s.store none bytes := by
  have inside : (some maxName).any (· < s.whatis.length + bytes.length) = false := by
    simpa using Nat.le_of_lt fits
  refine ⟨⟨?_, ?_⟩, ?_⟩
  · simpa [Scanner.store] using fits
  · simp [Scanner.store, within.inside, inside]
  · simp [Scanner.store, within.inside, inside]

theorem Within.unchanged (within : s.Within) (stop : Start) : Grows s s.whatis.length stop fun _ => s where
  fits _ := rfl
  cuts full := absurd full (Nat.not_le.mpr within.room)
  within := within

/-- An append that leaves the text as it is where it has no room. -/
theorem Within.grows_tooBig (within : s.Within)
    (fits : needs < maxName → append (some maxName) = append none ∧ (append (some maxName)).Within)
    (warns : maxName ≤ needs → append (some maxName) = s.tooBig) (longer : s.Longer (append none)) :
    Grows s needs .forceExit append where
  fits room := (fits room).1
  cuts full := by
    rw [warns full]
    exact ⟨Nat.lt_succ_self _, rfl, List.prefix_refl _, longer.text⟩
  within := by
    rcases Nat.lt_or_ge needs maxName with room | full
    · exact (fits room).2
    · exact warns full ▸ within.tooBig

theorem Within.addStr (within : s.Within) (string : Bytes) (length : Nat) :
    Grows s (s.whatis.length + length) .forceExit fun limit => s.addStr limit string length := by
  refine within.grows_tooBig (fun room => ?_) (fun full => ?_) (s.longer_addStr string length)
  · have bounded : s.addStr (some maxName) string length = s.store (some maxName) (strncpy string length) :=
      if_neg (by simpa using room)
    have stored := within.store (by rwa [length_strncpy string length])
    rw [bounded]
    exact ⟨stored.2, stored.1⟩
  · exact if_pos (by simpa using full)

theorem Within.addChar (within : s.Within) (c : UInt8) :
    Grows s (s.whatis.length + 1) .forceExit fun limit => s.addChar limit c := by
  refine within.grows_tooBig (fun room => ?_) (fun full => ?_) (s.longer_addChar c)
  · have bounded : s.addChar (some maxName) c =
        if s.waitingForQuote ∧ c = 34 then { s with waitingForQuote := false } else s.store (some maxName) [c] :=
      if_neg (by simpa using room)
    have unlimited : s.addChar none c =
        if s.waitingForQuote ∧ c = 34 then { s with waitingForQuote := false } else s.store none [c] := rfl
    have stored : (s.store (some maxName) [c]).Within ∧ _ := within.store room
    rw [bounded, unlimited]
    split
    · exact ⟨rfl, within.room, within.inside⟩
    · exact ⟨stored.2, stored.1⟩
  · exact if_pos (by simpa using full)

/-- The space before a word. -/
theorem Within.addSpace (within : s.Within) :
    Grows s s.spaced .forceExit fun limit => if s.needsSpace then s.addChar limit space else s := by
  unfold spaced
  cases s.needsSpace with
  | true => exact within.addChar space
  | false => exact within.unchanged _

theorem addChar_space (s : Scanner) : s.addChar none space = s.store none [space] :=
  if_neg fun (both : s.waitingForQuote ∧ space = 34) => absurd both.2 (by decide)

/-- A string with a space before it. Where there is no room for the space there is none for the string. -/
theorem Within.addSpaced (within : s.Within) (string : Bytes) {length : Nat} (nonempty : length ≠ 0) :
    Grows s (s.spaced + length) .forceExit fun limit =>
      (if s.needsSpace then s.addChar limit space else s).addStr limit string length := by
  unfold spaced
  cases s.needsSpace with
  | false => exact within.addStr string length
  | true =>
    simp only [if_true]
    have first := within.addChar space
    have longer := s.longer_addChar space
    have last : (s.addChar none space).whatis.length = s.whatis.length + 1 := by
      rw [addChar_space]
      exact List.length_append
    rcases Nat.lt_or_ge (s.whatis.length + 1) maxName with room | full
    · have same : s.addChar (some maxName) space = s.addChar none space := first.fits room
      have inside : (s.addChar none space).Within := same ▸ first.within
      have rest := (inside.addStr string length).of_longer longer
      rw [last] at rest
      refine ⟨fun fits => ?_, fun full => ?_, ?_⟩
      · rw [same]
        exact rest.fits fits
      · rw [same]
        exact rest.cuts full
      · rw [same]
        exact rest.within
    · have noSpace : s.addChar (some maxName) space = s.tooBig := if_pos (decide_eq_true full)
      have noString : s.tooBig.addStr (some maxName) string length = s.tooBig.tooBig := by
        have more : maxName ≤ s.whatis.length + length := by omega
        exact if_pos (decide_eq_true more)
      refine ⟨fun fits => by omega, fun _ => ?_, ?_⟩
      · have cut := first.cuts full
        rw [noSpace] at cut ⊢
        rw [noString]
        exact cut.again (longer_addStr _ string length)
      · rw [noSpace, noString]
        exact within.tooBig.tooBig

theorem Within.addWordn (within : s.Within) (string : Bytes) (length : Nat) :
    Grows s (s.spaced + trimmedLength string length) .forceExit fun limit => s.addWordn limit string length := by
  by_cases nothing : trimmedLength string length = 0
  · simp only [Scanner.addWordn, nothing, ne_eq, not_true, if_false]
    exact within.addSpace
  · simp only [Scanner.addWordn, nothing, ne_eq, not_false_eq_true, if_true]
    exact within.addSpaced string nothing

theorem Within.addMacro (within : s.Within) (macros : List Macro) (string : Bytes) (length : Nat) :
    Grows s (s.whatis.length + ((findMacro macros (string.take length)).getD []).length) .forceExit
      fun limit => s.addMacro limit macros string length := by
  unfold Scanner.addMacro
  cases findMacro macros (string.take length) with
  | none => exact within.unchanged _
  | some value => exact within.addStr value value.length

/-- A start condition that begins behind an append. -/
theorem Grows.begin (grows : Grows s needs stop append) (start : Start) :
    Grows s needs start fun limit => (append limit).begin start where
  fits room := by rw [grows.fits room]
  cuts full := by
    obtain ⟨warned, _, front, text⟩ := grows.cuts full
    exact ⟨warned, rfl, front, text⟩
  within := ⟨grows.within.room, grows.within.inside⟩

theorem Grows.forgetQuote (grows : Grows s needs stop append) :
    Grows s needs stop fun limit => { append limit with waitingForQuote := false } where
  fits room := by rw [grows.fits room]
  cuts full := by
    obtain ⟨warned, start, front, text⟩ := grows.cuts full
    exact ⟨warned, start, front, text⟩
  within := ⟨grows.within.room, grows.within.inside⟩

theorem Within.newlineFound (within : s.Within) :
    Grows s s.spaced (if s.fillMode then .forceExit else .manName) fun limit => s.newlineFound limit := by
  unfold Scanner.newlineFound
  cases s.fillMode with
  | true => exact within.addSpace.forgetQuote
  | false =>
    refine Grows.forgetQuote ?_
    unfold spaced
    cases s.needsSpace with
    | true => exact (within.addChar 0x11).begin .manName
    | false => exact within.unchanged _

end Scanner

variable {s : Scanner}

/-- What one statement of an action does. Where it has no room and does not switch the start condition
itself, the scanner is forced to exit. -/
theorem runOp_grows (within : s.Within) (text : Bytes) (op : Op) :
    ∃ stop, s.Grows (op.needs text s) stop (fun limit => runOp limit text op s) ∧
      (op.switches s = false → stop = .forceExit) := by
  have noNeed : ¬maxName ≤ 0 := by decide
  cases op with
  | newlineFound =>
    refine ⟨_, within.newlineFound, fun static => ?_⟩
    have fill : s.fillMode = true := by simpa [Op.switches] using static
    rw [fill]
    rfl
  | mdocText string => exact ⟨_, (within.addWordn string string.length).begin .manDesc, nofun⟩
  | addStr operand => exact ⟨_, within.addStr _ _, fun _ => rfl⟩
  | addChar c => exact ⟨_, within.addChar _, fun _ => rfl⟩
  | addSeparator => exact ⟨_, within.addSpaced (ascii "- ") (by decide), fun _ => rfl⟩
  | addWordn operand => exact ⟨_, within.addWordn _ _, fun _ => rfl⟩
  | addWord string => exact ⟨_, within.addWordn string string.length, fun _ => rfl⟩
  | addGlyph operand => exact ⟨_, within.addMacro glyphs _ _, fun _ => rfl⟩
  | addPerldoc operand => exact ⟨_, within.addMacro perldocs _ _, fun _ => rfl⟩
  | terminate =>
    have inside : s.terminate (some maxName) = s.terminate none := by
      have room : ¬maxName ≤ s.whatis.length := Nat.not_le.mpr within.room
      simp [Scanner.terminate, room]
    have same := congrArg Scanner.storedOutside inside
    have outside : (s.terminate (some maxName)).storedOutside = false :=
      same.trans (by simp [Scanner.terminate, within.inside])
    exact ⟨.forceExit, ⟨fun _ => inside, fun full => absurd full noNeed, ⟨within.room, outside⟩⟩, fun _ => rfl⟩
  | begin | yyless | ret | filter | fill | waitForQuote =>
    exact ⟨.forceExit, ⟨fun _ => rfl, fun full => absurd full noNeed, ⟨within.room, within.inside⟩⟩, fun _ => rfl⟩

theorem runOp_longer (s : Scanner) (text : Bytes) (op : Op) : s.Longer (runOp none text op s) := by
  cases op with
  | newlineFound => exact s.longer_newlineFound
  | mdocText string => exact ⟨(s.longer_addWordn string _).text, (s.longer_addWordn string _).calm⟩
  | addStr operand => exact s.longer_addStr _ _
  | addChar c => exact s.longer_addChar _
  | addSeparator => exact s.longer_addSpace.trans (Scanner.longer_addStr _ _ _)
  | addWordn operand => exact s.longer_addWordn _ _
  | addWord string => exact s.longer_addWordn string _
  | addGlyph operand | addPerldoc operand => exact s.longer_addMacro _ _ _
  | begin | yyless | terminate | ret | filter | fill | waitForQuote => exact ⟨List.prefix_refl _, rfl⟩

/-- What a statement of an action keeps in the buffer of the program. -/
theorem runOp_within (within : s.Within) (text : Bytes) (op : Op) : (runOp (some maxName) text op s).Within := by
  obtain ⟨_, grows, _⟩ := runOp_grows within text op
  exact grows.within

end ManDb.Lexgrog
