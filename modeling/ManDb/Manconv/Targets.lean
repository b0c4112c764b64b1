import ManDb.Lib.Encoding
import ManDb.Manconv.OneEncoding
import ManDb.Manconv.Space

namespace ManDb

open Decoding (Decodes)
open Encoding (Encoder Encodes Whole)

/-- A source encoding whose texts are in UTF-8. -/
abbrev TextCharset : Type :=
  { D : Charset // ∀ {xs n t}, D.1.next xs = .char n t → Decodes utf8Decoder t t }

/-- A target other than UTF-8: an encoder that reads UTF-8, character by character. -/
structure Target (S : Type) where
  enc : Encoder S UInt8 UInt8
  fits : enc.Fits bufSize
  reads : ∀ {xs n t}, utf8Decoder.next xs = .char n t → ∃ r, enc.read xs = some (n, r)

/-- A conversion descriptor: to UTF-8, or from there to a target with its shift state. -/
inductive Descriptor (S : Type) where
  | decode (skip : Bool) (D : TextCharset)
  | encode (skip : Bool) (T : Target S) (state : S)

structure TargetCodecs (S : Type) where
  decoders : Bytes → Option TextCharset
  encoders : Bytes → Option (Target S)

variable {S : Type}

/-- An `iconv` with these codecs. With "//IGNORE" illegal input, and text that the
target cannot represent, is skipped and still reported. -/
def targetIconv (codecs : TargetCodecs S) : Iconv (Descriptor S) where
  iconvOpen tocode fromcode :=
    if tocode = utf8Code then (codecs.decoders fromcode).map (.decode false)
    else if tocode = ascii "UTF-8//IGNORE" then (codecs.decoders fromcode).map (.decode true)
    else if fromcode = utf8Code then
      (codecs.encoders tocode).map (fun T => .encode (hasIgnore tocode) T T.enc.initial)
    else none
  iconv
    | .decode skip D, input, room =>
      let o := Decoding.call D.1.1 skip room input
      ⟨o.used, o.text, o.stop.map stopErrno, .decode skip D⟩
    | .encode skip T state, input, room =>
      let o := Encoding.call T.enc skip state room input
      ⟨o.used, o.text, o.stop.map stopErrno, .encode skip T o.state⟩
  flush
    | .decode skip D, _ => ([], .decode skip D)
    | .encode skip T state, _ => (T.enc.reset state, .encode skip T T.enc.initial)
  used_le
    | .decode skip D, input, room => (Decoding.call_spec D.1.1 skip room input).used_le
    | .encode _ _ state, input, room => (Encoding.convert_bounds input.length state room input).1
  out_le
    | .decode skip D, input, room => (Decoding.call_spec D.1.1 skip room input).text_le
    | .encode _ _ state, input, room => (Encoding.convert_bounds input.length state room input).2

/-- The first state of a trial, with standard output. -/
def targetStart (d : Decompress) (last ignore : Bool) (D : TextCharset) (T : Target S) (out : Bytes) :
    TryState (Descriptor S) := tryStart d (.decode last D, some (.encode ignore T T.enc.initial)) out

variable {codecs : TargetCodecs S} {T : Target S} {D : TextCharset} {d : Decompress} {flags : TryFlags}
  {s t : TryState (Descriptor S)} {state state' : S} {out text input pending remaining : Bytes} {used : Nat}

/-- Some text was converted and written, some is still to be converted by the second
stage and some by the first, in this order, and that is all of it. When nothing is
left the target is in its initial shift state. -/
def TextKept (T : Target S) (ignore : Bool) (D : TextCharset) (out text : Bytes) (state : S)
    (output pending remaining : Bytes) : Prop :=
  ∃ converted written rest, Encodes T.enc ignore T.enc.initial converted written state ∧ output = out ++ written ∧
    text = converted ++ pending ++ rest ∧ Decodes D.1.1 remaining rest ∧
    (pending = [] → remaining = [] → state = T.enc.initial)

/-- Nothing was lost and nothing repeated so far. -/
def NothingLost (T : Target S) (ignore : Bool) (D : TextCharset) (out text : Bytes) (s : TryState (Descriptor S)) :
    Prop :=
  ∃ state, s.cd = some (.encode ignore T state) ∧
    TextKept T ignore D out text state s.out s.pending s.decomp.remaining

/-- Trying an encoding converts the text to the target once and in order: nothing is
lost or repeated at any turn, and the loop ends with all of the text converted. -/
structure ConvertsOnce (codecs : TargetCodecs S) (T : Target S) (D : TextCharset) (d : Decompress)
    (code target : Bytes) (last : Bool) (out text : Bytes) : Prop where
  kept : ∀ k s, Loop.Turns (tryTurn (targetIconv codecs) ⟨last, hasIgnore target, none⟩) k
    (targetStart d last (hasIgnore target) D T out) s → NothingLost T (hasIgnore target) D out text s
  emits : ∃ n d' written, d'.remaining = [] ∧
    Encodes T.enc (hasIgnore target) T.enc.initial text written T.enc.initial ∧
    ∀ turns, n ≤ turns → ∀ space, (∀ max, space = some max → Roomy max out (out ++ written)) →
      tryIconv (targetIconv codecs) turns d code target last space out = some (.ok, d', out ++ written)

/-- The second stage goes on at the right place after its call in this state. If the
call stops with some text left, the buffer starts with that text too. If it used up
the last of the text but complained, so that the shift state is not flushed, that is
the initial one. -/
structure GoesOnRight (T : Target S) (ignore : Bool) (s : TryState (Descriptor S)) (used : Nat) (state : S) :
    Prop where
  again : s.utf8.take (s.utf8left - (Encoding.call T.enc ignore state bufSize s.pending).used) =
    s.pending.drop (Encoding.call T.enc ignore state bufSize s.pending).used
  flushed : (Encoding.call T.enc ignore state bufSize s.pending).used = s.utf8left →
    (Encoding.call T.enc ignore state bufSize s.pending).stop ≠ none → (s.decomp.skip used).remaining = [] →
    (Encoding.call T.enc ignore state bufSize s.pending).state = T.enc.initial

/-- The second stage of the next turn, unless that meets an error before, goes on at
the right place. -/
def RightAt (codecs : TargetCodecs S) (T : Target S) (flags : TryFlags) (s : TryState (Descriptor S)) : Prop :=
  ∀ t used state, toUtf8Stage (targetIconv codecs) flags s = some (t, used, none) →
    t.cd = some (.encode flags.ignoreErrors T state) → GoesOnRight T flags.ignoreErrors t used state

/-- Every second stage of the trial goes on at the right place. -/
def AlwaysGoesOnRight (codecs : TargetCodecs S) (T : Target S) (D : TextCharset) (d : Decompress)
    (target : Bytes) (last : Bool) (out : Bytes) : Prop :=
  ∀ k s, Loop.Turns (tryTurn (targetIconv codecs) ⟨last, hasIgnore target, none⟩) k
    (targetStart d last (hasIgnore target) D T out) s → ¬(s.input = [] ∧ s.utf8left = 0) →
    RightAt codecs T ⟨last, hasIgnore target, none⟩ s

theorem whole_utf8 {xs ts : Bytes} (decodes : Decodes utf8Decoder xs ts) : Whole T.enc true xs := by
  induction decodes with
  | nil => exact .nil
  | char found _ ih =>
    obtain ⟨r, read⟩ := T.reads found
    exact .char read (fun _ => rfl) ih

/-- The text of a source encoding is a sequence of characters. -/
theorem whole_text (decodes : Decodes D.1.1 input text) : Whole T.enc true text := by
  induction decodes with
  | nil => exact .nil
  | char found _ ih => exact (whole_utf8 (D.2 found)).append ih

theorem openBoth_target {code target : Bytes} {last : Bool} (other : isUtf8Target target = false)
    (known : codecs.decoders code = some D) (knownTarget : codecs.encoders target = some T) :
    openBoth (targetIconv codecs) code target last =
      some (.decode last D, some (.encode (hasIgnore target) T T.enc.initial)) := by
  have notPlain : target ≠ utf8Code := by
    rintro rfl
    cases other
  have notIgnoring : target ≠ ascii "UTF-8//IGNORE" := by
    rintro rfl
    cases other
  have different : ascii "UTF-8//IGNORE" ≠ utf8Code := by decide
  unfold openBoth
  cases last <;> simp [targetIconv, other, known, knownTarget, notPlain, notIgnoring, different]

end ManDb
