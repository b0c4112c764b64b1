import ManDb.Decompress
import ManDb.Lib.Loop

namespace ManDb

/-- The values of `errno` that `try_iconv` tells apart after a failed `iconv`. Any
other value is handled as `E2BIG` is. -/
inductive Errno where
  | eilseq
  | einval
  | e2big
  deriving DecidableEq, Repr

/-- What one call of `iconv` does: bytes of input used up, output, error if it
returns -1, and the descriptor afterwards. -/
structure IconvResult (σ : Type) where
  used : Nat
  out : Bytes
  errno : Option Errno
  next : σ

/-- The C library's `iconv`, with conversion descriptors in `σ`. `flush` is a call
without input, which returns to the initial shift state. -/
structure Iconv (σ : Type) where
  iconvOpen : (tocode fromcode : Bytes) → Option σ
  iconv : σ → (input : Bytes) → (room : Nat) → IconvResult σ
  flush : σ → (room : Nat) → Bytes × σ
  used_le : ∀ cd input room, (iconv cd input room).used ≤ input.length
  out_le : ∀ cd input room, (iconv cd input room).out.length ≤ room

/-- `buf_size`. -/
def bufSize : Nat := 65536

/-- `enum tried_iconv`, and the end of the process for want of space in an output
buffer. -/
inductive Tried where
  | ok
  | error
  | fatal
  | outOfSpace
  deriving DecidableEq, Repr

/-- What does not change while one encoding is tried: the flags, and the space in
the output buffer, unless output goes to standard output. -/
structure TryFlags where
  last : Bool
  ignoreErrors : Bool
  space : Option Nat

/-- The variables of the loop of `try_iconv`. There is no `cd` if the target is
UTF-8. Of the buffer `utf8` the first `utf8left` bytes are still to be converted. -/
structure TryState (σ : Type) where
  decomp : Decompress
  cdUtf8 : σ
  cd : Option σ
  input : Bytes
  utf8 : Bytes
  utf8left : Nat
  out : Bytes

/-- `add_output`: writing to standard output succeeds, a buffer has to stay larger
than what is written to it. -/
def addOutput (flags : TryFlags) (out inbuf : Bytes) : Option Bytes :=
  match flags.space with
  | none => some (out ++ inbuf)
  | some max => if out.length + inbuf.length ≥ max then none else some (out ++ inbuf)

/-- Nothing to write is not written. -/
def addSome (flags : TryFlags) (out inbuf : Bytes) : Option Bytes :=
  if inbuf = [] then some out else addOutput flags out inbuf

variable {σ : Type}

/-- The UTF-8 text that is left. -/
def TryState.pending (s : TryState σ) : Bytes := s.utf8.take s.utf8left

/-- These errors of the conversion to UTF-8 mean that the next encoding has to be
tried, if there is one. -/
def rejects (last : Bool) (input : Bytes) (errno : Option Errno) : Bool :=
  !last && (errno == some .eilseq || (errno == some .einval && input.length < bufSize))

/-- These errors end the conversion. -/
def givesUp (ignoreErrors : Bool) (input : Bytes) (errno : Option Errno) : Bool :=
  (errno == some .eilseq && !ignoreErrors) || (errno == some .einval && input.length < bufSize)

/-- The first stage of a turn: unless some UTF-8 text is left, convert the input to
UTF-8. With it come the number of bytes of input used and the error. There is no
result if the next encoding has to be tried. -/
def toUtf8Stage (ic : Iconv σ) (flags : TryFlags) (s : TryState σ) : Option (TryState σ × Nat × Option Errno) :=
  if s.utf8left ≠ 0 then some (s, 0, none)
  else
    let r := ic.iconv s.cdUtf8 s.input bufSize
    if rejects flags.last s.input r.errno then none
    else some ({ s with cdUtf8 := r.next, utf8 := r.out, utf8left := r.out.length }, r.used, r.errno)

/-- The second stage of a turn: write the text out, in the target encoding. The
conversion starts at the start of the buffer each time. There is no result if the
output buffer is full. -/
def outputStage (ic : Iconv σ) (flags : TryFlags) (s : TryState σ) (errno : Option Errno) :
    Option (TryState σ × Option Errno) :=
  match errno, s.cd with
  | some errno, _ => some (s, some errno)
  | none, none => do
    let out ← addSome flags s.out s.pending
    return ({ s with utf8left := 0, out := out }, none)
  | none, some cd =>
    if s.utf8left = 0 then some (s, none)
    else do
      let r := ic.iconv cd s.pending bufSize
      let out ← addSome flags s.out r.out
      match r.errno with
      | some errno => return ({ s with cd := some r.next, utf8left := s.utf8left - r.used, out := out }, some errno)
      | none =>
        let (rest, cd) := ic.flush r.next bufSize
        let out ← addSome flags out rest
        return ({ s with cd := some cd, utf8left := s.utf8left - r.used, out := out }, none)

/-- The end of a turn: skip the input used, and fetch more unless some UTF-8 text is
left. The repeated peeks of the source make up for short reads. -/
def fetchNext (s : TryState σ) (used : Nat) : TryState σ :=
  if s.utf8left = 0 then { s with decomp := s.decomp.skip used, input := decompressPeek (s.decomp.skip used) bufSize }
  else { s with decomp := s.decomp.skip used }

/-- The rest of a turn after the first stage. -/
def finishTurn (ic : Iconv σ) (flags : TryFlags) (s : TryState σ) (used : Nat) (errno : Option Errno) :
    (Tried × Decompress × Bytes) ⊕ TryState σ :=
  match outputStage ic flags s errno with
  | none => .inl (.outOfSpace, s.decomp, s.out)
  | some (s, errno) =>
    if givesUp flags.ignoreErrors s.input errno then .inl (.fatal, s.decomp, s.out)
    else .inr (fetchNext s used)

/-- One turn of the loop: another state, or the result with the decompressor and
the output so far. -/
def tryTurn (ic : Iconv σ) (flags : TryFlags) (s : TryState σ) : (Tried × Decompress × Bytes) ⊕ TryState σ :=
  if s.input = [] ∧ s.utf8left = 0 then .inl (.ok, s.decomp, s.out)
  else
    match toUtf8Stage ic flags s with
    | none => .inl (.error, s.decomp, s.out)
    | some (s, used, errno) => finishTurn ic flags s used errno

/-- The loop of `try_iconv`, for at most so many turns. -/
def tryLoop (ic : Iconv σ) (flags : TryFlags) : Nat → TryState σ → Option (Tried × Decompress × Bytes) :=
  Loop.run (tryTurn ic flags)

def utf8Code : Bytes := ascii "UTF-8"

/-- The target is UTF-8, whatever follows it. -/
def isUtf8Target (target : Bytes) : Bool := target == utf8Code || (ascii "UTF-8//").isPrefixOf target

/-- Does the text contain "//IGNORE"? -/
def hasIgnore : Bytes → Bool
  | [] => false
  | b :: text => (ascii "//IGNORE").isPrefixOf (b :: text) || hasIgnore text

/-- The descriptors of a trial: to UTF-8, and on to the target if that is another. -/
def openBoth (ic : Iconv σ) (tryFromCode target : Bytes) (last : Bool) : Option (σ × Option σ) :=
  match ic.iconvOpen (if last then ascii "UTF-8//IGNORE" else utf8Code) tryFromCode with
  | none => none
  | some cdUtf8 =>
    if isUtf8Target target then some (cdUtf8, none)
    else (ic.iconvOpen target utf8Code).map (fun cd => (cdUtf8, some cd))

/-- The state at the first turn of the loop. -/
def tryStart (decomp : Decompress) (cds : σ × Option σ) (out : Bytes) : TryState σ :=
  { decomp := decomp, cdUtf8 := cds.1, cd := cds.2, input := decompressPeek decomp bufSize, utf8 := [],
    utf8left := 0, out := out }

/-- `try_iconv`. The output so far is passed in and returned. -/
def tryIconv (ic : Iconv σ) (turns : Nat) (decomp : Decompress) (tryFromCode target : Bytes) (last : Bool)
    (space : Option Nat) (out : Bytes) : Option (Tried × Decompress × Bytes) :=
  match openBoth ic tryFromCode target last with
  | none => some (.error, decomp, out)
  | some cds =>
    tryLoop ic { last := last, ignoreErrors := hasIgnore target, space := space } turns (tryStart decomp cds out)

end ManDb
