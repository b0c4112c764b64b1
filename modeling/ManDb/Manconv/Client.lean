import ManDb.Manconv.Manconv
import ManDb.Manconv.Utf8

namespace ManDb

variable {σ : Type}

/-- `decompress_inprocess_replace`. -/
def decompressInprocessReplace (d : Decompress) (buf : Bytes) : Decompress :=
  { d with buf := buf, offset := 0, within := Decompress.zero_within buf }

/-- The target that characters it cannot represent are left out of. -/
def ignoring (target : Bytes) : Bytes := target ++ ascii "//IGNORE"

/-- `add_manconv`: the source encodings and the target of the command that is added to
the pipeline, if any is. -/
def addManconv (source target : Bytes) : Option (List Bytes × Bytes) :=
  if source = target then none
  else if source = utf8Code then some ([source], ignoring target)
  else some ([utf8Code, source], ignoring target)

/-- The pipeline with what `add_manconv` adds to it, on this content: its output, or
nothing if it exits with a failure. -/
def pipelinePath (loc : Locale) (ic : Iconv σ) (turns : Nat) (content source target : Bytes) :
    Option (Option Bytes) :=
  match addManconv source target with
  | none => some (some content)
  | some (codes, target) =>
    (manconv loc ic turns (.start .pipeline content) codes target none).map fun c =>
      if c.ret = .success then some c.output else none

/-- `recode` with `--in-place`, for a page that is thought to be in this encoding: the
page afterwards. It is replaced if the pipeline exits with success. -/
def recodeInPlace (loc : Locale) (ic : Iconv σ) (turns : Nat) (content source target : Bytes) : Option Bytes :=
  (pipelinePath loc ic turns content source target).map fun output => output.getD content

/-- The conversion of the buffered content to a new buffer, of four times the size. -/
def convertBuffer (loc : Locale) (ic : Iconv σ) (turns : Nat) (d : Decompress) (codes : List Bytes) (target : Bytes) :
    Option (ManconvRet × Decompress) :=
  (manconv loc ic turns d codes (ignoring target) (some (d.buf.length * 4))).map fun c =>
    if c.ret = .success then (.success, decompressInprocessReplace d c.output) else (c.ret, c.decomp)

/-- The encodings that `manconv_inprocess` has `manconv` try, unless it finds that
there is nothing to convert. -/
def inprocessCodes (content source target : Bytes) : Option (List Bytes) :=
  if source = target then none
  else if source = utf8Code then some [source]
  else if target = utf8Code then if utf8ValidateLen content then none else some [source]
  else some [utf8Code, source]

/-- `manconv_inprocess`: how it returns, or the process ends, and the decompressor. -/
def manconvInprocess (loc : Locale) (ic : Iconv σ) (turns : Nat) (d : Decompress) (source target : Bytes) :
    Option (ManconvRet × Decompress) :=
  match inprocessCodes d.buf source target with
  | none => some (.success, d)
  | some codes => convertBuffer loc ic turns d codes target

end ManDb
