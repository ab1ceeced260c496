import CompressionWork.Fpc.Compress
import CompressionWork.Sampling.Table

/-!
# Floating-point compression with Huffman codes (FP-H)

A 4-byte word is read as a single-precision number: a sign bit, 8 bits of exponent, and a
mantissa of 10 high and 13 low bits.  The sampler counts the values of the three fields
separately; the encoder replaces each value that is in its table by its code and sends
the others as they are.

* `convertBinary` — the words of a packet as strings of 32 bits.
* `splitRawValue` — one sampled line.
* `genericInit` — the three tables, written to their files and read back.
* `doEncode` — the output for a line; nothing marks a value that is sent raw.
-/

namespace CompressionWork.Fph

open Codec Sampling

/-- `BYTES_LEN`: the digits of a word. -/
def bytesLen : ℕ := 8

/-- `EXP` -/
def expBits : ℕ := 8

/-- `MH` -/
def mhBits : ℕ := 10

/-- `ML`: what `cur.substr(1 + EXP + MH)` leaves of a word. -/
def mlBits : ℕ := 13

/-- `FILE_SIZE`: the greatest number of entries of a table. -/
def fileSize : ℕ := 102

/-- `convert_binary`: each digit gives four bits. -/
def convertBinary (rawData : Str) : List Str := (chunks bytesLen rawData).map hexToBin

/-! ## Fields -/

/-- The exponent of a word. -/
def exp (cur : Str) : Str := (cur.drop 1).take expBits

/-- The high bits of its mantissa. -/
def mh (cur : Str) : Str := (cur.drop (expBits + 1)).take mhBits

/-- The low bits of its mantissa. -/
def ml (cur : Str) : Str := cur.drop (1 + expBits + mhBits)

/-- One thing for each of the three fields. -/
structure Fields (α : Type) where
  exp : α
  mh : α
  ml : α
  deriving DecidableEq

/-! ## Sampling phase -/

/-- The tables `exp_track`, `mh_track` and `ml_track`. -/
abbrev Tracks := Fields (List (Str × ℕ))

/-- `split_raw_value`: counts the fields of every word. -/
def splitRawValue (tracks : Tracks) (rawBinaryData : List Str) : Tracks :=
  rawBinaryData.foldl (fun t cur =>
    ⟨countWord t.exp (exp cur), countWord t.mh (mh cur), countWord t.ml (ml cur)⟩) tracks

/-- The tables after the lines of the sampling phase. -/
def sampleLines (lines : List (List UInt8)) : Tracks :=
  lines.foldl (fun tracks line => splitRawValue tracks (convertBinary (decomposeData line)))
    ⟨[], [], []⟩

/-- The tables `exp_tracker`, `mh_tracker` and `ml_tracker`. -/
abbrev Trackers := Fields (List (Str × Str))

/-- `write_data_file` and then `generic_init`. -/
def genericInit (std : StdOrder) (tracks : Tracks) : Trackers :=
  ⟨tracker std fileSize tracks.exp, tracker std fileSize tracks.mh,
    tracker std fileSize tracks.ml⟩

/-! ## Encoding phase -/

/-- The code of a field value, or the value itself when it is not in the table. -/
def fieldCode (tr : List (Str × Str)) (v : Str) : Str := (tr.lookup v).getD v

/-- What `do_encode` appends for one word. -/
def encodeWord (trs : Trackers) (cur : Str) : Str :=
  cur.take 1 ++ fieldCode trs.exp (exp cur) ++ fieldCode trs.mh (mh cur) ++
    fieldCode trs.ml (ml cur)

/-- `do_encode` -/
def doEncode (trs : Trackers) (input : List Str) : Str :=
  input.foldl (fun output cur => output ++ encodeWord trs cur) []

/-- The output of `run` in the encoding phase for the bytes of a line. -/
def encodeLine (trs : Trackers) (cacheData : List UInt8) : Str :=
  doEncode trs (convertBinary (decomposeData cacheData))

/-- `run`: the sizes of the line; a `mem_fetch` without data is left alone. -/
def run (trs : Trackers) (cacheData : List UInt8) : Option Fpc.Sizes :=
  if cacheData = [] then none else some (Fpc.report (encodeLine trs cacheData).length)

end CompressionWork.Fph
