import CompressionWork.Fpc.Compress
import CompressionWork.Sampling.Table

/-!
# Statistical compression (SC2)

`hpcl_comp_sc2_pl` samples the 4-byte words of the lines, builds a Huffman code for the
most frequent ones and encodes later lines word by word: `0` and the code, or `1` and the
word itself.

* `sampleLines` — `update_word_table` on every line of the sampling phase.
* `writeDataFile`, `formTracker` — the end of that phase.
* `ssEncode` — the output string and the accumulated bits; a raw word is pushed as eight
  digits and counted as 33 bits.
* `bitString` — the bits that this output stands for.

`bits` is a `float` in the source; sums of this size are exact.
-/

namespace CompressionWork.Sc2

open Codec Sampling

/-- `VFT_SIZE / WORD_SIZE` -/
def maxVftEntries : ℕ := 1168 / 4

/-! ## Sampling phase -/

/-- `update_word_table`: each word of the packet is counted. -/
def updateWordTable (table : List (Str × ℕ)) (packet : Str) : List (Str × ℕ) :=
  (chunks 8 packet).foldl countWord table

/-- The word table after the lines of the sampling phase. -/
def sampleLines (lines : List (List UInt8)) : List (Str × ℕ) :=
  lines.foldl (fun table line => updateWordTable table (decomposeData line)) []

/-- `write_data_file`: the code map of the word table. -/
def codeMap (std : StdOrder) (wordTable : List (Str × ℕ)) : List (Str × Str) :=
  codeTable std maxVftEntries wordTable

/-- `write_data_file` and then `form_tracker`. -/
def formTracker (std : StdOrder) (wordTable : List (Str × ℕ)) : List (Str × Str) :=
  tracker std maxVftEntries wordTable

/-! ## Encoding phase -/

/-- One round of `ss_encode`: what is appended to the output, and what is added to `bits`. -/
def ssEncodeWord (tr : List (Str × Str)) (ss : Str) : Str × ℕ :=
  match tr.lookup ss with
  | some code => ('0' :: code, 1 + code.length)
  | none => ('1' :: ss, 33)

/-- `ss_encode`: the output and the bits. -/
def ssEncode (input : Str) (tr : List (Str × Str)) : Str × ℕ :=
  (chunks 8 input).foldl (fun acc ss =>
    (acc.1 ++ (ssEncodeWord tr ss).1, acc.2 + (ssEncodeWord tr ss).2)) ([], 0)

/-- `run` in the encoding phase; a `mem_fetch` without data is left alone. -/
def run (tr : List (Str × Str)) (cacheData : List UInt8) : Option Fpc.Sizes :=
  if cacheData = [] then none
  else some (Fpc.report (ssEncode (decomposeData cacheData) tr).2)

/-- The bits of one word: a flag, and the code or the 32 bits of the word. -/
def wordBits (tr : List (Str × Str)) (ss : Str) : Str :=
  match tr.lookup ss with
  | some code => '0' :: code
  | none => '1' :: hexToBin ss

/-- The encoded line as bits. -/
def bitString (tr : List (Str × Str)) (cacheData : List UInt8) : Str :=
  (lineWords cacheData).flatMap (wordBits tr)

end CompressionWork.Sc2
