import CompressionWork.Codec.Coupled
import CompressionWork.Sampling.Table

/-!
# ABPD compression

`hpcl_comp_abpd_local_pl_proc`: the words of a line that occur more than once make up a
dictionary, which the line carries itself.  Each word becomes a token: `00` and the word,
`01` and the word at its first occurrence, or `10` and its index afterwards.

* `inputProcessor` — the tokens of a line.
* `decodeString` — the words of a sequence of tokens.
* `convertOutput` — the bytes and the number of bits of the tokens.

`flit_count` is a `float` that nobody reads, and is left out.
-/

namespace CompressionWork.Abpd

open Codec Sampling

/-! ## Encoder -/

/-- `get_binary` of the compressor: `log2(MAX_DICT_SIZE)` digits. -/
def indexString (index : ℕ) : Str := getBinary index 5

/-- The first map of `prepare_dict`: every word with 1. -/
def occCheck (words : List Str) : List (Str × ℕ) := words.foldl (fun t s => insertNew t s 1) []

/-- A round of the second loop of `prepare_dict`. -/
def addRepeated (tracker : List (Str × ℕ)) (dict : List (Str × Str)) (s : Str) :
    List (Str × Str) :=
  match tracker.lookup s with
  | some n => if 1 < n then insertNew dict s (indexString dict.length) else dict
  | none => dict

/-- `prepare_dict`: the occurrence map, and the dictionary. -/
def prepareDict (words : List Str) : List (Str × ℕ) × List (Str × Str) :=
  (occCheck words, words.foldl (addRepeated (countWords words)) [])

/-- `encode_data`: a token, and the occurrence map afterwards. -/
def encodeData (dict : List (Str × Str)) (occ : List (Str × ℕ)) (input : Str) :
    Str × List (Str × ℕ) :=
  match dict.lookup input with
  | some index =>
      if occ.lookup input = some 1 then ('0' :: '1' :: input, countWord occ input)
      else ('1' :: '0' :: index, occ)
  | none => ('0' :: '0' :: input, occ)

/-- `input_processor` -/
def inputProcessor (words : List Str) : List Str :=
  let p := prepareDict words
  (encodeRun (encodeData p.2) p.1 words).1

/-! ## Decoder -/

/-- A round of `prepare_decode_dict`. -/
def addDecoded (dict : List (Str × Str)) (s : Str) : List (Str × Str) :=
  if s.take 2 = ['0', '1'] then insertNew dict (indexString dict.length) (s.drop 2) else dict

/-- `prepare_decode_dict` -/
def prepareDecodeDict (input : List Str) : List (Str × Str) := input.foldl addDecoded []

/-- A round of `decode_string`; a key that is not there has the empty string. -/
def decodeToken (dict : List (Str × Str)) (s : Str) : List Str :=
  if s.take 2 = ['0', '0'] ∨ s.take 2 = ['0', '1'] then [s.drop 2]
  else if s.take 2 = ['1', '0'] then [(dict.lookup (s.drop 2)).getD []]
  else []

/-- `decode_string` -/
def decodeString (input : List Str) : List Str :=
  input.flatMap (decodeToken (prepareDecodeDict input))

/-! ## Output -/

/-- The map `lc_cmp`; `lookup_hexa`, which would fill it, is never called. -/
def lcCmp : List (Char × ℕ) := []

/-- The value that `get_binary_hexa` takes for a character: `lc_cmp[c]`, or `c - '0'`. -/
def charValue (c : Char) : ℕ :=
  match lcCmp.lookup c with
  | some v => v
  | none => c.toNat - '0'.toNat

/-- `get_binary_hexa`: four binary digits for each character. -/
def getBinaryHexa (str : Str) : Str := str.flatMap fun c => getBinary (charValue c) 4

/-- What `convert_output` appends for a token; `temp.compare(s)` is true when the strings differ. -/
def tokenBits (token : Str) : Str :=
  let temp := token.take 2
  let remStr := token.drop 2
  temp ++
    if temp ≠ ['0', '0'] ∨ temp ≠ ['0', '1'] then getBinaryHexa remStr
    else if temp ≠ ['1', '0'] then token
    else []

/-- `out_binary` -/
def outBinary (tokens : List Str) : Str := tokens.flatMap tokenBits

/-- The bytes of a bit string; the last group is filled with zeros in front, which does not change
its value. -/
def dataToSend (bits : Str) : List UInt8 :=
  (chunks 8 bits).map fun group => UInt8.ofNat (binaryValue group)

/-- `convert_output`: `data_to_send` and `comp_bit_size`. -/
def convertOutput (tokens : List Str) : List UInt8 × ℕ :=
  (dataToSend (outBinary tokens), (outBinary tokens).length)

/-- `run`: the bytes set as compressed data and their number; a `mem_fetch` without data is left
alone, and the assertion compares the number with the bits. -/
def run (cacheData : List UInt8) : Option (List UInt8 × ℕ) :=
  if cacheData = [] then none
  else
    let out := convertOutput (inputProcessor (lineWords cacheData))
    let compByteSize := (out.2 + 7) / 8
    if compByteSize = out.1.length then some (out.1, compByteSize) else none

/-- The assertion of `run` holds. -/
theorem run_isSome {cacheData : List UInt8} (h : cacheData ≠ []) : (run cacheData).isSome := by
  rw [run, if_neg h]
  simp [convertOutput, dataToSend, chunks]

/-! ## What the line costs -/

/-- The words that occur more than once. -/
def repeated (words : List Str) : List Str := (words.filter fun w => 2 ≤ words.count w).dedup

/-- The bits of a token: 34 for a word, 7 for an index. -/
def tokenCost (token : Str) : ℕ := if token.take 2 = ['1', '0'] then 7 else 34

/-- A line of whole words whose dictionary has room. -/
def Fits (line : List UInt8) : Prop :=
  4 ∣ line.length ∧ (repeated (lineWords line)).length ≤ 32

/-- ABPD keeps a line: the tokens decode to its words, the bits belong to no other line, and their
number is the cost of the tokens. -/
structure Lossless (line : List UInt8) : Prop where
  decode : decodeString (inputProcessor (lineWords line)) = lineWords line
  determined : ∀ line', Fits line' →
    outBinary (inputProcessor (lineWords line')) = outBinary (inputProcessor (lineWords line)) →
      line' = line
  size : (convertOutput (inputProcessor (lineWords line))).2 =
    ((inputProcessor (lineWords line)).map tokenCost).sum

end CompressionWork.Abpd
