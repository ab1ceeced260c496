import CompressionWork.Line

/-!
# Frequent-pattern compression: the encoder

The model of `hpcl_comp_fpc_pl_proc.h` and of the pattern table in
`hpcl_comp_fpc_pl.h`.  `compress` cuts the packet into words of eight digits and
replaces each by a token: a 3-bit pattern and the digits the pattern does not
determine; up to eight zero words in a row share one token.  `convert_output` walks
over the tokens once more and adds up their bits.

The source keeps the bits in a `float`; every number it reaches for a cache line is a
small integer, so the model counts in `ℕ`.
-/

namespace CompressionWork.Fpc

open Codec

/-- `DATA_SIZE`: the number of digits of a word. -/
def dataSize : ℕ := 8

/-- The pattern table of `initialize`: each pattern and its number of payload digits. -/
def tracker : List (Str × ℕ) :=
  [(['0', '0', '0'], 0), (['0', '0', '1'], 1), (['0', '1', '0'], 2), (['0', '1', '1'], 4),
    (['1', '0', '0'], 4), (['1', '0', '1'], 4), (['1', '1', '0'], 2), (['1', '1', '1'], 8)]

/-- `gen_zero`. -/
def genZero (n : ℕ) : Str := List.replicate n '0'

/-- `gen_F`. -/
def genF (n : ℕ) : Str := List.replicate n 'F'

/-- The digits of `init` that have their high bit set. -/
def lcCmp : Str := ['8', '9', 'A', 'B', 'C', 'D', 'E', 'F']

/-- `c - '0'` as an `int`. -/
def charDiff (c : Char) : ℤ := (c.toNat : ℤ) - 48

/-- `check_str`: is `input` the sign extension of its last `index` digits?  These digits
are appended to `processed`. -/
def checkStr (input : Str) (index : ℕ) (processed : Str) (dataSize : ℕ) : Bool × Str :=
  let sub := input.take (dataSize - index)
  let cmp := (input.drop (dataSize - index)).headD (Char.ofNat 0)
  if sub = genZero (dataSize - index) ∧ charDiff cmp ≤ 7 then
    (true, if 0 ≤ charDiff cmp ∧ charDiff cmp ≤ 7 then processed ++ input.drop (dataSize - index)
      else processed)
  else if sub = genF (dataSize - index) ∧ 7 < charDiff cmp then
    (true, if cmp ∈ lcCmp then processed ++ input.drop (dataSize - index) else processed)
  else (false, processed)

/-- `check_rep`: do all bytes of the word equal the first one? -/
def checkRep (input : Str) : Bool × Str :=
  if ((chunks 2 input).drop 1).all (· = input.take 2) then (true, input.take 2) else (false, [])

/-- `compare_pattern`: the token of `input` under `pattern`; `processed` is left alone when
the word does not match. -/
def comparePattern (input pattern processed : Str) : Str :=
  if pattern = ['0', '0', '0'] then
    if input = genZero dataSize then pattern else processed
  else if pattern = ['0', '0', '1'] then
    match checkStr input 1 processed dataSize with
    | (true, out) => pattern ++ out
    | (false, out) => out
  else if pattern = ['0', '1', '0'] then
    match checkStr input 2 processed dataSize with
    | (true, out) => pattern ++ out
    | (false, out) => out
  else if pattern = ['0', '1', '1'] then
    match checkStr input 4 processed dataSize with
    | (true, out) => pattern ++ out
    | (false, out) => out
  else if pattern = ['1', '0', '0'] then
    if input.drop (dataSize - 4) = genZero (dataSize - 4) then
      pattern ++ input.take (dataSize - 4)
    else processed
  else if pattern = ['1', '0', '1'] then
    match checkStr (input.take (dataSize - 4)) 2 [] (dataSize / 2),
      checkStr (input.drop (dataSize - 4)) 2 [] (dataSize / 2) with
    | (true, pO), (true, pT) => pattern ++ pO ++ pT
    | _, _ => processed
  else if pattern = ['1', '1', '0'] then
    match checkRep input with
    | (true, rep) => pattern ++ rep
    | (false, _) => processed
  else if pattern = ['1', '1', '1'] then pattern ++ input
  else processed

/-- `each_compress`: the first pattern of the table that gives a token. -/
def eachCompress (input : Str) : List (Str × ℕ) → Str → Str
  | [], processed => processed
  | p :: ps, processed =>
      let out := comparePattern input p.1 processed
      if out ≠ [] then out else eachCompress input ps out

/-- The inner loop of `compress`: the zero words among the next `n` words. -/
def zeroRun : ℕ → List Str → ℕ
  | 0, _ => 0
  | _ + 1, [] => 0
  | n + 1, w :: ws => if w = genZero dataSize then zeroRun n ws + 1 else 0

/-- The loop of `compress`: the token (`temp_out`) of every round.  After a zero run the
index jumps over the words the run covers; `skip` counts those still to be passed. -/
def tempOuts (tracker : List (Str × ℕ)) : ℕ → List Str → List Str
  | _, [] => []
  | skip + 1, _ :: ws => tempOuts tracker skip ws
  | 0, sub :: ws =>
      if sub = genZero dataSize then
        let ct := zeroRun 7 ws + 1
        (['0', '0', '0'] ++ getBinary (ct - 1) 3) :: tempOuts tracker (ct - 1) ws
      else eachCompress sub tracker [] :: tempOuts tracker 0 ws

/-- `compress`: the token string of a packet. -/
def compress (input : Str) (tracker : List (Str × ℕ)) : Str :=
  (tempOuts tracker 0 (chunks dataSize input)).flatten

/-- `get_pattern_len`; a pattern that is not in the table has no length. -/
def getPatternLen (pattern : Str) (tracker : List (Str × ℕ)) : Option ℕ :=
  (tracker.find? fun p => p.1 = pattern).map Prod.snd

/-- The locals of `convert_output`: the words and the bits it has counted. -/
structure Counts where
  ct : ℕ
  bits : ℕ
  deriving DecidableEq, Repr

/-- `zero_ct`: the three digits of a zero run, the first one with weight 1. -/
def zeroCt (pat2 : Str) : ℕ :=
  bitVal (pat2.getD 2 '0') * 4 + bitVal (pat2.getD 1 '0') * 2 + bitVal (pat2.getD 0 '0')

/-- The loop of `convert_output`.  Every round takes at least one character, so
`input.length` rounds are enough. -/
def convertOutputAux (tracker : List (Str × ℕ)) : ℕ → Str → Counts → Option Counts
  | _, [], c => some c
  | 0, _ :: _, _ => none
  | fuel + 1, input, c =>
      if input.take 3 = ['0', '0', '0'] then
        convertOutputAux tracker fuel (input.drop 6)
          ⟨c.ct + (zeroCt ((input.drop 3).take 3) + 1), c.bits + 6⟩
      else
        (getPatternLen (input.take 3) tracker).bind fun len =>
          convertOutputAux tracker fuel (input.drop (len + 3)) ⟨c.ct + 1, c.bits + len * 4 + 3⟩

/-- `convert_output`: the words and the bits of a token string. -/
def convertOutput (input : Str) (tracker : List (Str × ℕ)) : Option Counts :=
  convertOutputAux tracker input.length input ⟨0, 0⟩

/-- What `run` stores in the `mem_fetch`. -/
structure Sizes where
  /-- `set_comp_data_size` -/
  compDataSize : ℕ
  /-- `set_comp_data_bits` -/
  compDataBits : ℕ
  deriving DecidableEq, Repr

/-- The end of `run`: `bytes_d = bits / 8.0`, rounded up to bytes, is what is reported. -/
def report (bits : ℕ) : Sizes :=
  let compByteSize := (bits + 7) / 8
  ⟨compByteSize, compByteSize * 8⟩

/-- `run` on the packet of a line. -/
def runPacket (packet : Str) : Option Sizes :=
  (convertOutput (compress packet tracker) tracker).map fun c => report c.bits

/-- `run`: a `mem_fetch` without data is left alone. -/
def run (cacheData : List UInt8) : Option Sizes :=
  if cacheData = [] then none else runPacket (decomposeData cacheData)

end CompressionWork.Fpc
