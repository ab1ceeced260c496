import CompressionWork.Cpack.Dict

/-!
# C-PACK: the encoder

The model of `hpcl_comp_cpack_pl_proc.h` and of the code table in
`hpcl_comp_cpack_pl.h`.  A word is replaced by a code and what the code leaves open: the
digits that are not zero, the index of a dictionary word and the digits after the common
prefix, or the whole word.

All words of a line are compared with the dictionary as it was when the line came in; the
new words are collected in `word_dict_lcl` and enter the dictionary at the end.  The source
keeps `flit_count` in bytes, as a `float` whose values are eighths; the model counts the
bits.
-/

namespace CompressionWork.Cpack

open Codec

/-- `BIT_WORD`: the digits that are compared at once. -/
def bitWord : ℕ := 2

/-- `PATTERN_SIZE`. -/
def patternSize : ℕ := 4

/-- The code table of `initialize`: each pattern and its code. -/
def patternFinder : List (Str × Str) :=
  [(['z', 'z', 'z', 'z'], ['0', '0']), (['x', 'x', 'x', 'x'], ['0', '1']),
    (['m', 'm', 'm', 'm'], ['1', '0']), (['m', 'm', 'x', 'x'], ['1', '1', '0', '0']),
    (['z', 'z', 'z', 'x'], ['1', '1', '0', '1']), (['m', 'm', 'm', 'x'], ['1', '1', '1', '0'])]

/-- `pattern_finder.find(…)->code`. -/
def findCode (pattern : Str) : Option Str :=
  (patternFinder.find? fun p => p.1 = pattern).map Prod.snd

/-- `process_string_partial`: a `'z'` for each zero pair before the last one, then `'z'` or
`'x'` for the last pair, which is `unmatched` in the second case. -/
def processStringPartial (curStr : Str) : Str × Str :=
  let last := curStr.drop (curStr.length - bitWord)
  let zs := ((chunks bitWord (curStr.take (curStr.length - bitWord))).filter
    (· = ['0', '0'])).map fun _ => 'z'
  if last = ['0', '0'] then (zs ++ ['z'], []) else (zs ++ ['x'], last)

/-- The results of `compare_str`. -/
structure Match where
  matchCount : ℕ
  localUnmatched : Str
  localProcessedStr : Str
  deriving DecidableEq

/-- The loop of `compare_str` over the pairs of the dictionary word. -/
def compareLoop : List Str → Str → Match
  | [], _ => ⟨0, [], []⟩
  | p :: ps, curStr =>
      if p = curStr.take bitWord then
        let m := compareLoop ps (curStr.drop bitWord)
        ⟨m.matchCount + 1, m.localUnmatched, 'm' :: m.localProcessedStr⟩
      else ⟨0, curStr, ['x']⟩

/-- `compare_str`: the common prefix of two words; the pattern is padded to its size. -/
def compareStr (dictStr curStr : Str) : Match :=
  let m := compareLoop (chunks bitWord dictStr) curStr
  { m with
    localProcessedStr :=
      m.localProcessedStr ++ List.replicate (patternSize - m.localProcessedStr.length) 'x' }

/-- The locals of `dict_compare`. -/
structure Best where
  maxVal : ℕ
  unmatched : Str
  indexOfDict : Str
  processedStr : Str
  deriving DecidableEq

/-- One round of the loop of `dict_compare`. -/
def bestStep (curStr : Str) (b : Best) (p : Str × Str) : Best :=
  let m := compareStr p.1 curStr
  if b.maxVal < m.matchCount then ⟨m.matchCount, m.localUnmatched, p.2, m.localProcessedStr⟩
  else b

/-- `dict_compare`: the first dictionary word with the longest common prefix.  A prefix of
less than two pairs is no match; then the word goes out as it is. -/
def dictCompare (curStr processedStr unmatched : Str) (wordDictGlb : WordDict) : Bool × Best :=
  let b := wordDictGlb.foldl (bestStep curStr) ⟨0, unmatched, [], processedStr⟩
  if b.maxVal = 0 ∨ b.maxVal = 1 then
    (false, { b with unmatched := curStr, processedStr := ['x', 'x', 'x', 'x'] })
  else if findCode b.processedStr = none then (false, b)
  else (true, b)

/-- What one round of `input_processor` gives: the token, its bits, and whether the word is
put into `word_dict_lcl`. -/
structure Output where
  outputString : Str
  bits : ℕ
  inserted : Bool
  deriving DecidableEq

/-- The body of the loop of `input_processor`. -/
def processWord (wordDictGlb : WordDict) (curStr : Str) : Output :=
  let (processedString, unmatched) := processStringPartial curStr
  if processedString = ['z', 'z', 'z', 'z'] ∨ processedString = ['z', 'z', 'z', 'x'] then
    ⟨((findCode processedString).map (· ++ unmatched)).getD [],
      if unmatched ≠ [] then 12 else 2, false⟩
  else
    match dictCompare curStr processedString unmatched wordDictGlb with
    | (true, b) =>
        ⟨((findCode b.processedStr).map (· ++ b.indexOfDict ++ b.unmatched)).getD [],
          if b.unmatched.length = 2 then 17 else if b.unmatched.length = 4 then 25 else 7, false⟩
    | (false, b) => ⟨((findCode b.processedStr).map (· ++ b.unmatched)).getD [], 34, true⟩

/-- The state of `input_processor`. -/
structure ProcState where
  outputToGet : List Str
  wordDictLcl : List Str
  flitCount : ℕ

/-- One round of the loop of `input_processor`. -/
def processStep (wordDictGlb : WordDict) (s : ProcState) (curStr : Str) : ProcState :=
  let out := processWord wordDictGlb curStr
  ⟨s.outputToGet ++ [out.outputString],
    if out.inserted then insertLcl s.wordDictLcl curStr else s.wordDictLcl,
    s.flitCount + out.bits⟩

/-- `input_processor`: the tokens of a line, its new words and its bits. -/
def inputProcessor (wordDictGlb : WordDict) (inputToProcess : List Str) : ProcState :=
  inputToProcess.foldl (processStep wordDictGlb) ⟨[], [], 0⟩

/-- `comp_byte_size`.  A line that would grow is sent as it is, but its size is set in a
debug build only; otherwise the variable is left uninitialised. -/
def compByteSize (compDebug : Bool) (flitCount inputPacketSz : ℕ) : Option ℕ :=
  if flitCount > inputPacketSz * 8 then
    if compDebug then some ((inputPacketSz * 8 + 1) / 8) else none
  else some ((flitCount + 7) / 8)

/-- `run` of one stage on the words of a packet: the tokens and the reported byte size. -/
def run (compDebug : Bool) (wordDictGlb : WordDict) (packet : Str) : Str × Option ℕ :=
  let s := inputProcessor wordDictGlb (chunks 8 packet)
  (s.outputToGet.flatten, compByteSize compDebug s.flitCount (packet.length / 2))

/-- A line in the compressor: the order in which its new words are walked over, and its
words. -/
structure Line where
  order : SetOrder
  words : List Str

/-- `run` of the pipeline: compress a line, then update the dictionary with its new words.
The order goes along with the tokens; a decompressor has to use the same one. -/
def compressLine (wordDictGlb : WordDict) (l : Line) : (SetOrder × Str) × WordDict :=
  let s := inputProcessor wordDictGlb l.words
  ((l.order, s.outputToGet.flatten), updateDict wordDictGlb (l.order.iter s.wordDictLcl))

end CompressionWork.Cpack
