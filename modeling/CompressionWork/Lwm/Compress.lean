import CompressionWork.Codec.Coupled
import CompressionWork.Line
import CompressionWork.Lwm.Dict
import Mathlib.Data.Nat.Log

/-!
# Local word matching (LWM)

`hpcl_comp_lwm_pl_proc<K>` compares each word of a line with the words before it.  A word
that was seen before is charged as a pointer, any other word goes out as it is and enters
the dictionary.  The word type `K` has `k` bytes (2, 4 and 8 in the simulator).

* `decomposeData` — the little-endian words of a line.
* `matchWord` — the dictionary part of one round of `run_lwm_algo`.
* `round`, `runLwmAlgo` — the round with its counters, and the loop.
* `runDynamicDict` — the optimisation of the pointer width (`hpcl_dict_size_opt_en`): the
  pointers are locations, as wide as the greatest one that is matched needs.
* `runCompForOrgData` — the reported bits.

`hpcl_partial_comp_en` takes flag bits back for segments without a match and leaves the
pointers as they are; `run_part_comp_in_data_segment` has no return statement, so this mode
has no size to report, and `runComp` leaves it out.
-/

namespace CompressionWork.Lwm

open Codec

/-! ## Words -/

/-- A word of `k` bytes, least significant byte first. -/
def wordOfBytes (bytes : List UInt8) : ℕ :=
  bytes.foldr (fun b word => b.toNat + word * 2 ^ 8) 0

/-- `decompose_data` -/
def decomposeData (k : ℕ) (cacheData : List UInt8) : List ℕ :=
  (chunks k cacheData).map wordOfBytes

/-! ## One word -/

section

variable {K : Type} [DecidableEq K]

/-- What a round sends: the word, or where it was found (its index in the dictionary and its
location in the line). -/
inductive Token (K : Type) where
  | raw (word : K)
  | ptr (wordIndex : ℕ) (wordLoc : ℤ)
  deriving DecidableEq, Repr

/-- The dictionary part of round `i`. -/
def matchWord (locDict : Dict K) (i : ℕ) (word : K) : Token K × Dict K :=
  match locDict.searchWord word with
  | some wordIndex =>
      let locDict := (locDict.updateDict word).2
      let transWordLoc := locDict.getWordLoc wordIndex
      (.ptr wordIndex transWordLoc,
        if locDict.lastMaxWordLoc < transWordLoc then
          { locDict with lastMaxWordLoc := transWordLoc }
        else locDict)
  | none =>
      let p := locDict.updateDict word
      (.raw word, p.2.setWordLoc p.1 i)

/-! ## The loop -/

/-- The variables of `run_lwm_algo`; `locDict` and the tokens are those of the line so far. -/
structure LwmState (K : Type) where
  locDict : Dict K
  tokens : List (Token K)
  compBitSize : ℕ
  compBitsOnly : ℕ
  matchingWordNo : ℕ
  compDsBits : List ℤ
  compDsMatchWordNo : List ℕ
  noCompDsRatio : List ℤ

/-- The bits charged for what follows the flag: a pointer or a word. -/
def payloadBits (k dataPtrBits : ℕ) : Token K → ℕ
  | .raw _ => k * 8
  | .ptr _ _ => dataPtrBits

/-- One round of the loop, with the ends of the data segments. -/
def round (k dataSegmentSize dataPtrBits : ℕ) (st : LwmState K) (p : ℕ × K) : LwmState K :=
  let i := p.1
  let m := matchWord st.locDict i p.2
  let bits := payloadBits k dataPtrBits m.1
  let isWordCompressed := match m.1 with
    | .ptr _ _ => true
    | .raw _ => false
  let compBitSize := st.compBitSize + 1 + bits
  let matchingWordNo := st.matchingWordNo + if isWordCompressed then 1 else 0
  let curDataSegmentSize := (i + 1) * k
  let dsIndex := curDataSegmentSize / dataSegmentSize - 1
  let segmentEnds := curDataSegmentSize % dataSegmentSize = 0
  { locDict := m.2
    tokens := st.tokens ++ [m.1]
    compBitSize := compBitSize
    compBitsOnly := st.compBitsOnly + bits
    matchingWordNo := if segmentEnds then 0 else matchingWordNo
    compDsBits :=
      if segmentEnds then st.compDsBits.set dsIndex (compBitSize - (st.compDsBits.take dsIndex).sum)
      else st.compDsBits
    compDsMatchWordNo :=
      if segmentEnds then st.compDsMatchWordNo.set dsIndex matchingWordNo
      else st.compDsMatchWordNo
    noCompDsRatio :=
      if isWordCompressed then st.noCompDsRatio.set (i * k / dataSegmentSize) 0
      else st.noCompDsRatio }

/-- `(unsigned) ceil(log2((double)cache_data_size/sizeof(K)))` -/
def dataPtrBits (wordNo : ℕ) : ℕ := Nat.clog 2 wordNo

/-- `run_lwm_algo` for a line of words, with the dictionary it is given.  One bit says whether
the line is compressed, three are for the remapping and two for the resolution. -/
def runLwmAlgo (k dataSegmentSize : ℕ) (locDict : Dict K) (wordList : List K) : LwmState K :=
  let segmentNo := wordList.length * k / dataSegmentSize
  ((List.range wordList.length).zip wordList).foldl
    (round k dataSegmentSize (dataPtrBits wordList.length))
    { locDict := locDict
      tokens := []
      compBitSize := 1 + 3 + 2
      compBitsOnly := 0
      matchingWordNo := 0
      compDsBits := List.replicate segmentNo (-1)
      compDsMatchWordNo := List.replicate segmentNo 0
      noCompDsRatio := List.replicate segmentNo 1 }

/-! ## The reported size -/

/-- `new_data_ptr_bits` of `run_dynamic_dict_in_data_segment`. -/
def newDataPtrBits (lastMaxWordLoc : ℤ) : ℕ :=
  let bits := Nat.clog 2 (lastMaxWordLoc.toNat + 1)
  if bits = 0 then 1 else bits

/-- `run_dynamic_dict_in_data_segment`: nothing when no word was matched. -/
def runDynamicDict (locDict : Dict K) (dataPtrBits : ℕ) (st : LwmState K) : Option ℤ :=
  if 0 ≤ locDict.lastMaxWordLoc then
    let compBits := st.compDsBits.zipWith (fun (bits : ℤ) (matchwordNo : ℕ) =>
      bits - (dataPtrBits - newDataPtrBits locDict.lastMaxWordLoc : ℤ) * matchwordNo)
        st.compDsMatchWordNo
    some (compBits.sum + 3)
  else none

/-- The bits charged for each pointer of a line. -/
def chargedPtrBits (dictSizeOptEn : Bool) (wordNo : ℕ) (locDict : Dict K) : ℕ :=
  if dictSizeOptEn ∧ 0 ≤ locDict.lastMaxWordLoc then newDataPtrBits locDict.lastMaxWordLoc
  else dataPtrBits wordNo

/-- `run_comp_for_org_data` and `run_comp_for_remapped_data`: the dictionary is cleared, and
the bits are those of the loop or, when a word was matched, of the optimisation. -/
def runComp (k dataSegmentSize : ℕ) (dictSizeOptEn : Bool) (locDict : Dict K)
    (wordList : List K) : ℤ :=
  let st := runLwmAlgo k dataSegmentSize locDict.clear wordList
  if dictSizeOptEn then
    match runDynamicDict st.locDict (dataPtrBits wordList.length) st with
    | some ret => if 0 < ret then ret else st.compBitSize
    | none => st.compBitSize
  else st.compBitSize

end

end CompressionWork.Lwm
