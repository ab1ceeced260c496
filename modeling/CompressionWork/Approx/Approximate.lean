import Mathlib.Data.List.Basic
import Mathlib.Data.UInt
import Mathlib.Tactic.Common

/-!
# The approximation of a data block

The model of `approximate_data` of `hpcl_cuda_comp`.

* `setZeroWord` — `SET_ZERO` without error compensation.
* `compensateWord`, `branch` — `SET_ZERO` with it, one row for each range.
* `approximateNibbles` — `SET_AVG` and `SET_FREQ`.
* `approximateData` — the whole function; `none` stands for an index outside the block, a failed assertion
  or a division by zero.

A block is the data of one memory request, so its indices and the sum of its nibbles are plain numbers.
-/

namespace CompressionWork.Approx

/-- `COMP_DATA_TYPE`. -/
inductive CompDataType
  | noDataType
  | orgData
  | remappedData1
  | remappedData2
  | remappedData3
  | remappedData4
  | remappedData5
  | remappedData6
  deriving DecidableEq

/-- `app_type`. -/
inductive ApproxType
  | setZero
  | setAvg
  | setFreq
  deriving DecidableEq

/-- The options of `hpcl_comp_config` that `approximate_data` reads. -/
structure ApproxConfig where
  approxType : ApproxType
  floatApproxRange : UInt32
  errCompenEn : Bool

/-- The bytes of a word. -/
def CompDataType.interval : CompDataType → Option ℕ
  | .remappedData2 => some 4
  | .remappedData4 => some 8
  | _ => none

/-! ## Loops over the words -/

/-- `data[k] = v`. -/
def setByte (data : List UInt8) (k : ℕ) (v : UInt8) : Option (List UInt8) :=
  if k < data.length then some (data.set k v) else none

/-- The values of `i` in `for (i = 0; i < data.size(); i = i + interval)`. -/
def wordStarts (interval size : ℕ) : List ℕ :=
  (List.range ((size + interval - 1) / interval)).map (· * interval)

/-- The loop over the words of the line. -/
def forWords (interval : ℕ) (body : List UInt8 → ℕ → Option (List UInt8)) (data : List UInt8) :
    Option (List UInt8) :=
  (wordStarts interval data.length).foldlM body data

/-! ## `SET_ZERO` -/

/-- The byte of a word in which the approximated range ends. -/
def lastByteIndex (approxRange : UInt32) : ℕ := ((approxRange / 2 - 1) / 4).toNat

/-- What `last_2bit_index` leaves of the last byte. -/
def lastByteMask (approxRange : UInt32) : UInt8 :=
  match ((approxRange / 2 - 1) % 4).toNat with
  | 0 => 0xfc
  | 1 => 0xf0
  | 2 => 0xc0
  | _ => 0x00

/-- `SET_ZERO` on the word at `i`: its first bytes are cleared and the last one is masked. -/
def setZeroWord (approxRange : UInt32) (data : List UInt8) (i : ℕ) : Option (List UInt8) :=
  ((List.range (lastByteIndex approxRange)).foldlM (fun data j => setByte data (i + j) 0) data).bind fun data =>
    (data[i + lastByteIndex approxRange]?).bind fun b =>
      setByte data (i + lastByteIndex approxRange) (b &&& lastByteMask approxRange)

/-! ## Error compensation -/

/-- The constants of a branch: the rounding digit, the masks of the first three bytes, and what is added. -/
structure Branch where
  digitByte : ℕ
  digitMask : UInt8
  digitShift : UInt8
  threshold : UInt8
  clear0 : UInt8
  clear1 : UInt8
  clear2 : UInt8
  extra : UInt32

/-- The branches for the ranges 2 to 20. -/
def branch (approxRange : UInt32) : Option Branch :=
  match approxRange.toNat with
  | 2 => some ⟨0, 0x03, 0, 0x02, 0xfc, 0xff, 0xff, (1 : UInt32) <<< 2⟩
  | 4 => some ⟨0, 0x0f, 0, 0x08, 0xf0, 0xff, 0xff, (1 : UInt32) <<< 4⟩
  | 6 => some ⟨0, 0x30, 4, 0x02, 0xc0, 0xff, 0xff, (1 : UInt32) <<< 6⟩
  | 8 => some ⟨0, 0xf0, 4, 0x08, 0x00, 0xff, 0xff, (1 : UInt32) <<< 8⟩
  | 10 => some ⟨1, 0x03, 0, 0x02, 0x00, 0xfc, 0xff, (1 : UInt32) <<< 10⟩
  | 12 => some ⟨1, 0x0f, 0, 0x08, 0x00, 0xf0, 0xff, (1 : UInt32) <<< 12⟩
  | 14 => some ⟨1, 0x30, 4, 0x02, 0x00, 0xc0, 0xff, (1 : UInt32) <<< 14⟩
  | 16 => some ⟨1, 0xf0, 4, 0x08, 0x00, 0x00, 0xff, (1 : UInt32) <<< 16⟩
  | 18 => some ⟨2, 0x03, 0, 0x02, 0x00, 0x00, 0xfc, (1 : UInt32) <<< 18⟩
  | 20 => some ⟨2, 0x0f, 0, 0x08, 0x00, 0x00, 0xf0, (1 : UInt32) <<< 20⟩
  | _ => none

/-- The mantissa bits of three bytes. -/
def mantissaBits (b0 b1 b2 : UInt8) : UInt32 :=
  b0.toUInt32 ||| b1.toUInt32 <<< 8 ||| (b2 &&& 0x7f).toUInt32 <<< 16

/-- The first three bytes of a word after a branch. -/
def Branch.round (br : Branch) (b0 b1 b2 : UInt8) : UInt8 × UInt8 × UInt8 :=
  let digit := if br.digitByte = 0 then b0 else if br.digitByte = 1 then b1 else b2
  let needErrCompensation := br.threshold ≤ (digit &&& br.digitMask) >>> br.digitShift
  let b0 := b0 &&& br.clear0
  let b1 := b1 &&& br.clear1
  let b2 := b2 &&& br.clear2
  if needErrCompensation then
    let tmp := mantissaBits b0 b1 b2 + br.extra
    (tmp.toUInt8, (tmp >>> 8).toUInt8, (b2 &&& (0x80 : UInt8)) ||| (tmp >>> 16 &&& (0x7f : UInt32)).toUInt8)
  else (b0, b1, b2)

/-- Every branch reads and writes the first three bytes of the word; a range without one leaves it. -/
def compensateWord (approxRange : UInt32) (data : List UInt8) (i : ℕ) : Option (List UInt8) :=
  match branch approxRange with
  | none => some data
  | some br =>
      (data[i]?).bind fun b0 => (data[i + 1]?).bind fun b1 => (data[i + 2]?).bind fun b2 =>
        (setByte data i (br.round b0 b1 b2).1).bind fun data =>
          (setByte data (i + 1) (br.round b0 b1 b2).2.1).bind fun data =>
            setByte data (i + 2) (br.round b0 b1 b2).2.2

/-! ## `SET_AVG` and `SET_FREQ` -/

/-- Nibble `j` of a word is in byte `j / 2`. -/
def nibble (j : ℕ) (b : UInt8) : ℕ :=
  if j % 2 = 0 then (b &&& (0x0f : UInt8)).toNat else ((b &&& (0xf0 : UInt8)) >>> 4).toNat

/-- The nibble `j` of a word becomes `v`, in the byte that holds it. -/
def putNibble (j : ℕ) (b v : UInt8) : UInt8 :=
  if j % 2 = 0 then (b &&& (0xf0 : UInt8)) ||| v else (b &&& (0x0f : UInt8)) ||| (v <<< 4)

/-- `nib_track`. -/
def nibTrack (interval j : ℕ) (data : List UInt8) : Option (List ℕ) :=
  (wordStarts interval data.length).mapM fun i => (data[i + j / 2]?).map (nibble j)

/-- `freq_check`, `max_c` and `max_val`. -/
structure Frequencies where
  freqCheck : ℕ → ℕ := fun _ => 0
  maxC : ℕ := 0
  maxVal : ℕ := 0

/-- One round of the loop of `SET_FREQ`. -/
def Frequencies.count (s : Frequencies) (v : ℕ) : Frequencies :=
  let freqCheck := Function.update s.freqCheck v (s.freqCheck v + 1)
  if s.maxC < freqCheck v then ⟨freqCheck, freqCheck v, v⟩ else { s with freqCheck }

/-- The nibble that occurs most often. -/
def mostFrequent (nibTrack : List ℕ) : ℕ := (nibTrack.foldl Frequencies.count {}).maxVal

/-- `approx_val`. -/
def approxVal (approxType : ApproxType) (nibTrack : List ℕ) : Option ℕ :=
  match approxType with
  | .setAvg => if nibTrack.length = 0 then none else some (nibTrack.sum / nibTrack.length &&& 0x0f)
  | .setFreq => some (mostFrequent nibTrack &&& 0x0f)
  | .setZero => some 0

/-- One nibble of every word is replaced. -/
def approximateNibble (approxType : ApproxType) (interval : ℕ) (data : List UInt8) (j : ℕ) :
    Option (List UInt8) :=
  (nibTrack interval j data).bind fun track => (approxVal approxType track).bind fun v =>
    forWords interval (fun data i => (data[i + j / 2]?).bind fun b =>
      setByte data (i + j / 2) (putNibble j b (UInt8.ofNat v))) data

/-- `SET_AVG` and `SET_FREQ`: the nibbles of the range, one after the other. -/
def approximateNibbles (approxType : ApproxType) (approxRange : UInt32) (interval : ℕ) (data : List UInt8) :
    Option (List UInt8) :=
  (List.range approxRange.toNat).foldlM (approximateNibble approxType interval) data

/-! ## The function -/

/-- `approximate_data`. -/
def approximateData (config : ApproxConfig) (data : List UInt8) (type : CompDataType) : Option (List UInt8) :=
  type.interval.bind fun interval =>
    match config.approxType with
    | .setZero =>
        if config.errCompenEn then forWords interval (compensateWord config.floatApproxRange) data
        else forWords interval (setZeroWord config.floatApproxRange) data
    | approxType => approximateNibbles approxType config.floatApproxRange interval data

end CompressionWork.Approx
