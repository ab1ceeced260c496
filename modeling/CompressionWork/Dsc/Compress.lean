import CompressionWork.Remap.Permute
import Mathlib.Data.Nat.Log
import Mathlib.Algebra.BigOperators.Group.List.Basic

/-!
# Data segment compression

`hpcl_comp_dsc_pl_proc`: a line is cut into segments of one size, the resolution, and a
segment that consists of one byte of a few is replaced by a short code.  The resolution, and
with data remapping the form of the data, is the one with the fewest bits.

* `runDsComp` — `run_ds_comp`: the bits of a line at one resolution.
* `dscResCandi` — the resolutions that are tried.
* `run` — the bits reported for a line, with static resolution (`hpcl_dsc_lwm_rep_opt_en` is 0).

The constructor accepts two algorithms only, so the header is one bit.
-/

namespace CompressionWork.Dsc

open Remap

/-- `hpcl_comp_algo`, as far as the constructor accepts it. -/
inductive CompAlgo where
  | dataSegMatching
  | dataSegMatching2
  deriving DecidableEq, Repr

/-- The options of `g_hpcl_comp_config` that are read. -/
structure Config where
  algo : CompAlgo
  minDsSize : ℕ
  maxDsSize : ℕ
  dynEncodingStatus : Bool
  remapDataUseOnly : Bool
  dataRemapOp : Bool
  deriving DecidableEq, Repr

/-! ## One resolution -/

namespace Config

variable (cfg : Config)

/-- `encoding_bits` -/
def encodingBits : ℕ :=
  match cfg.algo with
  | .dataSegMatching => 4
  | .dataSegMatching2 => 1

/-- The number of encoded segments is sent with the line; `DATA_SEG_MATCHING` does not look at the
option. -/
def dyn : Bool :=
  match cfg.algo with
  | .dataSegMatching => false
  | .dataSegMatching2 => cfg.dynEncodingStatus

end Config

/-- `is_all_byte_same` -/
def isAllByteSame : List UInt8 → Bool
  | [] => true
  | byteData :: rest => rest.all (· == byteData)

/-- Whether a segment is replaced: all bytes are one byte, of two equal nibbles or `00` or `ff`. -/
def isCompressed (cfg : Config) (seg : List UInt8) : Bool :=
  let byteData := seg.headD 0
  isAllByteSame seg &&
    match cfg.algo with
    | .dataSegMatching => highNib byteData == lowNib byteData
    | .dataSegMatching2 => byteData == 0x00 || byteData == 0xff

/-- The segments of `res` bytes; what is left at the end is not looked at. -/
def segments (res : ℕ) (data : List UInt8) : List (List UInt8) :=
  (List.range (data.length / res)).map fun i => (data.drop (i * res)).take res

/-- `last_encoded_index + 1` after the loop. -/
def encodedUpTo (encStatus : List Bool) : ℕ :=
  encStatus.zipIdx.foldl (fun last p => if p.1 then p.2 + 1 else last) 0

/-- The bits of a segment without its status. -/
def dataBits (cfg : Config) (res : ℕ) (seg : List UInt8) : ℕ :=
  if isCompressed cfg seg then cfg.encodingBits else res * 8

/-- The bits of a segment; its status is one bit, or counted after the loop. -/
def segBits (cfg : Config) (res : ℕ) (seg : List UInt8) : ℕ :=
  if cfg.dyn then dataBits cfg res seg else dataBits cfg res seg + 1

/-- `ceil(log2((double)(128/res)))`; the logarithm of 0 is not a number of bits. -/
def maxDsNoBitNo (res : ℕ) : Option ℕ :=
  if 128 / res = 0 then none else some (Nat.clog 2 (128 / res))

/-- What `run_ds_comp` gives back. -/
structure DsComp where
  encStatus : List Bool
  compBits : ℕ
  compDataBitsOnly : ℕ
  deriving DecidableEq, Repr

/-- A form of the data of a line: the line itself, or remapped data and `get_remap_op_bits`. -/
structure View where
  data : List UInt8
  opBits : ℕ
  deriving DecidableEq, Repr

/-- The bits that undoing a data remapping takes. -/
def opBits (cfg : Config) (dataType : ℕ) (view : View) : ℕ :=
  if cfg.dataRemapOp && 0 < dataType then view.opBits else 0

/-- The bits of the field in front of the segments. -/
def fieldBits (cfg : Config) (res : ℕ) : Option ℕ :=
  if cfg.dyn then maxDsNoBitNo res else some 0

/-- `run_ds_comp`; a resolution of 0 is a division by zero. -/
def runDsComp (cfg : Config) (res dataType : ℕ) (view : View) : Option DsComp :=
  if res = 0 then none
  else
    let segs := segments res view.data
    let encStatus := segs.map (isCompressed cfg)
    (fieldBits cfg res).map fun field =>
      { encStatus := encStatus
        -- 1-bit compressed or not
        compBits := 1 + field + (segs.map (segBits cfg res)).sum +
          (if cfg.dyn then encodedUpTo encStatus else 0) + opBits cfg dataType view
        compDataBitsOnly := (segs.map (dataBits cfg res)).sum }

/-! ## All resolutions -/

/-- The loop that doubles `ds_size`; it does not end when `ds_size` is 0. -/
def doublings (maxDsSize n dsSize : ℕ) : List ℕ :=
  if dsSize = 0 ∨ n < dsSize ∨ maxDsSize < dsSize then []
  else dsSize :: doublings maxDsSize n (dsSize * 2)
termination_by n + 1 - dsSize

/-- `dsc_res_candi` for a line of `n` bytes. -/
def dscResCandi (cfg : Config) (n : ℕ) : List ℕ :=
  cfg.minDsSize :: doublings cfg.maxDsSize n (cfg.minDsSize * 2)

/-- `min_comp_data_bits`, `min_ds_size`, `min_index` and `min_comp_data_bits_only`. -/
structure Best where
  compDataBits : ℕ
  dsSize : ℕ
  index : ℕ
  compDataBitsOnly : ℕ
  deriving DecidableEq, Repr

/-- The best resolution for a form of the data; the first one of the best. -/
def bestRes (cfg : Config) (candi : List ℕ) (m : ℕ) (view : View) : Option Best :=
  (candi.mapM fun res => (runDsComp cfg res m view).map fun c =>
      (⟨c.compBits, res, m, c.compDataBitsOnly⟩ : Best)).bind fun rec =>
    match rec with
    | [] => none
    | b :: bs => some (bs.foldl (fun best x =>
        if x.compDataBits < best.compDataBits then x else best) b)

/-! ## The line -/

/-- `set_comp_data_bits`, `set_dsc_comp_res`, the data type by its index or `NO_DATA_TYPE`, and
`set_dsc_compressed_bits_only`. -/
structure Report where
  compDataBits : ℕ
  dscCompRes : ℕ
  dataType : Option ℕ
  compressedBitsOnly : ℕ
  deriving DecidableEq, Repr

/-- The loop over the forms of the data; 0 stands for no minimum yet. -/
def bestView (bests : List Best) : Best :=
  bests.foldl (fun best b =>
    if best.compDataBits = 0 ∨ b.compDataBits < best.compDataBits then b else best) ⟨0, 0, 0, 0⟩

/-- `run` on `cache_data`, whose first entry is the line; nothing is set for an empty line. -/
def run (cfg : Config) : List View → Option Report
  | [] => none
  | org :: transData =>
      if org.data.length = 0 then none
      else
        let views := (org :: transData).zipIdx
        let startDataTypeIndex := if cfg.remapDataUseOnly then 1 else 0
        ((views.drop startDataTypeIndex).mapM fun p =>
            bestRes cfg (dscResCandi cfg org.data.length) p.2 p.1).map fun bests =>
          let best := bestView bests
          if best.compDataBits > org.data.length * 8 then
            ⟨org.data.length * 8 + 1, 0, none, org.data.length * 8⟩
          else ⟨best.compDataBits, best.dsSize, some best.index, best.compDataBitsOnly⟩

end CompressionWork.Dsc
