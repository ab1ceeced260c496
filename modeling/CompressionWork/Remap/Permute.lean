import CompressionWork.Codec.Digits
import Mathlib.Data.List.Basic
import Mathlib.Tactic.Common

/-!
# Data remapping: the permutation of a line

The first half of `hpcl_comp::remap_data_to_type1`: bytes with the same position in a word
are brought together (`remap_data_to_type0`), and then the nibbles or the bits of each of
these segments are regrouped.

* `remapDataToType0` — byte `i` goes to bin `i % remapRes`; the bins are put one after the
  other, the last one first.
* `groupNibbles`, `groupBits` — the two branches of `hpcl_data_remap_level`.
* `remapDataToType1` — both stages, without operations.

Reading a vector outside its bounds, a failed assertion and a division by zero have no
result.  The loops fill the output from front to back, so it is built as a list.
-/

namespace CompressionWork.Remap

/-! ## Nibbles -/

/-- `b & 0x0f` -/
def lowNib (b : UInt8) : ℕ := b.toNat % 16

/-- `(b >> 4) & 0x0f`, or `(b & 0xf0) >> 4` -/
def highNib (b : UInt8) : ℕ := b.toNat / 16

/-- `lo | (hi << 4)` -/
def joinNib (lo hi : ℕ) : UInt8 := UInt8.ofNat (lo + hi * 16)

theorem lowNib_lt (b : UInt8) : lowNib b < 16 := Nat.mod_lt _ (by decide)

theorem highNib_lt (b : UInt8) : highNib b < 16 := Nat.div_lt_of_lt_mul b.toNat_lt

theorem toNat_joinNib {lo hi : ℕ} (hlo : lo < 16) (hhi : hi < 16) :
    (joinNib lo hi).toNat = lo + hi * 16 :=
  UInt8.toNat_ofNat_of_lt' (show lo + hi * 16 < 2 ^ 8 by omega)

/-! ## Stage 0 -/

/-- The bytes that the loop pushes into bin `r`. -/
def bin (remapRes r : ℕ) (data : List UInt8) : List UInt8 :=
  (List.range data.length).filterMap fun i => if i % remapRes = r then data[i]? else none

/-- `remap_data_to_type0`, with the size check at its start. -/
def remapDataToType0 (remapRes : ℕ) (data : List UInt8) : Option (List UInt8) :=
  if remapRes ≠ 0 ∧ data.length % remapRes = 0 then
    some ((List.range remapRes).reverse.flatMap fun r => bin remapRes r data)
  else none

/-! ## Stage 1 -/

/-- `hpcl_data_remap_level` -/
inductive Level where
  | nibble
  | bit
  deriving DecidableEq, Repr

/-- The output byte of round `j` of segment `i`: two high nibbles in the first half of the
rounds, two low nibbles in the second half. -/
def nibbleByte (remapUnitSize : ℕ) (data0 : List UInt8) (i j : ℕ) : Option UInt8 :=
  (data0[i * remapUnitSize + j % remapUnitSize]?).bind fun transData1 =>
    (data0[i * remapUnitSize + (j + 1) % remapUnitSize]?).map fun transData2 =>
      if j < remapUnitSize then joinNib (highNib transData1) (highNib transData2)
      else joinNib (lowNib transData1) (lowNib transData2)

/-- The output byte of round `j` of segment `i`: bit `7 - j / remapUnitSize` of eight bytes
in a row, the first one as the most significant bit. -/
def bitByte (remapUnitSize : ℕ) (data0 : List UInt8) (i j : ℕ) : Option UInt8 :=
  ((List.range 8).mapM fun k =>
      (data0[i * remapUnitSize + j % remapUnitSize + k]?).map fun b =>
        b.toNat / 2 ^ (7 - j / remapUnitSize) % 2).map
    fun bits => UInt8.ofNat (bits.foldl (fun remappedByte bitValue =>
      remappedByte * 2 + bitValue) 0)

/-- Round `q` of segment `i`; the counter `j` of the source has step 2 or 8. -/
def groupRound (level : Level) (remapUnitSize : ℕ) (data0 : List UInt8) (i q : ℕ) : Option UInt8 :=
  match level with
  | .nibble => nibbleByte remapUnitSize data0 i (2 * q)
  | .bit => bitByte remapUnitSize data0 i (8 * q)

/-- The loops over the segments and over the rounds of a segment. -/
def groupSegments (level : Level) (remapUnitSize : ℕ) (data0 : List UInt8) :
    Option (List UInt8) :=
  if remapUnitSize = 0 then none
  else ((List.range (data0.length / remapUnitSize)).mapM fun i =>
    (List.range remapUnitSize).mapM fun q =>
      groupRound level remapUnitSize data0 i q).map List.flatten

/-- `remap_data_to_type1` up to the operations. -/
def remapDataToType1 (level : Level) (remapRes : ℕ) (data : List UInt8) : Option (List UInt8) :=
  (remapDataToType0 remapRes data).bind fun data0 =>
    groupSegments level (data.length / remapRes) data0

/-! ## The property -/

/-- Bit `p.2` of byte `p.1`. -/
def bitOf {n : ℕ} (data : List UInt8) (p : Fin n × Fin 8) : ℕ :=
  (data.getD p.1 0).toNat / 2 ^ (p.2 : ℕ) % 2

/-- The remapping of lines of `n` bytes is reversible: it is defined for every line, each
input bit appears in exactly one output bit, and the grouping stage stays inside the
segments. -/
structure Reversible (level : Level) (remapRes n : ℕ) : Prop where
  perm : ∃ σ : Equiv.Perm (Fin n × Fin 8), ∀ data : List UInt8, data.length = n →
    ∃ out, remapDataToType1 level remapRes data = some out ∧ out.length = n ∧
      ∀ p, bitOf out p = bitOf data (σ p)
  segment : ∃ τ : Equiv.Perm (Fin n × Fin 8),
    (∀ p, ((τ p).1 : ℕ) / (n / remapRes) = (p.1 : ℕ) / (n / remapRes)) ∧
      ∀ data0 : List UInt8, data0.length = n →
        ∃ out, groupSegments level (n / remapRes) data0 = some out ∧ out.length = n ∧
          ∀ p, bitOf out p = bitOf data0 (τ p)

end CompressionWork.Remap
