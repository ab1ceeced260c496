import CompressionWork.Cache.Probe
import Mathlib

/-!
# The identity of a block

The tag and the MSHR key of an address are the address under a mask that has 32 bits, so they do not see the
upper half of the address.

* `lineOf` — the aligned line of an address, over all its 64 bits.
* `SameBlock` — the tag array and the MSHR table do not tell two addresses apart.
* `sameBlock_iff` — that is so for the addresses of one line, unless the upper halves matter.
-/

namespace CompressionWork.Cache

namespace CacheConfig

variable (cfg : CacheConfig)

/-- The address without its offset in the line. -/
def lineOf (addr : NewAddrType) : NewAddrType := addr &&& ~~~(cfg.lineSz - 1).toUInt64

/-- The cache cannot tell the two addresses apart. -/
def SameBlock (a b : NewAddrType) : Prop := cfg.tag a = cfg.tag b ∧ cfg.blockAddr a = cfg.blockAddr b

/-- The lower half of an address. -/
def lowerHalf (addr : NewAddrType) : NewAddrType := addr.toUInt32.toUInt64

/-- A bit of the offset in the line. -/
def offsetBit (i : ℕ) : Bool := (cfg.lineSz - 1).toBitVec.getLsbD i

end CacheConfig

open CacheConfig

variable {cfg : CacheConfig} {a b : NewAddrType} {i k : ℕ}

/-! ## Bit by bit -/

theorem uint64_eq_iff : a = b ↔ ∀ i < 64, a.toBitVec.getLsbD i = b.toBitVec.getLsbD i := by
  rw [← UInt64.toBitVec_inj]
  exact ⟨fun h i _ => by rw [h], fun h => BitVec.eq_of_getLsbD_eq fun i hi => h i hi⟩

theorem offsetBit_of_le (hi : 32 ≤ i) : cfg.offsetBit i = false := BitVec.getLsbD_of_ge _ _ hi

theorem tag_bit (hi : i < 64) : (cfg.tag a).toBitVec.getLsbD i =
    (a.toBitVec.getLsbD i && (decide (i < 32) && !cfg.offsetBit i)) := by
  have hmask : (cfg.tag a).toBitVec = a.toBitVec &&& (~~~(cfg.lineSz - 1).toBitVec).setWidth 64 := rfl
  rw [hmask, BitVec.getLsbD_and, BitVec.getLsbD_setWidth, BitVec.getLsbD_not, decide_eq_true hi,
    Bool.true_and, offsetBit]

theorem lineOf_bit (hi : i < 64) : (cfg.lineOf a).toBitVec.getLsbD i =
    (a.toBitVec.getLsbD i && !cfg.offsetBit i) := by
  have hmask : (cfg.lineOf a).toBitVec = a.toBitVec &&& ~~~((cfg.lineSz - 1).toBitVec.setWidth 64) := rfl
  rw [hmask, BitVec.getLsbD_and, BitVec.getLsbD_not, BitVec.getLsbD_setWidth, decide_eq_true hi,
    Bool.true_and, Bool.true_and, offsetBit]

theorem lowerHalf_bit (hi : i < 64) : (lowerHalf a).toBitVec.getLsbD i =
    (decide (i < 32) && a.toBitVec.getLsbD i) := by
  have hhalf : (lowerHalf a).toBitVec = (a.toBitVec.setWidth 32).setWidth 64 := rfl
  rw [hhalf, BitVec.getLsbD_setWidth, BitVec.getLsbD_setWidth, decide_eq_true hi, Bool.true_and]

theorem upperHalf_bit : (a >>> 32).toBitVec.getLsbD i = a.toBitVec.getLsbD (32 + i) := by
  have hhalf : (a >>> 32).toBitVec = a.toBitVec >>> 32 := rfl
  rw [hhalf, BitVec.getLsbD_ushiftRight]

/-- Two addresses with one tag agree on the lower bits that are not in the offset. -/
theorem tag_eq_iff : cfg.tag a = cfg.tag b ↔
    ∀ i < 32, cfg.offsetBit i = false → a.toBitVec.getLsbD i = b.toBitVec.getLsbD i := by
  rw [uint64_eq_iff]
  constructor
  · intro h i hi hoffset
    have hbit := h i (by omega)
    simpa [tag_bit (show i < 64 by omega), hi, hoffset] using hbit
  · intro h i hi
    rw [tag_bit hi, tag_bit hi]
    by_cases hlow : i < 32
    · cases hoffset : cfg.offsetBit i with
      | false => rw [h i hlow hoffset]
      | true => simp
    · simp [hlow]

/-- Two addresses of one line agree on all the bits that are not in the offset. -/
theorem lineOf_eq_iff : cfg.lineOf a = cfg.lineOf b ↔
    ∀ i < 64, cfg.offsetBit i = false → a.toBitVec.getLsbD i = b.toBitVec.getLsbD i := by
  rw [uint64_eq_iff]
  constructor
  · intro h i hi hoffset
    have hbit := h i hi
    simpa [lineOf_bit hi, hoffset] using hbit
  · intro h i hi
    rw [lineOf_bit hi, lineOf_bit hi]
    cases hoffset : cfg.offsetBit i with
    | false => rw [h i hi hoffset]
    | true => simp

theorem upperHalf_eq_iff : a >>> 32 = b >>> 32 ↔
    ∀ i < 64, 32 ≤ i → a.toBitVec.getLsbD i = b.toBitVec.getLsbD i := by
  rw [uint64_eq_iff]
  constructor
  · intro h i hi hle
    have hbit := h (i - 32) (by omega)
    rwa [upperHalf_bit, upperHalf_bit, Nat.add_sub_cancel' hle] at hbit
  · intro h i hi
    rw [upperHalf_bit, upperHalf_bit]
    by_cases hlt : 32 + i < 64
    · exact h _ hlt (Nat.le_add_right _ _)
    · rw [BitVec.getLsbD_of_ge _ _ (by omega), BitVec.getLsbD_of_ge _ _ (by omega)]

/-! ## Lines and blocks -/

/-- The tag tells the lower halves of two addresses apart when they are in different lines. -/
theorem tag_eq_iff_lowerHalf : cfg.tag a = cfg.tag b ↔
    cfg.lineOf (lowerHalf a) = cfg.lineOf (lowerHalf b) := by
  rw [tag_eq_iff, lineOf_eq_iff]
  constructor
  · intro h i hi hoffset
    rw [lowerHalf_bit hi, lowerHalf_bit hi]
    by_cases hlow : i < 32
    · rw [h i hlow hoffset]
    · simp [hlow]
  · intro h i hi hoffset
    have hbit := h i (by omega) hoffset
    simpa [lowerHalf_bit (show i < 64 by omega), hi] using hbit

theorem lineOf_eq_iff_halves : cfg.lineOf a = cfg.lineOf b ↔ cfg.tag a = cfg.tag b ∧ a >>> 32 = b >>> 32 := by
  rw [lineOf_eq_iff, tag_eq_iff, upperHalf_eq_iff]
  constructor
  · exact fun h => ⟨fun i hi => h i (by omega), fun i hi hle => h i hi (offsetBit_of_le hle)⟩
  · rintro ⟨hlow, hhigh⟩ i hi hoffset
    by_cases hlt : i < 32
    · exact hlow i hlt hoffset
    · exact hhigh i hi (Nat.le_of_not_lt hlt)

/-- Lines of `2 ^ k` bytes: two addresses are in one line when they have the same quotient. -/
theorem lineOf_eq_iff_div (hsize : cfg.lineSz.toNat = 2 ^ k) :
    cfg.lineOf a = cfg.lineOf b ↔ a.toNat / cfg.lineSz.toNat = b.toNat / cfg.lineSz.toNat := by
  have hoffset : ∀ i, cfg.offsetBit i = decide (i < k) := by
    intro i
    have hone : (1 : UInt32) ≤ cfg.lineSz := by
      rw [UInt32.le_iff_toNat_le, hsize]
      exact Nat.two_pow_pos k
    rw [offsetBit, ← BitVec.testBit_toNat, UInt32.toNat_toBitVec, UInt32.toNat_sub_of_le _ _ hone, hsize]
    exact Nat.testBit_two_pow_sub_one k i
  have hdiv : ∀ x y : ℕ, x / 2 ^ k = y / 2 ^ k ↔ ∀ i, x.testBit (k + i) = y.testBit (k + i) := by
    intro x y
    rw [← Nat.shiftRight_eq_div_pow, ← Nat.shiftRight_eq_div_pow]
    constructor
    · intro h i
      rw [← Nat.testBit_shiftRight, ← Nat.testBit_shiftRight, h]
    · intro h
      refine Nat.eq_of_testBit_eq fun i => ?_
      rw [Nat.testBit_shiftRight, Nat.testBit_shiftRight, h i]
  rw [hsize, hdiv, lineOf_eq_iff]
  constructor
  · intro h i
    have hbit : ∀ x : NewAddrType, x.toNat.testBit (k + i) = x.toBitVec.getLsbD (k + i) := fun x =>
      BitVec.testBit_toNat _
    rw [hbit, hbit]
    by_cases hlt : k + i < 64
    · exact h _ hlt (by simp [hoffset])
    · rw [BitVec.getLsbD_of_ge _ _ (by omega), BitVec.getLsbD_of_ge _ _ (by omega)]
  · intro h i hi hbit
    rw [hoffset, decide_eq_false_iff_not] at hbit
    have htest := h (i - k)
    rw [Nat.add_sub_cancel' (Nat.le_of_not_lt hbit)] at htest
    exact htest

/-- **Blocks are lines** for two addresses just when their upper halves agree, or their lower halves are in
different lines. -/
theorem sameBlock_iff (cfg : CacheConfig) (a b : NewAddrType) :
    ((cfg.SameBlock a b ↔ cfg.lineOf a = cfg.lineOf b) ↔
      a >>> 32 = b >>> 32 ∨ cfg.lineOf (lowerHalf a) ≠ cfg.lineOf (lowerHalf b)) ∧
      ∀ k, cfg.lineSz.toNat = 2 ^ k →
        (cfg.lineOf a = cfg.lineOf b ↔ a.toNat / cfg.lineSz.toNat = b.toNat / cfg.lineSz.toNat) := by
  refine ⟨?_, fun k => lineOf_eq_iff_div⟩
  have hblock : cfg.SameBlock a b ↔ cfg.tag a = cfg.tag b := and_iff_left_of_imp id
  rw [hblock, lineOf_eq_iff_halves, Ne, ← tag_eq_iff_lowerHalf]
  tauto

/-! ## A hit on another line -/

/-- What a probe hits on, or finds reserved, is the block of the address. -/
theorem sameBlock_of_probe {p : TagParams} {lines : Lines} {segNo idx : ℕ}
    (hline : (lines idx).tag = p.config.tag b)
    (hprobe : p.probe lines a segNo = some (.hit idx) ∨ p.probe lines a segNo = some (.hitReserved idx)) :
    p.config.SameBlock a b := by
  have htag : (lines idx).tag = p.config.tag a :=
    hprobe.elim (fun h => (TagParams.probe_hit h).1) fun h => (TagParams.probe_hitReserved h).1
  have heq : p.config.tag a = p.config.tag b := htag.symm.trans hline
  exact ⟨heq, heq⟩

/-- The string `32:128:4,L:L:m:N:H,A:32:8,8` for the L1 data cache. -/
def fourWayTokens : ConfigTokens where
  nset := 32
  lineSz := 128
  assoc := 4
  rp := 'L'
  wp := 'L'
  ap := 'm'
  wap := 'N'
  sif := 'H'
  mshrType := 'A'
  mshrEntries := 32
  mshrMaxMerge := 8
  missQueueSize := 8
  resultFifoEntries := 0
  dataPortWidth := 0

def fourWay : CacheConfig where
  cls := .l1d
  nset := 32
  lineSz := 128
  assoc := 4
  replacementPolicy := .lru
  writePolicy := .localWbGlobalWt
  allocPolicy := .onMiss
  writeAllocPolicy := .noWriteAllocate
  mshrType := .assoc
  mshrEntries := 32
  mshrMaxMerge := 8
  missQueueSize := 8
  resultFifoEntries := 0
  dataPortWidth := 128
  setIndexFunction := .fermiHash

/-- The addresses `0` and `2 ^ 32` are one block, in one set, and are not in one line. -/
theorem not_sameLine_of_sameBlock : CacheConfig.init .l1d 12 fourWayTokens = some fourWay ∧
    fourWay.SameBlock 0 0x100000000 ∧ fourWay.setIndex 0 = fourWay.setIndex 0x100000000 ∧
    ¬ (fourWay.SameBlock 0 0x100000000 ↔ fourWay.lineOf 0 = fourWay.lineOf 0x100000000) := by
  have hblock : fourWay.SameBlock 0 0x100000000 := ⟨by decide, by decide⟩
  have hline : fourWay.lineOf 0 ≠ fourWay.lineOf 0x100000000 := by decide
  exact ⟨rfl, hblock, by decide, fun h => hline (h.1 hblock)⟩

end CompressionWork.Cache
