import CompressionWork.Dram.Timing

/-!
# Bank groups

The group of a bank is computed twice: `bkgrpindex` divides, and `cycle` shifts by `bk_tag_length`.

* `Consistent` — the two agree.
* `consistent_iff` — they do when there is one group only: the shift is by the number of bits of the group
  size, one more than its logarithm.
-/

namespace CompressionWork.Dram

/-- The group that `cycle` uses for a bank is the one assigned to it, and banks share their counters just
when they are in one group. -/
def Consistent (cfg : MemoryConfig) : Prop :=
  (∀ j < cfg.nbk.toNat, cfg.grp j = cfg.bkgrpindex j) ∧
    ∀ i < cfg.nbk.toNat, ∀ j < cfg.nbk.toNat, cfg.grp i = cfg.grp j ↔ cfg.bkgrpindex i = cfg.bkgrpindex j

variable {cfg : MemoryConfig}

/-- The shift takes the group size itself to zero. -/
theorem lt_two_pow_tagLength {fuel n : ℕ} (h : n < 2 ^ fuel) : n < 2 ^ MemoryConfig.tagLength fuel n := by
  induction fuel generalizing n with
  | zero => exact h
  | succ fuel ih =>
    rw [MemoryConfig.tagLength]
    split
    case isTrue hpos =>
      have hhalf : n / 2 < 2 ^ MemoryConfig.tagLength fuel (n / 2) := ih (by rw [pow_succ] at h; omega)
      rw [pow_succ]
      omega
    case isFalse hzero => omega

theorem grp_eq_zero {j : ℕ} (hsize : cfg.banksPerGroup < 2 ^ 31) (hj : j ≤ cfg.banksPerGroup) :
    cfg.grp j = 0 := by
  have hlt : cfg.banksPerGroup < 2 ^ MemoryConfig.tagLength 32 cfg.banksPerGroup :=
    lt_two_pow_tagLength (by omega)
  rw [MemoryConfig.grp, MemoryConfig.bkTagLength, if_pos hsize, Nat.shiftRight_eq_div_pow]
  exact Nat.div_eq_of_lt (Nat.lt_of_le_of_lt hj hlt)

theorem grp_of_large {j : ℕ} (hsize : 2 ^ 31 ≤ cfg.banksPerGroup) : cfg.grp j = j := by
  rw [MemoryConfig.grp, MemoryConfig.bkTagLength, if_neg (Nat.not_lt.2 hsize), Nat.shiftRight_zero]

/-- **Bank groups are consistent** just when there is one of them, and it has fewer than `2 ^ 31` banks. -/
theorem consistent_iff (hgrp : 0 < cfg.nbkgrp.toNat) (hdvd : cfg.nbkgrp.toNat ∣ cfg.nbk.toNat) :
    Consistent cfg ↔ cfg.nbk.toNat = 0 ∨ cfg.nbkgrp.toNat = 1 ∧ cfg.nbk.toNat < 2 ^ 31 := by
  have hmul : cfg.nbkgrp.toNat * cfg.banksPerGroup = cfg.nbk.toNat := Nat.mul_div_cancel' hdvd
  constructor
  · rintro ⟨hindex, -⟩
    by_contra hnot
    rw [not_or] at hnot
    obtain ⟨hnbk, hnot⟩ := hnot
    have hsize : 0 < cfg.banksPerGroup := Nat.pos_of_ne_zero fun hzero => hnbk (by rw [← hmul, hzero]; rfl)
    by_cases hlarge : 2 ^ 31 ≤ cfg.banksPerGroup
    · -- banks 0 and 1 are in one group
      have hle : cfg.banksPerGroup ≤ cfg.nbk.toNat := hmul ▸ Nat.le_mul_of_pos_left _ hgrp
      have hone : 1 < cfg.nbk.toNat := by omega
      have hgroup := hindex 1 hone
      rw [grp_of_large hlarge, MemoryConfig.bkgrpindex, Nat.div_eq_of_lt (by omega)] at hgroup
      exact absurd hgroup Nat.one_ne_zero
    · -- the first bank of the second group is shifted to the first one
      have hgroups : cfg.nbkgrp.toNat ≠ 1 := fun hone => hnot ⟨hone, by rw [← hmul, hone]; omega⟩
      have htwo : 2 * cfg.banksPerGroup ≤ cfg.nbk.toNat := by
        rw [← hmul]
        exact Nat.mul_le_mul_right _ (by omega)
      have hfirst : cfg.banksPerGroup < cfg.nbk.toNat := by omega
      have hgroup := hindex _ hfirst
      rw [grp_eq_zero (Nat.lt_of_not_le hlarge) (Nat.le_refl _), MemoryConfig.bkgrpindex,
        Nat.div_self hsize] at hgroup
      exact absurd hgroup Nat.zero_ne_one
  · intro h
    have hindex : ∀ j < cfg.nbk.toNat, cfg.grp j = cfg.bkgrpindex j := by
      intro j hj
      rcases h with hzero | ⟨hone, hlt⟩
      · omega
      · rw [hone, Nat.one_mul] at hmul
        rw [grp_eq_zero (by omega) (by omega), MemoryConfig.bkgrpindex, Nat.div_eq_of_lt (by omega)]
    exact ⟨hindex, fun i hi j hj => by rw [hindex i hi, hindex j hj]⟩

/-- One group of twelve banks. -/
theorem consistent_iff_twelve : Consistent { twelveBanks with nbkgrp := 1 } := by
  have hiff : Consistent { twelveBanks with nbkgrp := 1 } ↔ _ := consistent_iff (by decide) (by decide)
  exact hiff.2 (Or.inr ⟨by decide, by decide⟩)

/-- Sixteen banks in four groups: `cycle` puts banks 0 and 4 into one group. -/
theorem not_consistent_sixteen :
    MemoryConfig.Accepted { twelveBanks with nbk := 16, nbkgrp := 4 } ∧
      MemoryConfig.grp { twelveBanks with nbk := 16, nbkgrp := 4 } 0 =
        MemoryConfig.grp { twelveBanks with nbk := 16, nbkgrp := 4 } 4 ∧
      ¬ Consistent { twelveBanks with nbk := 16, nbkgrp := 4 } := by
  refine ⟨by unfold MemoryConfig.Accepted; decide, by decide, fun h => ?_⟩
  exact absurd (h.1 4 (by decide)) (by decide)

end CompressionWork.Dram
