/-
# What decoding keeps of an address

* `built` — the translations that `init` makes;
* `tlx_eq_iff`, `tlx_eq_iff_gap` — which addresses decode to the same fields;
* `subPartition_eq`, `partition_eq_iff` — the two other values computed from an address.
-/
import CompressionWork.AddrDec.Pack
import Mathlib.Tactic.Ring

namespace CompressionWork
namespace AddrDec

variable {option : List Char} {p : Parsed} {a b i s n k kc : ℕ} {t : Translation} {f : Field}

/-! ## The mask of the sub-partition -/

theorem testBit_subMaskLoop (bk log : ℕ) (l : List ℕ) (pos acc : ℕ) (hpos : pos < log) (i : ℕ) :
    (subMaskLoop bk log l pos acc).testBit i = true ↔
      acc.testBit i = true ∨ ∃ q < log - pos, (l.filter bk.testBit)[q]? = some i := by
  induction l generalizing pos acc with
  | nil => simp [subMaskLoop]
  | cons j l ih =>
      cases hbit : bk.testBit j with
      | false =>
          rw [subMaskLoop, hbit, List.filter_cons_of_neg (by simp [hbit])]
          exact ih pos acc hpos
      | true =>
          have hacc : (acc ||| 1 <<< j).testBit i = true ↔ acc.testBit i = true ∨ j = i := by
            rw [Nat.testBit_or, Bool.or_eq_true, testBit_one_shiftLeft, decide_eq_true_eq]
          rw [subMaskLoop, hbit, if_pos rfl, List.filter_cons_of_pos hbit]
          split
          · rw [hacc]
            refine or_congr_right ⟨?_, ?_⟩
            · rintro rfl
              exact ⟨0, by omega, rfl⟩
            · rintro ⟨q, hq, hi⟩
              obtain rfl : q = 0 := by omega
              exact Option.some.inj hi
          · rw [ih (pos + 1) _ (by omega), hacc, or_assoc]
            refine or_congr_right ⟨?_, ?_⟩
            · rintro (rfl | ⟨q, hq, hi⟩)
              · exact ⟨0, by omega, rfl⟩
              · exact ⟨q + 1, by omega, hi⟩
            · rintro ⟨q, hq, hi⟩
              cases q with
              | zero => exact Or.inl (Option.some.inj hi)
              | succ q => exact Or.inr ⟨q, by omega, hi⟩

theorem logb2_two_pow : ∀ k < 32, logb2 (2 ^ k) = k := by decide

/-! ## What `init` makes -/

/-- The three ways in which the masks are set up. -/
inductive Shape (p : Parsed) (n : ℕ) (t : Translation) : Prop where
  | explicit (h : p.chipS = -1) (gap : t.gap = false) (mask : t.mask = p.mask)
  | divided (h : p.chipS ≠ -1) (gap : t.gap = true) (start : p.chipS.toNat < 31) (mask : t.mask = p.mask)
  | inserted (h : p.chipS ≠ -1) (gap : t.gap = false) (start : p.chipS.toNat < 64)
      (pow : n = 2 ^ logb2 n) (fits : logb2 n = 0 ∨ p.chipS.toNat + logb2 n ≤ 64)
      (mask : t.mask = insertChip p.chipS.toNat (logb2 n) p.mask)

/-- The translation that `init` builds from the mapping, for `n` channels and `2 ^ k` sub-partitions. -/
structure Built (p : Parsed) (n k : ℕ) (t : Translation) : Prop where
  chipS : t.chipS = p.chipS
  nChannel : t.nChannel = n
  nSub : t.nSub = 2 ^ k
  limit : ∀ f, t.limit f = getmasklimit (t.mask f)
  subMask : ∀ i, t.subMask.testBit i = true ↔ ∃ q < k, (positions (t.mask .bk))[q]? = some i
  shape : Shape p n t

theorem built (hk : k < 31) (hexplicit : p.chipS = -1 → ∃ j < 31, n = 2 ^ j)
    (h : init p n (2 ^ k) = some t) : Built p n k t := by
  obtain ⟨mask, hmask, rfl⟩ := Option.map_eq_some_iff.1 h
  refine ⟨rfl, rfl, rfl, fun _ => rfl, fun i => ?_, ?_⟩
  · obtain ⟨hhigh, hbits⟩ := getmasklimit_spec (mask .bk)
    rcases Nat.eq_zero_or_pos k with rfl | hpos
    · simp
    · have hone : 1 < 2 ^ k := Nat.one_lt_two_pow (by omega)
      simp only [hone, if_true]
      rw [testBit_subMaskLoop _ _ _ _ _ (by rw [logb2_two_pow k (by omega)]; exact hpos),
        filter_limits hhigh hbits, logb2_two_pow k (by omega)]
      simp
  · by_cases hs : p.chipS = -1
    · obtain ⟨j, hj, hn⟩ := hexplicit hs
      rw [if_pos hs] at hmask
      refine Shape.explicit hs ?_ (Option.some.inj hmask).symm
      subst hn
      simp [logb2_two_pow j (by omega)]
    · rw [if_neg hs] at hmask
      by_cases hgap : n = 2 ^ logb2 n
      · rw [if_neg (by simpa using hgap)] at hmask
        split at hmask
        · rename_i hstart
          exact Shape.inserted hs (by simpa using hgap) hstart.2.1 hgap hstart.2.2
            (Option.some.inj hmask).symm
        · cases hmask
      · rw [if_pos (by simpa using hgap)] at hmask
        split at hmask
        · rename_i hstart
          exact Shape.divided hs (by simpa using hgap) hstart.2 (Option.some.inj hmask).symm
        · cases hmask

/-! ## The parts of an address when the number of channels is no power of two -/

theorem testBit_restOf (s n a i : ℕ) :
    (restOf s n a).testBit i = if i < s then a.testBit i else ((a >>> s) / n).testBit (i - s) := by
  rw [restOf, Nat.testBit_or, Nat.testBit_shiftLeft, Nat.testBit_and, Nat.one_shiftLeft,
    Nat.testBit_two_pow_sub_one]
  by_cases h : i < s
  · simp [h, Nat.not_le.2 h]
  · simp [h, Nat.not_lt.1 h]

theorem restOf_lt (hn : 0 < n) (ha : a < 2 ^ 64) : restOf s n a < 2 ^ 64 := by
  refine Nat.lt_pow_two_of_testBit _ fun i hi => ?_
  rw [testBit_restOf]
  have hbig : ∀ x, x ≤ a → x < 2 ^ i := fun x hx =>
    Nat.lt_of_le_of_lt hx (Nat.lt_of_lt_of_le ha (Nat.pow_le_pow_right (by omega) hi))
  split
  · exact Nat.testBit_lt_two_pow (hbig a (Nat.le_refl a))
  · rename_i hs
    refine Nat.testBit_lt_two_pow ?_
    rw [Nat.shiftRight_eq_div_pow, Nat.div_div_eq_div_mul]
    refine Nat.div_lt_of_lt_mul ?_
    calc a < 2 ^ i := hbig a (Nat.le_refl a)
      _ = 2 ^ s * 2 ^ (i - s) := by rw [← Nat.pow_add, Nat.add_sub_cancel' (by omega)]
      _ ≤ 2 ^ s * n * 2 ^ (i - s) := Nat.mul_le_mul_right _ (Nat.le_mul_of_pos_right _ hn)

/-- Bit `i` of the quotient part is only set in an address of at least `n * 2 ^ i`. -/
theorem restOf_high (hi : s ≤ i) (h : (restOf s n a).testBit i = true) : n * 2 ^ i ≤ a := by
  rw [testBit_restOf, if_neg (by omega)] at h
  have hle := Nat.ge_two_pow_of_testBit h
  rw [Nat.shiftRight_eq_div_pow, Nat.div_div_eq_div_mul] at hle
  have hpos : 0 < 2 ^ s * n := by
    rcases Nat.eq_zero_or_pos n with rfl | hn
    · simp at hle
    · exact Nat.mul_pos (Nat.two_pow_pos s) hn
  calc n * 2 ^ i = 2 ^ (i - s) * (2 ^ s * n) := by
        rw [show 2 ^ i = 2 ^ (i - s) * 2 ^ s by rw [← Nat.pow_add, Nat.sub_add_cancel hi]]
        ring
    _ ≤ a := (Nat.le_div_iff_mul_le hpos).1 hle

/-- The two parts make up the address. -/
theorem eq_of_restOf (hchip : (a >>> s) % n = (b >>> s) % n) (hrest : restOf s n a = restOf s n b) :
    a = b := by
  have hdiv : (a >>> s) / n = (b >>> s) / n := by
    refine Nat.eq_of_testBit_eq fun i => ?_
    have h := congrArg (fun x => x.testBit (i + s)) hrest
    have hs : ¬ i + s < s := by omega
    simpa [testBit_restOf, hs] using h
  have hhigh : a >>> s = b >>> s := by
    rw [← Nat.div_add_mod (a >>> s) n, ← Nat.div_add_mod (b >>> s) n, hdiv, hchip]
  refine Nat.eq_of_testBit_eq fun i => ?_
  by_cases hi : i < s
  · have h := congrArg (fun x => x.testBit i) hrest
    simpa [testBit_restOf, hi] using h
  · have h := congrArg (fun x => x.testBit (i - s)) hhigh
    simpa [Nat.testBit_shiftRight, Nat.add_sub_cancel' (Nat.not_lt.1 hi)] using h

/-! ## Equal fields -/

theorem tlx_eq_iff (hb : Built p n k t) (hgap : t.gap = false) :
    t.addrdecTlx a = t.addrdecTlx b ↔
      ∀ f i, Kept (t.mask f) i → a.testBit i = b.testBit i := by
  simp only [funext_iff, Translation.addrdecTlx, hgap, Bool.false_eq_true, if_false]
  exact forall_congr' fun f => field_eq_iff (hb.limit f)

theorem tlx_eq_iff_gap (hb : Built p n k t) (hgap : t.gap = true) (hn : 0 < n) (hlt : n < 2 ^ 31)
    (hmask : t.mask .chip = 0) :
    t.addrdecTlx a = t.addrdecTlx b ↔
      (a >>> t.chipS.toNat) % n = (b >>> t.chipS.toNat) % n ∧
        ∀ f i, Kept (t.mask f) i →
          (restOf t.chipS.toNat n a).testBit i = (restOf t.chipS.toNat n b).testBit i := by
  have hsmall : ∀ x, x % n % 2 ^ 32 = x % n := fun x =>
    Nat.mod_eq_of_lt (Nat.lt_trans (Nat.mod_lt x hn) (by omega))
  have hempty : ∀ i, ¬ Kept (t.mask .chip) i := by
    rintro i ⟨q, -, hq⟩
    have := (mem_positions.1 (List.mem_of_getElem? hq)).2
    simp [hmask] at this
  rw [funext_iff]
  simp only [Translation.addrdecTlx, hgap, if_true, hb.nChannel, hsmall]
  constructor
  · intro h
    refine ⟨by simpa using h .chip, fun f i hi => ?_⟩
    have hf : f ≠ .chip := by
      rintro rfl
      exact hempty i hi
    exact (field_eq_iff (hb.limit f)).1 (by simpa [hf] using h f) i hi
  · rintro ⟨hchip, hall⟩ f
    by_cases hf : f = .chip
    · simpa [hf] using hchip
    · simpa [hf] using (field_eq_iff (hb.limit f)).2 (hall f)

/-! ## The sub-partition and the partition address -/

/-- The part of the address that the masks are applied to. -/
def Translation.view (t : Translation) (a : ℕ) : ℕ :=
  if t.gap then restOf t.chipS.toNat t.nChannel a else a

theorem subPartition_eq (hb : Built p n k t) (hk : k < 31) (a : ℕ) :
    t.subPartition a = (t.addrdecTlx a .chip * 2 ^ k +
      packbits (t.mask .bk) (t.view a) (t.limit .bk).high (t.limit .bk).low % 2 ^ k) % 2 ^ 32 := by
  have hbk : t.addrdecTlx a .bk = t.field .bk (t.view a) := by
    cases hgap : t.gap <;> simp [Translation.addrdecTlx, Translation.view, hgap]
  rw [Translation.subPartition, hbk, hb.nSub, Nat.and_two_pow_sub_one_eq_mod, Translation.field,
    Nat.mod_mod_of_dvd _ (Nat.pow_dvd_pow 2 (by omega : k ≤ 32))]

/-- The low bits of the bank decide the bits of the sub-partition mask. -/
theorem bank_eq_iff (hb : Built p n k t) :
    packbits (t.mask .bk) a (t.limit .bk).high (t.limit .bk).low % 2 ^ k =
        packbits (t.mask .bk) b (t.limit .bk).high (t.limit .bk).low % 2 ^ k ↔
      ∀ i, t.subMask.testBit i = true → a.testBit i = b.testBit i := by
  obtain ⟨hhigh, hbits⟩ := getmasklimit_spec (t.mask .bk)
  rw [hb.limit, packbits_mod_eq_iff hhigh hbits k]
  exact forall_congr' fun i => by rw [hb.subMask i]

theorem testBit_not (m i : ℕ) (hi : i < 64) : ((2 ^ 64 - 1) ^^^ m).testBit i = !m.testBit i := by
  rw [Nat.testBit_xor, Nat.testBit_two_pow_sub_one]
  simp [hi]

theorem partition_eq_iff_gap (hgap : t.gap = true) :
    t.partitionAddress a = t.partitionAddress b ↔
      ∀ i < 64, t.subMask.testBit i = false → (t.view a).testBit i = (t.view b).testBit i := by
  simp only [Translation.partitionAddress, Translation.view, hgap, if_true]
  rw [packbits_full_eq_iff]
  refine forall₂_congr fun i hi => ?_
  rw [testBit_not _ i hi, Bool.not_eq_true']

theorem partition_eq_iff (hgap : t.gap = false) :
    t.partitionAddress a = t.partitionAddress b ↔
      ∀ i < 64, (t.mask .chip).testBit i = false → t.subMask.testBit i = false →
        a.testBit i = b.testBit i := by
  simp only [Translation.partitionAddress, hgap, Bool.false_eq_true, if_false]
  rw [packbits_full_eq_iff]
  refine forall₂_congr fun i hi => ?_
  rw [testBit_not _ i hi, Nat.testBit_or, Bool.not_eq_true', Bool.or_eq_false_iff, and_imp]

end AddrDec
end CompressionWork
