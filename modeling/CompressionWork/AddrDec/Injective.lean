/-
# When the address mapping loses nothing

* `KeepsMarks`, `KeepsChips` — the translations that keep every bit that the string uses, and every
  chip number in the sub-partition number;
* `faithful_iff` — these and no others are faithful. A field of `addrdec_t` has 32 bits, so a mapping
  with more of one kind loses the upper ones.
-/
import CompressionWork.AddrDec.Decode
import Mathlib.Data.List.Nodup
import Mathlib.Data.List.Perm.Subperm

namespace CompressionWork
namespace AddrDec

variable {option : List Char} {p : Parsed} {a b i s n k kc : ℕ} {t : Translation} {f : Field}

/-- Every bit of an address that the string uses is among the 32 lowest of a mask. When the number
of channels is no power of two this is about the bits that the address without its chip number can
have. -/
def KeepsMarks (option : List Char) (t : Translation) : Prop :=
  if t.chipS = -1 then ∀ i, Marked option i → ∃ f, Kept (t.mask f) i
  else if t.gap then ∀ i, Marked option i → (i < t.chipS.toNat ∨ t.nChannel * 2 ^ i < 2 ^ 64) →
    ∃ f, Kept (t.mask f) i
  else ∀ i < 64,
    (if i < t.chipS.toNat then Marked option i
      else t.chipS.toNat + logb2 t.nChannel ≤ i → Marked option (i - logb2 t.nChannel)) →
    ∃ f, Kept (t.mask f) i

/-- The sub-partition numbers fit into 32 bits. -/
def KeepsChips (t : Translation) : Prop :=
  (if t.gap then t.nChannel else 2 ^ (positions (t.mask .chip)).length) * t.nSub ≤ 2 ^ 32

/-! ## The marks -/

theorem fieldsOf_disjoint {c : Char} (h : .chip ∈ fieldsOf c) : .bk ∉ fieldsOf c := by
  unfold fieldsOf at h ⊢
  split at h <;> simp_all

theorem parseoption_spec (hp : parseoption option = some p) :
    p.chipS = (scanDramid option).getD (-1) ∧
    ((cmapping option).filter isMark).length = 64 ∧
    ((scanDramid option).isSome → p.mask .chip = 0) ∧
    ∀ f i, (p.mask f).testBit i = true ↔
      ∃ c, ((cmapping option).filter isMark).reverse[i]? = some c ∧ f ∈ fieldsOf c := by
  obtain ⟨m, hm, rfl⟩ := Option.map_eq_some_iff.1 hp
  obtain ⟨hlen, hno, hbits⟩ := testBit_parseMapping hm
  have hbits' : ∀ f i, (m f).testBit i = true ↔
      ∃ c, ((cmapping option).filter isMark).reverse[i]? = some c ∧ f ∈ fieldsOf c := by
    intro f i
    rw [hbits f i, Nat.zero_testBit]
    simp
  refine ⟨rfl, hlen, fun hd => Nat.eq_of_testBit_eq fun i => ?_, hbits'⟩
  rw [Nat.zero_testBit, Bool.eq_false_iff]
  intro hbit
  obtain ⟨c, hc, hchip⟩ := (hbits' .chip i).1 hbit
  have hmem := List.mem_reverse.1 (List.mem_of_getElem? hc)
  exact hno hd c (List.mem_filter.1 hmem).1 hchip

theorem marked_lt (hp : parseoption option = some p) (h : Marked option i) : i < 64 := by
  obtain ⟨c, hc, -⟩ := h
  have := (List.getElem?_eq_some_iff.1 hc).1
  rwa [List.length_reverse, (parseoption_spec hp).2.1] at this

theorem marked_iff (hp : parseoption option = some p) :
    Marked option i ↔ ∃ f, (p.mask f).testBit i = true := by
  have hbits := (parseoption_spec hp).2.2.2
  constructor
  · rintro ⟨c, hc, hne⟩
    have hmark := (List.mem_filter.1 (List.mem_reverse.1 (List.mem_of_getElem? hc))).2
    have hfields : fieldsOf c ≠ [] := by simpa [isMark, hne] using hmark
    obtain ⟨f, hf⟩ := List.exists_mem_of_ne_nil _ hfields
    exact ⟨f, (hbits f i).2 ⟨c, hc, hf⟩⟩
  · rintro ⟨f, hf⟩
    obtain ⟨c, hc, hfc⟩ := (hbits f i).1 hf
    refine ⟨c, hc, ?_⟩
    rintro rfl
    cases hfc

/-! ## The masks with the chip number inserted -/

theorem testBit_shiftMask (s k m i : ℕ) (hi : i < 64) :
    (shiftMask s k m).testBit i =
      if i < s then m.testBit i else if i < s + k then false else m.testBit (i - k) := by
  have h64 : i - k < 64 := by omega
  simp only [shiftMask, Nat.testBit_mod_two_pow, Nat.testBit_or, Nat.testBit_shiftLeft,
    Nat.testBit_and, Nat.testBit_xor, Nat.one_shiftLeft, Nat.testBit_two_pow_sub_one, hi, h64]
  by_cases h1 : i < s
  · have h2 : i - k < s := by omega
    simp [h1, h2]
  · by_cases h2 : i < s + k
    · by_cases h3 : k ≤ i
      · have h4 : i - k < s := by omega
        simp [h1, h2, h4]
      · simp [h1, h2, h3]
    · have h3 : k ≤ i := by omega
      have h4 : ¬ i - k < s := by omega
      simp [h1, h2, h3, h4]

theorem testBit_foldl_or (l : List ℕ) (m i : ℕ) :
    (l.foldl (fun m i => m ||| 1 <<< i) m).testBit i = (m.testBit i || decide (i ∈ l)) := by
  induction l generalizing m with
  | nil => simp
  | cons j l ih =>
      rw [List.foldl_cons, ih, Nat.testBit_or, testBit_one_shiftLeft, Bool.or_assoc]
      congr 1
      by_cases h : j = i
      · simp [h]
      · simp [h, Ne.symm h]

theorem testBit_insertChip_chip (hzero : p.mask .chip = 0) :
    (insertChip s k p.mask .chip).testBit i = decide (s ≤ i ∧ i < s + k) := by
  rw [insertChip, testBit_foldl_or, hzero, Nat.zero_testBit, Bool.false_or]
  simp [List.mem_range'_1]

/-! ## Equal fields and equal cells -/

/-- Keeping some bits decides others just when these are among them. -/
theorem used_kept_iff {masks : Field → ℕ} {used : ℕ → Prop} (hused : ∀ i, used i → i < 64) :
    (∀ a < 2 ^ 64, ∀ b < 2 ^ 64, (∀ f i, Kept (masks f) i → a.testBit i = b.testBit i) →
      ∀ i, used i → a.testBit i = b.testBit i) ↔ ∀ i, used i → ∃ f, Kept (masks f) i := by
  constructor
  · intro h i hi
    by_contra hnot
    have hlt : 2 ^ i < 2 ^ 64 := Nat.pow_lt_pow_right (by omega) (hused i hi)
    have := h 0 (by omega) (2 ^ i) hlt (fun f j hj => ?_) i hi
    · simp at this
    · have hne : i ≠ j := by
        rintro rfl
        exact hnot ⟨f, hj⟩
      simp [hne]
  · intro h a _ b _ hall i hi
    obtain ⟨f, hf⟩ := h i hi
    exact hall f i hf

theorem restOf_zero (s n : ℕ) : restOf s n 0 = 0 := by
  simp [restOf]

/-- An address whose chip number is zero and whose other part is one bit. -/
theorem exists_restOf (hn : 0 < n) (h : i < s ∨ n * 2 ^ i < 2 ^ 64) (hi : i < 64) :
    ∃ b < 2 ^ 64, (b >>> s) % n = 0 ∧ restOf s n b = 2 ^ i := by
  by_cases hs : i < s
  · have hlt : 2 ^ i < 2 ^ s := Nat.pow_lt_pow_right (by omega) hs
    have hzero : (2 ^ i) >>> s = 0 := by rw [Nat.shiftRight_eq_div_pow, Nat.div_eq_of_lt hlt]
    refine ⟨2 ^ i, Nat.pow_lt_pow_right (by omega) hi, by simp [hzero], ?_⟩
    refine Nat.eq_of_testBit_eq fun j => ?_
    rw [testBit_restOf, hzero, Nat.testBit_two_pow]
    split
    · rfl
    · simp
      omega
  · have hsi : s ≤ i := Nat.not_lt.1 hs
    have hmul : n * 2 ^ i = n * 2 ^ (i - s) * 2 ^ s := by
      rw [Nat.mul_assoc, ← Nat.pow_add, Nat.sub_add_cancel hsi]
    have hshift : (n * 2 ^ i) >>> s = n * 2 ^ (i - s) := by
      rw [hmul, Nat.shiftRight_eq_div_pow, Nat.mul_div_cancel _ (Nat.two_pow_pos s)]
    refine ⟨n * 2 ^ i, h.resolve_left hs, by rw [hshift, Nat.mul_mod_right], ?_⟩
    refine Nat.eq_of_testBit_eq fun j => ?_
    rw [testBit_restOf, hshift, Nat.mul_div_cancel_left _ hn, Nat.testBit_two_pow, Nat.testBit_two_pow]
    split
    · rw [hmul, Nat.testBit_mul_two_pow]
      rw [decide_eq_false (by omega : ¬ s ≤ j), Bool.false_and, decide_eq_false (by omega)]
    · rw [decide_eq_decide]
      omega

theorem used_kept_iff_gap {masks : Field → ℕ} {used : ℕ → Prop} (hn : 0 < n)
    (hused : ∀ i, used i → i < 64) :
    (∀ a < 2 ^ 64, ∀ b < 2 ^ 64, ((a >>> s) % n = (b >>> s) % n ∧
        ∀ f i, Kept (masks f) i → (restOf s n a).testBit i = (restOf s n b).testBit i) →
      (a >>> s) % n = (b >>> s) % n ∧
        ∀ i, used i → (restOf s n a).testBit i = (restOf s n b).testBit i) ↔
    ∀ i, used i → (i < s ∨ n * 2 ^ i < 2 ^ 64) → ∃ f, Kept (masks f) i := by
  constructor
  · intro h i hi hreach
    by_contra hnot
    obtain ⟨b, hb, hchip, hrest⟩ := exists_restOf hn hreach (hused i hi)
    have := (h 0 (by omega) b hb ⟨by simp [hchip], fun f j hj => ?_⟩).2 i hi
    · rw [hrest, restOf_zero] at this
      simp at this
    · have hne : i ≠ j := by
        rintro rfl
        exact hnot ⟨f, hj⟩
      rw [hrest, restOf_zero, Nat.testBit_two_pow]
      simp [hne]
  · rintro h a ha b hb ⟨hchip, hall⟩
    refine ⟨hchip, fun i hi => ?_⟩
    by_cases hreach : i < s ∨ n * 2 ^ i < 2 ^ 64
    · obtain ⟨f, hf⟩ := h i hi hreach
      exact hall f i hf
    · obtain ⟨hs, hbig⟩ := not_or.1 hreach
      have hfalse : ∀ x < 2 ^ 64, (restOf s n x).testBit i = false := by
        intro x hx
        rw [Bool.eq_false_iff]
        intro hbit
        have := restOf_high (Nat.not_lt.1 hs) hbit
        omega
      rw [hfalse a ha, hfalse b hb]

theorem dramid_isSome (hp : parseoption option = some p) (h : p.chipS ≠ -1) :
    (scanDramid option).isSome := by
  rw [(parseoption_spec hp).1] at h
  cases hs : scanDramid option with
  | none => simp [hs] at h
  | some v => rfl

/-- Addresses that decode to the same fields are the same cell, just when the marks are kept. -/
theorem cell_iff (hp : parseoption option = some p) (hb : Built p n k t) (hn : 0 < n)
    (hlt : n < 2 ^ 31) :
    (∀ a < 2 ^ 64, ∀ b < 2 ^ 64, t.addrdecTlx a = t.addrdecTlx b → SameCell option t a b) ↔
      KeepsMarks option t := by
  have hmarked : ∀ i, Marked option i → i < 64 := fun i => marked_lt hp
  cases hb.shape with
  | explicit hs hgap hmask =>
      simp only [SameCell, KeepsMarks, hb.chipS, hs, if_true, tlx_eq_iff hb hgap]
      exact used_kept_iff hmarked
  | divided hs hgap hstart hmask =>
      have hzero : t.mask .chip = 0 := by
        rw [hmask]
        exact (parseoption_spec hp).2.2.1 (dramid_isSome hp hs)
      simp only [tlx_eq_iff_gap hb hgap hn hlt hzero, SameCell, KeepsMarks, hb.chipS, hs, hgap,
        hb.nChannel, if_true, if_false]
      exact used_kept_iff_gap hn hmarked
  | inserted hs hgap hstart hpow hfits hmask =>
      simp only [SameCell, KeepsMarks, hb.chipS, hs, hgap, if_false, Bool.false_eq_true,
        tlx_eq_iff hb hgap]
      have h := @used_kept_iff t.mask (fun i => i < 64 ∧
        if i < p.chipS.toNat then Marked option i
        else p.chipS.toNat + logb2 t.nChannel ≤ i → Marked option (i - logb2 t.nChannel))
        fun i hi => hi.1
      simpa only [and_imp] using h

/-! ## Chip numbers -/

theorem length_positions_le_of {m s k : ℕ} (h : ∀ i, m.testBit i = true → s ≤ i ∧ i < s + k) :
    (positions m).length ≤ k := by
  have hsub : positions m ⊆ List.range' s k := by
    intro i hi
    exact List.mem_range'_1.2 (h i (mem_positions.1 hi).2)
  have := (List.subperm_of_subset (nodup_positions m) hsub).length_le
  rwa [List.length_range'] at this

theorem chip_lt (hp : parseoption option = some p) (hb : Built p n k t) (hn : 0 < n)
    (hd : (scanDramid option).isSome) (a : ℕ) : t.addrdecTlx a .chip < n := by
  have hzero := (parseoption_spec hp).2.2.1 hd
  have hfield : ∀ kc, 2 ^ kc ≤ n → (positions (t.mask .chip)).length ≤ kc →
      t.field .chip a < n := by
    intro kc hkc hlen
    obtain ⟨hhigh, hbits⟩ := getmasklimit_spec (t.mask .chip)
    rw [Translation.field, hb.limit]
    calc _ ≤ packbits _ a _ _ := Nat.mod_le _ _
      _ < 2 ^ (positions (t.mask .chip)).length := packbits_lt hhigh hbits a
      _ ≤ 2 ^ kc := Nat.pow_le_pow_right (by omega) hlen
      _ ≤ n := hkc
  cases hb.shape with
  | explicit hs hgap hmask =>
      simp only [Translation.addrdecTlx, hgap, Bool.false_eq_true, if_false]
      refine hfield 0 (by rw [Nat.pow_zero]; exact hn) (length_positions_le_of (s := 0) fun i hi => ?_)
      simp [hmask, hzero] at hi
  | divided hs hgap hstart hmask =>
      simp only [Translation.addrdecTlx, hgap, if_true, hb.nChannel]
      exact Nat.lt_of_le_of_lt (Nat.mod_le _ _) (Nat.mod_lt _ hn)
  | inserted hs hgap hstart hpow hfits hmask =>
      simp only [Translation.addrdecTlx, hgap, Bool.false_eq_true, if_false]
      refine hfield (logb2 n) (Nat.le_of_eq hpow.symm)
        (length_positions_le_of (s := p.chipS.toNat) fun i hi => ?_)
      rw [hmask, testBit_insertChip_chip hzero] at hi
      exact of_decide_eq_true hi

/-! ## Partition addresses -/

theorem split_eq {x y x' y' : ℕ} (hy : y < 2 ^ k) (hy' : y' < 2 ^ k)
    (h : x * 2 ^ k + y = x' * 2 ^ k + y') : x = x' ∧ y = y' := by
  have hx : ∀ u v, v < 2 ^ k → (u * 2 ^ k + v) / 2 ^ k = u := by
    intro u v hv
    rw [Nat.mul_comm, Nat.mul_add_div (Nat.two_pow_pos k), Nat.div_eq_of_lt hv, Nat.add_zero]
  have hxx : x = x' := by
    rw [← hx x y hy, h, hx x' y' hy']
  subst hxx
  exact ⟨rfl, Nat.add_left_cancel h⟩

/-- Chip numbers below a bound that fits beside the bank bits are told apart. -/
theorem sum_lt {x y c : ℕ} (hx : x < c) (hy : y < 2 ^ k) (hc : c * 2 ^ k ≤ 2 ^ 32) :
    (x * 2 ^ k + y) % 2 ^ 32 = x * 2 ^ k + y := by
  refine Nat.mod_eq_of_lt ?_
  calc x * 2 ^ k + y < x * 2 ^ k + 2 ^ k := by omega
    _ = (x + 1) * 2 ^ k := by rw [Nat.add_mul, Nat.one_mul]
    _ ≤ c * 2 ^ k := Nat.mul_le_mul_right _ hx
    _ ≤ 2 ^ 32 := hc

theorem parts_eq (hb : Built p n k t) (hk : k < 31) {c : ℕ} (hc : c * 2 ^ k ≤ 2 ^ 32)
    (ha : t.addrdecTlx a .chip < c) (hb' : t.addrdecTlx b .chip < c)
    (h : t.subPartition a = t.subPartition b) :
    t.addrdecTlx a .chip = t.addrdecTlx b .chip ∧
      ∀ i, t.subMask.testBit i = true → (t.view a).testBit i = (t.view b).testBit i := by
  rw [subPartition_eq hb hk, subPartition_eq hb hk, sum_lt ha (Nat.mod_lt _ (Nat.two_pow_pos k)) hc,
    sum_lt hb' (Nat.mod_lt _ (Nat.two_pow_pos k)) hc] at h
  obtain ⟨hchip, hbank⟩ := split_eq (Nat.mod_lt _ (Nat.two_pow_pos k))
    (Nat.mod_lt _ (Nat.two_pow_pos k)) h
  exact ⟨hchip, (bank_eq_iff hb).1 hbank⟩

theorem two_pow_lt_of_not {c : ℕ} (hk : k < 31) (h : ¬ c * 2 ^ k ≤ 2 ^ 32) : 2 ^ (32 - k) < c := by
  have hsplit : 2 ^ (32 - k) * 2 ^ k = 2 ^ 32 := by
    rw [← Nat.pow_add, Nat.sub_add_cancel (by omega)]
  rw [← hsplit] at h
  exact Nat.lt_of_mul_lt_mul_right (Nat.not_le.1 h)

/-- A chip number that the product shifts out of 32 bits counts for nothing. -/
theorem subPartition_collide (hb : Built p n k t) (hk : k < 31)
    (ha : t.addrdecTlx a .chip = 0) (hdvd : 2 ^ (32 - k) ∣ t.addrdecTlx b .chip)
    (hview : ∀ i, t.subMask.testBit i = true → (t.view a).testBit i = (t.view b).testBit i) :
    t.subPartition a = t.subPartition b := by
  obtain ⟨x, hx⟩ := hdvd
  have hsplit : 2 ^ (32 - k) * x * 2 ^ k = 2 ^ 32 * x := by
    rw [Nat.mul_right_comm, ← Nat.pow_add, Nat.sub_add_cancel (by omega)]
  rw [subPartition_eq hb hk, subPartition_eq hb hk, (bank_eq_iff hb).2 hview, ha, hx, hsplit,
    Nat.mul_add_mod, Nat.zero_mul, Nat.zero_add]

theorem partition_gap (hb : Built p n k t) (hk : k < 31) (hn : 0 < n) (hlt : n < 2 ^ 31)
    (hgap : t.gap = true) (hstart : t.chipS.toNat < 31) :
    (∀ a < 2 ^ 64, ∀ b < 2 ^ 64, t.subPartition a = t.subPartition b →
      t.partitionAddress a = t.partitionAddress b → a = b) ↔ n * 2 ^ k ≤ 2 ^ 32 := by
  have hchip : ∀ x, t.addrdecTlx x .chip = (x >>> t.chipS.toNat) % n := by
    intro x
    simp only [Translation.addrdecTlx, hgap, if_true, hb.nChannel]
    exact Nat.mod_eq_of_lt (Nat.lt_trans (Nat.mod_lt _ hn) (by omega))
  have hview : ∀ x, t.view x = restOf t.chipS.toNat n x := by
    intro x
    simp [Translation.view, hgap, hb.nChannel]
  constructor
  · intro h
    by_contra hnot
    have hbig := two_pow_lt_of_not hk hnot
    have hshift : (2 ^ (32 - k) * 2 ^ t.chipS.toNat) >>> t.chipS.toNat = 2 ^ (32 - k) := by
      rw [Nat.shiftRight_eq_div_pow, Nat.mul_div_cancel _ (Nat.two_pow_pos _)]
    have hrest : restOf t.chipS.toNat n (2 ^ (32 - k) * 2 ^ t.chipS.toNat) = 0 := by
      refine Nat.eq_of_testBit_eq fun j => ?_
      rw [testBit_restOf, hshift, Nat.div_eq_of_lt hbig, Nat.zero_testBit, Nat.testBit_mul_two_pow]
      split
      · simp
        omega
      · exact (Nat.zero_testBit j).symm
    have hb64 : 2 ^ (32 - k) * 2 ^ t.chipS.toNat < 2 ^ 64 := by
      rw [← Nat.pow_add]
      exact Nat.pow_lt_pow_right (by omega) (by omega)
    have hsame : ∀ i, (t.view 0).testBit i =
        (t.view (2 ^ (32 - k) * 2 ^ t.chipS.toNat)).testBit i := by
      intro i
      rw [hview, hview, hrest, restOf_zero]
    have hzero := h 0 (by omega) _ hb64
      (subPartition_collide hb hk (by rw [hchip]; simp)
        (by rw [hchip, hshift, Nat.mod_eq_of_lt hbig]) fun i _ => hsame i)
      ((partition_eq_iff_gap hgap).2 fun i _ _ => hsame i)
    have := Nat.mul_pos (Nat.two_pow_pos (32 - k)) (Nat.two_pow_pos t.chipS.toNat)
    omega
  · intro hc a ha b hb' hsub hpart
    have hlt' : ∀ x, t.addrdecTlx x .chip < n := fun x => by
      rw [hchip]
      exact Nat.mod_lt _ hn
    obtain ⟨heq, hmask⟩ := parts_eq hb hk hc (hlt' a) (hlt' b) hsub
    rw [hchip, hchip] at heq
    refine eq_of_restOf heq (Nat.eq_of_testBit_eq fun i => ?_)
    rw [← hview, ← hview]
    by_cases hi : i < 64
    · cases hbit : t.subMask.testBit i with
      | true => exact hmask i hbit
      | false => exact (partition_eq_iff_gap hgap).1 hpart i hi hbit
    · have hfalse : ∀ x < 2 ^ 64, (t.view x).testBit i = false := fun x hx => by
        rw [hview]
        exact Nat.testBit_lt_two_pow (Nat.lt_of_lt_of_le (restOf_lt hn hx)
          (Nat.pow_le_pow_right (by omega) (Nat.not_lt.1 hi)))
      rw [hfalse a ha, hfalse b hb']

theorem kept_of_length {m : ℕ} (hm : (positions m).length ≤ 32) (hi : i < 64)
    (hbit : m.testBit i = true) : Kept m i := by
  obtain ⟨q, hq⟩ := List.mem_iff_getElem?.1 (mem_positions.2 ⟨hi, hbit⟩)
  have hlt := (List.getElem?_eq_some_iff.1 hq).1
  exact ⟨q, by omega, hq⟩

/-- The highest bit of a mask comes last in the packed value. -/
theorem packbits_last {m high low : ℕ} (hhigh : high ≤ 64)
    (h : ∀ i < 64, m.testBit i = true → low ≤ i ∧ i < high) {c : ℕ}
    (hc : (positions m).length = c + 1) (hi : (positions m)[c]? = some i) :
    packbits m (2 ^ i) high low = 2 ^ c := by
  refine Nat.eq_of_testBit_eq fun q => ?_
  rw [testBit_packbits hhigh h, Nat.testBit_two_pow]
  cases hq : (positions m)[q]? with
  | none =>
      have := List.getElem?_eq_none_iff.1 hq
      simp
      omega
  | some j =>
      rw [Option.any_some, Nat.testBit_two_pow, decide_eq_decide]
      obtain ⟨hqlt, rfl⟩ := List.getElem?_eq_some_iff.1 hq
      obtain ⟨hclt, rfl⟩ := List.getElem?_eq_some_iff.1 hi
      exact (nodup_positions m).getElem_inj_iff

theorem packbits_zero {m high low : ℕ} (hhigh : high ≤ 64)
    (h : ∀ i < 64, m.testBit i = true → low ≤ i ∧ i < high) : packbits m 0 high low = 0 := by
  refine Nat.eq_of_testBit_eq fun q => ?_
  rw [testBit_packbits hhigh h]
  cases (positions m)[q]? <;> simp

theorem partition_nonGap (hb : Built p n k t) (hk : k < 31) (hgap : t.gap = false)
    (hdisj : ∀ i < 64, (t.mask .chip).testBit i = true → (t.mask .bk).testBit i = false) :
    (∀ a < 2 ^ 64, ∀ b < 2 ^ 64, t.subPartition a = t.subPartition b →
      t.partitionAddress a = t.partitionAddress b → a = b) ↔
    2 ^ (positions (t.mask .chip)).length * 2 ^ k ≤ 2 ^ 32 := by
  obtain ⟨hhigh, hbits⟩ := getmasklimit_spec (t.mask .chip)
  have hchip : ∀ x, t.addrdecTlx x .chip = t.field .chip x := by
    intro x
    simp [Translation.addrdecTlx, hgap]
  have hview : ∀ x, t.view x = x := fun x => by simp [Translation.view, hgap]
  constructor
  · intro h
    by_contra hnot
    have hbig := two_pow_lt_of_not hk hnot
    have hexp := (Nat.pow_lt_pow_iff_right (by omega)).1 hbig
    obtain ⟨c, hc⟩ : ∃ c, (positions (t.mask .chip)).length = c + 1 :=
      ⟨(positions (t.mask .chip)).length - 1, by omega⟩
    obtain ⟨i, hi⟩ : ∃ i, (positions (t.mask .chip))[c]? = some i :=
      ⟨_, List.getElem?_eq_getElem (by omega)⟩
    obtain ⟨hi64, hbit⟩ := mem_positions.1 (List.mem_of_getElem? hi)
    have hsub : ∀ j, t.subMask.testBit j = true → (t.view 0).testBit j = (t.view (2 ^ i)).testBit j := by
      intro j hj
      obtain ⟨q, -, hq⟩ := (hb.subMask j).1 hj
      have hbank := (mem_positions.1 (List.mem_of_getElem? hq)).2
      have hne : i ≠ j := by
        rintro rfl
        exact absurd hbank (by simp [hdisj i hi64 hbit])
      rw [hview, hview, Nat.zero_testBit, Nat.testBit_two_pow]
      simp [hne]
    have hzero := h 0 (by omega) (2 ^ i) (Nat.pow_lt_pow_right (by omega) hi64)
      (subPartition_collide hb hk ?_ ?_ hsub)
      ((partition_eq_iff hgap).2 fun j hj hchipj _ => ?_)
    · have := Nat.two_pow_pos i
      omega
    · rw [hchip, Translation.field, hb.limit, packbits_zero hhigh hbits]
      rfl
    · rw [hchip, Translation.field, hb.limit, packbits_last hhigh hbits hc hi]
      refine (Nat.dvd_mod_iff (Nat.pow_dvd_pow 2 (by omega))).2 ?_
      exact Nat.pow_dvd_pow 2 (by omega)
    · have hne : i ≠ j := by
        rintro rfl
        exact absurd hbit (by simp [hchipj])
      rw [Nat.zero_testBit, Nat.testBit_two_pow]
      simp [hne]
  · intro hc a ha b hb' hsub hpart
    have hlen : (positions (t.mask .chip)).length ≤ 32 := by
      have hle : 2 ^ (positions (t.mask .chip)).length ≤ 2 ^ 32 :=
        Nat.le_trans (Nat.le_mul_of_pos_right _ (Nat.two_pow_pos k)) hc
      exact (Nat.pow_le_pow_iff_right (by omega)).1 hle
    have hlt : ∀ x, t.addrdecTlx x .chip < 2 ^ (positions (t.mask .chip)).length := by
      intro x
      rw [hchip, Translation.field, hb.limit]
      exact Nat.lt_of_le_of_lt (Nat.mod_le _ _) (packbits_lt hhigh hbits x)
    obtain ⟨heq, hmask⟩ := parts_eq hb hk hc (hlt a) (hlt b) hsub
    rw [hchip, hchip, field_eq_iff (hb.limit .chip)] at heq
    refine Nat.eq_of_testBit_eq fun i => ?_
    by_cases hi : i < 64
    · cases hbit : (t.mask .chip).testBit i with
      | true => exact heq i (kept_of_length hlen hi hbit)
      | false =>
          cases hsubbit : t.subMask.testBit i with
          | true =>
              have := hmask i hsubbit
              rwa [hview, hview] at this
          | false => exact (partition_eq_iff hgap).1 hpart i hi hbit hsubbit
    · have hfalse : ∀ x < 2 ^ 64, x.testBit i = false := fun x hx =>
        Nat.testBit_lt_two_pow (Nat.lt_of_lt_of_le hx
          (Nat.pow_le_pow_right (by omega) (Nat.not_lt.1 hi)))
      rw [hfalse a ha, hfalse b hb']

theorem chip_bk_disjoint (hp : parseoption option = some p) (hb : Built p n k t)
    (hgap : t.gap = false) (hi : i < 64) (h : (t.mask .chip).testBit i = true) :
    (t.mask .bk).testBit i = false := by
  obtain ⟨-, -, hzero, hbits⟩ := parseoption_spec hp
  cases hb.shape with
  | explicit hs _ hmask =>
      rw [hmask] at h ⊢
      obtain ⟨c, hc, hchip⟩ := (hbits .chip i).1 h
      rw [Bool.eq_false_iff]
      intro hbk
      obtain ⟨c', hc', hbk'⟩ := (hbits .bk i).1 hbk
      obtain rfl : c = c' := Option.some.inj (hc.symm.trans hc')
      exact fieldsOf_disjoint hchip hbk'
  | divided hs hgap' _ _ => rw [hgap] at hgap'; cases hgap'
  | inserted hs _ hstart hpow hfits hmask =>
      rw [hmask, testBit_insertChip_chip (hzero (dramid_isSome hp hs))] at h
      have hin := of_decide_eq_true h
      rw [hmask]
      simp only [insertChip]
      rw [testBit_shiftMask _ _ _ _ hi, if_neg (by omega), if_pos (by omega)]

/-! ## Faithful mappings -/

theorem faithful_of_built (hp : parseoption option = some p) (hb : Built p n k t) (hn : 0 < n)
    (hlt : n < 2 ^ 31) (hk : k < 31) :
    Faithful option t ↔ KeepsMarks option t ∧ KeepsChips t := by
  have hcell := cell_iff hp hb hn hlt
  have hchip : (scanDramid option).isSome → ∀ a < 2 ^ 64, t.addrdecTlx a .chip < t.nChannel := by
    intro hd a _
    rw [hb.nChannel]
    exact chip_lt hp hb hn hd a
  have hpart : (∀ a < 2 ^ 64, ∀ b < 2 ^ 64, t.subPartition a = t.subPartition b →
      t.partitionAddress a = t.partitionAddress b → a = b) ↔ KeepsChips t := by
    unfold KeepsChips
    rw [hb.nSub, hb.nChannel]
    cases hgap : t.gap with
    | false =>
        simpa using partition_nonGap hb hk hgap fun i hi h => chip_bk_disjoint hp hb hgap hi h
    | true =>
        have hstart : t.chipS.toNat < 31 := by
          rw [hb.chipS]
          cases hb.shape with
          | explicit _ hgap' _ => rw [hgap] at hgap'; cases hgap'
          | divided _ _ hstart _ => exact hstart
          | inserted _ hgap' _ _ _ _ => rw [hgap] at hgap'; cases hgap'
        simpa using partition_gap hb hk hn hlt hgap hstart
  exact ⟨fun h => ⟨hcell.1 h.cell, hpart.1 h.partition⟩,
    fun h => ⟨hcell.2 h.1, hchip, hpart.2 h.2⟩⟩

/-- **An accepted mapping is faithful just when it keeps every mark and every chip number.** The
hypotheses are the assertions of `init`, and that the numbers of channels and of sub-partitions are
positive `int`s. -/
theorem faithful_iff (option : List Char) (p : Parsed) (n k : ℕ) (hp : parseoption option = some p)
    (hn : 0 < n) (hlt : n < 2 ^ 31) (hk : k < 31)
    (hexplicit : p.chipS = -1 → ∃ j < 31, n = 2 ^ j) :
    (∃ t, init p n (2 ^ k) = some t ∧ Faithful option t) ↔
      ∃ t, init p n (2 ^ k) = some t ∧ KeepsMarks option t ∧ KeepsChips t :=
  exists_congr fun _ => and_congr_right fun ht =>
    faithful_of_built hp (built hk hexplicit ht) hn hlt hk

/-- Fields of at most 32 bits keep every mark. -/
theorem keepsMarks_of_length (hp : parseoption option = some p) (hb : Built p n k t)
    (hgap : t.gap = true) (h : ∀ f, (positions (t.mask f)).length ≤ 32) : KeepsMarks option t := by
  cases hb.shape with
  | explicit _ hgap' _ => rw [hgap] at hgap'; cases hgap'
  | inserted _ hgap' _ _ _ _ => rw [hgap] at hgap'; cases hgap'
  | divided hs _ _ hmask =>
      unfold KeepsMarks
      rw [hb.chipS, if_neg hs, if_pos hgap]
      intro i hi _
      obtain ⟨f, hf⟩ := (marked_iff hp).1 hi
      rw [← hmask] at hf
      exact ⟨f, kept_of_length (h f) (marked_lt hp hi) hf⟩

/-- Six channels with two sub-partitions each. -/
def sixChannels : List Char :=
  "dramid@8;00000000.00000000.00000000.00000000.0000RRRR.RRRRRRRR.BBBCCCCB.CCSSSSSS".toList

theorem faithful_sixChannels : ∃ p t, parseoption sixChannels = some p ∧
    init p 6 (2 ^ 1) = some t ∧ Faithful sixChannels t := by
  have heval : ((parseoption sixChannels).bind fun p => init p 6 (2 ^ 1)).any (fun t =>
      t.chipS = 8 ∧ t.gap ∧ t.nChannel * t.nSub ≤ 2 ^ 32 ∧
        [Field.chip, .bk, .row, .col, .burst].all fun f => (positions (t.mask f)).length ≤ 32) := by
    decide +kernel
  obtain ⟨p, hp⟩ := Option.isSome_iff_exists.1 (by decide +kernel : (parseoption sixChannels).isSome)
  rw [hp, Option.bind_some] at heval
  cases ht : init p 6 (2 ^ 1) with
  | none =>
      rw [ht] at heval
      cases heval
  | some t =>
      rw [ht] at heval
      simp only [Option.any_some, List.all_cons, List.all_nil, decide_eq_true_eq,
        Bool.and_eq_true] at heval
      obtain ⟨hs, hgap, hchips, hchip, hbk, hrow, hcol, hburst, -⟩ := heval
      have hexplicit : p.chipS = -1 → ∃ j < 31, 6 = 2 ^ j := by
        obtain ⟨mask, -, rfl⟩ := Option.map_eq_some_iff.1 ht
        intro h
        exact absurd (hs.symm.trans h) (by decide)
      have hlen : ∀ f, (positions (t.mask f)).length ≤ 32 := by
        intro f
        cases f <;> assumption
      have hb := built (by omega) hexplicit ht
      obtain ⟨t', ht', hfaith⟩ := (faithful_iff sixChannels p 6 1 hp (by omega) (by omega)
        (by omega) hexplicit).2 ⟨t, ht, keepsMarks_of_length hp hb hgap hlen, by
          rw [KeepsChips, if_pos hgap]
          exact hchips⟩
      exact ⟨p, t', hp, ht', hfaith⟩

/-- Eight channels, and all the other bits for the row. -/
def wideRow : List Char :=
  "DDDRRRRR.RRRRRRRR.RRRRRRRR.RRRRRRRR.RRRRRRRR.RRRRRRRR.RRRRRRRR.RRRRRRRR".toList

/-- The row has 61 bits and is kept in 32: addresses 0 and `2 ^ 32` decode to the same fields. -/
theorem not_faithful : ∃ p, parseoption wideRow = some p ∧
    ¬ ∃ t, init p 8 1 = some t ∧ Faithful wideRow t := by
  have heval : ((parseoption wideRow).bind fun p => init p 8 1).all (fun t =>
      t.chipS = -1 ∧ [Field.chip, .bk, .row, .col, .burst].all fun f =>
        t.addrdecTlx 0 f = t.addrdecTlx (2 ^ 32) f) := by
    decide +kernel
  obtain ⟨p, hp⟩ := Option.isSome_iff_exists.1 (by decide +kernel : (parseoption wideRow).isSome)
  refine ⟨p, hp, ?_⟩
  rintro ⟨t, ht, hfaith⟩
  rw [hp, Option.bind_some, ht] at heval
  simp only [Option.all_some, List.all_cons, List.all_nil, decide_eq_true_eq, Bool.and_eq_true] at heval
  obtain ⟨hs, hchip, hbk, hrow, hcol, hburst, -⟩ := heval
  have hcell := hfaith.cell 0 (by omega) (2 ^ 32) (by omega) (by
    funext f
    cases f <;> assumption)
  rw [SameCell, if_pos hs] at hcell
  have hbit := hcell 32 ⟨'R', by decide +kernel, by decide⟩
  rw [Nat.zero_testBit, Nat.testBit_two_pow_self] at hbit
  cases hbit

end AddrDec
end CompressionWork
