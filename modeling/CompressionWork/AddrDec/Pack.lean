/-
# Masks and packed bits

* `testBit_packbits` — bit `p` of a packed value is the value's bit at the `p`-th bit of the mask;
* `testBit_parseMapping` — the bits of the masks, told from the marks of the mapping string;
* `field_eq_iff` — a decoded field fixes the bits of its mask up to the 32nd.
-/
import CompressionWork.AddrDec.Mapping
import CompressionWork.Codec.Chunks

namespace CompressionWork
namespace AddrDec

variable {mask a b i s k : ℕ} {t : Translation} {f : Field}

/-- The bits of a mask, from the lowest on. -/
def positions (mask : ℕ) : List ℕ := (List.range 64).filter mask.testBit

theorem mem_positions : i ∈ positions mask ↔ i < 64 ∧ mask.testBit i = true := by
  simp [positions]

theorem nodup_positions (mask : ℕ) : (positions mask).Nodup := List.nodup_range.filter _

/-! ## Packing -/

theorem testBit_toNat (b : Bool) (j : ℕ) : b.toNat.testBit j = (decide (j = 0) && b) := by
  cases b <;> cases j <;> simp [Nat.testBit_succ]

/-- The loop of `addrdec_packbits` over some bits. -/
theorem packbits_loop (mask val : ℕ) (l : List ℕ) (pos r : ℕ) (hr : ∀ p, pos ≤ p → r.testBit p = false)
    (p : ℕ) :
    (l.foldl (fun (s : ℕ × ℕ) i =>
      if mask.testBit i then (s.1 + 1, s.2 ||| (val.testBit i).toNat <<< s.1) else s)
      (pos, r)).2.testBit p =
    if p < pos then r.testBit p else (l.filter mask.testBit)[p - pos]?.any val.testBit := by
  induction l generalizing pos r with
  | nil =>
      by_cases hp : p < pos
      · simp [hp]
      · simp [hp, hr p (by omega)]
  | cons i l ih =>
      rw [List.foldl_cons]
      cases hi : mask.testBit i with
      | false =>
          simp only [Bool.false_eq_true, if_false]
          rw [ih pos r hr, List.filter_cons_of_neg (by simp [hi])]
      | true =>
          have hbit : ∀ p, (r ||| (val.testBit i).toNat <<< pos).testBit p =
              (r.testBit p || (decide (p = pos) && val.testBit i)) := by
            intro p
            rw [Nat.testBit_or, Nat.testBit_shiftLeft, testBit_toNat]
            rcases Nat.lt_trichotomy p pos with h | h | h
            · simp [Nat.not_le.2 h, Nat.ne_of_lt h]
            · simp [h]
            · simp [Nat.le_of_lt h, Nat.ne_of_gt h, Nat.sub_eq_zero_iff_le, Nat.not_le.2 h]
          simp only [if_true]
          rw [ih (pos + 1) _ (fun p hp => by rw [hbit, hr p (by omega)]; simp; omega), hbit,
            List.filter_cons_of_pos hi]
          rcases Nat.lt_trichotomy p pos with h | h | h
          · simp [h, Nat.lt_succ_of_lt h, Nat.ne_of_lt h]
          · subst h
            simp [hr p (Nat.le_refl p)]
          · have h1 : ¬ p < pos + 1 := by omega
            have h2 : ¬ p < pos := by omega
            rw [if_neg h1, if_neg h2, show p - pos = p - (pos + 1) + 1 by omega,
              List.getElem?_cons_succ]

/-- The limits of a mask enclose its bits. -/
theorem getmasklimit_loop (mask k : ℕ) (hk : k ≤ 64) :
    let l := (List.range k).foldl (fun (l : Limit) i =>
      if mask.testBit i then
        if l.found then { l with high := i + 1 } else { high := i + 1, low := i, found := true }
      else l) ⟨64, 0, false⟩
    (l.high ≤ 64 ∧ l.low ≤ k) ∧ (l.found = true → ∀ i < k, mask.testBit i = true → l.low ≤ i ∧ i < l.high) ∧
      (l.found = false → ∀ i < k, mask.testBit i = false) := by
  induction k with
  | zero => simp
  | succ k ih =>
      have h := ih (by omega)
      rw [List.range_succ, List.foldl_append]
      simp only [List.foldl_cons, List.foldl_nil]
      generalize (List.range k).foldl _ _ = l at h ⊢
      obtain ⟨⟨hhigh, hlow⟩, hfound, hnone⟩ := h
      cases hbit : mask.testBit k with
      | false =>
          refine ⟨⟨hhigh, Nat.le_succ_of_le hlow⟩, fun hl i hi hmask => ?_, fun hl i hi => ?_⟩
          · rcases Nat.lt_succ_iff_lt_or_eq.1 hi with hlt | rfl
            · exact hfound hl i hlt hmask
            · exact absurd hmask (by simp [hbit])
          · rcases Nat.lt_succ_iff_lt_or_eq.1 hi with hlt | rfl
            · exact hnone hl i hlt
            · exact hbit
      | true =>
          cases hl : l.found with
          | true =>
              refine ⟨⟨hk, Nat.le_succ_of_le hlow⟩, fun _ i hi hmask => ?_, by simp⟩
              rcases Nat.lt_succ_iff_lt_or_eq.1 hi with hlt | rfl
              · have := hfound hl i hlt hmask
                simp
                omega
              · exact ⟨hlow, Nat.lt_succ_self i⟩
          | false =>
              refine ⟨⟨hk, Nat.le_succ k⟩, fun _ i hi hmask => ?_, by simp⟩
              rcases Nat.lt_succ_iff_lt_or_eq.1 hi with hlt | rfl
              · exact absurd hmask (by simp [hnone hl i hlt])
              · simp

theorem getmasklimit_spec (mask : ℕ) :
    (getmasklimit mask).high ≤ 64 ∧ ∀ i < 64, mask.testBit i = true →
      (getmasklimit mask).low ≤ i ∧ i < (getmasklimit mask).high := by
  obtain ⟨⟨hhigh, -⟩, hfound, hnone⟩ := getmasklimit_loop mask 64 (Nat.le_refl _)
  refine ⟨hhigh, fun i hi hmask => ?_⟩
  cases hl : (getmasklimit mask).found with
  | true => exact hfound hl i hi hmask
  | false => exact absurd hmask (by simp [hnone hl i hi])

/-- The bits between limits that enclose a mask are all its bits. -/
theorem filter_limits {high low : ℕ} (hhigh : high ≤ 64)
    (h : ∀ i < 64, mask.testBit i = true → low ≤ i ∧ i < high) :
    (List.range' low (high - low)).filter mask.testBit = positions mask := by
  have hnone : ∀ l : List ℕ, (∀ i ∈ l, i < 64 ∧ ¬ (low ≤ i ∧ i < high)) →
      l.filter mask.testBit = [] := by
    intro l hl
    refine List.filter_eq_nil_iff.2 fun i hi hmask => ?_
    obtain ⟨hlt, hout⟩ := hl i hi
    exact hout (h i hlt hmask)
  rcases Nat.lt_or_ge high low with hlt | hle
  · rw [Nat.sub_eq_zero_of_le (Nat.le_of_lt hlt)]
    refine (hnone (List.range 64) fun i hi => ⟨List.mem_range.1 hi, by omega⟩).symm
  · have hsplit : List.range 64 =
        List.range' 0 low ++ (List.range' low (high - low) ++ List.range' high (64 - high)) := by
      have h1 : List.range' low (high - low) ++ List.range' high (64 - high) =
          List.range' low (64 - low) := by
        have := @List.range'_append_1 low (high - low) (64 - high)
        rw [show low + (high - low) = high by omega] at this
        rw [this]
        congr 1
        omega
      have h2 := @List.range'_append_1 0 low (64 - low)
      rw [Nat.zero_add] at h2
      rw [h1, h2, List.range_eq_range']
      congr 1
      omega
    rw [positions, hsplit, List.filter_append, List.filter_append]
    rw [hnone (List.range' 0 low) fun i hi => by rw [List.mem_range'_1] at hi; omega]
    rw [hnone (List.range' high (64 - high)) fun i hi => by rw [List.mem_range'_1] at hi; omega]
    simp

theorem testBit_packbits {high low : ℕ} (hhigh : high ≤ 64)
    (h : ∀ i < 64, mask.testBit i = true → low ≤ i ∧ i < high) (val p : ℕ) :
    (packbits mask val high low).testBit p = (positions mask)[p]?.any val.testBit := by
  rw [packbits, packbits_loop mask val _ 0 0 (by simp) p, filter_limits hhigh h]
  simp

/-- Bits of the mask that a 32-bit field has room for. -/
def Kept (mask i : ℕ) : Prop := ∃ p < 32, (positions mask)[p]? = some i

theorem packbits_mod_eq_iff {high low : ℕ} (hhigh : high ≤ 64)
    (h : ∀ i < 64, mask.testBit i = true → low ≤ i ∧ i < high) (n : ℕ) :
    packbits mask a high low % 2 ^ n = packbits mask b high low % 2 ^ n ↔
      ∀ i, (∃ p < n, (positions mask)[p]? = some i) → a.testBit i = b.testBit i := by
  constructor
  · rintro heq i ⟨p, hp, hi⟩
    have := congrArg (fun x => x.testBit p) heq
    simpa [Nat.testBit_mod_two_pow, hp, testBit_packbits hhigh h, hi] using this
  · intro hall
    refine Nat.eq_of_testBit_eq fun p => ?_
    rw [Nat.testBit_mod_two_pow, Nat.testBit_mod_two_pow, testBit_packbits hhigh h,
      testBit_packbits hhigh h]
    by_cases hp : p < n
    · cases hi : (positions mask)[p]? with
      | none => simp
      | some i => simp [hall i ⟨p, hp, hi⟩]
    · simp [hp]

theorem length_positions_le (mask : ℕ) : (positions mask).length ≤ 64 := by
  have := List.length_filter_le mask.testBit (List.range 64)
  simpa [positions] using this

theorem packbits_lt {high low : ℕ} (hhigh : high ≤ 64)
    (h : ∀ i < 64, mask.testBit i = true → low ≤ i ∧ i < high) (val : ℕ) :
    packbits mask val high low < 2 ^ (positions mask).length := by
  refine Nat.lt_pow_two_of_testBit _ fun p hp => ?_
  rw [testBit_packbits hhigh h, List.getElem?_eq_none hp]
  rfl

/-- The whole width: nothing is cut off. -/
theorem packbits_full_eq_iff (mask a b : ℕ) :
    packbits mask a 64 0 = packbits mask b 64 0 ↔
      ∀ i < 64, mask.testBit i = true → a.testBit i = b.testBit i := by
  have hb : ∀ i < 64, mask.testBit i = true → 0 ≤ i ∧ i < 64 := fun i hi _ => ⟨Nat.zero_le i, hi⟩
  have hlt : ∀ val, packbits mask val 64 0 < 2 ^ 64 := fun val =>
    Nat.lt_of_lt_of_le (packbits_lt (Nat.le_refl _) hb val)
      (Nat.pow_le_pow_right (by omega) (length_positions_le mask))
  have h := @packbits_mod_eq_iff mask a b 64 0 (Nat.le_refl _) hb 64
  rw [Nat.mod_eq_of_lt (hlt a), Nat.mod_eq_of_lt (hlt b)] at h
  rw [h]
  constructor
  · intro hall i hi hmask
    obtain ⟨p, hp⟩ := List.mem_iff_getElem?.1 (mem_positions.2 ⟨hi, hmask⟩)
    have hlen := (List.getElem?_eq_some_iff.1 hp).1
    exact hall i ⟨p, Nat.lt_of_lt_of_le hlen (length_positions_le mask), hp⟩
  · rintro hall i ⟨p, -, hi⟩
    obtain ⟨hlt, hmask⟩ := mem_positions.1 (List.mem_of_getElem? hi)
    exact hall i hlt hmask

theorem field_eq_iff (hlimit : t.limit f = getmasklimit (t.mask f)) :
    t.field f a = t.field f b ↔ ∀ i, Kept (t.mask f) i → a.testBit i = b.testBit i := by
  obtain ⟨hhigh, hbits⟩ := getmasklimit_spec (t.mask f)
  rw [Translation.field, Translation.field, hlimit]
  exact packbits_mod_eq_iff hhigh hbits 32

/-! ## Reading the mapping string -/

theorem testBit_one_shiftLeft (n i : ℕ) : (1 <<< n).testBit i = decide (n = i) := by
  rw [Nat.one_shiftLeft, Nat.testBit_two_pow]

theorem testBit_parseMapping {dramid : Bool} {left : ℕ} {m m' : Field → ℕ} {cs : List Char}
    (h : parseMapping dramid left m cs = some m') :
    (cs.filter isMark).length = left ∧
    (dramid = true → ∀ c ∈ cs, .chip ∉ fieldsOf c) ∧
    ∀ f i, (m' f).testBit i = true ↔ (m f).testBit i = true ∨
      ∃ c, (cs.filter isMark).reverse[i]? = some c ∧ f ∈ fieldsOf c := by
  induction cs generalizing left m with
  | nil =>
      simp only [parseMapping] at h
      split at h
      · obtain rfl : m = m' := Option.some.inj h
        simp_all
      · cases h
  | cons c cs ih =>
      simp only [parseMapping] at h
      split at h
      · cases h
      · rename_i hchip
        have hchip' : dramid = true → .chip ∉ fieldsOf c := by simpa using hchip
        cases hmark : isMark c with
        | false =>
            rw [hmark] at h
            obtain ⟨hlen, hno, hbits⟩ := ih h
            rw [List.filter_cons_of_neg (by simp [hmark])]
            refine ⟨hlen, fun hd x hx => ?_, hbits⟩
            rcases List.mem_cons.1 hx with rfl | hx
            · exact hchip' hd
            · exact hno hd x hx
        | true =>
            rw [hmark, if_pos rfl] at h
            cases left with
            | zero => cases h
            | succ ofs =>
                obtain ⟨hlen, hno, hbits⟩ := ih h
                rw [List.filter_cons_of_pos hmark]
                refine ⟨by simp [hlen], fun hd x hx => ?_, fun f i => ?_⟩
                · rcases List.mem_cons.1 hx with rfl | hx
                  · exact hchip' hd
                  · exact hno hd x hx
                · have hofs : (cs.filter isMark).reverse.length = ofs := by simpa using hlen
                  rw [hbits f i, List.reverse_cons]
                  simp only [Codec.getElem?_concat_iff, hofs]
                  by_cases hf : f ∈ fieldsOf c
                  · simp only [if_pos hf, Nat.testBit_or, Bool.or_eq_true, testBit_one_shiftLeft,
                      decide_eq_true_eq]
                    constructor
                    · rintro ((hm | rfl) | ⟨x, hx, hfx⟩)
                      · exact Or.inl hm
                      · exact Or.inr ⟨c, Or.inr ⟨rfl, rfl⟩, hf⟩
                      · exact Or.inr ⟨x, Or.inl hx, hfx⟩
                    · rintro (hm | ⟨x, hx | ⟨rfl, rfl⟩, hfx⟩)
                      · exact Or.inl (Or.inl hm)
                      · exact Or.inr ⟨x, hx, hfx⟩
                      · exact Or.inl (Or.inr rfl)
                  · simp only [if_neg hf]
                    constructor
                    · rintro (hm | ⟨x, hx, hfx⟩)
                      · exact Or.inl hm
                      · exact Or.inr ⟨x, Or.inl hx, hfx⟩
                    · rintro (hm | ⟨x, hx | ⟨rfl, rfl⟩, hfx⟩)
                      · exact Or.inl hm
                      · exact Or.inr ⟨x, hx, hfx⟩
                      · exact absurd hfx hf

end AddrDec
end CompressionWork
