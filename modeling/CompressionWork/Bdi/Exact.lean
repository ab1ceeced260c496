import CompressionWork.Bdi.Fields
import Mathlib.Algebra.Order.Ring.Int

/-!
# Base-delta-immediate compression: which words a delta gives back

`zero_diff` and `convert_base` accept a word that has the high digits of the base, and write the
difference of the low digits.

* `getSigned_eq` — `get_int` is exact up to 2^53.
* `hexValue_deltaFrom` — the number a delta stands for.
* `delta_spec` — what is accepted, and what base and delta together give.
-/

namespace CompressionWork.Bdi

open Codec

/-! ## `get_int` -/

theorem roundDouble_of_dvd {z : ℤ} (h : 2 ^ (Nat.log2 z.natAbs - 52) ∣ z.natAbs) :
    roundDouble z = z := by
  rw [roundDouble]
  simp only [Nat.mod_eq_zero_of_dvd h, Nat.mul_zero]
  have hpos : 0 < 2 ^ (Nat.log2 z.natAbs - 52) := Nat.two_pow_pos _
  rw [if_neg (by omega), Nat.div_mul_cancel h]
  exact Int.sign_mul_natAbs z

/-- A number of 53 bits with zeros behind them is a `double`. -/
theorem roundDouble_mul_pow {m : ℤ} (hm : m.natAbs ≤ 2 ^ 53) (e : ℕ) :
    roundDouble (m * 2 ^ e) = m * 2 ^ e := by
  apply roundDouble_of_dvd
  have habs : (m * 2 ^ e).natAbs = m.natAbs * 2 ^ e := by
    rw [Int.natAbs_mul, Int.natAbs_pow]
    rfl
  rw [habs]
  rcases Nat.eq_zero_or_pos m.natAbs with h0 | hpos
  · rw [h0, Nat.zero_mul]
    exact dvd_zero _
  rcases Nat.lt_or_eq_of_le hm with hlt | heq
  · apply (pow_dvd_pow 2 _).trans (Dvd.intro_left _ rfl)
    have hlog : Nat.log2 (m.natAbs * 2 ^ e) < 53 + e := by
      rw [Nat.log2_lt (Nat.mul_pos hpos (Nat.two_pow_pos e)).ne', pow_add]
      exact Nat.mul_lt_mul_of_pos_right hlt (Nat.two_pow_pos e)
    omega
  · rw [heq, ← pow_add, Nat.log2_two_pow]
    exact pow_dvd_pow 2 (Nat.sub_le _ _)

/-- The loop of `get_int` is exact as long as the sum stays within 2^53: the sums before it have zeros
where bits are still to come. -/
theorem getIntLoop_exact (s : Str) : ∀ val m : ℤ, val = m * 2 ^ s.length → -2 ^ 63 ≤ val →
    -2 ^ 53 ≤ val + binaryValue s → val + binaryValue s ≤ 2 ^ 53 →
    getIntLoop s val = val + binaryValue s := by
  induction s with
  | nil =>
      intro val m _ _ _ _
      simp [getIntLoop, binaryValue]
  | cons c s ih =>
      intro val m hval hlow hge hle
      have hbv := binaryValue_lt (c :: s)
      have hsum : val + bitVal c * 2 ^ s.length = (2 * m + bitVal c) * 2 ^ s.length := by
        rw [hval, List.length_cons, pow_succ]
        ring
      rw [binaryValue_cons] at hge hle hbv ⊢
      have hbit := bitVal_lt c
      have hbv' := binaryValue_lt s
      rw [List.length_cons] at hbv hval
      zify at hbv hbv' hbit
      push_cast at hge hle
      have hP : (1 : ℤ) ≤ 2 ^ s.length := one_le_pow₀ (by decide)
      have hP' : (1 : ℤ) ≤ 2 ^ (s.length + 1) := one_le_pow₀ (by decide)
      -- the bits read so far are few
      have hm : m.natAbs ≤ 2 ^ 53 := by
        by_contra hbig
        rcases Int.natAbs_eq m with heq | heq
        · have hm1 : (2 : ℤ) ^ 53 + 1 ≤ m := by omega
          nlinarith
        · have hm1 : m + 1 ≤ -(2 : ℤ) ^ 53 := by omega
          nlinarith
      have hm' : (2 * m + bitVal c).natAbs ≤ 2 ^ 53 := by
        by_contra hbig
        rcases Int.natAbs_eq (2 * m + bitVal c) with heq | heq
        · have hm1 : (2 : ℤ) ^ 53 + 1 ≤ 2 * m + bitVal c := by omega
          nlinarith
        · have hm1 : 2 * m + bitVal c + 1 ≤ -(2 : ℤ) ^ 53 := by omega
          nlinarith
      have hnonneg : (0 : ℤ) ≤ bitVal c * 2 ^ s.length := by positivity
      have hround : roundDouble val = val := by
        rw [hval]
        exact roundDouble_mul_pow hm _
      have hround' : roundDouble (val + bitVal c * 2 ^ s.length) = val + bitVal c * 2 ^ s.length := by
        rw [hsum]
        exact roundDouble_mul_pow hm' _
      have hll : toLongLong (val + bitVal c * 2 ^ s.length) = val + bitVal c * 2 ^ s.length := by
        rw [toLongLong, if_pos]
        constructor <;> omega
      rw [getIntLoop, hround, hround', hll,
        ih (val + bitVal c * 2 ^ s.length) (2 * m + bitVal c) hsum (by omega) (by omega) (by omega)]
      push_cast
      ring

/-- Two's complement, by the highest bit. -/
theorem bmod_two_pow {x : ℤ} {k : ℕ} (h0 : 0 ≤ x) (hlt : x < 2 ^ (k + 1)) :
    Int.bmod x (2 ^ (k + 1)) = if x < 2 ^ k then x else x - 2 ^ (k + 1) := by
  have hcast : ((2 ^ (k + 1) : ℕ) : ℤ) = 2 ^ (k + 1) := by push_cast; rfl
  have hhalf : ((2 : ℤ) ^ (k + 1) + 1) / 2 = 2 ^ k := by
    rw [pow_succ]
    omega
  rw [Int.bmod_def, hcast, Int.emod_eq_of_lt h0 hlt, hhalf]

/-- **`get_int` reads two's complement**, exactly up to 2^53. -/
theorem getSigned_eq {s : Str} (hs : IsBin s) (h1 : 1 ≤ s.length) (h64 : s.length ≤ 64)
    (h : (Int.bmod (binaryValue s) (2 ^ s.length)).natAbs ≤ 2 ^ 53) :
    getSigned s = Int.bmod (binaryValue s) (2 ^ s.length) := by
  obtain ⟨c, s, rfl⟩ := List.exists_cons_of_length_pos (l := s) (by omega)
  rw [List.length_cons] at h h64 ⊢
  have hbv := binaryValue_lt s
  have hall := binaryValue_lt (c :: s)
  rw [List.length_cons] at hall
  zify at hbv hall
  have hpow : (2 : ℤ) ^ s.length ≤ 2 ^ 63 := pow_le_pow_right₀ (by decide) (by omega)
  rw [bmod_two_pow (Int.natCast_nonneg _) hall, binaryValue_cons] at h ⊢
  push_cast at h ⊢
  rcases hs c (by simp) with rfl | rfl
  · have h0 : bitVal '0' = 0 := rfl
    rw [h0, Nat.cast_zero, zero_mul, zero_add, if_pos hbv] at h ⊢
    rw [getSigned, getInt, List.headD_cons, if_neg (by simp), h0, Nat.cast_zero, zero_mul,
      toLongLong_of_lt (by decide), getIntLoop_exact s 0 0 (by simp) (by omega) (by omega) (by omega),
      zero_add]
  · have h1 : bitVal '1' = 1 := rfl
    rw [h1, Nat.cast_one, one_mul, if_neg (by omega), pow_succ] at h ⊢
    rw [getSigned, getInt, List.headD_cons, if_pos (by simp),
      getIntLoop_exact s (-2 ^ s.length) (-1) (by simp) (by omega) (by omega) (by omega)]
    omega

/-! ## Digits -/

/-- The two's complement value of a string of digits. -/
def signedValue (s : Str) : ℤ := Int.bmod (hexValue s) (2 ^ (4 * s.length))

theorem hexValue_lt {s : Str} (hs : IsHex s) : hexValue s < 2 ^ (4 * s.length) := by
  have hdig : ∀ d ∈ s.map hexVal, d < 16 := by
    intro d hd
    obtain ⟨c, hc, rfl⟩ := List.mem_map.1 hd
    exact hexVal_lt (hs c hc)
  have hlt := value_lt hdig
  rwa [List.length_map, show (16 : ℕ) = 2 ^ 4 from rfl, ← pow_mul] at hlt

theorem hexValue_append (s u : Str) :
    hexValue (s ++ u) = hexValue s * 2 ^ (4 * u.length) + hexValue u := by
  rw [hexValue, List.map_append, value_append, List.length_map, pow_mul]
  rfl

theorem hexValue_inj {s u : Str} (hs : IsHex s) (hu : IsHex u) (hlen : s.length = u.length)
    (h : hexValue s = hexValue u) : s = u := by
  have hdig : ∀ {s : Str}, IsHex s → ∀ d ∈ s.map hexVal, d < 16 := by
    intro s hs d hd
    obtain ⟨c, hc, rfl⟩ := List.mem_map.1 hd
    exact hexVal_lt (hs c hc)
  have hback : ∀ {s : Str}, IsHex s → (s.map hexVal).map hexDigit = s := by
    intro s hs
    rw [List.map_map]
    refine (List.map_congr_left fun c hc => ?_).trans (List.map_id _)
    exact hexDigit_hexVal (hs c hc)
  have hmap : s.map hexVal = u.map hexVal :=
    value_inj (hdig hs) (hdig hu) (by rw [List.length_map, List.length_map, hlen]) h
  rw [← hback hs, ← hback hu, hmap]

variable {delta : ℕ} {word base : Str}

theorem high_append_low (delta : ℕ) (s : Str) : high delta s ++ low delta s = s :=
  List.take_append_drop _ s

theorem length_low (h : delta ≤ word.length) : (low delta word).length = delta := by
  rw [low, List.length_drop]
  omega

/-- The value of the high and of the low digits. -/
theorem hexValue_high_low (hw : IsHex word) (h : delta ≤ word.length) :
    hexValue (high delta word) = hexValue word / 2 ^ (4 * delta) ∧
      hexValue (low delta word) = hexValue word % 2 ^ (4 * delta) := by
  have hlt := hexValue_lt (hw.drop (word.length - delta))
  have hsplit := hexValue_append (high delta word) (low delta word)
  rw [high_append_low, length_low h] at hsplit
  change hexValue (low delta word) < 2 ^ (4 * (low delta word).length) at hlt
  rw [length_low h] at hlt
  rw [hsplit]
  constructor
  · rw [Nat.mul_comm, Nat.mul_add_div (Nat.two_pow_pos _), Nat.div_eq_of_lt hlt, Nat.add_zero]
  · rw [Nat.mul_comm, Nat.mul_add_mod, Nat.mod_eq_of_lt hlt]

/-- The high digits agree when the numbers agree above the low digits. -/
theorem high_eq_iff (hw : IsHex word) (hb : IsHex base) (hlen : word.length = base.length)
    (h : delta ≤ word.length) : high delta word = high delta base ↔
      hexValue word / 2 ^ (4 * delta) = hexValue base / 2 ^ (4 * delta) := by
  obtain ⟨hhigh, -⟩ := hexValue_high_low hw h
  obtain ⟨hhigh', -⟩ := hexValue_high_low hb (hlen ▸ h)
  rw [← hhigh, ← hhigh']
  refine ⟨fun heq => by rw [heq], fun heq => ?_⟩
  apply hexValue_inj (hw.take _) (hb.take _) _ heq
  rw [List.length_take, List.length_take, hlen]

/-! ## Deltas -/

theorem isHex_convertHexa (num : ℤ) (delta : ℕ) : IsHex (convertHexa num delta) := by
  intro c hc
  obtain ⟨g, -, rfl⟩ := List.mem_map.1 hc
  rcases Nat.lt_or_ge (binaryValue g) 16 with hlt | hge
  · exact hexDigit_mem hlt
  · rw [hexDigit, List.getD_eq_getElem?_getD, List.getElem?_eq_none hge]
    decide

theorem hexValue_convertHexa (num : ℤ) (delta : ℕ) :
    (hexValue (convertHexa num delta) : ℤ) = num % 2 ^ (4 * delta) := by
  have hpos : (0 : ℤ) < 2 ^ (4 * delta) := by positivity
  have hnonneg := Int.emod_nonneg num hpos.ne'
  have hlt := Int.emod_lt_of_pos num hpos
  have hcast : ((2 ^ (4 * delta) : ℕ) : ℤ) = 2 ^ (4 * delta) := by push_cast; rfl
  have hhex := isHex_convertHexa num delta
  have hvalue := hexValue_lt hhex
  rw [length_convertHexa] at hvalue
  have hbits := hexToBin_convertHexa num delta
  rw [hexToBin_eq_getBinary hhex, length_convertHexa] at hbits
  have heq := getBinary_inj hvalue (by zify; rw [Int.toNat_of_nonneg hnonneg]; exact hlt) hbits
  rw [heq, Int.toNat_of_nonneg hnonneg]

/-- The number a delta stands for. -/
theorem hexValue_deltaFrom (h1 : 1 ≤ delta) (h8 : delta ≤ 8) (hw : IsHex word)
    (hlen : delta ≤ word.length) :
    (hexValue (deltaFrom delta base word) : ℤ) =
      (hexValue word - getSigned (hexToBin base)) % 2 ^ (4 * delta) := by
  rw [deltaFrom, hexValue_convertHexa, delta_emod h1 h8 base (hw.drop _) (length_low hlen),
    (hexValue_high_low hw hlen).2]
  push_cast
  rw [Int.sub_emod, Int.emod_emod_of_dvd _ (dvd_refl _), ← Int.sub_emod]

/-- Bases whose value fits into a `double` are read exactly. -/
theorem getSigned_base (hb : IsHex base) (h1 : 1 ≤ base.length) (h16 : base.length ≤ 16)
    (h : (signedValue base).natAbs ≤ 2 ^ 53) : getSigned (hexToBin base) = signedValue base := by
  have hlen : (hexToBin base).length = 4 * base.length := length_hexToBin base
  have hval : binaryValue (hexToBin base) = hexValue base := by
    rw [hexToBin_eq_getBinary hb, binaryValue_getBinary, Nat.mod_eq_of_lt (hexValue_lt hb)]
  have heq := getSigned_eq (isBin_hexToBin base) (by omega) (by omega)
  rw [hval, hlen] at heq
  exact heq h

/-! ## What is accepted, and what comes back -/

theorem sizes_of_mem_tracker {t : Blocker} (h : t ∈ tracker) :
    1 ≤ t.delta ∧ t.delta ≤ 4 ∧ t.delta < t.base ∧ t.base ≤ 8 := by
  simp only [tracker, List.mem_cons, List.not_mem_nil, or_false] at h
  rcases h with rfl | rfl | rfl | rfl | rfl | rfl <;> decide

theorem zeroHigh_iff (hw : IsHex word) (h : delta ≤ word.length) :
    ZeroHigh delta word ↔ hexValue word < 2 ^ (4 * delta) := by
  have hzero : ∀ n, hexValue (List.replicate n '0') = 0 := by
    intro n
    induction n with
    | zero => rfl
    | succ n ih =>
        rw [List.replicate_succ', hexValue_append, ih]
        rfl
  have hhex : IsHex (List.replicate (word.length - delta) '0') := by
    intro c hc
    rw [List.eq_of_mem_replicate hc]
    decide
  rw [ZeroHigh, ← Nat.div_eq_zero_iff_lt (Nat.two_pow_pos _), ← (hexValue_high_low hw h).1,
    ← hzero (word.length - delta)]
  refine ⟨fun heq => by rw [heq], fun heq => ?_⟩
  apply hexValue_inj (hw.take _) hhex _ heq
  rw [List.length_take, List.length_replicate]
  omega

/-- A delta, as a signed number, that goes from one number to another of the same high digits. -/
theorem signed_delta_iff {b w : ℤ} {e n : ℕ} (hen : e + 2 ≤ n) (he : 1 ≤ e) (hhigh : w / 2 ^ e = b / 2 ^ e) :
    (b + Int.bmod (w - b) (2 ^ e)) % 2 ^ n = w % 2 ^ n ↔
      -2 ^ (e - 1) ≤ w - b ∧ w - b < 2 ^ (e - 1) := by
  obtain ⟨k, rfl⟩ : ∃ k, e = k + 1 := ⟨e - 1, by omega⟩
  have hpos : (0 : ℤ) < 2 ^ k := by positivity
  have hsucc : (2 : ℤ) ^ (k + 1) = 2 * 2 ^ k := pow_succ' 2 k
  have hcast : ((2 ^ (k + 1) : ℕ) : ℤ) = 2 * 2 ^ k := by
    push_cast
    exact hsucc
  have hn : 8 * 2 ^ k ≤ (2 : ℤ) ^ n := by
    calc (8 : ℤ) * 2 ^ k = 2 ^ (k + 3) := by ring
      _ ≤ 2 ^ n := pow_le_pow_right₀ (by decide) (by omega)
  have hlt := @Int.bmod_lt (w - b) (2 ^ (k + 1)) (Nat.two_pow_pos _)
  have hle := @Int.le_bmod (w - b) (2 ^ (k + 1)) (Nat.two_pow_pos _)
  have hw := Int.emod_add_mul_ediv w (2 ^ (k + 1))
  have hb := Int.emod_add_mul_ediv b (2 ^ (k + 1))
  have hw0 := Int.emod_nonneg w (b := 2 ^ (k + 1)) (by positivity)
  have hb0 := Int.emod_nonneg b (b := 2 ^ (k + 1)) (by positivity)
  have hw1 := Int.emod_lt_of_pos w (b := 2 ^ (k + 1)) (by positivity)
  have hb1 := Int.emod_lt_of_pos b (b := 2 ^ (k + 1)) (by positivity)
  rw [hcast] at hlt hle
  rw [hhigh] at hw
  rw [hsucc] at hw hb hw0 hb0 hw1 hb1
  rw [Nat.add_sub_cancel]
  constructor
  · intro heq
    -- the numbers are too close to be equal only modulo the width
    have hdvd : (2 : ℤ) ^ n ∣ w - (b + Int.bmod (w - b) (2 ^ (k + 1))) :=
      Int.dvd_of_emod_eq_zero (Int.emod_eq_emod_iff_emod_sub_eq_zero.1 heq.symm)
    have hsame : w - (b + Int.bmod (w - b) (2 ^ (k + 1))) = 0 := by
      apply Int.eq_zero_of_abs_lt_dvd hdvd
      have hhalf : (2 * (2 : ℤ) ^ k + 1) / 2 = 2 ^ k := by omega
      have hhalf' : 2 * (2 : ℤ) ^ k / 2 = 2 ^ k := by omega
      rw [hhalf] at hlt
      rw [hhalf'] at hle
      rw [abs_lt]
      constructor <;> linarith
    omega
  · intro hfits
    have heq : Int.bmod (w - b) (2 ^ (k + 1)) = w - b := by
      apply Int.bmod_eq_of_le <;> rw [hcast] <;> omega
    rw [heq, add_sub_cancel]

section Spec

variable {t : Blocker}

/-- A word is coded against zero when its high digits are zero. -/
theorem zeroDiff_spec (hw : IsHex word) (hwl : word.length = t.base * 2) (hdb : t.delta ≤ t.base)
    (part : Str) :
    zeroDiff word (List.replicate (t.base * 2) '0') (t.delta * 2) = some part ↔
      hexValue word < 2 ^ (8 * t.delta) ∧ part = '0' :: low (t.delta * 2) word ∧
        hexValue (part.drop 1) = hexValue word := by
  have he : 4 * (t.delta * 2) = 8 * t.delta := by omega
  have hle : t.delta * 2 ≤ word.length := by omega
  have hzero := zeroHigh_iff hw hle
  rw [he] at hzero
  have hlow : hexValue word < 2 ^ (8 * t.delta) → hexValue (low (t.delta * 2) word) = hexValue word := by
    intro hlt
    rw [(hexValue_high_low hw hle).2, he, Nat.mod_eq_of_lt hlt]
  rw [zeroDiff_zeros hwl]
  split_ifs with hz
  · constructor
    · intro h
      obtain rfl := Option.some.inj h
      exact ⟨hzero.1 hz, rfl, hlow (hzero.1 hz)⟩
    · rintro ⟨-, rfl, -⟩
      rfl
  · exact ⟨nofun, fun h => absurd (hzero.2 h.1) hz⟩

/-- What the digits of a delta are, when `get_int` has read the low digits of the base right. -/
theorem low_deltaFrom_iff (hw : IsHex word) (hd1 : 1 ≤ t.delta) (hd4 : t.delta ≤ 4)
    (hle : t.delta * 2 ≤ word.length) :
    (hexValue base + hexValue (deltaFrom (t.delta * 2) base word)) % 2 ^ (8 * t.delta) =
        hexValue word % 2 ^ (8 * t.delta) ↔
      getSigned (hexToBin base) % 2 ^ (8 * t.delta) = (hexValue base : ℤ) % 2 ^ (8 * t.delta) := by
  have hvalue := @hexValue_deltaFrom _ _ base (show 1 ≤ t.delta * 2 by omega)
    (show t.delta * 2 ≤ 8 by omega) hw hle
  rw [show 4 * (t.delta * 2) = 8 * t.delta by omega] at hvalue
  have hpos : (0 : ℤ) < 2 ^ (8 * t.delta) := by positivity
  zify
  rw [hvalue, Int.add_emod_emod, Int.emod_eq_emod_iff_emod_sub_eq_zero, add_sub_assoc,
    sub_sub_cancel_left, ← sub_eq_add_neg, ← Int.emod_eq_emod_iff_emod_sub_eq_zero]
  exact eq_comm

/-- The signed value of a word agrees with its value in the low digits. -/
theorem signedValue_emod (hle : 8 * t.delta ≤ 4 * base.length) :
    signedValue base % 2 ^ (8 * t.delta) = (hexValue base : ℤ) % 2 ^ (8 * t.delta) := by
  have hdvd : (2 : ℤ) ^ (8 * t.delta) ∣ ((2 ^ (4 * base.length) : ℕ) : ℤ) := by
    rw [Nat.cast_pow, Nat.cast_ofNat]
    exact pow_dvd_pow 2 hle
  rw [signedValue, ← Int.emod_emod_of_dvd _ hdvd, Int.bmod_emod, Int.emod_emod_of_dvd _ hdvd]

/-- The signed value of a delta is the difference, reduced. -/
theorem signedValue_deltaFrom (hw : IsHex word) (hd1 : 1 ≤ t.delta) (hd4 : t.delta ≤ 4)
    (hle : t.delta * 2 ≤ word.length) (hbase : 8 * t.delta ≤ 4 * base.length)
    (hsigned : getSigned (hexToBin base) = signedValue base) :
    signedValue (deltaFrom (t.delta * 2) base word) =
      Int.bmod (hexValue word - hexValue base) (2 ^ (8 * t.delta)) := by
  have he : 4 * (t.delta * 2) = 8 * t.delta := by omega
  have hvalue := @hexValue_deltaFrom _ _ base (show 1 ≤ t.delta * 2 by omega)
    (show t.delta * 2 ≤ 8 by omega) hw hle
  rw [he] at hvalue
  have hdlen : (deltaFrom (t.delta * 2) base word).length = t.delta * 2 := length_convertHexa _ _
  have hcast : (2 : ℤ) ^ (8 * t.delta) = ((2 ^ (8 * t.delta) : ℕ) : ℤ) := by push_cast; rfl
  rw [signedValue, hdlen, he, hvalue, hsigned, Int.sub_emod, signedValue_emod hbase, ← Int.sub_emod,
    hcast, Int.emod_bmod]

end Spec

/-- **What the checks accept, and what comes back**, for a word and a base of any block.

* The zero base takes a word below `2 ^ (8 * delta)` and writes its low digits, which are the word.
* Another base takes a word of the same high digits.
* The low digits of base and delta together are those of the word exactly when `get_int` has read the low
  digits of the base right.
* It has for a base within `2 ^ 53`; then the high digits of the base and these low digits are the word, and
  the delta as a signed number leads from the base to the word exactly when the difference fits into it. -/
theorem delta_spec {t : Blocker} (ht : t ∈ tracker) (hw : IsHex word) (hb : IsHex base)
    (hwl : word.length = t.base * 2) (hbl : base.length = t.base * 2) :
    (∀ part, zeroDiff word (List.replicate (t.base * 2) '0') (t.delta * 2) = some part ↔
      hexValue word < 2 ^ (8 * t.delta) ∧ part = '0' :: low (t.delta * 2) word ∧
        hexValue (part.drop 1) = hexValue word) ∧
    ((convertBase word base (t.delta * 2)).isSome = true ↔
      hexValue word / 2 ^ (8 * t.delta) = hexValue base / 2 ^ (8 * t.delta)) ∧
    ∀ delta, convertBase word base (t.delta * 2) = some delta →
      ((hexValue base + hexValue delta) % 2 ^ (8 * t.delta) = hexValue word % 2 ^ (8 * t.delta) ↔
        getSigned (hexToBin base) % 2 ^ (8 * t.delta) = (hexValue base : ℤ) % 2 ^ (8 * t.delta)) ∧
      ((signedValue base).natAbs ≤ 2 ^ 53 →
        hexValue base / 2 ^ (8 * t.delta) * 2 ^ (8 * t.delta) +
            (hexValue base + hexValue delta) % 2 ^ (8 * t.delta) = hexValue word ∧
        ((hexValue base + signedValue delta) % 2 ^ (8 * t.base) =
            (hexValue word : ℤ) % 2 ^ (8 * t.base) ↔
          -2 ^ (8 * t.delta - 1) ≤ (hexValue word : ℤ) - hexValue base ∧
            (hexValue word : ℤ) - hexValue base < 2 ^ (8 * t.delta - 1))) := by
  obtain ⟨hd1, hd4, hdb, hb8⟩ := sizes_of_mem_tracker ht
  have hle : t.delta * 2 ≤ word.length := by omega
  have hhigh := high_eq_iff hw hb (hwl.trans hbl.symm) hle
  rw [show 4 * (t.delta * 2) = 8 * t.delta by omega] at hhigh
  refine ⟨zeroDiff_spec hw hwl (by omega), ?_, ?_⟩
  · rw [convertBase_eq, ← hhigh]
    split_ifs with h
    · exact ⟨fun _ => h, fun _ => rfl⟩
    · exact ⟨nofun, fun h' => absurd h' h⟩
  · intro delta hdelta
    rw [convertBase_eq] at hdelta
    split_ifs at hdelta with hsame
    obtain rfl := Option.some.inj hdelta
    have hiff := @low_deltaFrom_iff word base t hw (by omega) (by omega) hle
    refine ⟨hiff, ?_⟩
    intro h53
    have hsigned := getSigned_base hb (by omega) (by omega) h53
    have hmod := @signedValue_emod base t (by omega)
    constructor
    · rw [hiff.2 (by rw [hsigned, hmod]), ← hhigh.1 hsame]
      exact Nat.div_add_mod' _ _
    · rw [signedValue_deltaFrom hw (by omega) (by omega) hle (by omega) hsigned]
      apply signed_delta_iff (by omega) (by omega)
      exact_mod_cast hhigh.1 hsame

/-- The words 0x1104 and 0x1100 under the block of two bytes with deltas of one byte. -/
theorem delta_spec_four : convertBase ['1', '1', '0', '4'] ['1', '1', '0', '0'] 2 = some ['0', '4'] ∧
    ((hexValue ['1', '1', '0', '0'] + signedValue ['0', '4']) % 2 ^ 16 =
        (hexValue ['1', '1', '0', '4'] : ℤ) % 2 ^ 16 ↔
      -2 ^ 7 ≤ (hexValue ['1', '1', '0', '4'] : ℤ) - hexValue ['1', '1', '0', '0'] ∧
        (hexValue ['1', '1', '0', '4'] : ℤ) - hexValue ['1', '1', '0', '0'] < 2 ^ 7) := by
  have hdelta : convertBase ['1', '1', '0', '4'] ['1', '1', '0', '0'] 2 = some ['0', '4'] := by
    decide +kernel
  have hspec := @delta_spec ['1', '1', '0', '4'] ['1', '1', '0', '0'] ⟨['0', '1', '1', '1'], 2, 1⟩
    (by decide) (by decide) (by decide) rfl rfl
  exact ⟨hdelta, ((hspec.2.2 _ hdelta).2 (by decide)).2⟩

/-- The word 0x1200 is not accepted for the base 0x11FF, from which it differs by one; 0x1100 is, and the
delta leads from the base to 0x1200, however it is read. -/
theorem not_delta_exact :
    (¬ ∀ t ∈ tracker, ∀ word base : Str, IsHex word → IsHex base → word.length = t.base * 2 →
      base.length = t.base * 2 → ((convertBase word base (t.delta * 2)).isSome = true ↔
        -2 ^ (8 * t.delta - 1) ≤ (hexValue word : ℤ) - hexValue base ∧
          (hexValue word : ℤ) - hexValue base < 2 ^ (8 * t.delta - 1))) ∧
    (¬ ∀ t ∈ tracker, ∀ word base delta : Str, IsHex word → IsHex base → word.length = t.base * 2 →
      base.length = t.base * 2 → convertBase word base (t.delta * 2) = some delta →
        (hexValue base + signedValue delta) % 2 ^ (8 * t.base) = (hexValue word : ℤ)) ∧
    ¬ ∀ t ∈ tracker, ∀ word base delta : Str, IsHex word → IsHex base → word.length = t.base * 2 →
      base.length = t.base * 2 → convertBase word base (t.delta * 2) = some delta →
        (hexValue base + hexValue delta) % 2 ^ (8 * t.base) = hexValue word := by
  have hdelta : convertBase ['1', '1', '0', '0'] ['1', '1', 'F', 'F'] 2 = some ['0', '1'] := by
    decide +kernel
  refine ⟨?_, ?_, ?_⟩
  · intro h
    have h12 := h ⟨['0', '1', '1', '1'], 2, 1⟩ (by decide) ['1', '2', '0', '0'] ['1', '1', 'F', 'F']
      (by decide) (by decide) rfl rfl
    exact absurd h12 (by decide +kernel)
  · intro h
    have h11 := h ⟨['0', '1', '1', '1'], 2, 1⟩ (by decide) _ _ _ (by decide) (by decide) rfl rfl hdelta
    exact absurd h11 (by decide +kernel)
  · intro h
    have h11 := h ⟨['0', '1', '1', '1'], 2, 1⟩ (by decide) _ _ _ (by decide) (by decide) rfl rfl hdelta
    exact absurd h11 (by decide +kernel)

end CompressionWork.Bdi
