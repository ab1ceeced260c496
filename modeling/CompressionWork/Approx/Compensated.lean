import CompressionWork.Approx.Words
import Mathlib.Algebra.Order.Field.Rat
import Mathlib.Algebra.Order.Field.Basic
import Mathlib.Algebra.Order.Ring.Abs
import Mathlib.Data.Nat.Bitwise
import Mathlib.Tactic.NormNum
import Mathlib.Tactic.Ring
import Mathlib.Tactic.Linarith
import Mathlib.Tactic.Positivity

/-!
# Error compensation

* `value`, `ulp` — a word read as a 32-bit float.
* `round_spec` — every branch rounds the mantissa to the nearest multiple of `2 ^ r`, and drops the carry.
* `compensated_iff` — the error is bounded just when no mantissa of the block is rounded up out of its bits.
-/

namespace CompressionWork.Approx

variable {data data' : List UInt8} {interval size r w w' n : ℕ} {range : UInt32} {br : Branch}
  {b0 b1 b2 : UInt8}

/-! ## Floats -/

/-- The sign bit of a float. -/
def sign (w : ℕ) : ℕ := w / 2 ^ 31

/-- The eight exponent bits of a float. -/
def exponent (w : ℕ) : ℕ := w / 2 ^ 23 % 2 ^ 8

/-- The 23 mantissa bits of a float. -/
def mantissa (w : ℕ) : ℕ := w % 2 ^ 23

/-- The mantissa with its implicit bit. -/
def significand (w : ℕ) : ℕ := if exponent w = 0 then mantissa w else 2 ^ 23 + mantissa w

/-- The unit in the last place. -/
def ulp (w : ℕ) : ℚ := 2 ^ max (exponent w) 1 / 2 ^ 150

/-- The number that a finite float stands for. -/
def value (w : ℕ) : ℚ := (-1) ^ sign w * significand w * ulp w

/-- The nearest multiple of `2 ^ r`, ties up. -/
def nearest (r x : ℕ) : ℕ := (x + 2 ^ (r - 1)) / 2 ^ r * 2 ^ r

/-- The word `w'` is `w` with its significand rounded, and not further from it than half of the step. -/
def RoundedTo (r w w' : ℕ) : Prop :=
  value w' = (-1) ^ sign w * nearest r (significand w) * ulp w ∧ |value w' - value w| ≤ 2 ^ (r - 1) * ulp w

/-- Word `n` of the block, little-endian. -/
def wordOf (data : List UInt8) (n : ℕ) : ℕ :=
  (byteAt data (4 * n)).toNat + 2 ^ 8 * (byteAt data (4 * n + 1)).toNat +
    2 ^ 16 * (byteAt data (4 * n + 2)).toNat + 2 ^ 24 * (byteAt data (4 * n + 3)).toNat

/-! ## Rounding -/

theorem ulp_pos (w : ℕ) : 0 < ulp w := by
  unfold ulp
  positivity

theorem two_pow_pred (hr : 0 < r) : 2 ^ r = 2 * 2 ^ (r - 1) := by
  obtain ⟨k, rfl⟩ := Nat.exists_eq_add_one_of_ne_zero (Nat.ne_of_gt hr)
  rw [Nat.add_sub_cancel, pow_succ, Nat.mul_comm]

theorem nearest_bounds (hr : 0 < r) (x : ℕ) :
    nearest r x ≤ x + 2 ^ (r - 1) ∧ x ≤ nearest r x + 2 ^ (r - 1) := by
  have hdiv := Nat.div_add_mod (x + 2 ^ (r - 1)) (2 ^ r)
  have hmod := Nat.mod_lt (x + 2 ^ (r - 1)) (Nat.two_pow_pos r)
  rw [Nat.mul_comm] at hdiv
  have hdouble := two_pow_pred hr
  unfold nearest
  omega

/-- The implicit bit is a multiple of the step. -/
theorem nearest_add (hr : r ≤ 23) (x : ℕ) : nearest r (2 ^ 23 + x) = 2 ^ 23 + nearest r x := by
  have hsplit : 2 ^ 23 = 2 ^ r * 2 ^ (23 - r) := by rw [← pow_add, Nat.add_sub_cancel' hr]
  unfold nearest
  rw [Nat.add_assoc, hsplit, Nat.mul_add_div (Nat.two_pow_pos r), Nat.add_mul, Nat.mul_comm (2 ^ r)]

theorem abs_value_sub {x x' : ℕ} (w : ℕ) :
    |(-1) ^ sign w * (x' : ℚ) * ulp w - (-1) ^ sign w * x * ulp w| = |(x' : ℚ) - x| * ulp w := by
  rw [← sub_mul, ← mul_sub, abs_mul, abs_mul, abs_pow, abs_neg, abs_one, one_pow, one_mul,
    abs_of_pos (ulp_pos w)]

/-- A word with another mantissa. -/
theorem fields_of_mantissa {m : ℕ} (hm : m < 2 ^ 23) (hw : w' = w / 2 ^ 23 * 2 ^ 23 + m) :
    sign w' = sign w ∧ exponent w' = exponent w ∧ mantissa w' = m := by
  unfold sign exponent mantissa
  omega

/-- A word whose mantissa is rounded without its carry. -/
theorem roundedTo_iff (hr : 0 < r) (hle : r ≤ 20)
    (hw : w' = w / 2 ^ 23 * 2 ^ 23 + nearest r (w % 2 ^ 23) % 2 ^ 23) :
    RoundedTo r w w' ↔ mantissa w < 2 ^ 23 - 2 ^ (r - 1) := by
  have hm : w % 2 ^ 23 < 2 ^ 23 := Nat.mod_lt _ (Nat.two_pow_pos 23)
  have hbounds := nearest_bounds hr (w % 2 ^ 23)
  have hhalf : 2 ^ (r - 1) ≤ 2 ^ 19 := Nat.pow_le_pow_right Nat.two_pos (by omega)
  obtain ⟨hsign, hexp, hmant⟩ := fields_of_mantissa (Nat.mod_lt _ (Nat.two_pow_pos 23)) hw
  have hulp : ulp w' = ulp w := by rw [ulp, ulp, hexp]
  by_cases hcarry : mantissa w < 2 ^ 23 - 2 ^ (r - 1)
  · refine iff_of_true ?_ hcarry
    -- nothing is carried out of the mantissa
    have hmantissa : mantissa w' = nearest r (mantissa w) := by
      rw [hmant]
      refine Nat.mod_eq_of_lt ?_
      unfold mantissa at hcarry
      omega
    have hsig : significand w' = nearest r (significand w) := by
      unfold significand
      rw [hexp, hmantissa]
      split
      · rfl
      · exact (nearest_add (by omega) _).symm
    have hvalue : value w' = (-1) ^ sign w * nearest r (significand w) * ulp w := by
      rw [value, hsign, hsig, hulp]
    refine ⟨hvalue, ?_⟩
    rw [hvalue, value, abs_value_sub]
    refine mul_le_mul_of_nonneg_right ?_ (ulp_pos w).le
    obtain ⟨hle, hge⟩ := nearest_bounds hr (significand w)
    rw [abs_le]
    have hle' : (nearest r (significand w) : ℚ) ≤ significand w + 2 ^ (r - 1) := by exact_mod_cast hle
    have hge' : (significand w : ℚ) ≤ nearest r (significand w) + 2 ^ (r - 1) := by exact_mod_cast hge
    constructor <;> linarith
  · refine iff_of_false ?_ hcarry
    rintro ⟨-, hbound⟩
    -- the carry is lost, and the mantissa becomes zero
    have hzero : mantissa w' = 0 := by
      have hsplit : 2 ^ 23 = 2 ^ r * 2 ^ (23 - r) := by rw [← pow_add, Nat.add_sub_cancel' (by omega)]
      have hdouble := two_pow_pred hr
      have hquot : (w % 2 ^ 23 + 2 ^ (r - 1)) / 2 ^ r = 2 ^ (23 - r) := by
        refine Nat.div_eq_of_lt_le ?_ ?_
        · rw [Nat.mul_comm, ← hsplit]
          unfold mantissa at hcarry
          omega
        · rw [Nat.succ_mul, Nat.mul_comm, ← hsplit]
          omega
      rw [hmant, nearest, hquot, Nat.mul_comm, ← hsplit, Nat.mod_self]
    have hsig : (significand w' : ℚ) = significand w - mantissa w := by
      unfold significand
      rw [hexp, hzero]
      split <;> push_cast <;> ring
    rw [value, value, hsign, hulp, abs_value_sub, hsig, sub_sub_cancel_left, abs_neg, Nat.abs_cast] at hbound
    have hle := le_of_mul_le_mul_right hbound (ulp_pos w)
    have hle' : mantissa w ≤ 2 ^ (r - 1) := by exact_mod_cast hle
    omega

/-! ## The branches -/

/-- The number that three bytes stand for, without the top bit of the last one. -/
def mantissaOf (b0 b1 b2 : UInt8) : ℕ := b0.toNat + 2 ^ 8 * b1.toNat + 2 ^ 16 * (b2.toNat % 2 ^ 7)

theorem and_clear (b : UInt8) : (b &&& 0xff).toNat = b.toNat ∧ (b &&& 0xfc).toNat = b.toNat / 4 * 4 ∧
    (b &&& 0xf0).toNat = b.toNat / 16 * 16 ∧ (b &&& 0xc0).toNat = b.toNat / 64 * 64 ∧ (b &&& 0x00).toNat = 0 := by
  have hclear : ∀ x < 256, x &&& 0xff = x ∧ x &&& 0xfc = x / 4 * 4 ∧ x &&& 0xf0 = x / 16 * 16 ∧
      x &&& 0xc0 = x / 64 * 64 ∧ x &&& 0x00 = 0 := by decide +kernel
  exact hclear b.toNat b.toNat_lt

theorem and_digit (b : UInt8) : ((b &&& 0x03) >>> 0).toNat = b.toNat % 4 ∧
    ((b &&& 0x0f) >>> 0).toNat = b.toNat % 16 ∧ ((b &&& 0x30) >>> 4).toNat = b.toNat / 16 % 4 ∧
    ((b &&& 0xf0) >>> 4).toNat = b.toNat / 16 := by
  have hdigit : ∀ x < 256, (x &&& 0x03) >>> 0 = x % 4 ∧ (x &&& 0x0f) >>> 0 = x % 16 ∧
      (x &&& 0x30) >>> 4 = x / 16 % 4 ∧ (x &&& 0xf0) >>> 4 = x / 16 := by decide +kernel
  exact hdigit b.toNat b.toNat_lt

/-- The masks of a branch clear the last `r` bits of the mantissa. -/
theorem branch_clear (hbr : branch range = some br) (b0 b1 b2 : UInt8) :
    mantissaOf (b0 &&& br.clear0) (b1 &&& br.clear1) (b2 &&& br.clear2) =
      mantissaOf b0 b1 b2 / 2 ^ range.toNat * 2 ^ range.toNat := by
  have h0 := b0.toNat_lt
  have h1 := b1.toNat_lt
  unfold branch at hbr
  split at hbr
  case h_11 => exact absurd hbr nofun
  all_goals
    rename_i hrange
    obtain rfl := Option.some.inj hbr
    simp only [hrange, mantissaOf, and_clear]
    clear hbr
    omega

theorem branch_top (hbr : branch range = some br) (b2 : UInt8) :
    (b2 &&& br.clear2).toNat / 2 ^ 7 = b2.toNat / 2 ^ 7 := by
  unfold branch at hbr
  split at hbr
  case h_11 => exact absurd hbr nofun
  all_goals
    obtain rfl := Option.some.inj hbr
    simp only [and_clear]
  all_goals omega

/-- The digit of a branch is the bit `r - 1` of the mantissa. -/
theorem branch_digit (hbr : branch range = some br) (b0 b1 b2 : UInt8) :
    br.threshold ≤ ((if br.digitByte = 0 then b0 else if br.digitByte = 1 then b1 else b2) &&&
        br.digitMask) >>> br.digitShift ↔ 2 ^ (range.toNat - 1) ≤ mantissaOf b0 b1 b2 % 2 ^ range.toNat := by
  have h0 := b0.toNat_lt
  have h1 := b1.toNat_lt
  have htwo : (0x02 : UInt8).toNat = 2 := rfl
  have height : (0x08 : UInt8).toNat = 8 := rfl
  unfold branch at hbr
  split at hbr
  case h_11 => exact absurd hbr nofun
  all_goals
    rename_i hrange
    obtain rfl := Option.some.inj hbr
    simp only [hrange, mantissaOf, UInt8.le_iff_toNat_le, and_digit, htwo, height, if_true, one_ne_zero,
      OfNat.ofNat_ne_zero, OfNat.ofNat_ne_one, if_false]
    clear hbr htwo height
    omega

theorem branch_extra (hbr : branch range = some br) :
    br.extra.toNat = 2 ^ range.toNat ∧ 0 < range.toNat ∧ range.toNat ≤ 20 := by
  unfold branch at hbr
  split at hbr
  case h_11 => exact absurd hbr nofun
  all_goals
    rename_i hrange
    obtain rfl := Option.some.inj hbr
    rw [hrange]
    exact ⟨rfl, by decide, by decide⟩

theorem mantissaOf_lt (b0 b1 b2 : UInt8) : mantissaOf b0 b1 b2 < 2 ^ 23 := by
  have h0 := b0.toNat_lt
  have h1 := b1.toNat_lt
  unfold mantissaOf
  omega

/-- Rounding by a cleared mantissa and a digit. -/
theorem nearest_eq (hr : 0 < r) (x : ℕ) :
    nearest r x = x / 2 ^ r * 2 ^ r + if 2 ^ (r - 1) ≤ x % 2 ^ r then 2 ^ r else 0 := by
  have hdiv := Nat.div_add_mod x (2 ^ r)
  have hmod := Nat.mod_lt x (Nat.two_pow_pos r)
  have hdouble := two_pow_pred hr
  have hsplit : x + 2 ^ (r - 1) = 2 ^ r * (x / 2 ^ r) + (x % 2 ^ r + 2 ^ (r - 1)) := by omega
  rw [nearest, hsplit, Nat.mul_add_div (Nat.two_pow_pos r), Nat.add_mul]
  congr 1
  split
  case isTrue hup =>
    have hone : (x % 2 ^ r + 2 ^ (r - 1)) / 2 ^ r = 1 := Nat.div_eq_of_lt_le (by omega) (by omega)
    rw [hone, Nat.one_mul]
  case isFalse hdown => rw [Nat.div_eq_of_lt (by omega), Nat.zero_mul]

theorem mantissaBits_toNat (b0 b1 b2 : UInt8) : (mantissaBits b0 b1 b2).toNat = mantissaOf b0 b1 b2 := by
  have h0 := b0.toNat_lt
  have h1 := b1.toNat_lt
  have hlow : (b2 &&& (0x7f : UInt8)).toNat = b2.toNat % 2 ^ 7 := by
    rw [UInt8.toNat_and]
    exact Nat.and_two_pow_sub_one_eq_mod _ 7
  have hmid : (b1.toUInt32 <<< 8).toNat = b1.toNat <<< 8 := by
    rw [UInt32.toNat_shiftLeft, UInt8.toNat_toUInt32]
    refine Nat.mod_eq_of_lt ?_
    show b1.toNat <<< 8 < 2 ^ 32
    rw [Nat.shiftLeft_eq]
    omega
  have hhigh : ((b2 &&& (0x7f : UInt8)).toUInt32 <<< 16).toNat = (b2.toNat % 2 ^ 7) <<< 16 := by
    rw [UInt32.toNat_shiftLeft, UInt8.toNat_toUInt32, hlow]
    refine Nat.mod_eq_of_lt ?_
    show (b2.toNat % 2 ^ 7) <<< 16 < 2 ^ 32
    rw [Nat.shiftLeft_eq]
    omega
  rw [mantissaBits, UInt32.toNat_or, UInt32.toNat_or, UInt8.toNat_toUInt32, hmid, hhigh, Nat.or_comm b0.toNat,
    ← Nat.shiftLeft_add_eq_or_of_lt h0, Nat.or_comm, ← Nat.shiftLeft_add_eq_or_of_lt, Nat.shiftLeft_eq,
    Nat.shiftLeft_eq]
  · unfold mantissaOf
    omega
  · rw [Nat.shiftLeft_eq]
    omega

/-- The top bit of a byte, and seven others. -/
theorem or_topBit (b : UInt8) {t : UInt8} (ht : t.toNat < 2 ^ 7) :
    ((b &&& (0x80 : UInt8)) ||| t).toNat = b.toNat / 2 ^ 7 * 2 ^ 7 + t.toNat := by
  have htop : (b &&& (0x80 : UInt8)).toNat = (b.toNat / 2 ^ 7) <<< 7 := by
    have hbits : ∀ x < 256, x &&& 0x80 = (x / 2 ^ 7) <<< 7 := by decide +kernel
    exact hbits b.toNat b.toNat_lt
  rw [UInt8.toNat_or, htop, ← Nat.shiftLeft_add_eq_or_of_lt ht, Nat.shiftLeft_eq]

/-- **A branch rounds** the mantissa, without its carry. -/
theorem round_spec (hbr : branch range = some br) (b0 b1 b2 : UInt8) :
    (br.round b0 b1 b2).1.toNat + 2 ^ 8 * (br.round b0 b1 b2).2.1.toNat +
        2 ^ 16 * (br.round b0 b1 b2).2.2.toNat =
      b2.toNat / 2 ^ 7 * 2 ^ 23 + nearest range.toNat (mantissaOf b0 b1 b2) % 2 ^ 23 := by
  have hclear := branch_clear hbr b0 b1 b2
  have htop := branch_top hbr b2
  have hdigit := branch_digit hbr b0 b1 b2
  obtain ⟨hextra, hpos, hle⟩ := branch_extra hbr
  rw [nearest_eq hpos, ← hclear]
  unfold Branch.round
  dsimp only
  generalize b0 &&& br.clear0 = c0 at hclear ⊢
  generalize b1 &&& br.clear1 = c1 at hclear ⊢
  generalize b2 &&& br.clear2 = c2 at hclear htop ⊢
  generalize (if br.digitByte = 0 then b0 else if br.digitByte = 1 then b1 else b2) = digit at hdigit ⊢
  have hlt := mantissaOf_lt c0 c1 c2
  split
  case isTrue hup =>
    rw [if_pos (hdigit.1 hup)]
    have hpow : 2 ^ range.toNat ≤ 2 ^ 20 := Nat.pow_le_pow_right Nat.two_pos hle
    have htmp : (mantissaBits c0 c1 c2 + br.extra).toNat = mantissaOf c0 c1 c2 + 2 ^ range.toNat := by
      rw [UInt32.toNat_add, mantissaBits_toNat, hextra]
      exact Nat.mod_eq_of_lt (by omega)
    generalize mantissaBits c0 c1 c2 + br.extra = tmp at htmp ⊢
    generalize mantissaOf c0 c1 c2 + 2 ^ range.toNat = m at htmp ⊢
    have hlow : tmp.toUInt8.toNat = m % 2 ^ 8 := by rw [UInt32.toNat_toUInt8, htmp]
    have hmid : (tmp >>> 8).toUInt8.toNat = m / 2 ^ 8 % 2 ^ 8 := by
      rw [UInt32.toNat_toUInt8, UInt32.toNat_shiftRight, htmp, Nat.shiftRight_eq_div_pow]
      rfl
    have hhigh : (tmp >>> 16 &&& (0x7f : UInt32)).toUInt8.toNat = m / 2 ^ 16 % 2 ^ 7 := by
      rw [UInt32.toNat_toUInt8, UInt32.toNat_and, UInt32.toNat_shiftRight, htmp, Nat.shiftRight_eq_div_pow]
      have hseven : m / 2 ^ 16 &&& 0x7f = m / 2 ^ 16 % 2 ^ 7 := Nat.and_two_pow_sub_one_eq_mod _ 7
      show (m / 2 ^ 16 &&& 0x7f) % 2 ^ 8 = _
      rw [hseven]
      omega
    rw [or_topBit c2 (by rw [hhigh]; omega), hlow, hmid, hhigh, htop]
    omega
  case isFalse hdown =>
    rw [if_neg (fun hup => hdown (hdigit.2 hup)), Nat.add_zero, Nat.mod_eq_of_lt hlt]
    unfold mantissaOf
    dsimp only
    omega

/-! ## The words of a block -/

/-- A branch on a word, byte by byte. -/
def compensateByte (br : Branch) (w : ℕ → UInt8) (c : ℕ) : UInt8 :=
  if c = 0 then (br.round (w 0) (w 1) (w 2)).1
  else if c = 1 then (br.round (w 0) (w 1) (w 2)).2.1
  else if c = 2 then (br.round (w 0) (w 1) (w 2)).2.2
  else w c

theorem compensateWord_spec (hbr : branch range = some br) (hthree : 3 ≤ interval) :
    Rewrites interval size (compensateByte br) (compensateWord range) := by
  intro data hsize i hi
  have h0 : i < data.length := by omega
  have h1 : i + 1 < data.length := by omega
  have h2 : i + 2 < data.length := by omega
  obtain ⟨c0, hc0⟩ : ∃ c, c = (br.round (byteAt data i) (byteAt data (i + 1)) (byteAt data (i + 2))).1 := ⟨_, rfl⟩
  obtain ⟨c1, hc1⟩ : ∃ c, c = (br.round (byteAt data i) (byteAt data (i + 1)) (byteAt data (i + 2))).2.1 := ⟨_, rfl⟩
  obtain ⟨c2, hc2⟩ : ∃ c, c = (br.round (byteAt data i) (byteAt data (i + 1)) (byteAt data (i + 2))).2.2 := ⟨_, rfl⟩
  have h1' : i + 1 < (data.set i c0).length := by rwa [List.length_set]
  have h2' : i + 2 < ((data.set i c0).set (i + 1) c1).length := by rwa [List.length_set, List.length_set]
  refine ⟨((data.set i c0).set (i + 1) c1).set (i + 2) c2, ?_, by simp [hsize], fun k hk => ?_⟩
  · rw [compensateWord, hbr]
    dsimp only
    rw [getElem?_of_lt h0, Option.bind_some, getElem?_of_lt h1, Option.bind_some, getElem?_of_lt h2,
      Option.bind_some, ← hc0, ← hc1, ← hc2, setByte_of_lt h0, Option.bind_some, setByte_of_lt h1',
      Option.bind_some, setByte_of_lt h2']
  · rw [byteAt_set h2', byteAt_set h1', byteAt_set h0]
    unfold compensateByte wordAt
    simp only [Nat.add_zero, ← hc0, ← hc1, ← hc2]
    by_cases hword : i ≤ k ∧ k < i + interval
    · rw [if_pos hword, Nat.add_sub_cancel' hword.1]
      split_ifs
      all_goals first | rfl | omega
    · rw [if_neg hword, if_neg (by omega), if_neg (by omega), if_neg (by omega)]

/-- The words of the block after the loop. -/
theorem wordOf_compensated (hbr : branch range = some br) (hdvd : 4 ∣ data.length) :
    ∃ data', forWords 4 (compensateWord range) data = some data' ∧ data'.length = data.length ∧
      ∀ n < data.length / 4, wordOf data' n = wordOf data n / 2 ^ 23 * 2 ^ 23 +
        nearest range.toNat (wordOf data n % 2 ^ 23) % 2 ^ 23 := by
  obtain ⟨data', hdata', hlen, hbyte⟩ := pass_spec (by decide) hdvd (compensateWord_spec hbr (by decide))
  refine ⟨data', hdata', hlen, fun n hn => ?_⟩
  have hplace : ∀ c < 4, byteAt data' (4 * n + c) = compensateByte br (wordAt data (4 * n)) c := by
    intro c hc
    rw [hbyte _ (by omega), show (4 * n + c) % 4 = c by omega, show (4 * n + c) / 4 * 4 = 4 * n by omega]
  have hround := round_spec hbr (byteAt data (4 * n)) (byteAt data (4 * n + 1)) (byteAt data (4 * n + 2))
  have hlt := mantissaOf_lt (byteAt data (4 * n)) (byteAt data (4 * n + 1)) (byteAt data (4 * n + 2))
  have hmant : wordOf data n % 2 ^ 23 =
      mantissaOf (byteAt data (4 * n)) (byteAt data (4 * n + 1)) (byteAt data (4 * n + 2)) := by
    unfold wordOf mantissaOf at *
    omega
  have hnew : wordOf data' n = (br.round (byteAt data (4 * n)) (byteAt data (4 * n + 1)) (byteAt data (4 * n + 2))).1.toNat +
      2 ^ 8 * (br.round (byteAt data (4 * n)) (byteAt data (4 * n + 1)) (byteAt data (4 * n + 2))).2.1.toNat +
      2 ^ 16 * (br.round (byteAt data (4 * n)) (byteAt data (4 * n + 1)) (byteAt data (4 * n + 2))).2.2.toNat +
      2 ^ 24 * (byteAt data (4 * n + 3)).toNat := by
    have hfirst := hplace 0 (by decide)
    rw [Nat.add_zero] at hfirst
    rw [wordOf, hfirst, hplace 1 (by decide), hplace 2 (by decide), hplace 3 (by decide)]
    rfl
  rw [hnew, hround, hmant]
  unfold wordOf mantissaOf at *
  omega

theorem exists_branch (heven : range.toNat % 2 = 0) (htwo : 2 ≤ range.toNat) (htwenty : range.toNat ≤ 20) :
    ∃ br, branch range = some br := by
  have hcases : range.toNat = 2 ∨ range.toNat = 4 ∨ range.toNat = 6 ∨ range.toNat = 8 ∨ range.toNat = 10 ∨
      range.toNat = 12 ∨ range.toNat = 14 ∨ range.toNat = 16 ∨ range.toNat = 18 ∨ range.toNat = 20 := by omega
  unfold branch
  rcases hcases with h | h | h | h | h | h | h | h | h | h
  all_goals
    rw [h]
    exact ⟨_, rfl⟩

/-- The words of an approximated block are rounded. -/
def Compensated (config : ApproxConfig) (data : List UInt8) : Prop :=
  ∃ data', approximateData config data .remappedData2 = some data' ∧ data'.length = data.length ∧
    ∀ n < data.length / 4, RoundedTo config.floatApproxRange.toNat (wordOf data n) (wordOf data' n)

/-- **The error is bounded** just when no mantissa is rounded up to `2 ^ 23`. -/
theorem compensated_iff {config : ApproxConfig} (htype : config.approxType = .setZero)
    (hcompen : config.errCompenEn = true) (hdvd : 4 ∣ data.length)
    (heven : config.floatApproxRange.toNat % 2 = 0) (htwo : 2 ≤ config.floatApproxRange.toNat)
    (htwenty : config.floatApproxRange.toNat ≤ 20) :
    Compensated config data ↔ ∀ n < data.length / 4,
      mantissa (wordOf data n) < 2 ^ 23 - 2 ^ (config.floatApproxRange.toNat - 1) := by
  obtain ⟨approxType, range, errCompenEn⟩ := config
  dsimp only at *
  subst htype hcompen
  obtain ⟨br, hbr⟩ := exists_branch heven htwo htwenty
  obtain ⟨data', hdata', hlen, hword⟩ := wordOf_compensated hbr hdvd
  have hrounded : ∀ n < data.length / 4, RoundedTo range.toNat (wordOf data n) (wordOf data' n) ↔
      mantissa (wordOf data n) < 2 ^ 23 - 2 ^ (range.toNat - 1) := fun n hn =>
    roundedTo_iff (by omega) htwenty (hword n hn)
  constructor
  · rintro ⟨result, hresult, -, hall⟩ n hn
    obtain rfl : data' = result := Option.some.inj (hdata'.symm.trans hresult)
    exact (hrounded n hn).1 (hall n hn)
  · exact fun hall => ⟨data', hdata', hlen, fun n hn => (hrounded n hn).2 (hall n hn)⟩

/-- A word that is rounded up, and one that is rounded down. -/
theorem compensated_iff_eight : Compensated ⟨.setZero, 8, true⟩ [0x80, 0x12, 0x34, 0x40, 0x7f, 0xff, 0x10, 0xc0] := by
  have hiff : Compensated ⟨.setZero, 8, true⟩ [0x80, 0x12, 0x34, 0x40, 0x7f, 0xff, 0x10, 0xc0] ↔ _ :=
    compensated_iff rfl rfl (by decide) (by decide) (by decide) (by decide)
  exact hiff.2 (by decide)

/-- The largest float below 2, with a range of two bits: it becomes 1. -/
theorem not_compensated : ¬ Compensated ⟨.setZero, 2, true⟩ [0xff, 0xff, 0xff, 0x3f] := by
  rintro ⟨data', hdata', -, hrounded⟩
  have hone : approximateData ⟨.setZero, 2, true⟩ [0xff, 0xff, 0xff, 0x3f] .remappedData2 =
      some [0, 0, 0x80, 0x3f] := by decide
  obtain rfl := Option.some.inj (hone.symm.trans hdata')
  have hbound : |value (wordOf [0, 0, 0x80, 0x3f] 0) - value (wordOf [0xff, 0xff, 0xff, 0x3f] 0)| ≤
      2 ^ 1 * ulp (wordOf [0xff, 0xff, 0xff, 0x3f] 0) := (hrounded 0 (by decide)).2
  have hold : wordOf [0xff, 0xff, 0xff, 0x3f] 0 = 0x3fffffff := by decide
  have hnew : wordOf [0, 0, 0x80, 0x3f] 0 = 0x3f800000 := by decide
  rw [hold, hnew] at hbound
  norm_num [value, ulp, sign, significand, exponent, mantissa] at hbound

end CompressionWork.Approx
