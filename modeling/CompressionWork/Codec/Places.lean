import Mathlib

/-!
# The digits of a number

* `digit` — the digit of a number in a place.
* `digit_add`, `digit_sub` — one digit goes up or down where there is no carry; the others stay.
* `eq_of_digits` — a number is known by its digits.
* `split_digit`, `eq_of_mul_add` — a number by what is above a digit, the digit and what is below it.
-/

namespace Codec

variable {k d e n t x y : ℕ}

/-- The digit of `x` in place `d`, to base `k`. -/
def digit (k d x : ℕ) : ℕ := x / k ^ d % k

theorem digit_lt (hk : 0 < k) : digit k d x < k := Nat.mod_lt _ hk

/-- What is above place `d` does not change. -/
theorem div_digit_add (hk : 0 < k) (h : digit k d x + t < k) (hde : d < e) : (x + t * k ^ d) / k ^ e = x / k ^ e := by
  have hpow : k ^ e = k ^ d * (k * k ^ (e - d - 1)) := by
    rw [← pow_succ', ← pow_add]
    congr 1
    omega
  have hstep : (x + t * k ^ d) / k ^ d / k = x / k ^ d / k := by
    rw [Nat.add_mul_div_right _ _ (Nat.pow_pos hk)]
    have hsplit := Nat.div_add_mod (x / k ^ d) k
    have hsmall : x / k ^ d % k + t < k := h
    calc (x / k ^ d + t) / k = (x / k ^ d % k + t + k * (x / k ^ d / k)) / k := by congr 1; omega
      _ = x / k ^ d / k := by rw [Nat.add_mul_div_left _ _ hk, Nat.div_eq_of_lt hsmall, Nat.zero_add]
  rw [hpow, ← Nat.div_div_eq_div_mul, ← Nat.div_div_eq_div_mul, hstep, Nat.div_div_eq_div_mul,
    Nat.div_div_eq_div_mul]

theorem digit_add (hk : 0 < k) (h : digit k d x + t < k) (e : ℕ) :
    digit k e (x + t * k ^ d) = if e = d then digit k d x + t else digit k e x := by
  split_ifs with heq
  · subst heq
    have hsmall : x / k ^ e % k + t < k := h
    rw [digit, Nat.add_mul_div_right _ _ (Nat.pow_pos hk), digit, Nat.add_mod, Nat.mod_eq_of_lt (a := t) (by omega),
      Nat.mod_eq_of_lt hsmall]
  · rcases lt_or_gt_of_ne heq with hlt | hgt
    · have hpow : t * k ^ d = k ^ e * (k * (t * k ^ (d - e - 1))) := by
        rw [show k ^ d = k ^ e * (k * k ^ (d - e - 1)) by
          rw [← pow_succ', ← pow_add]
          congr 1
          omega]
        ring
      rw [digit, hpow, Nat.add_mul_div_left _ _ (Nat.pow_pos hk), Nat.add_mul_mod_self_left, digit]
    · rw [digit, div_digit_add hk h hgt, digit]

/-- The digit that is taken away is there to be taken. -/
theorem mul_pow_le (h : t ≤ digit k d x) : t * k ^ d ≤ x :=
  calc t * k ^ d ≤ x / k ^ d * k ^ d := Nat.mul_le_mul_right _ (h.trans (Nat.mod_le _ _))
    _ ≤ x := Nat.div_mul_le_self _ _

theorem digit_sub_self (hk : 0 < k) (h : t ≤ digit k d x) : digit k d (x - t * k ^ d) = digit k d x - t := by
  have hle := mul_pow_le h
  have hlt : digit k d x < k := digit_lt hk
  have hdiv : (x - t * k ^ d) / k ^ d + t = x / k ^ d := by
    rw [← Nat.add_mul_div_right _ _ (Nat.pow_pos hk), Nat.sub_add_cancel hle]
  have hsplit := Nat.div_add_mod (x / k ^ d) k
  have hsmall : x / k ^ d % k - t < k := lt_of_le_of_lt (Nat.sub_le _ _) hlt
  have htd : t ≤ x / k ^ d % k := h
  calc (x - t * k ^ d) / k ^ d % k = (x / k ^ d % k - t + k * (x / k ^ d / k)) % k := by congr 1; omega
    _ = digit k d x - t := by rw [Nat.add_mul_mod_self_left, Nat.mod_eq_of_lt hsmall, digit]

theorem digit_sub (hk : 0 < k) (h : t ≤ digit k d x) (e : ℕ) :
    digit k e (x - t * k ^ d) = if e = d then digit k d x - t else digit k e x := by
  have hself := digit_sub_self hk h
  split_ifs with heq
  · rw [heq, hself]
  · have hlt : digit k d x < k := digit_lt hk
    have hback := digit_add (x := x - t * k ^ d) (t := t) hk (by rw [hself]; omega) e
    rw [if_neg heq, Nat.sub_add_cancel (mul_pow_le h)] at hback
    exact hback.symm

theorem digit_add_lt (hk : 0 < k) (h : digit k d x + t < k) (hd : d < n) (hx : x < k ^ n) : x + t * k ^ d < k ^ n := by
  have hzero := div_digit_add hk h hd
  rw [Nat.div_eq_of_lt hx] at hzero
  exact (Nat.div_eq_zero_iff_lt (Nat.pow_pos hk)).1 hzero

/-- By induction on the places: the last digit, and the number without it. -/
theorem eq_of_digits (hx : x < k ^ n) (hy : y < k ^ n) (h : ∀ d < n, digit k d x = digit k d y) : x = y := by
  induction n generalizing x y with
  | zero =>
    rw [pow_zero] at hx hy
    omega
  | succ n ih =>
    have hlast : x % k = y % k := by simpa [digit] using h 0 n.succ_pos
    have hrest : x / k = y / k := ih (Nat.div_lt_of_lt_mul (by rwa [← pow_succ'])) (Nat.div_lt_of_lt_mul (by
      rwa [← pow_succ'])) fun d hd => by
        have hnext := h (d + 1) (by omega)
        rwa [digit, digit, pow_succ', ← Nat.div_div_eq_div_mul, ← Nat.div_div_eq_div_mul] at hnext
    rw [← Nat.div_add_mod x k, ← Nat.div_add_mod y k, hlast, hrest]

/-! ## Digit by digit -/

variable {K A a b a' b' : ℕ}

theorem mul_add_div_of_lt (hb : b < K) : (a * K + b) / K = a := by
  rw [Nat.add_comm, Nat.add_mul_div_right _ _ (Nat.zero_lt_of_lt hb), Nat.div_eq_of_lt hb, Nat.zero_add]

theorem mul_add_lt_mul (ha : a < A) (hb : b < K) : a * K + b < A * K :=
  calc a * K + b < (a + 1) * K := by
        rw [Nat.succ_mul]
        omega
    _ ≤ A * K := Nat.mul_le_mul_right _ ha

theorem eq_of_mul_add (hb : b < K) (hb' : b' < K) (h : a * K + b = a' * K + b') : a = a' ∧ b = b' := by
  have hhigh : a = a' := by
    rw [← mul_add_div_of_lt (a := a) hb, h, mul_add_div_of_lt hb']
  subst hhigh
  exact ⟨rfl, Nat.add_left_cancel h⟩

theorem div_mul_add_digit (k d x : ℕ) : x / k ^ (d + 1) * k + digit k d x = x / k ^ d := by
  rw [digit, pow_succ, ← Nat.div_div_eq_div_mul, Nat.div_add_mod']

/-- A number by the digit in one place, what is above and what is below. -/
theorem split_digit (k d x : ℕ) : (x / k ^ (d + 1) * k + digit k d x) * k ^ d + x % k ^ d = x := by
  rw [div_mul_add_digit, Nat.div_add_mod']

end Codec
