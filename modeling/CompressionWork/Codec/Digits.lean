import Mathlib.Algebra.Order.Ring.Nat
import Mathlib.Data.List.Induction
import Mathlib.Data.Nat.ModEq
import Mathlib.Tactic.Ring

/-!
# Fixed-width numerals

The `k` lowest digits of a number in base `b`, written with the most significant
digit first, and the number such a list stands for.

* `value_digits` — reading `k` digits back gives the number modulo `b ^ k`.
* `digits_value` — writing a value again gives the digits it came from.
* `digits_inj` — numbers below `b ^ k` are told apart by their `k` digits.
* `bits`, `ofBits` — the same for two digits, as Booleans.
-/

namespace Codec

variable {b : ℕ}

/-- The `k` lowest digits of `n` in base `b`, most significant first. -/
def digits (b : ℕ) : ℕ → ℕ → List ℕ
  | 0, _ => []
  | k + 1, n => digits b k (n / b) ++ [n % b]

/-- The number a list of digits stands for, most significant digit first. -/
def value (b : ℕ) (ds : List ℕ) : ℕ := ds.foldl (fun v d => v * b + d) 0

@[simp] theorem length_digits (b k n : ℕ) : (digits b k n).length = k := by
  induction k generalizing n with
  | zero => rfl
  | succ k ih => simp [digits, ih]

theorem digits_lt (hb : 0 < b) {k n d : ℕ} (h : d ∈ digits b k n) : d < b := by
  induction k generalizing n with
  | zero => simp [digits] at h
  | succ k ih =>
      rcases List.mem_append.1 h with h | h
      · exact ih h
      · rw [List.mem_singleton.1 h]
        exact Nat.mod_lt _ hb

@[simp] theorem value_nil (b : ℕ) : value b [] = 0 := rfl

theorem value_concat (b : ℕ) (ds : List ℕ) (d : ℕ) : value b (ds ++ [d]) = value b ds * b + d := by
  simp [value, List.foldl_append]

theorem value_append (b : ℕ) (ds es : List ℕ) :
    value b (ds ++ es) = value b ds * b ^ es.length + value b es := by
  induction es using List.reverseRecOn with
  | nil => simp
  | append_singleton es e ih =>
      rw [← List.append_assoc, value_concat, ih, value_concat, List.length_append,
        List.length_singleton, pow_succ]
      ring

theorem value_lt {ds : List ℕ} (h : ∀ d ∈ ds, d < b) : value b ds < b ^ ds.length := by
  induction ds using List.reverseRecOn with
  | nil => simp
  | append_singleton ds d ih =>
      have hd : d < b := h d (by simp)
      have hds := ih fun e he => h e (by simp [he])
      rw [value_concat, List.length_append, List.length_singleton, pow_succ]
      calc value b ds * b + d < value b ds * b + b := by omega
        _ = (value b ds + 1) * b := by ring
        _ ≤ b ^ ds.length * b := Nat.mul_le_mul_right b hds

/-- Reading the `k` lowest digits back gives the number modulo `b ^ k`. -/
theorem value_digits (b k n : ℕ) : value b (digits b k n) = n % b ^ k := by
  induction k generalizing n with
  | zero => simp [digits, Nat.mod_one]
  | succ k ih =>
      rw [digits, value_concat, ih, pow_succ, mul_comm (b ^ k) b, Nat.mod_mul]
      ring

/-- Writing the value of a list of digits gives the list back. -/
theorem digits_value {ds : List ℕ} (h : ∀ d ∈ ds, d < b) :
    digits b ds.length (value b ds) = ds := by
  induction ds using List.reverseRecOn with
  | nil => rfl
  | append_singleton ds d ih =>
      have hd : d < b := h d (by simp)
      have hdiv : (value b ds * b + d) / b = value b ds := by
        rw [mul_comm, Nat.mul_add_div (by omega), Nat.div_eq_of_lt hd, add_zero]
      have hmod : (value b ds * b + d) % b = d := by
        rw [mul_comm, Nat.mul_add_mod, Nat.mod_eq_of_lt hd]
      rw [List.length_append, List.length_singleton, value_concat, digits, hdiv, hmod,
        ih fun e he => h e (by simp [he])]

/-- The digits above position `k` come first. -/
theorem digits_append (b j k n : ℕ) :
    digits b (j + k) n = digits b j (n / b ^ k) ++ digits b k n := by
  induction k generalizing n with
  | zero => simp [digits]
  | succ k ih =>
      rw [← Nat.add_assoc, digits, ih, Nat.div_div_eq_div_mul, ← pow_succ', digits,
        List.append_assoc]

theorem digits_mod (b k n : ℕ) : digits b k (n % b ^ k) = digits b k n := by
  induction k generalizing n with
  | zero => rfl
  | succ k ih =>
      have hmod : n % b ^ (k + 1) % b = n % b :=
        Nat.mod_mod_of_dvd n (dvd_pow_self b (Nat.succ_ne_zero k))
      have hdiv : n % b ^ (k + 1) / b = n / b % b ^ k := by
        rw [pow_succ', Nat.mod_mul_right_div_self]
      rw [digits, hmod, hdiv, ih, digits]

theorem drop_digits (b j k n : ℕ) : (digits b (j + k) n).drop j = digits b k n := by
  rw [digits_append, List.drop_left' (length_digits b j _)]

/-- Each digit in base `b ^ j` is `j` digits in base `b`. -/
theorem digits_flatMap (b j k n : ℕ) :
    (digits (b ^ j) k n).flatMap (digits b j) = digits b (k * j) n := by
  induction k generalizing n with
  | zero => simp [digits]
  | succ k ih =>
      rw [digits, List.flatMap_append, ih, Nat.succ_mul, digits_append, List.flatMap_singleton,
        digits_mod]

/-- The digit with weight `b ^ i`. -/
theorem getElem?_digits {b k i : ℕ} (h : i < k) (n : ℕ) :
    (digits b k n)[k - 1 - i]? = some (n / b ^ i % b) := by
  obtain ⟨j, rfl⟩ : ∃ j, k = j + (i + 1) := ⟨k - (i + 1), by omega⟩
  rw [digits_append, List.getElem?_append_right (by rw [length_digits]; omega), length_digits,
    show j + (i + 1) - 1 - i - j = 0 by omega, Nat.add_comm i 1, digits_append,
    List.getElem?_append_left (by rw [length_digits]; omega)]
  rfl

/-- Numbers below `b ^ k` are told apart by their `k` lowest digits. -/
theorem digits_inj {k m n : ℕ} (hm : m < b ^ k) (hn : n < b ^ k)
    (h : digits b k m = digits b k n) : m = n := by
  have hv := congrArg (value b) h
  rwa [value_digits, value_digits, Nat.mod_eq_of_lt hm, Nat.mod_eq_of_lt hn] at hv

/-- Lists of digits of one length are told apart by their values. -/
theorem value_inj {ds es : List ℕ} (hds : ∀ d ∈ ds, d < b) (hes : ∀ d ∈ es, d < b)
    (hlen : ds.length = es.length) (h : value b ds = value b es) : ds = es := by
  rw [← digits_value hds, ← digits_value hes, hlen, h]

/-! ## Bits -/

/-- `w` bits, the most significant one first. -/
def bits (w n : ℕ) : List Bool := (digits 2 w n).map (· == 1)

/-- The number that bits stand for. -/
def ofBits (bs : List Bool) : ℕ := value 2 (bs.map Bool.toNat)

@[simp] theorem length_bits (w n : ℕ) : (bits w n).length = w := by simp [bits]

theorem ofBits_bits {w n : ℕ} (h : n < 2 ^ w) : ofBits (bits w n) = n := by
  have hid : ∀ d ∈ digits 2 w n, (Bool.toNat ∘ fun d => d == 1) d = id d := by
    intro d hd
    have hlt := digits_lt (by decide) hd
    rcases (by omega : d = 0 ∨ d = 1) with rfl | rfl <;> rfl
  have hdigit : ((digits 2 w n).map (· == 1)).map Bool.toNat = digits 2 w n := by
    rw [List.map_map, List.map_congr_left hid, List.map_id]
  rw [ofBits, bits, hdigit, value_digits, Nat.mod_eq_of_lt h]

theorem bits_inj {w m n : ℕ} (hm : m < 2 ^ w) (hn : n < 2 ^ w) (h : bits w m = bits w n) :
    m = n := by
  rw [← ofBits_bits hm, ← ofBits_bits hn, h]

end Codec
