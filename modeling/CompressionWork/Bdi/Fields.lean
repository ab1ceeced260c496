import CompressionWork.Bdi.Size
import Mathlib.Tactic.Linarith
import Mathlib.Tactic.NormNum
import Mathlib.Tactic.Positivity
import Mathlib.Tactic.Zify

/-!
# Base-delta-immediate compression: the bits of a delta

Numbers of up to 32 bits survive the detour through `double`, so a delta is the difference
modulo its width, and the first byte of the low digits of a chunk only moves the first byte
of the delta.

* `getSigned_emod` — `get_int` reads a short bit string as two's complement.
* `hexToBin_convertHexa` — `convert_hexa` writes the lowest digits in two's complement.
* `exists_partBits` — the bits of a part, as a function of that byte.
* `packBits_skip` — the payload does not look at the bits between every eighth one.
-/

namespace CompressionWork.Bdi

open Codec

/-! ## Numbers below 53 bits -/

theorem roundDouble_of_lt {z : ℤ} (h : z.natAbs < 2 ^ 53) : roundDouble z = z := by
  have he : Nat.log2 z.natAbs - 52 = 0 := by
    rcases Nat.eq_zero_or_pos z.natAbs with h0 | h0
    · rw [h0]
      rfl
    · have hlog := (Nat.log2_lt (Nat.pos_iff_ne_zero.1 h0)).2 h
      omega
  rw [roundDouble]
  simp only [he, pow_zero, Nat.div_one, Nat.mod_one, Nat.mul_one]
  rw [if_neg (by omega)]
  exact Int.sign_mul_natAbs z

theorem toLongLong_of_lt {z : ℤ} (h : z.natAbs < 2 ^ 53) : toLongLong z = z := by
  rw [toLongLong, if_pos]
  constructor <;> omega

/-- The loop of `get_int` adds up the bits exactly as long as the sums are small. -/
theorem getIntLoop_eq (s : Str) : ∀ val : ℤ, val.natAbs + 2 ^ s.length < 2 ^ 53 →
    getIntLoop s val = val + binaryValue s := by
  induction s with
  | nil => intro val _; simp [getIntLoop, binaryValue]
  | cons c s ih =>
      intro val hval
      rw [List.length_cons, pow_succ] at hval
      have hbit := bitVal_lt c
      have hle : bitVal c * 2 ^ s.length ≤ 2 ^ s.length := by
        calc bitVal c * 2 ^ s.length ≤ 1 * 2 ^ s.length := Nat.mul_le_mul_right _ (by omega)
          _ = 2 ^ s.length := Nat.one_mul _
      have hcast : ((bitVal c : ℤ) * 2 ^ s.length) = ((bitVal c * 2 ^ s.length : ℕ) : ℤ) := by
        push_cast
        rfl
      have hpos : 0 < 2 ^ s.length := Nat.two_pow_pos _
      rw [getIntLoop, roundDouble_of_lt (z := val) (by omega), hcast,
        roundDouble_of_lt (by omega), toLongLong_of_lt (by omega), ih _ (by omega),
        binaryValue_cons]
      push_cast
      ring

/-- `get_int` with the sign test reads two's complement, up to 32 bits. -/
theorem getSigned_emod {s : Str} {n : ℕ} (hs : IsBin s) (hlen : s.length = n) (h1 : 1 ≤ n)
    (h32 : n ≤ 32) : getSigned s % 2 ^ n = (binaryValue s : ℤ) % 2 ^ n := by
  obtain ⟨c, s, rfl⟩ := List.exists_cons_of_length_pos (l := s) (by omega)
  have hn : s.length + 1 = n := by simpa using hlen
  have hpow : 2 ^ s.length ≤ 2 ^ 31 := Nat.pow_le_pow_right (by decide) (by omega)
  have hsum : (2 : ℤ) ^ n = 2 ^ s.length + 2 ^ s.length := by
    rw [← hn, pow_succ]
    ring
  rcases hs c (by simp) with rfl | rfl
  · have hval : getSigned ('0' :: s) = binaryValue ('0' :: s) := by
      have h0 : bitVal '0' = 0 := rfl
      rw [getSigned, getInt, List.headD_cons, if_neg (by simp), h0, Nat.cast_zero, zero_mul,
        toLongLong_of_lt (by decide), getIntLoop_eq s 0 (by simp; omega), binaryValue_cons, h0]
      simp
    rw [hval]
  · have hval : getSigned ('1' :: s) = (binaryValue ('1' :: s) : ℤ) - 2 ^ n := by
      have h1 : bitVal '1' = 1 := rfl
      have habs : ((-2 ^ s.length : ℤ)).natAbs = 2 ^ s.length := by
        rw [Int.natAbs_neg, Int.natAbs_pow]
        rfl
      rw [getSigned, getInt, List.headD_cons, if_pos (by simp),
        getIntLoop_eq s _ (by rw [habs]; omega), binaryValue_cons, h1, hsum]
      push_cast
      ring
    rw [hval, Int.sub_emod_right]

/-! ## Hexadecimal and binary digits -/

/-- The number a string of hexadecimal digits stands for. -/
def hexValue (s : Str) : ℕ := value 16 (s.map hexVal)

theorem hexToBin_eq_getBinary {s : Str} (hs : IsHex s) :
    hexToBin s = getBinary (hexValue s) (4 * s.length) := by
  have hdig : ∀ d ∈ s.map hexVal, d < 16 := by
    intro d hd
    obtain ⟨c, hc, rfl⟩ := List.mem_map.1 hd
    exact hexVal_lt (hs c hc)
  have hback : (s.map hexVal).map hexDigit = s := by
    rw [List.map_map]
    refine (List.map_congr_left fun c hc => ?_).trans (List.map_id _)
    exact hexDigit_hexVal (hs c hc)
  have hbits := digits_flatMap 2 4 (s.map hexVal).length (hexValue s)
  rw [show (2 : ℕ) ^ 4 = 16 from rfl, hexValue, digits_value hdig, List.length_map] at hbits
  calc hexToBin s = hexToBin ((s.map hexVal).map hexDigit) := by rw [hback]
    _ = ((s.map hexVal).flatMap (digits 2 4)).map bitChar := hexToBin_map_hexDigit hdig
    _ = getBinary (hexValue s) (4 * s.length) := by
        rw [hbits, getBinary, Nat.mul_comm, hexValue]

theorem getBinary_append (n j k : ℕ) :
    getBinary n (j + k) = getBinary (n / 2 ^ k) j ++ getBinary n k := by
  rw [getBinary, digits_append, List.map_append]
  rfl

theorem getBinary_mod (n k : ℕ) : getBinary (n % 2 ^ k) k = getBinary n k := by
  rw [getBinary, digits_mod, getBinary]

/-- A binary string is written back from its value. -/
theorem getBinary_binaryValue {s : Str} (hs : IsBin s) : getBinary (binaryValue s) s.length = s := by
  refine binaryValue_inj (isBin_getBinary _ _) hs (length_getBinary _ _) ?_
  rw [binaryValue_getBinary, Nat.mod_eq_of_lt (binaryValue_lt s)]

/-- The digits of the complement. -/
theorem isBin_getBinaryC (b : Str) : IsBin (getBinaryC b).2 := by
  have hbit : ∀ v, bitChar v = '0' ∨ bitChar v = '1' := by
    intro v
    unfold bitChar
    split <;> simp
  induction b with
  | nil => intro c hc; simp [getBinaryC] at hc
  | cons c b ih =>
      rw [getBinaryC] at ih
      intro x hx
      rw [getBinaryC, List.foldr_cons] at hx
      split at hx
      · rcases List.mem_cons.1 hx with rfl | hx
        · exact hbit _
        · exact ih x hx
      · rcases List.mem_cons.1 hx with rfl | hx
        · exact hbit _
        · exact ih x hx

/-- **`get_binary_c` subtracts from a power of two**; the carry is its highest bit. -/
theorem getBinaryC_value (b : Str) :
    (getBinaryC b).1 < 2 ∧ binaryValue (getBinaryC b).2 + (getBinaryC b).1 * 2 ^ b.length +
      binaryValue b = 2 ^ b.length := by
  induction b with
  | nil => simp [getBinaryC, binaryValue]
  | cons c b ih =>
      have hlen := length_getBinaryC b
      obtain ⟨hcarry, hsum⟩ := ih
      have hcons : getBinaryC (c :: b) =
          if c = '0' then ((getBinaryC b).1, bitChar (1 ^^^ (getBinaryC b).1) :: (getBinaryC b).2)
          else (0, bitChar (0 ^^^ (getBinaryC b).1) :: (getBinaryC b).2) := rfl
      rw [hcons, binaryValue_cons, List.length_cons, pow_succ]
      generalize (getBinaryC b).1 = k at hcarry hsum ⊢
      obtain rfl | rfl : k = 0 ∨ k = 1 := by omega
      · by_cases hc : c = '0'
        · rw [if_pos hc, binaryValue_cons, hlen, hc]
          refine ⟨by simp, ?_⟩
          have h1 : bitVal (bitChar (1 ^^^ 0)) = 1 := rfl
          have h0 : bitVal '0' = 0 := rfl
          rw [h1, h0]
          omega
        · rw [if_neg hc, binaryValue_cons, hlen]
          refine ⟨by simp, ?_⟩
          have h1 : bitVal (bitChar (0 ^^^ 0)) = 0 := rfl
          have h0 : bitVal c = 1 := if_neg hc
          rw [h1, h0]
          omega
      · by_cases hc : c = '0'
        · rw [if_pos hc, binaryValue_cons, hlen, hc]
          refine ⟨by simp, ?_⟩
          have h1 : bitVal (bitChar (1 ^^^ 1)) = 0 := rfl
          have h0 : bitVal '0' = 0 := rfl
          rw [h1, h0]
          omega
        · rw [if_neg hc, binaryValue_cons, hlen]
          refine ⟨by simp, ?_⟩
          have h1 : bitVal (bitChar (0 ^^^ 1)) = 1 := rfl
          have h0 : bitVal c = 1 := if_neg hc
          rw [h1, h0]
          omega

/-- Four binary digits are one hexadecimal digit. -/
theorem hexToBin_chunks {s : Str} {m : ℕ} (hs : IsBin s) (hlen : s.length = 4 * m) :
    hexToBin ((chunks 4 s).map fun g => hexDigit (binaryValue g)) = s := by
  obtain ⟨ws, -, hws, rfl⟩ := exists_slices hlen
  rw [chunks_flatten (by decide) hws]
  have hbin : ∀ w ∈ ws, IsBin w := fun w hw c hc => hs c (List.mem_flatten.2 ⟨w, hw, hc⟩)
  clear hs hlen
  induction ws with
  | nil => rfl
  | cons w ws ih =>
      have hw4 : w.length = 4 := hws w (List.mem_cons_self ..)
      have hlt := binaryValue_lt w
      rw [hw4] at hlt
      have hwb := getBinary_binaryValue (hbin w (List.mem_cons_self ..))
      rw [hw4] at hwb
      have hih := ih (fun v hv => hws v (List.mem_cons_of_mem _ hv))
        fun v hv => hbin v (List.mem_cons_of_mem _ hv)
      rw [hexToBin] at hih
      rw [List.map_cons, hexToBin, List.flatMap_cons, hih, hexVal_hexDigit hlt, hwb,
        List.flatten_cons]

/-- **`convert_hexa` writes the lowest digits in two's complement.** -/
theorem hexToBin_convertHexa (num : ℤ) (delta : ℕ) :
    hexToBin (convertHexa num delta) = getBinary (num % 2 ^ (4 * delta)).toNat (4 * delta) := by
  have hmul : delta * 4 = 4 * delta := Nat.mul_comm ..
  have hpos : (0 : ℤ) < 2 ^ (4 * delta) := by positivity
  have hcast : ((2 ^ (4 * delta) : ℕ) : ℤ) = 2 ^ (4 * delta) := by push_cast; rfl
  rw [convertHexa]
  by_cases hneg : num < 0
  · simp only [if_pos hneg]
    have hlen := length_getBinaryC (getBinary num.natAbs (delta * 4))
    rw [length_getBinary, hmul] at hlen
    rw [hexToBin_chunks (isBin_getBinaryC _) (m := delta) (by rw [hmul]; exact hlen)]
    obtain ⟨hcarry, hsum⟩ := getBinaryC_value (getBinary num.natAbs (delta * 4))
    rw [length_getBinary, binaryValue_getBinary, hmul] at hsum
    rw [hmul] at hcarry
    refine binaryValue_inj (isBin_getBinaryC _) (isBin_getBinary _ _)
      (by rw [hmul, hlen, length_getBinary]) ?_
    rw [binaryValue_getBinary, hmul]
    have hlt := binaryValue_lt (getBinaryC (getBinary num.natAbs (4 * delta))).2
    rw [hlen] at hlt
    generalize binaryValue (getBinaryC (getBinary num.natAbs (4 * delta))).2 = v at hsum hlt ⊢
    generalize (getBinaryC (getBinary num.natAbs (4 * delta))).1 = carry at hcarry hsum
    -- the value is `-num` subtracted from a multiple of the modulus
    have hmod : num % 2 ^ (4 * delta) = (v : ℤ) := by
      have hdm := Nat.div_add_mod num.natAbs (2 ^ (4 * delta))
      have hnum : num = -(num.natAbs : ℤ) := by omega
      have heq : num = (v : ℤ) + 2 ^ (4 * delta) *
          ((carry : ℤ) - 1 - ((num.natAbs / 2 ^ (4 * delta) : ℕ) : ℤ)) := by
        rw [← hcast]
        zify at hdm hsum
        push_cast at *
        linarith [mul_comm ((carry : ℤ)) (2 ^ (4 * delta))]
      rw [heq, Int.add_mul_emod_self_left]
      exact Int.emod_eq_of_lt (by omega) (by rw [← hcast]; exact_mod_cast hlt)
    rw [hmod, Int.toNat_natCast, Nat.mod_eq_of_lt hlt]
  · simp only [if_neg hneg]
    rw [hexToBin_chunks (isBin_getBinary _ _) (m := delta) (by rw [length_getBinary, hmul]), hmul,
      ← getBinary_mod]
    congr 1
    have hnum : num = (num.natAbs : ℤ) := by omega
    conv_rhs => rw [hnum]
    rw [← hcast, ← Int.natCast_mod, Int.toNat_natCast]

/-! ## The bits of a part -/

/-- A byte as two digits. -/
def byteHex (n : ℕ) : Str := [hexDigit (n / 16), hexDigit (n % 16)]

theorem isHex_byteHex {n : ℕ} (h : n < 256) : IsHex (byteHex n) := by
  intro c hc
  simp only [byteHex, List.mem_cons, List.not_mem_nil, or_false] at hc
  rcases hc with rfl | rfl <;> exact hexDigit_mem (by omega)

theorem byteHex_inj {m n : ℕ} (hm : m < 256) (hn : n < 256) (h : byteHex m = byteHex n) :
    m = n := by
  simp only [byteHex, List.cons.injEq, and_true] at h
  have h1 := congrArg hexVal h.1
  have h2 := congrArg hexVal h.2
  rw [hexVal_hexDigit (by omega), hexVal_hexDigit (by omega)] at h1 h2
  omega

/-- Two hexadecimal digits are a byte. -/
theorem exists_byteHex {s : Str} (hs : IsHex s) (hlen : s.length = 2) :
    ∃ n < 256, s = byteHex n := by
  match s, hlen with
  | [a, b], _ =>
      have ha := hexVal_lt (hs a (by simp))
      have hb := hexVal_lt (hs b (by simp))
      refine ⟨hexVal a * 16 + hexVal b, by omega, ?_⟩
      rw [byteHex, show (hexVal a * 16 + hexVal b) / 16 = hexVal a by omega,
        show (hexVal a * 16 + hexVal b) % 16 = hexVal b by omega,
        hexDigit_hexVal (hs a (by simp)), hexDigit_hexVal (hs b (by simp))]

theorem hexValue_byteHex_append {n : ℕ} (h : n < 256) (tail : Str) :
    hexValue (byteHex n ++ tail) = n * 2 ^ (4 * tail.length) + hexValue tail := by
  have hbyte : value 16 ((byteHex n).map hexVal) = n := by
    simp only [byteHex, List.map_cons, List.map_nil, hexVal_hexDigit (show n / 16 < 16 by omega),
      hexVal_hexDigit (show n % 16 < 16 by omega), value, List.foldl_cons, List.foldl_nil]
    omega
  rw [hexValue, List.map_append, value_append, hbyte, List.length_map, hexValue, pow_mul]
  norm_num

/-- A delta before it is written: the low digits less the base as `get_int` reads it, whatever wraps
around. -/
theorem delta_emod {delta : ℕ} (h1 : 1 ≤ delta) (h8 : delta ≤ 8) (baseStr : Str) {sub : Str}
    (hhex : IsHex (low delta sub)) (hlen : (low delta sub).length = delta) :
    Int.bmod (getSigned (hexToBin (low delta sub)) +
      Int.bmod (-getSigned (hexToBin baseStr)) (2 ^ 64)) (2 ^ 64) % 2 ^ (4 * delta) =
        (hexValue (low delta sub) - getSigned (hexToBin baseStr)) % 2 ^ (4 * delta) := by
  have hdvd : (2 : ℤ) ^ (4 * delta) ∣ ((2 ^ 64 : ℕ) : ℤ) := by
    rw [Nat.cast_pow, Nat.cast_ofNat]
    exact pow_dvd_pow 2 (by omega)
  have hlow : (hexToBin (low delta sub)).length = 4 * delta := by rw [length_hexToBin, hlen]
  have hsigned := getSigned_emod (isBin_hexToBin (low delta sub)) hlow (by omega) (by omega)
  have hval : binaryValue (hexToBin (low delta sub)) =
      hexValue (low delta sub) % 2 ^ (4 * delta) := by
    rw [hexToBin_eq_getBinary hhex, binaryValue_getBinary, hlen]
  generalize getSigned (hexToBin baseStr) = a
  generalize getSigned (hexToBin (low delta sub)) = b at hsigned
  -- all reductions are modulo a multiple of the width
  have hbmod : ∀ z : ℤ, Int.bmod z (2 ^ 64) % 2 ^ (4 * delta) = z % 2 ^ (4 * delta) := by
    intro z
    rw [← Int.emod_emod_of_dvd (Int.bmod z (2 ^ 64)) hdvd, Int.bmod_emod,
      Int.emod_emod_of_dvd z hdvd]
  rw [hbmod, Int.add_emod, hbmod, hsigned, hval]
  push_cast
  rw [Int.emod_emod_of_dvd _ (dvd_refl _), ← Int.add_emod, sub_eq_add_neg]

/-- The bits of a delta: the value of the low digits, moved by a number that only depends on
the base, and cut to the width. -/
theorem exists_shift {delta : ℕ} (h1 : 1 ≤ delta) (h8 : delta ≤ 8) (baseStr : Str) :
    ∃ shift : ℕ, ∀ sub : Str, IsHex (low delta sub) → (low delta sub).length = delta →
      hexToBin (deltaFrom delta baseStr sub) =
        getBinary (hexValue (low delta sub) + shift) (4 * delta) := by
  have hpos : (0 : ℤ) < 2 ^ (4 * delta) := by positivity
  refine ⟨((-getSigned (hexToBin baseStr)) % 2 ^ (4 * delta)).toNat, fun sub hhex hlen => ?_⟩
  rw [deltaFrom, hexToBin_convertHexa, ← getBinary_mod, delta_emod h1 h8 baseStr hhex hlen,
    ← getBinary_mod (hexValue (low delta sub) + _)]
  generalize getSigned (hexToBin baseStr) = a
  congr 1
  have hshift : (((-a) % 2 ^ (4 * delta)).toNat : ℤ) = (-a) % 2 ^ (4 * delta) :=
    Int.toNat_of_nonneg (Int.emod_nonneg _ hpos.ne')
  rw [sub_eq_add_neg, ← Int.add_emod_emod]
  generalize ((-a) % 2 ^ (4 * delta)).toNat = shift at hshift ⊢
  have hcast : ((2 ^ (4 * delta) : ℕ) : ℤ) = 2 ^ (4 * delta) := by push_cast; rfl
  rw [← hshift, ← hcast, ← Nat.cast_add, ← Int.natCast_mod, Int.toNat_natCast, Nat.mod_mod]

/-- The first byte of the low digits becomes eight bits of the part, moved by a constant; the
other bits of the part do not depend on it. -/
theorem exists_partBits {delta : ℕ} (h2 : 2 ≤ delta) (h8 : delta ≤ 8) {pre post : Str}
    (hpost : post.length = delta - 2) (hpostHex : IsHex post) (baseStr : Str) (hz : Bool)
    (hzero : ∀ n < 256, ZeroHigh delta (pre ++ byteHex n ++ post) ↔ hz = true) :
    ∃ (mask : Char) (shift : ℕ) (rest : Str), rest.length = 4 * delta - 8 ∧ ∀ n < 256,
      partBits (encPart delta baseStr (pre ++ byteHex n ++ post)) =
        mask :: getBinary (n + shift) 8 ++ rest := by
  have hlow : ∀ n, low delta (pre ++ byteHex n ++ post) = byteHex n ++ post := by
    intro n
    have hlen : (pre ++ byteHex n ++ post).length - delta = pre.length := by
      simp only [List.length_append, byteHex, List.length_cons, List.length_nil]
      omega
    rw [low, hlen, List.append_assoc, List.drop_left]
  have hlowLen : ∀ n, (byteHex n ++ post).length = delta := by
    intro n
    simp only [List.length_append, byteHex, List.length_cons, List.length_nil]
    omega
  -- the first eight bits of a moved value
  have hsplit : ∀ shift n, n < 256 → getBinary (hexValue (byteHex n ++ post) + shift) (4 * delta) =
      getBinary (n + (hexValue post + shift) / 2 ^ (4 * (delta - 2))) 8 ++
        getBinary (hexValue post + shift) (4 * (delta - 2)) := by
    intro shift n hn
    rw [hexValue_byteHex_append hn, hpost, show 4 * delta = 8 + 4 * (delta - 2) by omega,
      getBinary_append, Nat.add_assoc, Nat.mul_comm, Nat.mul_add_div (Nat.two_pow_pos _)]
    congr 1
    rw [← getBinary_mod, Nat.mul_add_mod, getBinary_mod]
  cases hz with
  | true =>
      refine ⟨'0', (hexValue post + 0) / 2 ^ (4 * (delta - 2)),
        getBinary (hexValue post + 0) (4 * (delta - 2)), by rw [length_getBinary]; omega,
        fun n hn => ?_⟩
      have hhex : IsHex (byteHex n ++ post) := (isHex_byteHex hn).append hpostHex
      rw [encPart, if_pos ((hzero n hn).2 rfl), hlow, List.cons_append, ← hsplit 0 n hn]
      show '0' :: hexToBin (byteHex n ++ post) = _
      rw [hexToBin_eq_getBinary hhex, hlowLen, Nat.add_zero]
  | false =>
      obtain ⟨shift, hshift⟩ := exists_shift (by omega : 1 ≤ delta) h8 baseStr
      refine ⟨'1', (hexValue post + shift) / 2 ^ (4 * (delta - 2)),
        getBinary (hexValue post + shift) (4 * (delta - 2)), by rw [length_getBinary]; omega,
        fun n hn => ?_⟩
      have hhex : IsHex (byteHex n ++ post) := (isHex_byteHex hn).append hpostHex
      have hnot : ¬ ZeroHigh delta (pre ++ byteHex n ++ post) := by
        rw [hzero n hn]
        simp
      rw [encPart, if_neg hnot, List.cons_append, ← hsplit shift n hn]
      show '1' :: hexToBin (deltaFrom delta baseStr _) = _
      rw [hshift _ (by rw [hlow]; exact hhex) (by rw [hlow]; exact hlowLen n), hlow]

/-! ## The bits the payload does not look at -/

/-- Bits that are neither at a multiple of eight nor among the bits that are left at the end
do not reach the payload. -/
theorem packBits_skip {front u v back : Str} (hlen : u.length = v.length)
    (h : ∀ j < u.length, (front.length + j) % 8 ≠ 0 ∧
      front.length + j < (front.length + u.length + back.length) / 8 * 8) :
    packBits (front ++ u ++ back) = packBits (front ++ v ++ back) := by
  have hu : (front ++ u ++ back).length = front.length + u.length + back.length := by
    rw [List.length_append, List.length_append]
  have hv : (front ++ v ++ back).length = front.length + u.length + back.length := by
    rw [List.length_append, List.length_append, hlen]
  have hget : ∀ p, p % 8 = 0 ∨ (front.length + u.length + back.length) / 8 * 8 ≤ p →
      (front ++ u ++ back)[p]? = (front ++ v ++ back)[p]? := by
    intro p hp
    by_cases h1 : p < front.length
    · rw [List.append_assoc, List.append_assoc, List.getElem?_append_left h1,
        List.getElem?_append_left h1]
    · by_cases h2 : p < front.length + u.length
      · have hj := h (p - front.length) (by omega)
        rw [show front.length + (p - front.length) = p by omega] at hj
        omega
      · rw [List.getElem?_append_right (by rw [List.length_append]; omega),
          List.getElem?_append_right (by rw [List.length_append]; omega), List.length_append,
          List.length_append, hlen]
  have hlast : (front ++ u ++ back).drop ((front.length + u.length + back.length) / 8 * 8) =
      (front ++ v ++ back).drop ((front.length + u.length + back.length) / 8 * 8) := by
    apply List.ext_getElem?
    intro i
    rw [List.getElem?_drop, List.getElem?_drop]
    exact hget _ (Or.inr (by omega))
  have hbytes : ∀ j, sampledByte (front ++ u ++ back) (8 * j) =
      sampledByte (front ++ v ++ back) (8 * j) := by
    intro j
    rw [sampledByte, sampledByte, List.getD_eq_getElem?_getD, List.getD_eq_getElem?_getD,
      hget _ (Or.inl (by omega))]
  unfold packBits
  simp only [hu, hv, hlast, hbytes]

end CompressionWork.Bdi
