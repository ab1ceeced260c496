import CompressionWork.Remap.Permute
import Mathlib.Data.Fintype.EquivFin
import Mathlib.Data.Fintype.Prod
import Mathlib.Tactic.IntervalCases

/-!
# When the remapping is reversible

For a line of `remapRes * u` bytes the segments have `u` bytes.

* `remapDataToType0_eq` — output byte `i * u + q` is input byte `q * remapRes` plus the lane
  that segment `i` collects.
* `groupSegments_nibble`, `groupSegments_bit` — the source of each output bit of the second
  stage, for an even number of bytes and for a multiple of eight.
* `reversible_iff` — the remapping is reversible for these segment sizes only.
-/

namespace CompressionWork.Remap

open Codec

/-! ## Loops -/

section Loops

variable {α β : Type*}

/-- Two nested loops as one. -/
theorem flatMap_range {u : ℕ} (hu : 0 < u) (s : ℕ) (h : ℕ → ℕ → α) :
    (List.range s).flatMap (fun i => (List.range u).map (h i)) =
      (List.range (s * u)).map fun x => h (x / u) (x % u) := by
  induction s with
  | zero => simp
  | succ s ih =>
      rw [List.range_succ, List.flatMap_append, ih, Nat.succ_mul, List.range_add,
        List.map_append, List.map_map, List.flatMap_singleton]
      refine congrArg _ (List.map_congr_left fun q hq => ?_)
      have hlt : q < u := List.mem_range.1 hq
      rw [Function.comp_apply, Nat.mul_comm, Nat.mul_add_div hu, Nat.div_eq_of_lt hlt,
        Nat.mul_add_mod, Nat.mod_eq_of_lt hlt, Nat.add_zero]

theorem mapM_eq_some {l : List α} {f : α → Option β} {g : α → β}
    (h : ∀ a ∈ l, f a = some (g a)) : l.mapM f = some (l.map g) := by
  induction l with
  | nil => rfl
  | cons a l ih =>
      rw [List.mapM_cons, h a (by simp), ih fun b hb => h b (by simp [hb])]
      rfl

theorem mapM_congr {l : List α} {f g : α → Option β} (h : ∀ a ∈ l, f a = g a) :
    l.mapM f = l.mapM g := by
  induction l with
  | nil => rfl
  | cons a l ih =>
      rw [List.mapM_cons, List.mapM_cons, h a (by simp), ih fun b hb => h b (by simp [hb])]

theorem mapM_eq_none {l : List α} {f : α → Option β} {a : α} (ha : a ∈ l) (h : f a = none) :
    l.mapM f = none := by
  induction l with
  | nil => simp at ha
  | cons b l ih =>
      rw [List.mapM_cons]
      rcases List.mem_cons.1 ha with rfl | ha
      · rw [h]
        rfl
      · rw [ih ha]
        cases f b <;> rfl

theorem getD_map_range {n x : ℕ} (h : x < n) (f : ℕ → α) (d : α) :
    ((List.range n).map f).getD x d = f x := by
  simp [List.getD_eq_getElem?_getD, h]

/-- The only round in which a condition on the counter holds. -/
theorem filterMap_range_eq {m r : ℕ} (h : r < m) (g : ℕ → Option α) :
    ((List.range m).filterMap fun x => if x = r then g x else none) = (g r).toList := by
  induction m with
  | zero => omega
  | succ m ih =>
      rw [List.range_succ, List.filterMap_append]
      by_cases hr : r = m
      · subst hr
        have hnil : ((List.range r).filterMap fun x => if x = r then g x else none) = [] := by
          rw [List.filterMap_eq_nil_iff]
          intro x hx
          rw [if_neg (Nat.ne_of_lt (List.mem_range.1 hx))]
        rw [hnil]
        cases hg : g r <;> simp [hg]
      · rw [ih (by omega)]
        simp [Ne.symm hr]

end Loops

/-- Quotient and remainder are determined by the sum they make. -/
theorem mul_add_inj {u i j a b : ℕ} (ha : a < u) (hb : b < u) (h : i * u + a = j * u + b) :
    i = j ∧ a = b := by
  have hdiv := congrArg (· / u) h
  have hmod := congrArg (· % u) h
  have hu : 0 < u := by omega
  simp only [Nat.mul_comm _ u, Nat.mul_add_div hu, Nat.div_eq_of_lt ha, Nat.div_eq_of_lt hb,
    Nat.mul_add_mod, Nat.mod_eq_of_lt ha, Nat.mod_eq_of_lt hb] at hdiv hmod
  exact ⟨by simpa using hdiv, hmod⟩

theorem mul_add_lt {u s i a : ℕ} (hi : i < s) (ha : a < u) : i * u + a < s * u :=
  calc i * u + a < i * u + u := by omega
    _ = (i + 1) * u := (Nat.succ_mul i u).symm
    _ ≤ s * u := Nat.mul_le_mul_right u hi

/-- Counting backwards stays in range and is injective. -/
theorem rev_lt {s i : ℕ} (hi : i < s) : s - 1 - i < s := by omega

theorem rev_inj {s i j : ℕ} (hi : i < s) (hj : j < s) (h : s - 1 - i = s - 1 - j) : i = j := by
  omega

/-! ## Stage 0 -/

variable {remapRes u : ℕ} {data data0 : List UInt8}

/-- Bin `r` holds the bytes `r`, `r + remapRes`, … -/
theorem bin_eq {r : ℕ} (hr : r < remapRes) (h : data.length = u * remapRes) :
    bin remapRes r data = (List.range u).map fun q => data.getD (q * remapRes + r) 0 := by
  have hloop : ∀ v, v ≤ u → ((List.range (v * remapRes)).filterMap fun i =>
      if i % remapRes = r then data[i]? else none) =
        (List.range v).map fun q => data.getD (q * remapRes + r) 0 := by
    intro v
    induction v with
    | zero => intro _; simp
    | succ v ih =>
        intro hv
        have hmem : v * remapRes + r < data.length := h ▸ mul_add_lt hv hr
        rw [Nat.succ_mul, List.range_add, List.filterMap_append, ih (by omega),
          List.range_succ, List.map_append, List.filterMap_map]
        refine congrArg _ ?_
        have hmod : ∀ x ∈ List.range remapRes,
            (fun x => if (v * remapRes + x) % remapRes = r then data[v * remapRes + x]? else none) x =
              if x = r then data[v * remapRes + x]? else none := by
          intro x hx
          have hlt : (v * remapRes + x) % remapRes = x := by
            rw [Nat.mul_comm, Nat.mul_add_mod, Nat.mod_eq_of_lt (List.mem_range.1 hx)]
          dsimp only
          rw [hlt]
        rw [Function.comp_def, List.filterMap_congr hmod,
          filterMap_range_eq hr fun x => data[v * remapRes + x]?]
        simp [List.getD_eq_getElem?_getD, List.getElem?_eq_getElem hmem]
  rw [bin, h]
  exact hloop u (Nat.le_refl u)

/-- The source of byte `x` of the first stage. -/
def type0Src (remapRes u x : ℕ) : ℕ := x % u * remapRes + (remapRes - 1 - x / u)

/-- **The bins one after the other.** -/
theorem remapDataToType0_eq (hres : 0 < remapRes) (hu : 0 < u)
    (h : data.length = remapRes * u) : remapDataToType0 remapRes data =
      some ((List.range (remapRes * u)).map fun x => data.getD (type0Src remapRes u x) 0) := by
  have h' : data.length = u * remapRes := h.trans (Nat.mul_comm ..)
  rw [remapDataToType0, if_pos ⟨by omega, by rw [h, Nat.mul_mod_right]⟩]
  refine congrArg some ?_
  have hbins : (List.range remapRes).reverse.flatMap (fun r => bin remapRes r data) =
      (List.range remapRes).flatMap fun i => (List.range u).map fun q =>
        data.getD (q * remapRes + (remapRes - 1 - i)) 0 := by
    have hrev : (List.range remapRes).reverse = (List.range remapRes).map (remapRes - 1 - ·) := by
      rw [List.range_eq_range', List.reverse_range', List.range_eq_range', Nat.zero_add]
    rw [hrev, List.flatMap_map]
    simp only [List.flatMap_def]
    refine congrArg List.flatten (List.map_congr_left fun i hi => ?_)
    have hlt : i < remapRes := List.mem_range.1 hi
    exact bin_eq (by omega) h'
  rw [hbins, flatMap_range hu remapRes fun i q => data.getD (q * remapRes + (remapRes - 1 - i)) 0]
  rfl

theorem type0Src_lt (hu : 0 < u) {x : ℕ} (hx : x < remapRes * u) :
    type0Src remapRes u x < remapRes * u := by
  have hdiv : x / u < remapRes := Nat.div_lt_of_lt_mul (by rwa [Nat.mul_comm])
  rw [Nat.mul_comm remapRes]
  exact mul_add_lt (Nat.mod_lt x hu) (rev_lt hdiv)

theorem type0Src_inj {x y : ℕ} (hx : x < remapRes * u) (hy : y < remapRes * u)
    (h : type0Src remapRes u x = type0Src remapRes u y) : x = y := by
  have hxd : x / u < remapRes := Nat.div_lt_of_lt_mul (by rwa [Nat.mul_comm])
  have hyd : y / u < remapRes := Nat.div_lt_of_lt_mul (by rwa [Nat.mul_comm])
  obtain ⟨hmod, hdiv⟩ := mul_add_inj (rev_lt hxd) (rev_lt hyd) h
  have hdiv' : x / u = y / u := rev_inj hxd hyd hdiv
  rw [← Nat.div_add_mod x u, ← Nat.div_add_mod y u, hmod, hdiv']

/-! ## Stage 1 -/

/-- The output of the second stage when every round has a result. -/
theorem groupSegments_eq_some {level : Level} {s : ℕ} (hu : 0 < u) (h : data0.length = s * u)
    {g : ℕ → ℕ → UInt8} (hg : ∀ i < s, ∀ q < u, groupRound level u data0 i q = some (g i q)) :
    groupSegments level u data0 = some ((List.range (s * u)).map fun x => g (x / u) (x % u)) := by
  rw [groupSegments, if_neg (Nat.ne_of_gt hu), h, Nat.mul_div_cancel _ hu,
    mapM_eq_some (g := fun i => (List.range u).map (g i)) fun i hi =>
      mapM_eq_some fun q hq => hg i (List.mem_range.1 hi) q (List.mem_range.1 hq),
    Option.map_some, ← List.flatMap_def, flatMap_range hu]

/-- A round without a result leaves the whole line without one. -/
theorem groupSegments_eq_none (level : Level) (data0 : List UInt8) {s i q : ℕ} (hu : 0 < u)
    (h : data0.length = s * u) (hi : i < s) (hq : q < u)
    (hnone : groupRound level u data0 i q = none) :
    groupSegments level u data0 = none := by
  rw [groupSegments, if_neg (Nat.ne_of_gt hu), h, Nat.mul_div_cancel _ hu,
    mapM_eq_none (List.mem_range.2 hi) (mapM_eq_none (List.mem_range.2 hq) hnone)]
  rfl

theorem getElem?_eq_some_getD {x : ℕ} (h : x < data0.length) : data0[x]? = some (data0.getD x 0) := by
  simp [List.getD_eq_getElem?_getD, h]

/-! ### Bits of a byte -/

/-- Bit `t` of a byte. -/
def byteBit (b : UInt8) (t : ℕ) : ℕ := b.toNat / 2 ^ t % 2

theorem bitOf_eq {n : ℕ} (data : List UInt8) (p : Fin n × Fin 8) :
    bitOf data p = byteBit (data.getD p.1 0) p.2 := rfl

/-- Two high nibbles side by side. -/
theorem byteBit_joinHigh (b₁ b₂ : UInt8) {t : ℕ} (ht : t < 8) :
    byteBit (joinNib (highNib b₁) (highNib b₂)) t =
      byteBit (if t < 4 then b₁ else b₂) (t % 4 + 4) := by
  have h₁ := highNib_lt b₁
  rw [byteBit, toNat_joinNib h₁ (highNib_lt b₂), byteBit]
  unfold highNib at *
  interval_cases t <;> simp <;> omega

/-- Two low nibbles side by side. -/
theorem byteBit_joinLow (b₁ b₂ : UInt8) {t : ℕ} (ht : t < 8) :
    byteBit (joinNib (lowNib b₁) (lowNib b₂)) t = byteBit (if t < 4 then b₁ else b₂) (t % 4) := by
  have h₁ := lowNib_lt b₁
  rw [byteBit, toNat_joinNib h₁ (lowNib_lt b₂), byteBit]
  unfold lowNib at *
  interval_cases t <;> simp <;> omega

/-- A byte that was put together bit by bit. -/
theorem byteBit_ofBits {bits : List ℕ} (hlen : bits.length = 8) (hbits : ∀ d ∈ bits, d < 2)
    {t : ℕ} (ht : t < 8) :
    byteBit (UInt8.ofNat (bits.foldl (fun r b => r * 2 + b) 0)) t = bits.getD (7 - t) 0 := by
  have hlt := value_lt hbits
  have hdigits := digits_value hbits
  rw [hlen] at hlt hdigits
  have hget := getElem?_digits (b := 2) ht (value 2 bits)
  rw [hdigits] at hget
  have hnat : (UInt8.ofNat (value 2 bits)).toNat = value 2 bits := by
    rw [UInt8.toNat_ofNat', Nat.mod_eq_of_lt hlt]
  calc byteBit (UInt8.ofNat (value 2 bits)) t = value 2 bits / 2 ^ t % 2 := by
        rw [byteBit, hnat]
    _ = bits.getD (7 - t) 0 := by
        rw [List.getD_eq_getElem?_getD, hget]
        rfl

/-! ### The source of an output bit -/

/-- Segment sizes for which every round stays inside one row of nibbles or bits. -/
def Fits (level : Level) (u : ℕ) : Prop :=
  match level with
  | .nibble => 2 ∣ u
  | .bit => 8 ∣ u

/-- Where bit `t` of round `q` comes from: a byte of the segment, and a bit of it. -/
def roundSrc (level : Level) (u q t : ℕ) : ℕ × ℕ :=
  match level with
  | .nibble =>
      ((2 * q + t / 4) % u, t % 4 + if 2 * q + t / 4 < u then 4 else 0)
  | .bit => ((8 * q + (7 - t)) % u, 7 - (8 * q + (7 - t)) / u)

theorem nibbleByte_src {s i q : ℕ} (hu : 0 < u) (hfit : 2 ∣ u) (h : data0.length = s * u)
    (hi : i < s) : ∃ b, nibbleByte u data0 i (2 * q) = some b ∧ ∀ t < 8, byteBit b t =
      byteBit (data0.getD (i * u + (roundSrc .nibble u q t).1) 0) (roundSrc .nibble u q t).2 := by
  obtain ⟨c, rfl⟩ := hfit
  have hin : ∀ m, i * (2 * c) + m % (2 * c) < data0.length := fun m =>
    h ▸ mul_add_lt hi (Nat.mod_lt m hu)
  rw [nibbleByte, getElem?_eq_some_getD (hin _), getElem?_eq_some_getD (hin _), Option.bind_some,
    Option.map_some]
  refine ⟨_, rfl, fun t ht => ?_⟩
  dsimp only [roundSrc]
  -- an even number of bytes: both nibbles of a round are in the same half
  by_cases hlow : t < 4
  · rw [Nat.div_eq_of_lt hlow]
    simp only [Nat.add_zero]
    by_cases hhalf : 2 * q < 2 * c
    · rw [if_pos hhalf, if_pos hhalf, byteBit_joinHigh _ _ ht, if_pos hlow]
    · rw [if_neg hhalf, if_neg hhalf, byteBit_joinLow _ _ ht, if_pos hlow]
      rfl
  · have hdiv : t / 4 = 1 := by omega
    rw [hdiv]
    by_cases hhalf : 2 * q < 2 * c
    · rw [if_pos hhalf, if_pos (by omega), byteBit_joinHigh _ _ ht, if_neg hlow]
    · rw [if_neg hhalf, if_neg (by omega), byteBit_joinLow _ _ ht, if_neg hlow]
      rfl

theorem bitByte_src {s i q : ℕ} (hu : 0 < u) (hfit : 8 ∣ u) (h : data0.length = s * u)
    (hi : i < s) : ∃ b, bitByte u data0 i (8 * q) = some b ∧ ∀ t < 8, byteBit b t =
      byteBit (data0.getD (i * u + (roundSrc .bit u q t).1) 0) (roundSrc .bit u q t).2 := by
  obtain ⟨c, rfl⟩ := hfit
  have hc : 0 < c := by omega
  have hrow : 8 * q % (8 * c) = 8 * (q % c) := Nat.mul_mod_mul_left 8 q c
  have hmod : q % c < c := Nat.mod_lt q hc
  -- eight bytes in a row lie in one segment
  have hsrc : ∀ k < 8, (8 * q + k) % (8 * c) = 8 * q % (8 * c) + k ∧
      (8 * q + k) / (8 * c) = 8 * q / (8 * c) := by
    intro k hk
    have hdiv : (8 * q + k) / 8 = q := by omega
    constructor
    · rw [Nat.mod_mul, hdiv, hrow]
      omega
    · rw [← Nat.div_div_eq_div_mul, hdiv, Nat.mul_div_mul_left _ _ (by decide : 0 < 8)]
  have hbits : ∀ k ∈ List.range 8,
      ((data0[i * (8 * c) + 8 * q % (8 * c) + k]?).map fun b =>
        b.toNat / 2 ^ (7 - 8 * q / (8 * c)) % 2) =
          some (byteBit (data0.getD (i * (8 * c) + 8 * q % (8 * c) + k) 0)
            (7 - 8 * q / (8 * c))) := by
    intro k hk
    have hlt : i * (8 * c) + (8 * q % (8 * c) + k) < data0.length := by
      have hk8 := List.mem_range.1 hk
      exact h ▸ mul_add_lt hi (by omega)
    rw [Nat.add_assoc, getElem?_eq_some_getD hlt]
    rfl
  rw [bitByte, mapM_eq_some hbits, Option.map_some]
  refine ⟨_, rfl, fun t ht => ?_⟩
  rw [byteBit_ofBits (by simp) ?_ ht, getD_map_range (by omega)]
  · dsimp only [roundSrc]
    rw [(hsrc (7 - t) (by omega)).1, (hsrc (7 - t) (by omega)).2, Nat.add_assoc]
  · intro d hd
    obtain ⟨k, -, rfl⟩ := List.mem_map.1 hd
    exact Nat.mod_lt _ (by decide)

/-- **Every output bit of the second stage has a source** in its own segment. -/
theorem groupSegments_src {level : Level} {s : ℕ} (data0 : List UInt8) (hu : 0 < u)
    (hfit : Fits level u) (h : data0.length = s * u) :
    ∃ out, groupSegments level u data0 = some out ∧ out.length = s * u ∧
      ∀ x < s * u, ∀ t < 8, byteBit (out.getD x 0) t =
        byteBit (data0.getD (x / u * u + (roundSrc level u (x % u) t).1) 0)
          (roundSrc level u (x % u) t).2 := by
  have hround : ∀ i < s, ∀ q < u, ∃ b, groupRound level u data0 i q = some b ∧ ∀ t < 8,
      byteBit b t = byteBit (data0.getD (i * u + (roundSrc level u q t).1) 0)
        (roundSrc level u q t).2 := by
    intro i hi q _
    cases level with
    | nibble => exact nibbleByte_src hu hfit h hi
    | bit => exact bitByte_src hu hfit h hi
  have hsome : ∀ i < s, ∀ q < u, groupRound level u data0 i q =
      some ((groupRound level u data0 i q).getD 0) := by
    intro i hi q hq
    obtain ⟨b, hb, -⟩ := hround i hi q hq
    rw [hb]
    rfl
  refine ⟨_, groupSegments_eq_some hu h hsome, by simp, fun x hx t ht => ?_⟩
  obtain ⟨b, hb, hbit⟩ := hround (x / u) (Nat.div_lt_of_lt_mul (by rwa [Nat.mul_comm]))
    (x % u) (Nat.mod_lt x hu)
  rw [getD_map_range hx, hb]
  exact hbit t ht

theorem roundSrc_lt {level : Level} (hu : 0 < u) (q t : ℕ) :
    (roundSrc level u q t).1 < u ∧ (roundSrc level u q t).2 < 8 := by
  cases level with
  | nibble =>
      refine ⟨Nat.mod_lt _ hu, ?_⟩
      dsimp only [roundSrc]
      split <;> omega
  | bit =>
      refine ⟨Nat.mod_lt _ hu, ?_⟩
      dsimp only [roundSrc]
      exact Nat.lt_succ_of_le (Nat.sub_le _ _)

/-- Different output bits of a segment have different sources. -/
theorem roundSrc_inj {level : Level} {q t q' t' : ℕ} (hq : q < u) (hq' : q' < u) (ht : t < 8)
    (ht' : t' < 8) (h : roundSrc level u q t = roundSrc level u q' t') : q = q' ∧ t = t' := by
  cases level with
  | nibble =>
      obtain ⟨hbyte, hbit⟩ := Prod.mk.inj h
      have hmod : ∀ m, m < 2 * u → m % u = if m < u then m else m - u := by
        intro m hm
        split
        · exact Nat.mod_eq_of_lt ‹_›
        · rw [Nat.mod_eq_sub_mod (by omega), Nat.mod_eq_of_lt (by omega)]
      rw [hmod _ (by omega), hmod _ (by omega)] at hbyte
      by_cases h₁ : 2 * q + t / 4 < u <;> by_cases h₂ : 2 * q' + t' / 4 < u <;>
        simp only [h₁, h₂, if_true, if_false] at hbyte hbit <;> omega
  | bit =>
      obtain ⟨hbyte, hbit⟩ := Prod.mk.inj h
      have hdiv : ∀ a < u, ∀ b < 8, (8 * a + (7 - b)) / u < 8 := by
        intro a ha b hb
        exact Nat.div_lt_of_lt_mul (by omega)
      have hrow : (8 * q + (7 - t)) / u = (8 * q' + (7 - t')) / u :=
        rev_inj (s := 8) (hdiv q hq t ht) (hdiv q' hq' t' ht') hbit
      have hsum : 8 * q + (7 - t) = 8 * q' + (7 - t') := by
        rw [← Nat.div_add_mod (8 * q + (7 - t)) u, hrow, hbyte, Nat.div_add_mod]
      omega

/-! ## The permutation -/

/-- An injective rearrangement of the bits of a line is a permutation. -/
theorem exists_perm {n : ℕ} (src : ℕ → ℕ → ℕ × ℕ)
    (hlt : ∀ x < n, ∀ t < 8, (src x t).1 < n ∧ (src x t).2 < 8)
    (hinj : ∀ x < n, ∀ t < 8, ∀ y < n, ∀ r < 8, src x t = src y r → x = y ∧ t = r) :
    ∃ σ : Equiv.Perm (Fin n × Fin 8),
      ∀ p, ((σ p).1 : ℕ) = (src p.1 p.2).1 ∧ ((σ p).2 : ℕ) = (src p.1 p.2).2 := by
  let f : Fin n × Fin 8 → Fin n × Fin 8 := fun p =>
    (⟨(src p.1 p.2).1, (hlt p.1 p.1.isLt p.2 p.2.isLt).1⟩,
      ⟨(src p.1 p.2).2, (hlt p.1 p.1.isLt p.2 p.2.isLt).2⟩)
  have hf : Function.Injective f := by
    intro p q hpq
    have h₁ := congrArg (fun r => (r.1 : ℕ)) hpq
    have h₂ := congrArg (fun r => (r.2 : ℕ)) hpq
    obtain ⟨hx, ht⟩ := hinj p.1 p.1.isLt p.2 p.2.isLt q.1 q.1.isLt q.2 q.2.isLt (Prod.ext h₁ h₂)
    exact Prod.ext (Fin.ext hx) (Fin.ext ht)
  exact ⟨Equiv.ofBijective f (Finite.injective_iff_bijective.1 hf), fun p => ⟨rfl, rfl⟩⟩

/-- The source of an output bit of the second stage. -/
def groupSrc (level : Level) (u x t : ℕ) : ℕ × ℕ :=
  (x / u * u + (roundSrc level u (x % u) t).1, (roundSrc level u (x % u) t).2)

theorem exists_groupPerm (level : Level) {s : ℕ} (hu : 0 < u) :
    ∃ τ : Equiv.Perm (Fin (s * u) × Fin 8), ∀ p,
      ((τ p).1 : ℕ) = (groupSrc level u p.1 p.2).1 ∧
        ((τ p).2 : ℕ) = (groupSrc level u p.1 p.2).2 := by
  refine exists_perm _ (fun _ hx _ _ => ⟨?_, (roundSrc_lt hu _ _).2⟩) ?_
  · exact mul_add_lt (Nat.div_lt_of_lt_mul (by rwa [Nat.mul_comm])) (roundSrc_lt hu _ _).1
  · intro x _ t ht y _ r hr heq
    obtain ⟨hbyte, hbit⟩ := Prod.mk.inj heq
    obtain ⟨hdiv, hsrc⟩ := mul_add_inj (roundSrc_lt hu _ _).1 (roundSrc_lt hu _ _).1 hbyte
    obtain ⟨hmod, rfl⟩ := roundSrc_inj (Nat.mod_lt x hu) (Nat.mod_lt y hu) ht hr
      (Prod.ext hsrc hbit)
    exact ⟨by rw [← Nat.div_add_mod x u, ← Nat.div_add_mod y u, hdiv, hmod], rfl⟩

theorem exists_type0Perm (remapRes : ℕ) (hu : 0 < u) : ∃ ρ : Equiv.Perm (Fin (remapRes * u) × Fin 8), ∀ p,
    ((ρ p).1 : ℕ) = type0Src remapRes u p.1 ∧ ((ρ p).2 : ℕ) = p.2 :=
  exists_perm (fun x t => (type0Src remapRes u x, t))
    (fun _ hx _ ht => ⟨type0Src_lt hu hx, ht⟩) fun _ hx _ _ _ hy _ _ heq =>
      ⟨type0Src_inj hx hy (Prod.mk.inj heq).1, (Prod.mk.inj heq).2⟩

/-- **With whole rows the remapping is reversible.** -/
theorem reversible_of_fits {level : Level} (hres : 0 < remapRes) (hu : 0 < u)
    (hfit : Fits level u) : Reversible level remapRes (remapRes * u) := by
  obtain ⟨τ, hτ⟩ := exists_groupPerm level (s := remapRes) hu
  obtain ⟨ρ, hρ⟩ := exists_type0Perm remapRes hu
  have hsize : remapRes * u / remapRes = u := Nat.mul_div_cancel_left u hres
  constructor
  · refine ⟨τ.trans ρ, fun data hdata => ?_⟩
    obtain ⟨out, hout, hlen, hbit⟩ := groupSegments_src (s := remapRes)
      ((List.range (remapRes * u)).map fun x => data.getD (type0Src remapRes u x) 0) hu hfit
      (by simp)
    refine ⟨out, ?_, hlen, fun p => ?_⟩
    · rw [remapDataToType1, remapDataToType0_eq hres hu hdata, Option.bind_some, hdata, hsize]
      exact hout
    · have hlt : (groupSrc level u p.1 p.2).1 < remapRes * u := (hτ p).1 ▸ (τ p).1.isLt
      rw [bitOf_eq, hbit p.1 p.1.isLt p.2 p.2.isLt, bitOf_eq, Equiv.trans_apply, (hρ (τ p)).1,
        (hρ (τ p)).2, (hτ p).1, (hτ p).2]
      exact congrArg (byteBit · _) (getD_map_range hlt _ 0)
  · refine ⟨τ, fun p => ?_, fun data0 hdata => ?_⟩
    · rw [hsize, (hτ p).1, groupSrc, Nat.mul_comm, Nat.mul_add_div hu,
        Nat.div_eq_of_lt (roundSrc_lt hu _ _).1, Nat.add_zero]
    · obtain ⟨out, hout, hlen, hbit⟩ := groupSegments_src data0 hu hfit hdata
      refine ⟨out, hsize.symm ▸ hout, hlen, fun p => ?_⟩
      rw [bitOf_eq, hbit p.1 p.1.isLt p.2 p.2.isLt, bitOf_eq, (hτ p).1, (hτ p).2]
      rfl

/-! ## Other segment sizes -/

/-- With an odd number of bytes the low nibble of the first byte of a segment is never read:
the round that should end the high nibbles takes the first byte again. -/
theorem nibbleByte_odd {n : ℕ} (hu : ¬ 2 ∣ u) (i q : ℕ) (hq : q < u) :
    nibbleByte u (1 :: List.replicate n 0) i (2 * q) =
      nibbleByte u (0 :: List.replicate n 0) i (2 * q) := by
  have hsame : ∀ x : ℕ, 0 < x → (1 :: List.replicate n (0 : UInt8))[x]? =
      (0 :: List.replicate n (0 : UInt8))[x]? := by
    intro x hx
    obtain ⟨y, rfl⟩ : ∃ y, x = y + 1 := ⟨x - 1, by omega⟩
    rw [List.getElem?_cons_succ, List.getElem?_cons_succ]
  have hhigh : ∀ x : ℕ, ((1 :: List.replicate n (0 : UInt8))[x]?).map highNib =
      ((0 :: List.replicate n (0 : UInt8))[x]?).map highNib := by
    intro x
    cases x with
    | zero => rfl
    | succ x => rw [hsame _ (Nat.succ_pos x)]
  unfold nibbleByte
  by_cases hhalf : 2 * q < u
  · -- high nibbles: both lines have none
    simp only [if_pos hhalf]
    have hsplit : ∀ data : List UInt8,
        ((data[i * u + 2 * q % u]?).bind fun b₁ => (data[i * u + (2 * q + 1) % u]?).map fun b₂ =>
          joinNib (highNib b₁) (highNib b₂)) =
        ((data[i * u + 2 * q % u]?).map highNib).bind fun h₁ =>
          ((data[i * u + (2 * q + 1) % u]?).map highNib).map fun h₂ => joinNib h₁ h₂ := by
      intro data
      cases data[i * u + 2 * q % u]? <;> cases data[i * u + (2 * q + 1) % u]? <;> rfl
    rw [hsplit, hsplit, hhigh, hhigh]
  · -- low nibbles: the first byte of the segment is not among them
    have hodd : 2 * q ≠ u := fun heq => hu ⟨q, heq.symm⟩
    have h₁ : 2 * q % u = 2 * q - u := by
      rw [Nat.mod_eq_sub_mod (by omega), Nat.mod_eq_of_lt (by omega)]
    have h₂ : (2 * q + 1) % u = 2 * q + 1 - u := by
      rw [Nat.mod_eq_sub_mod (by omega), Nat.mod_eq_of_lt (by omega)]
    rw [h₁, h₂, hsame (i * u + (2 * q - u)) (by omega),
      hsame (i * u + (2 * q + 1 - u)) (by omega)]

/-- When eight bytes in a row do not fit the segments, the last round of the first row reads
on after the segment; in the last segment this is after the line. -/
theorem bitByte_overrun {s : ℕ} (hfit : ¬ 8 ∣ u) (h : data0.length = (s + 1) * u) :
    bitByte u data0 s (8 * (u / 8)) = none := by
  have hlt : 8 * (u / 8) < u := by omega
  have hnone : data0[s * u + 8 * (u / 8) % u + 7]? = none := by
    rw [List.getElem?_eq_none]
    rw [h, Nat.succ_mul, Nat.mod_eq_of_lt hlt]
    omega
  rw [bitByte, mapM_eq_none (List.mem_range.2 (by decide : 7 < 8)) (by rw [hnone]; rfl)]
  rfl

/-- **Other segment sizes are not reversible.** -/
theorem Reversible.fits {level : Level} (hres : 0 < remapRes)
    (h : Reversible level remapRes (remapRes * u)) : 0 < u ∧ Fits level u := by
  obtain ⟨τ, -, hτ⟩ := h.segment
  rw [Nat.mul_div_cancel_left u hres] at hτ
  have hu : 0 < u := by
    by_contra hzero
    obtain ⟨out, hout, -⟩ := hτ (List.replicate (remapRes * u) 0) (by simp)
    rw [groupSegments, if_pos (by omega)] at hout
    simp at hout
  refine ⟨hu, by_contra fun hfit => ?_⟩
  cases level with
  | nibble =>
      -- two lines that differ in the first bit of the first byte have one output
      obtain ⟨n, hn⟩ : ∃ n, remapRes * u = n + 1 :=
        ⟨remapRes * u - 1, by have := Nat.mul_pos hres hu; omega⟩
      have hlen : ∀ b : UInt8, (b :: List.replicate n 0).length = remapRes * u := fun b => by
        simp [hn]
      obtain ⟨out, hout, -, hbit⟩ := hτ (1 :: List.replicate n 0) (hlen 1)
      obtain ⟨out', hout', -, hbit'⟩ := hτ (0 :: List.replicate n 0) (hlen 0)
      have hsame : groupSegments .nibble u (1 :: List.replicate n 0) =
          groupSegments .nibble u (0 :: List.replicate n 0) := by
        rw [groupSegments, groupSegments, hlen, hlen]
        have hrounds : ∀ i, ((List.range u).mapM fun q =>
            groupRound .nibble u (1 :: List.replicate n 0) i q) =
              (List.range u).mapM fun q =>
                groupRound .nibble u (0 :: List.replicate n 0) i q := by
          intro i
          exact mapM_congr fun q hq => nibbleByte_odd hfit i q (List.mem_range.1 hq)
        simp only [hrounds]
      obtain rfl : out = out' := Option.some.inj (by rw [← hout, ← hout', hsame])
      let p : Fin (remapRes * u) × Fin 8 := τ.symm (⟨0, by omega⟩, 0)
      have hone := hbit p
      rw [hbit' p, Equiv.apply_symm_apply] at hone
      simp [bitOf] at hone
  | bit =>
      obtain ⟨s, rfl⟩ : ∃ s, remapRes = s + 1 := ⟨remapRes - 1, by omega⟩
      obtain ⟨out, hout, -⟩ := hτ (List.replicate ((s + 1) * u) 0) (by simp)
      have hnone := groupSegments_eq_none .bit (List.replicate ((s + 1) * u) 0) (s := s + 1)
        (i := s) (q := u / 8) hu (by simp) (by omega) (by omega)
        (bitByte_overrun hfit (by simp))
      rw [hnone] at hout
      simp at hout

/-- **The remapping is reversible** exactly when each segment has an even number of bytes
(nibble level), or a multiple of eight bytes (bit level), and at least one. -/
theorem reversible_iff {level : Level} {n : ℕ} (hres : 0 < remapRes) (hn : n % remapRes = 0) :
    Reversible level remapRes n ↔ 0 < n / remapRes ∧ Fits level (n / remapRes) := by
  obtain ⟨u, rfl⟩ := Nat.dvd_of_mod_eq_zero hn
  rw [Nat.mul_div_cancel_left u hres]
  exact ⟨Reversible.fits hres, fun h => reversible_of_fits hres h.1 h.2⟩

theorem reversible_iff_four : Reversible .bit 4 128 ↔ 0 < 128 / 4 ∧ Fits .bit (128 / 4) :=
  reversible_iff (by decide) (by decide)

/-- A line of 32 bytes in eight segments: the bit level reads eight bytes out of four. -/
theorem not_reversible_shortSegments :
    ¬ ∀ (level : Level) (remapRes n : ℕ), 0 < remapRes → 0 < n → n % remapRes = 0 →
      Reversible level remapRes n := by
  intro h
  have hfit := (Reversible.fits (u := 4) (by decide) (h .bit 8 (8 * 4) (by decide) (by decide)
    (by decide))).2
  exact absurd hfit (by unfold Fits; decide)

end CompressionWork.Remap
