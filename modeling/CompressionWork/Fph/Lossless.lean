import CompressionWork.Fph.Fields
import Mathlib.Algebra.BigOperators.Ring.Finset

/-!
# When an FP-H line can be decoded

Nothing in the output tells a code from a raw value.

* `encodeLine_raw` — with three empty tables the output is the line itself, in bits.
* `kraft_encodeWord` — the Kraft sum of the encoded words is the product of the Kraft sums of
  the fields.
* `encode_injective_iff` — the output determines the line exactly when every field was
  sampled with fewer than two values.
-/

namespace CompressionWork.Fph

open Codec Sampling

/-! ## Lines and words -/

/-- The four bytes of a word, least significant byte first. -/
def wordBytes (n : ℕ) : List UInt8 :=
  [UInt8.ofNat n, UInt8.ofNat (n / 2 ^ 8), UInt8.ofNat (n / 2 ^ 16), UInt8.ofNat (n / 2 ^ 24)]

theorem decomposeData_wordBytes {n : ℕ} (h : n < 2 ^ 32) (rest : List UInt8) :
    decomposeData (wordBytes n ++ rest) = intToHex n ++ decomposeData rest := by
  simp only [wordBytes, List.cons_append, List.nil_append, decomposeData, UInt8.toNat_ofNat']
  congr 2
  omega

theorem hexToBin_intToHex (n : ℕ) : hexToBin (intToHex n) = getBinary n 32 := by
  rw [intToHex, hexToBin_map_hexDigit fun d hd => digits_lt (by decide) hd]
  exact congrArg (List.map bitChar) (digits_flatMap 2 4 8 n)

/-- A string of 32 bits. -/
def IsWord32 (w : Str) : Prop := w.length = 32 ∧ IsBin w

/-- The line with given words. -/
def lineOf (ws : List Str) : List UInt8 := ws.flatMap fun w => wordBytes (binaryValue w)

theorem length_lineOf (ws : List Str) : (lineOf ws).length = 4 * ws.length := by
  induction ws with
  | nil => rfl
  | cons w ws ih =>
      rw [lineOf, List.flatMap_cons, List.length_append, ← lineOf, ih, List.length_cons]
      simp only [wordBytes, List.length_cons, List.length_nil]
      omega

/-- **Every sequence of words is a line.** -/
theorem convertBinary_lineOf {ws : List Str} (h : ∀ w ∈ ws, IsWord32 w) :
    convertBinary (decomposeData (lineOf ws)) = ws := by
  induction ws with
  | nil => rfl
  | cons w ws ih =>
      obtain ⟨hlen, hbin⟩ := h w (by simp)
      have hlt : binaryValue w < 2 ^ 32 := hlen ▸ binaryValue_lt w
      have hw : hexToBin (intToHex (binaryValue w)) = w := by
        rw [hexToBin_intToHex, ← hlen]
        exact getBinary_binaryValue hbin
      rw [lineOf, List.flatMap_cons, decomposeData_wordBytes hlt, convertBinary, bytesLen,
        chunks_append (by decide) (isWord_intToHex _).1, List.map_cons, hw]
      exact congrArg (w :: ·) (ih fun v hv => h v (by simp [hv]))

theorem doEncode_eq (trs : Trackers) (input : List Str) :
    doEncode trs input = input.flatMap (encodeWord trs) :=
  List.flatMap_eq_foldl.symm

/-! ## Empty tables -/

theorem encodeWord_raw (cur : Str) : encodeWord ⟨[], [], []⟩ cur = cur := by
  have hexp : cur.drop 1 = exp cur ++ cur.drop 9 := by
    have hrest : cur.drop 9 = (cur.drop 1).drop 8 := by rw [List.drop_drop]
    rw [hrest]
    exact (List.take_append_drop 8 (cur.drop 1)).symm
  have hmh : cur.drop 9 = mh cur ++ ml cur := by
    have hml : ml cur = (cur.drop 9).drop 10 := by
      rw [List.drop_drop]
      rfl
    rw [hml]
    exact (List.take_append_drop 10 (cur.drop 9)).symm
  calc encodeWord ⟨[], [], []⟩ cur = cur.take 1 ++ exp cur ++ mh cur ++ ml cur := rfl
    _ = cur.take 1 ++ cur.drop 1 := by rw [hexp, hmh]; simp only [List.append_assoc]
    _ = cur := List.take_append_drop 1 cur

/-- **With empty tables the output is the line**, in bits. -/
theorem encodeLine_raw (cacheData : List UInt8) :
    encodeLine ⟨[], [], []⟩ cacheData = hexToBin (decomposeData cacheData) := by
  obtain ⟨m, hm⟩ := exists_length_decomposeData cacheData
  rw [encodeLine, doEncode_eq, List.flatMap_def,
    List.map_congr_left fun cur _ => encodeWord_raw cur, List.map_id',
    convertBinary, bytesLen]
  have hflat := flatten_chunks (k := 8) (by decide) hm
  calc ((chunks 8 (decomposeData cacheData)).map hexToBin).flatten
      = hexToBin (chunks 8 (decomposeData cacheData)).flatten := by
        rw [hexToBin, List.flatMap_def, List.map_flatten, List.flatten_flatten, List.map_map]
        rfl
    _ = hexToBin (decomposeData cacheData) := by rw [hflat]

/-! ## Other tables -/

/-- A word as the numbers in its fields: sign, exponent, high and low mantissa. -/
abbrev Index := ℕ × ℕ × ℕ × ℕ

/-- The word with given fields. -/
def wordOf (u : Index) : Str :=
  getBinary u.1 1 ++ (getBinary u.2.1 expBits ++ (getBinary u.2.2.1 mhBits ++
    getBinary u.2.2.2 mlBits))

/-- The fields of all words. -/
def indices : Finset Index :=
  Finset.range (2 ^ 1) ×ˢ Finset.range (2 ^ expBits) ×ˢ Finset.range (2 ^ mhBits) ×ˢ
    Finset.range (2 ^ mlBits)

/-- The numbers fit their fields. -/
def InRange (u : Index) : Prop :=
  u.1 < 2 ^ 1 ∧ u.2.1 < 2 ^ expBits ∧ u.2.2.1 < 2 ^ mhBits ∧ u.2.2.2 < 2 ^ mlBits

theorem mem_indices {u : Index} : u ∈ indices ↔ InRange u := by
  simp only [indices, Finset.mem_product, Finset.mem_range, InRange]

theorem isBin_append {s t : Str} (hs : IsBin s) (ht : IsBin t) : IsBin (s ++ t) :=
  fun c hc => (List.mem_append.1 hc).elim (hs c) (ht c)

theorem isWord32_wordOf (u : Index) : IsWord32 (wordOf u) :=
  ⟨by simp [wordOf, expBits, mhBits, mlBits],
    isBin_append (isBin_getBinary _ _) (isBin_append (isBin_getBinary _ _)
      (isBin_append (isBin_getBinary _ _) (isBin_getBinary _ _)))⟩

theorem wordOf_inj {u v : Index} (hu : InRange u) (hv : InRange v) (h : wordOf u = wordOf v) :
    u = v := by
  obtain ⟨s, e, m, l⟩ := u
  obtain ⟨s', e', m', l'⟩ := v
  obtain ⟨hs₁, he₁, hm₁, hl₁⟩ := hu
  obtain ⟨hs₂, he₂, hm₂, hl₂⟩ := hv
  simp only [wordOf] at h
  obtain ⟨hs, h⟩ := List.append_inj h (by simp)
  obtain ⟨he, h⟩ := List.append_inj h (by simp)
  obtain ⟨hm, hl⟩ := List.append_inj h (by simp)
  dsimp only at hs₁ he₁ hm₁ hl₁ hs₂ he₂ hm₂ hl₂
  rw [getBinary_inj hs₁ hs₂ hs, getBinary_inj he₁ he₂ he, getBinary_inj hm₁ hm₂ hm,
    getBinary_inj hl₁ hl₂ hl]

theorem map_wordOf_inj {us : List Index} : ∀ {vs : List Index}, (∀ u ∈ us, InRange u) →
    (∀ v ∈ vs, InRange v) → us.map wordOf = vs.map wordOf → us = vs := by
  induction us with
  | nil => intro vs _ _ h; exact (List.map_eq_nil_iff.1 h.symm).symm
  | cons u us ih =>
      intro vs hus hvs h
      cases vs with
      | nil => simp at h
      | cons v vs =>
          rw [List.map_cons, List.map_cons, List.cons.injEq] at h
          rw [List.forall_mem_cons] at hus hvs
          rw [wordOf_inj hus.1 hvs.1 h.1, ih hus.2 hvs.2 h.2]

/-- The encoded word, field by field. -/
theorem encodeWord_wordOf (trs : Trackers) (u : Index) :
    encodeWord trs (wordOf u) = getBinary u.1 1 ++ fieldCode trs.exp (getBinary u.2.1 expBits) ++
      fieldCode trs.mh (getBinary u.2.2.1 mhBits) ++
        fieldCode trs.ml (getBinary u.2.2.2 mlBits) := by
  have h₁ : (wordOf u).take 1 = getBinary u.1 1 := List.take_left' (length_getBinary _ _)
  have hrest : (wordOf u).drop 1 = getBinary u.2.1 expBits ++ (getBinary u.2.2.1 mhBits ++
      getBinary u.2.2.2 mlBits) := List.drop_left' (length_getBinary _ _)
  have h₂ : exp (wordOf u) = getBinary u.2.1 expBits := by
    rw [exp, hrest, List.take_left' (length_getBinary _ _)]
  have hman : (wordOf u).drop (expBits + 1) = getBinary u.2.2.1 mhBits ++
      getBinary u.2.2.2 mlBits := by
    rw [Nat.add_comm, ← List.drop_drop, hrest, List.drop_left' (length_getBinary _ _)]
  have h₃ : mh (wordOf u) = getBinary u.2.2.1 mhBits := by
    rw [mh, hman, List.take_left' (length_getBinary _ _)]
  have h₄ : ml (wordOf u) = getBinary u.2.2.2 mlBits := by
    rw [ml, Nat.add_comm 1, ← List.drop_drop, hman, List.drop_left' (length_getBinary _ _)]
  rw [encodeWord, h₁, h₂, h₃, h₄]

theorem sum_product_mul {α β : Type} (s : Finset α) (t : Finset β) (f : α → ℝ) (g : β → ℝ) :
    ∑ p ∈ s ×ˢ t, f p.1 * g p.2 = (∑ a ∈ s, f a) * ∑ b ∈ t, g b := by
  rw [Finset.sum_mul_sum, Finset.sum_product]

/-- **The Kraft sum of the encoded words** is the product of the sums of the fields: the sign
bit contributes 1. -/
theorem kraft_encodeWord (trs : Trackers) :
    ∑ u ∈ indices, (1 / 2 : ℝ) ^ (encodeWord trs (wordOf u)).length =
      fieldSum trs.exp expBits * (fieldSum trs.mh mhBits * fieldSum trs.ml mlBits) := by
  have hterm : ∀ u ∈ indices, (1 / 2 : ℝ) ^ (encodeWord trs (wordOf u)).length =
      (1 / 2) ^ 1 * ((1 / 2) ^ (fieldCode trs.exp (getBinary u.2.1 expBits)).length *
        ((1 / 2) ^ (fieldCode trs.mh (getBinary u.2.2.1 mhBits)).length *
          (1 / 2) ^ (fieldCode trs.ml (getBinary u.2.2.2 mlBits)).length)) := by
    intro u _
    simp only [encodeWord_wordOf, List.length_append, length_getBinary, pow_add]
    ring
  have hsign : ∑ _s ∈ Finset.range (2 ^ 1), (1 / 2 : ℝ) ^ 1 = 1 := by norm_num
  rw [Finset.sum_congr rfl hterm, indices]
  rw [sum_product_mul _ _ (fun _ => (1 / 2 : ℝ) ^ 1) fun u : ℕ × ℕ × ℕ =>
    (1 / 2 : ℝ) ^ (fieldCode trs.exp (getBinary u.1 expBits)).length *
      ((1 / 2) ^ (fieldCode trs.mh (getBinary u.2.1 mhBits)).length *
        (1 / 2) ^ (fieldCode trs.ml (getBinary u.2.2 mlBits)).length)]
  rw [sum_product_mul _ _ (fun n => (1 / 2 : ℝ) ^ (fieldCode trs.exp
    (getBinary n expBits)).length) fun u : ℕ × ℕ =>
      (1 / 2 : ℝ) ^ (fieldCode trs.mh (getBinary u.1 mhBits)).length *
        (1 / 2) ^ (fieldCode trs.ml (getBinary u.2 mlBits)).length]
  rw [sum_product_mul _ _ (fun n => (1 / 2 : ℝ) ^ (fieldCode trs.mh
    (getBinary n mhBits)).length) fun n =>
      (1 / 2 : ℝ) ^ (fieldCode trs.ml (getBinary n mlBits)).length, hsign, one_mul]
  rfl

/-! ## Lines that cannot be told apart -/

/-- The bits of a binary string. -/
def toBits (s : Str) : List Bool := s.map (· == '1')

theorem toBits_inj {s t : Str} (hs : IsBin s) (ht : IsBin t) (h : toBits s = toBits t) : s = t := by
  have hlen : s.length = t.length := by
    have := congrArg List.length h
    simpa [toBits] using this
  have hpre : s.map (· == '1') <+: t.map (· == '1') := by
    rw [toBits, toBits] at h
    rw [h]
  refine ( prefix_of_map_prefix (fun x hx y hy hxy => ?_) hpre).eq_of_length hlen
  rcases hs x hx with rfl | rfl <;> rcases ht y hy with rfl | rfl <;>
    first | rfl | exact absurd hxy (by decide)

theorem isBin_fieldCode {tr : List (Str × Str)} (htr : ∀ p ∈ tr, IsBin p.2) {v : Str}
    (hv : IsBin v) : IsBin (fieldCode tr v) := by
  unfold fieldCode
  cases hlook : tr.lookup v with
  | none => exact hv
  | some c => exact htr (v, c) (mem_of_lookup_eq hlook)

/-- Three tables whose codes are binary strings. -/
def BinaryCodes (trs : Trackers) : Prop :=
  (∀ p ∈ trs.exp, IsBin p.2) ∧ (∀ p ∈ trs.mh, IsBin p.2) ∧ ∀ p ∈ trs.ml, IsBin p.2

theorem isBin_encodeWord {trs : Trackers} (h : BinaryCodes trs) (u : Index) :
    IsBin (encodeWord trs (wordOf u)) := by
  rw [encodeWord_wordOf]
  refine isBin_append (isBin_append (isBin_append (isBin_getBinary _ _) ?_) ?_) ?_
  · exact isBin_fieldCode h.1 (isBin_getBinary _ _)
  · exact isBin_fieldCode h.2.1 (isBin_getBinary _ _)
  · exact isBin_fieldCode h.2.2 (isBin_getBinary _ _)

/-- The property of the output: lines of one size are told apart by it. -/
def Determines (trs : Trackers) : Prop :=
  ∀ (m : ℕ) (l₁ l₂ : List UInt8), l₁.length = 4 * m → l₂.length = 4 * m →
    encodeLine trs l₁ = encodeLine trs l₂ → l₁ = l₂

/-- **If the output determines the line, the encoded words satisfy Kraft's inequality.** -/
theorem Determines.kraft {trs : Trackers} (h : Determines trs) (hbin : BinaryCodes trs) :
    ∑ u ∈ indices, (1 / 2 : ℝ) ^ (encodeWord trs (wordOf u)).length ≤ 1 := by
  have hlen : ∀ u : Index, (toBits (encodeWord trs (wordOf u))).length =
      (encodeWord trs (wordOf u)).length := fun u => by simp [toBits]
  have hle := kraft_le_one_of_injective
    (fun u : Index => toBits (encodeWord trs (wordOf u))) (s := indices) ?ne ?inj
  · simpa only [hlen] using hle
  case ne =>
    intro u _ hnil
    have hzero := congrArg List.length hnil
    rw [hlen, encodeWord_wordOf] at hzero
    simp at hzero
  case inj =>
    intro us vs hus hvs hsame heq
    have hwords : ∀ ws : List Index, ∀ w ∈ ws.map wordOf, IsWord32 w := by
      intro ws w hw
      obtain ⟨u, -, rfl⟩ := List.mem_map.1 hw
      exact isWord32_wordOf u
    -- the two sequences are lines of one size with one output
    have hout : ∀ ws : List Index, encodeLine trs (lineOf (ws.map wordOf)) =
        ws.flatMap fun u => encodeWord trs (wordOf u) := by
      intro ws
      rw [encodeLine, convertBinary_lineOf (hwords ws), doEncode_eq, List.flatMap_map]
    have hbits : ∀ ws : List Index, IsBin (ws.flatMap fun u => encodeWord trs (wordOf u)) := by
      intro ws c hc
      obtain ⟨u, -, hu⟩ := List.mem_flatMap.1 hc
      exact isBin_encodeWord hbin u c hu
    have hflat : ∀ ws : List Index, ws.flatMap (fun u => toBits (encodeWord trs (wordOf u))) =
        toBits (ws.flatMap fun u => encodeWord trs (wordOf u)) := by
      intro ws
      rw [toBits, List.map_flatMap]
      rfl
    rw [hflat, hflat] at heq
    have hline := h us.length (lineOf (us.map wordOf)) (lineOf (vs.map wordOf))
      (by rw [length_lineOf, List.length_map]) (by rw [length_lineOf, List.length_map, hsame])
      (by rw [hout, hout, toBits_inj (hbits us) (hbits vs) heq])
    have hmap := congrArg (fun l => convertBinary (decomposeData l)) hline
    simp only [convertBinary_lineOf (hwords us), convertBinary_lineOf (hwords vs)] at hmap
    simp only [mem_indices] at hus hvs
    exact map_wordOf_inj hus hvs hmap

/-- **FP-H lines are decodable exactly when every table is empty**, that is, when every field
was sampled with fewer than two values. -/
theorem encode_injective_iff (std : StdOrder) (samples : List (List UInt8)) :
    Determines (genericInit std (sampleLines samples)) ↔
      Constant (fieldValues exp samples) ∧ Constant (fieldValues mh samples) ∧
        Constant (fieldValues ml samples) := by
  rw [genericInit_eq, ← isField_exp.tracker_eq_nil_iff std,
    ← isField_mh.tracker_eq_nil_iff std, ← isField_ml.tracker_eq_nil_iff std]
  constructor
  · intro h
    have hkraft := h.kraft ⟨isField_exp.codeTable.isBin, isField_mh.codeTable.isBin,
      isField_ml.codeTable.isBin⟩
    rw [kraft_encodeWord] at hkraft
    obtain ⟨he, he'⟩ := isField_exp.fieldSum std samples
      (by norm_num [fileSize, expBits])
    obtain ⟨hm, hm'⟩ := isField_mh.fieldSum std samples
      (by norm_num [fileSize, mhBits])
    obtain ⟨hl, hl'⟩ := isField_ml.fieldSum std samples
      (by norm_num [fileSize, mlBits])
    dsimp only at hkraft
    -- a product of factors that are at least 1 stays at 1 only if every factor is 1
    refine ⟨by_contra fun hne => ?_, by_contra fun hne => ?_, by_contra fun hne => ?_⟩
    · have := he' hne
      nlinarith [mul_nonneg (sub_nonneg.2 hm) (sub_nonneg.2 hl)]
    · have := hm' hne
      nlinarith [mul_nonneg (sub_nonneg.2 hm) (sub_nonneg.2 hl)]
    · have := hl' hne
      nlinarith [mul_nonneg (sub_nonneg.2 hm) (sub_nonneg.2 hl)]
  · rintro ⟨he, hm, hl⟩
    rw [he, hm, hl]
    intro m l₁ l₂ h₁ h₂ heq
    rw [encodeLine_raw, encodeLine_raw] at heq
    exact decomposeData_inj h₁ h₂
      (hexToBin_inj (isHex_decomposeData l₁) (isHex_decomposeData l₂) heq)

/-- A sampled line with two exponents: `0` once and `1` twice. -/
def sampledLine : List UInt8 := [0, 0, 0, 0, 0, 0, 128, 0, 0, 0, 128, 0]

/-- After this sample the exponent `1` is sent as the bit 1, and a word with it, followed by
seven words of ones, looks like the same words in another order. -/
theorem two_lines_one_encoding :
    ¬ ∀ (std : StdOrder) (samples : List (List UInt8)),
      Determines (genericInit std (sampleLines samples)) := by
  intro h
  have heq := h StdOrder.stable [sampledLine] 8
    ([255, 255, 255, 128] ++ List.replicate 28 255)
    (List.replicate 4 255 ++ [255, 255, 255, 128] ++ List.replicate 24 255)
    (by decide) (by decide) (by decide +kernel)
  exact absurd heq (by decide)

end CompressionWork.Fph
