import CompressionWork.Codec.Huffman
import CompressionWork.Dsc.Code
import Mathlib

/-!
# The sizes reported for compressed lines

Sizes in bits belong to a code that can be decoded when they satisfy Kraft's inequality.  The
header says whether a line is compressed, and not at which resolution or from which form of
the data; so the sizes are attainable when there is one resolution and one form to choose from.

* `KraftHolds` — the sizes reported for the lines of `n` bytes satisfy Kraft's inequality.
* `OneChoice` — there is one resolution, which divides the line, and one form of the data, from
  which the line can be recovered.
* `kraft_of_oneChoice` — then a prefix code has the reported sizes.
* `kraft_fails_twoResolutions` — with lines of 32 bytes and the resolutions 16 and 32 no code has.
-/

namespace CompressionWork.Dsc

open Codec Remap

/-- `cache_data` for a line: the line, and its remapped forms. -/
def views (types : List (List UInt8 → View)) (line : List UInt8) : List View :=
  ⟨line, 0⟩ :: types.map fun t => t line

/-- **Kraft's inequality** for the sizes reported for the lines of `n` bytes. -/
def KraftHolds (cfg : Config) (n : ℕ) (types : List (List UInt8 → View)) : Prop :=
  ∃ size : (Fin n → UInt8) → ℕ,
    (∀ x, (run cfg (views types (List.ofFn x))).map Report.compDataBits = some (size x)) ∧
      ∑ x, kraftTerm (size x) ≤ 1

/-- The lines of `n` bytes come back from a form of the data and a bit string that fits the bits
counted for the remapping. -/
def Recoverable (cfg : Config) (n dataType : ℕ) (view : List UInt8 → View) : Prop :=
  (∀ line, line.length = n → (view line).data.length = n) ∧
    ∃ side : List UInt8 → List Bool,
      (∀ line, line.length = n → (side line).length ≤ opBits cfg dataType (view line)) ∧
        ∀ s t, s.length = n → t.length = n → (view s).data = (view t).data →
          side s <+: side t → s = t

/-- Nothing is left to choose. -/
structure OneChoice (cfg : Config) (n : ℕ) (types : List (List UInt8 → View)) : Prop where
  res_pos : 0 < cfg.minDsSize
  dvd : cfg.minDsSize ∣ n
  oneRes : n < cfg.minDsSize * 2 ∨ cfg.maxDsSize < cfg.minDsSize * 2
  room : cfg.dyn = true →
    cfg.minDsSize ≤ 128 ∧ n / cfg.minDsSize ≤ 2 * 2 ^ Nat.clog 2 (128 / cfg.minDsSize)
  oneType : (cfg.remapDataUseOnly = false ∧ types = []) ∨
    (cfg.remapDataUseOnly = true ∧ ∃ t, types = [t] ∧ Recoverable cfg n 1 t)

/-! ## What is reported -/

/-- The size reported when `compBits` is the least one. -/
def reported (n compBits : ℕ) : ℕ := if compBits > n * 8 then n * 8 + 1 else compBits

variable {cfg : Config} {n : ℕ} {types : List (List UInt8 → View)}

/-- The bits of a line at one resolution. -/
theorem runDsComp_compBits {r field dataType : ℕ} (hr : 0 < r)
    (hfield : fieldBits cfg r = some field) (view : View) :
    (runDsComp cfg r dataType view).map DsComp.compBits =
      some (1 + bodyBits cfg r field view.data + opBits cfg dataType view) := by
  rw [runDsComp, if_neg (Nat.ne_of_gt hr), hfield]
  simp only [Option.map_some, Option.some.injEq, bodyBits, statusBits, List.length_map]
  cases hdyn : cfg.dyn with
  | true =>
      have hbits : segBits cfg r = dataBits cfg r := funext fun seg => by simp [segBits, hdyn]
      simp only [if_true, hbits]
      omega
  | false =>
      have hzero : field = 0 := by
        rw [fieldBits, hdyn, if_neg (by decide)] at hfield
        exact (Option.some.inj hfield).symm
      have hsum : ((segments r view.data).map (segBits cfg r)).sum =
          ((segments r view.data).map (dataBits cfg r)).sum + (segments r view.data).length := by
        have hbits : segBits cfg r = fun seg => dataBits cfg r seg + 1 := funext fun seg => by
          rw [segBits, hdyn, if_neg (by decide), Nat.add_comm]
        rw [hbits, List.sum_map_add, List.map_const', List.sum_replicate, smul_eq_mul, Nat.mul_one]
      simp only [hsum, hzero, Bool.false_eq_true, if_false]
      omega

theorem dscResCandi_of_oneRes (h : n < cfg.minDsSize * 2 ∨ cfg.maxDsSize < cfg.minDsSize * 2) :
    dscResCandi cfg n = [cfg.minDsSize] := by
  rw [dscResCandi, doublings, if_pos (Or.inr h)]

/-- One form of the data at one resolution. -/
theorem bestRes_single {r field dataType : ℕ} (hr : 0 < r) (hfield : fieldBits cfg r = some field)
    (view : View) : ∃ b, bestRes cfg [r] dataType view = some b ∧
      b.compDataBits = 1 + bodyBits cfg r field view.data + opBits cfg dataType view := by
  have hrun := @runDsComp_compBits cfg _ _ dataType hr hfield view
  obtain ⟨c, hc, hbits⟩ := Option.map_eq_some_iff.1 hrun
  refine ⟨⟨c.compBits, r, dataType, c.compDataBitsOnly⟩, ?_, hbits⟩
  simp [bestRes, hc]

theorem OneChoice.fieldBits (h : OneChoice cfg n types) :
    ∃ field, fieldBits cfg cfg.minDsSize = some field ∧
      (cfg.dyn = true → n / cfg.minDsSize ≤ 2 * 2 ^ field) := by
  cases hdyn : cfg.dyn with
  | false => exact ⟨0, by simp [Dsc.fieldBits, hdyn], by simp⟩
  | true =>
      obtain ⟨hle, hroom⟩ := h.room hdyn
      have hdiv : 128 / cfg.minDsSize ≠ 0 := Nat.ne_of_gt (Nat.div_pos hle h.res_pos)
      exact ⟨_, by rw [Dsc.fieldBits, hdyn, if_pos rfl, maxDsNoBitNo, if_neg hdiv], fun _ => hroom⟩

/-- The line itself comes back. -/
theorem recoverable_org (cfg : Config) (n : ℕ) : Recoverable cfg n 0 fun line => ⟨line, 0⟩ :=
  ⟨fun _ h => h, fun _ => [], fun _ _ => Nat.zero_le _, fun _ _ _ _ h _ => h⟩

/-- With one choice the size of that choice is reported. -/
theorem OneChoice.run (h : OneChoice cfg n types) (hn : 0 < n) {field : ℕ}
    (hfield : Dsc.fieldBits cfg cfg.minDsSize = some field) :
    ∃ dataType view, Recoverable cfg n dataType view ∧ ∀ line, line.length = n →
      (run cfg (views types line)).map Report.compDataBits =
        some (reported n (1 + bodyBits cfg cfg.minDsSize field (view line).data +
          opBits cfg dataType (view line))) := by
  have hreport : ∀ (line : List UInt8) (dataType : ℕ) (view : View), line.length = n →
      (((⟨line, 0⟩ : View), 0) :: (types.map fun t => t line).zipIdx 1).drop
        (if cfg.remapDataUseOnly then 1 else 0) = [(view, dataType)] →
      (Dsc.run cfg (views types line)).map Report.compDataBits =
        some (reported n (1 + bodyBits cfg cfg.minDsSize field view.data +
          opBits cfg dataType view)) := by
    intro line dataType view hlen htried
    obtain ⟨b, hb, hbits⟩ := @bestRes_single cfg _ _ dataType h.res_pos hfield view
    have hne : n ≠ 0 := Nat.ne_of_gt hn
    simp only [Dsc.run, views, hlen, hne, if_false, List.zipIdx_cons, Nat.zero_add, htried,
      dscResCandi_of_oneRes h.oneRes, List.mapM_cons, List.mapM_nil, hb]
    simp only [bestView, reported, ← hbits, Option.pure_def, Option.bind_eq_bind, Option.bind_some,
      Option.map_some, List.foldl_cons, List.foldl_nil, true_or, if_true]
    split <;> rfl
  rcases h.oneType with ⟨huse, rfl⟩ | ⟨huse, t, rfl, ht⟩
  · exact ⟨0, _, recoverable_org cfg n, fun line hlen => hreport line _ _ hlen (by simp [huse])⟩
  · exact ⟨1, t, ht, fun line hlen => hreport line _ _ hlen (by simp [huse])⟩

/-! ## The code -/

/-- When no segment is encoded there is nothing to gain. -/
theorem le_bodyBits {r m field : ℕ} {data : List UInt8} (hr : 0 < r) (h : data.length = r * m)
    (hzero : encodedUpTo ((segments r data).map (isCompressed cfg)) = 0) :
    r * m * 8 ≤ bodyBits cfg r field data := by
  have hraw : ∀ seg ∈ segments r data, dataBits cfg r seg = r * 8 := by
    intro seg hseg
    rw [dataBits, encodedUpTo_eq_zero hzero _ (List.mem_map_of_mem hseg), if_neg (by decide)]
  rw [bodyBits, List.map_congr_left hraw, List.map_const', List.sum_replicate,
    length_segments hr h, smul_eq_mul, Nat.mul_comm r m, Nat.mul_assoc]
  exact Nat.le_add_left _ _

section
variable (cfg : Config) (n field : ℕ) (view : List UInt8 → View) (dataType : ℕ)
  (side : List UInt8 → List Bool)

/-- The size of a line that is compressed. -/
def compBits (line : List UInt8) : ℕ :=
  1 + bodyBits cfg cfg.minDsSize field (view line).data + opBits cfg dataType (view line)

/-- The codeword of a line: a header, and the body with what undoes the remapping, or all bytes. -/
def codeword (line : List UInt8) : List Bool :=
  [decide (compBits cfg field view dataType line ≤ n * 8)] ++
    if compBits cfg field view dataType line ≤ n * 8 then
      body cfg cfg.minDsSize field (view line).data ++ side line
    else rawBits line

end

section
variable {field dataType : ℕ} {view : List UInt8 → View} {side : List UInt8 → List Bool}

theorem mem_lines (hview : ∀ line, line.length = n → (view line).data.length = n)
    (hpos : 0 < cfg.minDsSize) (hdvd : cfg.minDsSize ∣ n) {line : List UInt8}
    (hlen : line.length = n) (hfit : compBits cfg field view dataType line ≤ n * 8) :
    (view line).data ∈ Lines cfg cfg.minDsSize (n / cfg.minDsSize) := by
  have hmul : cfg.minDsSize * (n / cfg.minDsSize) = n := Nat.mul_div_cancel' hdvd
  refine ⟨by rw [hview line hlen, hmul], fun _ => Nat.pos_of_ne_zero fun hzero => ?_⟩
  have hle := @le_bodyBits cfg _ _ field _ hpos ((hview line hlen).trans hmul.symm) hzero
  rw [hmul] at hle
  rw [compBits] at hfit
  omega

theorem length_codeword_le (hview : ∀ line, line.length = n → (view line).data.length = n)
    (hside : ∀ line, line.length = n → (side line).length ≤ opBits cfg dataType (view line))
    (hpos : 0 < cfg.minDsSize) (hdvd : cfg.minDsSize ∣ n) {line : List UInt8}
    (hlen : line.length = n) :
    (codeword cfg n field view dataType side line).length ≤
      reported n (compBits cfg field view dataType line) := by
  rw [codeword, reported, List.length_append, List.length_singleton]
  by_cases hfit : compBits cfg field view dataType line ≤ n * 8
  · have hbody := @length_body cfg _ _ _ field hpos (mem_lines hview hpos hdvd hlen hfit)
    have hside := hside line hlen
    rw [if_pos hfit, if_neg (Nat.not_lt.2 hfit), List.length_append, hbody, compBits]
    omega
  · rw [if_neg hfit, if_pos (Nat.lt_of_not_le hfit), length_rawBits, hlen, Nat.add_comm]

/-- **No codeword starts another one.** -/
theorem codeword_prefixFree (hview : ∀ line, line.length = n → (view line).data.length = n)
    (hinj : ∀ s t, s.length = n → t.length = n → (view s).data = (view t).data →
      side s <+: side t → s = t)
    (hpos : 0 < cfg.minDsSize) (hdvd : cfg.minDsSize ∣ n)
    (hroom : cfg.dyn = true → n / cfg.minDsSize ≤ 2 * 2 ^ field) :
    PrefixFree (codeword cfg n field view dataType side) {line | line.length = n} := by
  refine PrefixFree.append (π := fun line => decide (compBits cfg field view dataType line ≤ n * 8))
    (c := fun flag => [flag]) ?_ ?_
  · exact .of_length (fun _ _ _ _ => rfl) fun _ _ _ _ h => (List.cons.inj h).1
  · intro s hs t ht hflag hpre
    by_cases hfit : compBits cfg field view dataType s ≤ n * 8
    · have hfit' := of_decide_eq_true (hflag ▸ decide_eq_true hfit)
      rw [if_pos hfit, if_pos hfit'] at hpre
      -- the data can be split off, and the rest gives the line
      have hfree : PrefixFree (fun line => body cfg cfg.minDsSize field (view line).data ++ side line)
          {line | line.length = n ∧ compBits cfg field view dataType line ≤ n * 8} := by
        refine PrefixFree.append (π := fun line => (view line).data)
          (c := body cfg cfg.minDsSize field) ?_ ?_
        · refine (body_prefixFree hpos hroom).subset ?_
          rintro data ⟨line, ⟨hlen, hle⟩, rfl⟩
          exact mem_lines hview hpos hdvd hlen hle
        · rintro s ⟨hs, -⟩ t ⟨ht, -⟩ hdata hside
          exact hinj s t hs ht hdata hside
      exact hfree s ⟨hs, hfit⟩ t ⟨ht, hfit'⟩ hpre
    · have hfit' := of_decide_eq_false (hflag ▸ decide_eq_false hfit)
      rw [if_neg hfit, if_neg hfit'] at hpre
      exact rawBits_prefix_inj (hs.trans ht.symm) hpre

end

/-- **The sizes are attainable when nothing is left to choose.** -/
theorem kraft_of_oneChoice (hn : 0 < n) (h : OneChoice cfg n types) :
    KraftHolds cfg n types := by
  obtain ⟨field, hfield, hroom⟩ := h.fieldBits
  obtain ⟨dataType, view, ⟨hview, side, hside, hinj⟩, hrun⟩ := h.run hn hfield
  refine ⟨fun x => reported n (compBits cfg field view dataType (List.ofFn x)),
    fun x => hrun _ List.length_ofFn, ?_⟩
  have hfree : PrefixFree (fun x : Fin n → UInt8 =>
      codeword cfg n field view dataType side (List.ofFn x))
      ((Finset.univ : Finset (Fin n → UInt8)) : Set (Fin n → UInt8)) :=
    fun x _ y _ hpre => List.ofFn_injective <|
      codeword_prefixFree hview hinj h.res_pos h.dvd hroom _ List.length_ofFn _ List.length_ofFn hpre
  refine le_trans (Finset.sum_le_sum fun x _ => ?_) hfree.kraft_le_one
  exact pow_le_pow_of_le_one (by norm_num) (by norm_num)
    (length_codeword_le hview hside h.res_pos h.dvd List.length_ofFn)

/-- The compressed and the uncompressed lines of 128 bytes at a resolution of 32. -/
theorem kraft_of_oneChoice_thirtyTwo :
    KraftHolds ⟨.dataSegMatching2, 32, 32, true, false, false⟩ 128 [] :=
  kraft_of_oneChoice (by decide)
    ⟨by decide, by decide, Or.inr (by decide), fun _ => ⟨by decide, by decide⟩,
      Or.inl ⟨rfl, rfl⟩⟩

/-! ## A choice that is not paid for -/

/-- The resolutions are 16 and 32, and a line of 32 bytes has two halves. -/
def twoRes : Config := ⟨.dataSegMatching, 16, 32, false, false, false⟩

/-- A byte of two equal nibbles. -/
def sameNibs (b : UInt8) : Bool := highNib b == lowNib b

/-- A half that is replaced by a code at the resolution 16. -/
def replaced (a : Fin 16 → UInt8) : Bool := isCompressed twoRes (List.ofFn a)

/-- `2 ^ 257` divided by `2` to the size reported. -/
def weight (a b : Fin 16 → UInt8) : ℕ :=
  if replaced a then
    2 ^ 122 + (if replaced b then 2 ^ 246 - 2 ^ 122 else 0) + (if b = a then 2 ^ 251 - 2 ^ 246 else 0)
  else 1 + if replaced b then 2 ^ 122 - 1 else 0

theorem doublings_thirtyTwo : doublings 32 32 (16 * 2) = [32] := by
  rw [doublings, if_neg (by decide), doublings, if_pos (by decide)]

theorem isCompressed_twoRes_iff {seg : List UInt8} :
    isCompressed twoRes seg = true ↔ ∃ c, sameNibs c = true ∧ seg = List.replicate seg.length c := by
  have hdef : isCompressed twoRes seg = (isAllByteSame seg && sameNibs (seg.headD 0)) := rfl
  rw [hdef, Bool.and_eq_true]
  constructor
  · rintro ⟨hall, hnibs⟩
    exact ⟨_, hnibs, eq_replicate_of_isAllByteSame hall⟩
  · rintro ⟨c, hc, hseg⟩
    cases hlen : seg.length with
    | zero =>
        rw [List.length_eq_zero_iff.1 hlen]
        exact ⟨rfl, rfl⟩
    | succ n =>
        rw [hseg, hlen, List.replicate_succ]
        exact ⟨by simp [isAllByteSame], hc⟩

/-- A line is one segment of equal bytes when its halves are the same such segment. -/
theorem isCompressed_append {a b : List UInt8} (hlen : a.length = b.length) :
    isCompressed twoRes (a ++ b) = (isCompressed twoRes a && decide (a = b)) := by
  rw [Bool.eq_iff_iff, Bool.and_eq_true, decide_eq_true_iff, isCompressed_twoRes_iff,
    isCompressed_twoRes_iff]
  constructor
  · rintro ⟨c, hc, hseg⟩
    rw [List.length_append, ← List.replicate_append_replicate] at hseg
    obtain ⟨ha, hb⟩ := List.append_inj hseg (by simp)
    exact ⟨⟨c, hc, ha⟩, by rw [ha, hb, hlen]⟩
  · rintro ⟨⟨c, hc, ha⟩, rfl⟩
    refine ⟨c, hc, ?_⟩
    rw [List.length_append, ← List.replicate_append_replicate, ← ha]

/-- The sizes of lines of 32 bytes. -/
theorem run_twoRes {a b : List UInt8} (ha : a.length = 16) (hb : b.length = 16) :
    (run twoRes (views [] (a ++ b))).map Report.compDataBits =
      some (if isCompressed twoRes a ∧ isCompressed twoRes b then (if a = b then 6 else 11)
        else if isCompressed twoRes a ∨ isCompressed twoRes b then 135 else 257) := by
  have hlength : (a ++ b).length = 32 := by rw [List.length_append, ha, hb]
  have hcandi : dscResCandi twoRes 32 = [16, 32] := by
    rw [dscResCandi, twoRes, doublings_thirtyTwo]
  have hfirst : segments 16 (a ++ b) = [a, b] := by
    rw [segments, hlength]
    simp [List.range_succ, ha, hb, List.take_of_length_le]
  have hsecond : segments 32 (a ++ b) = [a ++ b] := by
    rw [segments, hlength]
    simp [List.take_of_length_le, hlength]
  have hseg : ∀ res seg, segBits twoRes res seg =
      (if isCompressed twoRes seg then 4 else res * 8) + 1 := fun _ _ => rfl
  have hrun : ∀ res, res ≠ 0 → ∃ c, runDsComp twoRes res 0 ⟨a ++ b, 0⟩ = some c ∧
      c.compBits = 1 + ((segments res (a ++ b)).map (segBits twoRes res)).sum := by
    intro res hres
    exact ⟨_, by rw [runDsComp, if_neg hres]; rfl, rfl⟩
  obtain ⟨c₁, hc₁, hbits₁⟩ := hrun 16 (by decide)
  obtain ⟨c₂, hc₂, hbits₂⟩ := hrun 32 (by decide)
  rw [hfirst, List.map_cons, List.map_cons, List.map_nil, hseg, hseg] at hbits₁
  rw [hsecond, List.map_cons, List.map_nil, hseg, isCompressed_append (ha.trans hb.symm)] at hbits₂
  have hbest : bestRes twoRes [16, 32] 0 ⟨a ++ b, 0⟩ =
      some (if c₂.compBits < c₁.compBits then ⟨c₂.compBits, 32, 0, c₂.compDataBitsOnly⟩
        else ⟨c₁.compBits, 16, 0, c₁.compDataBitsOnly⟩) := by
    simp [bestRes, hc₁, hc₂]
  have hstart : (if twoRes.remapDataUseOnly = true then 1 else 0) = 0 := rfl
  simp only [Dsc.run, views, List.map_nil, hlength, hcandi, List.zipIdx_cons, List.zipIdx_nil, hstart,
    List.drop_zero, List.mapM_cons, List.mapM_nil, hbest, Option.pure_def, Option.bind_eq_bind,
    Option.bind_some, Option.map_some, bestView, List.foldl_cons, List.foldl_nil, true_or, if_true]
  by_cases hab : a = b
  · subst hab
    cases hs : isCompressed twoRes a <;> simp [hs] at hbits₁ hbits₂ ⊢ <;> simp [hbits₁, hbits₂]
  · cases hga : isCompressed twoRes a <;> cases hgb : isCompressed twoRes b <;>
      simp [hga, hgb, hab] at hbits₁ hbits₂ ⊢ <;> simp [hbits₁, hbits₂]

theorem card_replaced : (Finset.univ.filter fun a => replaced a = true).card = 16 := by
  have himage : (Finset.univ.filter fun a => replaced a = true) =
      (Finset.univ.filter fun c : UInt8 => sameNibs c = true).image (Function.const (Fin 16)) := by
    ext a
    simp only [Finset.mem_filter, Finset.mem_univ, true_and, Finset.mem_image, replaced,
      isCompressed_twoRes_iff, List.length_ofFn]
    refine exists_congr fun c => and_congr_right fun _ => ?_
    rw [← List.ofFn_const, List.ofFn_inj, eq_comm]
    rfl
  rw [himage, Finset.card_image_of_injective _ Function.const_injective]
  decide +kernel

/-- A sum over pairs whose terms depend on a property of each one and on whether they are equal. -/
theorem sum_pairs {A : Type} [Fintype A] [DecidableEq A] (g : A → Bool) (u v w x y : ℕ) :
    (∑ a, ∑ b, if g a then u + (if g b then v else 0) + (if b = a then w else 0)
      else x + if g b then y else 0) =
      (Finset.univ.filter fun a => g a = true).card *
          (Fintype.card A * u + (Finset.univ.filter fun a => g a = true).card * v + w) +
        (Fintype.card A - (Finset.univ.filter fun a => g a = true).card) *
          (Fintype.card A * x + (Finset.univ.filter fun a => g a = true).card * y) := by
  have hrow : ∀ a : A, (∑ b, if g a then u + (if g b then v else 0) + (if b = a then w else 0)
      else x + if g b then y else 0) =
      if g a then Fintype.card A * u + (Finset.univ.filter fun a => g a = true).card * v + w
      else Fintype.card A * x + (Finset.univ.filter fun a => g a = true).card * y := by
    intro a
    split
    · rw [Finset.sum_add_distrib, Finset.sum_add_distrib, Finset.sum_ite_eq', ← Finset.sum_filter,
        Finset.sum_const, Finset.sum_const, if_pos (Finset.mem_univ a), Finset.card_univ, smul_eq_mul,
        smul_eq_mul]
    · rw [Finset.sum_add_distrib, ← Finset.sum_filter, Finset.sum_const, Finset.sum_const,
        Finset.card_univ, smul_eq_mul, smul_eq_mul]
  rw [Finset.sum_congr rfl fun a _ => hrow a, Finset.sum_ite, Finset.sum_const, Finset.sum_const,
    Finset.filter_not, Finset.card_sdiff_of_subset (Finset.filter_subset _ _), Finset.card_univ,
    smul_eq_mul, smul_eq_mul]

theorem sum_weight : ∑ a, ∑ b, weight a b =
    16 * (2 ^ 128 * 2 ^ 122 + 16 * (2 ^ 246 - 2 ^ 122) + (2 ^ 251 - 2 ^ 246)) +
      (2 ^ 128 - 16) * (2 ^ 128 * 1 + 16 * (2 ^ 122 - 1)) := by
  have hhalves : Fintype.card (Fin 16 → UInt8) = 2 ^ 128 := by
    have hbytes : Fintype.card UInt8 = 256 := by decide +kernel
    rw [Fintype.card_fun, hbytes, Fintype.card_fin]
    norm_num
  have hsum := sum_pairs replaced (2 ^ 122) (2 ^ 246 - 2 ^ 122) (2 ^ 251 - 2 ^ 246) 1 (2 ^ 122 - 1)
  rw [card_replaced, hhalves] at hsum
  exact hsum

/-- **Two resolutions are not paid for.** -/
theorem kraft_fails_twoResolutions :
    ¬ ∀ (cfg : Config) (n : ℕ) (types : List (List UInt8 → View)), 0 < n →
      (∀ res ∈ dscResCandi cfg n, 0 < res ∧ res ∣ n) → KraftHolds cfg n types := by
  intro h
  obtain ⟨size, hsize, hsum⟩ := h twoRes (16 + 16) [] (by decide) (by
    rw [dscResCandi, twoRes, doublings_thirtyTwo]
    decide)
  have hsplit : (1 / 2 : ℝ) ^ 257 = (1 / 2) ^ 128 * (1 / 2) ^ 129 := pow_add _ 128 129
  have hterm : ∀ p : (Fin 16 → UInt8) × (Fin 16 → UInt8),
      (1 / 2 : ℝ) ^ size (Fin.append p.1 p.2) = (weight p.1 p.2 : ℝ) * (1 / 2) ^ 257 := by
    rintro ⟨a, b⟩
    have hx := hsize (Fin.append a b)
    rw [List.ofFn_fin_append, run_twoRes List.length_ofFn List.length_ofFn] at hx
    have hsame : List.ofFn a = List.ofFn b ↔ b = a := List.ofFn_inj.trans eq_comm
    have hreplaced : ∀ c : Fin 16 → UInt8, isCompressed twoRes (List.ofFn c) = replaced c := fun _ => rfl
    rw [← Option.some.inj hx, weight]
    simp only [hsame, hreplaced]
    by_cases hba : b = a
    · rw [hba]
      cases replaced a <;> norm_num [hsplit]
    · simp only [hba, if_false]
      cases replaced a <;> cases replaced b <;> norm_num [hsplit]
  have htotal : ∑ x : Fin (16 + 16) → UInt8, (1 / 2 : ℝ) ^ size x =
      ((∑ a, ∑ b, weight a b : ℕ) : ℝ) * (1 / 2) ^ 257 := by
    rw [← (Fin.appendEquiv 16 16).sum_comp]
    refine (Finset.sum_congr rfl fun p _ => hterm p).trans ?_
    rw [← Finset.sum_mul, Fintype.sum_prod_type]
    push_cast
    rfl
  have hle := htotal.symm.trans_le hsum
  rw [sum_weight, hsplit] at hle
  norm_num at hle

end CompressionWork.Dsc
