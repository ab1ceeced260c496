import CompressionWork.Bdi.Compress

/-!
# Base-delta-immediate compression: what a block does to a packet

`encode_block` in one formula, and the choice of a block among those that apply.

* `Fits` — all chunks have zero high digits or those of the base, which is the first chunk
  whose high digits are not zero.
* `encodeBlock_eq` — the encoding string of a block, when all chunks fit.
* `fits_iff_satisfies` — the choice of the base loses nothing: if any base does, it does.
* `choose_of_first` — `run` takes the first smallest block.
-/

namespace CompressionWork.Bdi

open Codec

/-! ## Lengths -/

theorem length_getBinaryC (b : Str) : (getBinaryC b).2.length = b.length := by
  induction b with
  | nil => rfl
  | cons c b ih =>
      rw [getBinaryC] at ih
      rw [getBinaryC, List.foldr_cons]
      split
      · rw [List.length_cons, List.length_cons, ih]
      · rw [List.length_cons, List.length_cons, ih]

@[simp] theorem length_convertHexa (num : ℤ) (delta : ℕ) :
    (convertHexa num delta).length = delta := by
  have hlen : (if num < 0 then (getBinaryC (getBinary num.natAbs (delta * 4))).2
      else getBinary num.natAbs (delta * 4)).length = 4 * delta := by
    split
    · rw [length_getBinaryC, length_getBinary, Nat.mul_comm]
    · rw [length_getBinary, Nat.mul_comm]
  simp only [convertHexa, List.length_map]
  exact length_chunks (by decide) hlen

/-! ## The parts of a packet -/

/-- The high digits of a chunk: all but the last `delta`. -/
def high (delta : ℕ) (sub : Str) : Str := sub.take (sub.length - delta)

/-- The last `delta` digits of a chunk. -/
def low (delta : ℕ) (sub : Str) : Str := sub.drop (sub.length - delta)

/-- The high digits are zero. -/
def ZeroHigh (delta : ℕ) (sub : Str) : Prop :=
  high delta sub = List.replicate (sub.length - delta) '0'

instance (delta : ℕ) (sub : Str) : Decidable (ZeroHigh delta sub) :=
  inferInstanceAs (Decidable (_ = _))

/-- The difference of the low digits from a base, as `convert_base` writes it. -/
def deltaFrom (delta : ℕ) (baseStr sub : Str) : Str :=
  convertHexa (Int.bmod (getSigned (hexToBin (low delta sub)) +
    Int.bmod (-getSigned (hexToBin baseStr)) (2 ^ 64)) (2 ^ 64)) delta

/-- The part that stands for a chunk under a base. -/
def encPart (delta : ℕ) (baseStr sub : Str) : Str :=
  if ZeroHigh delta sub then '0' :: low delta sub else '1' :: deltaFrom delta baseStr sub

/-- The base: the first chunk whose high digits are not zero. -/
def theBase (base delta : ℕ) (subs : List Str) : Str :=
  (subs.find? fun sub => ¬ ZeroHigh delta sub).getD (List.replicate base '0')

/-- All chunks have zero high digits or those of the base. -/
def Fits (base delta : ℕ) (subs : List Str) : Prop :=
  ∀ sub ∈ subs, ZeroHigh delta sub ∨ high delta sub = high delta (theBase base delta subs)

instance (base delta : ℕ) (subs : List Str) : Decidable (Fits base delta subs) :=
  inferInstanceAs (Decidable (∀ sub ∈ subs, _))

variable {base delta : ℕ}

theorem zeroDiff_zeros {sub : Str} (h : sub.length = base) :
    zeroDiff sub (List.replicate base '0') delta =
      if ZeroHigh delta sub then some ('0' :: low delta sub) else none := by
  have hz : (List.replicate base '0').take ((List.replicate base '0').length - delta) =
      List.replicate (sub.length - delta) '0' := by
    rw [List.length_replicate, List.take_replicate, h, Nat.min_eq_left (Nat.sub_le ..)]
  rw [zeroDiff, hz]
  rfl

/-- The part `check_zero` leaves for a chunk. -/
def zeroPart (delta : ℕ) (sub : Str) : Str :=
  if ZeroHigh delta sub then '0' :: low delta sub else '#' :: sub

theorem checkZero_eq {packet : Str} (h : ∀ sub ∈ chunks base packet, sub.length = base) :
    checkZero packet base delta =
      (decide (∀ sub ∈ chunks base packet, ZeroHigh delta sub),
        (chunks base packet).map (zeroPart delta)) := by
  rw [checkZero]
  refine Prod.ext ?_ (List.map_congr_left fun sub hsub => ?_)
  · rw [Bool.eq_iff_iff, List.all_eq_true, decide_eq_true_iff]
    refine forall₂_congr fun sub hsub => ?_
    rw [zeroDiff_zeros (h sub hsub)]
    split <;> simp_all
  · rw [zeroDiff_zeros (h sub hsub), zeroPart]
    split <;> rfl

theorem convertBase_eq {sub baseStr : Str} :
    convertBase sub baseStr delta =
      if high delta sub = high delta baseStr then some (deltaFrom delta baseStr sub) else none := rfl

/-- The loop of `check_base` once the base is set. -/
theorem checkBaseLoop_some (baseStr : Str) (subs : List Str) :
    checkBaseLoop delta (subs.map (zeroPart delta)) (some baseStr) =
      if ∀ sub ∈ subs, ZeroHigh delta sub ∨ high delta sub = high delta baseStr then
        some (subs.map (encPart delta baseStr), some baseStr)
      else none := by
  induction subs with
  | nil => simp [checkBaseLoop]
  | cons sub subs ih =>
      by_cases hz : ZeroHigh delta sub
      · have hpart : zeroPart delta sub = '0' :: low delta sub := if_pos hz
        have henc : encPart delta baseStr sub = '0' :: low delta sub := if_pos hz
        rw [List.map_cons, hpart, checkBaseLoop, if_neg (by simp), ih, List.map_cons, henc]
        by_cases hall : ∀ s ∈ subs, ZeroHigh delta s ∨ high delta s = high delta baseStr
        · rw [if_pos hall, if_pos (by
            intro s hs
            rcases List.mem_cons.1 hs with rfl | hs
            · exact Or.inl hz
            · exact hall s hs)]
          rfl
        · rw [if_neg hall, if_neg fun h => hall fun s hs => h s (List.mem_cons_of_mem _ hs)]
          rfl
      · have hpart : zeroPart delta sub = '#' :: sub := if_neg hz
        have henc : encPart delta baseStr sub = '1' :: deltaFrom delta baseStr sub := if_neg hz
        rw [List.map_cons, hpart, checkBaseLoop, if_pos (by simp), List.map_cons, henc]
        simp only [List.drop_one, List.tail_cons, Option.getD_some]
        rw [convertBase_eq]
        by_cases heq : high delta sub = high delta baseStr
        · rw [if_pos heq, Option.bind_some, ih]
          by_cases hall : ∀ s ∈ subs, ZeroHigh delta s ∨ high delta s = high delta baseStr
          · rw [if_pos hall, if_pos (by
              intro s hs
              rcases List.mem_cons.1 hs with rfl | hs
              · exact Or.inr heq
              · exact hall s hs)]
            rfl
          · rw [if_neg hall, if_neg fun h => hall fun s hs => h s (List.mem_cons_of_mem _ hs)]
            rfl
        · rw [if_neg heq, if_neg fun h => (h sub (List.mem_cons_self ..)).elim hz heq]
          rfl

/-- Until the base is set, the loop only looks for it. -/
theorem checkBaseLoop_none (subs : List Str) :
    checkBaseLoop delta (subs.map (zeroPart delta)) none =
      match subs.find? fun sub => ¬ ZeroHigh delta sub with
      | none => some (subs.map (zeroPart delta), none)
      | some baseStr => checkBaseLoop delta (subs.map (zeroPart delta)) (some baseStr) := by
  induction subs with
  | nil => rfl
  | cons sub subs ih =>
      by_cases hz : ZeroHigh delta sub
      · have hpart : zeroPart delta sub = '0' :: low delta sub := if_pos hz
        rw [List.map_cons, hpart, checkBaseLoop, if_neg (by simp), ih,
          List.find?_cons_of_neg (by simpa using hz)]
        cases hfind : subs.find? fun sub => ¬ ZeroHigh delta sub with
        | none => rfl
        | some baseStr =>
            simp only
            rw [checkBaseLoop, if_neg (by simp)]
      · have hpart : zeroPart delta sub = '#' :: sub := if_neg hz
        rw [List.find?_cons_of_pos (by simpa using hz)]
        simp only
        rw [List.map_cons, hpart, checkBaseLoop, checkBaseLoop]
        rfl

/-- **The encoding string of a block**, when all chunks fit. -/
theorem encodeBlock_eq {packet : Str} {t : Blocker}
    (h : ∀ sub ∈ chunks (t.base * 2) packet, sub.length = t.base * 2) :
    encodeBlock packet t =
      if Fits (t.base * 2) (t.delta * 2) (chunks (t.base * 2) packet) then
        some (t.code ++ theBase (t.base * 2) (t.delta * 2) (chunks (t.base * 2) packet) ++
          ((chunks (t.base * 2) packet).map (encPart (t.delta * 2)
            (theBase (t.base * 2) (t.delta * 2) (chunks (t.base * 2) packet)))).flatten)
      else none := by
  rw [encodeBlock, checkZero_eq h]
  generalize chunks (t.base * 2) packet = subs
  cases hfind : subs.find? fun sub => ¬ ZeroHigh (t.delta * 2) sub with
  | none =>
      have hall : ∀ sub ∈ subs, ZeroHigh (t.delta * 2) sub := by
        intro sub hsub
        simpa using List.find?_eq_none.1 hfind sub hsub
      have hfits : Fits (t.base * 2) (t.delta * 2) subs := fun sub hsub => Or.inl (hall sub hsub)
      have hparts : subs.map (zeroPart (t.delta * 2)) =
          subs.map (encPart (t.delta * 2) (List.replicate (t.base * 2) '0')) := by
        refine List.map_congr_left fun sub hsub => ?_
        rw [zeroPart, encPart, if_pos (hall sub hsub), if_pos (hall sub hsub)]
      have hbase : theBase (t.base * 2) (t.delta * 2) subs = List.replicate (t.base * 2) '0' := by
        rw [theBase, hfind, Option.getD_none]
      rw [if_pos hfits, hbase, decide_eq_true hall, hparts]
  | some baseStr =>
      have hnot : ¬ ∀ sub ∈ subs, ZeroHigh (t.delta * 2) sub := by
        intro hall
        have hb := List.find?_some hfind
        have hmem := List.mem_of_find?_eq_some hfind
        simp only [decide_not, Bool.not_eq_true', decide_eq_false_iff_not] at hb
        exact hb (hall baseStr hmem)
      have hbase : theBase (t.base * 2) (t.delta * 2) subs = baseStr := by
        rw [theBase, hfind, Option.getD_some]
      rw [decide_eq_false hnot]
      simp only [checkBase, checkBaseLoop_none, hfind, checkBaseLoop_some]
      have hiff : Fits (t.base * 2) (t.delta * 2) subs ↔ ∀ sub ∈ subs,
          ZeroHigh (t.delta * 2) sub ∨ high (t.delta * 2) sub = high (t.delta * 2) baseStr := by
        unfold Fits
        rw [hbase]
      rw [hbase]
      by_cases hfits : Fits (t.base * 2) (t.delta * 2) subs
      · rw [if_pos hfits, if_pos (hiff.1 hfits)]
        rfl
      · rw [if_neg hfits, if_neg fun h => hfits (hiff.2 h)]
        rfl

/-! ## Applicability -/

/-- The line has a base for which every chunk is close to zero or to the base. -/
def Satisfies (packet : Str) (base delta : ℕ) : Prop :=
  ∃ b : Str, b.length = base ∧ ∀ sub ∈ chunks base packet,
    sub.take (base - delta) = List.replicate (base - delta) '0' ∨
      sub.take (base - delta) = b.take (base - delta)

theorem length_theBase (delta : ℕ) {subs : List Str} (h : ∀ sub ∈ subs, sub.length = base) :
    (theBase base delta subs).length = base := by
  rw [theBase]
  cases hfind : subs.find? fun sub => ¬ ZeroHigh delta sub with
  | none => rw [Option.getD_none, List.length_replicate]
  | some baseStr => exact h _ (List.mem_of_find?_eq_some hfind)

/-- The first chunk that is not close to zero serves as the base whenever some base does. -/
theorem fits_iff_satisfies {packet : Str} (h : ∀ sub ∈ chunks base packet, sub.length = base) :
    Fits base delta (chunks base packet) ↔ Satisfies packet base delta := by
  have hhigh : ∀ sub : Str, sub.length = base → high delta sub = sub.take (base - delta) := by
    intro sub hsub
    rw [high, hsub]
  constructor
  · intro hfits
    refine ⟨theBase base delta (chunks base packet), length_theBase _ h, fun sub hsub => ?_⟩
    have hsubLen := h sub hsub
    rw [← hhigh sub hsubLen, ← hhigh _ (length_theBase _ h)]
    rcases hfits sub hsub with hz | heq
    · rw [ZeroHigh, hsubLen] at hz
      exact Or.inl hz
    · exact Or.inr heq
  · rintro ⟨b, hb, hall⟩ sub hsub
    have hsubLen := h sub hsub
    by_cases hz : ZeroHigh delta sub
    · exact Or.inl hz
    · right
      have hnot : ∀ s ∈ chunks base packet, ¬ ZeroHigh delta s → high delta s = b.take (base - delta) := by
        intro s hs hsz
        rw [hhigh s (h s hs)]
        refine (hall s hs).resolve_left fun hs0 => hsz ?_
        rw [ZeroHigh, hhigh s (h s hs), h s hs]
        exact hs0
      cases hfind : (chunks base packet).find? fun s => ¬ ZeroHigh delta s with
      | none => exact absurd (List.find?_eq_none.1 hfind sub hsub) (by simpa using hz)
      | some baseStr =>
          have hmem := List.mem_of_find?_eq_some hfind
          have hne := List.find?_some hfind
          simp only [decide_not, Bool.not_eq_true', decide_eq_false_iff_not] at hne
          rw [theBase, hfind, Option.getD_some, hnot sub hsub hz, hnot baseStr hmem hne]

/-! ## Sizes -/

/-- The bits of a block on a packet of `k` chunks of eight bytes. -/
def blockBits (k : ℕ) (t : Blocker) : ℕ :=
  4 + t.base * 8 + k * 8 / t.base * (1 + t.delta * 8)

theorem base_of_mem_tracker {t : Blocker} (h : t ∈ tracker) :
    t.base = 8 ∨ t.base = 4 ∨ t.base = 2 := by
  simp only [tracker, List.mem_cons, List.not_mem_nil, or_false] at h
  rcases h with rfl | rfl | rfl | rfl | rfl | rfl <;> simp

/-- Every base divides eight bytes. -/
theorem length_packet_of_mem {k : ℕ} {packet : Str} (hp : packet.length = 16 * k) {t : Blocker}
    (ht : t ∈ tracker) : packet.length = t.base * 2 * (k * 8 / t.base) := by
  rcases base_of_mem_tracker ht with hb | hb | hb <;> rw [hp, hb] <;> omega

theorem length_of_mem_subs {k : ℕ} {packet : Str} (hp : packet.length = 16 * k) {t : Blocker}
    (ht : t ∈ tracker) : ∀ sub ∈ chunks (t.base * 2) packet, sub.length = t.base * 2 := by
  intro sub hsub
  have hpos : 0 < t.base * 2 := by
    rcases base_of_mem_tracker ht with hb | hb | hb <;> rw [hb] <;> decide
  exact length_of_mem_chunks hpos (length_packet_of_mem hp ht) hsub

theorem length_subs {k : ℕ} {packet : Str} (hp : packet.length = 16 * k) {t : Blocker}
    (ht : t ∈ tracker) : (chunks (t.base * 2) packet).length = k * 8 / t.base := by
  have hpos : 0 < t.base * 2 := by
    rcases base_of_mem_tracker ht with hb | hb | hb <;> rw [hb] <;> decide
  exact length_chunks hpos (length_packet_of_mem hp ht)

theorem length_encPart {baseStr sub : Str} (hd : delta ≤ sub.length) :
    (encPart delta baseStr sub).length = delta + 1 := by
  rw [encPart]
  split
  · rw [List.length_cons, low, List.length_drop]
    omega
  · rw [List.length_cons, deltaFrom, length_convertHexa]

theorem length_flatten_of_forall {α : Type*} {n : ℕ} {ls : List (List α)}
    (h : ∀ l ∈ ls, l.length = n) : ls.flatten.length = ls.length * n := by
  induction ls with
  | nil => simp
  | cons l ls ih =>
      rw [List.flatten_cons, List.length_append, h l (List.mem_cons_self ..),
        ih fun l' hl' => h l' (List.mem_cons_of_mem _ hl'), List.length_cons, Nat.succ_mul]
      omega

theorem code_of_mem_tracker {t : Blocker} (h : t ∈ tracker) :
    t.code.length = 4 ∧ t.delta ≤ t.base ∧ t.code.headD ' ' = '0' ∧
      t.code ≠ ['0', '0', '0', '0'] ∧ t.code ≠ ['0', '0', '0', '1'] := by
  simp only [tracker, List.mem_cons, List.not_mem_nil, or_false] at h
  rcases h with rfl | rfl | rfl | rfl | rfl | rfl <;> decide

theorem div_parts (m d : ℕ) : (m * (d + 1) + d) / (d + 1) = m := by
  rw [Nat.add_comm, Nat.add_mul_div_right _ _ (Nat.succ_pos d), Nat.div_eq_of_lt (Nat.lt_succ_self d),
    Nat.zero_add]

/-- The bits `run` computes for an encoding string are those of its block. -/
theorem compBitSize_encodeBlock {k : ℕ} {packet output : Str} (hp : packet.length = 16 * k)
    {t : Blocker} (ht : t ∈ tracker) (h : encodeBlock packet t = some output) :
    compBitSize output (t.base * 2) (t.delta * 2) = blockBits k t := by
  have hsubs := length_of_mem_subs hp ht
  obtain ⟨hcode, hdb, -⟩ := code_of_mem_tracker ht
  rw [encodeBlock_eq hsubs] at h
  split at h
  · have hparts : ∀ part ∈ (chunks (t.base * 2) packet).map (encPart (t.delta * 2)
        (theBase (t.base * 2) (t.delta * 2) (chunks (t.base * 2) packet))),
        part.length = t.delta * 2 + 1 := by
      intro part hpart
      obtain ⟨sub, hsub, rfl⟩ := List.mem_map.1 hpart
      refine length_encPart ?_
      rw [hsubs sub hsub]
      omega
    have hlen : output.length - (4 + t.base * 2) = k * 8 / t.base * (t.delta * 2 + 1) := by
      rw [← Option.some.inj h, List.length_append, List.length_append, hcode, length_theBase _ hsubs,
        length_flatten_of_forall hparts, List.length_map, length_subs hp ht]
      omega
    rw [compBitSize, hlen, div_parts, blockBits]
    rw [show t.delta * 2 * 4 = t.delta * 8 by omega, show t.base * 2 * 4 = t.base * 8 by omega]
    omega
  · exact absurd h (by simp)

/-! ## The first smallest block -/

/-- `t` is the first smallest one of the blocks with an encoding string. -/
structure IsFirst (k : ℕ) (packet : Str) (t : Blocker) (before after : List Blocker) : Prop where
  split : tracker = before ++ t :: after
  applies : (encodeBlock packet t).isSome
  before_lt : ∀ s ∈ before, (encodeBlock packet s).isSome → blockBits k t < blockBits k s
  after_le : ∀ s ∈ after, (encodeBlock packet s).isSome → blockBits k t ≤ blockBits k s

/-- A list with an element that satisfies `p` has a first one with the smallest weight. -/
theorem exists_first_min {α : Type*} (p : α → Prop) (w : α → ℕ) (l : List α)
    (h : ∃ a ∈ l, p a) : ∃ l₁ a l₂, l = l₁ ++ a :: l₂ ∧ p a ∧
      (∀ b ∈ l₁, p b → w a < w b) ∧ ∀ b ∈ l₂, p b → w a ≤ w b := by
  induction l with
  | nil => simp at h
  | cons x l ih =>
      by_cases hl : ∃ a ∈ l, p a
      · obtain ⟨l₁, a, l₂, hsplit, ha, hlt, hle⟩ := ih hl
        by_cases hx : p x ∧ w x ≤ w a
        · refine ⟨[], x, l, rfl, hx.1, by simp, fun b hb hpb => ?_⟩
          rw [hsplit] at hb
          rcases List.mem_append.1 hb with hb | hb
          · exact le_of_lt (lt_of_le_of_lt hx.2 (hlt b hb hpb))
          · rcases List.mem_cons.1 hb with rfl | hb
            · exact hx.2
            · exact le_trans hx.2 (hle b hb hpb)
        · refine ⟨x :: l₁, a, l₂, by rw [hsplit, List.cons_append], ha, fun b hb hpb => ?_, hle⟩
          rcases List.mem_cons.1 hb with rfl | hb
          · exact lt_of_not_ge fun hge => hx ⟨hpb, hge⟩
          · exact hlt b hb hpb
      · obtain ⟨a, ha, hpa⟩ := h
        rcases List.mem_cons.1 ha with rfl | ha
        · exact ⟨[], a, l, rfl, hpa, by simp, fun b hb hpb => absurd ⟨b, hb, hpb⟩ hl⟩
        · exact absurd ⟨a, ha, hpa⟩ hl

/-- The loop over blocks that do not apply or are not smaller than what has been found. -/
theorem foldl_tryBlock_of_le {k : ℕ} {packet : Str} (hp : packet.length = 16 * k) (ts : List Blocker)
    (hts : ∀ t ∈ ts, t ∈ tracker) (c : Choice) {s : ℕ} (hc : c.newCompBitSize = some s)
    (h : ∀ t ∈ ts, (encodeBlock packet t).isSome → s ≤ blockBits k t) :
    ts.foldl (tryBlock packet) c = c := by
  induction ts with
  | nil => rfl
  | cons t ts ih =>
      have hstep : tryBlock packet c t = c := by
        rw [tryBlock]
        cases henc : encodeBlock packet t with
        | none => rfl
        | some output =>
            have hbits := compBitSize_encodeBlock hp (hts t (List.mem_cons_self ..)) henc
            have hle := h t (List.mem_cons_self ..) (by rw [henc]; rfl)
            simp only [hbits, hc]
            rw [if_neg]
            intro hall
            have hlt := hall s rfl
            omega
      rw [List.foldl_cons, hstep]
      exact ih (fun u hu => hts u (List.mem_cons_of_mem _ hu))
        fun u hu => h u (List.mem_cons_of_mem _ hu)

/-- The loop over blocks that are larger than `b` finds something larger than `b` or nothing. -/
theorem foldl_tryBlock_gt {k b : ℕ} {packet : Str} (hp : packet.length = 16 * k) (ts : List Blocker)
    (hts : ∀ t ∈ ts, t ∈ tracker) (h : ∀ t ∈ ts, (encodeBlock packet t).isSome → b < blockBits k t)
    (c : Choice) (hc : ∀ s ∈ c.newCompBitSize, b < s) :
    ∀ s ∈ (ts.foldl (tryBlock packet) c).newCompBitSize, b < s := by
  induction ts generalizing c with
  | nil => exact hc
  | cons t ts ih =>
      rw [List.foldl_cons]
      refine ih (fun u hu => hts u (List.mem_cons_of_mem _ hu))
        (fun u hu => h u (List.mem_cons_of_mem _ hu)) _ ?_
      rw [tryBlock]
      cases henc : encodeBlock packet t with
      | none => exact hc
      | some output =>
          have hbits := compBitSize_encodeBlock hp (hts t (List.mem_cons_self ..)) henc
          have hlt := h t (List.mem_cons_self ..) (by rw [henc]; rfl)
          simp only [hbits]
          split
          · intro s hs
            rw [← Option.mem_some_iff.1 hs]
            exact hlt
          · exact hc

/-- **The loop takes the first smallest block.** -/
theorem foldl_tryBlock_of_first {k : ℕ} {packet output : Str} (hp : packet.length = 16 * k)
    {t : Blocker} {before after : List Blocker} (h : IsFirst k packet t before after)
    (henc : encodeBlock packet t = some output) :
    tracker.foldl (tryBlock packet) ⟨[], none, 0, 0⟩ =
      ⟨output, some (blockBits k t), t.base * 2, t.delta * 2⟩ := by
  have hmem : ∀ s, s ∈ before ∨ s = t ∨ s ∈ after → s ∈ tracker := by
    intro s hs
    rw [h.split, List.mem_append, List.mem_cons]
    tauto
  have hgt := foldl_tryBlock_gt hp before (fun s hs => hmem s (Or.inl hs)) h.before_lt
    ⟨[], none, 0, 0⟩ (by simp)
  have hbits := compBitSize_encodeBlock hp (hmem t (Or.inr (Or.inl rfl))) henc
  have hstep : tryBlock packet (before.foldl (tryBlock packet) ⟨[], none, 0, 0⟩) t =
      ⟨output, some (blockBits k t), t.base * 2, t.delta * 2⟩ := by
    rw [tryBlock, henc]
    simp only [hbits]
    rw [if_pos hgt]
  rw [h.split, List.foldl_append, List.foldl_cons, hstep]
  exact foldl_tryBlock_of_le hp after (fun s hs => hmem s (Or.inr (Or.inr hs))) _ rfl h.after_le

/-- Without a block that applies, the loop finds nothing. -/
theorem foldl_tryBlock_none {packet : Str} (ts : List Blocker) (c : Choice)
    (h : ∀ t ∈ ts, encodeBlock packet t = none) : ts.foldl (tryBlock packet) c = c := by
  induction ts with
  | nil => rfl
  | cons t ts ih =>
      have hstep : tryBlock packet c t = c := by
        rw [tryBlock, h t (List.mem_cons_self ..)]
      rw [List.foldl_cons, hstep]
      exact ih fun u hu => h u (List.mem_cons_of_mem _ hu)

/-- The four ways `run` can go. -/
theorem choose_of_first {k : ℕ} {packet output : Str} (hp : packet.length = 16 * k)
    (hz : ¬ allZeroCheck packet) (hr : ¬ allSameVal packet) {t : Blocker}
    {before after : List Blocker} (h : IsFirst k packet t before after)
    (henc : encodeBlock packet t = some output) :
    choose packet = ⟨output, some (blockBits k t), t.base * 2, t.delta * 2⟩ := by
  rw [choose, if_neg hz, if_neg hr]
  simp only [foldl_tryBlock_of_first hp h henc]
  rw [if_neg (by simp)]

theorem choose_of_none {packet : Str} (hz : ¬ allZeroCheck packet) (hr : ¬ allSameVal packet)
    (h : ∀ t ∈ tracker, encodeBlock packet t = none) :
    choose packet = ⟨['1', '1', '1', '1'] ++ packet, some (4 + packet.length * 4), 0, 0⟩ := by
  rw [choose, if_neg hz, if_neg hr]
  simp only [foldl_tryBlock_none tracker _ h, if_pos]

theorem exists_isFirst {packet : Str} (k : ℕ) (h : ∃ t ∈ tracker, (encodeBlock packet t).isSome) :
    ∃ t before after, t ∈ tracker ∧ IsFirst k packet t before after := by
  obtain ⟨before, t, after, hsplit, ha, hlt, hle⟩ :=
    exists_first_min (fun t => (encodeBlock packet t).isSome) (blockBits k) tracker h
  refine ⟨t, before, after, ?_, hsplit, ha, hlt, hle⟩
  rw [hsplit]
  simp

end CompressionWork.Bdi
