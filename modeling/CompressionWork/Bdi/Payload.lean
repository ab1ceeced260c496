import CompressionWork.Bdi.Fields
import Mathlib.Data.Finset.Card
import Mathlib.Data.Finset.Image

/-!
# Base-delta-immediate compression: what the payload tells about a line

The last branch of `convert_output` fills every byte with one bit of the encoding, and the
branch of the repeated value does not write the value, so the payload seldom tells the line.

* `exists_other_block` — a line under a block has a neighbour with the same result: one byte
  of a delta can be changed.
* `exists_other_same` — all lines with one repeated value that is not zero have one payload.
* `recoverable_iff` — the payload tells the line exactly when the line is all zero or is kept
  as it is.
-/

namespace CompressionWork.Bdi

open Codec

/-! ## Lines for packets -/

/-- Every packet of whole words is the packet of a line. -/
theorem exists_line : ∀ {m : ℕ} {packet : Str}, packet.length = 8 * m → IsHex packet →
    ∃ line : List UInt8, line.length = 4 * m ∧ decomposeData line = packet
  | 0, packet, hp, _ => by
      have hnil := List.eq_nil_of_length_eq_zero hp
      exact ⟨[], rfl, by rw [hnil]; rfl⟩
  | m + 1, packet, hp, hhex => by
      have hdrop : (packet.drop 8).length = 8 * m := by rw [List.length_drop]; omega
      obtain ⟨line, hline, hdec⟩ := exists_line hdrop (hhex.drop 8)
      have hword : (packet.take 8).length = 8 := by rw [List.length_take]; omega
      have hdig : ∀ d ∈ (packet.take 8).map hexVal, d < 16 := by
        intro d hd
        obtain ⟨c, hc, rfl⟩ := List.mem_map.1 hd
        exact hexVal_lt (hhex.take 8 c hc)
      have hlt := value_lt hdig
      rw [List.length_map, hword] at hlt
      have hback : intToHex (value 16 ((packet.take 8).map hexVal)) = packet.take 8 := by
        have h := digits_value hdig
        rw [List.length_map, hword] at h
        rw [intToHex, h, List.map_map]
        refine (List.map_congr_left fun c hc => ?_).trans (List.map_id _)
        exact hexDigit_hexVal (hhex.take 8 c hc)
      generalize value 16 ((packet.take 8).map hexVal) = v at hlt hback
      refine ⟨UInt8.ofNat (v % 256) :: UInt8.ofNat (v / 256 % 256) ::
        UInt8.ofNat (v / 65536 % 256) :: UInt8.ofNat (v / 16777216) :: line, ?_, ?_⟩
      · simp only [List.length_cons]
        omega
      · have hbyte : ∀ b < 256, (UInt8.ofNat b).toNat = b := by
          intro b hb
          rw [UInt8.toNat_ofNat', Nat.mod_eq_of_lt hb]
        rw [decomposeData, hbyte _ (by omega), hbyte _ (by omega), hbyte _ (by omega),
          hbyte _ (by omega), hdec, show v % 256 + v / 256 % 256 * 2 ^ 8 +
            v / 65536 % 256 * 2 ^ 16 + v / 16777216 * 2 ^ 24 = v by omega, hback,
          List.take_append_drop]

/-! ## A packet with one free byte -/

/-- The packet with a byte `n` between two pieces. -/
def withByte (pre post : Str) (n : ℕ) : Str := pre ++ byteHex n ++ post

@[simp] theorem length_byteHex (n : ℕ) : (byteHex n).length = 2 := rfl

@[simp] theorem length_withByte (pre post : Str) (n : ℕ) :
    (withByte pre post n).length = pre.length + 2 + post.length := by
  rw [withByte, List.length_append, List.length_append, length_byteHex]

theorem withByte_inj {pre post : Str} {m n : ℕ} (hm : m < 256) (hn : n < 256)
    (h : withByte pre post m = withByte pre post n) : m = n := by
  rw [withByte, withByte, List.append_left_inj, List.append_right_inj] at h
  exact byteHex_inj hm hn h

/-- The chunks of a packet with a free byte: one of them has it. -/
theorem exists_chunks {base m : ℕ} (hbase : 0 < base) {pre post : Str}
    (hlen : pre.length + 2 + post.length = base * m) (hfit : pre.length % base + 2 ≤ base) :
    ∃ (front : List Str) (l r : Str) (back : List Str), front.length = pre.length / base ∧
      front.length + 1 + back.length = m ∧ l.length = pre.length % base ∧
      r.length = base - pre.length % base - 2 ∧ (IsHex post → IsHex r) ∧
      (∀ sub ∈ front, sub.length = base) ∧ (∀ sub ∈ back, sub.length = base) ∧
      ∀ n, chunks base (withByte pre post n) = front ++ withByte l r n :: back := by
  have hdiv := Nat.div_add_mod pre.length base
  have hmul : base * (pre.length / base) = pre.length / base * base := Nat.mul_comm ..
  have hchunks := fun n => @chunks_around _ _ m hbase pre (byteHex n) post (by simp) hlen hfit
  simp only [length_byteHex] at hchunks
  have hcount := length_chunks hbase (s := withByte pre post 0) (m := m) (by simpa using hlen)
  have hmem : ∀ sub ∈ chunks base (withByte pre post 0), sub.length = base := fun sub hsub =>
    length_of_mem_chunks hbase (by simpa using hlen) hsub
  rw [withByte, hchunks] at hcount hmem
  have hfront : (chunks base (pre.take (pre.length / base * base))).length = pre.length / base :=
    length_chunks hbase (by rw [List.length_take]; omega)
  refine ⟨_, _, _, _, hfront, ?_, ?_, ?_, fun h => h.take _, fun sub hsub => hmem sub (by simp [hsub]),
    fun sub hsub => hmem sub (by simp [hsub]), hchunks⟩
  · rw [List.length_append, List.length_cons] at hcount
    omega
  · rw [List.length_drop]
    omega
  · have hsub := hmem _ (List.mem_append_right _ (List.mem_cons_self ..))
    simp only [List.length_append, List.length_drop, length_byteHex] at hsub
    omega

/-- At most one byte gives a chunk. -/
theorem exists_bad_eq (l r sub : Str) :
    ∃ bad : List ℕ, bad.length ≤ 1 ∧ ∀ n < 256, withByte l r n = sub → n ∈ bad := by
  by_cases h : ∃ n < 256, withByte l r n = sub
  · obtain ⟨n, hn, heq⟩ := h
    refine ⟨[n], by simp, fun m hm hmeq => ?_⟩
    rw [withByte_inj hm hn (hmeq.trans heq.symm)]
    simp
  · refine ⟨[], by simp, fun n hn heq => ?_⟩
    exact absurd ⟨n, hn, heq⟩ h

/-! ## Blocks that start to apply -/

/-- A block whose high digits contain the byte starts to apply for at most two values: it
needs a chunk with zero high digits, or with those of another chunk. -/
theorem exists_bad_satisfies {base delta m : ℕ} (hbase : 0 < base) {pre post : Str}
    (hlen : pre.length + 2 + post.length = base * m) (hfit : pre.length % base + 2 ≤ base)
    (hhigh : pre.length % base + 2 ≤ base - delta) (n₀ : ℕ) :
    ∃ bad : List ℕ, bad.length ≤ 2 ∧ ∀ n < 256, n ∉ bad →
      Satisfies (withByte pre post n) base delta → Satisfies (withByte pre post n₀) base delta := by
  obtain ⟨front, l, r, back, -, -, hl, hr, -, hfl, hbl, hchunks⟩ := exists_chunks hbase hlen hfit
  by_cases hall : ∀ sub ∈ front ++ back, sub.take (base - delta) = List.replicate (base - delta) '0'
  · -- without other nonzero high digits the block applies in any case
    refine ⟨[], by simp, fun n _ _ _ => ⟨withByte l r n₀, ?_, fun sub hsub => ?_⟩⟩
    · rw [length_withByte]
      omega
    · rw [hchunks] at hsub
      rcases List.mem_append.1 hsub with hsub | hsub
      · exact Or.inl (hall sub (List.mem_append_left _ hsub))
      · rcases List.mem_cons.1 hsub with rfl | hsub
        · exact Or.inr rfl
        · exact Or.inl (hall sub (List.mem_append_right _ hsub))
  · obtain ⟨other, hother, hne⟩ : ∃ sub ∈ front ++ back,
        sub.take (base - delta) ≠ List.replicate (base - delta) '0' := by
      by_contra hno
      exact hall fun sub hsub => by_contra fun hne => hno ⟨sub, hsub, hne⟩
    have htake : ∀ n, (withByte l r n).take (base - delta) =
        withByte l (r.take (base - delta - l.length - 2)) n := by
      intro n
      rw [withByte, withByte, List.take_append, List.length_append, length_byteHex,
        List.take_of_length_le (by rw [List.length_append, length_byteHex]; omega),
        Nat.sub_add_eq]
    obtain ⟨bad₁, hlen₁, hbad₁⟩ := exists_bad_eq l (r.take (base - delta - l.length - 2))
      (List.replicate (base - delta) '0')
    obtain ⟨bad₂, hlen₂, hbad₂⟩ := exists_bad_eq l (r.take (base - delta - l.length - 2))
      (other.take (base - delta))
    refine ⟨bad₁ ++ bad₂, by rw [List.length_append]; omega, fun n hn hnot hsat => ?_⟩
    obtain ⟨b, -, hb⟩ := hsat
    rw [hchunks] at hb
    have hbother := hb other (by
      rcases List.mem_append.1 hother with h | h
      · exact List.mem_append_left _ h
      · exact List.mem_append_right _ (List.mem_cons_of_mem _ h))
    have hmod := hb (withByte l r n) (List.mem_append_right _ (List.mem_cons_self ..))
    rw [htake] at hmod
    exfalso
    rcases hmod with hmod | hmod
    · exact hnot (List.mem_append_left _ (hbad₁ n hn hmod))
    · rw [← hbother.resolve_left hne] at hmod
      exact hnot (List.mem_append_right _ (hbad₂ n hn hmod))

/-- A block whose low digits contain the byte does not look at it. -/
theorem satisfies_withByte {base delta m : ℕ} (hbase : 0 < base) {pre post : Str}
    (hlen : pre.length + 2 + post.length = base * m) (hfit : pre.length % base + 2 ≤ base)
    (hlow : base - delta ≤ pre.length % base) {n₀ n : ℕ}
    (h : Satisfies (withByte pre post n) base delta) : Satisfies (withByte pre post n₀) base delta := by
  obtain ⟨front, l, r, back, -, -, hl, -, -, -, -, hchunks⟩ := exists_chunks hbase hlen hfit
  have htake : ∀ n, (withByte l r n).take (base - delta) = l.take (base - delta) := by
    intro n
    rw [withByte, List.append_assoc, List.take_append_of_le_length (by omega)]
  obtain ⟨b, hblen, hb⟩ := h
  refine ⟨b, hblen, fun sub hsub => ?_⟩
  rw [hchunks] at hb hsub
  rcases List.mem_append.1 hsub with hsub | hsub
  · exact hb sub (List.mem_append_left _ hsub)
  · rcases List.mem_cons.1 hsub with rfl | hsub
    · rw [htake, ← htake n]
      exact hb _ (List.mem_append_right _ (List.mem_cons_self ..))
    · exact hb sub (List.mem_append_right _ (List.mem_cons_of_mem _ hsub))

/-! ## A byte in the low digits of a word

The byte stands in front of `delta - 2` digits at the end of one of the words; `delta` is
that of a block. -/

/-- The place of the free byte: the first byte of the low digits of word `i`. -/
structure Place (k i delta : ℕ) (pre post : Str) : Prop where
  delta_mem : delta = 2 ∨ delta = 4 ∨ delta = 8
  length_pre : pre.length = 16 * i + 16 - delta
  length_all : pre.length + 2 + post.length = 16 * k

theorem delta_of_mem_tracker {t : Blocker} (h : t ∈ tracker) :
    t.delta * 2 = 2 ∨ t.delta * 2 = 4 ∨ t.delta * 2 = 8 := by
  simp only [tracker, List.mem_cons, List.not_mem_nil, or_false] at h
  rcases h with rfl | rfl | rfl | rfl | rfl | rfl <;> simp

section Byte

variable {k i delta : ℕ} {pre post : Str}

/-- The byte lies in one chunk of every block. -/
theorem Place.fit (h : Place k i delta pre post) {t : Blocker} (ht : t ∈ tracker) :
    0 < t.base * 2 ∧ pre.length + 2 + post.length = t.base * 2 * (k * 8 / t.base) ∧
      pre.length % (t.base * 2) + 2 ≤ t.base * 2 := by
  have hpre := h.length_pre
  have hall := h.length_all
  rcases base_of_mem_tracker ht with hb | hb | hb <;> rw [hb] <;>
    rcases h.delta_mem with hd | hd | hd <;> omega

/-- The blocks that look at the byte are those with smaller deltas. -/
theorem exists_bad_block (h : Place k i delta pre post) {t : Blocker} (ht : t ∈ tracker) (n₀ : ℕ) :
    ∃ bad : List ℕ, bad.length ≤ (if t.delta * 2 < delta then 2 else 0) ∧ ∀ n < 256, n ∉ bad →
      (encodeBlock (withByte pre post n) t).isSome →
        (encodeBlock (withByte pre post n₀) t).isSome := by
  obtain ⟨hpos, hlen, hfit⟩ := h.fit ht
  have hpre := h.length_pre
  have hp : ∀ n, (withByte pre post n).length = 16 * k := fun n => by
    rw [length_withByte]
    exact h.length_all
  by_cases hlt : t.delta * 2 < delta
  · have hhigh : pre.length % (t.base * 2) + 2 ≤ t.base * 2 - t.delta * 2 ∨
        t.base * 2 - t.delta * 2 ≤ pre.length % (t.base * 2) := by
      rcases base_of_mem_tracker ht with hb | hb | hb <;> rw [hb] <;>
        rcases delta_of_mem_tracker ht with hd | hd | hd <;> rw [hd] <;>
        rcases h.delta_mem with hd' | hd' | hd' <;> omega
    rw [if_pos hlt]
    rcases hhigh with hhigh | hhigh
    · obtain ⟨bad, hbad, hsat⟩ := exists_bad_satisfies hpos hlen hfit hhigh n₀
      refine ⟨bad, hbad, fun n hn hnot => ?_⟩
      rw [isSome_encodeBlock_iff (hp n) ht, isSome_encodeBlock_iff (hp n₀) ht]
      exact hsat n hn hnot
    · refine ⟨[], by simp, fun n _ _ => ?_⟩
      rw [isSome_encodeBlock_iff (hp n) ht, isSome_encodeBlock_iff (hp n₀) ht]
      exact satisfies_withByte hpos hlen hfit hhigh
  · have hlow : t.base * 2 - t.delta * 2 ≤ pre.length % (t.base * 2) := by
      rcases base_of_mem_tracker ht with hb | hb | hb <;> rw [hb] <;>
        rcases delta_of_mem_tracker ht with hd | hd | hd <;> rw [hd] at hlt ⊢ <;>
        rcases h.delta_mem with hd' | hd' | hd' <;> omega
    refine ⟨[], by simp, fun n _ _ => ?_⟩
    rw [isSome_encodeBlock_iff (hp n) ht, isSome_encodeBlock_iff (hp n₀) ht]
    exact satisfies_withByte hpos hlen hfit hlow

/-- The number of bytes for which one of the blocks starts to apply is small. -/
theorem exists_bad_blocks (h : Place k i delta pre post) (n₀ : ℕ) (ts : List Blocker)
    (hts : ∀ t ∈ ts, t ∈ tracker) :
    ∃ bad : List ℕ, bad.length ≤ (ts.map fun t => if t.delta * 2 < delta then 2 else 0).sum ∧
      ∀ n < 256, n ∉ bad → ∀ t ∈ ts, (encodeBlock (withByte pre post n) t).isSome →
        (encodeBlock (withByte pre post n₀) t).isSome := by
  induction ts with
  | nil => exact ⟨[], by simp, fun n _ _ t ht => absurd ht (by simp)⟩
  | cons t ts ih =>
      obtain ⟨bad₁, hlen₁, hbad₁⟩ := exists_bad_block h (hts t (List.mem_cons_self ..)) n₀
      obtain ⟨bad₂, hlen₂, hbad₂⟩ := ih fun u hu => hts u (List.mem_cons_of_mem _ hu)
      refine ⟨bad₁ ++ bad₂, ?_, fun n hn hnot u hu => ?_⟩
      · rw [List.length_append, List.map_cons, List.sum_cons]
        omega
      · rw [List.mem_append, not_or] at hnot
        rcases List.mem_cons.1 hu with rfl | hu
        · exact hbad₁ n hn hnot.1
        · exact hbad₂ n hn hnot.2 u hu

/-- From two words on, at most one byte makes all words equal. -/
theorem exists_bad_same (h : Place k i delta pre post) (hk : 2 ≤ k) :
    ∃ bad : List ℕ, bad.length ≤ 1 ∧ ∀ n < 256, n ∉ bad →
      ¬ allSameVal (withByte pre post n) := by
  have hpre := h.length_pre
  have hall := h.length_all
  have hfit : pre.length % 16 + 2 ≤ 16 := by
    rcases h.delta_mem with hd | hd | hd <;> omega
  obtain ⟨front, l, r, back, -, hcount, -, -, -, -, -, hchunks⟩ :=
    exists_chunks (by decide : 0 < 16) hall hfit
  obtain ⟨other, hother⟩ : ∃ other, other ∈ front ++ back := by
    refine List.exists_mem_of_length_pos ?_
    rw [List.length_append]
    omega
  obtain ⟨bad, hbad, heq⟩ := exists_bad_eq l r other
  refine ⟨bad, hbad, fun n hn hnot hsame => hnot (heq n hn ?_)⟩
  obtain ⟨j, rfl⟩ : ∃ j, k = j + 1 := ⟨k - 1, by omega⟩
  rw [allSameVal_iff (by rw [length_withByte]; exact hall), hchunks] at hsame
  rw [hsame (withByte l r n) (List.mem_append_right _ (List.mem_cons_self ..)), hsame other]
  rcases List.mem_append.1 hother with h | h
  · exact List.mem_append_left _ h
  · exact List.mem_append_right _ (List.mem_cons_of_mem _ h)

end Byte

/-! ## The choice of another byte -/

/-- Among `r` values of the moved byte, one avoids a list of fewer than `r` bytes. -/
theorem exists_byte (r shift : ℕ) {f : ℕ → ℕ} (hf : ∀ j < r, f j < 256)
    (hinj : ∀ a < r, ∀ b < r, f a = f b → a = b) {bad : List ℕ} (hbad : bad.length < r) :
    ∃ j < r, ∃ n < 256, n ∉ bad ∧ (n + shift) % 256 = f j := by
  let g : ℕ → ℕ := fun j => (f j + (256 - shift % 256)) % 256
  have hg : ∀ j < r, (g j + shift) % 256 = f j := by
    intro j hj
    have h := hf j hj
    show ((f j + (256 - shift % 256)) % 256 + shift) % 256 = f j
    omega
  have hcard : ((Finset.range r).image g).card = r := by
    rw [Finset.card_image_of_injOn, Finset.card_range]
    intro a ha b hb heq
    have ha' : a < r := Finset.mem_range.1 ha
    have hb' : b < r := Finset.mem_range.1 hb
    refine hinj a ha' b hb' ?_
    rw [← hg a ha', ← hg b hb', show g a = g b from heq]
  obtain ⟨n, hn, hnot⟩ := Finset.exists_mem_notMem_of_card_lt_card
    (s := bad.toFinset) (t := (Finset.range r).image g)
    (by rw [hcard]; exact lt_of_le_of_lt (List.toFinset_card_le bad) hbad)
  obtain ⟨j, hj, rfl⟩ := Finset.mem_image.1 hn
  have hj' := Finset.mem_range.1 hj
  exact ⟨j, hj', g j, Nat.mod_lt _ (by decide), fun h => hnot (List.mem_toFinset.2 h), hg j hj'⟩

section Candidates

variable {front back : Str} {shift : ℕ} {bad : List ℕ}

/-- The payload does not look at the last four bits of the field. -/
theorem exists_low_candidate (n₀ : ℕ) (hbad : bad.length < 16)
    (h : ∀ j < 4, (front.length + 4 + j) % 8 ≠ 0 ∧
      front.length + 4 + j < (front.length + 8 + back.length) / 8 * 8) :
    ∃ n < 256, n ∉ bad ∧ packBits (front ++ getBinary (n + shift) 8 ++ back) =
      packBits (front ++ getBinary (n₀ + shift) 8 ++ back) := by
  obtain ⟨j, hj, n, hn, hnot, heq⟩ := exists_byte 16 shift
    (f := fun j => (n₀ + shift) % 256 / 16 * 16 + j) (by omega) (by omega) hbad
  refine ⟨n, hn, hnot, ?_⟩
  have hhigh : getBinary ((n + shift) / 2 ^ 4) 4 = getBinary ((n₀ + shift) / 2 ^ 4) 4 := by
    rw [← getBinary_mod ((n + shift) / 2 ^ 4), ← getBinary_mod ((n₀ + shift) / 2 ^ 4)]
    congr 1
    omega
  rw [show (8 : ℕ) = 4 + 4 from rfl, getBinary_append, getBinary_append, hhigh,
    ← List.append_assoc front, ← List.append_assoc front]
  refine packBits_skip (by rw [length_getBinary, length_getBinary]) fun j hj => ?_
  rw [length_getBinary] at hj
  simp only [List.length_append, length_getBinary]
  obtain ⟨h1, h2⟩ := h j hj
  exact ⟨h1, by omega⟩

/-- The payload does not look at the first two bits of the field. -/
theorem exists_high_candidate (n₀ : ℕ) (hbad : bad.length < 4)
    (h : ∀ j < 2, (front.length + j) % 8 ≠ 0 ∧
      front.length + j < (front.length + 8 + back.length) / 8 * 8) :
    ∃ n < 256, n ∉ bad ∧ packBits (front ++ getBinary (n + shift) 8 ++ back) =
      packBits (front ++ getBinary (n₀ + shift) 8 ++ back) := by
  obtain ⟨j, hj, n, hn, hnot, heq⟩ := exists_byte 4 shift
    (f := fun j => j * 64 + (n₀ + shift) % 64) (by omega) (by omega) hbad
  refine ⟨n, hn, hnot, ?_⟩
  have hlow : getBinary (n + shift) 6 = getBinary (n₀ + shift) 6 := by
    rw [← getBinary_mod (n + shift), ← getBinary_mod (n₀ + shift)]
    congr 1
    omega
  rw [show (8 : ℕ) = 2 + 6 from rfl, getBinary_append, getBinary_append, hlow,
    ← List.append_assoc front, ← List.append_assoc front, List.append_assoc, List.append_assoc _ _ back]
  refine packBits_skip (by rw [length_getBinary, length_getBinary]) fun j hj => ?_
  rw [length_getBinary] at hj
  simp only [List.length_append, length_getBinary]
  obtain ⟨h1, h2⟩ := h j hj
  exact ⟨h1, by omega⟩

end Candidates

/-! ## The bits of a line under a block -/

/-- The chunk at the place of the free byte is not the base. -/
def NotBase (delta idx : ℕ) (subs : List Str) : Prop :=
  ∀ front sub back, subs = front ++ sub :: back → front.length = idx →
    ZeroHigh delta sub ∨ ∃ s ∈ front, ¬ ZeroHigh delta s

section Line

variable {k i : ℕ} {pre post : Str} {t : Blocker}

/-- The number of the chunk with the free byte. -/
def freeChunk (t : Blocker) (i : ℕ) : ℕ := (16 * i + 16 - t.delta * 2) / (t.base * 2)

theorem zeroHigh_withByte {delta : ℕ} {l r : Str} (h2 : 2 ≤ delta) (hr : r.length = delta - 2)
    (m n : ℕ) : ZeroHigh delta (withByte l r m) ↔ ZeroHigh delta (withByte l r n) := by
  have hlen : ∀ n, (withByte l r n).length - delta = l.length := by
    intro n
    rw [length_withByte]
    omega
  have hhigh : ∀ n, high delta (withByte l r n) = l := by
    intro n
    rw [high, hlen, withByte, List.append_assoc, List.take_left]
  rw [ZeroHigh, ZeroHigh, hhigh, hhigh, hlen, hlen]

/-- A chunk that is not the base can be changed below its high digits without a change of
the base. -/
theorem theBase_congr {base delta : ℕ} {front back : List Str} {s s' : Str}
    (hiff : ZeroHigh delta s ↔ ZeroHigh delta s')
    (hnb : ZeroHigh delta s ∨ ∃ c ∈ front, ¬ ZeroHigh delta c) :
    theBase base delta (front ++ s :: back) = theBase base delta (front ++ s' :: back) := by
  rw [theBase, theBase, List.find?_append, List.find?_append]
  cases hfind : front.find? fun sub => ¬ ZeroHigh delta sub with
  | some c => rfl
  | none =>
      have hall := List.find?_eq_none.1 hfind
      rcases hnb with hz | ⟨c, hc, hne⟩
      · have hz' := hiff.1 hz
        rw [List.find?_cons_of_neg (by simpa using hz), List.find?_cons_of_neg (by simpa using hz')]
      · exact absurd hne (by simpa using hall c hc)

/-- **The bits of a line under a block, as a function of the free byte.** -/
theorem exists_binary (h : Place k i (t.delta * 2) pre post) (ht : t ∈ tracker) (hhex : IsHex post)
    {n₀ : ℕ} (hnb : NotBase (t.delta * 2) (freeChunk t i)
      (chunks (t.base * 2) (withByte pre post n₀))) :
    ∃ (front back : Str) (shift : ℕ),
      front.length = 4 + t.base * 2 * 4 + freeChunk t i * (1 + 4 * (t.delta * 2)) + 1 ∧
      back.length = 4 * (t.delta * 2) - 8 +
        (k * 8 / t.base - freeChunk t i - 1) * (1 + 4 * (t.delta * 2)) ∧
      ∀ n < 256, (encodeBlock (withByte pre post n) t).isSome →
        ∃ output, encodeBlock (withByte pre post n) t = some output ∧
          toBinary output (t.delta * 2) (t.base * 2) =
            front ++ getBinary (n + shift) 8 ++ back := by
  obtain ⟨hpos, hlen, hfit⟩ := h.fit ht
  obtain ⟨hcode, hdb, -⟩ := code_of_mem_tracker ht
  have hidx : pre.length / (t.base * 2) = freeChunk t i := by rw [h.length_pre, freeChunk]
  obtain ⟨front, l, r, back, hfront, hcount, hl, hr, hrhex, hfl, hbl, hchunks⟩ :=
    exists_chunks hpos hlen hfit
  have hd2 : 2 ≤ t.delta * 2 ∧ t.delta * 2 ≤ 8 := by
    rcases delta_of_mem_tracker ht with hd | hd | hd <;> omega
  -- the byte is the first one of the low digits of its chunk
  have hr' : r.length = t.delta * 2 - 2 := by
    have hpre := h.length_pre
    rw [hr]
    rcases base_of_mem_tracker ht with hb | hb | hb <;>
      rcases delta_of_mem_tracker ht with hd | hd | hd <;> rw [hb] at hdb ⊢ <;> omega
  have hzero := zeroHigh_withByte (l := l) hd2.1 hr'
  have hbase : ∀ n, theBase (t.base * 2) (t.delta * 2) (chunks (t.base * 2) (withByte pre post n)) =
      theBase (t.base * 2) (t.delta * 2) (chunks (t.base * 2) (withByte pre post n₀)) := by
    intro n
    have hplace := hnb front _ back (hchunks n₀) (hfront.trans hidx)
    rw [hchunks, hchunks]
    exact theBase_congr (hzero n n₀) (hplace.imp_left (hzero n n₀).2)
  have hsubs : ∀ n, ∀ sub ∈ chunks (t.base * 2) (withByte pre post n), sub.length = t.base * 2 := by
    intro n sub hsub
    exact length_of_mem_chunks hpos (by rw [length_withByte]; exact hlen) hsub
  have hbaseLen := length_theBase (t.delta * 2) (hsubs n₀)
  generalize theBase (t.base * 2) (t.delta * 2) (chunks (t.base * 2) (withByte pre post n₀)) = b
    at hbase hbaseLen
  have hmask : ∀ n < 256, ZeroHigh (t.delta * 2) (withByte l r n) ↔
      decide (ZeroHigh (t.delta * 2) (withByte l r n₀)) = true := by
    intro n _
    rw [decide_eq_true_iff]
    exact hzero n n₀
  obtain ⟨mask, shift, rest, hrest, hbits⟩ := exists_partBits hd2.1 hd2.2 hr' (hrhex hhex) b _ hmask
  have hparts : ∀ sub, sub.length = t.base * 2 →
      (encPart (t.delta * 2) b sub).length = t.delta * 2 + 1 := by
    intro sub hsub
    exact length_encPart (by omega)
  have hflat : ∀ subs : List Str, (∀ sub ∈ subs, sub.length = t.base * 2) →
      ((subs.map (encPart (t.delta * 2) b)).flatMap partBits).length =
        subs.length * (1 + 4 * (t.delta * 2)) := by
    intro subs hsubs
    rw [length_flatMap_of_forall (n := 1 + 4 * (t.delta * 2)), List.length_map]
    intro part hpart
    obtain ⟨sub, hsub, rfl⟩ := List.mem_map.1 hpart
    exact length_partBits (hparts sub (hsubs sub hsub))
  refine ⟨t.code ++ hexToBin b ++ (front.map (encPart (t.delta * 2) b)).flatMap partBits ++ [mask],
    rest ++ (back.map (encPart (t.delta * 2) b)).flatMap partBits, shift, ?_, ?_,
    fun n hn hsome => ?_⟩
  · simp only [List.length_append, hcode, length_hexToBin, hbaseLen, hflat front hfl,
      List.length_singleton, hfront, hidx]
    omega
  · rw [List.length_append, hrest, hflat back hbl,
      show back.length = k * 8 / t.base - freeChunk t i - 1 by omega]
  · rw [encodeBlock_eq (hsubs n)] at hsome ⊢
    by_cases hfits : Fits (t.base * 2) (t.delta * 2) (chunks (t.base * 2) (withByte pre post n))
    · rw [if_pos hfits]
      refine ⟨_, rfl, ?_⟩
      have hall : ∀ part ∈ (chunks (t.base * 2) (withByte pre post n)).map
          (encPart (t.delta * 2) b), part.length = t.delta * 2 + 1 := by
        intro part hpart
        obtain ⟨sub, hsub, rfl⟩ := List.mem_map.1 hpart
        exact hparts sub (hsubs n sub hsub)
      rw [hbase, toBinary_append hcode hbaseLen hall, hchunks, List.map_append, List.map_cons,
        List.flatMap_append, List.flatMap_cons, withByte, hbits n hn]
      simp only [List.append_assoc, List.cons_append, List.nil_append]
    · rw [if_neg hfits] at hsome
      exact absurd hsome (by simp)

/-- For every block there is another byte with the same payload. -/
theorem exists_candidate (hk : 2 ≤ k) (hi : i ≤ 1) (ht : t ∈ tracker) {front back : Str}
    (hfront : front.length = 4 + t.base * 2 * 4 + freeChunk t i * (1 + 4 * (t.delta * 2)) + 1)
    (hback : back.length = 4 * (t.delta * 2) - 8 +
      (k * 8 / t.base - freeChunk t i - 1) * (1 + 4 * (t.delta * 2)))
    {bad : List ℕ} (hbad : bad.length ≤
      2 + (tracker.map fun u => if u.delta * 2 < t.delta * 2 then 2 else 0).sum)
    (shift n₀ : ℕ) :
    ∃ n < 256, n ∉ bad ∧ packBits (front ++ getBinary (n + shift) 8 ++ back) =
      packBits (front ++ getBinary (n₀ + shift) 8 ++ back) := by
  obtain rfl | rfl : i = 0 ∨ i = 1 := by omega
  all_goals
    simp only [tracker, List.mem_cons, List.not_mem_nil, or_false] at ht
    rcases ht with rfl | rfl | rfl | rfl | rfl | rfl <;>
      simp [tracker, freeChunk] at hfront hback hbad <;>
      first
        | exact exists_low_candidate n₀ (by omega) (by omega)
        | exact exists_high_candidate n₀ (by omega) (by omega)

/-- A byte of a packet as the free byte. -/
theorem exists_withByte {packet : Str} (hhex : IsHex packet) {j : ℕ} (hj : j + 2 ≤ packet.length) :
    ∃ pre post n, n < 256 ∧ packet = withByte pre post n ∧ pre.length = j ∧
      pre.length + 2 + post.length = packet.length ∧ IsHex pre ∧ IsHex post := by
  obtain ⟨n, hn, hbyte⟩ := exists_byteHex (s := (packet.drop j).take 2)
    ((hhex.drop j).take 2) (by rw [List.length_take, List.length_drop]; omega)
  have hpre : (packet.take j).length = j := by rw [List.length_take]; omega
  refine ⟨packet.take j, packet.drop (j + 2), n, hn, ?_, hpre, ?_, hhex.take j, hhex.drop _⟩
  · rw [withByte, ← hbyte, ← List.drop_drop, List.append_assoc, List.take_append_drop,
      List.take_append_drop]
  · rw [hpre, List.length_drop]
    omega

/-- One of the first two words has a last chunk that is not the base. -/
theorem exists_place (hk : 2 ≤ k) {packet : Str} (hp : packet.length = 16 * k) (hhex : IsHex packet)
    (ht : t ∈ tracker) :
    ∃ i pre post n₀, i ≤ 1 ∧ n₀ < 256 ∧ packet = withByte pre post n₀ ∧ IsHex pre ∧ IsHex post ∧
      Place k i (t.delta * 2) pre post ∧
      NotBase (t.delta * 2) (freeChunk t i) (chunks (t.base * 2) packet) := by
  have hdelta := delta_of_mem_tracker ht
  have hplace : ∀ i ≤ 1, NotBase (t.delta * 2) (freeChunk t i) (chunks (t.base * 2) packet) →
      ∃ i pre post n₀, i ≤ 1 ∧ n₀ < 256 ∧ packet = withByte pre post n₀ ∧ IsHex pre ∧ IsHex post ∧
        Place k i (t.delta * 2) pre post ∧
        NotBase (t.delta * 2) (freeChunk t i) (chunks (t.base * 2) packet) := by
    intro i hi hnb
    obtain ⟨pre, post, n₀, hn₀, hpacket, hpre, hlen, hprehex, hposthex⟩ :=
      exists_withByte hhex (j := 16 * i + 16 - t.delta * 2) (by omega)
    exact ⟨i, pre, post, n₀, hi, hn₀, hpacket, hprehex, hposthex,
      ⟨hdelta, hpre, hlen.trans hp⟩, hnb⟩
  by_cases hnb : NotBase (t.delta * 2) (freeChunk t 0) (chunks (t.base * 2) packet)
  · exact hplace 0 (by decide) hnb
  · -- the base lies in the first word, so in front of the last chunk of the second
    refine hplace 1 (by decide) fun front sub back hsubs hfront => Or.inr ?_
    unfold NotBase at hnb
    push Not at hnb
    obtain ⟨front₀, sub₀, back₀, hsubs₀, hfront₀, hne, -⟩ := hnb
    have hlt : freeChunk t 0 < freeChunk t 1 := by
      have hdb := (code_of_mem_tracker ht).2.1
      unfold freeChunk
      rcases base_of_mem_tracker ht with hb | hb | hb <;>
        rcases hdelta with hd | hd | hd <;> rw [hb] at hdb ⊢ <;> omega
    have hget : (chunks (t.base * 2) packet)[freeChunk t 0]? = some sub₀ := by
      rw [hsubs₀, ← hfront₀, List.getElem?_append_right (Nat.le_refl _), Nat.sub_self]
      rfl
    rw [hsubs, List.getElem?_append_left (by omega)] at hget
    exact ⟨sub₀, List.mem_of_getElem? hget, hne⟩

theorem allSameVal_of_allZeroCheck {packet : Str} (h : allZeroCheck packet) (hk : 1 ≤ k)
    (hp : packet.length = 16 * k) : allSameVal packet := by
  rw [allZeroCheck, decide_eq_true_iff] at h
  obtain ⟨j, rfl⟩ : ∃ j, k = j + 1 := ⟨k - 1, by omega⟩
  have hmem : ∀ c ∈ packet, c = '0' := by
    intro c hc
    rw [h] at hc
    exact (List.mem_replicate.1 hc).2
  have hrep : ∀ sub : Str, sub.length = 16 → (∀ c ∈ sub, c ∈ packet) →
      sub = List.replicate 16 '0' := fun sub hlen hsub =>
    List.eq_replicate_iff.2 ⟨hlen, fun c hc => hmem c (hsub c hc)⟩
  rw [allSameVal_iff hp]
  intro sub hsub
  rw [hrep sub (length_of_mem_chunks (by decide) hp hsub) fun c hc => ?_,
    hrep (packet.take 16) (by rw [List.length_take]; omega) fun c hc => List.mem_of_mem_take hc]
  rw [← flatten_chunks (k := 16) (by decide) hp]
  exact List.mem_flatten.2 ⟨sub, hsub, hc⟩

/-- **A packet under a block is not determined by its result**: another packet has the same
one. -/
theorem exists_other_block (hk : 2 ≤ k) {packet : Str} (hp : packet.length = 16 * k)
    (hhex : IsHex packet) (hz : ¬ allZeroCheck packet) (hr : ¬ allSameVal packet)
    {before after : List Blocker} (h : IsFirst k packet t before after) :
    ∃ other : Str, other.length = 16 * k ∧ IsHex other ∧ other ≠ packet ∧
      finish (choose other) = finish (choose packet) := by
  have ht : t ∈ tracker := by
    rw [h.split]
    simp
  obtain ⟨i, pre, post, n₀, hi, hn₀, rfl, hpre, hpost, hplace, hnb⟩ := exists_place hk hp hhex ht
  obtain ⟨front, back, shift, hfront, hback, hbinary⟩ := exists_binary hplace ht hpost hnb
  obtain ⟨bad₁, hlen₁, hsame⟩ := exists_bad_same hplace hk
  obtain ⟨bad₂, hlen₂, hblocks⟩ := exists_bad_blocks hplace n₀ tracker fun _ h => h
  have hbad : (n₀ :: (bad₁ ++ bad₂)).length ≤
      2 + (tracker.map fun u => if u.delta * 2 < t.delta * 2 then 2 else 0).sum := by
    rw [List.length_cons, List.length_append]
    omega
  obtain ⟨n, hn, hnot, hpack⟩ := exists_candidate hk hi ht hfront hback hbad shift n₀
  simp only [List.mem_cons, List.mem_append, not_or] at hnot
  obtain ⟨hne, hnot₁, hnot₂⟩ := hnot
  have hlen : (withByte pre post n).length = 16 * k := by
    rw [length_withByte]
    exact hplace.length_all
  have hr' := hsame n hn hnot₁
  have hz' : ¬ allZeroCheck (withByte pre post n) := fun hz' =>
    hr' (allSameVal_of_allZeroCheck hz' (by omega) hlen)
  -- the block of the line still applies, and no other one starts to
  have happlies : (encodeBlock (withByte pre post n) t).isSome := by
    obtain ⟨bad, hbad, himp⟩ := exists_bad_block hplace ht n
    rw [if_neg (Nat.lt_irrefl _), Nat.le_zero, List.length_eq_zero_iff] at hbad
    exact himp n₀ hn₀ (by simp [hbad]) h.applies
  have hfirst : IsFirst k (withByte pre post n) t before after := by
    refine ⟨h.split, happlies, fun s hs hsome => ?_, fun s hs hsome => ?_⟩
    · exact h.before_lt s hs (hblocks n hn hnot₂ s (by rw [h.split]; simp [hs]) hsome)
    · exact h.after_le s hs (hblocks n hn hnot₂ s (by rw [h.split]; simp [hs]) hsome)
  obtain ⟨out, henc, hbits⟩ := hbinary n hn happlies
  obtain ⟨out₀, henc₀, hbits₀⟩ := hbinary n₀ hn₀ h.applies
  have hpayload : convertOutput out (t.delta * 2) (t.base * 2) =
      convertOutput out₀ (t.delta * 2) (t.base * 2) := by
    rw [convertOutput_block hlen ht henc, convertOutput_block hp ht henc₀, hbits, hbits₀, hpack]
  refine ⟨withByte pre post n, hlen, (hpre.append (isHex_byteHex hn)).append hpost,
    fun heq => hne (withByte_inj hn hn₀ heq), ?_⟩
  rw [choose_of_first hlen hz' hr' hfirst henc, choose_of_first hp hz hr h henc₀]
  simp only [finish, hpayload]

end Line

/-! ## The other cases -/

/-- The packet of one word `k` times. -/
def repeated (k : ℕ) (w : Str) : Str := (List.replicate k w).flatten

theorem length_repeated {k : ℕ} {w : Str} (hw : w.length = 16) :
    (repeated k w).length = 16 * k := by
  rw [repeated, length_flatten_of_forall (n := 16), List.length_replicate, Nat.mul_comm]
  intro l hl
  rw [(List.mem_replicate.1 hl).2, hw]

theorem allSameVal_repeated {k : ℕ} {w : Str} (hk : 1 ≤ k) (hw : w.length = 16) :
    allSameVal (repeated k w) := by
  obtain ⟨j, rfl⟩ : ∃ j, k = j + 1 := ⟨k - 1, by omega⟩
  have hall : ∀ l ∈ List.replicate (j + 1) w, l.length = 16 := by
    intro l hl
    rw [(List.mem_replicate.1 hl).2, hw]
  have htake : (repeated (j + 1) w).take 16 = w := by
    rw [repeated, List.replicate_succ, List.flatten_cons, List.take_left' hw]
  rw [allSameVal_iff (length_repeated hw), htake, repeated, chunks_flatten (by decide) hall]
  exact fun sub hsub => (List.mem_replicate.1 hsub).2

/-- A packet of one repeated value that is not zero has a neighbour of the same kind. -/
theorem exists_other_same {k : ℕ} (hk : 1 ≤ k) (packet : Str) :
    ∃ other : Str, other.length = 16 * k ∧ IsHex other ∧ other ≠ packet ∧
      ¬ allZeroCheck other ∧ allSameVal other := by
  have hword : ∀ c ∈ ['1', '2'], ∃ other : Str, other = repeated k (List.replicate 15 '0' ++ [c]) ∧
      other.length = 16 * k ∧ IsHex other ∧ c ∈ other ∧ ¬ allZeroCheck other ∧ allSameVal other := by
    intro c hc
    have hmem : c ∈ repeated k (List.replicate 15 '0' ++ [c]) := by
      refine List.mem_flatten.2 ⟨_, List.mem_replicate.2 ⟨by omega, rfl⟩, ?_⟩
      simp
    refine ⟨_, rfl, length_repeated (by simp), fun x hx => ?_, hmem, fun hz => ?_,
      allSameVal_repeated hk (by simp)⟩
    · obtain ⟨l, hl, hxl⟩ := List.mem_flatten.1 hx
      rw [(List.mem_replicate.1 hl).2, List.mem_append, List.mem_replicate,
        List.mem_singleton] at hxl
      simp only [List.mem_cons, List.not_mem_nil, or_false] at hc
      rcases hxl with ⟨-, rfl⟩ | rfl
      · decide
      · rcases hc with rfl | rfl <;> decide
    · rw [allZeroCheck, decide_eq_true_iff] at hz
      rw [hz] at hmem
      rw [(List.mem_replicate.1 hmem).2] at hc
      exact absurd hc (by decide)
  obtain ⟨one, hone, hlen₁, hhex₁, -, hz₁, hr₁⟩ := hword '1' (by simp)
  obtain ⟨two, htwo, hlen₂, hhex₂, hmem₂, hz₂, hr₂⟩ := hword '2' (by simp)
  by_cases heq : one = packet
  · refine ⟨two, hlen₂, hhex₂, fun h => ?_, hz₂, hr₂⟩
    rw [h, ← heq, hone] at hmem₂
    obtain ⟨l, hl, hxl⟩ := List.mem_flatten.1 hmem₂
    rw [(List.mem_replicate.1 hl).2] at hxl
    exact absurd hxl (by decide)
  · exact ⟨one, hlen₁, hhex₁, heq, hz₁, hr₁⟩

theorem hexBytes_cons (x y : Char) (s : Str) :
    hexBytes (x :: y :: s) = (hexVal x * 16 + hexVal y) :: hexBytes s := by
  have hchunks := chunks_append (k := 2) (by decide) (w := [x, y]) rfl s
  rw [List.cons_append, List.singleton_append] at hchunks
  rw [hexBytes, hchunks, List.map_cons]
  simp [value, hexBytes]

/-- The bytes of hexadecimal digits tell the digits. -/
theorem hexBytes_inj : ∀ {s t : Str}, s.length = t.length → IsHex s → IsHex t →
    hexBytes s = hexBytes t → s = t
  | [], [], _, _, _, _ => rfl
  | [a], [b], _, hs, ht, h => by
      have hval : hexVal a = hexVal b := by simpa [hexBytes, chunks, value] using h
      rw [← hexDigit_hexVal (hs a (by simp)), hval, hexDigit_hexVal (ht b (by simp))]
  | a :: b :: s, c :: d :: t, hlen, hs, ht, h => by
      rw [hexBytes_cons, hexBytes_cons, List.cons.injEq] at h
      have ha := hexVal_lt (hs a (by simp))
      have hb := hexVal_lt (hs b (by simp))
      have hc := hexVal_lt (ht c (by simp))
      have hd := hexVal_lt (ht d (by simp))
      have hac : hexVal a = hexVal c := by omega
      have hbd : hexVal b = hexVal d := by omega
      rw [← hexDigit_hexVal (hs a (by simp)), ← hexDigit_hexVal (hs b (by simp)), hac, hbd,
        hexDigit_hexVal (ht c (by simp)), hexDigit_hexVal (ht d (by simp)),
        hexBytes_inj (by simpa using hlen) (fun x hx => hs x (by simp [hx]))
          (fun x hx => ht x (by simp [hx])) h.2]
  | [], _ :: _, h, _, _, _ => by simp at h
  | _ :: _, [], h, _, _, _ => by simp at h
  | [_], _ :: _ :: _, h, _, _, _ => by simp at h
  | _ :: _ :: _, [_], h, _, _, _ => by simp at h

/-- A first bit zero is a first byte zero. -/
theorem exists_packBits_zero (bits : Str) (h : 7 ≤ bits.length) :
    ∃ rest, packBits ('0' :: bits) = 0 :: rest := by
  obtain ⟨m, hm⟩ : ∃ m, ('0' :: bits).length / 8 = m + 1 :=
    ⟨('0' :: bits).length / 8 - 1, by rw [List.length_cons]; omega⟩
  have hbyte : sampledByte ('0' :: bits) (8 * 0) = 0 := by
    rw [sampledByte, Nat.mul_zero, List.getD_cons_zero]
    decide
  rw [packBits, hm, List.range_succ_eq_map, List.map_cons, hbyte, List.cons_append]
  exact ⟨_, rfl⟩

theorem finish_of_length {output : Str} {payload : List ℕ} {bits base delta : ℕ}
    (h : convertOutput output delta base = payload) (hlen : (bits + 7) / 8 = payload.length) :
    finish ⟨output, some bits, base, delta⟩ = some ⟨(bits + 7) / 8, bits, payload⟩ := by
  simp only [finish, h, Option.getD_some]
  rw [if_pos hlen]

/-- The packet goes out as it is: it is not one repeated value and no block applies. -/
def IsRaw (packet : Str) : Prop :=
  ¬ allSameVal packet ∧ ∀ t ∈ tracker, ¬ Satisfies packet (t.base * 2) (t.delta * 2)

/-- The payload in the four cases. -/
inductive PayloadCase (packet : Str) (payload : List ℕ) : Prop
  | zero (hz : allZeroCheck packet) (h : payload = [48, 48])
  | same (hz : ¬ allZeroCheck packet) (hr : allSameVal packet) (h : payload = List.replicate 9 48)
  | block (t : Blocker) (ht : t ∈ tracker) (hz : ¬ allZeroCheck packet) (hr : ¬ allSameVal packet)
      (henc : (encodeBlock packet t).isSome) (rest : List ℕ) (h : payload = 0 :: rest)
  | raw (hraw : IsRaw packet) (h : payload = hexBytes ('F' :: packet))

theorem payloadCase {k : ℕ} {packet : Str} (hp : packet.length = 16 * k) :
    ∃ r, finish (choose packet) = some r ∧ PayloadCase packet r.compData := by
  by_cases hz : allZeroCheck packet
  · refine ⟨⟨2, 12, [48, 48]⟩, ?_, .zero hz rfl⟩
    rw [choose, if_pos hz]
    rfl
  by_cases hr : allSameVal packet
  · refine ⟨⟨9, 68, List.replicate 9 48⟩, ?_, .same hz hr rfl⟩
    rw [choose, if_neg hz, if_pos hr]
    exact finish_of_length rfl rfl
  by_cases hb : ∃ t ∈ tracker, (encodeBlock packet t).isSome
  · obtain ⟨t, before, after, ht, hfirst⟩ := exists_isFirst k hb
    obtain ⟨output, henc⟩ := Option.isSome_iff_exists.1 hfirst.applies
    have hlen := length_convertOutput_block hp ht henc
    rw [choose_of_first hp hz hr hfirst henc]
    refine ⟨_, finish_of_length rfl hlen.symm, ?_⟩
    obtain ⟨hcode, -, hhead, -⟩ := code_of_mem_tracker ht
    obtain ⟨b, parts, rfl, hbl, -, hparts⟩ := exists_parts hp ht henc
    show PayloadCase packet (convertOutput _ _ _)
    rw [convertOutput_block hp ht henc, toBinary_append hcode hbl hparts]
    -- the code starts with a zero, which fills the first byte
    obtain ⟨c, code, hcons⟩ := List.exists_cons_of_length_pos (l := t.code) (by omega)
    rw [hcons, List.headD_cons] at hhead
    have hbase : 2 ≤ t.base := by rcases base_of_mem_tracker ht with h | h | h <;> omega
    have hhexLen : (hexToBin b).length = 4 * (t.base * 2) := by rw [length_hexToBin, hbl]
    obtain ⟨rest, hrest⟩ := exists_packBits_zero (code ++ hexToBin b ++ parts.flatMap partBits) (by
      have hcodeLen := congrArg List.length hcons
      rw [List.length_cons, hcode] at hcodeLen
      rw [List.length_append, List.length_append, hhexLen]
      omega)
    rw [hcons, hhead, List.cons_append, List.cons_append, hrest]
    exact .block t ht hz hr hfirst.applies rest rfl
  · have hnone : ∀ t ∈ tracker, encodeBlock packet t = none := fun t ht =>
      Option.not_isSome_iff_eq_none.1 fun h => hb ⟨t, ht, h⟩
    have hraw : IsRaw packet := ⟨hr, fun t ht hsat =>
      hb ⟨t, ht, (isSome_encodeBlock_iff hp ht).2 hsat⟩⟩
    rw [choose_of_none hz hr hnone]
    have htake : (['1', '1', '1', '1'] ++ packet).take 4 = ['1', '1', '1', '1'] := rfl
    have hpayload : convertOutput (['1', '1', '1', '1'] ++ packet) 0 0 = hexBytes ('F' :: packet) := by
      rw [convertOutput, htake, if_neg (by decide), if_neg (by decide), if_pos rfl]
      rfl
    refine ⟨_, finish_of_length hpayload ?_, .raw hraw rfl⟩
    rw [length_hexBytes, List.length_cons]
    omega

theorem hexBytes_cons_F {k : ℕ} (hk : 1 ≤ k) {packet : Str} (hp : packet.length = 16 * k) :
    ∃ b rest, hexBytes ('F' :: packet) = b :: rest ∧ 240 ≤ b := by
  obtain ⟨c, packet, rfl⟩ := List.exists_cons_of_length_pos (l := packet) (by omega)
  refine ⟨240 + hexVal c, hexBytes packet, ?_, by omega⟩
  rw [hexBytes_cons, show hexVal 'F' = 15 from rfl]

/-! ## Recoverable lines -/

/-- No other line of this length has the same payload. -/
def Recoverable (cacheData : List UInt8) : Prop :=
  ∀ other : List UInt8, other.length = cacheData.length →
    (run other).map Result.compData = (run cacheData).map Result.compData → other = cacheData

section Recover

variable {k : ℕ} {cacheData : List UInt8}

theorem run_eq_finish (hk : 1 ≤ k) (hn : cacheData.length = 8 * k) :
    run cacheData = finish (choose (decomposeData cacheData)) := by
  rw [run, if_neg]
  rintro rfl
  simp at hn
  omega

theorem length_packet (hn : cacheData.length = 8 * k) :
    (decomposeData cacheData).length = 16 * k := by
  rw [length_decomposeData (m := 2 * k) (by omega)]
  omega

/-- A packet with the same payload refutes that the line is recoverable. -/
theorem not_recoverable (hk : 1 ≤ k) (hn : cacheData.length = 8 * k) {packet : Str}
    (hp : packet.length = 16 * k) (hhex : IsHex packet) (hne : packet ≠ decomposeData cacheData)
    (h : (finish (choose packet)).map Result.compData =
      (finish (choose (decomposeData cacheData))).map Result.compData) :
    ¬ Recoverable cacheData := by
  obtain ⟨line, hline, hdec⟩ := exists_line (m := 2 * k) (by omega) hhex
  intro hrec
  refine hne ?_
  rw [← hdec, hrec line (by omega)]
  rw [run_eq_finish hk (by omega), run_eq_finish hk hn, hdec, h]

theorem allZeroCheck_iff {packet : Str} (hlen : packet.length = 16 * k) :
    allZeroCheck packet ↔ packet = List.replicate (16 * k) '0' := by
  rw [allZeroCheck, decide_eq_true_iff, hlen]

/-- The payload of one repeated value, or of a block, is also that of another line. -/
theorem not_recoverable_of_compressed (hk : 1 ≤ k) (hn : cacheData.length = 8 * k)
    (hzero : ¬ allZeroCheck (decomposeData cacheData)) (hraw : ¬ IsRaw (decomposeData cacheData)) :
    ¬ Recoverable cacheData := by
  have hp := length_packet hn
  have hhex := isHex_decomposeData cacheData
  obtain ⟨r, hr, hcase⟩ := payloadCase hp
  cases hcase with
  | zero hz _ => exact absurd hz hzero
  | raw hr' _ => exact absurd hr' hraw
  | same hz hsame h =>
      obtain ⟨other, hlen, hohex, hne, hoz, hosame⟩ := exists_other_same hk (decomposeData cacheData)
      obtain ⟨r', hr', hcase'⟩ := payloadCase hlen
      refine not_recoverable hk hn hlen hohex hne ?_
      rw [hr, hr', Option.map_some, Option.map_some, h]
      cases hcase' with
      | zero hz' _ => exact absurd hz' hoz
      | same _ _ h' => rw [h']
      | block _ _ _ hnot _ _ _ => exact absurd hosame hnot
      | raw hraw _ => exact absurd hosame hraw.1
  | block t ht hz hnot henc _ _ =>
      have hk2 : 2 ≤ k := by
        by_contra hlt
        obtain rfl : k = 1 := by omega
        refine hnot ((allSameVal_iff (k := 0) hp).2 fun sub hsub => ?_)
        rw [chunks_of_length (by decide) (by omega), List.mem_singleton] at hsub
        rw [hsub, List.take_of_length_le (by omega)]
      obtain ⟨u, before, after, -, hfirst⟩ := exists_isFirst k ⟨t, ht, henc⟩
      obtain ⟨other, hlen, hohex, hne, heq⟩ := exists_other_block hk2 hp hhex hz hnot hfirst
      exact not_recoverable hk hn hlen hohex hne (by rw [heq])

/-- The payload of the zero line. -/
theorem payload_zero {packet : Str} {payload : List ℕ} (hk : 1 ≤ k) (hp : packet.length = 16 * k)
    (hz : allZeroCheck packet) (hcase : PayloadCase packet payload) : payload = [48, 48] := by
  cases hcase with
  | zero _ h => exact h
  | same hnot _ _ => exact absurd hz hnot
  | block _ _ hnot _ _ _ _ => exact absurd hz hnot
  | raw hraw _ => exact absurd (allSameVal_of_allZeroCheck hz hk hp) hraw.1

/-- The payload of a line that is not compressed. -/
theorem payload_raw {packet : Str} {payload : List ℕ} (hk : 1 ≤ k) (hp : packet.length = 16 * k)
    (hraw : IsRaw packet) (hcase : PayloadCase packet payload) :
    payload = hexBytes ('F' :: packet) := by
  cases hcase with
  | zero hz _ => exact absurd (allSameVal_of_allZeroCheck hz hk hp) hraw.1
  | same _ hsame _ => exact absurd hsame hraw.1
  | block t ht _ _ henc _ _ => exact absurd ((isSome_encodeBlock_iff hp ht).1 henc) (hraw.2 t ht)
  | raw _ h => exact h

/-- Only the zero line has the payload of the zero line. -/
theorem eq_of_payload_zero {packet other : Str} {payload : List ℕ} (hk : 1 ≤ k)
    (hp : packet.length = 16 * k) (hp' : other.length = 16 * k) (hz : allZeroCheck packet)
    (hcase : PayloadCase packet payload) (hcase' : PayloadCase other payload) : other = packet := by
  have hpay := payload_zero hk hp hz hcase
  cases hcase' with
  | zero hoz _ => rw [(allZeroCheck_iff hp).1 hz, (allZeroCheck_iff hp').1 hoz]
  | same _ _ h => exact absurd (hpay.symm.trans h) (by decide)
  | block _ _ _ _ _ _ h => exact absurd (hpay.symm.trans h) (by simp)
  | raw _ h =>
      obtain ⟨b, rest, hbytes, hb⟩ := hexBytes_cons_F hk hp'
      rw [hpay, hbytes, List.cons.injEq] at h
      omega

/-- A payload that is not compressed tells the line: no other kind starts like it. -/
theorem eq_of_payload_raw {packet other : Str} {payload : List ℕ} (hk : 1 ≤ k)
    (hp : packet.length = 16 * k) (hp' : other.length = 16 * k) (hhex : IsHex packet)
    (hhex' : IsHex other) (hraw : IsRaw packet) (hcase : PayloadCase packet payload)
    (hcase' : PayloadCase other payload) : other = packet := by
  obtain ⟨b, rest, hbytes, hb⟩ := hexBytes_cons_F hk hp
  have hpay : payload = b :: rest := (payload_raw hk hp hraw hcase).trans hbytes
  cases hcase' with
  | zero _ h =>
      rw [hpay, List.cons.injEq] at h
      omega
  | same _ _ h =>
      rw [hpay, List.replicate_succ, List.cons.injEq] at h
      omega
  | block _ _ _ _ _ _ h =>
      rw [hpay, List.cons.injEq] at h
      omega
  | raw _ h =>
      rw [hpay, ← hbytes] at h
      have hcons : ∀ {s : Str}, IsHex s → IsHex ('F' :: s) := by
        intro s hs c hc
        rcases List.mem_cons.1 hc with rfl | hc
        · decide
        · exact hs c hc
      have heq := hexBytes_inj (by rw [List.length_cons, List.length_cons, hp, hp'])
        (hcons hhex) (hcons hhex') h
      exact (List.cons.inj heq).2.symm

/-- **When the payload tells the line.**  For every line of `k` words of eight bytes: no other
line of this length has the same payload if and only if the line is all zero, or is neither one
repeated value nor under a block. -/
theorem recoverable_iff (hk : 1 ≤ k) (hn : cacheData.length = 8 * k) :
    Recoverable cacheData ↔
      decomposeData cacheData = List.replicate (16 * k) '0' ∨ IsRaw (decomposeData cacheData) := by
  have hp := length_packet hn
  constructor
  · intro hrec
    by_contra hnot
    rw [not_or, ← allZeroCheck_iff hp] at hnot
    exact not_recoverable_of_compressed hk hn hnot.1 hnot.2 hrec
  · intro hcond other hlen hpay
    have hn' : other.length = 8 * k := hlen.trans hn
    have hp' := length_packet hn'
    obtain ⟨r, hr, hcase⟩ := payloadCase hp
    obtain ⟨r', hr', hcase'⟩ := payloadCase hp'
    rw [run_eq_finish hk hn, run_eq_finish hk hn', hr, hr', Option.map_some, Option.map_some,
      Option.some.injEq] at hpay
    refine decomposeData_inj (m := 2 * k) (by omega) (by omega) ?_
    rw [hpay] at hcase'
    rcases hcond with hz | hraw
    · exact eq_of_payload_zero hk hp hp' ((allZeroCheck_iff hp).2 hz) hcase hcase'
    · exact eq_of_payload_raw hk hp hp' (isHex_decomposeData cacheData) (isHex_decomposeData other)
        hraw hcase hcase'

/-- A line of eight words of four bytes under the block of four bytes and one-byte deltas. -/
def smallWords (b : UInt8) : List UInt8 :=
  [1, 0, 0, 0, 1, 0, 0, 0, 17, 0, 0, 0, 1, 0, 0, 0, b, 0, 0, 0, 1, 0, 0, 0, 49, 0, 0, 0, 1, 0, 0, 0]

theorem recoverable_iff_smallWords : Recoverable (smallWords 33) ↔
    decomposeData (smallWords 33) = List.replicate (16 * 4) '0' ∨ IsRaw (decomposeData (smallWords 33)) :=
  recoverable_iff (k := 4) (by decide) (by decide)

/-- Two lines that differ in one delta and have one payload. -/
theorem two_lines_one_payload :
    (run (smallWords 33)).map Result.compData = (run (smallWords 37)).map Result.compData ∧
    ¬ ∀ l₁ l₂ : List UInt8, l₁.length = l₂.length →
      (run l₁).map Result.compData = (run l₂).map Result.compData → l₁ = l₂ := by
  have heq : (run (smallWords 33)).map Result.compData =
      (run (smallWords 37)).map Result.compData := by decide +kernel
  refine ⟨heq, fun h => ?_⟩
  have hline := h (smallWords 33) (smallWords 37) rfl heq
  simp [smallWords] at hline

end Recover

end CompressionWork.Bdi
