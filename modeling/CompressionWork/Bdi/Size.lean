import CompressionWork.Bdi.Blocks
import Mathlib.Order.Bounds.Basic

/-!
# Base-delta-immediate compression reports the true optimum

* `exactSizes` — the bit sizes of all cases that describe a packet: all zero, one repeated
  value, a block the packet satisfies, and the packet as it is.
* `length_convertOutput_block` — the payload of a block has the bytes its bits need.
* `run_optimal` — from 32 bytes on, `run` never trips over its assertion and reports the
  smallest of these sizes.
-/

namespace CompressionWork.Bdi

open Codec

/-! ## Payload lengths -/

theorem length_packBits (binary : Str) : (packBits binary).length = (binary.length + 7) / 8 := by
  rw [packBits]
  simp only [List.length_append, List.length_map, List.length_range]
  by_cases h : binary.drop (binary.length / 8 * 8) = []
  · have hle := List.drop_eq_nil_iff.1 h
    rw [if_pos h, List.length_nil]
    omega
  · have hlt : ¬ binary.length ≤ binary.length / 8 * 8 := fun hle => h (List.drop_eq_nil_iff.2 hle)
    rw [if_neg h, List.length_singleton]
    omega

theorem length_hexBytes (decode : Str) : (hexBytes decode).length = (decode.length + 1) / 2 := by
  rw [hexBytes, List.length_map, chunks, List.length_map, List.length_range]
  congr 1

/-- The bits of a part: its mask digit and the bits of its delta. -/
def partBits (part : Str) : Str := part.take 1 ++ hexToBin (part.drop 1)

/-- `binary` for an encoding string that is put together from code, base and parts. -/
theorem toBinary_append {code b : Str} {parts : List Str} {base delta : ℕ} (hcode : code.length = 4)
    (hb : b.length = base) (hparts : ∀ part ∈ parts, part.length = delta + 1) :
    toBinary (code ++ b ++ parts.flatten) delta base =
      code ++ hexToBin b ++ parts.flatMap partBits := by
  have htake : (code ++ b ++ parts.flatten).take 4 = code := by
    rw [List.append_assoc, List.take_left' hcode]
  have hbase : ((code ++ b ++ parts.flatten).drop 4).take base = b := by
    rw [List.append_assoc, List.drop_left' hcode, List.take_left' hb]
  have hdrop : (code ++ b ++ parts.flatten).drop (4 + base) = parts.flatten := by
    rw [List.drop_left' (by rw [List.length_append, hcode, hb])]
  rw [toBinary, htake, hbase, hdrop, chunks_flatten (Nat.succ_pos delta) hparts]
  rfl

theorem length_partBits {part : Str} {delta : ℕ} (h : part.length = delta + 1) :
    (partBits part).length = 1 + 4 * delta := by
  rw [partBits, List.length_append, length_hexToBin, List.length_take, List.length_drop, h]
  omega

theorem length_flatMap_of_forall {α β : Type*} {f : α → List β} {n : ℕ} {l : List α}
    (h : ∀ a ∈ l, (f a).length = n) : (l.flatMap f).length = l.length * n := by
  rw [List.flatMap_def, length_flatten_of_forall (n := n), List.length_map]
  intro l' hl'
  obtain ⟨a, ha, rfl⟩ := List.mem_map.1 hl'
  exact h a ha

section Block

variable {k : ℕ} {packet output : Str} {t : Blocker}

/-- The encoding string of a block, taken apart. -/
theorem exists_parts (hp : packet.length = 16 * k) (ht : t ∈ tracker)
    (h : encodeBlock packet t = some output) :
    ∃ (b : Str) (parts : List Str), output = t.code ++ b ++ parts.flatten ∧ b.length = t.base * 2 ∧
      parts.length = k * 8 / t.base ∧ ∀ part ∈ parts, part.length = t.delta * 2 + 1 := by
  have hsubs := length_of_mem_subs hp ht
  obtain ⟨-, hdb, -⟩ := code_of_mem_tracker ht
  rw [encodeBlock_eq hsubs] at h
  split at h
  · refine ⟨_, _, (Option.some.inj h).symm, length_theBase _ hsubs, ?_, fun part hpart => ?_⟩
    · rw [List.length_map, length_subs hp ht]
    · obtain ⟨sub, hsub, rfl⟩ := List.mem_map.1 hpart
      refine length_encPart ?_
      rw [hsubs sub hsub]
      omega
  · exact absurd h (by simp)

/-- The payload of a block is packed from its bits. -/
theorem convertOutput_block (hp : packet.length = 16 * k) (ht : t ∈ tracker)
    (h : encodeBlock packet t = some output) :
    convertOutput output (t.delta * 2) (t.base * 2) =
      packBits (toBinary output (t.delta * 2) (t.base * 2)) := by
  obtain ⟨hcode, -, hhead, h0000, h0001⟩ := code_of_mem_tracker ht
  obtain ⟨b, parts, rfl, -, -, -⟩ := exists_parts hp ht h
  have htake : (t.code ++ b ++ parts.flatten).take 4 = t.code := by
    rw [List.append_assoc, List.take_left' hcode]
  have h1111 : t.code ≠ ['1', '1', '1', '1'] := by
    intro heq
    rw [heq] at hhead
    exact absurd hhead (by decide)
  rw [convertOutput, htake, if_neg h0000, if_neg h0001, if_neg h1111]

/-- **The payload of a block has the bytes its bits need.** -/
theorem length_convertOutput_block (hp : packet.length = 16 * k) (ht : t ∈ tracker)
    (h : encodeBlock packet t = some output) :
    (convertOutput output (t.delta * 2) (t.base * 2)).length = (blockBits k t + 7) / 8 := by
  rw [convertOutput_block hp ht h, length_packBits]
  obtain ⟨hcode, -⟩ := code_of_mem_tracker ht
  obtain ⟨b, parts, rfl, hb, hlen, hparts⟩ := exists_parts hp ht h
  have hbits : (toBinary (t.code ++ b ++ parts.flatten) (t.delta * 2) (t.base * 2)).length =
      blockBits k t := by
    rw [toBinary_append hcode hb hparts, List.length_append, List.length_append, hcode,
      length_hexToBin, hb, length_flatMap_of_forall fun part hpart =>
        length_partBits (hparts part hpart), hlen, blockBits,
      show 4 * (t.delta * 2) = t.delta * 8 by omega]
    omega
  rw [hbits]

end Block

/-! ## The optimum -/

/-- The bit sizes of the cases that describe a packet. -/
def exactSizes (packet : Str) : Set ℕ :=
  {s | (packet = List.replicate packet.length '0' ∧ s = 12) ∨
    ((∀ sub ∈ chunks 16 packet, sub = packet.take 16) ∧ s = 68) ∨
    (∃ t ∈ tracker, Satisfies packet (t.base * 2) (t.delta * 2) ∧
      s = 4 + t.base * 8 + packet.length / (t.base * 2) * (1 + t.delta * 8)) ∨
    s = 4 + 4 * packet.length}

theorem allSameVal_iff {k : ℕ} {packet : Str} (hp : packet.length = 16 * (k + 1)) :
    allSameVal packet ↔ ∀ sub ∈ chunks 16 packet, sub = packet.take 16 := by
  have hsplit : packet = packet.take 16 ++ packet.drop 16 := (List.take_append_drop ..).symm
  have hlen : (packet.take 16).length = 16 := by rw [List.length_take, hp]; omega
  have hchunks : chunks 16 packet = packet.take 16 :: chunks 16 (packet.drop 16) := by
    conv_lhs => rw [hsplit]
    exact chunks_append (by decide) hlen _
  rw [hchunks, allSameVal, List.all_eq_true]
  simp only [decide_eq_true_eq, List.mem_cons, forall_eq_or_imp, true_and]
  exact forall₂_congr fun _ _ => eq_comm

/-- From four chunks of eight bytes on, a block is larger than a repeated value, and not
larger than the packet. -/
theorem blockBits_bounds {k : ℕ} (hk : 4 ≤ k) {t : Blocker} (ht : t ∈ tracker) :
    68 ≤ blockBits k t ∧ blockBits k t ≤ 4 + 64 * k := by
  simp only [tracker, List.mem_cons, List.not_mem_nil, or_false] at ht
  rcases ht with rfl | rfl | rfl | rfl | rfl | rfl <;> simp only [blockBits] <;> omega

theorem blockBits_eq {k : ℕ} {packet : Str} (hp : packet.length = 16 * k) (t : Blocker) :
    4 + t.base * 8 + packet.length / (t.base * 2) * (1 + t.delta * 8) = blockBits k t := by
  have hdiv : packet.length / (t.base * 2) = k * 8 / t.base := by
    rw [hp, Nat.mul_comm t.base 2, ← Nat.div_div_eq_div_mul, show 16 * k / 2 = k * 8 by omega]
  rw [hdiv, blockBits]

theorem isSome_encodeBlock_iff {k : ℕ} {packet : Str} (hp : packet.length = 16 * k) {t : Blocker}
    (ht : t ∈ tracker) :
    (encodeBlock packet t).isSome ↔ Satisfies packet (t.base * 2) (t.delta * 2) := by
  have hsubs := length_of_mem_subs hp ht
  rw [← fits_iff_satisfies hsubs, encodeBlock_eq hsubs]
  split <;> simp_all

/-- The choice is the optimum, and its payload has the right length. -/
theorem choose_optimal {k : ℕ} (hk : 4 ≤ k) {packet : Str} (hp : packet.length = 16 * k) :
    ∃ bits, (choose packet).newCompBitSize = some bits ∧ IsLeast (exactSizes packet) bits ∧
      bits ≤ 4 + 64 * k ∧
      (convertOutput (choose packet).newOut (choose packet).newUsedDelta
        (choose packet).newUsedBase).length = (bits + 7) / 8 := by
  have hge : ∀ t ∈ tracker, 68 ≤ 4 + t.base * 8 + packet.length / (t.base * 2) *
      (1 + t.delta * 8) := by
    intro t ht
    rw [blockBits_eq hp t]
    exact (blockBits_bounds hk ht).1
  by_cases hz : packet = List.replicate packet.length '0'
  · -- all zero
    have hzc : allZeroCheck packet := by
      rw [allZeroCheck, decide_eq_true_iff]
      exact hz
    refine ⟨12, by rw [choose, if_pos hzc], ⟨Or.inl ⟨hz, rfl⟩, ?_⟩, by omega, ?_⟩
    · rintro s (⟨-, rfl⟩ | ⟨-, rfl⟩ | ⟨t, ht, -, rfl⟩ | rfl)
      · exact Nat.le_refl _
      · decide
      · exact le_trans (by decide) (hge t ht)
      · omega
    · rw [choose, if_pos hzc]
      rfl
  · have hzc : ¬ allZeroCheck packet := by
      rw [allZeroCheck, decide_eq_true_iff]
      exact hz
    obtain ⟨j, rfl⟩ : ∃ j, k = j + 1 := ⟨k - 1, by omega⟩
    by_cases hr : ∀ sub ∈ chunks 16 packet, sub = packet.take 16
    · -- one repeated value
      have hrc : allSameVal packet := (allSameVal_iff hp).2 hr
      refine ⟨68, by rw [choose, if_neg hzc, if_pos hrc], ⟨Or.inr (Or.inl ⟨hr, rfl⟩), ?_⟩,
        by omega, ?_⟩
      · rintro s (⟨h, -⟩ | ⟨-, rfl⟩ | ⟨t, ht, -, rfl⟩ | rfl)
        · exact absurd h hz
        · exact Nat.le_refl _
        · exact hge t ht
        · omega
      · rw [choose, if_neg hzc, if_pos hrc]
        rfl
    · have hrc : ¬ allSameVal packet := fun h => hr ((allSameVal_iff hp).1 h)
      by_cases hb : ∃ t ∈ tracker, (encodeBlock packet t).isSome
      · -- the first smallest block
        obtain ⟨t, before, after, ht, hfirst⟩ := exists_isFirst (j + 1) hb
        obtain ⟨output, henc⟩ := Option.isSome_iff_exists.1 hfirst.applies
        have hsat := (isSome_encodeBlock_iff hp ht).1 hfirst.applies
        rw [choose_of_first hp hzc hrc hfirst henc]
        refine ⟨blockBits (j + 1) t, rfl,
          ⟨Or.inr (Or.inr (Or.inl ⟨t, ht, hsat, (blockBits_eq hp t).symm⟩)), ?_⟩,
          (blockBits_bounds hk ht).2, length_convertOutput_block hp ht henc⟩
        rintro s (⟨h, -⟩ | ⟨h, -⟩ | ⟨u, hu, husat, rfl⟩ | rfl)
        · exact absurd h hz
        · exact absurd h hr
        · rw [blockBits_eq hp u]
          have huapp := (isSome_encodeBlock_iff hp hu).2 husat
          have hmem := hu
          rw [hfirst.split, List.mem_append, List.mem_cons] at hmem
          rcases hmem with hmem | rfl | hmem
          · exact le_of_lt (hfirst.before_lt u hmem huapp)
          · exact Nat.le_refl _
          · exact hfirst.after_le u hmem huapp
        · have hle := (blockBits_bounds hk ht).2
          omega
      · -- the packet as it is
        have hnone : ∀ t ∈ tracker, encodeBlock packet t = none := fun t ht =>
          Option.not_isSome_iff_eq_none.1 fun h => hb ⟨t, ht, h⟩
        rw [choose_of_none hzc hrc hnone]
        refine ⟨4 + packet.length * 4, rfl, ⟨Or.inr (Or.inr (Or.inr (by rw [Nat.mul_comm]))), ?_⟩,
          by omega, ?_⟩
        · rintro s (⟨h, -⟩ | ⟨h, -⟩ | ⟨u, hu, husat, -⟩ | rfl)
          · exact absurd h hz
          · exact absurd h hr
          · exact absurd ⟨u, hu, (isSome_encodeBlock_iff hp hu).2 husat⟩ hb
          · omega
        · have htake : (['1', '1', '1', '1'] ++ packet).take 4 = ['1', '1', '1', '1'] := rfl
          rw [convertOutput, htake, if_neg (by decide), if_neg (by decide), if_pos rfl,
            length_hexBytes, List.length_cons]
          show (packet.length + 1 + 1) / 2 = _
          omega

/-- **`run` reports the true optimum.**  For every line of `n` bytes, `n` a multiple of 8 and
at least 32, the assertion holds, the reported bits are the smallest exact size of the cases
that describe the packet, at most `4 + 8n`, and the reported bytes are those of the payload. -/
theorem run_optimal {n : ℕ} (h8 : n % 8 = 0) (h32 : 32 ≤ n) {cacheData : List UInt8}
    (hn : cacheData.length = n) :
    ∃ r, run cacheData = some r ∧ IsLeast (exactSizes (decomposeData cacheData)) r.compDataBits ∧
      r.compDataBits ≤ 4 + 8 * n ∧ r.compDataSize = (r.compDataBits + 7) / 8 ∧
      r.compData.length = r.compDataSize := by
  obtain ⟨k, hk⟩ : ∃ k, n = 8 * k := ⟨n / 8, by omega⟩
  have hp : (decomposeData cacheData).length = 16 * k := by
    rw [length_decomposeData (m := 2 * k) (by omega)]
    omega
  have hne : cacheData ≠ [] := by
    rintro rfl
    rw [List.length_nil] at hn
    omega
  obtain ⟨bits, hbits, hleast, hle, hlen⟩ := choose_optimal (by omega) hp
  have hle' : bits ≤ 4 + 8 * n := by omega
  refine ⟨⟨(bits + 7) / 8, bits, convertOutput (choose (decomposeData cacheData)).newOut
    (choose (decomposeData cacheData)).newUsedDelta
    (choose (decomposeData cacheData)).newUsedBase⟩, ?_, hleast, hle', rfl, hlen⟩
  rw [run, if_neg hne, finish]
  simp only [hbits, Option.getD_some, hlen, if_pos]

/-- A line under the block of four bytes and one-byte deltas. -/
def deltaLine : List UInt8 :=
  [0, 1, 0, 0, 7, 1, 0, 0, 17, 1, 0, 0, 3, 1, 0, 0, 33, 1, 0, 0, 0, 1, 0, 0, 49, 1, 0, 0, 9, 1, 0, 0]

theorem run_optimal_deltaLine :
    ∃ r, run deltaLine = some r ∧ r.compDataBits = 4 + 32 + 8 * (1 + 8) ∧
      IsLeast (exactSizes (decomposeData deltaLine)) r.compDataBits ∧
      r.compDataBits ≤ 4 + 8 * 32 ∧ r.compDataSize = (r.compDataBits + 7) / 8 ∧
      r.compData.length = r.compDataSize := by
  obtain ⟨r, hr, hrest⟩ := run_optimal (by decide) (by decide) (show deltaLine.length = 32 by decide)
  have hbits : (run deltaLine).map (·.compDataBits) = some 108 := by decide +kernel
  rw [hr] at hbits
  exact ⟨r, hr, Option.some.inj hbits, hrest⟩

end CompressionWork.Bdi
