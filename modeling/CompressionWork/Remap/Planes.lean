import CompressionWork.Remap.Chars

/-!
# The bit planes of a character line

With `hpcl_char_remap_1bit_en` a remapped line is eight bit planes.  `remap_char_data` sets up
`remapp_list`, the order of the planes, and another one for `hpcl_char_remap_1bit_swap_en`;
but its loop takes only the size of the list and clusters bit `m` in the `m`-th plane.

* `bit_pack` — eight bits packed into a byte come back out of it.
* `bitPlanes_getElem?` — the bytes of the planes.
* `planes_iff` — when the planes stand in the order of the list.
-/

namespace CompressionWork.Remap

/-- Bit `m` of a byte. -/
def bit (m : ℕ) (b : UInt8) : ℕ := b.toNat / 2 ^ m % 2

/-- `remapp_list` as the source sets it up. -/
def remappList (swapEn : Bool) : List ℕ :=
  if swapEn then [7, 5, 6, 4, 3, 2, 1, 0] else [7, 6, 5, 4, 3, 2, 1, 0]

/-- The loop over the planes, for any `remapp_list`: `m` runs below the size of the list, and
no entry of it is read. -/
def bitPlanes (remapp : List ℕ) (data : List UInt8) : List UInt8 :=
  (List.range remapp.length).flatMap fun m =>
    (List.range (data.length / 8)).map fun g => bitPlane m ((data.drop (g * 8)).take 8)

/-- The 1-bit mode is this loop. -/
theorem remapCharData_planes (swapEn : Bool) {data : List UInt8} (h8 : 8 ∣ data.length) :
    remapCharData ⟨false, false, true⟩ data =
      (bytePairs data).map fun _ => bitPlanes (remappList swapEn) data := by
  have hsize : (remappList swapEn).length = 8 := by cases swapEn <;> rfl
  have hmod : data.length % 8 = 0 := Nat.mod_eq_zero_of_dvd h8
  rw [remapCharData, bitPlanes, hsize]
  cases bytePairs data with
  | none => rfl
  | some pairs => simp [highClusters, hmod]

/-! ## Bits of a packed byte -/

/-- The loop that packs one bit of each byte. -/
theorem pack_lt (f : UInt8 → ℕ) (bytes : List UInt8) :
    bytes.foldr (fun b acc => f b % 2 + 2 * acc) 0 < 2 ^ bytes.length := by
  induction bytes with
  | nil => simp
  | cons b bytes ih =>
      rw [List.foldr_cons, List.length_cons, Nat.pow_succ]
      have := Nat.mod_lt (f b) (by decide : 0 < 2)
      omega

theorem pack_bit (f : UInt8 → ℕ) (bytes : List UInt8) (j : ℕ) (hj : j < bytes.length) :
    bytes.foldr (fun b acc => f b % 2 + 2 * acc) 0 / 2 ^ j % 2 = f bytes[j] % 2 := by
  induction bytes generalizing j with
  | nil => simp at hj
  | cons b bytes ih =>
      rw [List.foldr_cons]
      cases j with
      | zero =>
          rw [Nat.pow_zero, Nat.div_one, List.getElem_cons_zero]
          omega
      | succ j =>
          have hj' : j < bytes.length := Nat.lt_of_succ_lt_succ hj
          rw [List.getElem_cons_succ, ← ih j hj', Nat.pow_succ, Nat.mul_comm (2 ^ j),
            ← Nat.div_div_eq_div_mul]
          have hb := Nat.mod_lt (f b) (by decide : 0 < 2)
          congr 2
          omega

/-- Up to eight bits packed into a byte come back out of it. -/
theorem bit_pack (f : UInt8 → ℕ) {bytes : List UInt8} (hlen : bytes.length ≤ 8) {j : ℕ}
    (hj : j < bytes.length) :
    bit j (UInt8.ofNat (bytes.foldr (fun b acc => f b % 2 + 2 * acc) 0)) = f bytes[j] % 2 := by
  have hlt : bytes.foldr (fun b acc => f b % 2 + 2 * acc) 0 < 256 :=
    Nat.lt_of_lt_of_le (pack_lt f bytes) (Nat.pow_le_pow_right (by decide) hlen)
  rw [bit, UInt8.toNat_ofNat', Nat.mod_eq_of_lt hlt, pack_bit f bytes j hj]

/-- Byte `i` of a line gives bit `i % 8` of the byte its slice is packed into. -/
theorem bit_pack_slice (f : UInt8 → ℕ) {data : List UInt8} {i : ℕ} (hi : i < data.length) :
    bit (i % 8) (UInt8.ofNat (((data.drop (i / 8 * 8)).take 8).foldr
      (fun b acc => f b % 2 + 2 * acc) 0)) = f data[i] % 2 := by
  have hj : i % 8 < ((data.drop (i / 8 * 8)).take 8).length := by
    rw [List.length_take, List.length_drop]
    omega
  rw [bit_pack f (List.length_take_le ..) hj, List.getElem_take, List.getElem_drop]
  congr 3
  omega

/-! ## The order of the planes -/

/-- Plane `m` of `out` holds bit `order m` of every byte of the line, eight bytes of the line
in a byte of the plane. -/
def PlanesAre (order : ℕ → ℕ) (data out : List UInt8) : Prop :=
  out.length = data.length ∧ ∀ m < 8, ∀ i (hi : i < data.length),
    ∃ byte, out[m * (data.length / 8) + i / 8]? = some byte ∧
      bit (i % 8) byte = bit (order m) data[i]

/-- A list of blocks of one length, block by block. -/
theorem getElem?_blocks {α : Type*} (F : ℕ → List α) {n L : ℕ} (hF : ∀ m, (F m).length = L)
    {m g : ℕ} (hm : m < n) (hg : g < L) :
    ((List.range n).flatMap F)[m * L + g]? = (F m)[g]? := by
  induction n generalizing F m with
  | zero => exact absurd hm (Nat.not_lt_zero _)
  | succ n ih =>
      rw [List.range_succ_eq_map, List.flatMap_cons, List.flatMap_map]
      cases m with
      | zero =>
          rw [Nat.zero_mul, Nat.zero_add, List.getElem?_append_left (by rw [hF]; exact hg)]
      | succ m =>
          have hidx : (m + 1) * L + g - (F 0).length = m * L + g := by
            rw [hF, Nat.succ_mul]
            omega
          rw [List.getElem?_append_right (by rw [hF, Nat.succ_mul]; omega), hidx]
          exact ih (fun k => F (k + 1)) (fun k => hF (k + 1)) (Nat.lt_of_succ_lt_succ hm)

/-- A byte of a plane. -/
theorem bitPlanes_getElem? (remapp : List ℕ) (data : List UInt8) {m g : ℕ}
    (hm : m < remapp.length) (hg : g < data.length / 8) :
    (bitPlanes remapp data)[m * (data.length / 8) + g]? =
      some (bitPlane m ((data.drop (g * 8)).take 8)) := by
  rw [bitPlanes, getElem?_blocks _ (fun m => by simp) hm hg]
  simp [hg]

/-- The bits of the planes, whatever the list is: bit `m` in plane `m`. -/
theorem bitPlanes_bit (remapp : List ℕ) {data : List UInt8} (h8 : 8 ∣ data.length) {m i : ℕ}
    (hm : m < remapp.length) (hi : i < data.length) :
    ∃ byte, (bitPlanes remapp data)[m * (data.length / 8) + i / 8]? = some byte ∧
      bit (i % 8) byte = bit m data[i] := by
  have hg : i / 8 < data.length / 8 := Nat.div_lt_div_of_lt_of_dvd h8 hi
  exact ⟨_, bitPlanes_getElem? remapp data hm hg, bit_pack_slice (fun b => b.toNat / 2 ^ m) hi⟩

theorem planesAre_bitPlanes {remapp : List ℕ} (hlen : remapp.length = 8) {data : List UInt8}
    (h8 : 8 ∣ data.length) (order : ℕ → ℕ) :
    PlanesAre order data (bitPlanes remapp data) ↔
      ∀ b ∈ data, ∀ m < 8, bit (order m) b = bit m b := by
  constructor
  · rintro ⟨-, h⟩ b hb m hm
    obtain ⟨i, hi, rfl⟩ := List.getElem_of_mem hb
    obtain ⟨byte, hbyte, hbit⟩ := h m hm i hi
    obtain ⟨byte', hbyte', hbit'⟩ := bitPlanes_bit remapp h8 (hlen ▸ hm) hi
    rw [hbyte] at hbyte'
    rw [← hbit, ← hbit', Option.some.inj hbyte']
  · intro h
    refine ⟨?_, fun m hm i hi => ?_⟩
    · rw [bitPlanes, hlen]
      simp [List.length_flatMap]
      omega
    · obtain ⟨byte, hbyte, hbit⟩ := bitPlanes_bit remapp h8 (hlen ▸ hm) hi
      exact ⟨byte, hbyte, by rw [hbit, h _ (List.getElem_mem hi) m hm]⟩

/-- **When the planes stand in the order of the list**: swapping is off, where bit `m` makes
plane `m`, or every byte has its bits `m` and `remapp_list[m]` equal. -/
theorem planes_iff (swapEn : Bool) {remapp : List ℕ} (hperm : remapp.Perm (List.range 8))
    {data : List UInt8} (h8 : 8 ∣ data.length) :
    PlanesAre (fun m => if swapEn then remapp.getD m 0 else m) data
        (bitPlanes (if swapEn then remapp else remappList false) data) ↔
      swapEn = false ∨ ∀ b ∈ data, ∀ m < 8, bit (remapp.getD m 0) b = bit m b := by
  have hlen : (if swapEn then remapp else remappList false).length = 8 := by
    cases swapEn with
    | false => rfl
    | true => simpa using hperm.length_eq
  rw [planesAre_bitPlanes hlen h8]
  cases swapEn <;> simp

/-- Swapping on, for a byte whose bits are the same in both orders. -/
theorem planes_iff_ninety_nine :
    (remappList true).Perm (List.range 8) ∧ 8 ∣ (List.replicate 8 (0x99 : UInt8)).length ∧
      (PlanesAre (fun m => if true then (remappList true).getD m 0 else m)
          (List.replicate 8 0x99)
          (bitPlanes (if true then remappList true else remappList false)
            (List.replicate 8 0x99)) ↔
        true = false ∨ ∀ b ∈ List.replicate 8 (0x99 : UInt8), ∀ m < 8,
          bit ((remappList true).getD m 0) b = bit m b) :=
  have hperm : (remappList true).Perm (List.range 8) := by decide
  have h8 : 8 ∣ (List.replicate 8 (0x99 : UInt8)).length := by decide
  ⟨hperm, h8, planes_iff true hperm h8⟩

/-- Eight bytes `01` under the list the source sets up for swapping: plane 0 should hold their
bits 7. -/
theorem not_planes_swapped : ¬ ∀ (swapEn : Bool) (remapp : List ℕ) (data : List UInt8),
    remapp.Perm (List.range 8) → 8 ∣ data.length →
      PlanesAre (fun m => if swapEn then remapp.getD m 0 else m) data
        (bitPlanes (if swapEn then remapp else remappList false) data) := by
  intro h
  have h01 := h true (remappList true) (List.replicate 8 0x01) (by decide) (by decide)
  exact absurd ((planesAre_bitPlanes (by decide) (by decide) _).1 h01) (by decide)

end CompressionWork.Remap
