import CompressionWork.Remap.Ops
import Mathlib.Data.Set.Card
import Mathlib.Data.Fintype.Card
import Mathlib.Data.Vector.Basic
import Mathlib.Data.Set.Finite.List
import Mathlib.Data.Fintype.BigOperators

/-!
# Remap operations are paid for

Each operation of the remapper loses something: which nibbles were masked or complemented,
how far they were above the least one.  A bit string that is no longer than the bits charged
holds all of it.

* `sideInfo` — this bit string: the operation, and a field for each nibble.
* `recover` — the subgroup from the new one and the bit string; it knows nothing else.
* `remapSubgroup_cases` — what a round can do, said once with the fields of the nibbles.
* `remapSubgroup_paid` — the bit string fits what is charged, the subgroup comes back, and a result
  has at most as many preimages as the charge has bit strings.
* `remapOps_paid` — the same for a line, where the bits charged up front say which subgroups are
  modified.
-/

namespace CompressionWork.Remap

open Codec

/-! ## Bit strings -/

/-- There are `2 ^ k` bit strings of length `k`. -/
theorem ncard_bitStrings (k : ℕ) : {l : List Bool | l.length = k}.ncard = 2 ^ k := by
  have hcard : Nat.card (List.Vector Bool k) = 2 ^ k := by
    rw [Nat.card_eq_fintype_card, card_vector, Fintype.card_bool]
  rw [← hcard]
  exact (Nat.card_coe_set_eq _).symm

/-! ## Fields -/

namespace RemapOp

/-- The bits that name the operation: two, and one more for the greatest delta. -/
def code : RemapOp → List Bool
  | mask => [false, false]
  | comp => [false, true]
  | deltaUpto1 => [true, false, false]
  | deltaUpto3 => [true, false, true]
  | compDeltaUpto1 => [true, true, false]
  | compDeltaUpto3 => [true, true, true]

/-- The operation that the next bits name. -/
def read : List Bool → Option (RemapOp × List Bool)
  | false :: false :: bs => some (mask, bs)
  | false :: true :: bs => some (comp, bs)
  | true :: false :: false :: bs => some (deltaUpto1, bs)
  | true :: false :: true :: bs => some (deltaUpto3, bs)
  | true :: true :: false :: bs => some (compDeltaUpto1, bs)
  | true :: true :: true :: bs => some (compDeltaUpto3, bs)
  | _ => none

theorem read_code (op : RemapOp) (bs : List Bool) : read (op.code ++ bs) = some (op, bs) := by
  cases op <;> rfl

/-- The bits of the field of a nibble. -/
def width : RemapOp → ℕ
  | mask => 1
  | comp => 1
  | deltaUpto1 => 1
  | deltaUpto3 => 2
  | compDeltaUpto1 => 2
  | compDeltaUpto3 => 3

/-- The field of the nibble `v`, where `m` is the least nibble: whether it is not masked, whether it
is complemented, how far it is above the least one. -/
def field (m : ℕ) : RemapOp → ℕ → ℕ
  | mask, v => if v = 0 then 0 else 1
  | comp, v => if 7 < v then 1 else 0
  | deltaUpto1, v => v - m
  | deltaUpto3, v => v - m
  | compDeltaUpto1, v => (if 7 < v then 2 else 0) + (complementNib v - m)
  | compDeltaUpto3, v => (if 7 < v then 4 else 0) + (complementNib v - m)

/-- The nibble, from the new one and the field. -/
def undo : RemapOp → ℕ → ℕ → ℕ
  | mask, t, c => if c = 0 then 0 else t
  | comp, t, c => if c = 1 then 15 - t else t
  | deltaUpto1, t, c => t + c
  | deltaUpto3, t, c => t + c
  | compDeltaUpto1, t, c => if 2 ≤ c then 15 - (t + (c - 2)) else t + c
  | compDeltaUpto3, t, c => if 4 ≤ c then 15 - (t + (c - 4)) else t + c

/-- What the source charges. -/
def charge (op : RemapOp) : ℕ :=
  match op with
  | mask => 20
  | comp => 20
  | deltaUpto1 => 21
  | deltaUpto3 => 37
  | compDeltaUpto1 => 37
  | compDeltaUpto3 => 53

/-- **The charge covers the name and a field for each nibble.** -/
theorem code_add_fields_le (op : RemapOp) :
    op.code.length + subgroupSize * 2 * op.width ≤ op.charge := by
  cases op <;> decide

end RemapOp

/-! ## The side information -/

/-- The least nibble after the complement. -/
def leastNib (g : List UInt8) : ℕ := (computeDelta (complementData g).1).minNib

/-- What has to be kept of a subgroup. -/
def sideInfo (g : List UInt8) : List Bool :=
  match (remapSubgroup g).op with
  | none => []
  | some op => op.code ++ (nibs g).flatMap fun v => bits op.width (op.field (leastNib g) v)

/-- The nibbles, from the new ones and the fields. -/
def recoverNibs (op : RemapOp) : List ℕ → List Bool → Option (List ℕ × List Bool)
  | [], bs => some ([], bs)
  | t :: ts, bs =>
      if bs.length < op.width then none
      else (recoverNibs op ts (bs.drop op.width)).map fun r =>
        (op.undo t (ofBits (bs.take op.width)) :: r.1, r.2)

/-- The subgroup, from the new one and what follows the flag, with the bits that are left. -/
def recoverModified (data : List UInt8) (bs : List Bool) : Option (List UInt8 × List Bool) :=
  (RemapOp.read bs).bind fun p =>
    (recoverNibs p.1 (nibs data) p.2).map fun r => (joinNibs r.1, r.2)

/-- The subgroup, from the new one and its side information. -/
def recover (data : List UInt8) (side : List Bool) : Option (List UInt8) :=
  if side = [] then some data else (recoverModified data side).map Prod.fst

theorem recoverNibs_fields (op : RemapOp) (m : ℕ) (τ : ℕ → ℕ) (vs : List ℕ) (bs : List Bool)
    (h : ∀ v ∈ vs, op.field m v < 2 ^ op.width ∧ op.undo (τ v) (op.field m v) = v) :
    recoverNibs op (vs.map τ) ((vs.flatMap fun v => bits op.width (op.field m v)) ++ bs) =
      some (vs, bs) := by
  induction vs with
  | nil => rfl
  | cons v vs ih =>
      obtain ⟨hlt, hundo⟩ := h v List.mem_cons_self
      have hrest := ih fun w hw => h w (List.mem_cons_of_mem v hw)
      rw [List.map_cons, List.flatMap_cons, List.append_assoc, recoverNibs, if_neg (by simp),
        List.drop_left' (length_bits _ _), List.take_left' (length_bits _ _), hrest,
        ofBits_bits hlt, Option.map_some, hundo]

/-! ## What a round can do -/

/-- The operation `op` has been applied: the bits charged are those of the operation, the nibbles
are changed one by one, and their fields bring them back. -/
structure Applied (g : List UInt8) (r : Remapped) (op : RemapOp) : Prop where
  op_eq : r.op = some op
  addedBits : r.addedBits = op.charge
  fields : ∃ τ : ℕ → ℕ, nibs r.data = (nibs g).map τ ∧ ∀ v ∈ nibs g,
    op.field (leastNib g) v < 2 ^ op.width ∧ op.undo (τ v) (op.field (leastNib g) v) = v

/-- A subgroup is left as it is and free, or an operation is applied to it. -/
inductive Round (g : List UInt8) (r : Remapped) : Prop
  | kept (data : r.data = g) (addedBits : r.addedBits = 0) (op : r.op = none)
  | applied (op : RemapOp) (h : Applied g r op)

section
variable {g : List UInt8}

theorem nibs_fill_eq_map (hg : g.length = subgroupSize) {nib : ℕ} (h : nib < 16) :
    nibs (fill nib) = (nibs g).map fun _ => nib := by
  rw [nibs_fill h, List.map_const', length_nibs, hg]

theorem applied_mask (hg : g.length = subgroupSize) (h : (computeMasking g).1 = true) :
    Applied g ⟨fill (computeMasking g).2, subgroupSize * 2 + opBits + 2, some .mask⟩ .mask := by
  obtain ⟨hlt, hnibs⟩ := computeMasking_spec h
  refine ⟨rfl, rfl, _, nibs_fill_eq_map hg hlt, fun v hv => ?_⟩
  simp only [RemapOp.field, RemapOp.undo, RemapOp.width]
  rcases hnibs v hv with rfl | hmax
  · simp
  · by_cases hzero : v = 0
    · simp [hzero]
    · simp only [if_neg hzero]
      exact ⟨by decide, hmax.symm⟩

theorem applied_comp (h : (complementData g).1 = g.map complementByte) :
    Applied g ⟨(complementData g).1, subgroupSize * 2 + opBits + 2, some .comp⟩ .comp := by
  refine ⟨rfl, rfl, complementNib, ?_, fun v hv => ?_⟩
  · rw [h, nibs_map_complementByte]
  · have hlt := lt_of_mem_nibs hv
    simp only [RemapOp.field, RemapOp.undo, RemapOp.width, complementNib]
    by_cases hbig : 7 < v
    · simp only [if_pos hbig, if_true]
      exact ⟨by decide, by omega⟩
    · simp [hbig]

/-- The nibbles, complemented or not, are close to the least one. -/
theorem delta_bounds (hne : g ≠ []) (h : (computeDelta (complementData g).1).use = true) :
    leastNib g < 16 ∧ 1 ≤ (computeDelta (complementData g).1).maxDelta ∧
      (computeDelta (complementData g).1).maxDelta ≤ 3 ∧
      ∀ v ∈ nibs (complementData g).1, leastNib g ≤ v ∧
        (v : ℤ) ≤ leastNib g + (computeDelta (complementData g).1).maxDelta := by
  have hcomp : (complementData g).1 ≠ [] := by
    rcases complementData_spec g with ⟨-, hdata⟩ | ⟨-, hdata⟩ <;> rw [hdata]
    · simpa using hne
    · exact hne
  obtain ⟨hone, hthree, hlt, hle⟩ := computeDelta_spec hcomp h
  exact ⟨hlt, hone, hthree, hle⟩

/-- Only deltas: the nibbles are at most 1, or at most 3, above the least one. -/
theorem applied_delta (hg : g.length = subgroupSize) {op : RemapOp} {d : ℕ}
    (hop : op = .deltaUpto1 ∧ d = 1 ∨ op = .deltaUpto3 ∧ d = 3) (hlt : leastNib g < 16)
    (h : ∀ v ∈ nibs g, leastNib g ≤ v ∧ v ≤ leastNib g + d) :
    Applied g ⟨fill (leastNib g), op.charge, some op⟩ op := by
  refine ⟨rfl, rfl, _, nibs_fill_eq_map hg hlt, fun v hv => ?_⟩
  obtain ⟨hle, hd⟩ := h v hv
  rcases hop with ⟨rfl, rfl⟩ | ⟨rfl, rfl⟩ <;>
    exact ⟨by simp only [RemapOp.field, RemapOp.width]; omega,
      by simp only [RemapOp.field, RemapOp.undo]; omega⟩

/-- Complement and deltas: the same of the complemented nibbles. -/
theorem applied_compDelta (hg : g.length = subgroupSize) {op : RemapOp} {d : ℕ}
    (hop : op = .compDeltaUpto1 ∧ d = 1 ∨ op = .compDeltaUpto3 ∧ d = 3) (hlt : leastNib g < 16)
    (h : ∀ v ∈ nibs g, leastNib g ≤ complementNib v ∧ complementNib v ≤ leastNib g + d) :
    Applied g ⟨fill (leastNib g), op.charge, some op⟩ op := by
  refine ⟨rfl, rfl, _, nibs_fill_eq_map hg hlt, fun v hv => ?_⟩
  have hsmall := lt_of_mem_nibs hv
  obtain ⟨hle, hd⟩ := h v hv
  -- the top bit of the field says whether `v` is 15 minus the complemented nibble
  by_cases hbig : 7 < v
  · have hcomp : complementNib v = 15 - v := if_pos hbig
    rw [hcomp] at hle hd
    rcases hop with ⟨rfl, rfl⟩ | ⟨rfl, rfl⟩ <;>
      simp only [RemapOp.field, RemapOp.undo, RemapOp.width, if_pos hbig, hcomp]
    · exact ⟨by omega, by rw [if_pos (by omega)]; omega⟩
    · exact ⟨by omega, by rw [if_pos (by omega)]; omega⟩
  · have hcomp : complementNib v = v := if_neg hbig
    rw [hcomp] at hle hd
    rcases hop with ⟨rfl, rfl⟩ | ⟨rfl, rfl⟩ <;>
      simp only [RemapOp.field, RemapOp.undo, RemapOp.width, if_neg hbig, hcomp]
    · exact ⟨by omega, by rw [if_neg (by omega)]; omega⟩
    · exact ⟨by omega, by rw [if_neg (by omega)]; omega⟩

/-- **What a round can do.** -/
theorem remapSubgroup_cases (hg : g.length = subgroupSize) : Round g (remapSubgroup g) := by
  have hne : g ≠ [] := fun hnil => by simp [hnil, subgroupSize] at hg
  unfold remapSubgroup
  split
  · exact .kept rfl rfl rfl
  dsimp only
  by_cases hmask : (computeMasking g).1 = true
  · rw [if_pos hmask]
    exact .applied _ (applied_mask hg hmask)
  rw [if_neg hmask]
  cases hdelta : (computeDelta (complementData g).1).use with
  | false =>
      rcases complementData_spec g with ⟨huse, hdata⟩ | ⟨huse, -⟩
      · -- the complement is used when it makes all nibbles the same
        simp only [huse]
        split
        · simp only [Bool.false_and, Bool.and_false, Bool.false_eq_true, if_false]
          exact .kept rfl rfl rfl
        · simp only [Bool.not_false, Bool.and_true, if_true]
          exact .applied _ (applied_comp hdata)
      · simp only [huse, ite_self, Bool.false_and, Bool.and_false, Bool.false_eq_true, if_false]
        exact .kept rfl rfl rfl
  | true =>
      obtain ⟨hlt, hone, hthree, hle⟩ := delta_bounds hne hdelta
      rcases complementData_spec g with ⟨huse, hdata⟩ | ⟨huse, hdata⟩
      · have hcomp : ∀ v ∈ nibs g, leastNib g ≤ complementNib v ∧
            (complementNib v : ℤ) ≤
              leastNib g + (computeDelta (complementData g).1).maxDelta := by
          intro v hv
          refine hle _ ?_
          rw [hdata, nibs_map_complementByte]
          exact List.mem_map_of_mem hv
        simp only [huse, Bool.true_eq_false, false_and, if_false, Bool.not_true, Bool.and_false,
          Bool.false_eq_true, Bool.and_true, if_true]
        split
        · refine .applied _ (applied_compDelta hg (Or.inl ⟨rfl, rfl⟩) hlt fun v hv => ?_)
          have := hcomp v hv
          omega
        · rw [if_pos (by omega)]
          refine .applied _ (applied_compDelta hg (Or.inr ⟨rfl, rfl⟩) hlt fun v hv => ?_)
          have := hcomp v hv
          omega
      · have hsame : ∀ v ∈ nibs g, leastNib g ≤ v ∧
            (v : ℤ) ≤ leastNib g + (computeDelta (complementData g).1).maxDelta := by
          intro v hv
          exact hle v (hdata.symm ▸ hv)
        simp only [huse, Bool.true_eq_false, false_and, if_false, Bool.not_true, Bool.and_false,
          Bool.not_false, Bool.false_eq_true, Bool.and_true, if_true]
        split
        · refine .applied _ (applied_delta hg (Or.inl ⟨rfl, rfl⟩) hlt fun v hv => ?_)
          have := hsame v hv
          omega
        · rw [if_pos (by omega)]
          refine .applied _ (applied_delta hg (Or.inr ⟨rfl, rfl⟩) hlt fun v hv => ?_)
          have := hsame v hv
          omega

/-! ## Recovery of a subgroup -/

theorem recoverModified_applied {op : RemapOp} (h : Applied g (remapSubgroup g) op)
    (bs : List Bool) :
    recoverModified (remapSubgroup g).data (sideInfo g ++ bs) = some (g, bs) := by
  obtain ⟨τ, hnibs, hfield⟩ := h.fields
  have hside : sideInfo g =
      op.code ++ (nibs g).flatMap fun v => bits op.width (op.field (leastNib g) v) := by
    rw [sideInfo, h.op_eq]
  rw [recoverModified, hside, List.append_assoc, RemapOp.read_code, Option.bind_some, hnibs,
    recoverNibs_fields op _ τ _ bs hfield, Option.map_some, joinNibs_nibs]

theorem length_sideInfo {op : RemapOp} (hg : g.length = subgroupSize)
    (h : (remapSubgroup g).op = some op) :
    (sideInfo g).length = op.code.length + subgroupSize * 2 * op.width := by
  rw [sideInfo, h, List.length_append, List.length_flatMap]
  simp [length_nibs, hg]

theorem recover_sideInfo (hg : g.length = subgroupSize) :
    recover (remapSubgroup g).data (sideInfo g) = some g := by
  rcases remapSubgroup_cases hg with ⟨hdata, -, hop⟩ | ⟨op, h⟩
  · rw [sideInfo, hop, hdata]
    rfl
  · have hne : sideInfo g ≠ [] := by
      rw [sideInfo, h.op_eq]
      cases op <;> simp [RemapOp.code]
    have hrecover := recoverModified_applied h []
    rw [List.append_nil] at hrecover
    rw [recover, if_neg hne, hrecover, Option.map_some]

theorem length_sideInfo_le (hg : g.length = subgroupSize) :
    (sideInfo g).length ≤ (remapSubgroup g).addedBits := by
  rcases remapSubgroup_cases hg with ⟨-, -, hop⟩ | ⟨op, h⟩
  · rw [sideInfo, hop]
    exact Nat.zero_le _
  · rw [length_sideInfo hg h.op_eq, h.addedBits]
    exact op.code_add_fields_le

/-- A result has no more preimages than there are bit strings of the length charged. -/
theorem ncard_preimages (r : Remapped) :
    {g : List UInt8 | g.length = subgroupSize ∧ remapSubgroup g = r}.ncard ≤ 2 ^ r.addedBits := by
  cases hop : r.op with
  | none =>
      -- nothing was done
      have hsub : {g : List UInt8 | g.length = subgroupSize ∧ remapSubgroup g = r} ⊆ {r.data} := by
        rintro g ⟨hg, rfl⟩
        rcases remapSubgroup_cases hg with ⟨hdata, -, -⟩ | ⟨op, h⟩
        · exact hdata.symm
        · rw [h.op_eq] at hop
          cases hop
      refine (Set.ncard_le_ncard hsub (Set.finite_singleton _)).trans ?_
      rw [Set.ncard_singleton]
      exact Nat.one_le_two_pow
  | some op =>
      rcases Set.eq_empty_or_nonempty
        {g : List UInt8 | g.length = subgroupSize ∧ remapSubgroup g = r} with hempty | ⟨g₀, hg₀⟩
      · rw [hempty, Set.ncard_empty]
        exact Nat.zero_le _
      -- the side information tells the preimages apart
      have hlen : (sideInfo g₀).length ≤ r.addedBits := hg₀.2 ▸ length_sideInfo_le hg₀.1
      have hinj := Set.ncard_le_ncard_of_injOn
        (s := {g : List UInt8 | g.length = subgroupSize ∧ remapSubgroup g = r})
        (t := {l : List Bool | l.length = (sideInfo g₀).length}) sideInfo ?maps ?inj
        (List.finite_length_eq Bool _)
      · rw [ncard_bitStrings] at hinj
        exact hinj.trans (Nat.pow_le_pow_right (by decide) hlen)
      case maps =>
        rintro g ⟨hg, hr⟩
        have hlen₀ := length_sideInfo hg₀.1 (hg₀.2.symm ▸ hop)
        exact (length_sideInfo hg (hr.symm ▸ hop)).trans hlen₀.symm
      case inj =>
        rintro g ⟨hg, hr⟩ g' ⟨hg', hr'⟩ hside
        have hback := recover_sideInfo hg
        rw [hside, hr, ← hr', recover_sideInfo hg'] at hback
        exact (Option.some.inj hback).symm

/-- **Remap operations are paid for**: the side information of a subgroup is not longer than what is
charged and gives the subgroup back, and a result has at most as many preimages as there are bit
strings of the length charged. -/
theorem remapSubgroup_paid :
    (∀ g : List UInt8, g.length = subgroupSize →
      (sideInfo g).length ≤ (remapSubgroup g).addedBits ∧
        recover (remapSubgroup g).data (sideInfo g) = some g) ∧
      ∀ r : Remapped, {g : List UInt8 | g.length = subgroupSize ∧ remapSubgroup g = r}.ncard ≤
        2 ^ r.addedBits := by
  exact ⟨fun g hg => ⟨length_sideInfo_le hg, recover_sideInfo hg⟩, ncard_preimages⟩

/-- Nibbles 5 to 10, complemented to 5, 6 and 7 and replaced by 5. -/
theorem remapSubgroup_paid_compDelta :
    (remapSubgroup [0x56, 0x78, 0x9a, 0x55, 0x66, 0x77, 0x88, 0x99]).op = some .compDeltaUpto3 ∧
      recover (fill 5) (sideInfo [0x56, 0x78, 0x9a, 0x55, 0x66, 0x77, 0x88, 0x99]) =
        some [0x56, 0x78, 0x9a, 0x55, 0x66, 0x77, 0x88, 0x99] :=
  ⟨by decide, (remapSubgroup_paid.1 [0x56, 0x78, 0x9a, 0x55, 0x66, 0x77, 0x88, 0x99] rfl).2⟩

end

/-! ## Recovery of a line -/

/-- What has to be kept of a line: a flag for each subgroup, and the side information of those that
are modified. -/
def lineInfo : ℕ → List UInt8 → List Bool
  | 0, _ => []
  | k + 1, data =>
      let g := data.take subgroupSize
      ((remapSubgroup g).op.isSome :: sideInfo g) ++ lineInfo k (data.drop subgroupSize)

/-- The next subgroup, from its flag on. -/
def recoverNext (data : List UInt8) : List Bool → Option (List UInt8 × List Bool)
  | [] => none
  | false :: bs => some (data, bs)
  | true :: bs => recoverModified data bs

/-- The line, from the new one and the bit string. -/
def recoverLine : ℕ → List UInt8 → List Bool → Option (List UInt8)
  | 0, data, _ => some data
  | k + 1, data, bs =>
      (recoverNext (data.take subgroupSize) bs).bind fun p =>
        (recoverLine k (data.drop subgroupSize) p.2).map fun rest => p.1 ++ rest

theorem recoverNext_info {g : List UInt8} (hg : g.length = subgroupSize) (bs : List Bool) :
    recoverNext (remapSubgroup g).data (((remapSubgroup g).op.isSome :: sideInfo g) ++ bs) =
      some (g, bs) := by
  rcases remapSubgroup_cases hg with ⟨hdata, -, hop⟩ | ⟨op, h⟩
  · rw [sideInfo, hop, hdata]
    rfl
  · rw [h.op_eq]
    exact recoverModified_applied h bs

theorem length_remapSubgroup {g : List UInt8} (hg : g.length = subgroupSize) :
    (remapSubgroup g).data.length = subgroupSize := by
  rcases remapSubgroup_cases hg with ⟨hdata, -, -⟩ | ⟨op, h⟩
  · rw [hdata, hg]
  · obtain ⟨τ, hnibs, -⟩ := h.fields
    have hlen := congrArg List.length hnibs
    rw [List.length_map, length_nibs, length_nibs, hg] at hlen
    omega

/-- The loop: what is charged covers the bit string but for its flags, and the line comes back. -/
theorem remapLoop_paid (k : ℕ) {data : List UInt8} (h : k * subgroupSize ≤ data.length) :
    (lineInfo k data).length ≤ k + (remapLoop k data).2.1 ∧
      recoverLine k (remapLoop k data).1 (lineInfo k data) = some data := by
  induction k generalizing data with
  | zero => exact ⟨Nat.le_refl _, rfl⟩
  | succ k ih =>
      rw [Nat.succ_mul] at h
      have hg : (data.take subgroupSize).length = subgroupSize := by
        rw [List.length_take]
        omega
      obtain ⟨hlen, hrec⟩ := @ih (data.drop subgroupSize) (by rw [List.length_drop]; omega)
      have hout := length_remapSubgroup hg
      refine ⟨?_, ?_⟩
      · have hside := length_sideInfo_le hg
        simp only [lineInfo, remapLoop, List.length_append, List.length_cons]
        omega
      · simp only [remapLoop, lineInfo, recoverLine]
        rw [List.take_left' hout, List.drop_left' hout, recoverNext_info hg, Option.bind_some, hrec,
          Option.map_some, List.take_append_drop]

/-- **A remapped line is paid for**, with the bits charged up front for the flags. -/
theorem remapOps_paid {opRange remapRes added : ℕ} {data out : List UInt8} {ops : List RemapOp}
    (h : remapOps opRange remapRes data = some (out, added, ops)) :
    (lineInfo (subgroupCount opRange remapRes data.length) data).length ≤ added ∧
      recoverLine (subgroupCount opRange remapRes data.length) out
        (lineInfo (subgroupCount opRange remapRes data.length) data) = some data := by
  unfold remapOps at h
  split at h
  · cases h
  · simp only [Option.some.injEq, Prod.mk.injEq] at h
    obtain ⟨rfl, rfl, -⟩ := h
    refine remapLoop_paid _ ?_
    unfold subgroupCount
    split
    · exact (Nat.div_mul_le_self _ _).trans (Nat.div_le_self _ _)
    · exact Nat.div_mul_le_self _ _

end CompressionWork.Remap
