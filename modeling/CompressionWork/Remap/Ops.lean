import CompressionWork.Remap.Permute
import Mathlib.Tactic.Ring

/-!
# Data remapping: the operations on subgroups

The second half of `hpcl_comp::remap_data_to_type1`.  Each subgroup of eight remapped bytes
may be replaced by one that is easier to compress: masked, complemented, or replaced by its
least nibble.  The bits that are needed to undo this are added to the size.

* `complementData`, `computeDelta`, `computeMasking` — what the functions of these names find out.
* `remapSubgroup` — one round of the loop: the new subgroup, the bits charged, the operation.
* `remapOps` — the loop over the subgroups of a line, with the bits charged up front.
* `complementData_spec`, `computeDelta_spec`, `computeMasking_spec` — what holds of the nibbles when
  the functions report that they can be used.

`compute_neighbor_delta` is called too, but the branch that uses its result is compiled out.
-/

namespace CompressionWork.Remap

/-! ## The checks -/

/-- `check_csn_pattern`: all nibbles are equal to the first one. -/
def checkCsnPattern : List UInt8 → Bool
  | [] => false
  | b :: rest =>
      lowNib b == highNib b && rest.all fun c => lowNib c == lowNib b && highNib c == lowNib b

/-- `~nib & 0x0f` for a nibble over 7, and the nibble itself otherwise. -/
def complementNib (v : ℕ) : ℕ := if 7 < v then 15 - v else v

/-- Both nibbles of a byte are complemented. -/
def complementByte (b : UInt8) : UInt8 :=
  joinNib (complementNib (lowNib b)) (complementNib (highNib b))

/-- `complement_data`: the new subgroup, and whether it is another one. -/
def complementData (g : List UInt8) : List UInt8 × Bool :=
  if g.all fun b => 7 ≤ lowNib b && 7 ≤ highNib b then (g, false)
  else (g.map complementByte, g.any fun b => b != complementByte b)

/-- The first loop of `compute_delta`. -/
def minNibVal : List UInt8 → ℕ
  | [] => 0
  | b :: rest =>
      rest.foldl (fun m c => min (min m (lowNib c)) (highNib c)) (min (lowNib b) (highNib b))

/-- A round of the second loop of `compute_delta`: `delta_val_use` and `max_delta_value`. -/
def deltaRound (minNib : ℕ) (acc : Bool × ℤ) (b : UInt8) : Bool × ℤ :=
  let deltaVal1 : ℤ := lowNib b - minNib
  let deltaVal2 : ℤ := highNib b - minNib
  if deltaVal1 > 3 ∨ deltaVal2 > 3 then
    (false, if deltaVal1 > deltaVal2 then deltaVal1 else deltaVal2)
  else (acc.1, max (max acc.2 deltaVal1) deltaVal2)

/-- What `compute_delta` gives back. -/
structure Delta where
  use : Bool
  maxDelta : ℤ
  minNib : ℕ
  deriving DecidableEq, Repr

/-- `compute_delta`; it is not used when all nibbles are the same. -/
def computeDelta (g : List UInt8) : Delta :=
  let minNib := minNibVal g
  let acc := g.foldl (deltaRound minNib) (true, -1)
  ⟨acc.1 && acc.2 != 0, acc.2, minNib⟩

/-- The first loop of `compute_masking`. -/
def maxNibVal : List UInt8 → ℕ
  | [] => 0
  | b :: rest =>
      rest.foldl (fun m c => max (max m (lowNib c)) (highNib c)) (max (lowNib b) (highNib b))

/-- `compute_masking`: whether all nibbles are zero or the greatest one, and the greatest one. -/
def computeMasking (g : List UInt8) : Bool × ℕ :=
  let m := maxNibVal g
  (g.all fun b => (lowNib b == 0 || lowNib b == m) && (highNib b == 0 || highNib b == m), m)

/-! ## One subgroup -/

/-- `REMAP_OP_TYPE`, without the operation of the branch that is compiled out. -/
inductive RemapOp where
  | mask
  | comp
  | deltaUpto1
  | deltaUpto3
  | compDeltaUpto1
  | compDeltaUpto3
  deriving DecidableEq, Repr

/-- `subgroup_size` -/
def subgroupSize : ℕ := 8

/-- `op_bits` -/
def opBits : ℕ := 2

/-- What a round leaves behind. -/
structure Remapped where
  data : List UInt8
  addedBits : ℕ
  op : Option RemapOp
  deriving DecidableEq, Repr

/-- `subgroup_size` bytes with this nibble twice. -/
def fill (nib : ℕ) : List UInt8 := List.replicate subgroupSize (joinNib nib nib)

/-- A round of the loop over the subgroups. -/
def remapSubgroup (g : List UInt8) : Remapped :=
  if checkCsnPattern g then ⟨g, 0, none⟩
  else
    let comp := complementData g
    let delta := computeDelta comp.1
    -- a complement that does not bring the nibbles together is not used
    let complementUse :=
      if delta.use = false ∧ comp.2 = true ∧ delta.maxDelta > 3 then false else comp.2
    let masking := computeMasking g
    if masking.1 then ⟨fill masking.2, subgroupSize * 2 + opBits + 2, some .mask⟩
    else if complementUse && !delta.use then
      ⟨comp.1, subgroupSize * 2 + opBits + 2, some .comp⟩
    else if !complementUse && delta.use then
      if delta.maxDelta = 1 then
        ⟨fill delta.minNib, subgroupSize * 2 + opBits + 1 + 2, some .deltaUpto1⟩
      else if delta.maxDelta > 1 then
        ⟨fill delta.minNib, subgroupSize * 2 * 2 + opBits + 1 + 2, some .deltaUpto3⟩
      else ⟨fill delta.minNib, 0, none⟩
    else if complementUse && delta.use then
      if delta.maxDelta = 1 then
        ⟨fill delta.minNib, subgroupSize * 2 * 2 + opBits + 1 + 2, some .compDeltaUpto1⟩
      else if delta.maxDelta > 1 then
        ⟨fill delta.minNib, subgroupSize * 2 * 3 + opBits + 1 + 2, some .compDeltaUpto3⟩
      else ⟨fill delta.minNib, 0, none⟩
    else ⟨g, 0, none⟩

/-! ## The line -/

/-- The subgroups that are looked at: all of them, or those of the first group when
`hpcl_data_remap_op_range` is 1. -/
def subgroupCount (opRange remapRes n : ℕ) : ℕ :=
  if opRange = 1 then n / remapRes / subgroupSize else n / subgroupSize

/-- The loop: the bytes written so far, `added_bits_for_remap` and `remap_op_types`. -/
def remapLoop : ℕ → List UInt8 → List UInt8 × ℕ × List RemapOp
  | 0, data => (data, 0, [])
  | k + 1, data =>
      let r := remapSubgroup (data.take subgroupSize)
      let rest := remapLoop k (data.drop subgroupSize)
      (r.data ++ rest.1, r.addedBits + rest.2.1, r.op.toList ++ rest.2.2)

/-- The operations on a line; one bit a subgroup says whether it is modified. -/
def remapOps (opRange remapRes : ℕ) (data : List UInt8) :
    Option (List UInt8 × ℕ × List RemapOp) :=
  if opRange = 1 ∧ remapRes ≠ 4 then none
  else
    let count := subgroupCount opRange remapRes data.length
    let r := remapLoop count data
    some (r.1, count + r.2.1, r.2.2)

/-! ## Nibbles of a subgroup -/

/-- The nibbles in the order in which the loops take them. -/
def nibs (g : List UInt8) : List ℕ := g.flatMap fun b => [lowNib b, highNib b]

/-- Pairs of nibbles put together again. -/
def joinNibs : List ℕ → List UInt8
  | lo :: hi :: rest => joinNib lo hi :: joinNibs rest
  | _ => []

@[simp] theorem nibs_nil : nibs [] = [] := rfl

@[simp] theorem nibs_cons (b : UInt8) (g : List UInt8) :
    nibs (b :: g) = lowNib b :: highNib b :: nibs g := rfl

theorem length_nibs (g : List UInt8) : (nibs g).length = g.length * 2 := by
  induction g with
  | nil => rfl
  | cons b g ih => simp only [nibs_cons, List.length_cons, ih]; ring

theorem joinNib_nibs (b : UInt8) : joinNib (lowNib b) (highNib b) = b := by
  rw [joinNib, lowNib, highNib, Nat.mul_comm, Nat.mod_add_div]
  exact UInt8.ofNat_toNat

theorem joinNibs_nibs (g : List UInt8) : joinNibs (nibs g) = g := by
  induction g with
  | nil => rfl
  | cons b g ih => rw [nibs_cons, joinNibs, joinNib_nibs, ih]

theorem lt_of_mem_nibs {g : List UInt8} {v : ℕ} (h : v ∈ nibs g) : v < 16 := by
  obtain ⟨b, -, hv⟩ := List.mem_flatMap.1 h
  rcases List.mem_pair.1 hv with rfl | rfl
  · exact lowNib_lt b
  · exact highNib_lt b

theorem lowNib_joinNib {lo hi : ℕ} (hlo : lo < 16) (hhi : hi < 16) :
    lowNib (joinNib lo hi) = lo := by
  rw [lowNib, toNat_joinNib hlo hhi]
  omega

theorem highNib_joinNib {lo hi : ℕ} (hlo : lo < 16) (hhi : hi < 16) :
    highNib (joinNib lo hi) = hi := by
  rw [highNib, toNat_joinNib hlo hhi]
  omega

theorem nibs_fill {nib : ℕ} (h : nib < 16) :
    nibs (fill nib) = List.replicate (subgroupSize * 2) nib := by
  have hpair : [lowNib (joinNib nib nib), highNib (joinNib nib nib)] = [nib, nib] := by
    rw [lowNib_joinNib h h, highNib_joinNib h h]
  rw [nibs, fill, List.flatMap_replicate, hpair]
  rfl

/-! ## What the functions find out -/

theorem complementNib_lt {v : ℕ} (h : v < 16) : complementNib v < 16 := by
  unfold complementNib
  split <;> omega

theorem nibs_map_complementByte (g : List UInt8) :
    nibs (g.map complementByte) = (nibs g).map complementNib := by
  induction g with
  | nil => rfl
  | cons b g ih =>
      have hlow := complementNib_lt (lowNib_lt b)
      have hhigh := complementNib_lt (highNib_lt b)
      rw [List.map_cons, nibs_cons, nibs_cons, ih, complementByte, lowNib_joinNib hlow hhigh,
        highNib_joinNib hlow hhigh]
      rfl

/-- The subgroup is complemented, or it has not changed. -/
theorem complementData_spec (g : List UInt8) :
    ((complementData g).2 = true ∧ (complementData g).1 = g.map complementByte) ∨
      ((complementData g).2 = false ∧ (complementData g).1 = g) := by
  unfold complementData
  split
  · exact Or.inr ⟨rfl, rfl⟩
  · cases hany : g.any fun b => b != complementByte b with
    | true => exact Or.inl ⟨rfl, rfl⟩
    | false =>
        refine Or.inr ⟨rfl, ?_⟩
        have hsame : ∀ b ∈ g, complementByte b = b := by
          intro b hb
          have hno := List.any_eq_false.1 hany b hb
          rw [Bool.not_eq_true, bne_eq_false_iff_eq] at hno
          exact hno.symm
        exact (List.map_congr_left hsame).trans (List.map_id g)

theorem foldl_min_le (rest : List UInt8) (m : ℕ) :
    rest.foldl (fun m c => min (min m (lowNib c)) (highNib c)) m ≤ m ∧
      ∀ v ∈ nibs rest, rest.foldl (fun m c => min (min m (lowNib c)) (highNib c)) m ≤ v := by
  induction rest generalizing m with
  | nil => simp
  | cons c rest ih =>
      obtain ⟨hm, hrest⟩ := ih (min (min m (lowNib c)) (highNib c))
      rw [List.foldl_cons]
      refine ⟨by omega, fun v hv => ?_⟩
      rw [nibs_cons, List.mem_cons, List.mem_cons] at hv
      rcases hv with rfl | rfl | hv
      · omega
      · omega
      · exact hrest v hv

theorem minNibVal_le {g : List UInt8} {v : ℕ} (h : v ∈ nibs g) : minNibVal g ≤ v := by
  cases g with
  | nil => simp at h
  | cons b rest =>
      obtain ⟨hm, hrest⟩ := foldl_min_le rest (min (lowNib b) (highNib b))
      rw [nibs_cons, List.mem_cons, List.mem_cons] at h
      rcases h with rfl | rfl | h
      · exact hm.trans (Nat.min_le_left _ _)
      · exact hm.trans (Nat.min_le_right _ _)
      · exact hrest v h

/-- The second loop of `compute_delta` keeps: the deltas seen are at most `max_delta_value`, which
is at most 3, as long as `delta_val_use` stands. -/
theorem foldl_deltaRound (m : ℕ) (g : List UInt8) (acc : Bool × ℤ) (hacc : acc.1 = true → acc.2 ≤ 3)
    (h : (g.foldl (deltaRound m) acc).1 = true) :
    acc.1 = true ∧ acc.2 ≤ (g.foldl (deltaRound m) acc).2 ∧
      (g.foldl (deltaRound m) acc).2 ≤ 3 ∧
      ∀ v ∈ nibs g, (v : ℤ) - m ≤ (g.foldl (deltaRound m) acc).2 := by
  induction g generalizing acc with
  | nil => exact ⟨h, le_refl _, hacc h, by simp⟩
  | cons b g ih =>
      rw [List.foldl_cons] at h ⊢
      have hround : (deltaRound m acc b).1 = true → (deltaRound m acc b).2 ≤ 3 := by
        unfold deltaRound
        dsimp only
        split
        · simp
        · intro huse
          have := hacc huse
          omega
      obtain ⟨huse, hle, hthree, hrest⟩ := ih _ hround h
      have hno : ¬ ((lowNib b : ℤ) - m > 3 ∨ (highNib b : ℤ) - m > 3) := by
        intro hbig
        rw [deltaRound, if_pos hbig] at huse
        simp at huse
      have hacc' : deltaRound m acc b =
          (acc.1, max (max acc.2 ((lowNib b : ℤ) - m)) ((highNib b : ℤ) - m)) := by
        rw [deltaRound, if_neg hno]
      generalize (g.foldl (deltaRound m) (deltaRound m acc b)).2 = d at hle hthree hrest ⊢
      rw [hacc'] at huse hle
      refine ⟨huse, by simp only at hle; omega, hthree, fun v hv => ?_⟩
      rw [nibs_cons, List.mem_cons, List.mem_cons] at hv
      simp only at hle
      rcases hv with rfl | rfl | hv
      · omega
      · omega
      · exact hrest v hv

/-- When `compute_delta` can be used, all nibbles are at most 3 above the least one, and not all
are equal. -/
theorem computeDelta_spec {g : List UInt8} (hne : g ≠ []) (h : (computeDelta g).use = true) :
    1 ≤ (computeDelta g).maxDelta ∧ (computeDelta g).maxDelta ≤ 3 ∧
      (computeDelta g).minNib < 16 ∧
      ∀ v ∈ nibs g, (computeDelta g).minNib ≤ v ∧
        (v : ℤ) ≤ (computeDelta g).minNib + (computeDelta g).maxDelta := by
  rw [computeDelta, Bool.and_eq_true, bne_iff_ne] at h
  obtain ⟨-, -, hthree, hle⟩ := foldl_deltaRound _ g (true, -1) (fun _ => by decide) h.1
  obtain ⟨b, rest, rfl⟩ := List.exists_cons_of_ne_nil hne
  have hb : lowNib b ∈ nibs (b :: rest) := by simp
  have hmin := minNibVal_le hb
  have hmax := hle _ hb
  have hne0 := h.2
  have hlt := lowNib_lt b
  refine ⟨?_, hthree, ?_, fun v hv => ⟨minNibVal_le hv, ?_⟩⟩
  · simp only [computeDelta]
    omega
  · simp only [computeDelta]
    omega
  · have := hle v hv
    simp only [computeDelta]
    omega

theorem foldl_max_lt (rest : List UInt8) (m : ℕ) (hm : m < 16) :
    rest.foldl (fun m c => max (max m (lowNib c)) (highNib c)) m < 16 := by
  induction rest generalizing m with
  | nil => exact hm
  | cons c rest ih =>
      have hlow := lowNib_lt c
      have hhigh := highNib_lt c
      rw [List.foldl_cons]
      exact ih _ (by omega)

/-- When `compute_masking` can be used, all nibbles are zero or the one found. -/
theorem computeMasking_spec {g : List UInt8} (h : (computeMasking g).1 = true) :
    (computeMasking g).2 < 16 ∧ ∀ v ∈ nibs g, v = 0 ∨ v = (computeMasking g).2 := by
  constructor
  · cases g with
    | nil => decide
    | cons b rest =>
        have hlow := lowNib_lt b
        have hhigh := highNib_lt b
        exact foldl_max_lt rest _ (by omega)
  · intro v hv
    obtain ⟨b, hb, hv⟩ := List.mem_flatMap.1 hv
    have hbyte := List.all_eq_true.1 h b hb
    simp only [Bool.and_eq_true, Bool.or_eq_true, beq_iff_eq] at hbyte
    rcases List.mem_pair.1 hv with rfl | rfl
    · exact hbyte.1
    · exact hbyte.2

end CompressionWork.Remap
