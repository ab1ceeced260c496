import CompressionWork.Cache.TagArray
import CompressionWork.Transition.Loop
import Mathlib.Order.Basic

/-!
# The layout of a segmented set

The lines of a set lie one behind the other, from the last way down to way 0; the ways that a fill
has set free all stand for the segments behind the rest.

* `Layout` — this, for the ways of one set.
* `compact_spec`, `shift_spec` — what the two loops at the end of a fill do to the ways below the
  new line.
-/

namespace CompressionWork.Cache

open Transition

namespace TagParams

variable (p : TagParams)

/-! ## Ways -/

/-- A way of a set. -/
def way (lines : Lines) (set w : ℕ) : CacheBlock := lines (set * p.tagAssocNo + w)

/-- The first segment behind a way; way `tagAssocNo` stands for the start of the set. -/
def behind (lines : Lines) (set w : ℕ) : ℕ :=
  if w < p.tagAssocNo then (p.way lines set w).endSegIdx + 1 else 0

/-- The layout of a set whose lowest `free` ways stand for the segments behind the others. -/
structure Layout (lines : Lines) (set free : ℕ) : Prop where
  free_le : free ≤ p.tagAssocNo
  start_eq : ∀ w < p.tagAssocNo, free ≤ w →
    (p.way lines set w).startSegIdx = p.behind lines set (w + 1)
  free_eq : ∀ w < free, (p.way lines set w).status = .invalid ∧
    (p.way lines set w).startSegIdx = p.behind lines set free ∧
    (p.way lines set w).endSegIdx = p.maxSegIdx
  start_le : ∀ w < p.tagAssocNo,
    (p.way lines set w).startSegIdx ≤ (p.way lines set w).endSegIdx + 1
  end_le : ∀ w < p.tagAssocNo, (p.way lines set w).endSegIdx ≤ p.maxSegIdx

variable {p} {lines lines' : Lines} {set free w idx : ℕ}

theorem getWayIdx_way (hw : w < p.tagAssocNo) : p.getWayIdx (set * p.tagAssocNo + w) = w := by
  rw [getWayIdx, Nat.mul_add_mod_self_right, Nat.mod_eq_of_lt hw]

theorem behind_of_lt (hw : w < p.tagAssocNo) :
    p.behind lines set w = (p.way lines set w).endSegIdx + 1 :=
  if_pos hw

/-- A line ends behind its start. -/
theorem Layout.start_le_behind (h : p.Layout lines set free) (hw : w < p.tagAssocNo) :
    (p.way lines set w).startSegIdx ≤ p.behind lines set w := by
  rw [behind_of_lt hw]
  exact h.start_le w hw

/-- Lower ways lie further behind. -/
theorem Layout.behind_anti (h : p.Layout lines set free) {w w' : ℕ} (hfree : free ≤ w)
    (hle : w ≤ w') : p.behind lines set w' ≤ p.behind lines set w := by
  induction hle with
  | refl => exact Nat.le_refl _
  | @step w' hle ih =>
    by_cases hw : w' < p.tagAssocNo
    · have hstart := h.start_le_behind hw
      rw [h.start_eq w' hw (Nat.le_trans hfree hle)] at hstart
      exact Nat.le_trans hstart ih
    · rw [behind, if_neg (by omega)]
      exact Nat.zero_le _

/-- A way below lies behind. -/
theorem Layout.behind_le_start (h : p.Layout lines set free) {w w' : ℕ} (hw : w < p.tagAssocNo)
    (hfree : free ≤ w) (hlt : w < w') :
    p.behind lines set w' ≤ (p.way lines set w).startSegIdx := by
  rw [h.start_eq w hw hfree]
  exact h.behind_anti (by omega) hlt

/-! ## The compact case -/

variable (p) in
/-- A line that has moved up to the line in front of it; one that ends with the set grows. -/
def packed (front line : CacheBlock) : CacheBlock :=
  { line with
    startSegIdx := front.endSegIdx + 1
    endSegIdx :=
      if line.endSegIdx = p.maxSegIdx then p.maxSegIdx
      else front.endSegIdx + (line.endSegIdx + 1 - line.startSegIdx) }

/-- One round of the compact case, when its assertion holds. -/
theorem compactStep_eq {i : ℕ}
    (hline : (lines (idx - i)).startSegIdx ≤ (lines (idx - i)).endSegIdx + 1)
    (hassert : (lines (idx - i + 1)).endSegIdx = p.maxSegIdx →
      (lines (idx - i)).endSegIdx = p.maxSegIdx) :
    p.compactStep lines idx i = some (Function.update lines (idx - i)
      (p.packed (lines (idx - i + 1)) (lines (idx - i)))) := by
  unfold compactStep packed
  by_cases hfront : (lines (idx - i + 1)).endSegIdx = p.maxSegIdx
  · have hend := hassert hfront
    simp only [hfront, hend, if_true]
  · simp only [if_neg hfront]
    split_ifs with hend
    · rw [hend]
    · congr 3
      push_cast
      omega

/-- **The compact case**: every way below the new line moves up to the one above it, and ends no
later than before. -/
theorem compact_spec {b : ℕ} (hway : p.getWayIdx (b + w) = w)
    (hstart : ∀ j < w, (lines (b + j)).startSegIdx ≤ (lines (b + j)).endSegIdx + 1)
    (hend : ∀ j < w, (lines (b + j)).endSegIdx ≤ p.maxSegIdx)
    (hchain : ∀ j < w, (lines (b + j)).endSegIdx = p.maxSegIdx ∨
      (lines (b + j + 1)).endSegIdx + 1 ≤ (lines (b + j)).startSegIdx) :
    ∃ lines', p.compact lines (b + w) = some lines' ∧
      (∀ i, ¬ (b ≤ i ∧ i < b + w) → lines' i = lines i) ∧
      ∀ j < w, lines' (b + j) = p.packed (lines' (b + j + 1)) (lines (b + j)) ∧
        (lines' (b + j)).endSegIdx ≤ (lines (b + j)).endSegIdx := by
  -- after `n` rounds the `n` ways below the new line have moved
  have hloop : ∃ lines', p.compact lines (b + w) = some lines' ∧
      (∀ i, ¬ (b + w - w ≤ i ∧ i < b + w) → lines' i = lines i) ∧
      ∀ j < w, w - w ≤ j → lines' (b + j) = p.packed (lines' (b + j + 1)) (lines (b + j)) ∧
        (lines' (b + j)).endSegIdx ≤ (lines (b + j)).endSegIdx := by
    rw [compact, hway]
    refine foldlM_range' (fun n (lines' : Lines) =>
      (∀ i, ¬ (b + w - n ≤ i ∧ i < b + w) → lines' i = lines i) ∧
      ∀ j < w, w - n ≤ j → lines' (b + j) = p.packed (lines' (b + j + 1)) (lines (b + j)) ∧
        (lines' (b + j)).endSegIdx ≤ (lines (b + j)).endSegIdx)
      w ⟨fun i _ => rfl, fun j hj hle => by omega⟩ ?_
    rintro n t hn ⟨hout, hin⟩
    obtain ⟨j, rfl⟩ : ∃ j, w = j + n + 1 := ⟨w - n - 1, by omega⟩
    have hidx : b + (j + n + 1) - (n + 1) = b + j := by omega
    have hline : t (b + j) = lines (b + j) := hout _ (by omega)
    have hfront : (t (b + j + 1)).endSegIdx ≤ (lines (b + j + 1)).endSegIdx := by
      by_cases hj : j + 1 < j + n + 1
      · exact (hin (j + 1) hj (by omega)).2
      · exact Nat.le_of_eq (by rw [hout _ (by omega)])
    have hs := hstart j (by omega)
    have he := hend j (by omega)
    have hc := hchain j (by omega)
    refine ⟨_, compactStep_eq ?_ ?_, fun i hi => ?_, fun j' hj' hle => ?_⟩
    · rw [hidx, hline]
      exact hs
    · rw [hidx, hline]
      omega
    · rw [hidx, Function.update_of_ne (by omega)]
      exact hout i (by omega)
    · rw [hidx]
      by_cases heq : j' = j
      · subst heq
        rw [Function.update_self, Function.update_of_ne (by omega), hline]
        refine ⟨rfl, ?_⟩
        unfold packed
        dsimp only
        split_ifs <;> omega
      · rw [Function.update_of_ne (by omega), Function.update_of_ne (by omega)]
        exact hin j' hj' (by omega)
  obtain ⟨lines', hcompact, hout, hin⟩ := hloop
  exact ⟨lines', hcompact, fun i hi => hout i (by omega), fun j hj => hin j hj (by omega)⟩

/-! ## The shift case -/

variable (p) in
/-- A line behind the line in front of it, cut off at the end of the set. -/
def pushed (front line : CacheBlock) : CacheBlock :=
  { line with
    startSegIdx := front.endSegIdx + 1
    endSegIdx := min (front.endSegIdx + (line.endSegIdx + 1 - line.startSegIdx)) p.maxSegIdx }

variable (p) in
/-- `update_seg_idx` is the segment behind a line, or past the set when the line is the last. -/
def PointsBehind (updateSegIdx : ℤ) (line : CacheBlock) : Prop :=
  (updateSegIdx = line.endSegIdx + 1 ∧ line.endSegIdx ≤ p.maxSegIdx) ∨
    (p.maxSegIdx < updateSegIdx ∧ line.endSegIdx = p.maxSegIdx)

/-- One round of the shift case. -/
theorem shiftStep_eq {s : Lines × ℤ} {front : CacheBlock} {i k : ℕ}
    (hpoints : p.PointsBehind s.2 front) (hline : (s.1 i).startSegIdx ≤ (s.1 i).endSegIdx + 1) :
    ∃ updateSegIdx, p.shiftStep k s i =
        (Function.update s.1 (i + k) (p.pushed front (s.1 i)), updateSegIdx) ∧
      p.PointsBehind updateSegIdx (p.pushed front (s.1 i)) := by
  unfold shiftStep
  by_cases hpast : (p.maxSegIdx : ℤ) < s.2
  · have hfront : front.endSegIdx = p.maxSegIdx := by
      rcases hpoints with ⟨heq, hle⟩ | ⟨-, heq⟩
      · omega
      · exact heq
    simp only [if_pos hpast]
    have hmin : min (front.endSegIdx + ((s.1 i).endSegIdx + 1 - (s.1 i).startSegIdx)) p.maxSegIdx =
        p.maxSegIdx := by omega
    exact ⟨s.2, by rw [pushed, hmin, hfront], Or.inr ⟨hpast, hmin⟩⟩
  · obtain ⟨hupd, -⟩ := hpoints.resolve_right fun h => hpast h.1
    simp only [if_neg hpast]
    by_cases hcut : (p.maxSegIdx : ℤ) < s.2 + (((s.1 i).endSegIdx : ℤ) - (s.1 i).startSegIdx)
    · have hmin : min (front.endSegIdx + ((s.1 i).endSegIdx + 1 - (s.1 i).startSegIdx))
          p.maxSegIdx = p.maxSegIdx := by omega
      simp only [if_pos hcut]
      exact ⟨_, by rw [pushed, hmin, hupd]; rfl, Or.inr ⟨hcut, hmin⟩⟩
    · have hmin : min (front.endSegIdx + ((s.1 i).endSegIdx + 1 - (s.1 i).startSegIdx))
          p.maxSegIdx = (s.2 + (((s.1 i).endSegIdx : ℤ) - (s.1 i).startSegIdx)).toNat := by omega
      simp only [if_neg hcut]
      refine ⟨_, by rw [pushed, hmin, hupd]; rfl, Or.inl ⟨?_, ?_⟩⟩
      · rw [pushed, hmin]
        dsimp only
        omega
      · rw [pushed, hmin]
        dsimp only
        omega

/-- The lines that move, the lowest one last. -/
theorem shiftLoop_spec {b k : ℕ} {updateSegIdx : ℤ} (hk : k ≤ w)
    (hpoints : p.PointsBehind updateSegIdx (lines (b + w)))
    (hstart : ∀ j < w - k, (lines (b + j)).startSegIdx ≤ (lines (b + j)).endSegIdx + 1)
    {moved : Lines × ℤ} (hmoved : moved = (List.range (w - k)).foldl
      (fun s j => p.shiftStep k s (b + w - k - 1 - j)) (lines, updateSegIdx)) :
    (∀ i, ¬ (b + k ≤ i ∧ i < b + w) → moved.1 i = lines i) ∧
      (∀ j < w, k ≤ j →
        moved.1 (b + j) = p.pushed (moved.1 (b + j + 1)) (lines (b + (j - k)))) ∧
      p.PointsBehind moved.2 (moved.1 (b + k)) := by
  -- after `n` rounds, the `n` ways below the new line have their new lines
  have hloop := foldl_range (fun n (s : Lines × ℤ) =>
    (∀ i, ¬ (b + w - n ≤ i ∧ i < b + w) → s.1 i = lines i) ∧
    (∀ j < w, w - n ≤ j → s.1 (b + j) = p.pushed (s.1 (b + j + 1)) (lines (b + (j - k)))) ∧
    p.PointsBehind s.2 (s.1 (b + w - n)))
    (f := fun s j => p.shiftStep k s (b + w - k - 1 - j)) (s := (lines, updateSegIdx))
    (w - k) ⟨fun i _ => rfl, fun j hj hle => by omega, hpoints⟩ ?_
  · rw [← hmoved] at hloop
    obtain ⟨hout, hin, hpoints⟩ := hloop
    rw [show b + w - (w - k) = b + k by omega] at hout hpoints
    exact ⟨hout, fun j hj hle => hin j hj (by omega), hpoints⟩
  · rintro n s hn ⟨hout, hin, hpoints⟩
    obtain ⟨j, rfl⟩ : ∃ j, w = j + n + 1 + k := ⟨w - k - n - 1, by omega⟩
    have hsrc : b + (j + n + 1 + k) - k - 1 - n = b + j := by omega
    have hline : s.1 (b + j) = lines (b + j) := hout _ (by omega)
    have hs : (s.1 (b + j)).startSegIdx ≤ (s.1 (b + j)).endSegIdx + 1 := by
      rw [hline]
      exact hstart j (by omega)
    obtain ⟨upd, hstep, hpoints'⟩ := shiftStep_eq (k := k) hpoints hs
    rw [hsrc, hstep]
    have hdst : b + (j + n + 1 + k) - (n + 1) = b + j + k := by omega
    have hfront : b + (j + n + 1 + k) - n = b + j + k + 1 := by omega
    refine ⟨fun i hi => ?_, fun j' hj' hle => ?_, ?_⟩
    · dsimp only
      rw [Function.update_of_ne (by omega)]
      exact hout i (by omega)
    · dsimp only
      by_cases heq : j' = j + k
      · subst heq
        rw [← Nat.add_assoc b j k, Function.update_self, Function.update_of_ne (by omega), hline,
          hfront, Nat.add_sub_cancel]
      · rw [Function.update_of_ne (by omega), Function.update_of_ne (by omega)]
        exact hin j' hj' (by omega)
    · dsimp only
      rw [hdst, Function.update_self]
      exact hpoints'

/-- The ways that become free. -/
theorem freeLoop_spec {b k : ℕ} {updateSegIdx : ℤ} {front : CacheBlock}
    (hpoints : p.PointsBehind updateSegIdx front) {freed : Lines}
    (hfreed : freed = (List.range k).foldl
      (fun lines j => p.freeStep updateSegIdx lines (b + k - 1 - j)) lines) :
    (∀ i, ¬ (b ≤ i ∧ i < b + k) → freed i = lines i) ∧
      ∀ j < k, freed (b + j) =
        { lines (b + j) with
          startSegIdx := front.endSegIdx + 1, endSegIdx := p.maxSegIdx, status := .invalid } := by
  have hloop := foldl_range (fun n (s : Lines) =>
    (∀ i, ¬ (b + k - n ≤ i ∧ i < b + k) → s i = lines i) ∧
    ∀ j < k, k - n ≤ j → s (b + j) =
      { lines (b + j) with
        startSegIdx := front.endSegIdx + 1, endSegIdx := p.maxSegIdx, status := .invalid })
    (f := fun lines j => p.freeStep updateSegIdx lines (b + k - 1 - j)) (s := lines)
    k ⟨fun i _ => rfl, fun j hj hle => by omega⟩ ?_
  · rw [← hfreed] at hloop
    obtain ⟨hout, hin⟩ := hloop
    exact ⟨fun i hi => hout i (by omega), fun j hj => hin j hj (by omega)⟩
  · rintro n s hn ⟨hout, hin⟩
    obtain ⟨j, rfl⟩ : ∃ j, k = j + n + 1 := ⟨k - n - 1, by omega⟩
    have hidx : b + (j + n + 1) - 1 - n = b + j := by omega
    have hupd : (if (p.maxSegIdx : ℤ) < updateSegIdx then p.maxSegIdx + 1 else updateSegIdx.toNat) =
        front.endSegIdx + 1 := by
      rcases hpoints with ⟨heq, hle⟩ | ⟨hlt, heq⟩ <;> split_ifs <;> omega
    rw [hidx, freeStep, hupd]
    refine ⟨fun i hi => ?_, fun j' hj' hle => ?_⟩
    · rw [Function.update_of_ne (by omega)]
      exact hout i (by omega)
    · by_cases heq : j' = j
      · subst heq
        rw [Function.update_self, hout _ (by omega)]
      · rw [Function.update_of_ne (by omega)]
        exact hin j' hj' (by omega)

/-- **The shift case**: the ways below the evicted ones move up, one behind the other, and the
lowest ways become free. -/
theorem shift_spec {b endSegIdx k : ℕ} (hway : p.getWayIdx (b + w) = w) (hk : k ≤ w)
    (hidx : (lines (b + w)).endSegIdx = endSegIdx) (hend : endSegIdx ≤ p.maxSegIdx)
    (hstart : ∀ j < w - k, (lines (b + j)).startSegIdx ≤ (lines (b + j)).endSegIdx + 1)
    (hlines' : lines' = p.shift lines (b + w) endSegIdx k) :
    (∀ i, ¬ (b ≤ i ∧ i < b + w) → lines' i = lines i) ∧
      (∀ j < w, k ≤ j → lines' (b + j) = p.pushed (lines' (b + j + 1)) (lines (b + (j - k)))) ∧
      ∀ j < k, lines' (b + j) =
        { lines (b + j) with
          startSegIdx := (lines' (b + k)).endSegIdx + 1
          endSegIdx := p.maxSegIdx
          status := .invalid } := by
  have hpoints : p.PointsBehind ((endSegIdx : ℤ) + 1) (lines (b + w)) := by
    rw [← hidx] at hend ⊢
    exact Or.inl ⟨rfl, hend⟩
  obtain ⟨hout, hin, hpoints⟩ := shiftLoop_spec hk hpoints hstart rfl
  unfold shift at hlines'
  dsimp only at hlines'
  rw [hway, show b + w - w = b by omega] at hlines'
  obtain ⟨hout', hfree⟩ := freeLoop_spec hpoints hlines'
  refine ⟨fun i hi => ?_, fun j hj hle => ?_, fun j hj => ?_⟩
  · rw [hout' i (by omega), hout i (by omega)]
  · rw [hout' _ (by omega), hout' _ (by omega), hin j hj hle]
  · rw [hfree j hj, hout' (b + k) (by omega), hout (b + j) (by omega)]

end TagParams

end CompressionWork.Cache
