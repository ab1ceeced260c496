import CompressionWork.Cache.Victim

/-!
# A fill keeps the layout of its set

* `fill_compact`, `fill_shift` — the set after a fill that evicts no other line, and after one that
  does.
* `fillSegments_layout` — both cases together.
* `Preserved` — every live line but the new one was there before, with at most as many segments.
-/

namespace CompressionWork.Cache

open Transition

namespace TagParams

variable {p : TagParams} {lines lines' : Lines} {set free a k w idx segNo compressed : ℕ}
  {addr : NewAddrType} {time : UInt32}

theorem getAvailSpace_eq (line : CacheBlock) :
    getAvailSpace line = line.endSegIdx + 1 - line.startSegIdx := by
  unfold getAvailSpace
  split <;> omega

variable (p) in
/-- The live ways but `a` hold lines that the set held before, and none has become shorter. -/
def Preserved (lines lines' : Lines) (set a : ℕ) : Prop :=
  ∀ w < p.tagAssocNo, w ≠ a → (p.way lines' set w).status ≠ .invalid →
    ∃ w' < p.tagAssocNo, w' ≠ a ∧ (p.way lines' set w).tag = (p.way lines set w').tag ∧
      (p.way lines' set w).status = (p.way lines set w').status ∧
      getAvailSpace (p.way lines set w') ≤ getAvailSpace (p.way lines' set w)

/-- The highest free way starts where the ways above it end, like those above it. -/
theorem Layout.start_eq_behind (h : p.Layout lines set free) (hw : w < p.tagAssocNo)
    (hfree : free ≤ w + 1) : (p.way lines set w).startSegIdx = p.behind lines set (w + 1) := by
  by_cases hlt : free ≤ w
  · exact h.start_eq w hw hlt
  · obtain rfl : free = w + 1 := by omega
    exact (h.free_eq w w.lt_succ_self).2.1

/-! ## The new line -/

theorem getLastD_linesBelow (hk : k ≤ idx) : (linesBelow idx k).getLastD idx = idx - k := by
  cases k with
  | zero => rfl
  | succ k =>
    rw [linesBelow_concat, List.getLastD_concat]
    omega

variable (p) in
/-- The new line of a fill: as long as needed, inside the space of the lines that go. -/
structure NewLine (lines : Lines) (set a k segNo endSegIdx : ℕ) : Prop where
  start_le : (p.way lines set a).startSegIdx ≤ endSegIdx + 1
  fits : segNo ≤ endSegIdx + 1 - (p.way lines set a).startSegIdx
  end_le : endSegIdx ≤ p.maxSegIdx
  end_le_last : k < a → endSegIdx ≤ (p.way lines set (a - k)).endSegIdx

theorem lastSegIdx_linesBelow (ha : a < p.tagAssocNo) (hk : k ≤ a) :
    p.lastSegIdx lines (set * p.tagAssocNo + a) (linesBelow (set * p.tagAssocNo + a) k) =
      if a - k = 0 then p.maxSegIdx else (p.way lines set (a - k)).endSegIdx := by
  rw [lastSegIdx, getLastD_linesBelow (by omega),
    show set * p.tagAssocNo + a - k = set * p.tagAssocNo + (a - k) by omega,
    getWayIdx_way (by omega)]
  rfl

/-- The lines that go have room for the new one. -/
theorem newLine_of_room (hlayout : p.Layout lines set free) (ha : a < p.tagAssocNo)
    (hle : (p.way lines set a).startSegIdx ≤
      if a - k = 0 then p.maxSegIdx else (p.way lines set (a - k)).endSegIdx)
    (hroom : segNo ≤ (if a - k = 0 then p.maxSegIdx else (p.way lines set (a - k)).endSegIdx) -
      (p.way lines set a).startSegIdx + 1) :
    p.NewLine lines set a k segNo (newEndSegIdx (p.way lines set a).startSegIdx
      (if a - k = 0 then p.maxSegIdx else (p.way lines set (a - k)).endSegIdx) segNo) := by
  have hlast_le : (if a - k = 0 then p.maxSegIdx else (p.way lines set (a - k)).endSegIdx) ≤
      p.maxSegIdx := by
    split_ifs
    · exact Nat.le_refl _
    · exact hlayout.end_le _ (by omega)
  generalize hL : (if a - k = 0 then p.maxSegIdx else (p.way lines set (a - k)).endSegIdx) = last
    at hle hroom hlast_le
  unfold newEndSegIdx
  refine ⟨?_, ?_, ?_, fun hka => ?_⟩
  · split <;> omega
  · split <;> omega
  · split <;> omega
  · rw [if_neg (by omega)] at hL
    split <;> omega

/-- What a fill that does not abort goes on with. -/
theorem fillSegments_eq (hlayout : p.Layout lines set free) (ha : a < p.tagAssocNo) (hk : k ≤ a)
    (h : p.fillSegments lines (set * p.tagAssocNo + a) (linesBelow (set * p.tagAssocNo + a) k) addr
      time segNo compressed = some lines') :
    ∃ endSegIdx, p.NewLine lines set a k segNo endSegIdx ∧
      (if k = 0 then p.compact (Function.update lines (set * p.tagAssocNo + a)
          ((p.way lines set a).allocate (p.config.tag addr) (p.config.blockAddr addr) time
            (p.way lines set a).startSegIdx endSegIdx compressed)) (set * p.tagAssocNo + a)
        else some (p.shift (Function.update lines (set * p.tagAssocNo + a)
          ((p.way lines set a).allocate (p.config.tag addr) (p.config.blockAddr addr) time
            (p.way lines set a).startSegIdx endSegIdx compressed)) (set * p.tagAssocNo + a)
          endSegIdx k)) = some lines' := by
  unfold fillSegments at h
  rw [lastSegIdx_linesBelow ha hk] at h
  simp only [Option.bind_eq_bind, Option.bind_eq_some_iff, Option.guard_eq_some', exists_const] at h
  obtain ⟨hle, hroom, h⟩ := h
  refine ⟨_, newLine_of_room hlayout ha hle hroom, ?_⟩
  cases k with
  | zero =>
    rw [if_pos rfl]
    rw [linesBelow_zero, if_pos rfl] at h
    exact h
  | succ k =>
    have hlen : (linesBelow (set * p.tagAssocNo + a) (k + 1)).length = k + 1 := by
      simp [linesBelow]
    rw [if_neg (by omega)]
    rw [if_neg (List.ne_nil_of_length_pos (by omega)), hlen] at h
    exact h

/-! ## The lines behind the new one -/

/-- The set with the new line, before the lines behind it move. -/
structure Placed (p : TagParams) (lines lines₁ : Lines) (set a endSegIdx : ℕ) : Prop where
  way_eq : (p.way lines₁ set a).startSegIdx = (p.way lines set a).startSegIdx
  end_eq : (p.way lines₁ set a).endSegIdx = endSegIdx
  other : ∀ i, i ≠ set * p.tagAssocNo + a → lines₁ i = lines i

theorem Placed.way_of_ne {lines₁ : Lines} {endSegIdx : ℕ} (h : Placed p lines lines₁ set a endSegIdx)
    (hw : w ≠ a) : p.way lines₁ set w = p.way lines set w :=
  h.other _ (by omega)

/-- The new line, put into its way. -/
theorem placed_update (endSegIdx : ℕ) :
    Placed p lines (Function.update lines (set * p.tagAssocNo + a)
      ((p.way lines set a).allocate (p.config.tag addr) (p.config.blockAddr addr) time
        (p.way lines set a).startSegIdx endSegIdx compressed)) set a endSegIdx := by
  generalize hblock : (p.way lines set a).allocate (p.config.tag addr) (p.config.blockAddr addr) time
    (p.way lines set a).startSegIdx endSegIdx compressed = block
  have hself : p.way (Function.update lines (set * p.tagAssocNo + a) block) set a = block :=
    Function.update_self ..
  refine ⟨?_, ?_, fun i hi => Function.update_of_ne hi ..⟩
  · rw [hself, ← hblock]
    rfl
  · rw [hself, ← hblock]
    rfl

/-- The end of the way above, as far as it bounds the start of a way. -/
theorem Layout.start_eq_succ (h : p.Layout lines set free) (hw : w + 1 < p.tagAssocNo)
    (hfree : free ≤ w) :
    (p.way lines set w).startSegIdx = (p.way lines set (w + 1)).endSegIdx + 1 := by
  rw [h.start_eq w (by omega) hfree, behind_of_lt hw]

/-- A set whose ways lie one behind the other, but for the free ones. -/
theorem layout_of_step {free' : ℕ} (hfree : free' ≤ p.tagAssocNo)
    (hlast : free' < p.tagAssocNo →
      (p.way lines' set (p.tagAssocNo - 1)).startSegIdx = 0)
    (hstep : ∀ w, w + 1 < p.tagAssocNo → free' ≤ w →
      (p.way lines' set w).startSegIdx = (p.way lines' set (w + 1)).endSegIdx + 1)
    (hfree_eq : ∀ w < free', (p.way lines' set w).status = .invalid ∧
      (p.way lines' set w).startSegIdx = p.behind lines' set free' ∧
      (p.way lines' set w).endSegIdx = p.maxSegIdx)
    (hstart : ∀ w < p.tagAssocNo,
      (p.way lines' set w).startSegIdx ≤ (p.way lines' set w).endSegIdx + 1)
    (hend : ∀ w < p.tagAssocNo, (p.way lines' set w).endSegIdx ≤ p.maxSegIdx) :
    p.Layout lines' set free' where
  free_le := hfree
  start_eq := by
    intro w hw hle
    by_cases hnext : w + 1 < p.tagAssocNo
    · rw [behind_of_lt hnext]
      exact hstep w hnext hle
    · rw [behind, if_neg hnext, show w = p.tagAssocNo - 1 by omega]
      exact hlast (by omega)
  free_eq := hfree_eq
  start_le := hstart
  end_le := hend

/-- Above the new line nothing has changed. -/
theorem Layout.start_last (h : p.Layout lines set free) (hN : 0 < p.tagAssocNo) (hfree : free ≤ p.tagAssocNo) :
    (p.way lines set (p.tagAssocNo - 1)).startSegIdx = 0 := by
  rw [h.start_eq_behind (by omega) (by omega), behind, if_neg (by omega)]

/-! ## From the new line on -/

/-- The new line and the ways above it end inside the set. -/
theorem Placed.end_le_top {lines₁ : Lines} {endSegIdx : ℕ} (hplaced : Placed p lines lines₁ set a endSegIdx)
    (hlayout : p.Layout lines set free) (hnew : p.NewLine lines set a k segNo endSegIdx)
    (htop : ∀ w, a ≤ w → p.way lines' set w = p.way lines₁ set w) (hw : w < p.tagAssocNo) (haw : a ≤ w) :
    (p.way lines' set w).endSegIdx ≤ p.maxSegIdx := by
  rcases Nat.eq_or_lt_of_le haw with rfl | hlt
  · rw [htop a (Nat.le_refl _), hplaced.end_eq]
    exact hnew.end_le
  · rw [htop w haw, hplaced.way_of_ne (by omega)]
    exact hlayout.end_le w hw

/-- The new line and the ways above it keep the layout, so only the ways below it are to be looked at. -/
theorem Placed.layout {lines₁ : Lines} {endSegIdx : ℕ} (hplaced : Placed p lines lines₁ set a endSegIdx)
    (hlayout : p.Layout lines set free) (ha : a < p.tagAssocNo) (hk : k ≤ a) (hfree : free ≤ a + 1)
    (hnew : p.NewLine lines set a k segNo endSegIdx)
    (htop : ∀ w, a ≤ w → p.way lines' set w = p.way lines₁ set w)
    (hstep : ∀ w < a, k ≤ w →
      (p.way lines' set w).startSegIdx = (p.way lines' set (w + 1)).endSegIdx + 1)
    (hfree_eq : ∀ w < k, (p.way lines' set w).status = .invalid ∧
      (p.way lines' set w).startSegIdx = p.behind lines' set k ∧
      (p.way lines' set w).endSegIdx = p.maxSegIdx)
    (hstart : ∀ w < a, (p.way lines' set w).startSegIdx ≤ (p.way lines' set w).endSegIdx + 1)
    (hend : ∀ w < a, (p.way lines' set w).endSegIdx ≤ p.maxSegIdx) : p.Layout lines' set k := by
  refine layout_of_step (by omega) (fun hN => ?_) (fun w hw hkw => ?_) hfree_eq (fun w hw => ?_)
    (fun w hw => ?_)
  · -- the last way is the new line, or above it
    by_cases hlast : p.tagAssocNo - 1 = a
    · rw [hlast, htop a (Nat.le_refl _), hplaced.way_eq, ← hlast]
      exact hlayout.start_last (by omega) hlayout.free_le
    · rw [htop _ (by omega), hplaced.way_of_ne hlast]
      exact hlayout.start_last (by omega) hlayout.free_le
  · rcases Nat.lt_trichotomy w a with hwa | rfl | hwa
    · exact hstep w hwa hkw
    · rw [htop w (Nat.le_refl _), htop _ (by omega), hplaced.way_eq,
        hplaced.way_of_ne (by omega), hlayout.start_eq_behind ha hfree, behind_of_lt hw]
    · rw [htop w (by omega), htop _ (by omega), hplaced.way_of_ne (by omega),
        hplaced.way_of_ne (by omega)]
      exact hlayout.start_eq_succ hw (by omega)
  · rcases Nat.lt_trichotomy w a with hwa | rfl | hwa
    · exact hstart w hwa
    · rw [htop w (Nat.le_refl _), hplaced.way_eq, hplaced.end_eq]
      exact hnew.start_le
    · rw [htop w (by omega), hplaced.way_of_ne (by omega)]
      exact hlayout.start_le w hw
  · rcases Nat.lt_or_ge w a with hwa | hwa
    · exact hend w hwa
    · exact hplaced.end_le_top hlayout hnew htop hw hwa

/-! ## The compact case -/

/-- No way ends later than before the new line was put into its way. -/
theorem Placed.end_le {lines₁ : Lines} {endSegIdx : ℕ} (hplaced : Placed p lines lines₁ set a endSegIdx)
    (hnew : p.NewLine lines set a 0 segNo endSegIdx) (j : ℕ) :
    (p.way lines₁ set (j + 1)).endSegIdx ≤ (p.way lines set (j + 1)).endSegIdx := by
  by_cases hja : j + 1 = a
  · rw [hja, hplaced.end_eq]
    exact hnew.end_le_last (by omega)
  · have hway : p.way lines₁ set (j + 1) = p.way lines set (j + 1) := hplaced.way_of_ne hja
    exact Nat.le_of_eq (congrArg (·.endSegIdx) hway)

/-- The lines below the new one move up, and no assertion fails. -/
theorem compact_placed {lines₁ : Lines} {endSegIdx : ℕ} (hlayout : p.Layout lines set free)
    (ha : a < p.tagAssocNo) (hnew : p.NewLine lines set a 0 segNo endSegIdx)
    (hplaced : Placed p lines lines₁ set a endSegIdx) :
    ∃ t, p.compact lines₁ (set * p.tagAssocNo + a) = some t ∧
      (∀ i, ¬ (set * p.tagAssocNo ≤ i ∧ i < set * p.tagAssocNo + a) → t i = lines₁ i) ∧
      ∀ j < a, p.way t set j = p.packed (p.way t set (j + 1)) (p.way lines set j) ∧
        (p.way t set j).endSegIdx ≤ (p.way lines set j).endSegIdx := by
  have hbelow : ∀ j < a, lines₁ (set * p.tagAssocNo + j) = p.way lines set j :=
    fun j hj => hplaced.other _ (by omega)
  have hstart : ∀ j < a, (lines₁ (set * p.tagAssocNo + j)).startSegIdx ≤
      (lines₁ (set * p.tagAssocNo + j)).endSegIdx + 1 := by
    intro j hj
    rw [hbelow j hj]
    exact hlayout.start_le j (by omega)
  have hend : ∀ j < a, (lines₁ (set * p.tagAssocNo + j)).endSegIdx ≤ p.maxSegIdx := by
    intro j hj
    rw [hbelow j hj]
    exact hlayout.end_le j (by omega)
  have hchain : ∀ j < a, (lines₁ (set * p.tagAssocNo + j)).endSegIdx = p.maxSegIdx ∨
      (lines₁ (set * p.tagAssocNo + j + 1)).endSegIdx + 1 ≤
        (lines₁ (set * p.tagAssocNo + j)).startSegIdx := by
    intro j hj
    rw [hbelow j hj]
    by_cases hjf : j < free
    · exact Or.inl (hlayout.free_eq j hjf).2.2
    · have hs := hlayout.start_eq_succ (w := j) (by omega) (by omega)
      exact Or.inr (by rw [hs]; exact Nat.succ_le_succ (hplaced.end_le hnew j))
  obtain ⟨t, ht, hout, hin⟩ := compact_spec (getWayIdx_way ha) hstart hend hchain
  refine ⟨t, ht, hout, fun j hj => ?_⟩
  obtain ⟨hpack, hle⟩ := hin j hj
  rw [hbelow j hj] at hpack hle
  exact ⟨hpack, hle⟩

/-- The set after a fill that evicts no other line: every way starts where the one above it ends. -/
theorem fill_compact {lines₁ : Lines} {endSegIdx : ℕ} (hlayout : p.Layout lines set free)
    (ha : a < p.tagAssocNo) (hfree : free ≤ a + 1) (hnew : p.NewLine lines set a 0 segNo endSegIdx)
    (hplaced : Placed p lines lines₁ set a endSegIdx)
    (h : p.compact lines₁ (set * p.tagAssocNo + a) = some lines') :
    (∀ i, ¬ (set * p.tagAssocNo ≤ i ∧ i < set * p.tagAssocNo + a) → lines' i = lines₁ i) ∧
      p.Layout lines' set 0 ∧ p.Preserved lines lines' set a := by
  obtain ⟨t, ht, hout, hin⟩ := compact_placed hlayout ha hnew hplaced
  obtain rfl : t = lines' := Option.some.inj (ht.symm.trans h)
  -- the ways from the new line on are those of `lines₁`
  have htop : ∀ w, a ≤ w → p.way t set w = p.way lines₁ set w := fun w hw => hout _ (by omega)
  have hpack : ∀ j < a, p.way t set j = p.packed (p.way t set (j + 1)) (p.way lines set j) :=
    fun j hj => (hin j hj).1
  have hle : ∀ j < a, (p.way t set j).endSegIdx ≤ (p.way lines set j).endSegIdx :=
    fun j hj => (hin j hj).2
  have hend : ∀ w < a, (p.way t set w).endSegIdx ≤ p.maxSegIdx := fun w hw =>
    Nat.le_trans (hle w hw) (hlayout.end_le w (by omega))
  have hfront : ∀ j < a, (p.way t set (j + 1)).endSegIdx ≤ (p.way lines set (j + 1)).endSegIdx := by
    intro j hj
    by_cases hja : j + 1 < a
    · exact hle _ hja
    · rw [htop _ (by omega)]
      exact hplaced.end_le hnew j
  refine ⟨hout, ?_, ?_⟩
  · refine hplaced.layout hlayout ha (Nat.zero_le _) hfree hnew htop (fun w hwa _ => ?_)
      (fun w hw => by omega) (fun w hwa => ?_) hend
    · rw [hpack w hwa]
      rfl
    · have hmax : (p.way t set (w + 1)).endSegIdx ≤ p.maxSegIdx :=
        Nat.le_trans (hfront w hwa) (hlayout.end_le (w + 1) (by omega))
      rw [hpack w hwa]
      unfold packed
      dsimp only
      split_ifs <;> omega
  · intro w hw hwa hlive
    refine ⟨w, hw, hwa, ?_⟩
    rcases Nat.lt_or_ge w a with hlt | hge
    · rw [hpack w hlt] at hlive ⊢
      refine ⟨rfl, rfl, ?_⟩
      -- a live way is not free, so it starts where the one above it ends
      have hs := hlayout.start_eq_succ (w := w) (by omega) (hlayout.free_le_of_live hlive)
      have hnext := hfront w hlt
      have hle' := hlayout.start_le w hw
      rw [getAvailSpace_eq, getAvailSpace_eq]
      unfold packed
      dsimp only
      split_ifs <;> omega
    · rw [htop w hge, hplaced.way_of_ne hwa]
      exact ⟨rfl, rfl, Nat.le_refl _⟩

/-! ## The shift case -/

/-- A moved line ends no later than before, by induction on its distance `n` to the new line. -/
theorem Placed.end_le_moved {lines₁ : Lines} {endSegIdx : ℕ} (hplaced : Placed p lines lines₁ set a endSegIdx)
    (hlayout : p.Layout lines set free) (ha : a < p.tagAssocNo)
    (hnew : p.NewLine lines set a k segNo endSegIdx)
    (htop : ∀ w, a ≤ w → p.way lines' set w = p.way lines₁ set w)
    (hpush : ∀ j < a, k ≤ j → p.way lines' set j =
      p.pushed (p.way lines' set (j + 1)) (p.way lines set (j - k))) (n j : ℕ) (hj : j + n = a)
    (hkj : k ≤ j) (hfj : free ≤ j - k) (hka : k < a) :
    (p.way lines' set j).endSegIdx ≤ (p.way lines set (j - k)).endSegIdx := by
  induction n generalizing j with
  | zero =>
    obtain rfl : j = a := hj
    rw [htop j (Nat.le_refl _), hplaced.end_eq]
    exact hnew.end_le_last hka
  | succ n ih =>
    have hfront := ih (j + 1) (by omega) (by omega) (by omega)
    have hs := hlayout.start_eq_succ (w := j - k) (by omega) hfj
    have hle := hlayout.start_le (j - k) (by omega)
    rw [show j + 1 - k = j - k + 1 by omega] at hfront
    rw [hpush j (by omega) hkj]
    refine Nat.le_trans (Nat.min_le_left _ _) ?_
    omega

/-- The lines below the evicted ones move up by as many ways, and the lowest ways become free. -/
theorem shift_placed {lines₁ : Lines} {endSegIdx : ℕ} (hlayout : p.Layout lines set free)
    (ha : a < p.tagAssocNo) (hk : k ≤ a) (hnew : p.NewLine lines set a k segNo endSegIdx)
    (hplaced : Placed p lines lines₁ set a endSegIdx)
    (h : lines' = p.shift lines₁ (set * p.tagAssocNo + a) endSegIdx k) :
    (∀ i, ¬ (set * p.tagAssocNo ≤ i ∧ i < set * p.tagAssocNo + a) → lines' i = lines₁ i) ∧
      (∀ j < a, k ≤ j → p.way lines' set j =
        p.pushed (p.way lines' set (j + 1)) (p.way lines set (j - k))) ∧
      ∀ j < k, (p.way lines' set j).status = .invalid ∧
        (p.way lines' set j).startSegIdx = (p.way lines' set k).endSegIdx + 1 ∧
        (p.way lines' set j).endSegIdx = p.maxSegIdx := by
  have hbelow : ∀ j < a, lines₁ (set * p.tagAssocNo + j) = p.way lines set j :=
    fun j hj => hplaced.other _ (by omega)
  have hstart : ∀ j < a - k, (lines₁ (set * p.tagAssocNo + j)).startSegIdx ≤
      (lines₁ (set * p.tagAssocNo + j)).endSegIdx + 1 := by
    intro j hj
    rw [hbelow j (by omega)]
    exact hlayout.start_le j (by omega)
  obtain ⟨hout, hmoved, hfreed⟩ :=
    shift_spec (getWayIdx_way ha) hk hplaced.end_eq hnew.end_le hstart h
  refine ⟨hout, fun j hj hkj => ?_, fun j hj => ?_⟩
  · rw [← hbelow (j - k) (by omega)]
    exact hmoved j hj hkj
  · have hway : p.way lines' set j = _ := hfreed j hj
    rw [hway]
    exact ⟨rfl, rfl, rfl⟩

/-- The set after a fill that evicts the `k` ways below the new line as well. -/
theorem fill_shift {lines₁ : Lines} {endSegIdx : ℕ} (hlayout : p.Layout lines set free)
    (ha : a < p.tagAssocNo) (hk : k ≤ a) (hfree : free ≤ a + 1)
    (hnew : p.NewLine lines set a k segNo endSegIdx)
    (hplaced : Placed p lines lines₁ set a endSegIdx)
    (h : lines' = p.shift lines₁ (set * p.tagAssocNo + a) endSegIdx k) :
    (∀ i, ¬ (set * p.tagAssocNo ≤ i ∧ i < set * p.tagAssocNo + a) → lines' i = lines₁ i) ∧
      p.Layout lines' set k ∧ p.Preserved lines lines' set a := by
  obtain ⟨hout, hpush, hgone⟩ := shift_placed hlayout ha hk hnew hplaced h
  have htop : ∀ w, a ≤ w → p.way lines' set w = p.way lines₁ set w := fun w hw => hout _ (by omega)
  have hend : ∀ w < p.tagAssocNo, (p.way lines' set w).endSegIdx ≤ p.maxSegIdx := by
    intro w hw
    rcases Nat.lt_or_ge w a with hwa | hwa
    · by_cases hkw : k ≤ w
      · rw [hpush w hwa hkw]
        exact Nat.min_le_right _ _
      · exact Nat.le_of_eq (hgone w (by omega)).2.2
    · exact hplaced.end_le_top hlayout hnew htop hw hwa
  refine ⟨hout, ?_, ?_⟩
  · refine hplaced.layout hlayout ha hk hfree hnew htop (fun w hwa hkw => ?_) (fun w hw => ?_)
      (fun w hwa => ?_) fun w hwa => hend w (by omega)
    · rw [hpush w hwa hkw]
      rfl
    · obtain ⟨hst, hs, he⟩ := hgone w hw
      exact ⟨hst, by rw [hs, behind_of_lt (by omega)], he⟩
    · by_cases hkw : k ≤ w
      · have hfront := hend (w + 1) (by omega)
        rw [hpush w hwa hkw]
        unfold pushed
        dsimp only
        omega
      · obtain ⟨-, hs, he⟩ := hgone w (by omega)
        have := hend k (by omega)
        omega
  · intro w hw hwa hlive
    rcases Nat.lt_or_ge w a with hlt | hge
    · by_cases hkw : k ≤ w
      · refine ⟨w - k, by omega, by omega, ?_⟩
        rw [hpush w hlt hkw] at hlive ⊢
        refine ⟨rfl, rfl, ?_⟩
        have hwf := hlayout.free_le_of_live hlive
        have hs := hlayout.start_eq_succ (w := w - k) (by omega) hwf
        have hfront := hplaced.end_le_moved hlayout ha hnew htop hpush (a - (w + 1)) (w + 1) (by omega)
          (by omega) (by omega) (by omega)
        have hle' := hlayout.start_le (w - k) (by omega)
        have hmax := hlayout.end_le (w - k) (by omega)
        rw [show w + 1 - k = w - k + 1 by omega] at hfront
        rw [getAvailSpace_eq, getAvailSpace_eq]
        unfold pushed
        dsimp only
        omega
      · exact absurd (hgone w (by omega)).1 hlive
    · refine ⟨w, hw, hwa, ?_⟩
      rw [htop w hge, hplaced.way_of_ne hwa]
      exact ⟨rfl, rfl, Nat.le_refl _⟩

/-! ## The fill -/

/-- **A fill keeps the layout**: the new line has its segments, and the other live lines keep theirs. -/
theorem fillSegments_layout (hlayout : p.Layout lines set free) (ha : a < p.tagAssocNo) (hk : k ≤ a)
    (hfree : free ≤ a + 1)
    (h : p.fillSegments lines (set * p.tagAssocNo + a) (linesBelow (set * p.tagAssocNo + a) k) addr
      time segNo compressed = some lines') :
    (∀ i, ¬ (set * p.tagAssocNo ≤ i ∧ i ≤ set * p.tagAssocNo + a) → lines' i = lines i) ∧
      (∃ free', free' ≤ a ∧ p.Layout lines' set free') ∧ p.Preserved lines lines' set a ∧
      (p.way lines' set a).tag = p.config.tag addr ∧ (p.way lines' set a).status = .reserved ∧
      segNo ≤ getAvailSpace (p.way lines' set a) := by
  obtain ⟨endSegIdx, hnew, hlines'⟩ := fillSegments_eq hlayout ha hk h
  have hplaced : Placed p lines (Function.update lines (set * p.tagAssocNo + a)
      ((p.way lines set a).allocate (p.config.tag addr) (p.config.blockAddr addr) time
        (p.way lines set a).startSegIdx endSegIdx compressed)) set a endSegIdx := placed_update _
  generalize hblock : (p.way lines set a).allocate (p.config.tag addr) (p.config.blockAddr addr) time
    (p.way lines set a).startSegIdx endSegIdx compressed = block at hlines' hplaced
  have hself : p.way (Function.update lines (set * p.tagAssocNo + a) block) set a = block :=
    Function.update_self ..
  -- both cases leave the new line where it was put
  have hfill : (∀ i, ¬ (set * p.tagAssocNo ≤ i ∧ i < set * p.tagAssocNo + a) →
      lines' i = Function.update lines (set * p.tagAssocNo + a) block i) ∧
      (∃ free', free' ≤ a ∧ p.Layout lines' set free') ∧ p.Preserved lines lines' set a := by
    by_cases hk0 : k = 0
    · subst hk0
      rw [if_pos rfl] at hlines'
      obtain ⟨hout, hl, hp⟩ := fill_compact hlayout ha hfree hnew hplaced hlines'
      exact ⟨hout, ⟨0, Nat.zero_le _, hl⟩, hp⟩
    · rw [if_neg hk0] at hlines'
      obtain ⟨hout, hl, hp⟩ := fill_shift hlayout ha hk hfree hnew hplaced
        (Option.some.inj hlines').symm
      exact ⟨hout, ⟨k, hk, hl⟩, hp⟩
  obtain ⟨hout, hl, hp⟩ := hfill
  have hway : p.way lines' set a = block := (hout _ (by omega)).trans hself
  refine ⟨fun i hi => ?_, hl, hp, ?_, ?_, ?_⟩
  · rw [hout i (by omega), Function.update_of_ne (by omega)]
  · rw [hway, ← hblock]
    rfl
  · rw [hway, ← hblock]
    rfl
  · rw [hway, ← hblock, getAvailSpace_eq]
    exact hnew.fits

/-- A fill of lines with room does not abort. -/
theorem fillSegments_isSome (hlayout : p.Layout lines set free) (ha : a < p.tagAssocNo) (hk : k ≤ a)
    (hle : (p.way lines set a).startSegIdx ≤
      if a - k = 0 then p.maxSegIdx else (p.way lines set (a - k)).endSegIdx)
    (hroom : segNo ≤ (if a - k = 0 then p.maxSegIdx else (p.way lines set (a - k)).endSegIdx) -
      (p.way lines set a).startSegIdx + 1) :
    ∃ lines', p.fillSegments lines (set * p.tagAssocNo + a) (linesBelow (set * p.tagAssocNo + a) k)
      addr time segNo compressed = some lines' := by
  have hnew := newLine_of_room hlayout ha hle hroom
  unfold fillSegments
  rw [lastSegIdx_linesBelow ha hk]
  simp only [Option.bind_eq_bind, Option.bind_eq_some_iff, Option.guard_eq_some', exists_const]
  cases k with
  | zero =>
    obtain ⟨t, ht, -, -⟩ := compact_placed hlayout ha hnew (placed_update _)
    refine ⟨t, hle, hroom, ?_⟩
    rw [linesBelow_zero, if_pos rfl]
    exact ht
  | succ k =>
    rw [if_neg (List.ne_nil_of_length_pos (by simp [linesBelow]))]
    exact ⟨_, hle, hroom, rfl⟩

end TagParams

end CompressionWork.Cache
