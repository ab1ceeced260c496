import CompressionWork.Cache.Choice
import CompressionWork.Cache.Segments

/-!
# When the multi-line eviction finds room

* `LoopInvariant` — what both a round upwards and a round downwards keep, and what follows for the loop.
* `counted`, `countedDead` — the segments counted for a run of ways: those between its ends, but those
  of the line at the last segment when the eviction starts from a line behind it.
* `doMultiLineEviction_isSome_iff` — the eviction ends when the policy can choose and the counted
  segments of the whole set are enough.
-/

namespace CompressionWork.Cache

namespace TagParams

variable {p : TagParams} {lines : Lines} {set free a lo v w m segNo fuel : ℕ}
  {J : ℕ → ℕ → Eviction → Prop}

/-! ## The neighbours of a run of ways -/

theorem getNeighborIdx_fst (hassoc : 2 ≤ p.tagAssocNo) (ha : a < p.tagAssocNo) :
    (p.getNeighborIdx (set * p.tagAssocNo + a)).1 =
      if a + 1 < p.tagAssocNo then some (set * p.tagAssocNo + (a + 1)) else none := by
  unfold getNeighborIdx
  rw [getWayIdx_way ha]
  split_ifs <;> first | rfl | omega

theorem getNeighborIdx_snd (hassoc : 2 ≤ p.tagAssocNo) (ha : a < p.tagAssocNo) :
    (p.getNeighborIdx (set * p.tagAssocNo + a)).2 =
      if 0 < a then some (set * p.tagAssocNo + (a - 1)) else none := by
  unfold getNeighborIdx
  rw [getWayIdx_way ha]
  split_ifs
  · omega
  · rfl
  · exact congrArg some (by omega)
  · omega
  · exact congrArg some (by omega)
  · omega

/-- The line that joins a run of ways is the one above it or the one below it. -/
theorem selectEvictLineIdx_run (hassoc : 2 ≤ p.tagAssocNo) (ha : a < p.tagAssocNo) (hlo : lo ≤ a)
    {line : ℕ} (h : p.selectEvictLineIdx lines (p.getNeighborIdx (set * p.tagAssocNo + a)).1
      (p.getNeighborIdx (set * p.tagAssocNo + lo)).2 = some line) :
    a + 1 < p.tagAssocNo ∧ line = set * p.tagAssocNo + (a + 1) ∨
      0 < lo ∧ line = set * p.tagAssocNo + (lo - 1) := by
  rw [getNeighborIdx_fst hassoc ha, getNeighborIdx_snd hassoc (by omega)] at h
  split_ifs at h with htop hbot hbot
  · simp only [selectEvictLineIdx] at h
    split_ifs at h
    · exact Or.inl ⟨htop, (Option.some.inj h).symm⟩
    · exact Or.inr ⟨hbot, (Option.some.inj h).symm⟩
  · exact Or.inl ⟨htop, (Option.some.inj h).symm⟩
  · exact Or.inr ⟨hbot, (Option.some.inj h).symm⟩
  · exact absurd h (by simp [selectEvictLineIdx])

variable (p) in
/-- The policy can choose between the neighbours of a run of ways: FIFO only when there is one. -/
def CanChoose (a lo : ℕ) : Prop :=
  p.config.replacementPolicy = .lru ∨ lo = 0 ∨ a + 1 = p.tagAssocNo

instance (a lo : ℕ) : Decidable (p.CanChoose a lo) :=
  inferInstanceAs (Decidable (p.config.replacementPolicy = .lru ∨ lo = 0 ∨ a + 1 = p.tagAssocNo))

theorem selectEvictLineIdx_of_canChoose (hassoc : 2 ≤ p.tagAssocNo) (ha : a < p.tagAssocNo)
    (hlo : lo ≤ a) (hmore : a + 1 < p.tagAssocNo ∨ 0 < lo) (hcan : p.CanChoose a lo) :
    ∃ line, p.selectEvictLineIdx lines (p.getNeighborIdx (set * p.tagAssocNo + a)).1
      (p.getNeighborIdx (set * p.tagAssocNo + lo)).2 = some line := by
  rw [getNeighborIdx_fst hassoc ha, getNeighborIdx_snd hassoc (by omega)]
  split_ifs with htop hbot hbot
  · have hlru : p.config.replacementPolicy = .lru := by
      rcases hcan with h | h | h
      · exact h
      · omega
      · omega
    simp only [selectEvictLineIdx, if_pos hlru]
    split_ifs
    · exact ⟨_, rfl⟩
    · exact ⟨_, rfl⟩
  · exact ⟨_, rfl⟩
  · exact ⟨_, rfl⟩
  · omega

theorem selectEvictLineIdx_of_not_canChoose (ha : a < p.tagAssocNo) (hlo : lo ≤ a)
    (hcan : ¬ p.CanChoose a lo) :
    p.selectEvictLineIdx lines (p.getNeighborIdx (set * p.tagAssocNo + a)).1
      (p.getNeighborIdx (set * p.tagAssocNo + lo)).2 = none := by
  unfold CanChoose at hcan
  push Not at hcan
  obtain ⟨hpolicy, hbot, htop⟩ := hcan
  rw [getNeighborIdx_fst (by omega) ha, getNeighborIdx_snd (by omega) (by omega), if_pos (by omega),
    if_pos (by omega)]
  simp only [selectEvictLineIdx, if_neg hpolicy]

/-! ## The loop -/

variable (p) in
/-- What holds of the ways from `lo` to `a` and the locals of the loop after each round. -/
structure LoopInvariant (lines : Lines) (set : ℕ) (J : ℕ → ℕ → Eviction → Prop) : Prop where
  run : ∀ a lo e, J a lo e → lo ≤ a ∧ a < p.tagAssocNo ∧ e.maxIdx = set * p.tagAssocNo + a ∧
    e.minIdx = set * p.tagAssocNo + lo
  up : ∀ a lo e, J a lo e → a + 1 < p.tagAssocNo →
    J (a + 1) lo (p.addEvictLine lines e (set * p.tagAssocNo + (a + 1)))
  down : ∀ a lo e, J a (lo + 1) e → J a lo (p.addEvictLine lines e (set * p.tagAssocNo + lo))

/-- One round. -/
theorem LoopInvariant.round (hJ : p.LoopInvariant lines set J) {e : Eviction} (h : J a lo e)
    (hassoc : 2 ≤ p.tagAssocNo) {line : ℕ}
    (hsel : p.selectEvictLineIdx lines (p.getNeighborIdx e.maxIdx).1 (p.getNeighborIdx e.minIdx).2 =
      some line) :
    a + 1 < p.tagAssocNo ∧ J (a + 1) lo (p.addEvictLine lines e line) ∨
      0 < lo ∧ J a (lo - 1) (p.addEvictLine lines e line) := by
  obtain ⟨hlo, ha, hmax, hmin⟩ := hJ.run a lo e h
  rw [hmax, hmin] at hsel
  rcases selectEvictLineIdx_run hassoc ha hlo hsel with ⟨htop, rfl⟩ | ⟨hbot, rfl⟩
  · exact Or.inl ⟨htop, hJ.up a lo e h htop⟩
  · refine Or.inr ⟨hbot, hJ.down a (lo - 1) e ?_⟩
    rw [Nat.sub_add_cancel hbot]
    exact h

/-- When the loop ends, the run of ways has room. -/
theorem LoopInvariant.of_evictLoop (hJ : p.LoopInvariant lines set J) {e e' : Eviction} (h : J a lo e)
    (hroom : 2 ≤ p.tagAssocNo ∨ segNo ≤ e.availSegNo)
    (hloop : p.evictLoop lines segNo fuel e = some e') :
    ∃ a' lo', J a' lo' e' ∧ segNo ≤ e'.availSegNo := by
  induction fuel generalizing a lo e with
  | zero =>
    unfold evictLoop at hloop
    split_ifs at hloop with hdone
    obtain rfl := Option.some.inj hloop
    exact ⟨a, lo, h, hdone⟩
  | succ fuel ih =>
    unfold evictLoop at hloop
    split_ifs at hloop with hdone
    · obtain rfl := Option.some.inj hloop
      exact ⟨a, lo, h, hdone⟩
    · have hassoc := hroom.resolve_right hdone
      simp only [Option.bind_eq_bind, Option.bind_eq_some_iff] at hloop
      obtain ⟨line, hsel, hrest⟩ := hloop
      rcases hJ.round h hassoc hsel with ⟨-, hnext⟩ | ⟨-, hnext⟩
      · exact ih hnext (Or.inl hassoc) hrest
      · exact ih hnext (Or.inl hassoc) hrest

/-- The loop ends when the whole set has room: every round adds a way. -/
theorem LoopInvariant.evictLoop_isSome (hJ : p.LoopInvariant lines set J) {e : Eviction}
    (h : J a lo e) (hcan : p.CanChoose a lo)
    (hfull : ∀ e, J (p.tagAssocNo - 1) 0 e → segNo ≤ e.availSegNo)
    (hfuel : p.tagAssocNo ≤ fuel + (a - lo) + 1) :
    ∃ e', p.evictLoop lines segNo fuel e = some e' := by
  induction fuel generalizing a lo e with
  | zero =>
    obtain ⟨hlo, ha, -, -⟩ := hJ.run a lo e h
    obtain rfl : a = p.tagAssocNo - 1 := by omega
    obtain rfl : lo = 0 := by omega
    exact ⟨e, by rw [evictLoop, if_pos (hfull e h)]⟩
  | succ fuel ih =>
    obtain ⟨hlo, ha, hmax, hmin⟩ := hJ.run a lo e h
    by_cases hdone : segNo ≤ e.availSegNo
    · exact ⟨e, by rw [evictLoop, if_pos hdone]⟩
    have hmore : a + 1 < p.tagAssocNo ∨ 0 < lo := by
      by_contra hall
      obtain rfl : a = p.tagAssocNo - 1 := by omega
      obtain rfl : lo = 0 := by omega
      exact hdone (hfull e h)
    obtain ⟨line, hline⟩ : ∃ line, p.selectEvictLineIdx lines (p.getNeighborIdx e.maxIdx).1
        (p.getNeighborIdx e.minIdx).2 = some line := by
      rw [hmax, hmin]
      exact selectEvictLineIdx_of_canChoose (by omega) ha hlo hmore hcan
    rw [evictLoop, if_neg hdone]
    simp only [hline, Option.bind_eq_bind, Option.bind_some]
    -- FIFO stays at the end of the set where it started
    rcases hJ.round h (by omega) hline with ⟨htop, hnext⟩ | ⟨hbot, hnext⟩
    · refine ih hnext ?_ (by omega)
      rcases hcan with hlru | hzero | hlast
      · exact Or.inl hlru
      · exact Or.inr (Or.inl hzero)
      · omega
    · refine ih hnext ?_ (by omega)
      rcases hcan with hlru | hzero | hlast
      · exact Or.inl hlru
      · omega
      · exact Or.inr (Or.inr hlast)

/-! ## Starts and ends of the ways -/

/-- Lower ways start further behind, also among the free ones. -/
theorem Layout.start_anti (h : p.Layout lines set free) (hle : v ≤ a) (ha : a < p.tagAssocNo) :
    (p.way lines set a).startSegIdx ≤ (p.way lines set v).startSegIdx := by
  by_cases hva : v = a
  · exact Nat.le_of_eq (by rw [hva])
  have hfront := h.start_le_behind ha
  by_cases hfree : free ≤ v
  · exact Nat.le_trans hfront (h.behind_le_start (by omega) hfree (by omega))
  have hstart := (h.free_eq v (by omega)).2.1
  by_cases hafree : free ≤ a
  · rw [hstart]
    exact Nat.le_trans hfront (h.behind_anti (Nat.le_refl _) hafree)
  · exact Nat.le_of_eq (by rw [hstart, (h.free_eq a (by omega)).2.1])

/-- Below a way that ends with the set, all ways do. -/
theorem Layout.end_eq_max (h : p.Layout lines set free) (hle : w ≤ a) (ha : a < p.tagAssocNo)
    (hmax : (p.way lines set a).endSegIdx = p.maxSegIdx) :
    (p.way lines set w).endSegIdx = p.maxSegIdx := by
  by_cases hfree : free ≤ w
  · have hanti := h.behind_anti hfree hle
    have hend := h.end_le w (by omega)
    rw [behind_of_lt ha, behind_of_lt (by omega), hmax] at hanti
    omega
  · exact (h.free_eq w (by omega)).2.2

/-- A way starts where the one above it ends, but for the free ways below the highest. -/
theorem Layout.start_eq_end (h : p.Layout lines set free) (ha : a + 1 < p.tagAssocNo)
    (hfree : free ≤ a + 1) :
    (p.way lines set a).startSegIdx = (p.way lines set (a + 1)).endSegIdx + 1 := by
  rw [h.start_eq_behind (by omega) hfree, behind_of_lt ha]

/-- The way that owns the last segment, when some way lies behind the set. -/
structure Owner (p : TagParams) (lines : Lines) (set free v m : ℕ) : Prop where
  above : v < m
  lt : m < p.tagAssocNo
  free_le : free ≤ m
  end_eq : (p.way lines set m).endSegIdx = p.maxSegIdx
  start_le : (p.way lines set m).startSegIdx ≤ p.maxSegIdx

theorem Layout.exists_owner (h : p.Layout lines set free) (hv : v < p.tagAssocNo)
    (hdead : (p.way lines set v).startSegIdx = p.maxSegIdx + 1) : ∃ m, Owner p lines set free v m := by
  -- `n` is the number of ways above
  obtain ⟨n, hn⟩ : ∃ n, n + v = p.tagAssocNo := ⟨p.tagAssocNo - v, by omega⟩
  induction n using Nat.strongRecOn generalizing v with
  | ind n ih =>
    -- the way that `v` starts behind
    obtain ⟨next, hfree, hnext, hstart⟩ : ∃ next, free ≤ next ∧ v < next ∧
        (p.way lines set v).startSegIdx = p.behind lines set next := by
      by_cases hfree : free ≤ v
      · exact ⟨v + 1, by omega, by omega, h.start_eq v hv hfree⟩
      · exact ⟨free, by omega, by omega, (h.free_eq v (by omega)).2.1⟩
    have hlt : next < p.tagAssocNo := by
      by_contra hge
      rw [hstart, behind, if_neg hge] at hdead
      omega
    have hend : (p.way lines set next).endSegIdx = p.maxSegIdx := by
      rw [hstart, behind_of_lt hlt] at hdead
      omega
    by_cases howner : (p.way lines set next).startSegIdx ≤ p.maxSegIdx
    · exact ⟨next, hnext, hlt, hfree, hend, howner⟩
    · have hle := h.start_le next hlt
      obtain ⟨m, hm⟩ := ih (p.tagAssocNo - next) (by omega) hlt (by omega) (by omega)
      exact ⟨m, Nat.lt_trans hnext hm.above, hm.lt, hm.free_le, hm.end_eq, hm.start_le⟩

/-- The ways below the owner of the last segment lie behind the set. -/
theorem Owner.start_of_lt (hm : Owner p lines set free v m) (h : p.Layout lines set free) (hw : w < m) :
    (p.way lines set w).startSegIdx = p.maxSegIdx + 1 := by
  have hlt := hm.lt
  have hbehind : p.behind lines set m = p.maxSegIdx + 1 := by
    rw [behind_of_lt hm.lt, hm.end_eq]
  have hle := h.start_le w (by omega)
  rw [h.end_eq_max (Nat.le_of_lt hw) hm.lt hm.end_eq] at hle
  by_cases hfree : free ≤ w
  · have := h.behind_le_start (by omega) hfree hw
    omega
  · have := h.behind_anti (Nat.le_refl _) hm.free_le
    rw [(h.free_eq w (by omega)).2.1] at hle ⊢
    omega

/-- The ways above it end before the last segment. -/
theorem Owner.end_of_lt (hm : Owner p lines set free v m) (h : p.Layout lines set free) (hw : m < w)
    (hlt : w < p.tagAssocNo) : (p.way lines set w).endSegIdx < p.maxSegIdx := by
  have hanti := h.behind_anti (Nat.le_succ_of_le hm.free_le) hw
  have hstart := hm.start_le
  rw [← h.start_eq m hm.lt hm.free_le, behind_of_lt hlt] at hanti
  omega

/-! ## The counted segments -/

theorem addEvictLine_availSegNo (hw : w < p.tagAssocNo) (e : Eviction) :
    (p.addEvictLine lines e (set * p.tagAssocNo + w)).availSegNo = e.availSegNo +
      (if e.isLastSegUsed = true ∧ (p.way lines set w).endSegIdx = p.maxSegIdx then 0
        else (p.way lines set w).endSegIdx + 1 - (p.way lines set w).startSegIdx) +
      (if w = 0 ∧ (p.way lines set w).startSegIdx ≤ (p.way lines set w).endSegIdx ∧
          (p.way lines set w).endSegIdx < p.maxSegIdx then
        p.maxSegIdx - (p.way lines set w).endSegIdx
      else 0) := by
  unfold addEvictLine tailSpace
  rw [getWayIdx_way hw]
  simp only [getAvailSpace_eq]
  rfl

theorem addEvictLine_isLastSegUsed (e : Eviction) :
    (p.addEvictLine lines e (set * p.tagAssocNo + w)).isLastSegUsed = true ↔
      e.isLastSegUsed = true ∨ (p.way lines set w).endSegIdx = p.maxSegIdx := by
  simp only [addEvictLine, Bool.or_eq_true, beq_iff_eq]
  rfl

variable (p) in
/-- The end of the segments counted for the ways down to `lo`; the last way also stands for those that
the set has left, when it has segments at all. -/
def reach (lines : Lines) (set lo : ℕ) : ℕ :=
  if lo = 0 ∧ (p.way lines set lo).startSegIdx ≤ (p.way lines set lo).endSegIdx then p.maxSegIdx + 1
  else (p.way lines set lo).endSegIdx + 1

/-- The locals of the loop for the ways from `lo` to `a`, of which `v` came first. -/
structure Visited (p : TagParams) (set v a lo : ℕ) (e : Eviction) : Prop where
  lo_le : lo ≤ v
  le : v ≤ a
  lt : a < p.tagAssocNo
  max_eq : e.maxIdx = set * p.tagAssocNo + a
  min_eq : e.minIdx = set * p.tagAssocNo + lo

theorem Visited.up {e : Eviction} (h : Visited p set v a lo e) (ha : a + 1 < p.tagAssocNo) :
    Visited p set v (a + 1) lo (p.addEvictLine lines e (set * p.tagAssocNo + (a + 1))) := by
  obtain ⟨hlo, hle, hlt, hmax, hmin⟩ := h
  refine ⟨hlo, by omega, ha, ?_, ?_⟩
  · simp only [addEvictLine]
    omega
  · simp only [addEvictLine]
    omega

theorem Visited.down {e : Eviction} (h : Visited p set v a (lo + 1) e) :
    Visited p set v a lo (p.addEvictLine lines e (set * p.tagAssocNo + lo)) := by
  obtain ⟨hlo, hle, hlt, hmax, hmin⟩ := h
  refine ⟨by omega, hle, hlt, ?_, ?_⟩
  · simp only [addEvictLine]
    omega
  · simp only [addEvictLine]
    omega

/-- The count, when the first line starts inside the set. -/
structure Counted (p : TagParams) (lines : Lines) (set v a lo : ℕ) (e : Eviction) : Prop where
  visited : Visited p set v a lo e
  avail_eq : e.availSegNo = p.reach lines set lo - (p.way lines set a).startSegIdx
  used_iff : e.isLastSegUsed = true ↔ (p.way lines set lo).endSegIdx = p.maxSegIdx

theorem counted_up (hlayout : p.Layout lines set free)
    (hv : (p.way lines set v).startSegIdx ≤ p.maxSegIdx) {e : Eviction}
    (h : Counted p lines set v a lo e) (ha : a + 1 < p.tagAssocNo) :
    Counted p lines set v (a + 1) lo
      (p.addEvictLine lines e (set * p.tagAssocNo + (a + 1))) := by
  obtain ⟨hvis, havail, hused⟩ := h
  have hlo := hvis.lo_le
  have hva := hvis.le
  have hend := hlayout.end_le (a + 1) ha
  have hstart := hlayout.start_le (a + 1) ha
  by_cases hfree : a + 1 < free
  · -- both ways are free
    have hloMax := (hlayout.free_eq lo (by omega)).2.2
    have htopMax := (hlayout.free_eq (a + 1) hfree).2.2
    refine ⟨hvis.up ha, ?_, ?_⟩
    · rw [addEvictLine_availSegNo ha, if_pos ⟨hused.2 hloMax, htopMax⟩, if_neg (by omega), havail,
        (hlayout.free_eq a (by omega)).2.1, (hlayout.free_eq (a + 1) hfree).2.1]
      rfl
    · rw [addEvictLine_isLastSegUsed, hused]
      exact ⟨fun _ => hloMax, fun _ => Or.inl hloMax⟩
  · have hs := hlayout.start_eq_end ha (by omega)
    have hav := hlayout.start_anti hva (by omega)
    have halo := hlayout.start_anti (Nat.le_trans hlo hva) (by omega)
    have hlole := hlayout.start_le lo (by omega)
    have hne : (p.way lines set (a + 1)).endSegIdx ≠ p.maxSegIdx := by omega
    refine ⟨hvis.up ha, ?_, ?_⟩
    · rw [addEvictLine_availSegNo ha, if_neg fun hcounted => hne hcounted.2, if_neg (by omega), havail]
      have hloend := hlayout.end_le lo (by omega)
      unfold reach
      split_ifs <;> omega
    · rw [addEvictLine_isLastSegUsed, hused]
      exact ⟨fun hor => hor.resolve_right hne, Or.inl⟩

theorem counted_down (hlayout : p.Layout lines set free) {e : Eviction}
    (h : Counted p lines set v a (lo + 1) e) :
    Counted p lines set v a lo (p.addEvictLine lines e (set * p.tagAssocNo + lo)) := by
  obtain ⟨hvis, havail, hused⟩ := h
  have hlo := hvis.lo_le
  have hva := hvis.le
  have ha := hvis.lt
  have hend := hlayout.end_le lo (by omega)
  have hreach : p.reach lines set (lo + 1) = (p.way lines set (lo + 1)).endSegIdx + 1 :=
    if_neg (by omega)
  rw [hreach] at havail
  refine ⟨hvis.down, ?_, ?_⟩
  · rw [addEvictLine_availSegNo (by omega), havail]
    by_cases hmax : (p.way lines set (lo + 1)).endSegIdx = p.maxSegIdx
    · have hloMax := hlayout.end_eq_max lo.le_succ (by omega) hmax
      rw [if_pos ⟨hused.2 hmax, hloMax⟩, if_neg (by omega), reach, hmax, hloMax]
      split_ifs <;> rfl
    · -- so the way above is not free, and this one starts behind it
      have hfree : free ≤ lo + 1 := by
        by_contra hlt
        exact hmax (hlayout.free_eq (lo + 1) (by omega)).2.2
      have hs := hlayout.start_eq_end (by omega) hfree
      have hsa := hlayout.start_anti (show lo + 1 ≤ a by omega) ha
      have hle := hlayout.start_le (lo + 1) (by omega)
      have hle' := hlayout.start_le lo (by omega)
      rw [if_neg fun hcounted => hmax (hused.1 hcounted.1)]
      unfold reach
      split_ifs <;> omega
  · rw [addEvictLine_isLastSegUsed, hused]
    exact ⟨fun hor => hor.elim (hlayout.end_eq_max lo.le_succ (by omega)) id, Or.inr⟩

theorem counted_start (hv : v < p.tagAssocNo) (hlayout : p.Layout lines set free) :
    Counted p lines set v v v (p.startEviction lines (set * p.tagAssocNo + v)) := by
  have hend := hlayout.end_le v hv
  refine ⟨⟨Nat.le_refl _, Nat.le_refl _, hv, rfl, rfl⟩, ?_, ?_⟩
  · simp only [startEviction, tailSpace, getWayIdx_way hv, getAvailSpace_eq]
    change (p.way lines set v).endSegIdx + 1 - (p.way lines set v).startSegIdx +
      (if v = 0 ∧ (p.way lines set v).startSegIdx ≤ (p.way lines set v).endSegIdx ∧
          (p.way lines set v).endSegIdx < p.maxSegIdx then
        p.maxSegIdx - (p.way lines set v).endSegIdx else 0) = _
    unfold reach
    split_ifs <;> omega
  · simp only [startEviction, beq_iff_eq]
    rfl

theorem counted_invariant (hlayout : p.Layout lines set free)
    (hv : (p.way lines set v).startSegIdx ≤ p.maxSegIdx) :
    p.LoopInvariant lines set (Counted p lines set v) where
  run _ _ _ h := ⟨Nat.le_trans h.visited.lo_le h.visited.le, h.visited.lt, h.visited.max_eq,
    h.visited.min_eq⟩
  up _ _ _ h ha := counted_up hlayout hv h ha
  down _ _ _ h := counted_down hlayout h

/-- The count, when the first line lies behind the set: the owner of the last segment is left out. -/
structure CountedDead (p : TagParams) (lines : Lines) (set v m a lo : ℕ) (e : Eviction) : Prop where
  visited : Visited p set v a lo e
  avail_eq : e.availSegNo = (p.way lines set m).startSegIdx - (p.way lines set a).startSegIdx
  used : e.isLastSegUsed = true

theorem countedDead_up (hlayout : p.Layout lines set free) (hm : Owner p lines set free v m)
    {e : Eviction} (h : CountedDead p lines set v m a lo e) (ha : a + 1 < p.tagAssocNo) :
    CountedDead p lines set v m (a + 1) lo
      (p.addEvictLine lines e (set * p.tagAssocNo + (a + 1))) := by
  obtain ⟨hvis, havail, hused⟩ := h
  refine ⟨hvis.up ha, ?_, (addEvictLine_isLastSegUsed e).2 (Or.inl hused)⟩
  rw [addEvictLine_availSegNo ha, if_neg (show ¬ (a + 1 = 0 ∧ _) by omega), havail]
  have hmle := hm.start_le
  by_cases ham : a + 1 ≤ m
  · have hsm := hlayout.start_anti ham hm.lt
    have hsa := hm.start_of_lt hlayout (show a < m by omega)
    rw [if_pos ⟨hused, hlayout.end_eq_max ham hm.lt hm.end_eq⟩]
    omega
  · have hfm := hm.free_le
    have hend := hm.end_of_lt hlayout (show m < a + 1 by omega) ha
    have hs := hlayout.start_eq_end ha (by omega)
    have hsm := hlayout.start_anti (show m ≤ a by omega) (by omega)
    have hle := hlayout.start_le (a + 1) ha
    rw [if_neg (by omega)]
    omega

theorem countedDead_down (hlayout : p.Layout lines set free) (hm : Owner p lines set free v m)
    {e : Eviction} (h : CountedDead p lines set v m a (lo + 1) e) :
    CountedDead p lines set v m a lo (p.addEvictLine lines e (set * p.tagAssocNo + lo)) := by
  obtain ⟨hvis, havail, hused⟩ := h
  have hlo := hvis.lo_le
  have hvm := hm.above
  have hmlt := hm.lt
  have hmax := hlayout.end_eq_max (show lo ≤ m by omega) hm.lt hm.end_eq
  refine ⟨hvis.down, ?_, (addEvictLine_isLastSegUsed e).2 (Or.inl hused)⟩
  rw [addEvictLine_availSegNo (by omega), if_pos ⟨hused, hmax⟩, if_neg (by omega), havail]
  rfl

theorem countedDead_start (hlayout : p.Layout lines set free) (hm : Owner p lines set free v m) :
    CountedDead p lines set v m v v (p.startEviction lines (set * p.tagAssocNo + v)) := by
  have hmlt := hm.lt
  have hvm := hm.above
  have hmle := hm.start_le
  have hstart := hm.start_of_lt hlayout hvm
  have hend := hlayout.end_eq_max (Nat.le_of_lt hvm) hm.lt hm.end_eq
  refine ⟨⟨Nat.le_refl _, Nat.le_refl _, by omega, rfl, rfl⟩, ?_, ?_⟩
  · simp only [startEviction, tailSpace, getWayIdx_way (show v < p.tagAssocNo by omega),
      getAvailSpace_eq]
    change (p.way lines set v).endSegIdx + 1 - (p.way lines set v).startSegIdx +
      (if v = 0 ∧ (p.way lines set v).startSegIdx ≤ (p.way lines set v).endSegIdx ∧
          (p.way lines set v).endSegIdx < p.maxSegIdx then
        p.maxSegIdx - (p.way lines set v).endSegIdx else 0) = _
    rw [if_neg (by omega)]
    omega
  · simp only [startEviction, beq_iff_eq]
    exact hend

theorem countedDead_invariant (hlayout : p.Layout lines set free) (hm : Owner p lines set free v m) :
    p.LoopInvariant lines set (CountedDead p lines set v m) where
  run _ _ _ h := ⟨Nat.le_trans h.visited.lo_le h.visited.le, h.visited.lt, h.visited.max_eq,
    h.visited.min_eq⟩
  up _ _ _ h ha := countedDead_up hlayout hm h ha
  down _ _ _ h := countedDead_down hlayout hm h

/-! ## The eviction -/

variable (p) in
/-- The segments that the eviction counts for the whole set are enough: when it starts from a line
behind the set, those in front of the line at the last segment; and when way 0 is empty without lying
behind the set, those in front of it. -/
def Reclaims (lines : Lines) (set segNo v : ℕ) : Prop :=
  ((p.way lines set v).startSegIdx = p.maxSegIdx + 1 →
    ∀ w < p.tagAssocNo, (p.way lines set w).startSegIdx ≤ (p.way lines set w).endSegIdx →
      (p.way lines set w).endSegIdx = p.maxSegIdx → segNo ≤ (p.way lines set w).startSegIdx) ∧
  ((p.way lines set 0).startSegIdx = (p.way lines set 0).endSegIdx + 1 →
    (p.way lines set 0).endSegIdx < p.maxSegIdx → segNo ≤ (p.way lines set 0).startSegIdx)

/-- A line behind the set sees the segments in front of the owner of the last segment. -/
theorem Owner.reclaims_iff (hm : Owner p lines set free v m) (h : p.Layout lines set free)
    (hdead : (p.way lines set v).startSegIdx = p.maxSegIdx + 1) :
    p.Reclaims lines set segNo v ↔ segNo ≤ (p.way lines set m).startSegIdx := by
  have hmlt := hm.lt
  have hmle := hm.start_le
  have hmend := hm.end_eq
  have hzero := h.end_eq_max (Nat.zero_le m) hm.lt hm.end_eq
  constructor
  · intro hrec
    exact hrec.1 hdead m hm.lt (by omega) hm.end_eq
  · intro hle
    refine ⟨fun _ w hw hstart hend => ?_, fun _ hlt => by omega⟩
    rcases Nat.lt_trichotomy w m with hwm | rfl | hwm
    · have := hm.start_of_lt h hwm
      omega
    · exact hle
    · have := hm.end_of_lt h hwm hw
      omega

/-- Without a choice at the first line, the loop does not get past it. -/
theorem evictLoop_of_not_canChoose (hv : v < p.tagAssocNo) (hcan : ¬ p.CanChoose v v)
    (hshort : getAvailSpace (p.way lines set v) < segNo) :
    p.evictLoop lines segNo fuel (p.startEviction lines (set * p.tagAssocNo + v)) = none := by
  have hv0 : v ≠ 0 := fun h => hcan (Or.inr (Or.inl h))
  have havail : ¬ segNo ≤ (p.startEviction lines (set * p.tagAssocNo + v)).availSegNo := by
    simp only [startEviction, tailSpace, getWayIdx_way hv, hv0, false_and, if_false]
    change ¬ segNo ≤ getAvailSpace (p.way lines set v) + 0
    omega
  have hsel : p.selectEvictLineIdx lines (p.getNeighborIdx (set * p.tagAssocNo + v)).1
      (p.getNeighborIdx (set * p.tagAssocNo + v)).2 = none :=
    selectEvictLineIdx_of_not_canChoose hv (Nat.le_refl v) hcan
  cases fuel with
  | zero => rw [evictLoop, if_neg havail]
  | succ fuel =>
    rw [evictLoop, if_neg havail]
    change (p.selectEvictLineIdx lines (p.getNeighborIdx (set * p.tagAssocNo + v)).1
      (p.getNeighborIdx (set * p.tagAssocNo + v)).2 >>= _) = none
    rw [hsel]
    rfl

/-- The loop that ends has counted enough segments, so the set has them. -/
theorem reclaims_of_evictLoop (hlayout : p.Layout lines set free) (hv : v < p.tagAssocNo)
    (hsegs : segNo ≤ p.maxSegIdx + 1) {e : Eviction}
    (hloop : p.evictLoop lines segNo fuel (p.startEviction lines (set * p.tagAssocNo + v)) = some e) :
    p.Reclaims lines set segNo v := by
  have hroom := hlayout.room_of_single hsegs hv
  by_cases hdead : (p.way lines set v).startSegIdx = p.maxSegIdx + 1
  · obtain ⟨m, hm⟩ := hlayout.exists_owner hv hdead
    obtain ⟨a, lo, h, hle⟩ := (countedDead_invariant hlayout hm).of_evictLoop
      (countedDead_start hlayout hm) hroom hloop
    rw [h.avail_eq] at hle
    exact (hm.reclaims_iff hlayout hdead).2 (by omega)
  · have hstart := hlayout.start_le v hv
    have hend := hlayout.end_le v hv
    obtain ⟨a, lo, h, hle⟩ := (counted_invariant hlayout (by omega)).of_evictLoop
      (counted_start hv hlayout) hroom hloop
    refine ⟨fun h' => absurd h' hdead, fun hempty hlt => ?_⟩
    -- no way is free, since way 0 does not end with the set
    have hfree : free ≤ 0 := by
      by_contra hpos
      have := (hlayout.free_eq 0 (by omega)).2.2
      omega
    have hlo := h.visited.lo_le
    have hanti := hlayout.behind_anti hfree (Nat.zero_le lo)
    rw [behind_of_lt (by omega), behind_of_lt (by omega)] at hanti
    rw [h.avail_eq, reach] at hle
    split_ifs at hle with hzero
    · obtain ⟨rfl, hzero⟩ := hzero
      omega
    · omega

/-- The loop ends when the policy can choose and the set has the segments. -/
theorem evictLoop_isSome (hlayout : p.Layout lines set free) (hv : v < p.tagAssocNo)
    (hsegs : segNo ≤ p.maxSegIdx + 1) (hcan : p.CanChoose v v) (hrec : p.Reclaims lines set segNo v)
    (hfuel : p.tagAssocNo ≤ fuel + 1) :
    ∃ e, p.evictLoop lines segNo fuel (p.startEviction lines (set * p.tagAssocNo + v)) = some e := by
  have htop := hlayout.start_last (by omega) hlayout.free_le
  by_cases hdead : (p.way lines set v).startSegIdx = p.maxSegIdx + 1
  · obtain ⟨m, hm⟩ := hlayout.exists_owner hv hdead
    refine (countedDead_invariant hlayout hm).evictLoop_isSome (countedDead_start hlayout hm) hcan
      (fun e h => ?_) (by omega)
    rw [h.avail_eq, htop]
    exact (hm.reclaims_iff hlayout hdead).1 hrec
  · have hstart := hlayout.start_le v hv
    have hend := hlayout.end_le v hv
    refine (counted_invariant hlayout (by omega)).evictLoop_isSome (counted_start hv hlayout) hcan
      (fun e h => ?_) (by omega)
    have hzero := hlayout.start_le 0 (by omega)
    have hzeroEnd := hlayout.end_le 0 (by omega)
    rw [h.avail_eq, htop, reach]
    split_ifs with hlive
    · exact hsegs
    · by_cases hlt : (p.way lines set 0).endSegIdx < p.maxSegIdx
      · have := hrec.2 (by omega) hlt
        omega
      · omega

/-- **When the eviction ends.** -/
theorem doMultiLineEviction_isSome_iff (hlayout : p.Layout lines set free) (hv : v < p.tagAssocNo)
    (hsegs : segNo ≤ p.maxSegIdx + 1) (hshort : getAvailSpace (p.way lines set v) < segNo)
    (hlines : p.tagAssocNo ≤ p.allocatedLines) :
    (∃ r, p.doMultiLineEviction lines (set * p.tagAssocNo + v) segNo = some r) ↔
      p.CanChoose v v ∧ p.Reclaims lines set segNo v := by
  unfold doMultiLineEviction
  constructor
  · rintro ⟨r, hr⟩
    obtain ⟨e, hloop, -⟩ := Option.map_eq_some_iff.1 hr
    refine ⟨?_, reclaims_of_evictLoop hlayout hv hsegs hloop⟩
    by_contra hcan
    rw [evictLoop_of_not_canChoose hv hcan hshort] at hloop
    exact absurd hloop nofun
  · rintro ⟨hcan, hrec⟩
    obtain ⟨e, he⟩ := evictLoop_isSome hlayout hv hsegs hcan hrec (Nat.le_succ_of_le hlines)
    exact ⟨_, by rw [he]; rfl⟩

/-- **The run of ways that an eviction returns** has room for the new line. -/
theorem doMultiLineEviction_room (hlayout : p.Layout lines set free) (hv : v < p.tagAssocNo)
    (hsegs : segNo ≤ p.maxSegIdx + 1) (hpos : 0 < segNo) {r : ℕ × List ℕ}
    (h : p.doMultiLineEviction lines (set * p.tagAssocNo + v) segNo = some r) :
    ∃ a k, v ≤ a ∧ a < p.tagAssocNo ∧ k ≤ a ∧ r.1 = set * p.tagAssocNo + a ∧
      r.2 = linesBelow r.1 k ∧ (p.way lines set a).startSegIdx + segNo ≤
        (if a - k = 0 then p.maxSegIdx else (p.way lines set (a - k)).endSegIdx) + 1 := by
  obtain ⟨e, hloop, rfl⟩ := Option.map_eq_some_iff.1 h
  have hroom := hlayout.room_of_single hsegs hv
  have hrun : p.Contiguous set v (p.startEviction lines (set * p.tagAssocNo + v)) :=
    ⟨v, 0, Nat.le_refl _, hv, Nat.zero_le _, rfl, rfl, rfl⟩
  obtain ⟨a, k, hva, ha, hka, hmax, hmin, hlist⟩ := evictLoop_spec hrun hroom hloop
  refine ⟨a, k, hva, ha, hka, hmax, ?_, ?_⟩
  · dsimp only
    rw [hlist, List.erase_cons_head]
  have hlow := hlayout.end_le (a - k) (by omega)
  by_cases hdead : (p.way lines set v).startSegIdx = p.maxSegIdx + 1
  · obtain ⟨m, hm⟩ := hlayout.exists_owner hv hdead
    obtain ⟨a', lo, h, hle⟩ := (countedDead_invariant hlayout hm).of_evictLoop
      (countedDead_start hlayout hm) hroom hloop
    have hmaxEq := h.visited.max_eq
    have hminEq := h.visited.min_eq
    have hlov := h.visited.lo_le
    have hmv := hm.above
    have hmle := hm.start_le
    obtain rfl : a = a' := by omega
    obtain rfl : a - k = lo := by omega
    rw [hlayout.end_eq_max (show a - k ≤ m by omega) hm.lt hm.end_eq, ite_self]
    rw [h.avail_eq] at hle
    omega
  · have hstart := hlayout.start_le v hv
    have hend := hlayout.end_le v hv
    obtain ⟨a', lo, h, hle⟩ := (counted_invariant hlayout (by omega)).of_evictLoop
      (counted_start hv hlayout) hroom hloop
    have hmaxEq := h.visited.max_eq
    have hminEq := h.visited.min_eq
    obtain rfl : a = a' := by omega
    obtain rfl : a - k = lo := by omega
    rw [h.avail_eq, reach] at hle
    split_ifs at hle ⊢ <;> omega

end TagParams

end CompressionWork.Cache
