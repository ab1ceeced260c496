import CompressionWork.Cache.Completion

/-!
# Room that a fill does not see

A set may have room for a line in one way and the free ways next to it, and `probe` may still
evict live lines: a live way with room is noted only when it is older than the ways noted before
it, whether they had room or not, and the eviction takes the neighbour that was used least
recently, whether it is free or not.

* `HasRoom` — some way and its free neighbours have room.
* `Takes`, `Spares` — the search takes such a way, and no other live line goes.
* `Joined` — the ways that join the eviction, each time the one used least recently.
* `RoomSeen` — the state of a set from which the search sees room.
* `spares_iff` — one search; `run_spares_iff` — in every state reached.
-/

namespace CompressionWork.Cache

namespace TagParams

variable (p : TagParams)

/-! ## What is asked for -/

/-- The segments from the start of way `m` to the end of way `lo`, or to the end of the set. -/
def roomOf (lines : Lines) (set lo m : ℕ) : ℕ :=
  (if lo = 0 then p.maxSegIdx else (p.way lines set lo).endSegIdx) + 1 -
    (p.way lines set m).startSegIdx

/-- A way that is not reserved has room together with the free ways next to it. -/
def HasRoom (lines : Lines) (set segNo : ℕ) : Prop :=
  ∃ lo w m, lo ≤ w ∧ w ≤ m ∧ m < p.tagAssocNo ∧ (p.way lines set w).status ≠ .reserved ∧
    (∀ j, lo ≤ j → j ≤ m → j ≠ w → (p.way lines set j).status = .invalid) ∧
    segNo ≤ p.roomOf lines set lo m

/-- The search for a line takes way `a` and the `k` ways below it: way `a` is not reserved, the
others are free, and together they have room.  The fill goes through, unless the line has no segments,
and every live line of another way stays. -/
structure Takes (t : TagArray) (addr : NewAddrType) (size set a k : ℕ) : Prop where
  lt : a < p.tagAssocNo
  le : k ≤ a
  miss : p.probe t.lines addr (p.segNo size) =
    some (.miss (set * p.tagAssocNo + a) (linesBelow (set * p.tagAssocNo + a) k))
  replaceable : (p.way t.lines set a).status ≠ .reserved
  free : ∀ w, a - k ≤ w → w < a → (p.way t.lines set w).status = .invalid
  room : p.segNo size ≤ p.roomOf t.lines set (a - k) a
  ends : 0 < p.segNo size → ∀ time compressed, ∃ t', p.fillAddr t addr time size compressed = some t'
  keeps : ∀ time compressed t', p.fillAddr t addr time size compressed = some t' →
    ∀ w < p.tagAssocNo, w ≠ a → (p.way t.lines set w).status ≠ .invalid →
      ∃ w' < p.tagAssocNo, w' ≠ a ∧ (p.way t'.lines set w').tag = (p.way t.lines set w).tag ∧
        (p.way t'.lines set w').status = (p.way t.lines set w).status

/-- A fill that evicts no live line but that of the way that the search takes. -/
structure Spares (t : TagArray) (addr : NewAddrType) (size set : ℕ) : Prop where
  inArray : ∀ w < p.tagAssocNo, set * p.tagAssocNo + w < p.allocatedLines
  takes : ∃ a k, p.Takes t addr size set a k

/-! ## What the search sees -/

/-- The ways from `lo` to `m` are the first to join an eviction that starts at `v`: of the two
neighbours the one that was used least recently joins.  FIFO has no choice between two. -/
inductive Joined (lines : Lines) (set v : ℕ) : ℕ → ℕ → Prop
  | start : Joined lines set v v v
  | up {lo m : ℕ} : Joined lines set v lo m → m + 1 < p.tagAssocNo →
      (lo = 0 ∨ p.config.replacementPolicy = .lru ∧
        (p.way lines set (m + 1)).lastAccessTime < (p.way lines set (lo - 1)).lastAccessTime) →
      Joined lines set v lo (m + 1)
  | down {lo m : ℕ} : Joined lines set v (lo + 1) m →
      (m + 1 = p.tagAssocNo ∨ p.config.replacementPolicy = .lru ∧
        ¬ (p.way lines set (m + 1)).lastAccessTime < (p.way lines set lo).lastAccessTime) →
      Joined lines set v lo m

/-- The way that an eviction starts from: the highest free way, or the highest due way of a set
that has no free one. -/
def Starts (lines : Lines) (set v : ℕ) : Prop :=
  v < p.tagAssocNo ∧
    (((p.way lines set v).status = .invalid ∧
        ∀ w < p.tagAssocNo, v < w → (p.way lines set w).status ≠ .invalid) ∨
      ((∀ w < p.tagAssocNo, (p.way lines set w).status ≠ .invalid) ∧ p.Due lines set v ∧
        ∀ w < p.tagAssocNo, v < w → ¬ p.Due lines set w))

/-- The search sees room: a free way has it, or a due way has it, or the ways that join the
eviction come to have it while all of them but the top one are free. -/
structure RoomSeen (lines : Lines) (set segNo : ℕ) : Prop where
  inArray : set * p.tagAssocNo + p.tagAssocNo ≤ p.allocatedLines
  seen : (∃ w < p.tagAssocNo, InvalidFit segNo (p.way lines set w)) ∨
    (∃ w < p.tagAssocNo, p.Due lines set w ∧ segNo ≤ getAvailSpace (p.way lines set w)) ∨
    ∃ v lo m, p.Starts lines set v ∧ (p.way lines set v).startSegIdx ≤ p.maxSegIdx ∧
      p.Joined lines set v lo m ∧
      (∀ w, lo ≤ w → w < m → (p.way lines set w).status = .invalid) ∧
      segNo ≤ p.reach lines set lo - (p.way lines set m).startSegIdx

variable {p} {lines : Lines} {set free segNo a lo v m fuel : ℕ} {addr : NewAddrType}

/-! ## The neighbour that joins -/

theorem Joined.bounds (h : p.Joined lines set v lo m) (hv : v < p.tagAssocNo) :
    lo ≤ v ∧ v ≤ m ∧ m < p.tagAssocNo := by
  induction h with
  | start => exact ⟨Nat.le_refl _, Nat.le_refl _, hv⟩
  | up _ hm _ ih => exact ⟨ih.1, by omega, hm⟩
  | down _ _ ih => exact ⟨by omega, ih.2.1, ih.2.2⟩

/-- The neighbour that `select_evict_line_idx` returns. -/
theorem select_joins (hassoc : 2 ≤ p.tagAssocNo) (hm : m < p.tagAssocNo) (hlo : lo ≤ m)
    {line : ℕ} (h : p.selectEvictLineIdx lines (p.getNeighborIdx (set * p.tagAssocNo + m)).1
      (p.getNeighborIdx (set * p.tagAssocNo + lo)).2 = some line)
    (hjoin : p.Joined lines set v lo m) :
    (m + 1 < p.tagAssocNo ∧ line = set * p.tagAssocNo + (m + 1) ∧
        p.Joined lines set v lo (m + 1)) ∨
      ∃ lo', lo = lo' + 1 ∧ line = set * p.tagAssocNo + lo' ∧ p.Joined lines set v lo' m := by
  rw [getNeighborIdx_fst hassoc hm, getNeighborIdx_snd hassoc (by omega)] at h
  cases lo with
  | zero =>
      rw [if_neg (Nat.lt_irrefl 0)] at h
      split_ifs at h with htop
      · exact Or.inl ⟨htop, (Option.some.inj h).symm, hjoin.up htop (Or.inl rfl)⟩
      · exact absurd h nofun
  | succ lo =>
      rw [if_pos (Nat.succ_pos lo), Nat.add_sub_cancel] at h
      split_ifs at h with htop
      · simp only [selectEvictLineIdx] at h
        split_ifs at h with hlru hage
        · exact Or.inl ⟨htop, (Option.some.inj h).symm, hjoin.up htop (Or.inr ⟨hlru, hage⟩)⟩
        · exact Or.inr ⟨lo, rfl, (Option.some.inj h).symm, hjoin.down (Or.inr ⟨hlru, hage⟩)⟩
      · exact Or.inr ⟨lo, rfl, (Option.some.inj h).symm, hjoin.down (Or.inl (by omega))⟩

theorem select_up (hassoc : 2 ≤ p.tagAssocNo) (hm : m + 1 < p.tagAssocNo) (hlo : lo ≤ m)
    (hage : lo = 0 ∨ p.config.replacementPolicy = .lru ∧
      (p.way lines set (m + 1)).lastAccessTime < (p.way lines set (lo - 1)).lastAccessTime) :
    p.selectEvictLineIdx lines (p.getNeighborIdx (set * p.tagAssocNo + m)).1
      (p.getNeighborIdx (set * p.tagAssocNo + lo)).2 = some (set * p.tagAssocNo + (m + 1)) := by
  rw [getNeighborIdx_fst hassoc (by omega), getNeighborIdx_snd hassoc (by omega), if_pos hm]
  split_ifs with hbot
  · obtain ⟨hlru, hlt⟩ := hage.resolve_left (by omega)
    simp only [selectEvictLineIdx, if_pos hlru]
    exact if_pos hlt
  · rfl

theorem select_down (hassoc : 2 ≤ p.tagAssocNo) (hm : m < p.tagAssocNo) (hlo : lo + 1 ≤ m)
    (hage : m + 1 = p.tagAssocNo ∨ p.config.replacementPolicy = .lru ∧
      ¬ (p.way lines set (m + 1)).lastAccessTime < (p.way lines set lo).lastAccessTime) :
    p.selectEvictLineIdx lines (p.getNeighborIdx (set * p.tagAssocNo + m)).1
      (p.getNeighborIdx (set * p.tagAssocNo + (lo + 1))).2 = some (set * p.tagAssocNo + lo) := by
  rw [getNeighborIdx_fst hassoc hm, getNeighborIdx_snd hassoc (by omega),
    if_pos (Nat.succ_pos lo), Nat.add_sub_cancel]
  split_ifs with htop
  · obtain ⟨hlru, hlt⟩ := hage.resolve_left (by omega)
    simp only [selectEvictLineIdx, if_pos hlru]
    exact if_neg hlt
  · rfl

/-! ## The loop -/

theorem evictLoop_done {e : Eviction} (hdone : segNo ≤ e.availSegNo) :
    p.evictLoop lines segNo fuel e = some e := by
  cases fuel with
  | zero => rw [evictLoop, if_pos hdone]
  | succ fuel => rw [evictLoop, if_pos hdone]

theorem evictLoop_round {e : Eviction} (hmore : ¬ segNo ≤ e.availSegNo) {line : ℕ}
    (hsel : p.selectEvictLineIdx lines (p.getNeighborIdx e.maxIdx).1 (p.getNeighborIdx e.minIdx).2 =
      some line) :
    p.evictLoop lines segNo (fuel + 1) e =
      p.evictLoop lines segNo fuel (p.addEvictLine lines e line) := by
  rw [evictLoop, if_neg hmore]
  simp only [hsel, Option.bind_eq_bind, Option.bind_some]

/-- **The ways that the loop takes** are those that join. -/
theorem joined_of_evictLoop (hlayout : p.Layout lines set free)
    (hv : (p.way lines set v).startSegIdx ≤ p.maxSegIdx) {e e' : Eviction}
    (h : Counted p lines set v m lo e) (hjoin : p.Joined lines set v lo m)
    (hroom : 2 ≤ p.tagAssocNo ∨ segNo ≤ e.availSegNo)
    (hloop : p.evictLoop lines segNo fuel e = some e') :
    ∃ lo' m', Counted p lines set v m' lo' e' ∧ p.Joined lines set v lo' m' ∧
      segNo ≤ e'.availSegNo := by
  induction fuel generalizing m lo e with
  | zero =>
    unfold evictLoop at hloop
    split_ifs at hloop with hdone
    obtain rfl := Option.some.inj hloop
    exact ⟨lo, m, h, hjoin, hdone⟩
  | succ fuel ih =>
    unfold evictLoop at hloop
    split_ifs at hloop with hdone
    · obtain rfl := Option.some.inj hloop
      exact ⟨lo, m, h, hjoin, hdone⟩
    · have hassoc := hroom.resolve_right hdone
      simp only [Option.bind_eq_bind, Option.bind_eq_some_iff] at hloop
      obtain ⟨line, hsel, hrest⟩ := hloop
      rw [h.visited.max_eq, h.visited.min_eq] at hsel
      have hlo := Nat.le_trans h.visited.lo_le h.visited.le
      rcases select_joins hassoc h.visited.lt hlo hsel hjoin with ⟨htop, rfl, hnext⟩ |
        ⟨lo', rfl, rfl, hnext⟩
      · exact ih (counted_up hlayout hv h htop) hnext (Or.inl hassoc) hrest
      · exact ih (counted_down hlayout h) hnext (Or.inl hassoc) hrest

/-- The loop takes all ways that join, unless fewer of them have room. -/
theorem evictLoop_joined (segNo : ℕ) (hlayout : p.Layout lines set free)
    (hv : v < p.tagAssocNo)
    (hstart : (p.way lines set v).startSegIdx ≤ p.maxSegIdx) (h : p.Joined lines set v lo m) :
    (∃ e, Counted p lines set v m lo e ∧ ∀ fuel, p.evictLoop lines segNo (fuel + (m - lo))
        (p.startEviction lines (set * p.tagAssocNo + v)) = p.evictLoop lines segNo fuel e) ∨
      ∃ lo' m' e, lo ≤ lo' ∧ m' ≤ m ∧ Counted p lines set v m' lo' e ∧ segNo ≤ e.availSegNo ∧
        ∀ fuel, p.evictLoop lines segNo (fuel + (m - lo))
          (p.startEviction lines (set * p.tagAssocNo + v)) = some e := by
  induction h with
  | start =>
      refine Or.inl ⟨_, counted_start hv hlayout, fun fuel => ?_⟩
      rw [Nat.sub_self, Nat.add_zero]
  | @up lo m hjoin hm hage ih =>
      obtain ⟨hlo, hle, -⟩ := hjoin.bounds hv
      have hfuel : ∀ fuel, fuel + (m + 1 - lo) = fuel + 1 + (m - lo) := fun fuel => by omega
      rcases ih with ⟨e, he, hloop⟩ | ⟨lo', m', e, hlo', hm', he, hdone, hloop⟩
      · by_cases hdone : segNo ≤ e.availSegNo
        · refine Or.inr ⟨lo, m, e, Nat.le_refl _, m.le_succ, he, hdone, fun fuel => ?_⟩
          rw [hfuel, hloop, evictLoop_done hdone]
        · have hsel := select_up (by omega) hm (Nat.le_trans hlo hle) hage
          rw [← he.visited.max_eq, ← he.visited.min_eq] at hsel
          refine Or.inl ⟨_, counted_up hlayout hstart he hm, fun fuel => ?_⟩
          rw [hfuel, hloop, evictLoop_round hdone hsel]
      · refine Or.inr ⟨lo', m', e, hlo', Nat.le_succ_of_le hm', he, hdone, fun fuel => ?_⟩
        rw [hfuel, hloop]
  | @down lo m hjoin hage ih =>
      obtain ⟨hlo, hle, hm⟩ := hjoin.bounds hv
      have hfuel : ∀ fuel, fuel + (m - lo) = fuel + 1 + (m - (lo + 1)) := fun fuel => by omega
      rcases ih with ⟨e, he, hloop⟩ | ⟨lo', m', e, hlo', hm', he, hdone, hloop⟩
      · by_cases hdone : segNo ≤ e.availSegNo
        · refine Or.inr ⟨lo + 1, m, e, lo.le_succ, Nat.le_refl _, he, hdone, fun fuel => ?_⟩
          rw [hfuel, hloop, evictLoop_done hdone]
        · have hsel := select_down (by omega) hm (Nat.le_trans hlo hle) hage
          rw [← he.visited.max_eq, ← he.visited.min_eq] at hsel
          refine Or.inl ⟨_, counted_down hlayout he, fun fuel => ?_⟩
          rw [hfuel, hloop, evictLoop_round hdone hsel]
      · refine Or.inr ⟨lo', m', e, by omega, hm', he, hdone, fun fuel => ?_⟩
        rw [hfuel, hloop]

/-- The run of ways that the loop has counted is what the eviction returns. -/
theorem doMultiLineEviction_of_evictLoop (hlayout : p.Layout lines set free)
    (hv : v < p.tagAssocNo) (hsegs : segNo ≤ p.maxSegIdx + 1) {e : Eviction}
    (hloop : p.evictLoop lines segNo p.allocatedLines
      (p.startEviction lines (set * p.tagAssocNo + v)) = some e)
    (he : Counted p lines set v m lo e) :
    p.doMultiLineEviction lines (set * p.tagAssocNo + v) segNo =
      some (set * p.tagAssocNo + m, linesBelow (set * p.tagAssocNo + m) (m - lo)) := by
  have hrun : p.Contiguous set v (p.startEviction lines (set * p.tagAssocNo + v)) :=
    ⟨v, 0, Nat.le_refl _, hv, Nat.zero_le _, rfl, rfl, rfl⟩
  obtain ⟨a, k, hva, ha, hka, hmax, hmin, hlist⟩ :=
    evictLoop_spec hrun (hlayout.room_of_single hsegs hv) hloop
  have hmaxEq := he.visited.max_eq
  have hminEq := he.visited.min_eq
  obtain rfl : a = m := by omega
  obtain rfl : k = a - lo := by omega
  rw [doMultiLineEviction, hloop, Option.map_some, hlist, List.erase_cons_head, hmax]

/-- Two runs of ways below the same line are equal. -/
theorem linesBelow_inj {idx k k' : ℕ} (h : linesBelow idx k = linesBelow idx k') : k = k' := by
  have hlen := congrArg List.length h
  simpa only [linesBelow, List.length_map, List.length_range] using hlen

/-- **An eviction that takes free ways only**, from a line inside the set. -/
theorem doMultiLineEviction_spares_iff (hlayout : p.Layout lines set free) (hv : v < p.tagAssocNo)
    (hsegs : segNo ≤ p.maxSegIdx + 1) (hlines : p.tagAssocNo ≤ p.allocatedLines)
    (hstart : (p.way lines set v).startSegIdx ≤ p.maxSegIdx) :
    (∃ a k, k ≤ a ∧ p.doMultiLineEviction lines (set * p.tagAssocNo + v) segNo =
        some (set * p.tagAssocNo + a, linesBelow (set * p.tagAssocNo + a) k) ∧
        ∀ w, a - k ≤ w → w < a → (p.way lines set w).status = .invalid) ↔
      ∃ lo m, p.Joined lines set v lo m ∧
        (∀ w, lo ≤ w → w < m → (p.way lines set w).status = .invalid) ∧
        segNo ≤ p.reach lines set lo - (p.way lines set m).startSegIdx := by
  constructor
  · rintro ⟨a, k, hk, hevict, hfree⟩
    obtain ⟨e, hloop, -⟩ := Option.map_eq_some_iff.1 hevict
    obtain ⟨lo, m, he, hjoin, hroom⟩ := joined_of_evictLoop hlayout hstart
      (counted_start hv hlayout) .start (hlayout.room_of_single hsegs hv) hloop
    rw [doMultiLineEviction_of_evictLoop hlayout hv hsegs hloop he] at hevict
    obtain ⟨hidx, hlist⟩ := Prod.mk.inj (Option.some.inj hevict)
    obtain rfl : m = a := Nat.add_left_cancel hidx
    obtain rfl : m - lo = k := linesBelow_inj hlist
    obtain ⟨hlo, hle, -⟩ := hjoin.bounds hv
    refine ⟨lo, m, hjoin, fun w hw => hfree w (by omega), ?_⟩
    rw [← he.avail_eq]
    exact hroom
  · rintro ⟨lo, m, hjoin, hfree, hroom⟩
    obtain ⟨hlo, hle, hm⟩ := hjoin.bounds hv
    -- the loop stops at these ways at the latest
    obtain ⟨lo', m', e, hlo', hm', he, hloop⟩ : ∃ lo' m' e, lo ≤ lo' ∧ m' ≤ m ∧
        Counted p lines set v m' lo' e ∧ p.evictLoop lines segNo p.allocatedLines
          (p.startEviction lines (set * p.tagAssocNo + v)) = some e := by
      have hfuel : p.allocatedLines - (m - lo) + (m - lo) = p.allocatedLines := by omega
      rcases evictLoop_joined segNo hlayout hv hstart hjoin with
        ⟨e, he, hloop⟩ | ⟨lo', m', e, hlo', hm', he, -, hloop⟩
      · refine ⟨lo, m, e, Nat.le_refl _, Nat.le_refl _, he, ?_⟩
        rw [← hfuel, hloop, evictLoop_done (by rw [he.avail_eq]; exact hroom)]
      · refine ⟨lo', m', e, hlo', hm', he, ?_⟩
        rw [← hfuel, hloop]
    have hlov := he.visited.lo_le
    have hvm := he.visited.le
    refine ⟨m', m' - lo', Nat.sub_le _ _,
      doMultiLineEviction_of_evictLoop hlayout hv hsegs hloop he, fun w hw hlt => ?_⟩
    exact hfree w (by omega) (by omega)

/-- An eviction that starts from a line behind the set takes a line that is not free: the one at the
last segment, when the ways above the first are not free. -/
theorem not_spares_of_behind (hlayout : p.Layout lines set free) (hv : v < p.tagAssocNo)
    (hsegs : segNo ≤ p.maxSegIdx + 1) (hpos : 0 < segNo)
    (hstart : (p.way lines set v).startSegIdx = p.maxSegIdx + 1)
    (habove : ∀ w < p.tagAssocNo, v < w → (p.way lines set w).status ≠ .invalid) {k : ℕ}
    (hevict : p.doMultiLineEviction lines (set * p.tagAssocNo + v) segNo =
      some (set * p.tagAssocNo + a, linesBelow (set * p.tagAssocNo + a) k)) :
    ∃ w, a - k ≤ w ∧ w < a ∧ (p.way lines set w).status ≠ .invalid := by
  have hroom := hlayout.room_of_single hsegs hv
  have hrun : p.Contiguous set v (p.startEviction lines (set * p.tagAssocNo + v)) :=
    ⟨v, 0, Nat.le_refl _, hv, Nat.zero_le _, rfl, rfl, rfl⟩
  obtain ⟨e, hloop, he⟩ := Option.map_eq_some_iff.1 hevict
  obtain ⟨hidx, hlist⟩ := Prod.mk.inj he
  obtain ⟨m, hm⟩ := hlayout.exists_owner hv hstart
  obtain ⟨a', lo, h, hle⟩ := (countedDead_invariant hlayout hm).of_evictLoop
    (countedDead_start hlayout hm) hroom hloop
  obtain ⟨a'', k', -, -, -, hmax, hmin, hlist'⟩ := evictLoop_spec hrun hroom hloop
  rw [hlist', List.erase_cons_head, hidx] at hlist
  obtain rfl : k' = k := linesBelow_inj hlist
  have hmaxEq := h.visited.max_eq
  have hminEq := h.visited.min_eq
  have hlov := h.visited.lo_le
  obtain rfl : a' = a := by omega
  rw [h.avail_eq] at hle
  refine ⟨m, ?_, ?_, habove m hm.lt hm.above⟩
  · have := hm.above
    omega
  · -- the ways up to the owner start no earlier
    by_contra hge
    have := hlayout.start_anti (Nat.le_of_not_lt hge) hm.lt
    omega

/-! ## The way that gives way -/

/-- A free way with room goes first, then a due one with room. -/
theorem victim_fit_iff : (∃ v, p.victim lines set segNo = some v ∧
      segNo ≤ getAvailSpace (p.way lines set v)) ↔
    (∃ w < p.tagAssocNo, InvalidFit segNo (p.way lines set w)) ∨
      ∃ w < p.tagAssocNo, p.Due lines set w ∧ segNo ≤ getAvailSpace (p.way lines set w) := by
  unfold victim
  cases hfit : highest (fun w => InvalidFit segNo (p.way lines set w)) p.tagAssocNo with
  | some v =>
      obtain ⟨hv, hkind, -⟩ := highest_eq_some hfit
      exact iff_of_true ⟨v, rfl, hkind.2⟩ (Or.inl ⟨v, hv, hkind⟩)
  | none =>
      have hnone := highest_eq_none_iff.1 hfit
      cases hdue : highest (fun w => p.Due lines set w ∧
          segNo ≤ getAvailSpace (p.way lines set w)) p.tagAssocNo with
      | some v =>
          obtain ⟨hv, hkind, -⟩ := highest_eq_some hdue
          exact iff_of_true ⟨v, rfl, hkind.2⟩ (Or.inr ⟨v, hv, hkind⟩)
      | none =>
          have hnone' := highest_eq_none_iff.1 hdue
          refine iff_of_false ?_ ?_
          · rintro ⟨v, hv, hroom⟩
            rcases Option.or_eq_some_iff.1 hv with hv | ⟨-, hv⟩
            · exact absurd hv nofun
            rcases Option.or_eq_some_iff.1 hv with hv | ⟨-, hv⟩
            · exact absurd hv nofun
            rcases Option.or_eq_some_iff.1 hv with hv | ⟨-, hv⟩
            · exact absurd (highest_eq_some hv).2.1.2 (Nat.not_lt.2 hroom)
            · exact absurd (highest_eq_some hv).2.1.2 (Nat.not_lt.2 hroom)
          · rintro (⟨w, hw, h⟩ | ⟨w, hw, h⟩)
            · exact hnone w hw h
            · exact hnone' w hw h

/-- Without either, the eviction starts. -/
theorem victim_eq_some_iff (hfit : ∀ w < p.tagAssocNo, ¬ InvalidFit segNo (p.way lines set w))
    (hdue : ∀ w < p.tagAssocNo, ¬ (p.Due lines set w ∧
      segNo ≤ getAvailSpace (p.way lines set w))) :
    p.victim lines set segNo = some v ↔ p.Starts lines set v := by
  have hinvalid : ∀ w < p.tagAssocNo, InvalidShort segNo (p.way lines set w) ↔
      (p.way lines set w).status = .invalid := fun w hw =>
    ⟨And.left, fun h => ⟨h, Nat.lt_of_not_le fun hroom => hfit w hw ⟨h, hroom⟩⟩⟩
  have hlive : ∀ w < p.tagAssocNo, (p.Due lines set w ∧
      getAvailSpace (p.way lines set w) < segNo) ↔ p.Due lines set w := fun w hw =>
    ⟨And.left, fun h => ⟨h, Nat.lt_of_not_le fun hroom => hdue w hw ⟨h, hroom⟩⟩⟩
  rw [victim, highest_eq_none_iff.2 hfit, highest_eq_none_iff.2 hdue, Option.none_or,
    Option.none_or, Option.or_eq_some_iff, highest_eq_some_iff, highest_eq_none_iff,
    highest_eq_some_iff, Starts]
  constructor
  · rintro (⟨hv, hst, habove⟩ | ⟨hnone, hv, hst, habove⟩)
    · exact ⟨hv, Or.inl ⟨hst.1, fun w hw hlt => mt (hinvalid w hw).2 (habove w hw hlt)⟩⟩
    · exact ⟨hv, Or.inr ⟨fun w hw => mt (hinvalid w hw).2 (hnone w hw), hst.1,
        fun w hw hlt => mt (hlive w hw).2 (habove w hw hlt)⟩⟩
  · rintro ⟨hv, ⟨hst, habove⟩ | ⟨hnone, hst, habove⟩⟩
    · exact Or.inl ⟨hv, (hinvalid v hv).2 hst, fun w hw hlt => mt (hinvalid w hw).1 (habove w hw hlt)⟩
    · exact Or.inr ⟨fun w hw => mt (hinvalid w hw).1 (hnone w hw), hv, (hlive v hv).2 hst,
        fun w hw hlt => mt (hlive w hw).1 (habove w hw hlt)⟩

theorem victim_iff_of_short (hshort : ¬ ∃ v, p.victim lines set segNo = some v ∧
    segNo ≤ getAvailSpace (p.way lines set v)) :
    p.victim lines set segNo = some v ↔ p.Starts lines set v := by
  rw [victim_fit_iff] at hshort
  push Not at hshort
  exact victim_eq_some_iff hshort.1 fun w hw h => absurd h.2 (Nat.not_le.2 (hshort.2 w hw h.1))

/-! ## The lines that stay -/

/-- A fill moves the live lines that it does not evict. -/
theorem fillSegments_keeps {lines' : Lines} {time : UInt32} {compressed k : ℕ}
    (hlayout : p.Layout lines set free) (ha : a < p.tagAssocNo) (hk : k ≤ a)
    (h : p.fillSegments lines (set * p.tagAssocNo + a) (linesBelow (set * p.tagAssocNo + a) k) addr
      time segNo compressed = some lines') {w : ℕ} (hw : w < p.tagAssocNo)
    (hout : w < a - k ∨ a < w) :
    ∃ w' < p.tagAssocNo, w' ≠ a ∧ (p.way lines' set w').tag = (p.way lines set w).tag ∧
      (p.way lines' set w').status = (p.way lines set w).status := by
  obtain ⟨endSegIdx, hnew, hlines'⟩ := fillSegments_eq hlayout ha hk h
  have hplaced : Placed p lines (Function.update lines (set * p.tagAssocNo + a)
      ((p.way lines set a).allocate (p.config.tag addr) (p.config.blockAddr addr) time
        (p.way lines set a).startSegIdx endSegIdx compressed)) set a endSegIdx := placed_update _
  by_cases hk0 : k = 0
  · subst hk0
    rw [if_pos rfl] at hlines'
    obtain ⟨t, ht, hsame, hin⟩ := compact_placed hlayout ha hnew hplaced
    obtain rfl : t = lines' := Option.some.inj (ht.symm.trans hlines')
    refine ⟨w, hw, by omega, ?_⟩
    rcases hout with hlt | hlt
    · rw [(hin w (by omega)).1]
      exact ⟨rfl, rfl⟩
    · have hway : p.way t set w = p.way lines set w :=
        (hsame _ (by omega)).trans (hplaced.way_of_ne (by omega))
      rw [hway]
      exact ⟨rfl, rfl⟩
  · rw [if_neg hk0] at hlines'
    obtain ⟨hsame, hpush, -⟩ := shift_placed hlayout ha hk hnew hplaced
      (Option.some.inj hlines').symm
    rcases hout with hlt | hlt
    · refine ⟨w + k, by omega, by omega, ?_⟩
      rw [hpush (w + k) (by omega) (by omega), Nat.add_sub_cancel]
      exact ⟨rfl, rfl⟩
    · have hway : p.way lines' set w = p.way lines set w :=
        (hsame _ (by omega)).trans (hplaced.way_of_ne (by omega))
      refine ⟨w, hw, by omega, ?_⟩
      rw [hway]
      exact ⟨rfl, rfl⟩

/-! ## One search -/

variable {t : TagArray} {size k : ℕ}

/-- A search that ends with room takes its ways. -/
theorem takes_of_miss (hcomp : p.isCompressed = true) (hfill : p.config.allocPolicy = .onFill)
    (hset : p.config.setIndex addr = some set) (hlayout : p.Layout t.lines set free)
    (hnone : ∀ w < p.tagAssocNo, (p.way t.lines set w).status ≠ .reserved)
    (hsegs : p.segNo size ≤ p.maxSegIdx + 1) (ha : a < p.tagAssocNo) (hk : k ≤ a)
    (hmiss : p.probe t.lines addr (p.segNo size) =
      some (.miss (set * p.tagAssocNo + a) (linesBelow (set * p.tagAssocNo + a) k)))
    (hfree : ∀ w, a - k ≤ w → w < a → (p.way t.lines set w).status = .invalid)
    (hroom : p.segNo size ≤ p.roomOf t.lines set (a - k) a) :
    p.Takes t addr size set a k := by
  refine ⟨ha, hk, hmiss, hnone a ha, hfree, hroom, fun hpos time compressed => ?_,
    fun time compressed t' ht' w hw hwa hlive => ?_⟩
  · obtain ⟨⟨a', k', -, -, hfree', hidx, -⟩, -⟩ := probe_miss hcomp hset hlayout hsegs hmiss
    obtain rfl : a = a' := by omega
    unfold roomOf at hroom
    exact fillAddr_isSome hcomp hfill hlayout ha hk hfree' hmiss (by omega) (by omega)
  · obtain ⟨idx, evictIdx, lines₁, block, hprobe, hsegments, -, hlines⟩ := fillAddr_eq hcomp ht'
    rw [hmiss] at hprobe
    obtain ⟨rfl, rfl⟩ := ProbeResult.miss.inj (Option.some.inj hprobe)
    obtain ⟨w', hw', hne, htag, hst⟩ := fillSegments_keeps hlayout ha hk hsegments hw (by
      by_contra hin
      exact hlive (hfree w (by omega) (by omega)))
    have hway : p.way t'.lines set w' = p.way lines₁ set w' := by
      unfold way
      rw [hlines]
      exact Function.update_of_ne (by omega) ..
    rw [← hway] at htag hst
    exact ⟨w', hw', hne, htag, hst⟩

/-- The way that the search finds with room is taken alone. -/
theorem takes_of_fit (hcomp : p.isCompressed = true) (hfill : p.config.allocPolicy = .onFill)
    (hset : p.config.setIndex addr = some set) (hlayout : p.Layout t.lines set free)
    (hnone : ∀ w < p.tagAssocNo, (p.way t.lines set w).status ≠ .reserved)
    (habsent : ∀ w < p.tagAssocNo, (p.way t.lines set w).tag = p.config.tag addr →
      (p.way t.lines set w).status = .invalid)
    (hsegs : p.segNo size ≤ p.maxSegIdx + 1) (hv : p.victim t.lines set (p.segNo size) = some v)
    (hfit : p.segNo size ≤ getAvailSpace (p.way t.lines set v)) : p.Takes t addr size set v 0 := by
  have hprobe : p.probe t.lines addr (p.segNo size) = _ := probe_eq hcomp hfill hset hnone habsent
  obtain ⟨hvlt, -⟩ := victim_spec hv
  have hend := hlayout.end_le v hvlt
  refine takes_of_miss hcomp hfill hset hlayout hnone hsegs hvlt (Nat.zero_le _) ?_
    (fun w hw hlt => by omega) ?_
  · rw [hprobe, hv, Option.bind_some, if_pos hfit]
    rfl
  · rw [getAvailSpace_eq] at hfit
    rw [Nat.sub_zero, roomOf]
    split_ifs <;> omega

/-- Without such a way, the ways that join the eviction are taken, when only the top one is in use. -/
theorem takes_of_joined (hcomp : p.isCompressed = true) (hfill : p.config.allocPolicy = .onFill)
    (hset : p.config.setIndex addr = some set) (hlayout : p.Layout t.lines set free)
    (hnone : ∀ w < p.tagAssocNo, (p.way t.lines set w).status ≠ .reserved)
    (habsent : ∀ w < p.tagAssocNo, (p.way t.lines set w).tag = p.config.tag addr →
      (p.way t.lines set w).status = .invalid)
    (hsegs : p.segNo size ≤ p.maxSegIdx + 1) (hlines : p.tagAssocNo ≤ p.allocatedLines)
    (hshort : ¬ ∃ v, p.victim t.lines set (p.segNo size) = some v ∧
      p.segNo size ≤ getAvailSpace (p.way t.lines set v))
    (hstarts : p.Starts t.lines set v) (hstart : (p.way t.lines set v).startSegIdx ≤ p.maxSegIdx)
    (hjoined : p.Joined t.lines set v lo m)
    (hfree : ∀ w, lo ≤ w → w < m → (p.way t.lines set w).status = .invalid)
    (hroom : p.segNo size ≤ p.reach t.lines set lo - (p.way t.lines set m).startSegIdx) :
    ∃ a k, p.Takes t addr size set a k := by
  have hprobe : p.probe t.lines addr (p.segNo size) = _ := probe_eq hcomp hfill hset hnone habsent
  have hv := (victim_iff_of_short hshort).2 hstarts
  have hvshort : ¬ p.segNo size ≤ getAvailSpace (p.way t.lines set v) := fun h => hshort ⟨v, hv, h⟩
  obtain ⟨a, k, hk, hevict, hfree'⟩ := (doMultiLineEviction_spares_iff hlayout hstarts.1 hsegs
    hlines hstart).2 ⟨lo, m, hjoined, hfree, hroom⟩
  obtain ⟨a', k', -, ha', hk', hidx, hlist, hroom'⟩ :=
    doMultiLineEviction_room hlayout hstarts.1 hsegs (by omega) hevict
  obtain rfl : a = a' := Nat.add_left_cancel hidx
  obtain rfl : k = k' := linesBelow_inj hlist
  refine ⟨a, k, takes_of_miss hcomp hfill hset hlayout hnone hsegs ha' hk ?_ hfree' ?_⟩
  · rw [hprobe, hv, Option.bind_some, if_neg hvshort, hevict]
    rfl
  · unfold roomOf
    omega

/-- Ways that are taken though none had room alone joined the eviction, and it started at a way that
holds segments. -/
theorem Takes.joined (hcomp : p.isCompressed = true) (hfill : p.config.allocPolicy = .onFill)
    (hset : p.config.setIndex addr = some set) (hlayout : p.Layout t.lines set free)
    (hnone : ∀ w < p.tagAssocNo, (p.way t.lines set w).status ≠ .reserved)
    (habsent : ∀ w < p.tagAssocNo, (p.way t.lines set w).tag = p.config.tag addr →
      (p.way t.lines set w).status = .invalid)
    (hsegs : p.segNo size ≤ p.maxSegIdx + 1) (hlines : p.tagAssocNo ≤ p.allocatedLines)
    (hshort : ¬ ∃ v, p.victim t.lines set (p.segNo size) = some v ∧
      p.segNo size ≤ getAvailSpace (p.way t.lines set v)) (h : p.Takes t addr size set a k) :
    ∃ v lo m, p.Starts t.lines set v ∧ (p.way t.lines set v).startSegIdx ≤ p.maxSegIdx ∧
      p.Joined t.lines set v lo m ∧
      (∀ w, lo ≤ w → w < m → (p.way t.lines set w).status = .invalid) ∧
      p.segNo size ≤ p.reach t.lines set lo - (p.way t.lines set m).startSegIdx := by
  have hmiss := h.miss
  rw [probe_eq hcomp hfill hset hnone habsent] at hmiss
  obtain ⟨v, hv, hmiss⟩ := Option.bind_eq_some_iff.1 hmiss
  have hvshort : ¬ p.segNo size ≤ getAvailSpace (p.way t.lines set v) := fun h => hshort ⟨v, hv, h⟩
  rw [if_neg hvshort] at hmiss
  obtain ⟨r, hr, hres⟩ := Option.map_eq_some_iff.1 hmiss
  obtain ⟨hidx, hlist⟩ := ProbeResult.miss.inj hres
  obtain rfl : r = (_, _) := Prod.ext hidx hlist
  have hstarts := (victim_iff_of_short hshort).1 hv
  have hvlt := hstarts.1
  have habove : (p.way t.lines set v).startSegIdx ≤ p.maxSegIdx := by
    by_contra hdead
    have hstart := hlayout.start_le v hvlt
    have hend := hlayout.end_le v hvlt
    -- from a way without segments the eviction takes a live line
    have hlive : ∀ w < p.tagAssocNo, v < w → (p.way t.lines set w).status ≠ .invalid := by
      rcases hstarts.2 with ⟨-, hlive⟩ | ⟨hnofree, -⟩
      · exact hlive
      · exact fun w hw _ => hnofree w hw
    obtain ⟨w, hw, hlt, hin⟩ := not_spares_of_behind hlayout hvlt hsegs (by omega) (by omega) hlive hr
    exact absurd (h.free w hw hlt) hin
  obtain ⟨lo, m, hjoin⟩ := (doMultiLineEviction_spares_iff hlayout hvlt hsegs hlines habove).1
    ⟨a, k, h.le, hr, h.free⟩
  exact ⟨v, lo, m, hstarts, habove, hjoin⟩

/-- **One search.** -/
theorem spares_iff (hcomp : p.isCompressed = true) (hfill : p.config.allocPolicy = .onFill)
    (hset : p.config.setIndex addr = some set) (hlayout : p.Layout t.lines set free)
    (hnone : ∀ w < p.tagAssocNo, (p.way t.lines set w).status ≠ .reserved)
    (habsent : ∀ w < p.tagAssocNo, (p.way t.lines set w).tag = p.config.tag addr →
      (p.way t.lines set w).status = .invalid)
    (hsegs : p.segNo size ≤ p.maxSegIdx + 1) :
    p.Spares t addr size set ↔ p.RoomSeen t.lines set (p.segNo size) := by
  constructor
  · rintro ⟨hin, a, k, htakes⟩
    have hassoc := htakes.lt
    have hlast := hin (p.tagAssocNo - 1) (by omega)
    refine ⟨by omega, ?_⟩
    by_cases hfits : ∃ v, p.victim t.lines set (p.segNo size) = some v ∧
        p.segNo size ≤ getAvailSpace (p.way t.lines set v)
    · exact (victim_fit_iff.1 hfits).imp_right Or.inl
    · exact Or.inr (Or.inr (htakes.joined hcomp hfill hset hlayout hnone habsent hsegs (by omega)
        hfits))
  · rintro ⟨hin, hseen⟩
    refine ⟨fun w hw => by omega, ?_⟩
    by_cases hfits : ∃ v, p.victim t.lines set (p.segNo size) = some v ∧
        p.segNo size ≤ getAvailSpace (p.way t.lines set v)
    · obtain ⟨v, hv, hfit⟩ := hfits
      exact ⟨v, 0, takes_of_fit hcomp hfill hset hlayout hnone habsent hsegs hv hfit⟩
    · have hnot := mt victim_fit_iff.2 hfits
      obtain ⟨v, lo, m, hstarts, hstart, hjoined, hfree, hroom⟩ :=
        (hseen.resolve_left fun h => hnot (Or.inl h)).resolve_left fun h => hnot (Or.inr h)
      exact takes_of_joined hcomp hfill hset hlayout hnone habsent hsegs (by omega) hfits hstarts
        hstart hjoined hfree hroom

/-! ## Runs -/

/-- No way has more room than the set. -/
theorem HasRoom.le (h : p.HasRoom lines set segNo) (hlayout : p.Layout lines set free) :
    segNo ≤ p.maxSegIdx + 1 := by
  obtain ⟨lo, w, m, hlo, hle, hm, -, -, hroom⟩ := h
  have hend := hlayout.end_le lo (by omega)
  unfold roomOf at hroom
  split_ifs at hroom <;> omega

/-- **When a fill sees the room that there is**, in every state reached by fills, accesses, write hits,
invalidations and flushes that clear their sets as wholes. -/
theorem run_spares_iff (hcomp : p.isCompressed = true) (hfill : p.config.allocPolicy = .onFill)
    {ops : List Op} (hsizes : p.SizesOk ops)
    (hflush : ∀ before after, ops = before ++ .flush :: after → ∀ s, p.run before = some s →
      p.FlushOk s) {s : SegmentedRun} (h : p.run ops = some s)
    (hset : p.config.setIndex addr = some set)
    (hnew : ∀ w < p.tagAssocNo, (p.way s.array.lines set w).tag = p.config.tag addr →
      (p.way s.array.lines set w).status = .invalid) (size : ℕ) :
    (p.HasRoom s.array.lines set (p.segNo size) → p.Spares s.array addr size set) ↔
      (p.HasRoom s.array.lines set (p.segNo size) →
        p.RoomSeen s.array.lines set (p.segNo size)) := by
  obtain ⟨⟨free, hlayout⟩, -⟩ := setKept_run hcomp hfill hsizes hflush h set
  refine forall_congr' fun hroom => ?_
  exact spares_iff hcomp hfill hset hlayout (noneReserved_run hcomp hfill hsizes hflush h set) hnew
    (hroom.le hlayout)

/-- Three segments of four are taken, and a line of one segment fits behind them. -/
theorem run_spares_one : ∃ s, (oneLine 2).run [.fill 0x80 1 96 1] = some s ∧
    ((oneLine 2).HasRoom s.array.lines 0 ((oneLine 2).segNo 32) →
      (oneLine 2).Spares s.array 0x100 32 0) := by
  obtain ⟨s, hs⟩ := Option.isSome_iff_exists.1
    (show ((oneLine 2).run [.fill 0x80 1 96 1]).isSome = true by decide +kernel)
  have hstate : ((oneLine 2).run [.fill 0x80 1 96 1]).all (fun s : SegmentedRun => decide
      ((∀ w : ℕ, w < 2 → ((oneLine 2).way s.array.lines 0 w).tag = 0x100 →
        ((oneLine 2).way s.array.lines 0 w).status = .invalid) ∧
      InvalidFit 1 ((oneLine 2).way s.array.lines 0 0))) = true := by decide +kernel
  rw [hs, Option.all_some, decide_eq_true_iff] at hstate
  obtain ⟨hnew, hfit⟩ := hstate
  have hsizes : (oneLine 2).SizesOk [.fill 0x80 1 96 1] := by
    intro addr time size compressed hmem
    simp only [List.mem_cons, Op.fill.injEq, List.not_mem_nil, or_false] at hmem
    obtain ⟨-, -, rfl, -⟩ := hmem
    decide
  have hflush : ∀ before after, [Op.fill 0x80 1 96 1] = before ++ .flush :: after →
      ∀ s, (oneLine 2).run before = some s → (oneLine 2).FlushOk s := by
    intro before after hsplit
    exact absurd (show Op.flush ∈ [Op.fill 0x80 1 96 1] by rw [hsplit]; simp) (by simp)
  have hset : (oneLine 2).config.setIndex 0x100 = some 0 := rfl
  exact ⟨s, hs, (run_spares_iff rfl rfl hsizes hflush hs hset hnew 32).2 fun _ =>
    ⟨by decide, Or.inl ⟨0, by decide, hfit⟩⟩⟩

deriving instance DecidableEq for ProbeResult

/-- **A live line goes although another one alone has room**: the line with room was accessed after
the short one, so the search does not note it. -/
theorem not_run_spares : ¬ ∀ (p : TagParams) (ops : List Op) (s : SegmentedRun) (addr : NewAddrType)
    (size set : ℕ), p.isCompressed = true → p.config.allocPolicy = .onFill → p.SizesOk ops →
    .flush ∉ ops → p.run ops = some s → p.config.setIndex addr = some set →
    (∀ w < p.tagAssocNo, (p.way s.array.lines set w).tag = p.config.tag addr →
      (p.way s.array.lines set w).status = .invalid) → p.segNo size ≤ p.maxSegNo →
    p.HasRoom s.array.lines set (p.segNo size) → p.Spares s.array addr size set := by
  intro h
  have hsizes : (oneLine 2).SizesOk [.fill 0x80 1 96 1, .fill 0x100 2 32 1, .access 0x80 3] := by
    intro addr time size compressed hmem
    simp only [List.mem_cons, Op.fill.injEq, reduceCtorEq, List.not_mem_nil, or_false] at hmem
    rcases hmem with ⟨-, -, rfl, -⟩ | ⟨-, -, rfl, -⟩
    · decide
    · decide
  obtain ⟨s, hs⟩ := Option.isSome_iff_exists.1 (show ((oneLine 2).run
    [.fill 0x80 1 96 1, .fill 0x100 2 32 1, .access 0x80 3]).isSome = true by decide +kernel)
  have hstate : ((oneLine 2).run [.fill 0x80 1 96 1, .fill 0x100 2 32 1, .access 0x80 3]).all
      (fun s : SegmentedRun => decide
      ((∀ w : ℕ, w < 2 → ((oneLine 2).way s.array.lines 0 w).tag = 0x180 →
        ((oneLine 2).way s.array.lines 0 w).status = .invalid) ∧
      ((oneLine 2).way s.array.lines 0 0).status = .valid ∧
      ((oneLine 2).way s.array.lines 0 1).status = .valid ∧
      3 ≤ (oneLine 2).roomOf s.array.lines 0 1 1 ∧
      (oneLine 2).probe s.array.lines 0x180 3 = some (.miss 1 [0]))) = true := by decide +kernel
  rw [hs, Option.all_some, decide_eq_true_iff] at hstate
  obtain ⟨hnew, hbelow, hlive, hroom, hprobe⟩ := hstate
  have hset : (oneLine 2).config.setIndex 0x180 = some 0 := rfl
  obtain ⟨-, a, k, htakes⟩ := h (oneLine 2) _ s 0x180 96 0 rfl rfl hsizes (by simp) hs hset hnew
    (by decide) ⟨1, 1, 1, Nat.le_refl _, Nat.le_refl _, by decide, by simp [hlive],
      fun j hge hle hne => absurd (Nat.le_antisymm hle hge) hne, hroom⟩
  have hmiss : (oneLine 2).probe s.array.lines 0x180 3 = _ := htakes.miss
  obtain ⟨hidx, hlist⟩ := ProbeResult.miss.inj (Option.some.inj (hmiss.symm.trans hprobe))
  have hk := congrArg List.length hlist
  simp only [linesBelow, List.length_map, List.length_range, List.length_singleton] at hk
  have hfree := htakes.free 0 (by omega) (by omega)
  rw [hbelow] at hfree
  exact absurd hfree (by simp)

end TagParams

end CompressionWork.Cache
