import CompressionWork.Cache.Eviction
import CompressionWork.Cache.Occupancy

/-!
# When a compressed fill goes through

* `Completes` — a fill that reaches no assertion and no way outside the set, and the run of ways that it
  takes.
* `FillOk` — the state of the set before the fill from which it does.
* `completes_iff` — in every state reached by fills, accesses, write hits and invalidations, for every
  new line of at most the segments of a set.
* `not_completes` — two sets from which it does not.
-/

namespace CompressionWork.Cache

namespace TagParams

variable (p : TagParams)

/-! ## What is asked for -/

/-- The fill of an address goes through: the ways of its set are lines of the array, the search ends
with neighbouring ways of the set that can be replaced and have room, and no assertion fails. -/
structure Completes (t : TagArray) (addr : NewAddrType) (time : UInt32) (size compressed set : ℕ) :
    Prop where
  inArray : ∀ w < p.tagAssocNo, set * p.tagAssocNo + w < p.allocatedLines
  room : ∃ a k, a < p.tagAssocNo ∧ k ≤ a ∧
    p.probe t.lines addr (p.segNo size) =
      some (.miss (set * p.tagAssocNo + a) (linesBelow (set * p.tagAssocNo + a) k)) ∧
    (∀ w, a - k ≤ w → w ≤ a → (p.way t.lines set w).status ≠ .reserved) ∧
    (p.way t.lines set a).startSegIdx ≤
      (if a - k = 0 then p.maxSegIdx else (p.way t.lines set (a - k)).endSegIdx) ∧
    (p.way t.lines set a).startSegIdx + p.segNo size ≤
      (if a - k = 0 then p.maxSegIdx else (p.way t.lines set (a - k)).endSegIdx) + 1
  ends : ∃ t', p.fillAddr t addr time size compressed = some t'

/-- The victim has a segment and room of its own, or the eviction around it finds room. -/
def GivesWay (lines : Lines) (set segNo v : ℕ) : Prop :=
  if segNo ≤ getAvailSpace (p.way lines set v) then
    (p.way lines set v).startSegIdx ≤ if v = 0 then p.maxSegIdx else (p.way lines set v).endSegIdx
  else p.CanChoose v v ∧ p.Reclaims lines set segNo v

instance (lines : Lines) (set segNo v : ℕ) : Decidable (p.Reclaims lines set segNo v) :=
  instDecidableAnd

instance (lines : Lines) (set segNo v : ℕ) : Decidable (p.GivesWay lines set segNo v) := by
  unfold GivesWay
  infer_instance

/-- The state of a set from which a fill goes through. -/
structure FillOk (lines : Lines) (set segNo : ℕ) : Prop where
  inArray : set * p.tagAssocNo + p.tagAssocNo ≤ p.allocatedLines
  gives : ∃ v, p.victim lines set segNo = some v ∧ p.GivesWay lines set segNo v

variable {p} {lines : Lines} {set free : ℕ} {addr : NewAddrType} {time : UInt32} {size compressed : ℕ}

/-! ## One fill -/

/-- A fill whose search ends with room goes through. -/
theorem fillAddr_isSome (hcomp : p.isCompressed = true) (hfill : p.config.allocPolicy = .onFill)
    {t : TagArray} {a k : ℕ} (hlayout : p.Layout t.lines set free) (ha : a < p.tagAssocNo) (hk : k ≤ a)
    (hfree : free ≤ a + 1)
    (hprobe : p.probe t.lines addr (p.segNo size) =
      some (.miss (set * p.tagAssocNo + a) (linesBelow (set * p.tagAssocNo + a) k)))
    (hle : (p.way t.lines set a).startSegIdx ≤
      if a - k = 0 then p.maxSegIdx else (p.way t.lines set (a - k)).endSegIdx)
    (hroom : (p.way t.lines set a).startSegIdx + p.segNo size ≤
      (if a - k = 0 then p.maxSegIdx else (p.way t.lines set (a - k)).endSegIdx) + 1) :
    ∃ t', p.fillAddr t addr time size compressed = some t' := by
  obtain ⟨hl1d, hen⟩ := isL1D_of_isCompressed hcomp
  obtain ⟨lines', hlines'⟩ : ∃ lines', p.fillSegments t.lines (set * p.tagAssocNo + a)
      (linesBelow (set * p.tagAssocNo + a) k) addr time (p.segNo size) compressed = some lines' :=
    fillSegments_isSome hlayout ha hk hle (by omega)
  obtain ⟨-, -, -, -, hreserved, -⟩ := fillSegments_layout hlayout ha hk hfree hlines'
  have hblock : (lines' (set * p.tagAssocNo + a)).fill time =
      some { lines' (set * p.tagAssocNo + a) with status := .valid, fillTime := time } :=
    if_pos hreserved
  refine ⟨{ t with
    lines := Function.update lines' (set * p.tagAssocNo + a)
      { lines' (set * p.tagAssocNo + a) with status := .valid, fillTime := time } }, ?_⟩
  unfold fillAddr
  rw [if_neg (by simp [hl1d, hen]), hprobe]
  simp [hfill, hlines', fillLine, hblock]

/-- **One fill.** -/
theorem completes_iff_fillOk (hcomp : p.isCompressed = true) (hfill : p.config.allocPolicy = .onFill)
    {t : TagArray} (hset : p.config.setIndex addr = some set) (hlayout : p.Layout t.lines set free)
    (hfree : ∀ w < p.tagAssocNo, (p.way t.lines set w).status ≠ .reserved)
    (habsent : ∀ w < p.tagAssocNo, (p.way t.lines set w).tag = p.config.tag addr →
      (p.way t.lines set w).status = .invalid)
    (hsegs : p.segNo size ≤ p.maxSegIdx + 1) :
    p.Completes t addr time size compressed set ↔ p.FillOk t.lines set (p.segNo size) := by
  have hprobe : p.probe t.lines addr (p.segNo size) = _ := probe_eq hcomp hfill hset hfree habsent
  constructor
  · rintro ⟨hin, ⟨a, k, ha, hk, hmiss, -, hstart, hroom⟩, -⟩
    have hlast := hin (p.tagAssocNo - 1) (by omega)
    refine ⟨by omega, ?_⟩
    rw [hprobe] at hmiss
    obtain ⟨v, hv, hmiss⟩ := Option.bind_eq_some_iff.1 hmiss
    obtain ⟨hvlt, -⟩ := victim_spec hv
    refine ⟨v, hv, ?_⟩
    unfold GivesWay
    by_cases hfit : p.segNo size ≤ getAvailSpace (p.way t.lines set v)
    · -- the line itself has room, so no other one goes
      rw [if_pos hfit] at hmiss ⊢
      obtain ⟨hidx, hlist⟩ := ProbeResult.miss.inj (Option.some.inj hmiss)
      obtain rfl : v = a := by omega
      obtain rfl : k = 0 := by
        have hlen := congrArg List.length hlist
        simp only [linesBelow, List.length_nil, List.length_map, List.length_range] at hlen
        exact hlen.symm
      rw [Nat.sub_zero] at hstart
      exact hstart
    · rw [if_neg hfit] at hmiss ⊢
      obtain ⟨r, hr, -⟩ := Option.map_eq_some_iff.1 hmiss
      exact (doMultiLineEviction_isSome_iff hlayout hvlt hsegs (by omega) (by omega)).1 ⟨r, hr⟩
  · rintro ⟨hin, v, hv, hgives⟩
    obtain ⟨hvlt, -⟩ := victim_spec hv
    -- what the search returns
    obtain ⟨a, k, ha, hk, hmiss, hstart, hroom⟩ : ∃ a k, a < p.tagAssocNo ∧ k ≤ a ∧
        p.probe t.lines addr (p.segNo size) =
          some (.miss (set * p.tagAssocNo + a) (linesBelow (set * p.tagAssocNo + a) k)) ∧
        (p.way t.lines set a).startSegIdx ≤
          (if a - k = 0 then p.maxSegIdx else (p.way t.lines set (a - k)).endSegIdx) ∧
        (p.way t.lines set a).startSegIdx + p.segNo size ≤
          (if a - k = 0 then p.maxSegIdx else (p.way t.lines set (a - k)).endSegIdx) + 1 := by
      rw [hprobe, hv, Option.bind_some]
      unfold GivesWay at hgives
      by_cases hfit : p.segNo size ≤ getAvailSpace (p.way t.lines set v)
      · rw [if_pos hfit] at hgives ⊢
        have hend := hlayout.end_le v hvlt
        have hle := hlayout.start_le v hvlt
        rw [getAvailSpace_eq] at hfit
        refine ⟨v, 0, hvlt, Nat.zero_le _, rfl, hgives, ?_⟩
        rw [Nat.sub_zero]
        split_ifs <;> omega
      · rw [if_neg hfit] at hgives ⊢
        obtain ⟨r, hr⟩ := (doMultiLineEviction_isSome_iff hlayout hvlt hsegs (by omega) (by omega)).2 hgives
        obtain ⟨a, k, -, ha, hk, hidx, hlist, hroom⟩ :=
          doMultiLineEviction_room hlayout hvlt hsegs (by omega) hr
        refine ⟨a, k, ha, hk, ?_, by omega, hroom⟩
        rw [hr, Option.map_some, hlist, hidx]
    obtain ⟨⟨a', k', -, -, hfree', hidx, -⟩, -⟩ := probe_miss hcomp hset hlayout hsegs hmiss
    obtain rfl : a = a' := by omega
    exact ⟨fun w hw => by omega, ⟨a, k, ha, hk, hmiss, fun w _ hw => hfree w (by omega), hstart, hroom⟩,
      fillAddr_isSome hcomp hfill hlayout ha hk hfree' hmiss hstart hroom⟩

/-! ## Runs -/

variable (p) in
/-- A cache that allocates on a fill keeps no line reserved. -/
def NoneReserved (lines : Lines) : Prop :=
  ∀ set, ∀ w < p.tagAssocNo, (p.way lines set w).status ≠ .reserved

/-- A fill leaves its line valid. -/
theorem noneReserved_fill (hcomp : p.isCompressed = true) {t t' : TagArray} {need : ℕ → NewAddrType → ℕ}
    (hkept : ∀ set, p.SetKept t.lines set (need set)) (hset : p.config.setIndex addr = some set)
    (hsize : p.segNo size ≤ p.maxSegNo) (hnone : p.NoneReserved t.lines)
    (h : p.fillAddr t addr time size compressed = some t') : p.NoneReserved t'.lines := by
  obtain ⟨idx, evictIdx, lines₁, block, hprobe, hsegs, hblock, hlines⟩ := fillAddr_eq hcomp h
  obtain ⟨⟨free, hlayout⟩, -⟩ := hkept set
  have hsize' : p.segNo size ≤ p.maxSegIdx + 1 := by
    unfold maxSegIdx
    omega
  obtain ⟨⟨a, k, ha, hka, hfree, rfl, rfl⟩, -⟩ := probe_miss hcomp hset hlayout hsize' hprobe
  obtain ⟨hout, -, hpres, -⟩ := fillSegments_layout hlayout ha hka hfree hsegs
  have hvalid : block.status = .valid := by
    unfold CacheBlock.fill at hblock
    split_ifs at hblock
    obtain rfl := Option.some.inj hblock
    rfl
  intro set' w hw
  unfold way
  rw [hlines]
  by_cases hline : set' * p.tagAssocNo + w = set * p.tagAssocNo + a
  · rw [hline, Function.update_self, hvalid]
    exact nofun
  rw [Function.update_of_ne hline]
  by_cases hset' : set' = set
  · subst hset'
    intro hreserved
    obtain ⟨w', hw', -, -, hst, -⟩ := hpres w hw (by omega) (by
      unfold way
      rw [hreserved]
      exact nofun)
    exact hnone set' w' hw' (hst ▸ hreserved)
  · have hsame : lines₁ (set' * p.tagAssocNo + w) = p.way t.lines set' w := by
      refine hout _ fun hin => ?_
      have hne := @way_ne p set set' (set' * p.tagAssocNo + w - set * p.tagAssocNo) w hset' (by omega) hw
      omega
    rw [hsame]
    exact hnone set' w hw

/-- An access of a cache that allocates on a fill changes no status. -/
theorem status_access (hfill : p.config.allocPolicy = .onFill) {t t' : TagArray} {result : ProbeResult}
    {evicted : Option CacheBlock} (h : p.access t addr time = some (result, evicted, t')) (i : ℕ) :
    (t'.lines i).status = (t.lines i).status := by
  unfold access at h
  simp only [Option.bind_eq_bind, Option.bind_eq_some_iff] at h
  obtain ⟨r, -, h⟩ := h
  cases r with
  | hit idx =>
    obtain ⟨-, -, rfl⟩ := by simpa using h
    by_cases hi : i = idx <;> simp [hi]
  | hitReserved idx =>
    obtain ⟨-, -, rfl⟩ := by simpa using h
    by_cases hi : i = idx <;> simp [hi]
  | miss idx evictIdx =>
    simp only [hfill, if_neg (show AllocationPolicy.onFill ≠ .onMiss from nofun)] at h
    obtain ⟨-, -, rfl⟩ := by simpa using h
    rfl
  | reservationFail =>
    obtain ⟨-, -, rfl⟩ := by simpa using h
    rfl

theorem noneReserved_setStatus {t : TagArray} {idx : ℕ} {status : CacheBlockState}
    (hnone : p.NoneReserved t.lines) (hst : status ≠ .reserved) :
    p.NoneReserved (setStatus t idx status).lines := by
  intro set w hw
  unfold way setStatus
  dsimp only
  by_cases hi : set * p.tagAssocNo + w = idx
  · rw [hi, Function.update_self]
    exact hst
  · rw [Function.update_of_ne hi]
    exact hnone set w hw

/-- One operation. -/
theorem noneReserved_exec1 (hcomp : p.isCompressed = true) (hfill : p.config.allocPolicy = .onFill)
    {s s' : SegmentedRun} {op : Op} (hkept : ∀ set, p.SetKept s.array.lines set (s.need set))
    (hsize : p.SizesOk [op]) (hnone : p.NoneReserved s.array.lines) (h : p.exec1 s op = some s') :
    p.NoneReserved s'.array.lines := by
  cases op with
  | fill addr time compressedDataSize compressed =>
    simp only [exec1, Option.bind_eq_bind, Option.bind_eq_some_iff] at h
    obtain ⟨set, hset, array, harray, hs'⟩ := h
    obtain rfl := Option.some.inj hs'
    exact noneReserved_fill hcomp hkept hset (hsize _ _ _ _ List.mem_cons_self) hnone harray
  | access addr time =>
    simp only [exec1, Option.bind_eq_bind, Option.bind_eq_some_iff] at h
    obtain ⟨⟨result, evicted, array⟩, harray, hs'⟩ := h
    obtain rfl := Option.some.inj hs'
    intro set w hw
    unfold way
    rw [status_access hfill harray]
    exact hnone set w hw
  | modify idx =>
    simp only [exec1] at h
    split_ifs at h
    obtain rfl := Option.some.inj h
    exact noneReserved_setStatus hnone (by simp)
  | invalidate idx =>
    obtain rfl := Option.some.inj h
    exact noneReserved_setStatus hnone (by simp)
  | flush =>
    obtain rfl := Option.some.inj h
    obtain ⟨hl1d, hen⟩ := isL1D_of_isCompressed hcomp
    intro set w hw
    unfold way flush
    rw [if_pos ⟨hl1d, by omega⟩]
    dsimp only
    split_ifs
    · show CacheBlockState.invalid ≠ .reserved
      simp
    · exact hnone set w hw

theorem noneReserved_run (hcomp : p.isCompressed = true) (hfill : p.config.allocPolicy = .onFill)
    {ops : List Op} (hsizes : p.SizesOk ops)
    (hflush : ∀ before after, ops = before ++ .flush :: after → ∀ t, p.run before = some t →
      p.FlushOk t) {s : SegmentedRun} (h : p.run ops = some s) : p.NoneReserved s.array.lines := by
  induction ops using List.reverseRecOn generalizing s with
  | nil =>
    obtain ⟨hl1d, hen⟩ := isL1D_of_isCompressed hcomp
    unfold run newArray at h
    rw [if_pos ⟨hl1d, by omega⟩] at h
    split_ifs at h
    · obtain rfl := Option.some.inj h
      exact fun _ _ _ => nofun
    · exact absurd h nofun
  | append_singleton ops op ih =>
    rw [run_concat] at h
    obtain ⟨t, ht, hop⟩ := Option.bind_eq_some_iff.1 h
    have hsizes' : p.SizesOk ops := fun addr time size compressed hmem =>
      hsizes addr time size compressed (List.mem_append_left _ hmem)
    have hflush' : ∀ before after, ops = before ++ .flush :: after → ∀ t, p.run before = some t →
        p.FlushOk t :=
      fun before after hsplit => hflush before (after ++ [op]) (by rw [hsplit]; simp)
    refine noneReserved_exec1 hcomp hfill (setKept_run hcomp hfill hsizes' hflush' ht)
      (fun addr time size compressed hmem => ?_) (ih hsizes' hflush' ht) hop
    exact hsizes addr time size compressed (List.mem_append_right _ hmem)

/-- **A fill of a new line goes through exactly from the states of `FillOk`**, in every state reached by
fills, accesses, write hits and invalidations. -/
theorem run_completes_iff (hcomp : p.isCompressed = true) (hfill : p.config.allocPolicy = .onFill)
    {ops : List Op} (hsizes : p.SizesOk ops) (hflush : .flush ∉ ops) {s : SegmentedRun}
    (h : p.run ops = some s) (hset : p.config.setIndex addr = some set)
    (hnew : ∀ w < p.tagAssocNo, (p.way s.array.lines set w).tag = p.config.tag addr →
      (p.way s.array.lines set w).status = .invalid)
    (hsegs : p.segNo size ≤ p.maxSegNo) (time : UInt32) (compressed : ℕ) :
    p.Completes s.array addr time size compressed set ↔
      p.FillOk s.array.lines set (p.segNo size) := by
  have hnoflush : ∀ before after, ops = before ++ .flush :: after → ∀ t, p.run before = some t →
      p.FlushOk t := by
    intro before after hsplit
    exact absurd (by rw [hsplit]; simp) hflush
  obtain ⟨⟨free, hlayout⟩, -⟩ := setKept_run hcomp hfill hsizes hnoflush h set
  refine completes_iff_fillOk hcomp hfill hset hlayout
    (noneReserved_run hcomp hfill hsizes hnoflush h set) hnew ?_
  unfold maxSegIdx
  omega

/-! ## Fills that go through, and fills that do not -/

/-- An L1 data cache of one line of 128 bytes in four segments, with four tags for the line. -/
def oneLineOf (replacementPolicy : ReplacementPolicy) : TagParams :=
  { oneLine 4 with config := { (oneLine 4).config with replacementPolicy } }

theorem sizesOk_of_le (policy : ReplacementPolicy) {ops : List Op}
    (h : ∀ addr time size compressed, .fill addr time size compressed ∈ ops → size ≤ 128) :
    (oneLineOf policy).SizesOk ops := by
  intro addr time size compressed hmem
  have hle := h addr time size compressed hmem
  change (size + 32 - 1) / 32 ≤ 1 * 128 / 32
  omega

/-- A line of four segments takes the place of one of three, by LRU. -/
theorem run_completes_lru : ∃ s, (oneLineOf .lru).run [.fill 0x80 1 96 1] = some s ∧
    (oneLineOf .lru).Completes s.array 0x100 2 128 0 0 := by
  obtain ⟨s, hs⟩ := Option.isSome_iff_exists.1
    (show ((oneLineOf .lru).run [.fill 0x80 1 96 1]).isSome = true by decide +kernel)
  have hstate : ((oneLineOf .lru).run [.fill 0x80 1 96 1]).all (fun s : SegmentedRun => decide
      ((∀ w : ℕ, w < 4 → ((oneLineOf .lru).way s.array.lines 0 w).tag = 0x100 →
        ((oneLineOf .lru).way s.array.lines 0 w).status = .invalid) ∧
      (oneLineOf .lru).victim s.array.lines 0 4 = some 2 ∧
      (oneLineOf .lru).GivesWay s.array.lines 0 4 2)) = true := by decide +kernel
  rw [hs, Option.all_some, decide_eq_true_iff] at hstate
  obtain ⟨hnew, hvictim, hgives⟩ := hstate
  have hset : (oneLineOf .lru).config.setIndex 0x100 = some 0 := rfl
  refine ⟨s, hs, (run_completes_iff rfl rfl (sizesOk_of_le .lru ?_) (by simp) hs hset hnew (by decide)
    2 0).2 ⟨by decide, 2, hvictim, hgives⟩⟩
  intro addr time size compressed hmem
  simp only [List.mem_cons, Op.fill.injEq, List.not_mem_nil, or_false] at hmem
  omega

/-- A fill that aborts does not go through. -/
theorem not_completes_of_none {t : TagArray} (h : p.fillAddr t addr time size compressed = none) :
    ¬ p.Completes t addr time size compressed set := by
  rintro ⟨-, -, t', ht'⟩
  rw [h] at ht'
  exact absurd ht' nofun

/-- There is a reachable set that a new line of at most its segments does not get into. -/
def LineRefused (policy : ReplacementPolicy) : Prop := ∃ (p : TagParams) (ops : List Op)
    (s : SegmentedRun) (addr : NewAddrType) (size set : ℕ), p.config.replacementPolicy = policy ∧
    p.isCompressed = true ∧ p.config.allocPolicy = .onFill ∧ p.SizesOk ops ∧ .flush ∉ ops ∧
    p.run ops = some s ∧ p.config.setIndex addr = some set ∧
    (∀ w < p.tagAssocNo, (p.way s.array.lines set w).tag = p.config.tag addr →
      (p.way s.array.lines set w).status = .invalid) ∧ p.segNo size ≤ p.maxSegNo ∧
    ¬ p.Completes s.array addr 5 size 1 set

/-- **Under both policies a line is refused**: FIFO has no choice between two neighbours, and an eviction
that starts from a line behind the set leaves out the line at the last segment. -/
theorem not_completes : LineRefused .fifo ∧ LineRefused .lru := by
  constructor
  · -- FIFO
    obtain ⟨s, hs⟩ := Option.isSome_iff_exists.1
      (show ((oneLineOf .fifo).run [.fill 0x80 1 96 1]).isSome = true by decide +kernel)
    have hstate : ((oneLineOf .fifo).run [.fill 0x80 1 96 1]).all (fun s : SegmentedRun => decide
        ((∀ w : ℕ, w < 4 → ((oneLineOf .fifo).way s.array.lines 0 w).tag = 0x100 →
          ((oneLineOf .fifo).way s.array.lines 0 w).status = .invalid) ∧
        ((oneLineOf .fifo).fillAddr s.array 0x100 5 128 1).isNone = true)) = true := by decide +kernel
    rw [hs, Option.all_some, decide_eq_true_iff] at hstate
    refine ⟨oneLineOf .fifo, [.fill 0x80 1 96 1], s, 0x100, 128, 0, rfl, rfl, rfl,
      sizesOk_of_le .fifo ?_, by simp, hs, rfl, hstate.1, by decide,
      not_completes_of_none (Option.isNone_iff_eq_none.1 hstate.2)⟩
    intro addr time size compressed hmem
    simp only [List.mem_cons, Op.fill.injEq, List.not_mem_nil, or_false] at hmem
    omega
  · -- LRU
    obtain ⟨s, hs⟩ := Option.isSome_iff_exists.1
      (show ((oneLineOf .lru).run [.fill 0x80 1 32 1, .fill 0x100 2 96 1]).isSome = true by decide +kernel)
    have hstate : ((oneLineOf .lru).run [.fill 0x80 1 32 1, .fill 0x100 2 96 1]).all
        (fun s : SegmentedRun => decide
        ((∀ w : ℕ, w < 4 → ((oneLineOf .lru).way s.array.lines 0 w).tag = 0x180 →
          ((oneLineOf .lru).way s.array.lines 0 w).status = .invalid) ∧
        ((oneLineOf .lru).fillAddr s.array 0x180 5 128 1).isNone = true)) = true := by decide +kernel
    rw [hs, Option.all_some, decide_eq_true_iff] at hstate
    refine ⟨oneLineOf .lru, [.fill 0x80 1 32 1, .fill 0x100 2 96 1], s, 0x180, 128, 0, rfl, rfl, rfl,
      sizesOk_of_le .lru ?_, by simp, hs, rfl, hstate.1, by decide,
      not_completes_of_none (Option.isNone_iff_eq_none.1 hstate.2)⟩
    intro addr time size compressed hmem
    simp only [List.mem_cons, Op.fill.injEq, List.not_mem_nil, or_false] at hmem
    omega

end TagParams

end CompressionWork.Cache
