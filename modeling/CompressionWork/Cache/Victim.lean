import CompressionWork.Cache.Layout

/-!
# The line that a fill takes

What `probe` and `do_multi_line_eviction` can return for a segmented set.

* `probeLoop_inr` — without a hit, the candidates are those of a pass over the set.
* `Scanned` — what a pass over the lowest ways has found: in particular, the highest invalid ways.
* `evictLoop_spec` — the evicted lines are the neighbours on both sides of the first one.
* `probe_miss` — the line taken, and the ones right below it that go as well.
-/

namespace CompressionWork.Cache

open Transition

namespace TagParams

variable {p : TagParams} {lines : Lines} {set free w idx segNo : ℕ} {addr tag : NewAddrType}

/-! ## The pass over the set -/

/-- The lines right below an index, in descending order. -/
def linesBelow (idx k : ℕ) : List ℕ := (List.range k).map fun j => idx - 1 - j

/-- The search ends without a hit when no line of the set holds the tag. -/
theorem probeLoop_inr {ways : List ℕ} {c c' : Candidates}
    (h : p.probeLoop lines tag segNo ways c = .inr c') :
    (∀ i ∈ ways, (lines i).tag = tag → (lines i).status = .invalid) ∧
      c' = ways.foldl (p.noteLine lines segNo) c := by
  induction ways generalizing c with
  | nil => exact ⟨by simp, (Sum.inr.inj h).symm⟩
  | cons index rest ih =>
    unfold probeLoop at h
    split_ifs at h with hreserved hhit
    obtain ⟨habsent, hfold⟩ := ih h
    refine ⟨?_, hfold⟩
    rintro i hi htag
    rcases List.mem_cons.1 hi with rfl | hi
    · by_contra hne
      exact hhit ⟨htag, hne⟩
    · exact habsent i hi htag

/-- The loop over the ways itself only finds hits. -/
theorem probeLoop_ne_miss (lines : Lines) (tag : NewAddrType) (segNo : ℕ) (ways : List ℕ)
    (c : Candidates) (idx : ℕ) (evictIdx : List ℕ) :
    p.probeLoop lines tag segNo ways c ≠ .inl (.miss idx evictIdx) := by
  induction ways generalizing c with
  | nil => exact nofun
  | cons index rest ih =>
    unfold probeLoop
    split_ifs
    · exact nofun
    · exact nofun
    · exact ih _

theorem probeLoop_of_absent {ways : List ℕ} {c : Candidates}
    (h : ∀ i ∈ ways, (lines i).tag = tag → (lines i).status = .invalid) :
    p.probeLoop lines tag segNo ways c = .inr (ways.foldl (p.noteLine lines segNo) c) := by
  induction ways generalizing c with
  | nil => rfl
  | cons index rest ih =>
    have hindex := h index (List.mem_cons_self ..)
    rw [probeLoop, if_neg, if_neg, ih fun i hi => h i (List.mem_cons_of_mem _ hi)]
    · rfl
    · rintro ⟨htag, hne⟩
      exact hne (hindex htag)
    · rintro ⟨htag, hreserved⟩
      rw [hindex htag] at hreserved
      exact absurd hreserved (by simp)

variable (p) in
/-- The candidates after the lowest `n` ways of a set. -/
def scan (lines : Lines) (set segNo n : ℕ) : Candidates :=
  (List.range n).foldl (fun c w => p.noteLine lines segNo c (set * p.tagAssocNo + w)) {}

variable (p) in
/-- The line of a candidate is one of the lowest `n` ways of the set, and of the right kind. -/
def IsWay (lines : Lines) (set n : ℕ) (kind : CacheBlock → Prop) (i : ℕ) : Prop :=
  ∃ w < n, i = set * p.tagAssocNo + w ∧ kind (p.way lines set w)

/-- An invalid line with room, or without; a line that can be replaced, with room or without. -/
def InvalidFit (segNo : ℕ) (line : CacheBlock) : Prop :=
  line.status = .invalid ∧ segNo ≤ getAvailSpace line

/-- A free line without the space. -/
def InvalidShort (segNo : ℕ) (line : CacheBlock) : Prop :=
  line.status = .invalid ∧ getAvailSpace line < segNo

/-- A line that may be evicted and has the space. -/
def ValidFit (segNo : ℕ) (line : CacheBlock) : Prop :=
  (line.status = .valid ∨ line.status = .modified) ∧ segNo ≤ getAvailSpace line

/-- A line that may be evicted, without the space. -/
def ValidShort (segNo : ℕ) (line : CacheBlock) : Prop :=
  (line.status = .valid ∨ line.status = .modified) ∧ getAvailSpace line < segNo

variable (p) in
/-- What the candidates of the lowest `n` ways are. -/
structure Scanned (lines : Lines) (set segNo n : ℕ) (c : Candidates) : Prop where
  invalidFit : ∀ i, c.invalidLineWithAvailSpace = some i → p.IsWay lines set n (InvalidFit segNo) i
  invalidShort : ∀ i, c.invalidLine = some i → p.IsWay lines set n (InvalidShort segNo) i
  validFit : ∀ i, c.validLineWithAvailSpace = some i → p.IsWay lines set n (ValidFit segNo) i
  validShort : ∀ i, c.validLine = some i → p.IsWay lines set n (ValidShort segNo) i
  /-- The last invalid line of its kind wins. -/
  highestFit : ∀ w < n, InvalidFit segNo (p.way lines set w) →
    ∃ w' ≥ w, c.invalidLineWithAvailSpace = some (set * p.tagAssocNo + w')
  highestShort : ∀ w < n, InvalidShort segNo (p.way lines set w) →
    ∃ w' ≥ w, c.invalidLine = some (set * p.tagAssocNo + w')
  allReserved : c.allReserved = true → ∀ w < n, (p.way lines set w).status = .reserved

theorem IsWay.succ {kind : CacheBlock → Prop} {n i : ℕ} (h : p.IsWay lines set n kind i) :
    p.IsWay lines set (n + 1) kind i := by
  obtain ⟨w, hw, hi⟩ := h
  exact ⟨w, Nat.lt_succ_of_lt hw, hi⟩

theorem isWay_last {kind : CacheBlock → Prop} {n : ℕ} (h : kind (p.way lines set n)) :
    p.IsWay lines set (n + 1) kind (set * p.tagAssocNo + n) :=
  ⟨n, n.lt_succ_self, rfl, h⟩

/-- A candidate is the one from before, or the last way. -/
theorem isWay_succ {kind : CacheBlock → Prop} {n : ℕ} {old new : Option ℕ}
    (hold : ∀ i, old = some i → p.IsWay lines set n kind i)
    (hnew : new = old ∨ new = some (set * p.tagAssocNo + n) ∧ kind (p.way lines set n)) :
    ∀ i, new = some i → p.IsWay lines set (n + 1) kind i := by
  intro i hi
  rcases hnew with rfl | ⟨rfl, hkind⟩
  · exact (hold i hi).succ
  · obtain rfl := Option.some.inj hi
    exact isWay_last hkind

/-- When every line of its kind replaces the one before, the highest wins. -/
theorem highest_succ {kind : CacheBlock → Prop} {n : ℕ} {old new : Option ℕ}
    (hold : ∀ w < n, kind (p.way lines set w) → ∃ w' ≥ w, old = some (set * p.tagAssocNo + w'))
    (hnew : new = old ∧ ¬ kind (p.way lines set n) ∨
      new = some (set * p.tagAssocNo + n) ∧ kind (p.way lines set n)) :
    ∀ w < n + 1, kind (p.way lines set w) →
      ∃ w' ≥ w, new = some (set * p.tagAssocNo + w') := by
  intro w hw hkind
  rcases hnew with ⟨rfl, hnot⟩ | ⟨rfl, -⟩
  · have hne : w ≠ n := by
      rintro rfl
      exact hnot hkind
    exact hold w (by omega) hkind
  · exact ⟨n, by omega, rfl⟩

theorem Scanned.next {n : ℕ} {c c' : Candidates} (h : p.Scanned lines set segNo n c)
    (hinvalidFit : c'.invalidLineWithAvailSpace = c.invalidLineWithAvailSpace ∧
        ¬ InvalidFit segNo (p.way lines set n) ∨
      c'.invalidLineWithAvailSpace = some (set * p.tagAssocNo + n) ∧
        InvalidFit segNo (p.way lines set n))
    (hinvalidShort : c'.invalidLine = c.invalidLine ∧ ¬ InvalidShort segNo (p.way lines set n) ∨
      c'.invalidLine = some (set * p.tagAssocNo + n) ∧ InvalidShort segNo (p.way lines set n))
    (hvalidFit : c'.validLineWithAvailSpace = c.validLineWithAvailSpace ∨
      c'.validLineWithAvailSpace = some (set * p.tagAssocNo + n) ∧
        ValidFit segNo (p.way lines set n))
    (hvalidShort : c'.validLine = c.validLine ∨
      c'.validLine = some (set * p.tagAssocNo + n) ∧ ValidShort segNo (p.way lines set n))
    (hreserved : c'.allReserved = true →
      c.allReserved = true ∧ (p.way lines set n).status = .reserved) :
    p.Scanned lines set segNo (n + 1) c' where
  invalidFit := isWay_succ h.invalidFit (hinvalidFit.imp_left And.left)
  invalidShort := isWay_succ h.invalidShort (hinvalidShort.imp_left And.left)
  validFit := isWay_succ h.validFit hvalidFit
  validShort := isWay_succ h.validShort hvalidShort
  highestFit := highest_succ h.highestFit hinvalidFit
  highestShort := highest_succ h.highestShort hinvalidShort
  allReserved := by
    intro hall w hw
    obtain ⟨hall, hlast⟩ := hreserved hall
    rcases Nat.lt_succ_iff_lt_or_eq.1 hw with hw | rfl
    · exact h.allReserved hall w hw
    · exact hlast

/-- One more way. -/
theorem Scanned.step (hcomp : p.isCompressed = true) {n : ℕ} {c : Candidates}
    (h : p.Scanned lines set segNo n c) :
    p.Scanned lines set segNo (n + 1) (p.noteLine lines segNo c (set * p.tagAssocNo + n)) := by
  have hline : lines (set * p.tagAssocNo + n) = p.way lines set n := rfl
  unfold noteLine
  simp only [hline, hcomp, true_and, if_true]
  by_cases hreserved : (p.way lines set n).status = .reserved
  · rw [if_pos hreserved]
    apply h.next <;> simp [InvalidFit, InvalidShort, hreserved]
  rw [if_neg hreserved]
  by_cases hinvalid : (p.way lines set n).status = .invalid
  · rw [if_pos hinvalid]
    by_cases hfit : segNo ≤ getAvailSpace (p.way lines set n)
    · rw [if_pos hfit]
      apply h.next <;> simp [InvalidFit, InvalidShort, hinvalid, hfit]
    · rw [if_neg hfit]
      apply h.next <;> simp [InvalidFit, InvalidShort, hinvalid, hfit, Nat.not_le.1 hfit]
  rw [if_neg hinvalid]
  -- a line that can be replaced
  have hlive : (p.way lines set n).status = .valid ∨ (p.way lines set n).status = .modified := by
    cases hstatus : (p.way lines set n).status <;> simp_all
  split_ifs with hstamp hfit
  · apply h.next <;> simp [InvalidFit, InvalidShort, ValidFit, hinvalid, hlive, hfit]
  · apply h.next <;> simp [InvalidFit, InvalidShort, ValidShort, hinvalid, hlive, Nat.not_le.1 hfit]
  · apply h.next <;> simp [InvalidFit, InvalidShort, hinvalid]

theorem scan_scanned (hcomp : p.isCompressed = true) (n : ℕ) :
    p.Scanned lines set segNo n (p.scan lines set segNo n) :=
  foldl_range (p.Scanned lines set segNo) n
    ⟨by simp, by simp, by simp, by simp, by simp, by simp, by simp⟩
    fun _ _ _ h => h.step hcomp

/-! ## The eviction loop -/

@[simp] theorem linesBelow_zero (idx : ℕ) : linesBelow idx 0 = [] := rfl

theorem linesBelow_succ (idx k : ℕ) : linesBelow (idx + 1) (k + 1) = idx :: linesBelow idx k := by
  rw [linesBelow, List.range_succ_eq_map, List.map_cons, List.map_map]
  refine congrArg₂ List.cons (by omega) (List.map_congr_left fun j _ => ?_)
  dsimp only [Function.comp]
  omega

theorem linesBelow_concat (idx k : ℕ) :
    linesBelow idx (k + 1) = linesBelow idx k ++ [idx - 1 - k] := by
  rw [linesBelow, List.range_succ, List.map_append]
  rfl

theorem insertEvict_of_forall_le {line : ℕ} {l : List ℕ} (h : ∀ i ∈ l, line ≤ i) :
    insertEvict line l = l ++ [line] := by
  induction l with
  | nil => rfl
  | cons i rest ih =>
    have hi := h i List.mem_cons_self
    rw [insertEvict, if_neg (by omega), ih fun j hj => h j (List.mem_cons_of_mem _ hj)]
    rfl

variable (p) in
/-- The lines to evict are neighbours in the set, the way `v` among them. -/
def Contiguous (set v : ℕ) (e : Eviction) : Prop :=
  ∃ a k, v ≤ a ∧ a < p.tagAssocNo ∧ k ≤ a ∧ e.maxIdx = set * p.tagAssocNo + a ∧
    e.minIdx = set * p.tagAssocNo + (a - k) ∧ e.evictLineIdx = e.maxIdx :: linesBelow e.maxIdx k

/-- One round of the loop. -/
theorem Contiguous.addEvictLine {v evictLine : ℕ} {e : Eviction} (h : p.Contiguous set v e)
    (hassoc : 2 ≤ p.tagAssocNo)
    (hsel : p.selectEvictLineIdx lines (p.getNeighborIdx e.maxIdx).1 (p.getNeighborIdx e.minIdx).2 =
      some evictLine) : p.Contiguous set v (p.addEvictLine lines e evictLine) := by
  obtain ⟨a, k, hva, ha, hka, hmax, hmin, hlist⟩ := h
  -- the neighbours of the run inside the set
  have htop : ∀ i, (p.getNeighborIdx e.maxIdx).1 = some i → i = e.maxIdx + 1 ∧ a + 1 < p.tagAssocNo := by
    intro i hi
    rw [getNeighborIdx, hmax, getWayIdx_way ha] at hi
    split_ifs at hi with h0 hN
    · exact ⟨by rw [hmax]; exact (Option.some.inj hi).symm, by omega⟩
    · exact ⟨by rw [hmax]; exact (Option.some.inj hi).symm, by omega⟩
  have hbot : ∀ i, (p.getNeighborIdx e.minIdx).2 = some i → i + 1 = e.minIdx ∧ k < a := by
    intro i hi
    rw [getNeighborIdx, hmin, getWayIdx_way (by omega)] at hi
    split_ifs at hi with h0 hN
    · have := Option.some.inj hi
      exact ⟨by omega, by omega⟩
    · have := Option.some.inj hi
      exact ⟨by omega, by omega⟩
  have hor : (p.getNeighborIdx e.maxIdx).1 = some evictLine ∨
      (p.getNeighborIdx e.minIdx).2 = some evictLine := by
    revert hsel
    cases (p.getNeighborIdx e.maxIdx).1 <;> cases (p.getNeighborIdx e.minIdx).2 <;>
      simp only [selectEvictLineIdx] <;> intro hsel
    · exact absurd hsel (by simp)
    · exact Or.inr hsel
    · exact Or.inl hsel
    · split_ifs at hsel
      · exact Or.inl hsel
      · exact Or.inr hsel
  rcases hor with h | h
  · obtain ⟨rfl, hroom⟩ := htop _ h
    refine ⟨a + 1, k + 1, by omega, hroom, by omega, ?_, ?_, ?_⟩
    · simp only [TagParams.addEvictLine]
      omega
    · simp only [TagParams.addEvictLine]
      omega
    · simp only [TagParams.addEvictLine]
      rw [hlist, insertEvict, if_pos (by omega), Nat.max_eq_right (by omega), linesBelow_succ]
  · obtain ⟨hline, hroom⟩ := hbot _ h
    refine ⟨a, k + 1, hva, ha, by omega, ?_, ?_, ?_⟩
    · simp only [TagParams.addEvictLine]
      omega
    · simp only [TagParams.addEvictLine]
      omega
    · simp only [TagParams.addEvictLine]
      rw [hlist, insertEvict_of_forall_le ?_, Nat.max_eq_left (by omega), linesBelow_concat,
        List.cons_append, show evictLine = e.maxIdx - 1 - k by omega]
      intro i hi
      rcases List.mem_cons.1 hi with rfl | hi
      · omega
      · obtain ⟨j, hj, rfl⟩ := List.mem_map.1 hi
        have hjk := List.mem_range.1 hj
        omega

/-- **The loop** only adds neighbours. -/
theorem evictLoop_spec {v fuel : ℕ} {e e' : Eviction} (h : p.Contiguous set v e)
    (hroom : 2 ≤ p.tagAssocNo ∨ segNo ≤ e.availSegNo)
    (hloop : p.evictLoop lines segNo fuel e = some e') : p.Contiguous set v e' := by
  induction fuel generalizing e with
  | zero =>
    unfold evictLoop at hloop
    split_ifs at hloop
    · obtain rfl := Option.some.inj hloop
      exact h
  | succ fuel ih =>
    unfold evictLoop at hloop
    split_ifs at hloop with hdone
    · obtain rfl := Option.some.inj hloop
      exact h
    · have hassoc := hroom.resolve_right hdone
      simp only [Option.bind_eq_bind, Option.bind_eq_some_iff] at hloop
      obtain ⟨evictLine, hsel, hrest⟩ := hloop
      exact ih (h.addEvictLine hassoc hsel) (Or.inl hassoc) hrest

/-- **`do_multi_line_eviction`**: the line to use is `v` or above it, and the others lie right below
the line to use. -/
theorem doMultiLineEviction_spec {v : ℕ} {r : ℕ × List ℕ} (hv : v < p.tagAssocNo)
    (hroom : 2 ≤ p.tagAssocNo ∨ segNo ≤ (p.startEviction lines (set * p.tagAssocNo + v)).availSegNo)
    (h : p.doMultiLineEviction lines (set * p.tagAssocNo + v) segNo = some r) :
    ∃ a k, v ≤ a ∧ a < p.tagAssocNo ∧ k ≤ a ∧ r.1 = set * p.tagAssocNo + a ∧
      r.2 = linesBelow r.1 k := by
  obtain ⟨e, hloop, rfl⟩ := Option.map_eq_some_iff.1 h
  have hstart : p.Contiguous set v (p.startEviction lines (set * p.tagAssocNo + v)) :=
    ⟨v, 0, Nat.le_refl _, hv, Nat.zero_le _, rfl, rfl, rfl⟩
  obtain ⟨a, k, hva, ha, hka, hmax, -, hlist⟩ := evictLoop_spec hstart hroom hloop
  refine ⟨a, k, hva, ha, hka, hmax, ?_⟩
  dsimp only
  rw [hlist, List.erase_cons_head]

/-! ## The line taken -/

theorem Layout.status_of_lt (h : p.Layout lines set free) (hw : w < free) :
    (p.way lines set w).status = .invalid :=
  (h.free_eq w hw).1

/-- The free ways are all alike for the search. -/
theorem Layout.getAvailSpace_eq (h : p.Layout lines set free) {w' : ℕ} (hw : w < free)
    (hw' : w' < free) : getAvailSpace (p.way lines set w) = getAvailSpace (p.way lines set w') := by
  obtain ⟨-, hs, he⟩ := h.free_eq w hw
  obtain ⟨-, hs', he'⟩ := h.free_eq w' hw'
  rw [getAvailSpace, getAvailSpace, hs, he, hs', he']

/-- The candidate that is the highest of its kind is not below the highest free way. -/
theorem Layout.free_le_of_highest (h : p.Layout lines set free) {kind : CacheBlock → Prop}
    (hkind : ∀ w' < free, kind (p.way lines set w) → kind (p.way lines set w'))
    {c : Option ℕ} (hc : c = some (set * p.tagAssocNo + w)) (hwkind : kind (p.way lines set w))
    (hhighest : ∀ w < p.tagAssocNo, kind (p.way lines set w) →
      ∃ w' ≥ w, c = some (set * p.tagAssocNo + w')) : free ≤ w + 1 := by
  by_contra hlt
  have hle := h.free_le
  obtain ⟨w', hge, hw'⟩ := hhighest (free - 1) (by omega) (hkind _ (by omega) hwkind)
  rw [hc] at hw'
  have := Option.some.inj hw'
  omega

/-- With a single way, its segments and those behind it are all segments of the set. -/
theorem Layout.room_of_single (h : p.Layout lines set free) (hsegs : segNo ≤ p.maxSegIdx + 1)
    (hw : w < p.tagAssocNo) : 2 ≤ p.tagAssocNo ∨
      segNo ≤ (p.startEviction lines (set * p.tagAssocNo + w)).availSegNo := by
  by_cases hassoc : 2 ≤ p.tagAssocNo
  · exact Or.inl hassoc
  · obtain rfl : w = 0 := by omega
    have hbehind : p.behind lines set 1 = 0 := if_neg (by omega)
    have hstart : (p.way lines set 0).startSegIdx = 0 := by
      by_cases hfree : free = 0
      · rw [h.start_eq 0 hw (by omega), hbehind]
      · have hle := h.free_le
        rw [(h.free_eq 0 (by omega)).2.1, show free = 1 by omega, hbehind]
    have hend := h.end_le 0 hw
    have hway : lines (set * p.tagAssocNo + 0) = p.way lines set 0 := rfl
    refine Or.inr ?_
    unfold startEviction getAvailSpace tailSpace
    rw [getWayIdx_way hw, hway, hstart]
    simp only [Nat.not_lt_zero, if_false, Nat.zero_le, true_and, Nat.sub_zero, gt_iff_lt]
    split_ifs <;> omega

/-- A live way is not one of the free ones. -/
theorem Layout.free_le_of_live (h : p.Layout lines set free) (hlive : (p.way lines set w).status ≠ .invalid) :
    free ≤ w := by
  by_contra hlt
  exact hlive (h.status_of_lt (Nat.lt_of_not_le hlt))

/-- The eviction that starts at a way takes a way that is not below it. -/
theorem doMultiLineEviction_takes {evictIdx : List ℕ} (hlayout : p.Layout lines set free)
    (hsegs : segNo ≤ p.maxSegIdx + 1) (hw : w < p.tagAssocNo) (hfree : free ≤ w + 1)
    (h : (p.doMultiLineEviction lines (set * p.tagAssocNo + w) segNo).map
      (fun r => ProbeResult.miss r.1 r.2) = some (.miss idx evictIdx)) :
    ∃ a k, a < p.tagAssocNo ∧ k ≤ a ∧ free ≤ a + 1 ∧ idx = set * p.tagAssocNo + a ∧
      evictIdx = linesBelow idx k := by
  obtain ⟨r, hr, hmiss⟩ := Option.map_eq_some_iff.1 h
  obtain ⟨rfl, rfl⟩ := ProbeResult.miss.inj hmiss
  obtain ⟨a, k, hwa, ha, hka, hmax, hlist⟩ :=
    doMultiLineEviction_spec hw (hlayout.room_of_single hsegs hw) hr
  exact ⟨a, k, ha, hka, by omega, hmax, hlist⟩

/-- What is made of the candidates: a way that fits goes alone, one that is too short starts an
eviction. -/
theorem chooseLine_takes {evictIdx : List ℕ} {c : Candidates} (hcomp : p.isCompressed = true)
    (hlayout : p.Layout lines set free) (hsegs : segNo ≤ p.maxSegIdx + 1)
    (hscan : p.Scanned lines set segNo p.tagAssocNo c)
    (h : p.chooseLine lines segNo c = some (.miss idx evictIdx)) :
    ∃ a k, a < p.tagAssocNo ∧ k ≤ a ∧ free ≤ a + 1 ∧ idx = set * p.tagAssocNo + a ∧
      evictIdx = linesBelow idx k := by
  unfold chooseLine at h
  by_cases hall : c.allReserved = true
  · rw [if_pos hall] at h
    split_ifs at h
    exact absurd h (by simp)
  rw [if_neg hall, if_pos hcomp] at h
  cases hif : c.invalidLineWithAvailSpace with
  | some i =>
    obtain ⟨w, hw, rfl, hkind⟩ := hscan.invalidFit i hif
    simp only [hif] at h
    obtain ⟨rfl, rfl⟩ := ProbeResult.miss.inj (Option.some.inj h)
    refine ⟨w, 0, hw, Nat.zero_le _, ?_, rfl, rfl⟩
    by_cases hfree : free ≤ w + 1
    · exact hfree
    · refine hlayout.free_le_of_highest (fun w' hw' hk => ?_) hif hkind hscan.highestFit
      exact ⟨hlayout.status_of_lt hw',
        Nat.le_trans hkind.2 (Nat.le_of_eq (hlayout.getAvailSpace_eq (by omega) hw'))⟩
  | none =>
    cases hvf : c.validLineWithAvailSpace with
    | some i =>
      obtain ⟨w, hw, rfl, hkind⟩ := hscan.validFit i hvf
      simp only [hif, hvf] at h
      obtain ⟨rfl, rfl⟩ := ProbeResult.miss.inj (Option.some.inj h)
      have hfree : free ≤ w := hlayout.free_le_of_live fun hinv => by simp [ValidFit, hinv] at hkind
      exact ⟨w, 0, hw, Nat.zero_le _, Nat.le_succ_of_le hfree, rfl, rfl⟩
    | none =>
      cases his : c.invalidLine with
      | some i =>
        obtain ⟨w, hw, rfl, hkind⟩ := hscan.invalidShort i his
        simp only [hif, hvf, his] at h
        refine doMultiLineEviction_takes hlayout hsegs hw ?_ h
        by_cases hfree : free ≤ w + 1
        · exact hfree
        · refine hlayout.free_le_of_highest (fun w' hw' hk => ?_) his hkind hscan.highestShort
          exact ⟨hlayout.status_of_lt hw', Nat.lt_of_le_of_lt
            (Nat.le_of_eq (hlayout.getAvailSpace_eq hw' (by omega))) hkind.2⟩
      | none =>
        cases hvs : c.validLine with
        | some i =>
          obtain ⟨w, hw, rfl, hkind⟩ := hscan.validShort i hvs
          simp only [hif, hvf, his, hvs] at h
          have hfree : free ≤ w :=
            hlayout.free_le_of_live fun hinv => by simp [ValidShort, hinv] at hkind
          exact doMultiLineEviction_takes hlayout hsegs hw (Nat.le_succ_of_le hfree) h
        | none =>
          simp only [hif, hvf, his, hvs] at h
          exact absurd h (by simp)

/-- **The line that a fill takes**: a way of the set that is not below the highest free way, with the
ways right below it, and no line of the set holds the tag. -/
theorem probe_miss {evictIdx : List ℕ} (hcomp : p.isCompressed = true)
    (hset : p.config.setIndex addr = some set) (hlayout : p.Layout lines set free)
    (hsegs : segNo ≤ p.maxSegIdx + 1) (h : p.probe lines addr segNo = some (.miss idx evictIdx)) :
    (∃ a k, a < p.tagAssocNo ∧ k ≤ a ∧ free ≤ a + 1 ∧ idx = set * p.tagAssocNo + a ∧
      evictIdx = linesBelow idx k) ∧
    ∀ w < p.tagAssocNo, (p.way lines set w).tag = p.config.tag addr →
      (p.way lines set w).status = .invalid := by
  have hassoc : p.assocNo = p.tagAssocNo := if_pos hcomp
  rw [probe, hset] at h
  simp only [Option.bind_eq_bind, Option.bind_some] at h
  cases hprobe : p.probeLoop lines (p.config.tag addr) segNo (p.setLines set) {} with
  | inl result =>
    -- a hit is not a miss
    rw [hprobe] at h
    obtain rfl := Option.some.inj h
    exact absurd hprobe (probeLoop_ne_miss lines _ segNo _ _ idx evictIdx)
  | inr c =>
    rw [hprobe] at h
    obtain ⟨habsent, hfold⟩ := probeLoop_inr hprobe
    rw [setLines, hassoc] at habsent hfold
    rw [List.foldl_map] at hfold
    have hscan : p.Scanned lines set segNo p.tagAssocNo c := hfold ▸ scan_scanned hcomp _
    exact ⟨chooseLine_takes hcomp hlayout hsegs hscan h,
      fun w hw => habsent _ (List.mem_map_of_mem (List.mem_range.2 hw))⟩

end TagParams

end CompressionWork.Cache
