import CompressionWork.Cache.Segments
import CompressionWork.Transition.Reach
import Mathlib.Order.Interval.Finset.Nat

/-!
# The segments of a compressed cache over whole runs

* `segments`, `SetSound` — the segment ranges of the live lines of a set: inside the set, disjoint, and
  as long as what the last fill of the line asked for.
* `SegmentedRun`, `Op`, `exec1`, `run` — fills, accesses, write hits, invalidations and flushes.
* `FlushOk` — the flush does not leave a part of a set behind.
* `run_sound` — every set of every state reached is sound, when every flush of the run is such a one.
* `not_sound` — a flush of half a set, and two lines on one segment after it.
-/

namespace CompressionWork.Cache

open Transition

namespace TagParams

/-! ## Soundness -/

/-- The segments of a line. -/
def segments (line : CacheBlock) : Finset ℕ := Finset.Icc line.startSegIdx line.endSegIdx

variable (p : TagParams)

/-- What a set of a segmented cache has to satisfy; `need tag` is the number of segments that the last
fill of the tag asked for. -/
structure SetSound (lines : Lines) (set : ℕ) (need : NewAddrType → ℕ) : Prop where
  inside : ∀ w < p.tagAssocNo, (p.way lines set w).status ≠ .invalid →
    ∀ s ∈ segments (p.way lines set w), s < p.maxSegNo
  disjoint : ∀ w < p.tagAssocNo, ∀ w' < p.tagAssocNo, w ≠ w' →
    (p.way lines set w).status ≠ .invalid → (p.way lines set w').status ≠ .invalid →
    Disjoint (segments (p.way lines set w)) (segments (p.way lines set w'))
  fits : ∀ w < p.tagAssocNo, (p.way lines set w).status ≠ .invalid →
    need (p.way lines set w).tag ≤ (segments (p.way lines set w)).card

/-! ## Runs -/

/-- A tag array, and for each set the segments that the last fill of a tag has asked for. -/
structure SegmentedRun where
  array : TagArray
  need : ℕ → NewAddrType → ℕ

/-- What is done to the tag array. -/
inductive Op
  | fill (addr : NewAddrType) (time : UInt32) (compressedDataSize compressed : ℕ)
  | access (addr : NewAddrType) (time : UInt32)
  /-- a write hit marks a line that is there -/
  | modify (idx : ℕ)
  | invalidate (idx : ℕ)
  | flush

/-- A line gets a new status. -/
def setStatus (t : TagArray) (idx : ℕ) (status : CacheBlockState) : TagArray :=
  { t with lines := Function.update t.lines idx { t.lines idx with status } }

/-- One operation; `none` where an assertion fails. -/
def exec1 (s : SegmentedRun) : Op → Option SegmentedRun
  | .fill addr time compressedDataSize compressed => do
      let set ← p.config.setIndex addr
      let array ← p.fillAddr s.array addr time compressedDataSize compressed
      pure ⟨array, Function.update s.need set
        (Function.update (s.need set) (p.config.tag addr) (p.segNo compressedDataSize))⟩
  | .access addr time => do
      let (_, _, array) ← p.access s.array addr time
      pure { s with array }
  | .modify idx =>
      if (s.array.lines idx).status = .invalid ∨ (s.array.lines idx).status = .reserved then none
      else some { s with array := setStatus s.array idx .modified }
  | .invalidate idx => some { s with array := setStatus s.array idx .invalid }
  | .flush => some { s with array := p.flush s.array }

/-- A run from the empty cache. -/
def run (ops : List Op) : Option SegmentedRun := do
  let array ← p.newArray
  ops.foldlM p.exec1 ⟨array, fun _ _ => 0⟩

/-- Every fill asks for at most the segments of a set. -/
def SizesOk (ops : List Op) : Prop :=
  ∀ addr time compressedDataSize compressed,
    .fill addr time compressedDataSize compressed ∈ ops → p.segNo compressedDataSize ≤ p.maxSegNo

/-- The flush clears the sets as wholes: where it clears a way of a set, the ways that it does not
reach are as a flush leaves them. -/
def FlushOk (s : SegmentedRun) : Prop :=
  ∀ set w, w < p.tagAssocNo → set * p.tagAssocNo < p.config.getNumLines * 2 →
    p.config.getNumLines * 2 ≤ set * p.tagAssocNo + w →
      (p.way s.array.lines set w).status = .invalid ∧ (p.way s.array.lines set w).startSegIdx = 0 ∧
        (p.way s.array.lines set w).endSegIdx = p.maxSegIdx

/-! ## The invariant of a set -/

/-- The lines of a set lie one behind the other, and the live ones are long enough. -/
structure SetKept (lines : Lines) (set : ℕ) (need : NewAddrType → ℕ) : Prop where
  layout : ∃ free, p.Layout lines set free
  fits : ∀ w < p.tagAssocNo, (p.way lines set w).status ≠ .invalid →
    need (p.way lines set w).tag ≤ getAvailSpace (p.way lines set w)

variable {p} {lines lines' : Lines} {set free : ℕ} {need : NewAddrType → ℕ}

theorem card_segments (line : CacheBlock) : (segments line).card = getAvailSpace line := by
  rw [segments, Nat.card_Icc, getAvailSpace_eq]

/-- Of two live ways, the lower one lies behind. -/
theorem Layout.disjoint_of_lt (h : p.Layout lines set free) {w w' : ℕ} (hlt : w < w')
    (hw' : w' < p.tagAssocNo) (hlive : (p.way lines set w).status ≠ .invalid) :
    Disjoint (segments (p.way lines set w)) (segments (p.way lines set w')) := by
  have hfree : free ≤ w := by
    by_contra hw
    exact hlive (h.free_eq w (Nat.lt_of_not_le hw)).1
  have hle := h.behind_le_start (by omega) hfree hlt
  rw [behind_of_lt hw'] at hle
  rw [Finset.disjoint_left]
  intro s hs hs'
  have h₁ := (Finset.mem_Icc.1 hs).1
  have h₂ := (Finset.mem_Icc.1 hs').2
  omega

/-- **The invariant implies what was asked for.** -/
theorem SetKept.sound (h : p.SetKept lines set need) (hmax : 0 < p.maxSegIdx) :
    p.SetSound lines set need := by
  obtain ⟨free, hlayout⟩ := h.layout
  refine ⟨fun w hw _ s hs => ?_, fun w hw w' hw' hne hl hl' => ?_, fun w hw hl => ?_⟩
  · have hend := hlayout.end_le w hw
    have hs := (Finset.mem_Icc.1 hs).2
    unfold maxSegIdx at hend hmax
    omega
  · rcases Nat.lt_or_gt_of_ne hne with hlt | hlt
    · exact hlayout.disjoint_of_lt hlt hw' hl
    · exact (hlayout.disjoint_of_lt hlt hw hl').symm
  · rw [card_segments]
    exact h.fits w hw hl

/-- The second line has the segments and the tag of the first one, and is live only if that is. -/
def SameSegments (line line' : CacheBlock) : Prop :=
  line'.startSegIdx = line.startSegIdx ∧ line'.endSegIdx = line.endSegIdx ∧ line'.tag = line.tag ∧
    (line.status = .invalid → line'.status = .invalid)

theorem SameSegments.refl (line : CacheBlock) : SameSegments line line := ⟨rfl, rfl, rfl, id⟩

theorem sameSegments_update {idx : ℕ} {block : CacheBlock} (h : SameSegments (lines idx) block)
    (i : ℕ) : SameSegments (lines i) (Function.update lines idx block i) := by
  by_cases hi : i = idx
  · subst hi
    rw [Function.update_self]
    exact h
  · rw [Function.update_of_ne hi]
    exact .refl _

/-- A change of the lines that keeps their segments and tags, and makes no line live. -/
theorem SetKept.congr (h : p.SetKept lines set need)
    (hsame : ∀ w < p.tagAssocNo, SameSegments (p.way lines set w) (p.way lines' set w)) :
    p.SetKept lines' set need := by
  obtain ⟨free, hlayout⟩ := h.layout
  have hbehind : ∀ w, p.behind lines' set w = p.behind lines set w := by
    intro w
    unfold behind
    split_ifs with hw
    · rw [(hsame w hw).2.1]
    · rfl
  refine ⟨⟨free, hlayout.free_le, fun w hw hle => ?_, fun w hw => ?_, fun w hw => ?_, fun w hw => ?_⟩,
    fun w hw hlive => ?_⟩
  · rw [(hsame w hw).1, hbehind]
    exact hlayout.start_eq w hw hle
  · obtain ⟨hst, hs, he⟩ := hlayout.free_eq w hw
    obtain ⟨hs', he', -, hst'⟩ := hsame w (Nat.lt_of_lt_of_le hw hlayout.free_le)
    exact ⟨hst' hst, by rw [hs', hs, hbehind], by rw [he', he]⟩
  · rw [(hsame w hw).1, (hsame w hw).2.1]
    exact hlayout.start_le w hw
  · rw [(hsame w hw).2.1]
    exact hlayout.end_le w hw
  · obtain ⟨hs, he, ht, hst⟩ := hsame w hw
    rw [ht, getAvailSpace_eq, hs, he, ← getAvailSpace_eq]
    exact h.fits w hw fun hinv => hlive (hst hinv)

/-- A set as the constructor and a flush leave it. -/
theorem setKept_empty (h : ∀ w < p.tagAssocNo, (p.way lines set w).status = .invalid ∧
    (p.way lines set w).startSegIdx = 0 ∧ (p.way lines set w).endSegIdx = p.maxSegIdx) :
    p.SetKept lines set need := by
  have hbehind : p.behind lines set p.tagAssocNo = 0 := if_neg (Nat.lt_irrefl _)
  refine ⟨⟨p.tagAssocNo, Nat.le_refl _, fun w hw hle => by omega, fun w hw => ?_, fun w hw => ?_,
    fun w hw => ?_⟩, fun w hw hlive => absurd (h w hw).1 hlive⟩
  · obtain ⟨hst, hs, he⟩ := h w hw
    exact ⟨hst, by rw [hs, hbehind], he⟩
  · rw [(h w hw).2.1]
    exact Nat.zero_le _
  · exact Nat.le_of_eq (h w hw).2.2

/-! ## The operations keep the invariant -/

/-- Ways of different sets are different lines. -/
theorem way_ne {set' w w' : ℕ} (hset : set' ≠ set) (hw : w < p.tagAssocNo) (hw' : w' < p.tagAssocNo) :
    set' * p.tagAssocNo + w' ≠ set * p.tagAssocNo + w := by
  intro heq
  have hdiv := congrArg (· / p.tagAssocNo) heq
  have hN : 0 < p.tagAssocNo := by omega
  simp only [Nat.mul_comm _ p.tagAssocNo, Nat.mul_add_div hN, Nat.div_eq_of_lt hw,
    Nat.div_eq_of_lt hw', Nat.add_zero] at hdiv
  exact hset hdiv

theorem isL1D_of_isCompressed (h : p.isCompressed = true) :
    p.isL1D = true ∧ p.comp.hpclCacheCompEn = 1 := by
  simpa [isCompressed] using h

/-- The steps of a fill that does not abort. -/
theorem fillAddr_eq (hcomp : p.isCompressed = true) {t t' : TagArray} {addr : NewAddrType}
    {time : UInt32} {size compressed : ℕ} (h : p.fillAddr t addr time size compressed = some t') :
    ∃ idx evictIdx lines₁ block, p.probe t.lines addr (p.segNo size) = some (.miss idx evictIdx) ∧
      p.fillSegments t.lines idx evictIdx addr time (p.segNo size) compressed = some lines₁ ∧
      (lines₁ idx).fill time = some block ∧ t'.lines = Function.update lines₁ idx block := by
  obtain ⟨hl1d, hen⟩ := isL1D_of_isCompressed hcomp
  unfold fillAddr at h
  simp only [Option.bind_eq_bind, Option.bind_eq_some_iff, Option.guard_eq_some', exists_const] at h
  obtain ⟨-, h⟩ := h
  rw [if_neg (by simp [hl1d, hen])] at h
  simp only [Option.bind_eq_some_iff] at h
  obtain ⟨result, hprobe, h⟩ := h
  cases result with
  | miss idx evictIdx =>
    simp only [Option.bind_eq_some_iff, fillLine, Option.map_eq_some_iff] at h
    obtain ⟨lines₁, hsegs, lines₂, ⟨block, hblock, rfl⟩, ht⟩ := h
    obtain rfl := Option.some.inj ht
    exact ⟨idx, evictIdx, lines₁, block, hprobe, hsegs, hblock, rfl⟩
  | hit idx => exact absurd h (by simp)
  | hitReserved idx => exact absurd h (by simp)
  | reservationFail => exact absurd h (by simp)

/-- Only a reserved line is filled. -/
theorem sameSegments_fill {line block : CacheBlock} {time : UInt32} (h : line.fill time = some block) :
    SameSegments line block := by
  unfold CacheBlock.fill at h
  split_ifs at h with hreserved
  obtain rfl := Option.some.inj h
  exact ⟨rfl, rfl, rfl, fun hinv => absurd (hreserved.symm.trans hinv) nofun⟩

/-- **A fill.** -/
theorem setKept_fill (hcomp : p.isCompressed = true) {t t' : TagArray} {need : ℕ → NewAddrType → ℕ}
    {addr : NewAddrType} {time : UInt32} {size compressed : ℕ}
    (hkept : ∀ set, p.SetKept t.lines set (need set)) (hset : p.config.setIndex addr = some set)
    (hsize : p.segNo size ≤ p.maxSegNo)
    (h : p.fillAddr t addr time size compressed = some t') (set' : ℕ) :
    p.SetKept t'.lines set' (Function.update need set
      (Function.update (need set) (p.config.tag addr) (p.segNo size)) set') := by
  obtain ⟨idx, evictIdx, lines₁, block, hprobe, hsegs, hblock, hlines⟩ := fillAddr_eq hcomp h
  obtain ⟨⟨free, hlayout⟩, hfits⟩ := hkept set
  have hsize' : p.segNo size ≤ p.maxSegIdx + 1 := by
    unfold maxSegIdx
    omega
  obtain ⟨⟨a, k, ha, hka, hfree, rfl, rfl⟩, habsent⟩ := probe_miss hcomp hset hlayout hsize' hprobe
  obtain ⟨hout, ⟨free', -, hlayout'⟩, hpres, htag, -, hroom⟩ :=
    fillSegments_layout hlayout ha hka hfree hsegs
  have hfilled : ∀ set' w, SameSegments (p.way lines₁ set' w) (p.way t'.lines set' w) := by
    intro set' w
    unfold way
    rw [hlines]
    exact sameSegments_update (sameSegments_fill hblock) _
  by_cases hset' : set' = set
  · subst hset'
    rw [Function.update_self]
    have hplacedKept : p.SetKept lines₁ set'
        (Function.update (need set') (p.config.tag addr) (p.segNo size)) := by
      refine ⟨⟨free', hlayout'⟩, fun w hw hlive => ?_⟩
      by_cases hwa : w = a
      · subst hwa
        rw [htag, Function.update_self]
        exact hroom
      · obtain ⟨w', hw', -, htag', hst', hlen⟩ := hpres w hw hwa hlive
        have hold := hfits w' hw' (by rw [← hst']; exact hlive)
        -- no other live line has the tag of the new one
        have hne : (p.way lines₁ set' w).tag ≠ p.config.tag addr := by
          intro heq
          have := habsent w' hw' (by rw [← htag', heq])
          exact hlive (by rw [hst', this])
        rw [Function.update_of_ne hne, htag']
        exact Nat.le_trans hold hlen
    exact hplacedKept.congr fun w _ => hfilled set' w
  · rw [Function.update_of_ne hset']
    refine (hkept set').congr fun w hw => ?_
    have hsame : p.way lines₁ set' w = p.way t.lines set' w := by
      refine hout _ fun hin => ?_
      refine way_ne (p := p) (w := set' * p.tagAssocNo + w - set * p.tagAssocNo) hset' (by omega) hw ?_
      omega
    rw [← hsame]
    exact hfilled set' w

/-- An access of a cache that allocates on a fill only notes the time. -/
theorem sameSegments_access (hfill : p.config.allocPolicy = .onFill) {t t' : TagArray}
    {addr : NewAddrType} {time : UInt32} {result : ProbeResult} {evicted : Option CacheBlock}
    (h : p.access t addr time = some (result, evicted, t')) (i : ℕ) :
    SameSegments (t.lines i) (t'.lines i) := by
  unfold access at h
  simp only [Option.bind_eq_bind, Option.bind_eq_some_iff] at h
  obtain ⟨r, -, h⟩ := h
  cases r with
  | hit idx =>
    obtain ⟨-, -, rfl⟩ := by simpa using h
    refine sameSegments_update ?_ i
    exact ⟨rfl, rfl, rfl, id⟩
  | hitReserved idx =>
    obtain ⟨-, -, rfl⟩ := by simpa using h
    refine sameSegments_update ?_ i
    exact ⟨rfl, rfl, rfl, id⟩
  | miss idx evictIdx =>
    simp only [hfill, if_neg (show AllocationPolicy.onFill ≠ .onMiss from nofun)] at h
    obtain ⟨-, -, rfl⟩ := by simpa using h
    exact .refl _
  | reservationFail =>
    obtain ⟨-, -, rfl⟩ := by simpa using h
    exact .refl _

theorem setKept_setStatus {t : TagArray} {idx : ℕ} {status : CacheBlockState}
    (hkept : p.SetKept t.lines set need) (hst : (t.lines idx).status = .invalid → status = .invalid) :
    p.SetKept (setStatus t idx status).lines set need := by
  refine hkept.congr fun w _ => sameSegments_update ?_ _
  exact ⟨rfl, rfl, rfl, hst⟩

/-- **A flush** that clears the sets as wholes. -/
theorem setKept_flush (hcomp : p.isCompressed = true) {s : SegmentedRun}
    (hkept : p.SetKept s.array.lines set need) (hok : p.FlushOk s) :
    p.SetKept (p.flush s.array).lines set need := by
  obtain ⟨hl1d, hen⟩ := isL1D_of_isCompressed hcomp
  have hlines : ∀ i, (p.flush s.array).lines i =
      if i < p.config.getNumLines * 2 then
        { s.array.lines i with status := .invalid }.resetCompCacheInfo p.maxSegIdx
      else s.array.lines i := by
    intro i
    rw [flush, if_pos ⟨hl1d, by omega⟩]
  by_cases hset : set * p.tagAssocNo < p.config.getNumLines * 2
  · refine setKept_empty fun w hw => ?_
    unfold way
    rw [hlines]
    by_cases hcleared : set * p.tagAssocNo + w < p.config.getNumLines * 2
    · rw [if_pos hcleared]
      exact ⟨rfl, rfl, rfl⟩
    · rw [if_neg hcleared]
      exact hok set w hw hset (Nat.le_of_not_lt hcleared)
  · refine hkept.congr fun w _ => ?_
    unfold way
    rw [hlines, if_neg (by omega)]
    exact .refl _

/-! ## Runs keep the invariant -/

theorem run_concat (ops : List Op) (op : Op) :
    p.run (ops ++ [op]) = (p.run ops).bind fun s => p.exec1 s op := by
  unfold run
  cases p.newArray with
  | none => rfl
  | some array => simp [List.foldlM_append]

/-- One operation. -/
theorem setKept_exec1 (hcomp : p.isCompressed = true) (hfill : p.config.allocPolicy = .onFill)
    {s s' : SegmentedRun} {op : Op} (hkept : ∀ set, p.SetKept s.array.lines set (s.need set))
    (hsize : p.SizesOk [op]) (hok : op = .flush → p.FlushOk s) (h : p.exec1 s op = some s')
    (set : ℕ) : p.SetKept s'.array.lines set (s'.need set) := by
  cases op with
  | fill addr time compressedDataSize compressed =>
    simp only [exec1, Option.bind_eq_bind, Option.bind_eq_some_iff] at h
    obtain ⟨fillSet, hset, array, harray, hs'⟩ := h
    obtain rfl := Option.some.inj hs'
    exact setKept_fill hcomp hkept hset (hsize _ _ _ _ List.mem_cons_self) harray set
  | access addr time =>
    simp only [exec1, Option.bind_eq_bind, Option.bind_eq_some_iff] at h
    obtain ⟨⟨result, evicted, array⟩, harray, hs'⟩ := h
    obtain rfl := Option.some.inj hs'
    exact (hkept set).congr fun w _ => sameSegments_access hfill harray _
  | modify idx =>
    simp only [exec1] at h
    split_ifs at h with hdead
    obtain rfl := Option.some.inj h
    exact setKept_setStatus (hkept set) fun hinv => absurd (Or.inl hinv) hdead
  | invalidate idx =>
    obtain rfl := Option.some.inj h
    exact setKept_setStatus (hkept set) fun _ => rfl
  | flush =>
    obtain rfl := Option.some.inj h
    exact setKept_flush hcomp (hkept set) (hok rfl)

theorem setKept_run (hcomp : p.isCompressed = true) (hfill : p.config.allocPolicy = .onFill)
    {ops : List Op} (hsizes : p.SizesOk ops)
    (hflush : ∀ before after, ops = before ++ .flush :: after → ∀ t, p.run before = some t →
      p.FlushOk t) {s : SegmentedRun} (h : p.run ops = some s) (set : ℕ) :
    p.SetKept s.array.lines set (s.need set) := by
  induction ops using List.reverseRecOn generalizing s set with
  | nil =>
    obtain ⟨hl1d, hen⟩ := isL1D_of_isCompressed hcomp
    simp only [run, newArray, if_pos (show p.isL1D = true ∧ p.comp.hpclCacheCompEn ≠ 0 from
      ⟨hl1d, by omega⟩)] at h
    split_ifs at h
    · obtain rfl := Option.some.inj h
      exact setKept_empty fun w _ => ⟨rfl, rfl, rfl⟩
    · exact absurd h (by simp)
  | append_singleton ops op ih =>
    rw [run_concat] at h
    obtain ⟨t, ht, hop⟩ := Option.bind_eq_some_iff.1 h
    refine setKept_exec1 hcomp hfill (ih (fun addr time size compressed hmem => ?_) ?_ ht)
      (fun addr time size compressed hmem => ?_) (fun hop => ?_) hop set
    · exact hsizes addr time size compressed (by simp [hmem])
    · exact fun before after hsplit => hflush before (after ++ [op]) (by rw [hsplit]; simp)
    · exact hsizes addr time size compressed (by rw [List.mem_singleton.1 hmem]; simp)
    · exact hflush ops [] (by rw [hop]) t ht

/-- **The segments of every set are sound in every state reached**, when no flush of the run leaves a
part of a set behind. -/
theorem run_sound (hcomp : p.isCompressed = true) (hfill : p.config.allocPolicy = .onFill)
    {ops : List Op} (hsizes : p.SizesOk ops)
    (hflush : ∀ before after, ops = before ++ .flush :: after → ∀ t, p.run before = some t →
      p.FlushOk t) {s : SegmentedRun} (h : p.run ops = some s) (set : ℕ) :
    p.SetSound s.array.lines set (s.need set) := by
  refine (setKept_run hcomp hfill hsizes hflush h set).sound ?_
  obtain ⟨hl1d, hen⟩ := isL1D_of_isCompressed hcomp
  unfold run newArray at h
  rw [if_pos ⟨hl1d, by omega⟩] at h
  by_contra hmax
  rw [if_neg hmax] at h
  exact absurd h (by simp)

/-! ## Flushing a part of a set -/

/-- An L1 data cache of one line of 128 bytes in four segments, with some tags for the line. -/
def oneLine (hpclCompTagSizeMultiplier : ℕ) : TagParams where
  config :=
    { cls := .l1d, nset := 1, lineSz := 128, assoc := 1, replacementPolicy := .lru
      writePolicy := .writeEvict, allocPolicy := .onFill, writeAllocPolicy := .noWriteAllocate
      mshrType := .assoc, mshrEntries := 8, mshrMaxMerge := 8, missQueueSize := 8
      resultFifoEntries := 0, dataPortWidth := 128, setIndexFunction := .linear }
  comp := ⟨1, hpclCompTagSizeMultiplier, 32⟩
  isL1D := true

/-- A line of one segment, a flush, and a line of four. -/
def fillFlushFill : List Op := [.fill 0x80 1 32 1, .flush, .fill 0x100 2 128 0]

theorem sizesOk_fillFlushFill (multiplier : ℕ) : (oneLine multiplier).SizesOk fillFlushFill := by
  intro addr time size compressed h
  simp only [fillFlushFill, List.mem_cons, List.not_mem_nil, or_false, reduceCtorEq, false_or,
    Op.fill.injEq] at h
  rcases h with ⟨-, -, rfl, -⟩ | ⟨-, -, rfl, -⟩
  · exact (by decide : (32 + 32 - 1) / 32 ≤ 1 * 128 / 32)
  · exact (by decide : (128 + 32 - 1) / 32 ≤ 1 * 128 / 32)

/-- With two tags a line the flush clears whole sets. -/
theorem run_sound_twoTags : ∃ s, (oneLine 2).run fillFlushFill = some s ∧
    (oneLine 2).SetSound s.array.lines 0 (s.need 0) := by
  obtain ⟨s, hs⟩ := Option.isSome_iff_exists.1
    (show ((oneLine 2).run fillFlushFill).isSome = true by decide)
  refine ⟨s, hs, run_sound rfl rfl (sizesOk_fillFlushFill 2) (fun _ _ _ t _ set w hw hset hkept => ?_)
    hs 0⟩
  change w < 2 at hw
  change set * 2 < 2 at hset
  change 2 ≤ set * 2 + w at hkept
  omega

/-- **With four tags a line the flush clears two ways of the four**: the line in the last way keeps its
segment, and the next fill takes all segments for another way. -/
theorem not_sound : ∃ (p : TagParams) (ops : List Op) (s : SegmentedRun), p.isCompressed = true ∧
    p.config.allocPolicy = .onFill ∧ p.SizesOk ops ∧ p.run ops = some s ∧
    ¬ p.SetSound s.array.lines 0 (s.need 0) := by
  obtain ⟨s, hs⟩ := Option.isSome_iff_exists.1
    (show ((oneLine 4).run fillFlushFill).isSome = true by decide)
  refine ⟨oneLine 4, fillFlushFill, s, rfl, rfl, sizesOk_fillFlushFill 4, hs, fun hsound => ?_⟩
  have hways : ((oneLine 4).run fillFlushFill).map (fun s => (s.array.lines 1, s.array.lines 3)) =
      some ({ tag := 0x100, blockAddr := 0x100, allocTime := 2, lastAccessTime := 2, fillTime := 2,
              status := .valid, startSegIdx := 0, endSegIdx := 3, compressed := 0 },
            { tag := 0x80, blockAddr := 0x80, allocTime := 1, lastAccessTime := 1, fillTime := 1,
              status := .valid, startSegIdx := 0, endSegIdx := 0, compressed := 1 }) := by decide
  rw [hs, Option.map_some, Option.some.injEq, Prod.mk.injEq] at hways
  have hdisj := hsound.disjoint 1 (by decide) 3 (by decide) (by decide)
  change (s.array.lines 1).status ≠ _ → (s.array.lines 3).status ≠ _ →
    Disjoint (segments (s.array.lines 1)) (segments (s.array.lines 3)) at hdisj
  rw [hways.1, hways.2] at hdisj
  exact absurd (hdisj nofun nofun) (by decide)

end TagParams

end CompressionWork.Cache
