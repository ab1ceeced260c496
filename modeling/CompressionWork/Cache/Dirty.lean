import CompressionWork.Cache.Atomic
import CompressionWork.Cache.Once

/-!
# Changes that memory does not have

A line in state `MODIFIED` may hold data that was never sent to memory.

* `DirtyRun` — a cache with the blocks whose changes were not sent.
* `Drops` — the branches that give such a line up without a write-back: a write-evict hit, a miss of a
  write-through cache, and a fill of a cache that allocates on a fill.
* `step_dirty` — what else an operation may do to a line that was changed.
* `changes_saved` — a step that takes none of these branches on such a line saves its changes.
-/

namespace CompressionWork.Cache

open Transition

/-! ## Lines -/

namespace TagParams

variable {p : TagParams} {lines lines' lines'' : Lines} {addr : NewAddrType} {idx : ℕ} {time : UInt32}
  {t t' : TagArray} {result : ProbeResult} {gone : ℕ → Prop} {evictIdx : List ℕ}

/-- A line in use knows the address of its block, which is its tag. -/
def Named (lines : Lines) : Prop :=
  ∀ i, (lines i).status ≠ .invalid → (lines i).blockAddr = (lines i).tag

/-- The changed lines but some are still there. -/
structure KeepsBut (gone : ℕ → Prop) (lines lines' : Lines) : Prop where
  dirty : ∀ i, (lines i).status = .modified → ¬ gone i →
    ∃ j, (lines' j).tag = (lines i).tag ∧ (lines' j).status = .modified
  named : Named lines → Named lines'

theorem keepsBut_refl : KeepsBut gone lines lines :=
  ⟨fun i hi _ => ⟨i, rfl, hi⟩, id⟩

theorem KeepsBut.trans (h : KeepsBut gone lines lines')
    (h' : KeepsBut (fun _ => False) lines' lines'') : KeepsBut gone lines lines'' := by
  refine ⟨fun i hi hgone => ?_, fun hnamed => h'.named (h.named hnamed)⟩
  obtain ⟨j, htag, hj⟩ := h.dirty i hi hgone
  obtain ⟨j', htag', hj'⟩ := h'.dirty j hj id
  exact ⟨j', htag'.trans htag, hj'⟩

theorem KeepsBut.mono {gone' : ℕ → Prop} (h : KeepsBut gone lines lines')
    (hsub : ∀ i, (lines i).status = .modified → gone i → gone' i) : KeepsBut gone' lines lines' :=
  ⟨fun i hi hgone => h.dirty i hi fun hi' => hgone (hsub i hi hi'), h.named⟩

theorem keepsBut_update {block : CacheBlock}
    (hdirty : (lines idx).status = .modified → ¬ gone idx →
      block.tag = (lines idx).tag ∧ block.status = .modified)
    (hnamed : Named lines → block.status ≠ .invalid → block.blockAddr = block.tag) :
    KeepsBut gone lines (Function.update lines idx block) := by
  refine ⟨fun i hi hgone => ?_, fun hold i hlive => ?_⟩
  · by_cases heq : i = idx
    · subst heq
      obtain ⟨htag, hstatus⟩ := hdirty hi hgone
      refine ⟨i, ?_⟩
      rw [Function.update_self]
      exact ⟨htag, hstatus⟩
    · refine ⟨i, ?_⟩
      rw [Function.update_of_ne heq]
      exact ⟨rfl, hi⟩
  · by_cases heq : i = idx
    · subst heq
      rw [Function.update_self] at hlive ⊢
      exact hnamed hold hlive
    · rw [Function.update_of_ne heq] at hlive ⊢
      exact hold i hlive

/-- Another access to a line. -/
theorem keepsBut_lastAccessTime :
    KeepsBut gone lines (Function.update lines idx { lines idx with lastAccessTime := time }) :=
  keepsBut_update (fun hmod _ => ⟨rfl, hmod⟩) fun hnamed hlive => hnamed idx hlive

/-- A line that goes to a block. -/
theorem keepsBut_allocate {startSegIdx endSegIdx compressed : ℕ} (hgone : gone idx) :
    KeepsBut gone lines (Function.update lines idx ((lines idx).allocate (p.config.tag addr)
      (p.config.blockAddr addr) time startSegIdx endSegIdx compressed)) :=
  keepsBut_update (fun _ hnot => absurd hgone hnot) fun _ _ => rfl

theorem setStatus_keepsBut (hlive : (t.lines idx).status ≠ .invalid) :
    KeepsBut gone t.lines (CacheParams.setStatus t idx .modified).lines :=
  keepsBut_update (fun _ _ => ⟨rfl, rfl⟩) fun hnamed _ => hnamed idx hlive

/-- The line that an access replaces. -/
theorem access_evicted {evicted : Option CacheBlock}
    (h : p.access t addr time = some (.miss idx evictIdx, evicted, t'))
    (hpolicy : p.config.allocPolicy = .onMiss) (hmod : (t.lines idx).status = .modified) :
    evicted = some (t.lines idx) := by
  simp only [access, Option.bind_eq_bind, Option.bind_eq_some_iff, Option.pure_def] at h
  obtain ⟨result, -, h⟩ := h
  cases result with
  | hit idx => cases h
  | hitReserved idx => cases h
  | reservationFail => cases h
  | miss i evict =>
      dsimp only at h
      rw [if_pos hpolicy] at h
      obtain ⟨hresult, hevicted, -⟩ := Prod.mk.inj (Option.some.inj h) |>.imp id Prod.mk.inj
      obtain ⟨rfl, -⟩ := ProbeResult.miss.inj hresult
      rw [if_pos hmod] at hevicted
      exact hevicted.symm

theorem access_keepsBut {evicted : Option CacheBlock}
    (h : p.access t addr time = some (result, evicted, t')) :
    KeepsBut (fun i => p.config.allocPolicy = .onMiss ∧ ∃ evictIdx, result = .miss i evictIdx)
      t.lines t'.lines := by
  obtain ⟨-, hlines⟩ := access_cases h
  cases result with
  | hit idx =>
      dsimp only at hlines
      rw [hlines]
      exact keepsBut_lastAccessTime
  | hitReserved idx =>
      dsimp only at hlines
      rw [hlines]
      exact keepsBut_lastAccessTime
  | reservationFail =>
      dsimp only at hlines
      rw [hlines]
      exact keepsBut_refl
  | miss idx evictIdx =>
      dsimp only at hlines
      rw [hlines]
      split
      case isTrue hpolicy => exact keepsBut_allocate ⟨hpolicy, evictIdx, rfl⟩
      case isFalse => exact keepsBut_refl

/-! ## Fills -/

theorem mem_linesBelow {i k : ℕ} (hle : idx - k ≤ i) (hlt : i < idx) : i ∈ linesBelow idx k :=
  List.mem_map.2 ⟨idx - 1 - i, List.mem_range.2 (by omega), by omega⟩

theorem Named.alike {i j : ℕ} (h : Named lines) (halike : Alike (lines i) (lines' j))
    (hlive : (lines' j).status ≠ .invalid) : (lines' j).blockAddr = (lines' j).tag := by
  rw [halike.status] at hlive
  rw [halike.blockAddr, halike.tag]
  exact h i hlive

/-- The lines that move stay changed; only the evicted ones go. -/
theorem Settled.keepsBut (h : p.Settled lines lines' idx evictIdx)
    (hbelow : 2 ≤ p.tagAssocNo → evictIdx = linesBelow idx evictIdx.length) (hpos : 0 < p.assocNo)
    (hres : (lines' idx).status = .reserved) :
    KeepsBut (fun i => i = idx ∨ i ∈ evictIdx) lines lines' := by
  rcases h with ⟨-, halike⟩ | ⟨hcomp, endSegIdx, rfl⟩
  · refine ⟨fun i hi _ => ⟨i, (halike i).tag, ?_⟩, fun hnamed i hlive => hnamed.alike (halike i) hlive⟩
    rw [(halike i).status]
    exact hi
  rw [assocNo_of_isCompressed hcomp] at hpos
  obtain ⟨set, w, hw, rfl⟩ := exists_start (p := p) idx
  have hlt : w < p.tagAssocNo := hw ▸ Nat.mod_lt _ hpos
  generalize set * p.tagAssocNo = c at hw hbelow hres ⊢
  generalize evictIdx.length = k at hbelow hres ⊢
  -- the new line is not among the lines that the shift frees
  have hroom : ¬ (c ≤ c + w ∧ c + w < c + k) := by
    intro hfree
    rw [(shift_alike hw (c + w)).1 hfree] at hres
    cases hres
  have hmoved : ∀ i, (lines i).status = .modified → ∀ j, ¬ (c ≤ j ∧ j < c + k) →
      (if c + k ≤ j ∧ j < c + w then j - k else j) = i →
      ∃ j, (p.shift lines (c + w) endSegIdx k j).tag = (lines i).tag ∧
        (p.shift lines (c + w) endSegIdx k j).status = .modified := by
    rintro i hi j hj rfl
    have halike : Alike (lines (if c + k ≤ j ∧ j < c + w then j - k else j))
        (p.shift lines (c + w) endSegIdx k j) := (shift_alike hw j).2 hj
    exact ⟨j, halike.tag, halike.status.trans hi⟩
  refine ⟨fun i hi hgone => ?_, fun hnamed j hlive => ?_⟩
  · by_cases hin : c ≤ i ∧ i < c + w
    · by_cases hstay : i + k < c + w
      · apply hmoved i hi (i + k) (by omega)
        rw [if_pos (by omega), Nat.add_sub_cancel]
      · refine absurd (Or.inr ?_) hgone
        rw [hbelow (by omega)]
        exact mem_linesBelow (by omega) hin.2
    · have hne : i ≠ c + w := fun heq => hgone (Or.inl heq)
      apply hmoved i hi i (by omega)
      rw [if_neg (by omega)]
  · have hfree : ¬ (c ≤ j ∧ j < c + k) := fun hfree => hlive ((shift_alike hw j).1 hfree)
    exact hnamed.alike ((shift_alike hw j).2 hfree) hlive

/-- **A fill** gives up the line that it takes and those that it evicts with it. -/
theorem fillAddr_keepsBut {size compressed : ℕ}
    (h : p.fillAddr t addr time size compressed = some t') :
    ∃ idx evictIdx, p.probe t.lines addr (p.fillSegNo size) = some (.miss idx evictIdx) ∧
      KeepsBut (fun i => i = idx ∨ i ∈ evictIdx) t.lines t'.lines := by
  obtain ⟨idx, evictIdx, lines, block, hprobe, htag, hblock, hsettled, hres, hlines⟩ := fillAddr_cases h
  have hmiss := probe_miss_cases hprobe
  refine ⟨idx, evictIdx, hprobe, ?_⟩
  have hsettled := hsettled.keepsBut hmiss.below hmiss.pos hres
  have hplaced : KeepsBut (fun i => i = idx ∨ i ∈ evictIdx) t.lines lines := by
    refine ⟨fun i hi hgone => ?_, fun hnamed => ?_⟩
    · have hne : i ≠ idx := fun heq => hgone (Or.inl heq)
      have hold := hsettled.dirty i
      rw [Function.update_of_ne hne] at hold
      exact hold hi hgone
    · apply hsettled.named
      intro i hlive
      by_cases heq : i = idx
      · subst heq
        rw [Function.update_self]
        exact hblock.trans htag.symm
      · rw [Function.update_of_ne heq] at hlive ⊢
        exact hnamed i hlive
  rw [hlines]
  apply hplaced.trans
  apply keepsBut_update
  · intro hmod
    simp [hres] at hmod
  · exact fun hnamed _ => hnamed idx (by simp [hres])

end TagParams

namespace CacheParams

open TagParams

/-! ## What is asked for -/

/-- A line of the cache is changed, and holds this block. -/
def Dirty (c : BaselineCache) (b : NewAddrType) : Prop :=
  ∃ i, (c.tagArray.lines i).tag = b ∧ (c.tagArray.lines i).status = .modified

/-- A step puts the request into the miss queue. -/
def Queued (c c' : BaselineCache) (mf : MemFetch) : Prop :=
  ∃ q, c'.missQueue = c.missQueue ++ q ∧ mf ∈ q

variable (p : CacheParams)

/-- A step puts a write-back of the block into the miss queue. -/
def WrittenBack (c c' : BaselineCache) (b : NewAddrType) : Prop :=
  ∃ wb, Queued c c' wb ∧ wb.isWrite = true ∧ wb.accessType = p.wrbkType ∧ wb.addr = b

/-- An operation changes the block in the cache: a write or an atomic that hits, or the response to an
atomic. -/
def Changes (c : BaselineCache) : CacheOp → NewAddrType → Prop
  | .access addr mf time, b =>
      b = p.config.blockAddr addr ∧ (mf.isWrite = true ∨ mf.isAtomic = true) ∧
        p.config.writePolicy ≠ .readOnly ∧
        ∃ o, p.dataAccess c addr mf time [] = some o ∧ o.status = .hit
  | .fill mf _, b =>
      ∃ fields mshrs, c.extraMfFields.lookup mf.requestUid = some fields ∧ fields.blockAddr = b ∧
        c.mshrs.markReady b = some (mshrs, true)
  | _, _ => False

/-- A step sends the write that it makes. -/
def Sends (c c' : BaselineCache) : CacheOp → Prop
  | .access _ mf _ => mf.isWrite = true ∧ Queued c c' mf
  | _ => False

/-- A write to the whole block. -/
def WholeBlock (mf : MemFetch) (b : NewAddrType) : Prop :=
  mf.addr = b ∧ mf.dataSize = p.config.lineSz.toNat

/-- A step sends a write of the whole block. -/
def SendsBlock (c c' : BaselineCache) : CacheOp → NewAddrType → Prop
  | .access _ mf _, b => mf.isWrite = true ∧ Queued c c' mf ∧ p.WholeBlock mf b
  | _, _ => False

/-- A cache, and the blocks that it has changed without sending the change. -/
structure DirtyRun where
  cache : BaselineCache
  unsent : NewAddrType → Prop

/-- The blocks with changes that were not sent, after a step. -/
def unsentAfter (s : DirtyRun) (op : CacheOp) (c' : BaselineCache) (b : NewAddrType) : Prop :=
  Dirty c' b ∧ ((s.unsent b ∧ ¬ p.SendsBlock s.cache c' op b) ∨
    (p.Changes s.cache op b ∧ ¬ Sends s.cache c' op))

/-- At the start no line holds a change that is not sent. -/
def DirtyStart (s : DirtyRun) : Prop := p.Start s.cache ∧ s.unsent = fun _ => False

/-- A step of the cache, and what it makes of the changes that are not sent. -/
def DirtyStep (s : DirtyRun) (op : CacheOp) (s' : DirtyRun) : Prop :=
  p.Step s.cache op s'.cache ∧ s'.unsent = p.unsentAfter s op s'.cache

/-- The changes of a block are safe: they are written back, or all of them were sent, or this step sends
the whole block. -/
def Saved (s : DirtyRun) (op : CacheOp) (c' : BaselineCache) (b : NewAddrType) : Prop :=
  p.WrittenBack s.cache c' b ∨ ¬ s.unsent b ∨ p.SendsBlock s.cache c' op b

/-! ## The branches that give a line up -/

/-- A write hit that sends the write and invalidates the line. -/
def EvictsOnHit (c : BaselineCache) (addr : NewAddrType) (mf : MemFetch) (i : ℕ) : Prop :=
  mf.isWrite = true ∧
    (p.config.writePolicy = .writeEvict ∨
      p.config.writePolicy = .localWbGlobalWt ∧ mf.accessType = .globalAccW) ∧
    p.probe c.tagArray.lines (p.config.blockAddr addr) 0 = some (.hit i) ∧
    p.missQueueFull c 0 = false

/-- A miss that takes the line. -/
def Replaces (c : BaselineCache) (addr : NewAddrType) (mf : MemFetch) (i : ℕ) : Prop :=
  p.config.allocPolicy = .onMiss ∧
    (∃ evictIdx, p.probe c.tagArray.lines (p.config.blockAddr addr) 0 = some (.miss i evictIdx)) ∧
    HasRoom p c (p.config.blockAddr addr) ∧
    (mf.isWrite = true → p.config.writeAllocPolicy = .writeAllocate) ∧
    p.missQueueFull c (if mf.isWrite then 2 else 1) = false

/-- The number of bytes that a response brings to a compressed cache. -/
def fillBytes (fields : ExtraMfFields) (mf : MemFetch) : Option ℕ :=
  if p.comp.hpclCacheCompEn = 0 ∨ ¬ p.isL1D then some 0
  else (fillSize { mf with dataSize := fields.dataSize }).map Prod.fst

/-- A response that takes the line, or evicts it with the line that it takes. -/
def GivesUp (c : BaselineCache) (mf : MemFetch) (i : ℕ) : Prop :=
  p.config.allocPolicy = .onFill ∧ ∃ fields size idx evictIdx,
    c.extraMfFields.lookup mf.requestUid = some fields ∧ p.fillBytes fields mf = some size ∧
    p.probe c.tagArray.lines fields.blockAddr (p.fillSegNo size) = some (.miss idx evictIdx) ∧
    (i = idx ∨ i ∈ evictIdx)

/-- **The condition**: none of these branches is taken on a line with changes that were not sent, but for
a write-evict of the whole block. -/
def Spares (s : DirtyRun) : CacheOp → Prop
  | .access addr mf _ => ∀ i, (s.cache.tagArray.lines i).status = .modified →
      s.unsent (s.cache.tagArray.lines i).tag →
      (p.EvictsOnHit s.cache addr mf i → p.WholeBlock mf (s.cache.tagArray.lines i).tag) ∧
        ¬ (p.config.writePolicy = .writeThrough ∧ p.Replaces s.cache addr mf i)
  | .fill mf _ => ∀ i, (s.cache.tagArray.lines i).status = .modified →
      s.unsent (s.cache.tagArray.lines i).tag → ¬ p.GivesUp s.cache mf i
  | _ => True

/-- The lines that a step may give up. -/
def Drops (c c' : BaselineCache) : CacheOp → ℕ → Prop
  | .access addr mf _, i =>
      p.WrittenBack c c' (c.tagArray.lines i).blockAddr ∨
        (p.EvictsOnHit c addr mf i ∧ Queued c c' mf) ∨
        (p.config.writePolicy = .writeThrough ∧ p.Replaces c addr mf i)
  | .fill mf _, i => p.GivesUp c mf i
  | _, _ => False

variable {p} {c c' : BaselineCache} {addr blockAddr : NewAddrType} {mf : MemFetch} {time : UInt32}
  {events : List CacheEvent} {o : Outcome} {cacheIndex idx : ℕ} {readOnly wa : Bool}
  {probeStatus : ProbeResult} {gone : ℕ → Prop}

/-! ## Hits -/

theorem accessNoWb_keepsBut {t t' : TagArray} {result : ProbeResult}
    (hprobe : p.probe t.lines addr 0 = some (.hit idx))
    (h : p.accessNoWb t addr time = some (result, t')) :
    result = .hit idx ∧ (∀ gone : ℕ → Prop, KeepsBut gone t.lines t'.lines) ∧
      (t'.lines idx).status ≠ .invalid := by
  obtain ⟨rfl, -, hlive, -⟩ := accessNoWb_found hprobe h
  refine ⟨rfl, fun gone => (access_keepsBut (access_of_accessNoWb h)).mono ?_, hlive⟩
  rintro i - ⟨-, _, hmiss⟩
  cases hmiss

theorem wrHitWb_keepsBut
    (hprobe : p.probe c.tagArray.lines (p.config.blockAddr addr) 0 = some (.hit idx))
    (h : p.wrHitWb c addr cacheIndex mf time events = some o) :
    KeepsBut gone c.tagArray.lines o.cache.tagArray.lines := by
  simp only [wrHitWb, Option.bind_eq_bind, Option.bind_eq_some_iff, Option.pure_def,
    Option.some.injEq] at h
  obtain ⟨⟨result, t⟩, haccess, rfl⟩ := h
  obtain ⟨rfl, hkeeps, hlive⟩ := accessNoWb_keepsBut hprobe haccess
  exact (hkeeps gone).trans (setStatus_keepsBut hlive)

theorem wrHitWt_keepsBut
    (hprobe : p.probe c.tagArray.lines (p.config.blockAddr addr) 0 = some (.hit idx))
    (h : p.wrHitWt c addr cacheIndex mf time events = some o) :
    KeepsBut gone c.tagArray.lines o.cache.tagArray.lines := by
  unfold wrHitWt at h
  split at h
  · rw [← Option.some.inj h]
    exact keepsBut_refl
  · simp only [Option.bind_eq_bind, Option.bind_eq_some_iff, Option.pure_def,
      Option.some.injEq] at h
    obtain ⟨⟨result, t⟩, haccess, rfl⟩ := h
    obtain ⟨rfl, hkeeps, hlive⟩ := accessNoWb_keepsBut hprobe haccess
    exact (hkeeps gone).trans (setStatus_keepsBut hlive)

theorem rdHitBase_keepsBut
    (hprobe : p.probe c.tagArray.lines (p.config.blockAddr addr) 0 = some (.hit idx))
    (h : p.rdHitBase c addr cacheIndex mf time events = some o) :
    KeepsBut gone c.tagArray.lines o.cache.tagArray.lines := by
  simp only [rdHitBase, Option.bind_eq_bind, Option.bind_eq_some_iff] at h
  obtain ⟨⟨result, t⟩, haccess, h⟩ := h
  obtain ⟨rfl, hkeeps, hlive⟩ := accessNoWb_keepsBut hprobe haccess
  split at h
  · simp only [Option.pure_def, Option.bind_eq_some_iff, Option.some.injEq] at h
    obtain ⟨_, -, rfl⟩ := h
    exact (hkeeps gone).trans (setStatus_keepsBut hlive)
  · rw [← Option.some.inj h]
    exact hkeeps gone

/-- A write-evict gives up the line that it hits, and sends the write. -/
theorem wrHitWe_keepsBut (h : p.wrHitWe c idx mf events = some o) :
    KeepsBut (fun i => i = idx ∧ p.missQueueFull c 0 = false ∧ Queued c o.cache mf)
      c.tagArray.lines o.cache.tagArray.lines := by
  unfold wrHitWe at h
  split at h
  case isTrue =>
    rw [← Option.some.inj h]
    exact keepsBut_refl
  case isFalse hroom =>
    rw [← Option.some.inj h]
    apply keepsBut_update
    · exact fun _ hnot => absurd ⟨rfl, by simpa using hroom, [mf], rfl, by simp⟩ hnot
    · exact fun _ hlive => absurd rfl hlive

theorem wrHit_keepsBut (hwrite : mf.isWrite = true)
    (hprobe : p.probe c.tagArray.lines (p.config.blockAddr addr) 0 = some (.hit idx))
    (h : p.wrHit c addr idx mf time events = some o) :
    KeepsBut (p.Drops c o.cache (.access addr mf time)) c.tagArray.lines o.cache.tagArray.lines := by
  have hevicts : (p.config.writePolicy = .writeEvict ∨
      p.config.writePolicy = .localWbGlobalWt ∧ mf.accessType = .globalAccW) →
      p.wrHitWe c idx mf events = some o →
      KeepsBut (p.Drops c o.cache (.access addr mf time)) c.tagArray.lines o.cache.tagArray.lines := by
    intro hpolicy h
    apply (wrHitWe_keepsBut h).mono
    rintro i - ⟨rfl, hroom, hqueued⟩
    exact Or.inr (Or.inl ⟨⟨hwrite, hpolicy, hprobe, hroom⟩, hqueued⟩)
  unfold wrHit at h
  split at h
  case h_1 => cases h
  case h_2 => exact wrHitWb_keepsBut hprobe h
  case h_3 => exact wrHitWt_keepsBut hprobe h
  case h_4 hpolicy => exact hevicts (Or.inl hpolicy) h
  case h_5 hpolicy =>
    unfold wrHitGlobalWeLocalWb at h
    split at h
    case isTrue htype => exact hevicts (Or.inr ⟨hpolicy, htype⟩) h
    case isFalse => exact wrHitWb_keepsBut hprobe h

/-! ## Misses -/

theorem readAccess_evicted {evictIdx : List ℕ} {evicted : Option CacheBlock} {t' : TagArray}
    (h : p.readAccess c blockAddr time readOnly = some (.miss idx evictIdx, evicted, t'))
    (hpolicy : p.config.allocPolicy = .onMiss)
    (hmod : (c.tagArray.lines idx).status = .modified) :
    readOnly = false ∧ evicted = some (c.tagArray.lines idx) := by
  unfold readAccess at h
  split at h
  case isTrue =>
    -- a read-only cache does not replace a line that was changed
    obtain ⟨⟨_, _⟩, haccess, heq⟩ := Option.map_eq_some_iff.1 h
    cases heq
    have hnone := access_evicted (access_of_accessNoWb haccess) hpolicy hmod
    cases hnone
  case isFalse hreadOnly => exact ⟨by simpa using hreadOnly, access_evicted h hpolicy hmod⟩

theorem sendReadRequest_of_not_hasRoom {r : ReadRequest} (hroom : ¬ HasRoom p c blockAddr)
    (h : p.sendReadRequest c blockAddr cacheIndex mf time events readOnly wa = some r) :
    r = ⟨false, none, c, mf, events⟩ := by
  unfold sendReadRequest at h
  rw [if_neg, if_neg] at h
  · exact (Option.some.inj h).symm
  · rintro ⟨-, havail, hqueue⟩
    exact hroom ⟨by simpa using havail, Or.inr hqueue⟩
  · rintro ⟨hhit, havail⟩
    exact hroom ⟨by simpa using havail, Or.inl hhit⟩

/-- A read request gives up the line that its access replaces, and returns it when it was changed. -/
theorem sendReadRequest_dirty {r : ReadRequest}
    (hprobe : p.probe c.tagArray.lines blockAddr 0 = some probeStatus)
    (h : p.sendReadRequest c blockAddr cacheIndex mf time events readOnly wa = some r) :
    r = ⟨false, none, c, mf, events⟩ ∨
      r.doMiss = true ∧ HasRoom p c blockAddr ∧
        (∃ q, r.cache.missQueue = c.missQueue ++ q) ∧
        KeepsBut (fun i => p.config.allocPolicy = .onMiss ∧ ∃ evictIdx, probeStatus = .miss i evictIdx)
          c.tagArray.lines r.cache.tagArray.lines ∧
        ∀ i evictIdx, p.config.allocPolicy = .onMiss → probeStatus = .miss i evictIdx →
          (c.tagArray.lines i).status = .modified →
          readOnly = false ∧ r.evicted = some (c.tagArray.lines i) := by
  by_cases hroom : HasRoom p c blockAddr
  swap
  · exact Or.inl (sendReadRequest_of_not_hasRoom hroom h)
  have hshape : ∀ {result evicted tagArray},
      p.readAccess c blockAddr time readOnly = some (result, evicted, tagArray) →
      KeepsBut (fun i => p.config.allocPolicy = .onMiss ∧ ∃ evictIdx, probeStatus = .miss i evictIdx)
          c.tagArray.lines tagArray.lines ∧
        ∀ i evictIdx, p.config.allocPolicy = .onMiss → probeStatus = .miss i evictIdx →
          (c.tagArray.lines i).status = .modified →
          readOnly = false ∧ evicted = some (c.tagArray.lines i) := by
    intro result evicted tagArray hread
    obtain ⟨_, haccess⟩ := access_of_readAccess hread
    obtain rfl : probeStatus = result :=
      Option.some.inj (hprobe.symm.trans (access_cases haccess).1)
    refine ⟨access_keepsBut haccess, ?_⟩
    rintro i evictIdx hpolicy rfl hmod
    exact readAccess_evicted hread hpolicy hmod
  rcases sendReadRequest_cases h with
    rfl | ⟨_, _, _, _, hread, -, -, ⟨-, rfl⟩ | ⟨-, _, rfl⟩⟩
  · exact Or.inl rfl
  · exact Or.inr ⟨rfl, hroom, ⟨[], by simp⟩, hshape hread⟩
  · exact Or.inr ⟨rfl, hroom, ⟨_, rfl⟩, hshape hread⟩

/-- The write-back of a line that was replaced is in the queue. -/
theorem writtenBack_allocWriteBack {line : CacheBlock} {r : BaselineCache} {q : List MemFetch}
    (hqueue : r.missQueue = c.missQueue ++ q) :
    p.WrittenBack c { (p.allocWriteBack r line).2 with
      missQueue := r.missQueue ++ [(p.allocWriteBack r line).1] } line.blockAddr := by
  refine ⟨(p.allocWriteBack r line).1, ⟨q ++ [(p.allocWriteBack r line).1], ?_, by simp⟩, rfl, rfl, rfl⟩
  show r.missQueue ++ _ = _
  rw [hqueue, List.append_assoc]

theorem wrMissWa_keepsBut (hwrite : mf.isWrite = true)
    (hwa : p.config.writeAllocPolicy = .writeAllocate)
    (hprobe : p.probe c.tagArray.lines (p.config.blockAddr addr) 0 = some probeStatus)
    (h : p.wrMissWa c addr cacheIndex mf time events = some o) :
    KeepsBut (p.Drops c o.cache (.access addr mf time)) c.tagArray.lines o.cache.tagArray.lines := by
  unfold wrMissWa at h
  dsimp only at h
  split at h
  case isTrue =>
    rw [← Option.some.inj h]
    exact keepsBut_refl
  case isFalse hfull =>
    simp only [sendWriteRequest, Option.bind_eq_bind, Option.bind_eq_some_iff] at h
    obtain ⟨r, hr, h⟩ := h
    have hsend := sendReadRequest_dirty (c := { c with
      missQueue := c.missQueue ++ [mf], nextRequestUid := c.nextRequestUid + 1 }) hprobe hr
    dsimp only at hsend
    rcases hsend with rfl | ⟨hdo, hroom, ⟨q, hq⟩, hkeeps, hevicted⟩
    · rw [if_neg (by simp)] at h
      rw [← Option.some.inj h]
      exact keepsBut_refl
    · have hqueue : r.cache.missQueue = c.missQueue ++ ([mf] ++ q) := by
        rw [hq, List.append_assoc]
      have hreplaces : ∀ i evictIdx, p.config.allocPolicy = .onMiss →
          probeStatus = .miss i evictIdx → p.Replaces c addr mf i := by
        rintro i evictIdx hpolicy rfl
        refine ⟨hpolicy, ⟨evictIdx, hprobe⟩, ⟨hroom.1, ?_⟩, fun _ => hwa, ?_⟩
        · refine hroom.2.imp_right fun hlt => ?_
          simp only [List.length_append, List.length_singleton] at hlt
          omega
        · rw [if_pos hwrite]
          simpa using fun hnot => hfull (Or.inl hnot)
      rw [if_pos hdo] at h
      split at h
      case h_1 line hline =>
        split at h
        case isTrue =>
          rw [← Option.some.inj h]
          apply hkeeps.mono
          rintro i hmod ⟨hpolicy, evictIdx, hmiss⟩
          obtain rfl : c.tagArray.lines i = line :=
            Option.some.inj ((hevicted i evictIdx hpolicy hmiss hmod).2.symm.trans hline)
          exact Or.inl (writtenBack_allocWriteBack hqueue)
        case isFalse hthrough =>
          rw [← Option.some.inj h]
          apply hkeeps.mono
          rintro i hmod ⟨hpolicy, evictIdx, hmiss⟩
          exact Or.inr (Or.inr ⟨not_not.1 hthrough, hreplaces i evictIdx hpolicy hmiss⟩)
      case h_2 hnone =>
        rw [← Option.some.inj h]
        apply hkeeps.mono
        rintro i hmod ⟨hpolicy, evictIdx, hmiss⟩
        have hline := (hevicted i evictIdx hpolicy hmiss hmod).2
        simp [hnone] at hline

theorem wrMissNoWa_keepsBut (h : p.wrMissNoWa c mf events = some o) :
    KeepsBut gone c.tagArray.lines o.cache.tagArray.lines := by
  unfold wrMissNoWa at h
  split at h <;> rw [← Option.some.inj h] <;> exact keepsBut_refl

theorem rdMissBase_keepsBut (hread : mf.isWrite = false)
    (hprobe : p.probe c.tagArray.lines (p.config.blockAddr addr) 0 = some probeStatus)
    (h : p.rdMissBase c addr cacheIndex mf time events = some o) :
    KeepsBut (p.Drops c o.cache (.access addr mf time)) c.tagArray.lines o.cache.tagArray.lines := by
  unfold rdMissBase at h
  split at h
  case isTrue =>
    rw [← Option.some.inj h]
    exact keepsBut_refl
  case isFalse hfull =>
    simp only [sendWriteRequest, Option.bind_eq_bind, Option.bind_eq_some_iff] at h
    obtain ⟨r, hr, h⟩ := h
    rcases sendReadRequest_dirty hprobe hr with rfl | ⟨hdo, hroom, ⟨q, hq⟩, hkeeps, hevicted⟩
    · rw [if_neg (by simp)] at h
      rw [← Option.some.inj h]
      exact keepsBut_refl
    · rw [if_pos hdo] at h
      split at h
      case h_1 line hline =>
        split at h
        case isTrue =>
          rw [← Option.some.inj h]
          apply hkeeps.mono
          rintro i hmod ⟨hpolicy, evictIdx, hmiss⟩
          obtain rfl : c.tagArray.lines i = line :=
            Option.some.inj ((hevicted i evictIdx hpolicy hmiss hmod).2.symm.trans hline)
          exact Or.inl (writtenBack_allocWriteBack hq)
        case isFalse hthrough =>
          rw [← Option.some.inj h]
          apply hkeeps.mono
          rintro i hmod ⟨hpolicy, evictIdx, rfl⟩
          refine Or.inr (Or.inr ⟨not_not.1 hthrough, hpolicy, ⟨evictIdx, hprobe⟩, hroom, ?_, ?_⟩)
          · rw [hread]
            exact fun hwrite => absurd hwrite Bool.false_ne_true
          · rw [hread]
            simpa using hfull
      case h_2 hnone =>
        rw [← Option.some.inj h]
        apply hkeeps.mono
        rintro i hmod ⟨hpolicy, evictIdx, hmiss⟩
        have hline := (hevicted i evictIdx hpolicy hmiss hmod).2
        simp [hnone] at hline

theorem dispatch_keepsBut
    (hprobe : p.probe c.tagArray.lines (p.config.blockAddr addr) 0 = some probeStatus)
    (h : p.dispatch c probeStatus addr mf time events = some o) :
    KeepsBut (p.Drops c o.cache (.access addr mf time)) c.tagArray.lines o.cache.tagArray.lines := by
  have hmiss : ∀ idx, (if mf.isWrite then p.wrMiss c addr idx mf time events
      else p.rdMissBase c addr idx mf time events) = some o →
      KeepsBut (p.Drops c o.cache (.access addr mf time)) c.tagArray.lines
        o.cache.tagArray.lines := by
    intro idx h
    split at h
    case isTrue hwrite =>
      unfold wrMiss at h
      split at h
      case h_1 hpolicy => exact wrMissWa_keepsBut hwrite hpolicy hprobe h
      case h_2 => exact wrMissNoWa_keepsBut h
    case isFalse hread => exact rdMissBase_keepsBut (by simpa using hread) hprobe h
  cases probeStatus with
  | hit idx =>
      have h : (if mf.isWrite then p.wrHit c addr idx mf time events
        else p.rdHitBase c addr idx mf time events) = some o := h
      split at h
      case isTrue hwrite => exact wrHit_keepsBut hwrite hprobe h
      case isFalse => exact rdHitBase_keepsBut hprobe h
  | hitReserved idx => exact hmiss idx h
  | miss idx evict => exact hmiss idx h
  | reservationFail =>
      rw [← Option.some.inj h]
      exact keepsBut_refl

/-! ## Operations -/

theorem useDataPort_eq (c : BaselineCache) (mf : MemFetch) (outcome : CacheRequestStatus)
    (events : List CacheEvent) : (p.useDataPort c mf outcome events).tagArray = c.tagArray ∧
      (p.useDataPort c mf outcome events).missQueue = c.missQueue := by
  unfold useDataPort
  split
  · exact ⟨rfl, rfl⟩
  · split <;> exact ⟨rfl, rfl⟩
  · split <;> exact ⟨rfl, rfl⟩
  · exact ⟨rfl, rfl⟩

/-- The lines that an access gives up are known from the miss queue. -/
theorem Drops.of_missQueue {c'' : BaselineCache} (hqueue : c''.missQueue = c'.missQueue) {i : ℕ}
    (h : p.Drops c c' (.access addr mf time) i) : p.Drops c c'' (.access addr mf time) i := by
  have hqueued : ∀ {mf}, Queued c c' mf → Queued c c'' mf := by
    rintro mf ⟨q, hq, hmem⟩
    exact ⟨q, hqueue.trans hq, hmem⟩
  rcases h with ⟨wb, hwb, hrest⟩ | ⟨hevicts, hsent⟩ | hreplaces
  · exact Or.inl ⟨wb, hqueued hwb, hrest⟩
  · exact Or.inr (Or.inl ⟨hevicts, hqueued hsent⟩)
  · exact Or.inr (Or.inr hreplaces)

theorem dataAccess_keepsBut (h : p.dataAccess c addr mf time events = some o) :
    KeepsBut (p.Drops c o.cache (.access addr mf time)) c.tagArray.lines o.cache.tagArray.lines := by
  simp only [dataAccess, Option.bind_eq_bind, Option.bind_eq_some_iff, Option.pure_def,
    Option.some.injEq] at h
  obtain ⟨_, -, probeStatus, hprobe, o', ho', rfl⟩ := h
  obtain ⟨htags, hqueue⟩ := @useDataPort_eq p o'.cache o'.mf o'.status o'.events
  dsimp only
  rw [htags]
  exact (dispatch_keepsBut hprobe ho').mono fun i _ hi => hi.of_missQueue hqueue

theorem readOnlyAccess_keepsBut (h : p.readOnlyAccess c addr mf time events = some o) :
    KeepsBut gone c.tagArray.lines o.cache.tagArray.lines := by
  simp only [readOnlyAccess, Option.bind_eq_bind, Option.bind_eq_some_iff] at h
  obtain ⟨_, -, _, -, _, -, probeStatus, hprobe, h⟩ := h
  have hmiss : ∀ idx, (if p.missQueueFull c 0 then
        (pure ⟨.reservationFail, c, mf, events⟩ : Option Outcome)
      else (p.sendReadRequest c (p.config.blockAddr addr) idx mf time events true false).bind fun r =>
        pure ⟨if r.doMiss then .miss else .reservationFail, r.cache, r.mf, r.events⟩) = some o →
      KeepsBut gone c.tagArray.lines o.cache.tagArray.lines := by
    intro idx h
    split at h
    · rw [← Option.some.inj h]
      exact keepsBut_refl
    · simp only [Option.bind_eq_some_iff, Option.pure_def, Option.some.injEq] at h
      obtain ⟨r, hr, rfl⟩ := h
      rcases sendReadRequest_dirty hprobe hr with rfl | ⟨-, -, -, hkeeps, hevicted⟩
      · exact keepsBut_refl
      · apply hkeeps.mono
        rintro i hmod ⟨hpolicy, evictIdx, hline⟩
        cases (hevicted i evictIdx hpolicy hline hmod).1
  cases probeStatus with
  | hit idx =>
      simp only [Option.bind_eq_some_iff, Option.pure_def, Option.some.injEq] at h
      obtain ⟨⟨_, _⟩, haccess, rfl⟩ := h
      exact (accessNoWb_keepsBut hprobe haccess).2.1 gone
  | hitReserved idx => exact hmiss idx h
  | miss idx evict => exact hmiss idx h
  | reservationFail =>
      rw [← Option.some.inj h]
      exact keepsBut_refl

/-- A response to a cache that allocates on a miss takes no line. -/
theorem fillTags_keepsBut {fields : ExtraMfFields} {tagArray : TagArray}
    (hlookup : c.extraMfFields.lookup mf.requestUid = some fields)
    (h : p.fillTags c.tagArray fields { mf with dataSize := fields.dataSize } time = some tagArray) :
    KeepsBut (p.GivesUp c mf) c.tagArray.lines tagArray.lines ∧
      (p.config.allocPolicy = .onMiss → (tagArray.lines fields.cacheIndex).status = .valid) := by
  unfold fillTags at h
  split at h
  case h_1 =>
    obtain ⟨-, hres, hlines⟩ := fillIdx_cases h
    rw [hlines, Function.update_self]
    refine ⟨keepsBut_update (fun hmod => ?_) fun hnamed _ => ?_, fun _ => rfl⟩
    · simp [hres] at hmod
    · exact hnamed _ (by simp [hres])
  case h_2 hpolicy =>
    have hfill : ∃ size compressed, p.fillBytes fields mf = some size ∧
        p.fillAddr c.tagArray fields.blockAddr time size compressed = some tagArray := by
      unfold fillBytes
      split at h
      case isTrue hplain => exact ⟨0, 0, if_pos hplain, h⟩
      case isFalse hplain =>
        obtain ⟨⟨size, compressed⟩, hsize, h⟩ := Option.bind_eq_some_iff.1 h
        refine ⟨size, compressed, ?_, h⟩
        rw [if_neg hplain, hsize]
        rfl
    obtain ⟨size, _, hsize, hfill⟩ := hfill
    obtain ⟨idx, evictIdx, hprobe, hkeeps⟩ := fillAddr_keepsBut hfill
    refine ⟨hkeeps.mono fun i _ hi => ?_, fun hmiss => ?_⟩
    · exact ⟨hpolicy, fields, size, idx, evictIdx, hlookup, hsize, hprobe, hi⟩
    · simp [hpolicy] at hmiss

theorem fill_keepsBut {r : BaselineCache × MemFetch} (h : p.fill c mf time = some r) :
    KeepsBut (p.GivesUp c mf) c.tagArray.lines r.1.tagArray.lines := by
  obtain ⟨fields, tagArray, _, hasAtomic, hlookup, htags, -, hatomic, hr⟩ := fill_cases h
  obtain ⟨hkeeps, hvalid⟩ := fillTags_keepsBut hlookup htags
  rw [hr]
  cases hasAtomic with
  | false => exact hkeeps
  | true => exact hkeeps.trans (setStatus_keepsBut (by simp [hvalid (hatomic rfl)]))

/-- **What an operation does to the lines that were changed.** -/
theorem step_dirty {op : CacheOp} (h : p.Step c op c') :
    KeepsBut (p.Drops c c' op) c.tagArray.lines c'.tagArray.lines := by
  obtain ⟨-, h⟩ := h
  cases op with
  | access addr mf time =>
      unfold apply at h
      dsimp only at h
      split at h
      · obtain ⟨o, ho, rfl⟩ := Option.map_eq_some_iff.1 h
        exact readOnlyAccess_keepsBut ho
      · obtain ⟨o, ho, rfl⟩ := Option.map_eq_some_iff.1 h
        exact dataAccess_keepsBut ho
  | fill mf time =>
      obtain ⟨r, hr, rfl⟩ := Option.map_eq_some_iff.1 h
      exact fill_keepsBut hr
  | nextAccess =>
      obtain ⟨r, hr, rfl⟩ := Option.map_eq_some_iff.1 h
      obtain ⟨_, -, rfl⟩ := Option.map_eq_some_iff.1 hr
      exact keepsBut_refl
  | cycle portFull =>
      obtain rfl := Option.some.inj h
      unfold cycle
      dsimp only
      split
      · split <;> exact keepsBut_refl
      · exact keepsBut_refl
  | newRequest =>
      obtain rfl := Option.some.inj h
      exact keepsBut_refl

/-! ## Runs -/

theorem reach_named {ops : List CacheOp} {s : DirtyRun} (h : Reach p.DirtyStart p.DirtyStep ops s) :
    Named s.cache.tagArray.lines :=
  h.invariant (fun _ s => Named s.cache.tagArray.lines)
    (fun _ hs i hlive => absurd (start_invalid hs.1 i) hlive)
    fun _ _ _ _ _ hnamed hstep => (step_dirty hstep.1).named hnamed

/-- **Changes are saved.**  After every run, a step that meets the condition leaves a changed block in the
cache, or its changes are written back, or all of them were sent. -/
theorem changes_saved {ops : List CacheOp} {op : CacheOp} {s s' : DirtyRun}
    (h : Reach p.DirtyStart p.DirtyStep ops s) (hstep : p.DirtyStep s op s') (hspares : p.Spares s op)
    (b : NewAddrType) (hdirty : Dirty s.cache b) :
    Dirty s'.cache b ∨ p.Saved s op s'.cache b := by
  obtain ⟨i, rfl, hmod⟩ := hdirty
  by_cases hunsent : s.unsent (s.cache.tagArray.lines i).tag
  swap
  · exact Or.inr (Or.inr (Or.inl hunsent))
  by_cases hdrops : p.Drops s.cache s'.cache op i
  swap
  · exact Or.inl ((step_dirty hstep.1).dirty i hmod hdrops)
  cases op with
  | access addr mf time =>
      obtain ⟨hwhole, hthrough⟩ := hspares i hmod hunsent
      rcases hdrops with hback | ⟨hevicts, hqueued⟩ | hreplaces
      · rw [reach_named h i (by simp [hmod])] at hback
        exact Or.inr (Or.inl hback)
      · exact Or.inr (Or.inr (Or.inr ⟨hevicts.1, hqueued, hwhole hevicts⟩))
      · exact absurd hreplaces hthrough
  | fill mf time => exact absurd hdrops (hspares i hmod hunsent)
  | nextAccess => exact absurd hdrops id
  | cycle portFull => exact absurd hdrops id
  | newRequest => exact absurd hdrops id

/-! ## Two runs -/

/-- The configuration string of a cache with one line. -/
def oneLineTokens (wp ap : Char) : ConfigTokens :=
  { nset := 1, lineSz := 128, assoc := 1, rp := 'L', wp, ap, wap := 'N', sif := 'L', mshrType := 'A'
    mshrEntries := 4, mshrMaxMerge := 4, missQueueSize := 4, resultFifoEntries := 0
    dataPortWidth := 0 }

def oneLineCache (writePolicy : WritePolicy) (allocPolicy : AllocationPolicy) : CacheParams where
  config :=
    { cls := .base, nset := 1, lineSz := 128, assoc := 1, replacementPolicy := .lru, writePolicy,
      allocPolicy, writeAllocPolicy := .noWriteAllocate, mshrType := .assoc, mshrEntries := 4
      mshrMaxMerge := 4, missQueueSize := 4, resultFifoEntries := 0, dataPortWidth := 128
      setIndexFunction := .linear }
  comp := ⟨0, 1, 32⟩
  isL1D := false
  wrAllocType := .l1WrAllocR
  wrbkType := .l1WrbkAcc

/-- A read, and a local write, of 32 bytes. -/
def localRead (uid : ℕ) (addr : NewAddrType) : MemFetch :=
  { requestUid := uid, accessType := .localAccR, isWrite := false, isAtomic := false, addr,
    dataSize := 32 }

def localWrite (uid : ℕ) (addr : NewAddrType) : MemFetch :=
  { requestUid := uid, accessType := .localAccW, isWrite := true, isAtomic := false, addr,
    dataSize := 32 }

/-- The block at 0 is read, comes, and is written. -/
def readThenWrite : List CacheOp :=
  [.newRequest, .newRequest, .newRequest, .access 0 (localRead 0 0) 1, .fill (localRead 0 0) 2,
    .access 0 (localWrite 1 0) 3]

theorem dirtyStep_mk {op : CacheOp} {s : DirtyRun} (h : p.Step s.cache op c') :
    p.DirtyStep s op ⟨c', p.unsentAfter s op c'⟩ :=
  ⟨h, rfl⟩

theorem reach_dirtyStep {ops : List CacheOp} {op : CacheOp} {s : DirtyRun}
    (h : Reach p.DirtyStart p.DirtyStep ops s) (hstep : p.Step s.cache op c') :
    Reach p.DirtyStart p.DirtyStep (ops ++ [op]) ⟨c', p.unsentAfter s op c'⟩ :=
  h.step (dirtyStep_mk hstep)

/-- A write-back cache writes the block back when the next one takes its line. -/
theorem changes_saved_writeBack : ∃ s s' : DirtyRun,
    Reach (oneLineCache .writeBack .onMiss).DirtyStart (oneLineCache .writeBack .onMiss).DirtyStep
      readThenWrite s ∧
    Dirty s.cache 0 ∧
    (Dirty s'.cache 0 ∨ (oneLineCache .writeBack .onMiss).Saved s
      (.access 0x80 (localRead 2 0x80) 4) s'.cache 0) := by
  have h₀ : Reach (oneLineCache .writeBack .onMiss).DirtyStart
      (oneLineCache .writeBack .onMiss).DirtyStep [] ⟨_, fun _ => False⟩ := .start ⟨⟨0, rfl⟩, rfl⟩
  have h₁ : Reach (oneLineCache .writeBack .onMiss).DirtyStart
      (oneLineCache .writeBack .onMiss).DirtyStep [.newRequest] _ := reach_dirtyStep h₀ ⟨trivial, rfl⟩
  have h₂ : Reach (oneLineCache .writeBack .onMiss).DirtyStart
      (oneLineCache .writeBack .onMiss).DirtyStep [.newRequest, .newRequest] _ :=
    reach_dirtyStep h₁ ⟨trivial, rfl⟩
  have h₃ : Reach (oneLineCache .writeBack .onMiss).DirtyStart
      (oneLineCache .writeBack .onMiss).DirtyStep [.newRequest, .newRequest, .newRequest] _ :=
    reach_dirtyStep h₂ ⟨trivial, rfl⟩
  have h₄ : Reach (oneLineCache .writeBack .onMiss).DirtyStart
      (oneLineCache .writeBack .onMiss).DirtyStep
      [.newRequest, .newRequest, .newRequest, .access 0 (localRead 0 0) 1] _ :=
    reach_dirtyStep h₃ ⟨⟨by decide, AList.notMem_empty _⟩, rfl⟩
  have h₅ : Reach (oneLineCache .writeBack .onMiss).DirtyStart
      (oneLineCache .writeBack .onMiss).DirtyStep
      [.newRequest, .newRequest, .newRequest, .access 0 (localRead 0 0) 1, .fill (localRead 0 0) 2] _ :=
    reach_dirtyStep h₄ ⟨trivial, rfl⟩
  have h₆ : Reach (oneLineCache .writeBack .onMiss).DirtyStart
      (oneLineCache .writeBack .onMiss).DirtyStep readThenWrite _ :=
    reach_dirtyStep h₅ ⟨⟨by decide, by decide⟩, rfl⟩
  refine ⟨_, _, h₆, ⟨0, rfl, rfl⟩, @changes_saved _ _ (.access 0x80 (localRead 2 0x80) 4) _ _ h₆
    (dirtyStep_mk ⟨⟨by decide, by decide⟩, rfl⟩) ?_ 0 ⟨0, rfl, rfl⟩⟩
  intro i _ _
  refine ⟨?_, ?_⟩
  · rintro ⟨-, hpolicy | ⟨hpolicy, -⟩, -⟩ <;> cases hpolicy
  · rintro ⟨hpolicy, -⟩
    cases hpolicy

/-- **A cache that allocates on a fill and writes local data back loses it**: the response for the next
block takes the line, and nothing is sent. -/
theorem not_changes_saved : ¬ ∀ (p : CacheParams) (cls : ConfigClass) (ntok : ℕ) (t : ConfigTokens),
    CacheConfig.init cls ntok t = some p.config → ∀ ops s op s',
    Reach p.DirtyStart p.DirtyStep ops s → p.DirtyStep s op s' → ∀ b, Dirty s.cache b →
      Dirty s'.cache b ∨ p.Saved s op s'.cache b := by
  intro hall
  have h₀ : Reach (oneLineCache .localWbGlobalWt .onFill).DirtyStart
      (oneLineCache .localWbGlobalWt .onFill).DirtyStep [] ⟨_, fun _ => False⟩ :=
    .start ⟨⟨0, rfl⟩, rfl⟩
  have h₁ : Reach (oneLineCache .localWbGlobalWt .onFill).DirtyStart
      (oneLineCache .localWbGlobalWt .onFill).DirtyStep [.newRequest] _ :=
    reach_dirtyStep h₀ ⟨trivial, rfl⟩
  have h₂ : Reach (oneLineCache .localWbGlobalWt .onFill).DirtyStart
      (oneLineCache .localWbGlobalWt .onFill).DirtyStep [.newRequest, .newRequest] _ :=
    reach_dirtyStep h₁ ⟨trivial, rfl⟩
  have h₃ : Reach (oneLineCache .localWbGlobalWt .onFill).DirtyStart
      (oneLineCache .localWbGlobalWt .onFill).DirtyStep [.newRequest, .newRequest, .newRequest] _ :=
    reach_dirtyStep h₂ ⟨trivial, rfl⟩
  have h₄ : Reach (oneLineCache .localWbGlobalWt .onFill).DirtyStart
      (oneLineCache .localWbGlobalWt .onFill).DirtyStep
      [.newRequest, .newRequest, .newRequest, .access 0 (localRead 0 0) 1] _ :=
    reach_dirtyStep h₃ ⟨⟨by decide, AList.notMem_empty _⟩, rfl⟩
  have h₅ : Reach (oneLineCache .localWbGlobalWt .onFill).DirtyStart
      (oneLineCache .localWbGlobalWt .onFill).DirtyStep
      [.newRequest, .newRequest, .newRequest, .access 0 (localRead 0 0) 1, .fill (localRead 0 0) 2] _ :=
    reach_dirtyStep h₄ ⟨trivial, rfl⟩
  have h₆ : Reach (oneLineCache .localWbGlobalWt .onFill).DirtyStart
      (oneLineCache .localWbGlobalWt .onFill).DirtyStep readThenWrite _ :=
    reach_dirtyStep h₅ ⟨⟨by decide, by decide⟩, rfl⟩
  have h₇ : Reach (oneLineCache .localWbGlobalWt .onFill).DirtyStart
      (oneLineCache .localWbGlobalWt .onFill).DirtyStep
      (readThenWrite ++ [.access 0x80 (localRead 2 0x80) 4]) _ :=
    reach_dirtyStep h₆ ⟨⟨by decide, by decide⟩, rfl⟩
  rcases hall _ .base 14 (oneLineTokens 'L' 'f') rfl _ _ (.fill (localRead 2 0x80) 5) _ h₇
      (dirtyStep_mk ⟨trivial, rfl⟩) 0 ⟨0, rfl, rfl⟩ with
    ⟨i, htag, hmod⟩ | ⟨_, ⟨q, hq, hmem⟩, -⟩ | hunsent | hsend
  · cases i with
    | zero => exact absurd hmod (by decide)
    | succ i => cases (show CacheBlockState.invalid = .modified from hmod)
  · obtain rfl : q = [] := List.self_eq_append_right.1 hq
    cases hmem
  · -- the local write is in the cache only
    apply hunsent
    refine ⟨⟨0, rfl, rfl⟩, Or.inl ⟨⟨⟨0, rfl, rfl⟩, Or.inr ⟨⟨rfl, Or.inl rfl, nofun, _, rfl, rfl⟩, ?_⟩⟩, ?_⟩⟩
    · rintro ⟨-, q, hq, hmem⟩
      obtain rfl : q = [] := List.self_eq_append_right.1 hq
      cases hmem
    · rintro ⟨hwrite, -⟩
      cases hwrite
  · exact hsend

end CacheParams

end CompressionWork.Cache
