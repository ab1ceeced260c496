import CompressionWork.Cache.Caches

/-!
# A rejected access leaves no trace

An access that returns `RESERVATION_FAIL` has not changed the cache, the request or the events: every
function checks for room before it touches anything.

* `sendReadRequest_of_not_doMiss` — a read request that is not made changes nothing.
* `wrMissWa_atomic` — the only function that writes before its last check can still fail has made
  sure that it cannot.
* `reservationFail_atomic` — the three access functions.
-/

namespace CompressionWork.Cache

namespace CacheParams

variable {p : CacheParams} {c : BaselineCache} {addr : NewAddrType} {mf : MemFetch} {time : UInt32}
  {events : List CacheEvent} {o : Outcome}

/-- The outcome has the old cache, request and events. -/
def Unchanged (c : BaselineCache) (mf : MemFetch) (events : List CacheEvent) (o : Outcome) : Prop :=
  o.cache = c ∧ o.mf = mf ∧ o.events = events

theorem unchanged_refl {status : CacheRequestStatus} :
    Unchanged c mf events ⟨status, c, mf, events⟩ :=
  ⟨rfl, rfl, rfl⟩

/-! ## Read requests -/

/-- The condition under which `send_read_request` does something. -/
def HasRoom (p : CacheParams) (c : BaselineCache) (blockAddr : NewAddrType) : Prop :=
  c.mshrs.full blockAddr = false ∧
    (c.mshrs.probe blockAddr = true ∨ c.missQueue.length < p.config.missQueueSize)

instance (p : CacheParams) (c : BaselineCache) (blockAddr : NewAddrType) :
    Decidable (HasRoom p c blockAddr) :=
  inferInstanceAs (Decidable (_ ∧ _))

theorem sendReadRequest_of_hasRoom {blockAddr : NewAddrType} {cacheIndex : ℕ} {readOnly wa : Bool}
    {r : ReadRequest} (hroom : HasRoom p c blockAddr)
    (h : p.sendReadRequest c blockAddr cacheIndex mf time events readOnly wa = some r) :
    r.doMiss = true := by
  obtain ⟨hfull, hroom⟩ := hroom
  unfold sendReadRequest at h
  by_cases hhit : c.mshrs.probe blockAddr = true
  · simp only [hhit, hfull, Bool.not_false, and_self, if_true, Option.bind_eq_bind,
      Option.bind_eq_some_iff, Option.pure_def, Option.some.injEq] at h
    obtain ⟨_, -, _, -, rfl⟩ := h
    rfl
  · have hqueue := hroom.resolve_left hhit
    simp only [hhit, hfull, Bool.not_false, and_true, hqueue, not_false_eq_true, if_true, if_false,
      Bool.false_eq_true, Option.bind_eq_bind, Option.bind_eq_some_iff, Option.pure_def,
      Option.some.injEq] at h
    obtain ⟨_, -, _, -, rfl⟩ := h
    rfl

/-- **A read request that is not made changes nothing.** -/
theorem sendReadRequest_of_not_doMiss {blockAddr : NewAddrType} {cacheIndex : ℕ}
    {readOnly wa : Bool} {r : ReadRequest}
    (h : p.sendReadRequest c blockAddr cacheIndex mf time events readOnly wa = some r)
    (hmiss : r.doMiss = false) : r = ⟨false, none, c, mf, events⟩ := by
  have hroom : ¬ HasRoom p c blockAddr := by
    intro hroom
    rw [sendReadRequest_of_hasRoom hroom h] at hmiss
    exact absurd hmiss (by simp)
  unfold sendReadRequest at h
  rw [if_neg, if_neg] at h
  · exact (Option.some.inj h).symm
  · rintro ⟨-, havail, hqueue⟩
    exact hroom ⟨by simpa using havail, Or.inr hqueue⟩
  · rintro ⟨hhit, havail⟩
    exact hroom ⟨by simpa using havail, Or.inl hhit⟩

/-! ## The functions of a data cache -/

theorem wrHitWb_atomic {cacheIndex : ℕ}
    (h : p.wrHitWb c addr cacheIndex mf time events = some o) : o.status = .hit := by
  simp only [wrHitWb, Option.bind_eq_bind, Option.bind_eq_some_iff, Option.pure_def,
    Option.some.injEq] at h
  obtain ⟨_, -, rfl⟩ := h
  rfl

theorem wrHitWe_atomic {cacheIndex : ℕ} (h : p.wrHitWe c cacheIndex mf events = some o)
    (hfail : o.status = .reservationFail) : Unchanged c mf events o := by
  unfold wrHitWe at h
  split at h
  · rw [← Option.some.inj h]
    exact unchanged_refl
  · rw [← Option.some.inj h] at hfail
    exact absurd hfail (by simp)

theorem wrHitWt_atomic {cacheIndex : ℕ}
    (h : p.wrHitWt c addr cacheIndex mf time events = some o)
    (hfail : o.status = .reservationFail) : Unchanged c mf events o := by
  unfold wrHitWt at h
  split at h
  · rw [← Option.some.inj h]
    exact unchanged_refl
  · simp only [Option.bind_eq_bind, Option.bind_eq_some_iff, Option.pure_def,
      Option.some.injEq] at h
    obtain ⟨_, -, rfl⟩ := h
    exact absurd hfail (by simp)

theorem wrHit_atomic {cacheIndex : ℕ} (h : p.wrHit c addr cacheIndex mf time events = some o)
    (hfail : o.status = .reservationFail) : Unchanged c mf events o := by
  have hwb : ∀ {o : Outcome}, p.wrHitWb c addr cacheIndex mf time events = some o →
      o.status = .reservationFail → Unchanged c mf events o := by
    intro o h hfail
    rw [wrHitWb_atomic h] at hfail
    exact absurd hfail (by simp)
  unfold wrHit at h
  split at h
  · exact absurd h (by simp)
  · exact hwb h hfail
  · exact wrHitWt_atomic h hfail
  · exact wrHitWe_atomic h hfail
  · unfold wrHitGlobalWeLocalWb at h
    split at h
    · exact wrHitWe_atomic h hfail
    · exact hwb h hfail

theorem rdHitBase_status {cacheIndex : ℕ}
    (h : p.rdHitBase c addr cacheIndex mf time events = some o) : o.status = .hit := by
  simp only [rdHitBase, Option.bind_eq_bind, Option.bind_eq_some_iff] at h
  obtain ⟨_, -, h⟩ := h
  split at h
  · simp only [Option.pure_def, Option.bind_eq_some_iff, Option.some.injEq] at h
    obtain ⟨_, -, rfl⟩ := h
    rfl
  · rw [← Option.some.inj h]

/-- A write that allocates sends the write before the read request; with room for three requests
the read request cannot be turned down. -/
theorem wrMissWa_atomic {cacheIndex : ℕ}
    (h : p.wrMissWa c addr cacheIndex mf time events = some o)
    (hfail : o.status = .reservationFail) : Unchanged c mf events o := by
  unfold wrMissWa at h
  by_cases hcheck : p.missQueueFull c 2 ∨
      (¬ (c.mshrs.probe (p.config.blockAddr addr) ∧ !c.mshrs.full (p.config.blockAddr addr)) ∧
        ¬ (¬ c.mshrs.probe (p.config.blockAddr addr) ∧ !c.mshrs.full (p.config.blockAddr addr) ∧
          c.missQueue.length < p.config.missQueueSize))
  · simp only [if_pos hcheck] at h
    rw [← Option.some.inj h]
    exact unchanged_refl
  · simp only [if_neg hcheck] at h
    rw [not_or] at hcheck
    obtain ⟨hqueue, havail⟩ := hcheck
    have hlen : c.missQueue.length + 2 < p.config.missQueueSize := by
      simpa [missQueueFull] using hqueue
    have hfull : c.mshrs.full (p.config.blockAddr addr) = false := by
      by_contra hfull
      simp [Bool.not_eq_false _ ▸ hfull] at havail
    simp only [sendWriteRequest, Option.bind_eq_bind, Option.bind_eq_some_iff] at h
    obtain ⟨r, hr, h⟩ := h
    have hroom : HasRoom p
        { c with
          missQueue := c.missQueue ++ [mf]
          nextRequestUid := c.nextRequestUid + 1 } (p.config.blockAddr addr) := by
      refine ⟨hfull, Or.inr ?_⟩
      simp only [List.length_append, List.length_singleton]
      omega
    rw [if_pos (sendReadRequest_of_hasRoom hroom hr)] at h
    have hstatus : o.status = .miss := by
      split at h
      · split at h <;> rw [← Option.some.inj h]
      · rw [← Option.some.inj h]
    rw [hstatus] at hfail
    exact absurd hfail (by simp)

theorem wrMiss_atomic {cacheIndex : ℕ} (h : p.wrMiss c addr cacheIndex mf time events = some o)
    (hfail : o.status = .reservationFail) : Unchanged c mf events o := by
  unfold wrMiss at h
  split at h
  · exact wrMissWa_atomic h hfail
  · unfold wrMissNoWa at h
    split at h
    · rw [← Option.some.inj h]
      exact unchanged_refl
    · rw [← Option.some.inj h] at hfail
      exact absurd hfail (by simp)

theorem rdMissBase_atomic {cacheIndex : ℕ}
    (h : p.rdMissBase c addr cacheIndex mf time events = some o)
    (hfail : o.status = .reservationFail) : Unchanged c mf events o := by
  unfold rdMissBase at h
  split at h
  · rw [← Option.some.inj h]
    exact unchanged_refl
  · simp only [Option.bind_eq_bind, Option.bind_eq_some_iff] at h
    obtain ⟨r, hr, h⟩ := h
    by_cases hmiss : r.doMiss = true
    · rw [if_pos hmiss] at h
      have hstatus : o.status = .miss := by
        split at h
        · split at h <;> rw [← Option.some.inj h]
        · rw [← Option.some.inj h]
      rw [hstatus] at hfail
      exact absurd hfail (by simp)
    · rw [if_neg hmiss, sendReadRequest_of_not_doMiss hr (by simpa using hmiss)] at h
      rw [← Option.some.inj h]
      exact unchanged_refl

theorem dispatch_atomic {probeStatus : TagParams.ProbeResult}
    (h : p.dispatch c probeStatus addr mf time events = some o)
    (hfail : o.status = .reservationFail) : Unchanged c mf events o := by
  have hmiss : ∀ idx, (if mf.isWrite then p.wrMiss c addr idx mf time events
      else p.rdMissBase c addr idx mf time events) = some o → Unchanged c mf events o := by
    intro idx h
    split at h
    · exact wrMiss_atomic h hfail
    · exact rdMissBase_atomic h hfail
  cases probeStatus with
  | hit idx =>
      have h : (if mf.isWrite then p.wrHit c addr idx mf time events
        else p.rdHitBase c addr idx mf time events) = some o := h
      split at h
      · exact wrHit_atomic h hfail
      · rw [rdHitBase_status h] at hfail
        exact absurd hfail (by simp)
  | hitReserved idx => exact hmiss idx h
  | miss idx evict => exact hmiss idx h
  | reservationFail =>
      rw [← Option.some.inj h]
      exact unchanged_refl

/-! ## The access functions -/

theorem dataAccess_atomic (h : p.dataAccess c addr mf time events = some o)
    (hfail : o.status = .reservationFail) : Unchanged c mf events o := by
  simp only [dataAccess, Option.bind_eq_bind, Option.bind_eq_some_iff, Option.pure_def,
    Option.some.injEq] at h
  obtain ⟨_, -, probeStatus, -, o', ho', rfl⟩ := h
  have hfail' : o'.status = .reservationFail := hfail
  obtain ⟨hc, hmf, hev⟩ := dispatch_atomic ho' hfail'
  refine ⟨?_, hmf, hev⟩
  show p.useDataPort o'.cache o'.mf o'.status o'.events = c
  rw [hfail', hc]
  rfl

/-- The access of a read-only cache after a hit finds the line of its probe again. -/
theorem accessNoWb_hit {p : TagParams} {t : TagArray} {blockAddr : NewAddrType} {idx : ℕ}
    {r : TagParams.ProbeResult × TagArray}
    (hprobe : p.probe t.lines blockAddr 0 = some (.hit idx))
    (h : p.accessNoWb t blockAddr time = some r) : r.1 = .hit idx := by
  simp only [TagParams.accessNoWb, TagParams.access, hprobe, Option.bind_eq_bind,
    Option.bind_some, Option.pure_def, Option.bind_eq_some_iff, Option.some.injEq] at h
  obtain ⟨_, -, rfl⟩ := h
  rfl

theorem readOnlyAccess_atomic (h : p.readOnlyAccess c addr mf time events = some o)
    (hfail : o.status = .reservationFail) : Unchanged c mf events o := by
  simp only [readOnlyAccess, Option.bind_eq_bind, Option.bind_eq_some_iff] at h
  obtain ⟨_, -, _, -, _, -, probeStatus, hprobe, h⟩ := h
  have hmiss : ∀ idx, (if p.missQueueFull c 0 then
        (pure ⟨.reservationFail, c, mf, events⟩ : Option Outcome)
      else (p.sendReadRequest c (p.config.blockAddr addr) idx mf time events true false).bind fun r =>
        pure ⟨if r.doMiss then .miss else .reservationFail, r.cache, r.mf, r.events⟩) = some o →
      Unchanged c mf events o := by
    intro idx h
    split at h
    · rw [← Option.some.inj h]
      exact unchanged_refl
    · simp only [Option.bind_eq_some_iff, Option.pure_def, Option.some.injEq] at h
      obtain ⟨r, hr, rfl⟩ := h
      have hnot : r.doMiss = false := by
        by_contra hdo
        simp [Bool.not_eq_false _ ▸ hdo] at hfail
      rw [sendReadRequest_of_not_doMiss hr hnot]
      exact unchanged_refl
  cases probeStatus with
  | hit idx =>
      simp only [Option.bind_eq_some_iff, Option.pure_def, Option.some.injEq] at h
      obtain ⟨r, hr, rfl⟩ := h
      have hhit := accessNoWb_hit hprobe hr
      simp only [hhit, TagParams.ProbeResult.status] at hfail
      exact absurd hfail (by simp)
  | hitReserved idx => exact hmiss idx h
  | miss idx evict => exact hmiss idx h
  | reservationFail =>
      rw [← Option.some.inj h]
      exact unchanged_refl

end CacheParams

theorem texAccess_atomic {p : TagParams} {c : TexCache} {addr : NewAddrType} {mf : MemFetch}
    {time : UInt32} {events : List CacheEvent} {o : TexOutcome}
    (h : p.texAccess c addr mf time events = some o) (hfail : o.status = .reservationFail) :
    o.cache = c ∧ o.mf = mf ∧ o.events = events := by
  unfold TagParams.texAccess at h
  split at h
  · rw [← Option.some.inj h]
    exact ⟨rfl, rfl, rfl⟩
  · simp only [Option.bind_eq_bind, Option.bind_eq_some_iff] at h
    obtain ⟨_, -, ⟨result, tags⟩, -, h⟩ := h
    cases result with
    | miss idx evict =>
        simp only [Option.bind_eq_some_iff, Option.pure_def, Option.some.injEq] at h
        obtain ⟨_, -, _, -, _, -, _, -, rfl⟩ := h
        exact absurd hfail (by simp)
    | hit idx =>
        simp only [Option.bind_eq_some_iff, Option.pure_def, Option.some.injEq] at h
        obtain ⟨_, -, rfl⟩ := h
        exact absurd hfail (by simp)
    | hitReserved idx => exact absurd h (by simp)
    | reservationFail => exact absurd h (by simp)

/-- **`RESERVATION_FAIL` is atomic.**  In every state, an access to a data cache, a read-only cache
or a texture cache that returns it leaves the cache, the request and the events as they were. -/
theorem reservationFail_atomic (addr : NewAddrType) (mf : MemFetch) (time : UInt32)
    (events : List CacheEvent) :
    (∀ (p : CacheParams) (c : BaselineCache) (o : Outcome),
      p.dataAccess c addr mf time events = some o ∨
        p.readOnlyAccess c addr mf time events = some o →
      o.status = .reservationFail → o.cache = c ∧ o.mf = mf ∧ o.events = events) ∧
    ∀ (p : TagParams) (c : TexCache) (o : TexOutcome),
      p.texAccess c addr mf time events = some o → o.status = .reservationFail →
      o.cache = c ∧ o.mf = mf ∧ o.events = events := by
  refine ⟨?_, fun p c o => texAccess_atomic⟩
  rintro p c o (h | h) hfail
  · exact CacheParams.dataAccess_atomic h hfail
  · exact CacheParams.readOnlyAccess_atomic h hfail

/-- Two lines, and one entry in the table of misses. -/
def oneEntry (writePolicy : WritePolicy) : CacheParams where
  config :=
    { cls := .base, nset := 2, lineSz := 128, assoc := 1, replacementPolicy := .lru, writePolicy,
      allocPolicy := .onMiss, writeAllocPolicy := .noWriteAllocate, mshrType := .assoc,
      mshrEntries := 1, mshrMaxMerge := 1, missQueueSize := 2, resultFifoEntries := 1,
      dataPortWidth := 128, setIndexFunction := .linear }
  comp := ⟨0, 1, 8⟩
  isL1D := false
  wrAllocType := .l1WrAllocR
  wrbkType := .l1WrbkAcc

def coldCache : BaselineCache where
  tagArray := { lines := fun _ => {} }
  mshrs := { numEntries := 1, maxMerged := 1 }
  nextRequestUid := 1

def coldTexCache : TexCache where
  tags := { lines := fun _ => {} }
  fragmentFifo := { size := 1 }
  requestFifo := { size := 1 }
  rob := { size := 1 }
  resultFifo := { size := 1 }

/-- A load of four bytes. -/
def load (addr : NewAddrType) : MemFetch := ⟨0, .globalAccR, false, false, addr, 4, -1⟩

/-- The load of another line while the first miss is on its way. -/
theorem reservationFail_atomic_secondMiss :
    (∃ o o', (oneEntry .writeBack).dataAccess coldCache 0 (load 0) 0 [] = some o ∧ o.status = .miss ∧
      (oneEntry .writeBack).dataAccess o.cache 128 (load 128) 1 [] = some o' ∧
      o'.status = .reservationFail ∧ o'.cache = o.cache) ∧
    (∃ o o', (oneEntry .readOnly).readOnlyAccess coldCache 0 (load 0) 0 [] = some o ∧ o.status = .miss ∧
      (oneEntry .readOnly).readOnlyAccess o.cache 128 (load 128) 1 [] = some o' ∧
      o'.status = .reservationFail ∧ o'.cache = o.cache) ∧
    ∃ o o', (oneEntry .readOnly).texAccess coldTexCache 0 (load 0) 0 [] = some o ∧ o.status = .miss ∧
      (oneEntry .readOnly).texAccess o.cache 128 (load 128) 1 [] = some o' ∧
      o'.status = .reservationFail ∧ o'.cache = o.cache := by
  obtain ⟨hbase, htex⟩ := reservationFail_atomic 128 (load 128) 1 []
  refine ⟨⟨_, _, rfl, rfl, rfl, rfl, ?_⟩, ⟨_, _, rfl, rfl, rfl, rfl, ?_⟩, ⟨_, _, rfl, rfl, rfl, rfl, ?_⟩⟩
  · exact (hbase (oneEntry .writeBack) _ _ (Or.inl rfl) rfl).1
  · exact (hbase (oneEntry .readOnly) _ _ (Or.inr rfl) rfl).1
  · exact (htex (oneEntry .readOnly).toTagParams _ _ rfl rfl).1

end CompressionWork.Cache
