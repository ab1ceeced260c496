import CompressionWork.Cache.Caches
import CompressionWork.Cache.Delivery

/-!
# Runs of a cache

The operations on a `baseline_cache` from outside, in any order, and the table of requests seen
through them.

* `CacheParams.Step` — an access, a response, a delivery, a cycle, or a request made elsewhere.
* `sendReadRequest_cases` — what a read request does.
* `reach_delivery` — whatever the cache does, its table is used as `Delivery.Step` has it: a cache
  adds a request only with room, and `fill` marks a block once for a request it sent.
-/

namespace CompressionWork.Cache

open Transition

/-! ## Operations -/

/-- A call from outside.  A `mem_fetch` that another component makes takes the next number. -/
inductive CacheOp
  | access (addr : NewAddrType) (mf : MemFetch) (time : UInt32)
  | fill (mf : MemFetch) (time : UInt32)
  | nextAccess
  | cycle (portFull : Bool)
  | newRequest

namespace CacheParams

variable (p : CacheParams)

/-- The cache after an operation.  A cache with policy `READ_ONLY` is a `read_only_cache`. -/
def apply (c : BaselineCache) : CacheOp → Option BaselineCache
  | .access addr mf time =>
      if p.config.writePolicy = .readOnly then (p.readOnlyAccess c addr mf time []).map Outcome.cache
      else (p.dataAccess c addr mf time []).map Outcome.cache
  | .fill mf time => (p.fill c mf time).map Prod.fst
  | .nextAccess => (nextAccess c).map Prod.snd
  | .cycle portFull => some (cycle c portFull).1
  | .newRequest => some { c with nextRequestUid := c.nextRequestUid + 1 }

/-- A request that a cache is given has its number already, and is not on its way to memory. -/
def Allowed (c : BaselineCache) : CacheOp → Prop
  | .access _ mf _ => mf.requestUid < c.nextRequestUid ∧ mf.requestUid ∉ c.extraMfFields
  | _ => True

/-- One operation that does not abort. -/
def Step (c : BaselineCache) (op : CacheOp) (c' : BaselineCache) : Prop :=
  Allowed c op ∧ p.apply c op = some c'

/-- A cache as it is built. -/
def Start (c : BaselineCache) : Prop := ∃ nextRequestUid, p.newCache nextRequestUid = some c

variable {p} {c c' : BaselineCache} {addr blockAddr : NewAddrType} {mf : MemFetch} {time : UInt32}
  {events : List CacheEvent} {o : Outcome} {cacheIndex : ℕ} {readOnly wa : Bool}

/-! ## Read requests -/

/-- What `send_read_request` does: nothing, or the request joins the entry of its block, or it
starts an entry and goes to memory. -/
theorem sendReadRequest_cases {r : ReadRequest}
    (h : p.sendReadRequest c blockAddr cacheIndex mf time events readOnly wa = some r) :
    r = ⟨false, none, c, mf, events⟩ ∨
    ∃ result evicted tagArray mshrs,
      p.readAccess c blockAddr time readOnly = some (result, evicted, tagArray) ∧
      c.mshrs.full blockAddr = false ∧ c.mshrs.add blockAddr mf = some mshrs ∧
      ((c.mshrs.probe blockAddr = true ∧
          r = ⟨true, evicted, { c with tagArray, mshrs }, mf, events⟩) ∨
        (c.mshrs.probe blockAddr = false ∧ ∃ events',
          r = ⟨true, evicted,
            { c with
              tagArray, mshrs
              extraMfFields := c.extraMfFields.insert mf.requestUid
                ⟨blockAddr, accessIndex cacheIndex result, mf.dataSize⟩
              missQueue := c.missQueue ++ [{ mf with dataSize := p.config.lineSz.toNat }] },
            { mf with dataSize := p.config.lineSz.toNat }, events'⟩)) := by
  unfold sendReadRequest at h
  dsimp only at h
  split at h
  · rename_i hhit
    simp only [Option.bind_eq_bind, Option.bind_eq_some_iff, Option.pure_def,
      Option.some.injEq] at h
    obtain ⟨⟨result, evicted, tagArray⟩, haccess, mshrs, hadd, rfl⟩ := h
    exact Or.inr ⟨_, _, _, _, haccess, by simpa using hhit.2, hadd, Or.inl ⟨hhit.1, rfl⟩⟩
  · split at h
    · rename_i hmiss
      simp only [Option.bind_eq_bind, Option.bind_eq_some_iff, Option.pure_def,
        Option.some.injEq] at h
      obtain ⟨⟨result, evicted, tagArray⟩, haccess, mshrs, hadd, rfl⟩ := h
      exact Or.inr ⟨_, _, _, _, haccess, by simpa using hmiss.2.1, hadd,
        Or.inr ⟨by simpa using hmiss.1, _, rfl⟩⟩
    · exact Or.inl (Option.some.inj h).symm

/-! ## The table of requests -/

/-- The blocks of the requests on their way to memory. -/
def requestBlocks (m : AList fun _ : ℕ => ExtraMfFields) : Multiset NewAddrType :=
  m.entries.map fun e => e.2.blockAddr

/-- The table and the requests on their way to memory. -/
def delivery (c : BaselineCache) : Delivery := ⟨c.mshrs, requestBlocks c.extraMfFields⟩

theorem requestBlocks_insert {m : AList fun _ : ℕ => ExtraMfFields} {uid : ℕ}
    {fields : ExtraMfFields} (hnew : uid ∉ m) :
    requestBlocks (m.insert uid fields) = fields.blockAddr ::ₘ requestBlocks m := by
  rw [requestBlocks, AList.entries_insert_of_notMem hnew, List.map_cons, ← Multiset.cons_coe,
    requestBlocks]

theorem requestBlocks_erase {m : AList fun _ : ℕ => ExtraMfFields} {uid : ℕ}
    {fields : ExtraMfFields} (hfields : m.lookup uid = some fields) :
    requestBlocks (m.erase uid) = (requestBlocks m).erase fields.blockAddr := by
  have hmem : uid ∈ m.keys := AList.mem_keys.1 (AList.lookup_isSome.1 (by rw [hfields]; rfl))
  obtain ⟨fields', before, after, -, hentries, herase⟩ := List.exists_of_kerase hmem
  have hsome : m.lookup uid = some fields' := by
    rw [← Option.mem_def, AList.mem_lookup_iff, hentries]
    simp
  obtain rfl : fields' = fields := Option.some.inj (hsome.symm.trans hfields)
  have herase : (m.erase uid).entries = before ++ after := herase
  have hperm : (m.entries.map fun e => e.2.blockAddr).Perm
      (fields'.blockAddr :: (before ++ after).map fun e => e.2.blockAddr) := by
    rw [hentries]
    exact List.perm_middle.map _
  rw [requestBlocks, requestBlocks, herase, Multiset.coe_eq_coe.2 hperm, ← Multiset.cons_coe,
    Multiset.erase_cons_head]

/-- The numbers of the requests on their way to memory have been given out. -/
def Numbered (c : BaselineCache) : Prop :=
  ∀ uid ∈ c.extraMfFields, uid < c.nextRequestUid

/-- What an operation means for the table: nothing, or one step. -/
def Delivers (c c' : BaselineCache) : Prop :=
  (delivery c' = delivery c ∨ ∃ e, Delivery.Step (delivery c) e (delivery c')) ∧ Numbered c'

/-- The table and the requests on their way are the same, and numbers are only given out. -/
def Quiet (c c' : BaselineCache) : Prop :=
  c'.mshrs = c.mshrs ∧ c'.extraMfFields = c.extraMfFields ∧ c.nextRequestUid ≤ c'.nextRequestUid

theorem Quiet.numbered (h : Quiet c c') (hc : Numbered c) : Numbered c' := by
  obtain ⟨-, hfields, hle⟩ := h
  intro uid huid
  rw [hfields] at huid
  exact (hc uid huid).trans_le hle

theorem Quiet.delivery_eq (h : Quiet c c') : delivery c' = delivery c := by
  obtain ⟨hmshrs, hfields, -⟩ := h
  rw [delivery, delivery, hmshrs, hfields]

theorem Quiet.delivers (h : Quiet c c') (hc : Numbered c) : Delivers c c' :=
  ⟨Or.inl h.delivery_eq, h.numbered hc⟩

theorem Delivers.quiet {c'' : BaselineCache} (h : Delivers c c') (h' : Quiet c' c'') :
    Delivers c c'' := by
  obtain ⟨hstep, hnumbered⟩ := h
  refine ⟨?_, h'.numbered hnumbered⟩
  rw [h'.delivery_eq]
  exact hstep

theorem Quiet.trans_delivers {c'' : BaselineCache} (h : Quiet c c') (h' : Delivers c' c'') :
    Delivers c c'' := by
  refine ⟨?_, h'.2⟩
  rw [← h.delivery_eq]
  exact h'.1

/-- A read request is one `add`, or nothing. -/
theorem sendReadRequest_delivers {r : ReadRequest} (hc : Numbered c)
    (hnum : mf.requestUid < c.nextRequestUid) (hnew : mf.requestUid ∉ c.extraMfFields)
    (h : p.sendReadRequest c blockAddr cacheIndex mf time events readOnly wa = some r) :
    Delivers c r.cache := by
  rcases sendReadRequest_cases h with
    rfl | ⟨_, _, _, mshrs, -, hroom, hadd, ⟨hprobe, rfl⟩ | ⟨hprobe, _, rfl⟩⟩
  · exact ⟨Or.inl rfl, hc⟩
  · refine ⟨Or.inr ⟨.added blockAddr mf, ?_⟩, hc⟩
    have hstep : Delivery.Step (delivery c) _ _ := .add hroom hadd
    have hprobe : (delivery c).table.probe blockAddr = true := hprobe
    rw [if_pos hprobe] at hstep
    exact hstep
  · refine ⟨Or.inr ⟨.added blockAddr mf, ?_⟩, ?_⟩
    · have hstep : Delivery.Step (delivery c) _ _ := .add hroom hadd
      have hprobe : (delivery c).table.probe blockAddr = false := hprobe
      rw [if_neg (by simp [hprobe])] at hstep
      unfold delivery
      rw [requestBlocks_insert hnew]
      exact hstep
    · intro uid huid
      rcases (AList.mem_insert _).1 huid with rfl | huid
      · exact hnum
      · exact hc uid huid

/-! ## Accesses -/

theorem quiet_refl : Quiet c c := ⟨rfl, rfl, le_rfl⟩

theorem wrHitWb_quiet (h : p.wrHitWb c addr cacheIndex mf time events = some o) :
    Quiet c o.cache := by
  simp only [wrHitWb, Option.bind_eq_bind, Option.bind_eq_some_iff, Option.pure_def,
    Option.some.injEq] at h
  obtain ⟨_, -, rfl⟩ := h
  exact quiet_refl

theorem wrHitWt_quiet (h : p.wrHitWt c addr cacheIndex mf time events = some o) :
    Quiet c o.cache := by
  unfold wrHitWt at h
  split at h
  · rw [← Option.some.inj h]
    exact quiet_refl
  · simp only [Option.bind_eq_bind, Option.bind_eq_some_iff, Option.pure_def,
      Option.some.injEq] at h
    obtain ⟨_, -, rfl⟩ := h
    exact quiet_refl

theorem wrHitWe_quiet (h : p.wrHitWe c cacheIndex mf events = some o) : Quiet c o.cache := by
  unfold wrHitWe at h
  split at h <;> rw [← Option.some.inj h] <;> exact quiet_refl

theorem wrHit_quiet (h : p.wrHit c addr cacheIndex mf time events = some o) :
    Quiet c o.cache := by
  unfold wrHit at h
  split at h
  · exact absurd h (by simp)
  · exact wrHitWb_quiet h
  · exact wrHitWt_quiet h
  · exact wrHitWe_quiet h
  · unfold wrHitGlobalWeLocalWb at h
    split at h
    · exact wrHitWe_quiet h
    · exact wrHitWb_quiet h

theorem rdHitBase_quiet (h : p.rdHitBase c addr cacheIndex mf time events = some o) :
    Quiet c o.cache := by
  simp only [rdHitBase, Option.bind_eq_bind, Option.bind_eq_some_iff] at h
  obtain ⟨_, -, h⟩ := h
  split at h
  · simp only [Option.pure_def, Option.bind_eq_some_iff, Option.some.injEq] at h
    obtain ⟨_, -, rfl⟩ := h
    exact quiet_refl
  · rw [← Option.some.inj h]
    exact quiet_refl

theorem wrMissWa_delivers (hc : Numbered c)
    (h : p.wrMissWa c addr cacheIndex mf time events = some o) : Delivers c o.cache := by
  unfold wrMissWa at h
  dsimp only at h
  split at h
  · rw [← Option.some.inj h]
    exact quiet_refl.delivers hc
  · simp only [sendWriteRequest, Option.bind_eq_bind, Option.bind_eq_some_iff] at h
    obtain ⟨r, hr, h⟩ := h
    have hquiet : Quiet c { c with
        missQueue := c.missQueue ++ [mf], nextRequestUid := c.nextRequestUid + 1 } :=
      ⟨rfl, rfl, Nat.le_succ _⟩
    -- the read request has the number that was next
    have hsent : Delivers c r.cache :=
      hquiet.trans_delivers (sendReadRequest_delivers (hquiet.numbered hc) (Nat.lt_succ_self _)
        (fun hmem => (hc _ hmem).false) hr)
    split at h
    · split at h
      · split at h
        · rw [← Option.some.inj h]
          exact hsent.quiet ⟨rfl, rfl, Nat.le_succ _⟩
        · rw [← Option.some.inj h]
          exact hsent
      · rw [← Option.some.inj h]
        exact hsent
    · rw [← Option.some.inj h]
      exact hsent

theorem wrMissNoWa_quiet (h : p.wrMissNoWa c mf events = some o) : Quiet c o.cache := by
  unfold wrMissNoWa at h
  split at h <;> rw [← Option.some.inj h] <;> exact quiet_refl

theorem rdMissBase_delivers (hc : Numbered c) (hnum : mf.requestUid < c.nextRequestUid)
    (hnew : mf.requestUid ∉ c.extraMfFields)
    (h : p.rdMissBase c addr cacheIndex mf time events = some o) : Delivers c o.cache := by
  unfold rdMissBase at h
  split at h
  · rw [← Option.some.inj h]
    exact quiet_refl.delivers hc
  · simp only [sendWriteRequest, Option.bind_eq_bind, Option.bind_eq_some_iff] at h
    obtain ⟨r, hr, h⟩ := h
    have hsent := sendReadRequest_delivers hc hnum hnew hr
    split at h
    · split at h
      · split at h
        · rw [← Option.some.inj h]
          exact hsent.quiet ⟨rfl, rfl, Nat.le_succ _⟩
        · rw [← Option.some.inj h]
          exact hsent
      · rw [← Option.some.inj h]
        exact hsent
    · rw [← Option.some.inj h]
      exact hsent

theorem dispatch_delivers {probeStatus : TagParams.ProbeResult} (hc : Numbered c)
    (hnum : mf.requestUid < c.nextRequestUid) (hnew : mf.requestUid ∉ c.extraMfFields)
    (h : p.dispatch c probeStatus addr mf time events = some o) : Delivers c o.cache := by
  have hmiss : ∀ idx, (if mf.isWrite then p.wrMiss c addr idx mf time events
      else p.rdMissBase c addr idx mf time events) = some o → Delivers c o.cache := by
    intro idx h
    split at h
    · unfold wrMiss at h
      split at h
      · exact wrMissWa_delivers hc h
      · exact (wrMissNoWa_quiet h).delivers hc
    · exact rdMissBase_delivers hc hnum hnew h
  cases probeStatus with
  | hit idx =>
      have h : (if mf.isWrite then p.wrHit c addr idx mf time events
        else p.rdHitBase c addr idx mf time events) = some o := h
      split at h
      · exact (wrHit_quiet h).delivers hc
      · exact (rdHitBase_quiet h).delivers hc
  | hitReserved idx => exact hmiss idx h
  | miss idx evict => exact hmiss idx h
  | reservationFail =>
      rw [← Option.some.inj h]
      exact quiet_refl.delivers hc

theorem dataAccess_delivers (hc : Numbered c) (hnum : mf.requestUid < c.nextRequestUid)
    (hnew : mf.requestUid ∉ c.extraMfFields)
    (h : p.dataAccess c addr mf time events = some o) : Delivers c o.cache := by
  simp only [dataAccess, Option.bind_eq_bind, Option.bind_eq_some_iff, Option.pure_def,
    Option.some.injEq] at h
  obtain ⟨_, -, probeStatus, -, o', ho', rfl⟩ := h
  refine (dispatch_delivers hc hnum hnew ho').quiet ?_
  show Quiet o'.cache (p.useDataPort o'.cache o'.mf o'.status o'.events)
  unfold useDataPort
  split
  · exact quiet_refl
  · split <;> exact quiet_refl
  · split <;> exact quiet_refl
  · exact quiet_refl

theorem readOnlyAccess_delivers (hc : Numbered c) (hnum : mf.requestUid < c.nextRequestUid)
    (hnew : mf.requestUid ∉ c.extraMfFields)
    (h : p.readOnlyAccess c addr mf time events = some o) : Delivers c o.cache := by
  simp only [readOnlyAccess, Option.bind_eq_bind, Option.bind_eq_some_iff] at h
  obtain ⟨_, -, _, -, _, -, probeStatus, -, h⟩ := h
  have hmiss : ∀ idx, (if p.missQueueFull c 0 then
        (pure ⟨.reservationFail, c, mf, events⟩ : Option Outcome)
      else (p.sendReadRequest c (p.config.blockAddr addr) idx mf time events true false).bind fun r =>
        pure ⟨if r.doMiss then .miss else .reservationFail, r.cache, r.mf, r.events⟩) = some o →
      Delivers c o.cache := by
    intro idx h
    split at h
    · rw [← Option.some.inj h]
      exact quiet_refl.delivers hc
    · simp only [Option.bind_eq_some_iff, Option.pure_def, Option.some.injEq] at h
      obtain ⟨r, hr, rfl⟩ := h
      exact sendReadRequest_delivers hc hnum hnew hr
  cases probeStatus with
  | hit idx =>
      simp only [Option.bind_eq_some_iff, Option.pure_def, Option.some.injEq] at h
      obtain ⟨r, -, rfl⟩ := h
      exact quiet_refl.delivers hc
  | hitReserved idx => exact hmiss idx h
  | miss idx evict => exact hmiss idx h
  | reservationFail =>
      rw [← Option.some.inj h]
      exact quiet_refl.delivers hc

/-! ## Responses -/

/-- What `fill` does: the request is known, its line is filled, its block is marked ready, and an
atomic that waits makes the line dirty. -/
theorem fill_cases {r : BaselineCache × MemFetch} (h : p.fill c mf time = some r) :
    ∃ fields tagArray mshrs hasAtomic, c.extraMfFields.lookup mf.requestUid = some fields ∧
      p.fillTags c.tagArray fields { mf with dataSize := fields.dataSize } time = some tagArray ∧
      c.mshrs.markReady fields.blockAddr = some (mshrs, hasAtomic) ∧
      (hasAtomic = true → p.config.allocPolicy = .onMiss) ∧
      r.1 = p.useFillPort
        { c with
          tagArray := if hasAtomic then setStatus tagArray fields.cacheIndex .modified else tagArray
          mshrs, extraMfFields := c.extraMfFields.erase mf.requestUid } := by
  simp only [fill, Option.bind_eq_bind, Option.bind_eq_some_iff, Option.pure_def] at h
  obtain ⟨fields, hfields, tagArray, htags, ⟨mshrs, hasAtomic⟩, hready, h⟩ := h
  refine ⟨fields, tagArray, mshrs, hasAtomic, hfields, htags, hready, ?_⟩
  cases hasAtomic with
  | false => exact ⟨by simp, congrArg Prod.fst (Option.some.inj h).symm⟩
  | true =>
      by_cases hpolicy : p.config.allocPolicy = .onMiss
      · simp only [hpolicy, if_true, Option.bind_some] at h
        exact ⟨fun _ => hpolicy, congrArg Prod.fst (Option.some.inj h).symm⟩
      · simp [hpolicy] at h

/-- A response is one `mark_ready`, for a request that was sent. -/
theorem fill_delivers {r : BaselineCache × MemFetch} (hc : Numbered c)
    (h : p.fill c mf time = some r) : Delivers c r.1 := by
  obtain ⟨fields, _, mshrs, _, hfields, -, hready, -, hr⟩ := fill_cases h
  rw [hr]
  refine ⟨Or.inr ⟨.ready fields.blockAddr, ?_⟩, fun uid huid => hc uid (AList.mem_erase.1 huid).2⟩
  have hmem : (⟨mf.requestUid, fields⟩ : Sigma fun _ : ℕ => ExtraMfFields) ∈ c.extraMfFields.entries :=
    AList.mem_lookup_iff.1 hfields
  have hsent : fields.blockAddr ∈ (delivery c).outstanding :=
    Multiset.mem_coe.2 (List.mem_map.2 ⟨_, hmem, rfl⟩)
  have hstep : Delivery.Step (delivery c) _ _ := .markReady hsent hready
  simp only [delivery, useFillPort, requestBlocks_erase hfields]
  exact hstep

/-- A delivery is one `next_access`. -/
theorem nextAccess_delivers {r : MemFetch × BaselineCache} (hc : Numbered c)
    (h : nextAccess c = some r) : Delivers c r.2 := by
  simp only [nextAccess, Option.map_eq_some_iff] at h
  obtain ⟨⟨mf, mshrs⟩, hnext, rfl⟩ := h
  obtain ⟨b, rest, _, _, hqueue, -, -⟩ := MshrTable.nextAccess_cases hnext
  have hready : (delivery c).table.accessReady = true := by
    rw [delivery, MshrTable.accessReady, hqueue]
    rfl
  have hfront : (delivery c).table.currentResponse.head? = some b := by
    rw [delivery, hqueue]
    rfl
  exact ⟨Or.inr ⟨_, .nextAccess hready hfront hnext⟩, hc⟩

/-! ## Runs -/

theorem step_delivers {op : CacheOp} (hc : Numbered c) (h : p.Step c op c') : Delivers c c' := by
  obtain ⟨hallowed, h⟩ := h
  cases op with
  | access addr mf time =>
      obtain ⟨hnum, hnew⟩ := hallowed
      unfold apply at h
      dsimp only at h
      split at h
      · obtain ⟨o, ho, rfl⟩ := Option.map_eq_some_iff.1 h
        exact readOnlyAccess_delivers hc hnum hnew ho
      · obtain ⟨o, ho, rfl⟩ := Option.map_eq_some_iff.1 h
        exact dataAccess_delivers hc hnum hnew ho
  | fill mf time =>
      obtain ⟨r, hr, rfl⟩ := Option.map_eq_some_iff.1 h
      exact fill_delivers hc hr
  | nextAccess =>
      obtain ⟨r, hr, rfl⟩ := Option.map_eq_some_iff.1 h
      exact nextAccess_delivers hc hr
  | cycle portFull =>
      obtain rfl := Option.some.inj h
      refine Quiet.delivers ?_ hc
      unfold cycle
      dsimp only
      split
      · split <;> exact quiet_refl
      · exact quiet_refl
  | newRequest =>
      obtain rfl := Option.some.inj h
      exact Quiet.delivers ⟨rfl, rfl, Nat.le_succ _⟩ hc

theorem start_delivery (h : p.Start c) :
    Delivery.Start p.config.mshrEntries p.config.mshrMaxMerge (delivery c) ∧ Numbered c := by
  obtain ⟨uid, h⟩ := h
  simp only [newCache, Option.bind_eq_bind, Option.bind_eq_some_iff, Option.pure_def,
    Option.some.injEq] at h
  obtain ⟨_, -, _, -, rfl⟩ := h
  exact ⟨rfl, fun uid huid => absurd huid (AList.notMem_empty uid)⟩

theorem reach_numbered {ops : List CacheOp} (h : Reach p.Start p.Step ops c) : Numbered c :=
  h.invariant (fun _ => Numbered) (fun _ hs => (start_delivery hs).2)
    fun _ _ _ _ _ hc hstep => (step_delivers hc hstep).2

/-- **The table of a cache is used as the protocol has it**, whatever is done to the cache. -/
theorem reach_delivery {ops : List CacheOp} (h : Reach p.Start p.Step ops c) :
    ∃ log, Reach (Delivery.Start p.config.mshrEntries p.config.mshrMaxMerge) Delivery.Step log
      (delivery c) :=
  h.simulation delivery (fun _ hs => (start_delivery hs).1)
    fun _ _ _ _ hreach hstep => (step_delivers (reach_numbered hreach) hstep).1

/-- So no block is twice in the queue of a cache. -/
theorem currentResponse_nodup {ops : List CacheOp} (h : Reach p.Start p.Step ops c) :
    c.mshrs.currentResponse.Nodup := by
  obtain ⟨log, hlog⟩ := reach_delivery h
  exact (Delivery.reach_inv hlog).nodup.1

end CacheParams

end CompressionWork.Cache
