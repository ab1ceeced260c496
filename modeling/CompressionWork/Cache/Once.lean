import CompressionWork.Cache.Run
import CompressionWork.Cache.Unique

/-!
# A block is cached once

The lines of a `baseline_cache` and its requests on their way to memory, over every order of accesses
and responses.

* `Once` — no block is in two ways of its set; when a cache allocates on a fill, the blocks it waits for
  are absent, and when it allocates on a miss, each of them has its reserved line.
* `sendReadRequest_once`, `fill_once` — a request and its response keep this.
* `block_cached_once` — in every run.
-/

namespace CompressionWork.Cache.CacheParams

open Transition TagParams

variable {p : CacheParams} {c c' : BaselineCache} {addr blockAddr : NewAddrType} {mf : MemFetch}
  {time : UInt32} {events : List CacheEvent} {o : Outcome} {cacheIndex idx uid uid' : ℕ}
  {readOnly wa : Bool} {fields fields' : ExtraMfFields} {t t' : TagArray} {result : ProbeResult}
  {evicted : Option CacheBlock} {status : CacheBlockState}

/-! ## The invariant -/

variable (p) in
/-- How the lines and the requests on their way to memory go together. -/
structure Once (c : BaselineCache) : Prop where
  oneWay : p.OneWay c.tagArray.lines
  /-- A request is for a whole block. -/
  block : ∀ uid fields, c.extraMfFields.lookup uid = some fields →
    p.config.tag fields.blockAddr = fields.blockAddr
  unreserved : p.config.allocPolicy = .onFill → ∀ i, (c.tagArray.lines i).status ≠ .reserved
  absent : p.config.allocPolicy = .onFill → ∀ uid fields, c.extraMfFields.lookup uid = some fields →
    p.Absent c.tagArray.lines fields.blockAddr
  reserved : p.config.allocPolicy = .onMiss → ∀ uid fields, c.extraMfFields.lookup uid = some fields →
    (c.tagArray.lines fields.cacheIndex).tag = fields.blockAddr ∧
      (c.tagArray.lines fields.cacheIndex).status = .reserved

/-- The tags stay, the same lines wait for data, and the same requests are on their way. -/
def Still (c c' : BaselineCache) : Prop :=
  Touched c.tagArray.lines c'.tagArray.lines ∧ c'.extraMfFields = c.extraMfFields

theorem still_refl : Still c c := ⟨touched_refl, rfl⟩

theorem Once.still (h : p.Once c) (hstill : Still c c') : p.Once c' := by
  obtain ⟨htouched, hfields⟩ := hstill
  refine ⟨h.oneWay.kept htouched.1, ?_, fun hfill i hres => ?_, fun hfill => ?_, fun hmiss => ?_⟩
  · rw [hfields]
    exact h.block
  · exact h.unreserved hfill i ((htouched.2 i).1 hres)
  · rw [hfields]
    exact fun uid fields hlookup => (h.absent hfill uid fields hlookup).kept htouched.1
  · rw [hfields]
    intro uid fields hlookup
    obtain ⟨htag, hres⟩ := h.reserved hmiss uid fields hlookup
    exact ⟨(htouched.1 _).1.trans htag, (htouched.2 _).2 hres⟩

/-! ## The requests on their way -/

/-- No block is asked for twice, and each one has an entry in the table. -/
structure Tracked (c : BaselineCache) : Prop where
  nodup : (requestBlocks c.extraMfFields).Nodup
  probe : ∀ b ∈ requestBlocks c.extraMfFields, c.mshrs.probe b = true

theorem reach_tracked {ops : List CacheOp} (h : Reach p.Start p.Step ops c) : Tracked c := by
  obtain ⟨_, hlog⟩ := reach_delivery h
  have htracked := (Delivery.reach_inv hlog).tracked
  have hkeys : ((c.mshrs.currentResponse : Multiset NewAddrType) +
      requestBlocks c.extraMfFields).Nodup := by
    change (((delivery c).table.currentResponse : Multiset NewAddrType) +
      (delivery c).outstanding).Nodup
    rw [htracked]
    exact Multiset.coe_nodup.2 (delivery c).table.data.keys_nodup
  refine ⟨(Multiset.nodup_add.1 hkeys).2.1, fun b hb => ?_⟩
  have hmem : b ∈ ((delivery c).table.data.keys : Multiset NewAddrType) := by
    rw [← htracked]
    exact Multiset.mem_add.2 (Or.inr hb)
  exact MshrTable.probe_iff.2 (Multiset.mem_coe.1 hmem)

theorem mem_entries_of_lookup (h : c.extraMfFields.lookup uid = some fields) :
    (⟨uid, fields⟩ : Sigma fun _ : ℕ => ExtraMfFields) ∈ c.extraMfFields.entries :=
  AList.mem_lookup_iff.1 h

/-- Two requests are for two blocks. -/
theorem Tracked.uid_eq (h : Tracked c) (hlookup : c.extraMfFields.lookup uid = some fields)
    (hlookup' : c.extraMfFields.lookup uid' = some fields')
    (hblock : fields.blockAddr = fields'.blockAddr) : uid = uid' := by
  have hinj := List.inj_on_of_nodup_map (Multiset.coe_nodup.1 h.nodup)
    (mem_entries_of_lookup hlookup) (mem_entries_of_lookup hlookup') hblock
  exact congrArg Sigma.fst hinj

/-! ## Lookups -/

theorem access_of_readAccess
    (h : p.readAccess c blockAddr time readOnly = some (result, evicted, t')) :
    ∃ evicted', p.access c.tagArray blockAddr time = some (result, evicted', t') := by
  unfold readAccess at h
  split at h
  · obtain ⟨⟨result', t₁⟩, haccess, heq⟩ := Option.map_eq_some_iff.1 h
    cases heq
    exact ⟨_, access_of_accessNoWb haccess⟩
  · exact ⟨_, h⟩

/-- Another access to a line that holds the block. -/
theorem touched_lastAccessTime {lines : Lines} :
    Touched lines (Function.update lines idx { lines idx with lastAccessTime := time }) :=
  touched_update rfl (Classical.or_iff_not_imp_left.2 fun hlive => not_not.1 hlive) Iff.rfl

theorem setStatus_touched (hlive : (t.lines idx).status ≠ .invalid)
    (hhit : (t.lines idx).status ≠ .reserved) (hstatus : status ≠ .reserved) :
    Touched t.lines (setStatus t idx status).lines :=
  touched_update rfl (Or.inl hlive) ⟨fun h => absurd h hstatus, fun h => absurd h hhit⟩

/-- An access to a block that was found. -/
theorem accessNoWb_found (hprobe : p.probe t.lines addr 0 = some (.hit idx))
    (h : p.accessNoWb t addr time = some (result, t')) : result = .hit idx ∧
      Touched t.lines t'.lines ∧ (t'.lines idx).status ≠ .invalid ∧
      (t'.lines idx).status ≠ .reserved := by
  obtain ⟨hprobe', hlines⟩ := access_cases (access_of_accessNoWb h)
  obtain rfl : ProbeResult.hit idx = result := Option.some.inj (hprobe.symm.trans hprobe')
  obtain ⟨-, hlive, hres⟩ := probe_hit hprobe
  dsimp only at hlines
  rw [hlines, Function.update_self]
  exact ⟨rfl, touched_lastAccessTime, hlive, hres⟩

/-- The lookup of a request: on a miss a line may be given to the block. -/
theorem Once.access (h : p.Once c) (haccess : p.access c.tagArray blockAddr time =
    some (result, evicted, t')) : p.Once { c with tagArray := t' } := by
  obtain ⟨hprobe, hlines⟩ := access_cases haccess
  cases result with
  | hit idx =>
      refine h.still ⟨?_, rfl⟩
      show Touched c.tagArray.lines t'.lines
      rw [hlines]
      exact touched_lastAccessTime
  | hitReserved idx =>
      refine h.still ⟨?_, rfl⟩
      show Touched c.tagArray.lines t'.lines
      rw [hlines]
      exact touched_lastAccessTime
  | reservationFail =>
      refine h.still ⟨?_, rfl⟩
      show Touched c.tagArray.lines t'.lines
      rw [hlines]
      exact touched_refl
  | miss idx evictIdx =>
      dsimp only at hlines
      split at hlines
      case isFalse =>
        refine h.still ⟨?_, rfl⟩
        show Touched c.tagArray.lines t'.lines
        rw [hlines]
        exact touched_refl
      case isTrue hpolicy =>
        have hmiss := probe_miss_cases hprobe
        refine ⟨?_, h.block, fun hfill => ?_, fun hfill => ?_, fun _ uid fields hlookup => ?_⟩
        · show p.OneWay t'.lines
          rw [hlines]
          exact h.oneWay.allocate hmiss rfl
        · simp [hpolicy] at hfill
        · rw [hpolicy] at hfill
          cases hfill
        · -- the line that goes was not waiting for data
          obtain ⟨htag, hres⟩ := h.reserved hpolicy uid fields hlookup
          have hne : fields.cacheIndex ≠ idx := by
            rintro rfl
            exact hmiss.live rfl hres
          show (t'.lines fields.cacheIndex).tag = fields.blockAddr ∧
            (t'.lines fields.cacheIndex).status = .reserved
          rw [hlines, Function.update_of_ne hne]
          exact ⟨htag, hres⟩

/-! ## Requests -/

/-- A line that the request goes to, when the cache allocates on a miss. -/
theorem access_index (hpolicy : p.config.allocPolicy = .onMiss)
    (hblock : p.config.tag blockAddr = blockAddr)
    (hmiss : result.status = .hitReserved ∨ result.status = .miss)
    (haccess : p.access c.tagArray blockAddr time = some (result, evicted, t')) :
    (t'.lines (accessIndex cacheIndex result)).tag = blockAddr ∧
      (t'.lines (accessIndex cacheIndex result)).status = .reserved := by
  obtain ⟨hprobe, hlines⟩ := access_cases haccess
  cases result with
  | hit idx => simp [ProbeResult.status] at hmiss
  | reservationFail => simp [ProbeResult.status] at hmiss
  | hitReserved idx =>
      obtain ⟨htag, hres⟩ := probe_hitReserved hprobe
      dsimp only at hlines
      rw [hlines, accessIndex, Function.update_self]
      exact ⟨htag.trans hblock, hres⟩
  | miss idx evictIdx =>
      dsimp only at hlines
      rw [if_pos hpolicy] at hlines
      rw [hlines, accessIndex, Function.update_self]
      exact ⟨hblock, rfl⟩

/-- A block for which a request goes out is absent, when the cache allocates on a fill. -/
theorem access_absent (hone : p.Once c) (hpolicy : p.config.allocPolicy = .onFill)
    (hmiss : result.status = .hitReserved ∨ result.status = .miss)
    (haccess : p.access c.tagArray blockAddr time = some (result, evicted, t')) :
    p.Absent t'.lines blockAddr := by
  obtain ⟨hprobe, hlines⟩ := access_cases haccess
  cases result with
  | hit idx => simp [ProbeResult.status] at hmiss
  | reservationFail => simp [ProbeResult.status] at hmiss
  | hitReserved idx => exact absurd (probe_hitReserved hprobe).2 (hone.unreserved hpolicy idx)
  | miss idx evictIdx =>
      dsimp only at hlines
      rw [if_neg (by simp [hpolicy])] at hlines
      rw [hlines]
      exact (probe_miss_cases hprobe).absent

/-- A request joins those on their way. -/
theorem Once.insert (h : p.Once c) (hblock : p.config.tag blockAddr = blockAddr)
    (hfields : fields.blockAddr = blockAddr)
    (habsent : p.config.allocPolicy = .onFill → p.Absent c.tagArray.lines blockAddr)
    (hreserved : p.config.allocPolicy = .onMiss →
      (c.tagArray.lines fields.cacheIndex).tag = blockAddr ∧
        (c.tagArray.lines fields.cacheIndex).status = .reserved)
    (hlines : c'.tagArray = c.tagArray)
    (hinsert : c'.extraMfFields = c.extraMfFields.insert uid fields) : p.Once c' := by
  have hcases : ∀ uid' fields', c'.extraMfFields.lookup uid' = some fields' →
      fields' = fields ∨ c.extraMfFields.lookup uid' = some fields' := by
    intro uid' fields' hlookup
    rw [hinsert] at hlookup
    by_cases huid : uid' = uid
    · subst huid
      rw [AList.lookup_insert] at hlookup
      exact Or.inl (Option.some.inj hlookup).symm
    · rw [AList.lookup_insert_ne huid] at hlookup
      exact Or.inr hlookup
  refine ⟨?_, fun uid' fields' hlookup => ?_, ?_, fun hfill uid' fields' hlookup => ?_,
    fun hmiss uid' fields' hlookup => ?_⟩
  · rw [hlines]
    exact h.oneWay
  · rcases hcases uid' fields' hlookup with rfl | hlookup
    · rw [hfields]
      exact hblock
    · exact h.block uid' fields' hlookup
  · rw [hlines]
    exact h.unreserved
  · rw [hlines]
    rcases hcases uid' fields' hlookup with rfl | hlookup
    · rw [hfields]
      exact habsent hfill
    · exact h.absent hfill uid' fields' hlookup
  · rw [hlines]
    rcases hcases uid' fields' hlookup with rfl | hlookup
    · rw [hfields]
      exact hreserved hmiss
    · exact h.reserved hmiss uid' fields' hlookup

/-- **A read request** for a block that was not found. -/
theorem sendReadRequest_once {r : ReadRequest} {probeStatus : ProbeResult} (h : p.Once c)
    (hblock : p.config.tag blockAddr = blockAddr)
    (hprobe : p.probe c.tagArray.lines blockAddr 0 = some probeStatus)
    (hmiss : probeStatus.status = .hitReserved ∨ probeStatus.status = .miss)
    (hr : p.sendReadRequest c blockAddr cacheIndex mf time events readOnly wa = some r) :
    p.Once r.cache := by
  rcases sendReadRequest_cases hr with
    rfl | ⟨result, _, tagArray, mshrs, hread, -, -, ⟨-, rfl⟩ | ⟨-, _, rfl⟩⟩
  · exact h
  · obtain ⟨_, haccess⟩ := access_of_readAccess hread
    exact (h.access haccess).still still_refl
  · obtain ⟨_, haccess⟩ := access_of_readAccess hread
    obtain rfl : probeStatus = result :=
      Option.some.inj (hprobe.symm.trans (access_cases haccess).1)
    refine (h.access haccess).insert hblock rfl ?_ ?_ rfl rfl
    · exact fun hfill => access_absent h hfill hmiss haccess
    · exact fun hpolicy => access_index hpolicy hblock hmiss haccess

/-! ## Accesses -/

theorem wrHitWb_still (hprobe : p.probe c.tagArray.lines (p.config.blockAddr addr) 0 = some (.hit idx))
    (h : p.wrHitWb c addr cacheIndex mf time events = some o) : Still c o.cache := by
  simp only [wrHitWb, Option.bind_eq_bind, Option.bind_eq_some_iff, Option.pure_def,
    Option.some.injEq] at h
  obtain ⟨⟨result, t⟩, haccess, rfl⟩ := h
  obtain ⟨rfl, htouched, hlive, hhit⟩ := accessNoWb_found hprobe haccess
  exact ⟨htouched.trans (setStatus_touched hlive hhit (by simp)), rfl⟩

theorem wrHitWt_still (hprobe : p.probe c.tagArray.lines (p.config.blockAddr addr) 0 = some (.hit idx))
    (h : p.wrHitWt c addr cacheIndex mf time events = some o) : Still c o.cache := by
  unfold wrHitWt at h
  split at h
  · rw [← Option.some.inj h]
    exact still_refl
  · simp only [Option.bind_eq_bind, Option.bind_eq_some_iff, Option.pure_def,
      Option.some.injEq] at h
    obtain ⟨⟨result, t⟩, haccess, rfl⟩ := h
    obtain ⟨rfl, htouched, hlive, hhit⟩ := accessNoWb_found hprobe haccess
    exact ⟨htouched.trans (setStatus_touched hlive hhit (by simp)), rfl⟩

/-- A write that evicts gives the line up. -/
theorem wrHitWe_still (hprobe : p.probe c.tagArray.lines (p.config.blockAddr addr) 0 = some (.hit idx))
    (h : p.wrHitWe c idx mf events = some o) : Still c o.cache := by
  unfold wrHitWe at h
  split at h
  · rw [← Option.some.inj h]
    exact still_refl
  · obtain ⟨-, hlive, hhit⟩ := probe_hit hprobe
    rw [← Option.some.inj h]
    exact ⟨setStatus_touched hlive hhit (by simp), rfl⟩

theorem wrHit_still (hprobe : p.probe c.tagArray.lines (p.config.blockAddr addr) 0 = some (.hit idx))
    (h : p.wrHit c addr idx mf time events = some o) : Still c o.cache := by
  unfold wrHit at h
  split at h
  · cases h
  · exact wrHitWb_still hprobe h
  · exact wrHitWt_still hprobe h
  · exact wrHitWe_still hprobe h
  · unfold wrHitGlobalWeLocalWb at h
    split at h
    · exact wrHitWe_still hprobe h
    · exact wrHitWb_still hprobe h

theorem rdHitBase_still
    (hprobe : p.probe c.tagArray.lines (p.config.blockAddr addr) 0 = some (.hit idx))
    (h : p.rdHitBase c addr cacheIndex mf time events = some o) : Still c o.cache := by
  simp only [rdHitBase, Option.bind_eq_bind, Option.bind_eq_some_iff] at h
  obtain ⟨⟨result, t⟩, haccess, h⟩ := h
  obtain ⟨rfl, htouched, hlive, hhit⟩ := accessNoWb_found hprobe haccess
  split at h
  · simp only [Option.pure_def, Option.bind_eq_some_iff, Option.some.injEq] at h
    obtain ⟨_, -, rfl⟩ := h
    exact ⟨htouched.trans (setStatus_touched hlive hhit (by simp)), rfl⟩
  · rw [← Option.some.inj h]
    exact ⟨htouched, rfl⟩

section Misses

variable {probeStatus : ProbeResult}

theorem wrMissWa_once (hc : p.Once c)
    (hprobe : p.probe c.tagArray.lines (p.config.blockAddr addr) 0 = some probeStatus)
    (hmiss : probeStatus.status = .hitReserved ∨ probeStatus.status = .miss)
    (h : p.wrMissWa c addr cacheIndex mf time events = some o) : p.Once o.cache := by
  unfold wrMissWa at h
  dsimp only at h
  split at h
  · rw [← Option.some.inj h]
    exact hc
  · simp only [sendWriteRequest, Option.bind_eq_bind, Option.bind_eq_some_iff] at h
    obtain ⟨r, hr, h⟩ := h
    have hqueued : p.Once { c with
        missQueue := c.missQueue ++ [mf], nextRequestUid := c.nextRequestUid + 1 } :=
      hc.still still_refl
    have hsent : p.Once r.cache :=
      sendReadRequest_once hqueued (p.config.blockAddr_blockAddr addr) hprobe hmiss hr
    split at h
    · split at h
      · split at h
        · rw [← Option.some.inj h]
          exact hsent.still still_refl
        · rw [← Option.some.inj h]
          exact hsent
      · rw [← Option.some.inj h]
        exact hsent
    · rw [← Option.some.inj h]
      exact hsent

theorem wrMissNoWa_still (h : p.wrMissNoWa c mf events = some o) : Still c o.cache := by
  unfold wrMissNoWa at h
  split at h <;> rw [← Option.some.inj h] <;> exact still_refl

theorem rdMissBase_once (hc : p.Once c)
    (hprobe : p.probe c.tagArray.lines (p.config.blockAddr addr) 0 = some probeStatus)
    (hmiss : probeStatus.status = .hitReserved ∨ probeStatus.status = .miss)
    (h : p.rdMissBase c addr cacheIndex mf time events = some o) : p.Once o.cache := by
  unfold rdMissBase at h
  split at h
  · rw [← Option.some.inj h]
    exact hc
  · simp only [sendWriteRequest, Option.bind_eq_bind, Option.bind_eq_some_iff] at h
    obtain ⟨r, hr, h⟩ := h
    have hsent := sendReadRequest_once hc (p.config.blockAddr_blockAddr addr) hprobe hmiss hr
    split at h
    · split at h
      · split at h
        · rw [← Option.some.inj h]
          exact hsent.still still_refl
        · rw [← Option.some.inj h]
          exact hsent
      · rw [← Option.some.inj h]
        exact hsent
    · rw [← Option.some.inj h]
      exact hsent

theorem dispatch_once (hc : p.Once c)
    (hprobe : p.probe c.tagArray.lines (p.config.blockAddr addr) 0 = some probeStatus)
    (h : p.dispatch c probeStatus addr mf time events = some o) : p.Once o.cache := by
  have hmiss : ∀ idx, probeStatus.status = .hitReserved ∨ probeStatus.status = .miss →
      (if mf.isWrite then p.wrMiss c addr idx mf time events
        else p.rdMissBase c addr idx mf time events) = some o → p.Once o.cache := by
    intro idx hstatus h
    split at h
    · unfold wrMiss at h
      split at h
      · exact wrMissWa_once hc hprobe hstatus h
      · exact hc.still (wrMissNoWa_still h)
    · exact rdMissBase_once hc hprobe hstatus h
  cases probeStatus with
  | hit idx =>
      have h : (if mf.isWrite then p.wrHit c addr idx mf time events
        else p.rdHitBase c addr idx mf time events) = some o := h
      split at h
      · exact hc.still (wrHit_still hprobe h)
      · exact hc.still (rdHitBase_still hprobe h)
  | hitReserved idx => exact hmiss idx (Or.inl rfl) h
  | miss idx evict => exact hmiss idx (Or.inr rfl) h
  | reservationFail =>
      rw [← Option.some.inj h]
      exact hc

end Misses

theorem dataAccess_once (hc : p.Once c) (h : p.dataAccess c addr mf time events = some o) :
    p.Once o.cache := by
  simp only [dataAccess, Option.bind_eq_bind, Option.bind_eq_some_iff, Option.pure_def,
    Option.some.injEq] at h
  obtain ⟨_, -, probeStatus, hprobe, o', ho', rfl⟩ := h
  apply (dispatch_once hc hprobe ho').still
  show Still o'.cache (p.useDataPort o'.cache o'.mf o'.status o'.events)
  unfold useDataPort
  split
  · exact still_refl
  · split <;> exact still_refl
  · split <;> exact still_refl
  · exact still_refl

theorem readOnlyAccess_once (hc : p.Once c) (h : p.readOnlyAccess c addr mf time events = some o) :
    p.Once o.cache := by
  simp only [readOnlyAccess, Option.bind_eq_bind, Option.bind_eq_some_iff] at h
  obtain ⟨_, -, _, -, _, -, probeStatus, hprobe, h⟩ := h
  have hmiss : ∀ idx, probeStatus.status = .hitReserved ∨ probeStatus.status = .miss →
      (if p.missQueueFull c 0 then
        (pure ⟨.reservationFail, c, mf, events⟩ : Option Outcome)
      else (p.sendReadRequest c (p.config.blockAddr addr) idx mf time events true false).bind fun r =>
        pure ⟨if r.doMiss then .miss else .reservationFail, r.cache, r.mf, r.events⟩) = some o →
      p.Once o.cache := by
    intro idx hstatus h
    split at h
    · rw [← Option.some.inj h]
      exact hc
    · simp only [Option.bind_eq_some_iff, Option.pure_def, Option.some.injEq] at h
      obtain ⟨r, hr, rfl⟩ := h
      exact sendReadRequest_once hc (p.config.blockAddr_blockAddr addr) hprobe hstatus hr
  cases probeStatus with
  | hit idx =>
      simp only [Option.bind_eq_some_iff, Option.pure_def, Option.some.injEq] at h
      obtain ⟨r, haccess, rfl⟩ := h
      exact hc.access (access_of_accessNoWb haccess)
  | hitReserved idx => exact hmiss idx (Or.inl rfl) h
  | miss idx evict => exact hmiss idx (Or.inr rfl) h
  | reservationFail =>
      rw [← Option.some.inj h]
      exact hc

/-! ## Responses -/

theorem lookup_of_erase (h : (c.extraMfFields.erase uid).lookup uid' = some fields) :
    uid' ≠ uid ∧ c.extraMfFields.lookup uid' = some fields := by
  have hne : uid' ≠ uid := by
    rintro rfl
    rw [AList.lookup_erase] at h
    cases h
  rw [AList.lookup_erase_ne hne] at h
  exact ⟨hne, h⟩

/-- The line of a request gets its data, when the cache allocates on a miss. -/
theorem Once.answered (h : p.Once c) (hd : Tracked c) {block : CacheBlock}
    (hpolicy : p.config.allocPolicy = .onMiss)
    (hlookup : c.extraMfFields.lookup uid = some fields)
    (htag : block.tag = (c.tagArray.lines fields.cacheIndex).tag)
    (hlines : c'.tagArray.lines = Function.update c.tagArray.lines fields.cacheIndex block)
    (herase : c'.extraMfFields = c.extraMfFields.erase uid) : p.Once c' := by
  have hres := h.reserved hpolicy uid fields hlookup
  have hkept : Kept c.tagArray.lines c'.tagArray.lines := by
    rw [hlines]
    exact kept_update htag (Or.inl (by simp [hres.2]))
  refine ⟨h.oneWay.kept hkept, fun uid' fields' hf => ?_, fun hfill => ?_, fun hfill => ?_,
    fun _ uid' fields' hf => ?_⟩
  · rw [herase] at hf
    exact h.block uid' fields' (lookup_of_erase hf).2
  · simp [hpolicy] at hfill
  · rw [hpolicy] at hfill
    cases hfill
  · rw [herase] at hf
    obtain ⟨hne, hf⟩ := lookup_of_erase hf
    have hres' := h.reserved hpolicy uid' fields' hf
    -- two requests have two lines, since the lines have their tags
    have hline : fields'.cacheIndex ≠ fields.cacheIndex := by
      intro heq
      rw [heq] at hres'
      exact hne (hd.uid_eq hf hlookup (hres'.1.symm.trans hres.1))
    rw [hlines, Function.update_of_ne hline]
    exact hres'

/-- **A response.** -/
theorem fill_once {r : BaselineCache × MemFetch} (hc : p.Once c) (hd : Tracked c)
    (h : p.fill c mf time = some r) : p.Once r.1 := by
  obtain ⟨fields, tagArray, mshrs, hasAtomic, hlookup, htags, -, hatomic, hr⟩ := fill_cases h
  have herase : r.1.extraMfFields = c.extraMfFields.erase mf.requestUid := by
    rw [hr]
    rfl
  cases hpolicy : p.config.allocPolicy with
  | onMiss =>
      simp only [fillTags, hpolicy] at htags
      obtain ⟨-, -, hlines⟩ := fillIdx_cases htags
      have hline : ∃ block : CacheBlock, block.tag = (c.tagArray.lines fields.cacheIndex).tag ∧
          r.1.tagArray.lines = Function.update c.tagArray.lines fields.cacheIndex block := by
        cases hasAtomic with
        | false =>
            refine ⟨_, ?_, (congrArg (fun c : BaselineCache => c.tagArray.lines) hr).trans hlines⟩
            rfl
        | true =>
            have hdirty : r.1.tagArray.lines =
                (setStatus tagArray fields.cacheIndex .modified).lines := by
              rw [hr]
              rfl
            rw [setStatus, hlines, Function.update_self, Function.update_idem] at hdirty
            refine ⟨_, ?_, hdirty⟩
            rfl
      obtain ⟨block, htag, hline⟩ := hline
      exact hc.answered hd hpolicy hlookup htag hline herase
  | onFill =>
      have hfalse : hasAtomic = false := by
        by_contra hne
        rw [hatomic (by simpa using hne)] at hpolicy
        cases hpolicy
      subst hfalse
      have hfill : ∃ size compressed,
          p.fillAddr c.tagArray fields.blockAddr time size compressed = some tagArray := by
        simp only [fillTags, hpolicy] at htags
        split at htags
        · exact ⟨_, _, htags⟩
        · obtain ⟨⟨size, compressed⟩, -, htags⟩ := Option.bind_eq_some_iff.1 htags
          exact ⟨_, _, htags⟩
      obtain ⟨_, _, hfill⟩ := hfill
      obtain ⟨hway, hnone, hother⟩ := fillAddr_once hc.oneWay (hc.unreserved hpolicy) hfill
      have hlines : r.1.tagArray = tagArray := by
        rw [hr]
        rfl
      refine ⟨?_, fun uid' fields' hf => ?_, fun _ => ?_, fun _ uid' fields' hf => ?_, fun hmiss => ?_⟩
      · rw [hlines]
        exact hway
      · rw [herase] at hf
        exact hc.block uid' fields' (lookup_of_erase hf).2
      · rw [hlines]
        exact hnone
      · rw [herase] at hf
        obtain ⟨hne, hf⟩ := lookup_of_erase hf
        rw [hlines]
        apply hother _ (hc.absent hpolicy uid' fields' hf)
        rw [hc.block _ _ hf, hc.block _ _ hlookup]
        exact fun heq => hne (hd.uid_eq hf hlookup heq)
      · simp [hpolicy] at hmiss

/-! ## Runs -/

theorem step_once {op : CacheOp} (hc : p.Once c) (hd : Tracked c) (h : p.Step c op c') :
    p.Once c' := by
  obtain ⟨-, h⟩ := h
  cases op with
  | access addr mf time =>
      unfold apply at h
      dsimp only at h
      split at h
      · obtain ⟨o, ho, rfl⟩ := Option.map_eq_some_iff.1 h
        exact readOnlyAccess_once hc ho
      · obtain ⟨o, ho, rfl⟩ := Option.map_eq_some_iff.1 h
        exact dataAccess_once hc ho
  | fill mf time =>
      obtain ⟨r, hr, rfl⟩ := Option.map_eq_some_iff.1 h
      exact fill_once hc hd hr
  | nextAccess =>
      obtain ⟨r, hr, rfl⟩ := Option.map_eq_some_iff.1 h
      obtain ⟨_, -, rfl⟩ := Option.map_eq_some_iff.1 hr
      exact hc.still still_refl
  | cycle portFull =>
      obtain rfl := Option.some.inj h
      apply hc.still
      unfold cycle
      dsimp only
      split
      · split <;> exact still_refl
      · exact still_refl
  | newRequest =>
      obtain rfl := Option.some.inj h
      exact hc.still still_refl

theorem start_invalid (h : p.Start c) (i : ℕ) : (c.tagArray.lines i).status = .invalid := by
  obtain ⟨_, h⟩ := h
  simp only [newCache, Option.bind_eq_bind, Option.bind_eq_some_iff, Option.pure_def,
    Option.some.injEq] at h
  obtain ⟨t, ht, _, -, rfl⟩ := h
  show (t.lines i).status = .invalid
  unfold newArray at ht
  split_ifs at ht
  · rw [← Option.some.inj ht]
  · rw [← Option.some.inj ht]

theorem start_extraMfFields (h : p.Start c) : c.extraMfFields = ∅ := by
  obtain ⟨_, h⟩ := h
  simp only [newCache, Option.bind_eq_bind, Option.bind_eq_some_iff, Option.pure_def,
    Option.some.injEq] at h
  obtain ⟨t, ht, _, -, rfl⟩ := h
  rfl

theorem start_once (h : p.Start c) : p.Once c := by
  have hinvalid := start_invalid h
  have hnone : ∀ {uid fields}, c.extraMfFields.lookup uid ≠ some fields := by
    intro uid fields
    rw [start_extraMfFields h, AList.lookup_empty]
    exact nofun
  refine ⟨fun _ i _ _ _ hlive => absurd (hinvalid i) hlive, fun _ _ hf => absurd hf hnone,
    fun _ i hres => ?_, fun _ _ _ hf => absurd hf hnone, fun _ _ _ hf => absurd hf hnone⟩
  rw [hinvalid i] at hres
  cases hres

theorem reach_once {ops : List CacheOp} (h : Reach p.Start p.Step ops c) : p.Once c :=
  h.invariant (fun _ => p.Once) (fun _ => start_once)
    fun _ _ _ _ hreach hc hstep => step_once hc (reach_tracked hreach) hstep

/-- **A block is cached once.**  In every run, no two ways of a set hold a tag; and for every request on
its way to memory, a search for its block ends in a miss when the cache allocates on a fill, and its line
is reserved for the block when it allocates on a miss. -/
theorem block_cached_once {ops : List CacheOp} (h : Reach p.Start p.Step ops c) :
    p.OneWay c.tagArray.lines ∧
      ∀ uid fields, c.extraMfFields.lookup uid = some fields →
        (p.config.allocPolicy = .onFill → ∀ segNo result,
          p.probe c.tagArray.lines fields.blockAddr segNo = some result → result.status = .miss) ∧
        (p.config.allocPolicy = .onMiss →
          (c.tagArray.lines fields.cacheIndex).tag = p.config.tag fields.blockAddr ∧
            (c.tagArray.lines fields.cacheIndex).status = .reserved) := by
  have honce := reach_once h
  refine ⟨honce.oneWay, fun uid fields hf => ⟨fun hfill segNo result hprobe => ?_, fun hmiss => ?_⟩⟩
  · exact probe_of_absent (honce.absent hfill uid fields hf) (honce.unreserved hfill) hfill hprobe
  · rw [honce.block uid fields hf]
    exact honce.reserved hmiss uid fields hf

/-- A compressed L1 data cache with one set of two lines of data. -/
def twoTags : CacheParams where
  config :=
    { cls := .l1d, nset := 1, lineSz := 128, assoc := 2, replacementPolicy := .lru
      writePolicy := .writeEvict, allocPolicy := .onFill, writeAllocPolicy := .noWriteAllocate
      mshrType := .assoc, mshrEntries := 4, mshrMaxMerge := 4, missQueueSize := 4
      resultFifoEntries := 0, dataPortWidth := 128, setIndexFunction := .linear }
  comp := ⟨1, 2, 32⟩
  isL1D := true
  wrAllocType := .l1WrAllocR
  wrbkType := .l1WrbkAcc

/-- A global read of a block, that compresses to 32 bytes. -/
def globalRead (uid : ℕ) (addr : NewAddrType) : MemFetch :=
  { requestUid := uid, accessType := .globalAccR, isWrite := false, isAtomic := false, addr,
    dataSize := 128, compDataBits := 256 }

/-- Two blocks are asked for, and the answer for the first one comes. -/
theorem block_cached_once_twoTags : ∃ c,
    Reach twoTags.Start twoTags.Step
      [.newRequest, .newRequest, .access 0 (globalRead 0 0) 1, .access 0x80 (globalRead 1 0x80) 2,
        .fill (globalRead 0 0) 3] c ∧
      twoTags.OneWay c.tagArray.lines ∧
      ∀ segNo result, twoTags.probe c.tagArray.lines 0x80 segNo = some result →
        result.status = .miss := by
  have h₁ : Reach twoTags.Start twoTags.Step [.newRequest] _ :=
    .step (.start ⟨0, rfl⟩) ⟨trivial, rfl⟩
  have h₂ : Reach twoTags.Start twoTags.Step [.newRequest, .newRequest] _ :=
    .step h₁ ⟨trivial, rfl⟩
  have h₃ : Reach twoTags.Start twoTags.Step
      [.newRequest, .newRequest, .access 0 (globalRead 0 0) 1] _ :=
    .step h₂ ⟨⟨by decide, AList.notMem_empty _⟩, rfl⟩
  have h₄ : Reach twoTags.Start twoTags.Step
      [.newRequest, .newRequest, .access 0 (globalRead 0 0) 1, .access 0x80 (globalRead 1 0x80) 2] _ :=
    .step h₃ ⟨⟨by decide, by decide⟩, rfl⟩
  have h₅ : Reach twoTags.Start twoTags.Step
      [.newRequest, .newRequest, .access 0 (globalRead 0 0) 1, .access 0x80 (globalRead 1 0x80) 2,
        .fill (globalRead 0 0) 3] _ :=
    .step h₄ ⟨trivial, rfl⟩
  exact ⟨_, h₅, (block_cached_once h₅).1, ((block_cached_once h₅).2 1 _ rfl).1 rfl⟩

end CompressionWork.Cache.CacheParams
