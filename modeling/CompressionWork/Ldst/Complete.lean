import CompressionWork.Ldst.Loads

/-!
# The load/store unit: every run keeps its ledger

The stages of `m_dispatch_reg` and the end of `cycle` keep the invariant, and with the writeback every run
does.
-/

namespace CompressionWork.Ldst

/-! ## The stages -/

/-- What a stage does: nothing, a hit in place, or an access that is sent. -/
inductive Stage.Of (m : PendingWrites) (d : WarpInst) (q : ℕ) : Stage → Prop
  | stay : Stage.Of m d q ⟨m, q, none⟩
  | hit (hs : d.space ≠ .shared) (hq : q ≠ 0) :
      Stage.Of m d q
        ⟨if d.isLoad then d.regs.foldl (fun m r => addPending m d.warpId (-1) r) m else m, q - 1, none⟩
  | send (hs : d.space ≠ .shared) (hq : q ≠ 0) (c : Client) : Stage.Of m d q ⟨m, q - 1, some c⟩

theorem processMemoryAccessQueue_of (m : PendingWrites) (c : Client) {d : WarpInst} (q : ℕ)
    (input : CycleInput) (hs : d.space ≠ .shared) :
    Stage.Of m d q (processMemoryAccessQueue m c d q input) := by
  unfold processMemoryAccessQueue
  split
  · exact .stay
  · next hn =>
    have hq : q ≠ 0 := fun h => hn (.inl h)
    split
    · next status _ =>
      cases status with
      | hit => exact .hit hs hq
      | reservationFail => exact .stay
      | miss => exact .send hs hq c
      | hitReserved => exact .send hs hq c
    · exact .stay

/-- No assertion fails in `memory_cycle`. -/
theorem memoryCycle_of {m : PendingWrites} {d : WarpInst} {q : ℕ} (input : CycleInput)
    (hs : d.space ≠ .shared) (hq : q ≠ 0)
    (hp : d.isLoad = true → ∀ r ∈ d.regs, 0 < m.count d.warpId r) :
    ∃ g, memoryCycle m d q input = some g ∧ Stage.Of m d q g := by
  unfold memoryCycle
  rw [if_neg hq]
  split
  · split
    · exact ⟨_, rfl, .stay⟩
    · split
      · next hn =>
        obtain ⟨hl, r, hr, hle⟩ := hn
        have hpos : 0 < (m d.warpId r).getD 0 := hp hl r hr
        omega
      · exact ⟨_, rfl, .send hs hq .global⟩
  · exact ⟨_, rfl, processMemoryAccessQueue_of m .l1d q input hs⟩

/-- The stages are done when the queue is empty. -/
theorem stages_of {m : PendingWrites} {d : WarpInst} {q : ℕ} (input : CycleInput)
    (hq : d.space ≠ .shared → (q = 0 ↔ d.activeCount = 0))
    (hp : d.counted = true → q ≠ 0 → ∀ r ∈ d.regs, 0 < m.count d.warpId r) :
    ∃ b g, stages m d q input = some (b, g) ∧ (d.space ≠ .shared → (b = true ↔ g.accessq = 0)) ∧
      Stage.Of m d q g := by
  by_cases hs : d.space = .shared
  · exact ⟨_, _, by simp only [stages, hs]; rfl, fun h => absurd hs h, .stay⟩
  · have hq := hq hs
    by_cases ha : d.activeCount = 0
    · refine ⟨true, ⟨m, q, none⟩, ?_, fun _ => by simpa using hq.2 ha, .stay⟩
      unfold stages
      split <;> simp_all
    · have hq0 : q ≠ 0 := fun h => ha (hq.1 h)
      have hload : d.isLoad = true → ∀ r ∈ d.regs, 0 < m.count d.warpId r :=
        fun hl => hp (by simp [WarpInst.counted, hl, hs]) hq0
      obtain ⟨g, hg, hof⟩ := memoryCycle_of input hs hq0 hload
      cases hsp : d.space with
      | shared => exact absurd hsp hs
      | const =>
        exact ⟨_, _, by simp only [stages, hsp, ha, if_false]; rfl, fun _ => by simp,
          processMemoryAccessQueue_of m .const q input hs⟩
      | paramKernel =>
        exact ⟨_, _, by simp only [stages, hsp, ha, if_false]; rfl, fun _ => by simp,
          processMemoryAccessQueue_of m .const q input hs⟩
      | tex =>
        exact ⟨_, _, by simp only [stages, hsp, ha, if_false]; rfl, fun _ => by simp,
          processMemoryAccessQueue_of m .tex q input hs⟩
      | global =>
        exact ⟨_, g, by simp only [stages, hsp, ha, if_false, hg]; rfl, fun _ => by simp, hof⟩
      | «local» =>
        exact ⟨_, g, by simp only [stages, hsp, ha, if_false, hg]; rfl, fun _ => by simp, hof⟩
      | paramLocal =>
        exact ⟨_, g, by simp only [stages, hsp, ha, if_false, hg]; rfl, fun _ => by simp, hof⟩

namespace LdstRun

variable {s : LdstRun}

/-- The run after the stages of the instruction in `m_dispatch_reg`. -/
def staged (s : LdstRun) (d : WarpInst) (g : Stage) : LdstRun :=
  { s with
    unit := { s.unit with pendingWrites := g.pendingWrites, accessq := g.accessq }
    inFlight := s.inFlight ++
      ((g.sent.map fun client => (client, d)).toList.filter fun access => access.2.isLoad) }

theorem Inv.staged (h : Inv s) {d : WarpInst} {g : Stage} (hd : s.unit.dispatchReg = some d)
    (hg : Stage.Of s.unit.pendingWrites d s.unit.accessq g) : Core (s.staged d g) := by
  cases hg with
  | stay =>
    have hsame : s.staged d ⟨s.unit.pendingWrites, s.unit.accessq, none⟩ = s := by
      simp [LdstRun.staged]
    rw [hsame]
    exact h.toCore
  | hit hs hq =>
    refine ⟨?_, h.issued, h.pipeline, ?_⟩
    · have hn := (h.issued d (h.ledger.dispatch d hd).1.1).nodup
      have hc := h.ledger.hit hd hq
      convert hc using 1
      simp only [LdstRun.ledger, LdstRun.staged, Ledger.hit, LdstRun.queued, LdstRun.sent,
        Ledger.mk.injEq]
      refine ⟨?_, trivial, trivial, trivial, rfl, trivial, trivial, ?_⟩
      · funext w r
        by_cases hl : d.isLoad = true
        · rw [if_pos hl, count_foldl_addPending _ _ hn]
          simp only [WarpInst.counted, hl, WarpInst.Writes]
          grind
        · simp [hl, WarpInst.counted]
      · simp [LdstUnit.nextAccess]
    · intro j hj
      exact h.sent j (by simpa [LdstRun.staged, LdstRun.sent, LdstUnit.nextAccess] using hj)
  | send hs hq c =>
    have ha : d.activeCount ≠ 0 := fun ha => hq ((h.queue d hd hs).2 ha)
    have hsent : (s.staged d ⟨s.unit.pendingWrites, s.unit.accessq - 1, some c⟩).sent =
        if d.isLoad = true then d ::ₘ s.sent else s.sent := by
      by_cases hl : d.isLoad = true
      · simp [LdstRun.staged, LdstRun.sent, LdstUnit.nextAccess, hl, ← Multiset.coe_add,
          ← Multiset.singleton_add]
        abel
      · simp [LdstRun.staged, LdstRun.sent, LdstUnit.nextAccess, hl]
    refine ⟨?_, h.issued, h.pipeline, ?_⟩
    · have hc := h.ledger.send hd hq hs ha
      convert hc using 1
      simp only [LdstRun.ledger, hsent, Ledger.send, Ledger.mk.injEq]
      refine ⟨rfl, rfl, rfl, rfl, rfl, rfl, rfl, ?_⟩
      by_cases hl : d.isLoad = true <;> by_cases hr : d.regs = [] <;> simp [hl, hr]
    · intro j hj
      rw [hsent] at hj
      split at hj
      · rcases Multiset.mem_cons.1 hj with rfl | hj
        · exact hs
        · exact h.sent j hj
      · exact h.sent j hj

/-! ## The end of the cycle -/

theorem Core.notMem_accesses (h : Core s) {d : WarpInst} (hc : d.counted = false) :
    d ∉ s.ledger.accesses := by
  intro ht
  have hcount := (h.ledger.accesses d ht).2.1
  simp [hc] at hcount

/-- The instruction in `m_dispatch_reg` is complete. -/
theorem Core.complete (h : Core s) {d : WarpInst} (hd : s.unit.dispatchReg = some d)
    (hna : d ∉ s.ledger.accesses) (hq : d.counted = true → s.unit.accessq = 0) {m : PendingWrites}
    {t : RegTable} (hm : m.count = s.unit.pendingWrites.count)
    (ht : t = fun w r => if d.Writes w r then false else s.unit.regTable w r) :
    Inv { s with unit := { s.unit with
      pendingWrites := m, regTable := t, dispatchReg := none, completed := s.unit.completed ++ [d] } } := by
  refine ⟨⟨?_, h.issued, h.pipeline, h.sent⟩, by simp⟩
  have hc := (h.ledger.forward hd hna hq).complete (i := d) (Multiset.mem_cons_self d s.ledger.queued)
  convert hc using 1
  simp only [LdstRun.ledger, Ledger.forward, Ledger.complete, hm, ht, Multiset.erase_cons_head]
  rfl

/-- A load of shared memory enters its pipeline. -/
theorem Core.enter (h : Core s) {d : WarpInst} (hd : s.unit.dispatchReg = some d)
    (hs : d.space = .shared) (hl : d.isLoad = true) (h2 : s.unit.pipelineReg2 = none) :
    Inv { s with unit := { s.unit with pipelineReg2 := some d, dispatchReg := none } } := by
  have hcount : d.counted = false := by simp [WarpInst.counted, hs]
  have hpipe : ({ s.unit with pipelineReg2 := some d, dispatchReg := none } : LdstUnit).pipeline =
      d ::ₘ s.unit.pipeline := by
    simp [LdstUnit.pipeline, h2, ← Multiset.singleton_add, -Multiset.coe_add]
    abel
  refine ⟨⟨?_, h.issued, ?_, h.sent⟩, by simp⟩
  · have hc := h.ledger.forward hd (h.notMem_accesses hcount) (by simp [hcount])
    convert hc using 1
    simp only [LdstRun.ledger, LdstRun.queued, Ledger.forward, hpipe, Multiset.add_cons]
    rfl
  · intro j hj
    simp only [hpipe, Multiset.cons_add] at hj
    rcases Multiset.mem_cons.1 hj with rfl | hj
    · exact ⟨hs, hl⟩
    · exact h.pipeline j hj

/-- A count above zero after the last access has left the queue is that of an access under way. -/
theorem Core.mem_accesses_iff (h : Core s) {d : WarpInst} (hd : s.unit.dispatchReg = some d)
    (hq : s.unit.accessq = 0) :
    d ∈ s.ledger.accesses ↔ ∃ r ∈ d.regs, 0 < s.unit.pendingWrites.count d.warpId r := by
  have hcount : ∀ r, s.unit.pendingWrites.count d.warpId r =
      (s.ledger.accesses.countP (·.Writes d.warpId r) : ℤ) := by
    intro r
    have hc := h.ledger.count d.warpId r
    have hzero : s.ledger.queue d.warpId r = 0 := by
      simp [Ledger.queue, LdstRun.ledger, hq]
    rw [Ledger.unserved, hzero] at hc
    exact hc
  constructor
  · intro hm
    obtain ⟨r, hr⟩ := List.exists_mem_of_ne_nil _ (h.ledger.accesses d hm).2.2.1
    refine ⟨r, hr, ?_⟩
    rw [hcount r, Int.natCast_pos, Multiset.countP_pos]
    exact ⟨d, hm, rfl, hr⟩
  · rintro ⟨r, hr, hpos⟩
    rw [hcount r, Int.natCast_pos, Multiset.countP_pos] at hpos
    obtain ⟨t, ht, hw⟩ := hpos
    rwa [h.ledger.disjoint d t (h.ledger.dispatch d hd).1 (h.ledger.accesses t ht).1 _ _ ⟨rfl, hr⟩ hw]

theorem Core.retire (h : Core s) {d : WarpInst} (hd : s.unit.dispatchReg = some d)
    (hq : d.space ≠ .shared → s.unit.accessq = 0) : Inv { s with unit := retire s.unit d } := by
  have hq' : d.counted = true → s.unit.accessq = 0 := by
    intro hc
    exact hq (by simp_all [WarpInst.counted])
  unfold Ldst.retire
  split
  · next hl =>
    split
    · next hs =>
      split
      · next h2 => exact h.enter hd hs hl h2
      · refine ⟨h, fun e he hns => ?_⟩
        obtain rfl : d = e := by simpa [hd] using he
        exact absurd hs hns
    · next hs =>
      have hq := hq hs
      have hnonneg : ∀ r ∈ d.regs, 0 ≤ s.unit.pendingWrites.count d.warpId r := by
        intro r _
        have hc : s.unit.pendingWrites.count d.warpId r = s.ledger.unserved d.warpId r :=
          h.ledger.count d.warpId r
        omega
      obtain ⟨hm, hpend⟩ := pendingRequests_spec d.warpId d.regs s.unit.pendingWrites hnonneg
      rw [← h.mem_accesses_iff hd hq] at hpend
      dsimp only
      split
      · next hp =>
        refine ⟨⟨?_, h.issued, h.pipeline, h.sent⟩, by simp⟩
        have hc := h.ledger.leave hd (hpend.1 hp) hq
        convert hc using 1
        simp only [LdstRun.ledger, Ledger.leave, hm]
        rfl
      · next hp =>
        exact h.complete hd (fun ha => hp (hpend.2 ha)) hq' hm
          (Scoreboard.releaseRegisters_eq s.unit.regTable d)
  · next hl =>
    have hl : d.isLoad = false := by simpa using hl
    have hr := (h.issued d (h.ledger.dispatch d hd).1.1).store hl
    refine h.complete hd (h.notMem_accesses (by simp [WarpInst.counted, hl])) hq' rfl ?_
    simp [WarpInst.Writes, hr]

/-! ## The cycle -/

theorem Inv.dispatch (h : Inv s) (input : CycleInput) :
    ∃ r, dispatch s.unit input = some r ∧
      Inv { s with
        unit := r.1, inFlight := s.inFlight ++ (r.2.toList.filter fun access => access.2.isLoad) } := by
  cases hd : s.unit.dispatchReg with
  | none =>
    refine ⟨(s.unit, none), by simp [Ldst.dispatch, hd], ?_⟩
    simpa using h
  | some d =>
    have hpos : d.counted = true → s.unit.accessq ≠ 0 →
        ∀ r ∈ d.regs, 0 < s.unit.pendingWrites.count d.warpId r := by
      intro hc hq r hr
      have hcount : s.unit.pendingWrites.count d.warpId r = s.ledger.unserved d.warpId r :=
        h.ledger.count d.warpId r
      have hqueue : s.ledger.queue d.warpId r = s.unit.accessq := by
        simp only [Ledger.queue]
        exact if_pos ⟨d, hd, hc, rfl, hr⟩
      rw [Ledger.unserved, hqueue] at hcount
      omega
    obtain ⟨b, g, hst, hb, hg⟩ := stages_of input (h.queue d hd) hpos
    have hcore := h.staged hd hg
    have hdispatch : Ldst.dispatch s.unit input =
        some (if b then Ldst.retire (s.staged d g).unit d else (s.staged d g).unit,
          g.sent.map fun client => (client, d)) := by
      simp only [Ldst.dispatch, hd, hst, Option.map_some, LdstRun.staged]
    refine ⟨_, hdispatch, ?_⟩
    cases b with
    | true =>
      exact hcore.retire hd fun hs => (hb hs).1 rfl
    | false =>
      refine ⟨hcore, fun e he hs => ?_⟩
      obtain rfl : d = e := Option.some.inj (hd.symm.trans he)
      have hne : g.accessq ≠ 0 := fun hz => Bool.false_ne_true ((hb hs).2 hz)
      have hact : d.activeCount ≠ 0 := by
        intro ha
        have hz := (h.queue d hd hs).2 ha
        cases hg with
        | stay => exact hne hz
        | hit _ hq => exact hq hz
        | send _ hq => exact hq hz
      exact ⟨fun hz => absurd hz hne, fun hz => absurd hz hact⟩

theorem Inv.cycle (h : Inv s) (input : CycleInput) :
    ∃ s', next s (.cycle input) = some s' ∧ Inv s' := by
  obtain ⟨u, hu, hi⟩ := h.writeback input.collector
  obtain ⟨r, hr, hi⟩ := hi.shiftPipeline.dispatch input
  refine ⟨_, ?_, hi⟩
  simp only [next, Ldst.cycle, hu, Option.bind_eq_bind, Option.bind_some]
  rw [hr]
  rfl

/-! ## Runs -/

theorem Inv.issueWarp (h : Inv s) {i : WarpInst} (ha : Allowed s (.issueWarp i)) :
    ∃ s', next s (.issueWarp i) = some s' ∧ Inv s' := by
  obtain ⟨hi, hn, hstore, hshared, hacc, hcoll⟩ := ha
  have hf := Scoreboard.free_of_checkCollision hcoll
  simp only [next, Scoreboard.reserveRegisters_eq hn hf, Option.map_some]
  refine ⟨_, rfl, ⟨?_, ?_, h.pipeline, h.sent⟩, h.queue⟩
  · have hc := h.ledger.reserve hi hf
    convert hc using 1
    simp only [LdstRun.ledger, Ledger.reserve, LdstRun.queued, Ledger.mk.injEq]
    refine ⟨trivial, trivial, trivial, trivial, ?_, trivial, trivial, rfl⟩
    simp only [← Multiset.coe_add, Multiset.coe_singleton, ← Multiset.singleton_add]
    simp only [LdstUnit.nextShared, LdstUnit.pipeline]
    abel
  · intro j hj
    rcases List.mem_append.1 hj with hj | hj
    · exact h.issued j hj
    · obtain rfl := List.mem_singleton.1 hj
      exact ⟨hn, hstore, hshared, hacc⟩

theorem Inv.issue (h : Inv s) {i : WarpInst} (ha : Allowed s (.issue i)) :
    ∃ s', next s (.issue i) = some s' ∧ Inv s' := by
  obtain ⟨hi, hd⟩ := ha
  have hq : i ∈ s.ledger.queued := Multiset.mem_add.2 (.inr (Multiset.mem_add.2 (.inl hi)))
  have hwf := h.issued i (h.ledger.queued i hq).1.1
  refine ⟨_, rfl, ⟨?_, h.issued, h.pipeline, h.sent⟩, ?_⟩
  · have hc := h.ledger.issue hq hd
    convert hc using 1
    simp only [LdstRun.ledger, Ledger.issue, Ldst.issue, LdstRun.queued, Ledger.mk.injEq]
    refine ⟨?_, trivial, trivial, trivial, ?_, trivial, trivial, rfl⟩
    · funext w r
      by_cases hcd : i.counted = true
      · rw [if_pos hcd, count_foldl_addPending _ _ hwf.nodup]
        simp [hcd, WarpInst.Writes]
      · simp [hcd]
    · rw [Multiset.erase_add_right_pos _ (Multiset.mem_add.2 (.inl hi)),
        Multiset.erase_add_left_pos _ hi, Multiset.coe_erase]
      rfl
  · intro d hdd hs
    obtain rfl : i = d := by simpa [Ldst.issue] using hdd
    exact hwf.accesses hs

theorem Inv.respond (h : Inv s) {c : Client} {i : WarpInst} (ha : Allowed s (.respond c i)) :
    ∃ s', next s (.respond c i) = some s' ∧ Inv s' := by
  have hperm := List.perm_cons_erase ha.1
  have hmap : (↑(s.inFlight.map Prod.snd) : Multiset WarpInst) =
      i ::ₘ ↑((s.inFlight.erase (c, i)).map Prod.snd) := by
    rw [Multiset.cons_coe, Multiset.coe_eq_coe]
    exact hperm.map Prod.snd
  refine ⟨_, rfl, ?_⟩
  have hsent : ({ s with
      unit := { s.unit with ready := Function.update s.unit.ready c (s.unit.ready c ++ [i]) }
      inFlight := s.inFlight.erase (c, i) } : LdstRun).sent = s.sent := by
    simp only [LdstRun.sent, hmap, readyAll_append, Multiset.cons_add, Multiset.add_cons]
    rfl
  refine ⟨⟨?_, h.issued, h.pipeline, hsent ▸ h.sent⟩, h.queue⟩
  have hl := h.ledger
  convert hl using 1
  simp only [LdstRun.ledger, hsent]
  rfl

theorem Inv.next (h : Inv s) {op : LdstOp} (ha : Allowed s op) :
    ∃ s', next s op = some s' ∧ Inv s' := by
  cases op with
  | issueWarp i => exact h.issueWarp ha
  | issue i => exact h.issue ha
  | respond c i => exact h.respond ha
  | cycle input => exact h.cycle input

/-- The states of the unit, from reset. -/
inductive Reachable : LdstRun → Prop
  | start : Reachable {}
  | step {s s' : LdstRun} (op : LdstOp) (h : Reachable s) (ha : Allowed s op)
      (hn : Ldst.next s op = some s') : Reachable s'

theorem Reachable.inv (h : Reachable s) : Inv s := by
  induction h with
  | start => exact ⟨core_start, by simp⟩
  | step _ _ ha hn ih =>
    obtain ⟨s', hs', hi⟩ := ih.next ha
    rw [hn] at hs'
    cases hs'
    exact hi

/-- The accesses of loads to a register that are not served: those that were sent and are not written
back, and those in the queue of `m_dispatch_reg`. -/
def unserved (s : LdstRun) (w r : ℕ) : ℕ :=
  s.sent.countP (·.Writes w r) +
    if ∃ d ∈ s.unit.dispatchReg, d.counted ∧ d.Writes w r then s.unit.accessq else 0

theorem unserved_ledger (s : LdstRun) (w r : ℕ) : s.ledger.unserved w r = s.unserved w r := by
  have hcount : s.ledger.accesses.countP (·.Writes w r) = s.sent.countP (·.Writes w r) := by
    simp only [LdstRun.ledger, Multiset.countP_filter]
    exact Multiset.countP_congr rfl fun j _ => propext ⟨fun hw => hw.1, fun hw => ⟨hw, hw.regs_ne⟩⟩
  rw [Ledger.unserved, hcount]
  rfl

theorem Core.count_eq (h : Core s) (w r : ℕ) :
    s.unit.pendingWrites.count w r = s.unserved w r := by
  rw [← unserved_ledger]
  exact h.ledger.count w r

/-- An instruction that is not complete is somewhere. -/
theorem Core.live_cases (h : Core s) {i : WarpInst} (hi : i ∈ s.issued) (hc : i ∉ s.unit.completed) :
    i ∈ s.queued ∨ s.unit.dispatchReg = some i ∨ (i ∈ s.sent ∧ i.regs ≠ []) := by
  rcases h.ledger.covered i ⟨hi, hc⟩ with hq | hd | ha
  · exact .inl hq
  · exact .inr (.inl hd)
  · exact .inr (.inr (by simpa [LdstRun.ledger] using ha))

/-- An access that is not served has an owner, which holds the register. -/
theorem Core.count_of_free (h : Core s) {w r : ℕ} (hf : s.unit.regTable w r = false) :
    s.unit.pendingWrites.count w r = 0 := by
  by_contra hne
  have hpos : 0 < s.ledger.unserved w r := by
    have hc := h.count_eq w r
    rw [← unserved_ledger] at hc
    omega
  have hex : ∃ i, s.ledger.Live i ∧ i.Writes w r := by
    rcases Nat.add_pos_iff_pos_or_pos.1 hpos with ha | hq
    · obtain ⟨t, ht, hw⟩ := Multiset.countP_pos.1 ha
      exact ⟨t, (h.ledger.accesses t ht).1, hw⟩
    · simp only [Ledger.queue] at hq
      split at hq
      · next hd =>
        obtain ⟨d, hd, -, hw⟩ := hd
        exact ⟨d, (h.ledger.dispatch d hd).1, hw⟩
      · exact absurd hq (lt_irrefl 0)
  have ht : s.unit.regTable w r = true := (h.ledger.table w r).2 hex
  simp [hf] at ht

/-- A load that has left `m_dispatch_reg` and is not complete has an access under way. -/
theorem Core.mem_sent (h : Core s) {i : WarpInst} (hi : i ∈ s.issued) (hcd : i.counted = true)
    (hw : i ∉ s.waiting) (hd : s.unit.dispatchReg ≠ some i) (hc : i ∉ s.unit.completed) :
    i ∈ s.sent := by
  have hns : i.space ≠ .shared := by
    simp only [WarpInst.counted, Bool.and_eq_true, bne_iff_ne, ne_eq] at hcd
    exact hcd.2
  rcases h.live_cases hi hc with hq | hd' | hs
  · exfalso
    simp only [LdstRun.queued, Multiset.mem_add, Multiset.mem_coe] at hq
    rcases hq with hn | hq | hp
    · exact hns (h.pipeline i (Multiset.mem_add.2 (.inr hn))).1
    · exact hw hq
    · exact hns (h.pipeline i (Multiset.mem_add.2 (.inl hp))).1
  · exact absurd hd' hd
  · exact hs.1

theorem Core.complete_iff (h : Core s) {i : WarpInst} (hi : i ∈ s.issued) :
    i ∈ s.unit.completed ↔
      i ∉ s.queued ∧ s.unit.dispatchReg ≠ some i ∧ (i ∈ s.sent → i.regs = []) := by
  constructor
  · intro hc
    refine ⟨fun hq => (h.ledger.queued i hq).1.2 hc, fun hd => (h.ledger.dispatch i hd).1.2 hc,
      fun hs => ?_⟩
    by_contra hr
    exact (h.ledger.accesses i (Multiset.mem_filter.2 ⟨hs, hr⟩)).1.2 hc
  · rintro ⟨hq, hd, hs⟩
    by_contra hc
    rcases h.live_cases hi hc with hq' | hd' | hs'
    · exact hq hq'
    · exact hd hd'
    · exact hs'.2 (hs hs'.1)

end LdstRun

end CompressionWork.Ldst
