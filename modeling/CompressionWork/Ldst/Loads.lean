import CompressionWork.Ldst.Registers
import Mathlib.Algebra.Order.Group.Multiset
import Mathlib.Tactic.Abel

/-!
# The load/store unit: the unit keeps its ledger

* `LdstRun.ledger` — the instructions and accesses of a run, wherever they are.
* `LdstRun.Inv` — the ledger's invariant, and what the unit adds: which instructions are in the pipeline,
  and when the queue of `m_dispatch_reg` is empty.

Each part of `cycle` keeps it.
-/

namespace CompressionWork.Ldst

/-! ## The ledger of a run -/

/-- The responses that the clients can hand out. -/
def readyAll (ready : Client → List WarpInst) : Multiset WarpInst :=
  ↑(ready .tex) + ↑(ready .const) + ↑(ready .global) + ↑(ready .l1d) + ↑(ready .shared)

theorem readyAll_append (ready : Client → List WarpInst) (c : Client) (i : WarpInst) :
    readyAll (Function.update ready c (ready c ++ [i])) = i ::ₘ readyAll ready := by
  rw [← Multiset.singleton_add]
  cases c <;>
    simp only [readyAll, Function.update_self, ne_eq, reduceCtorEq, not_false_eq_true,
      Function.update_of_ne, ← Multiset.coe_add, Multiset.coe_singleton] <;>
    abel

theorem readyAll_rest {ready : Client → List WarpInst} {c : Client} {i : WarpInst}
    {rest : List WarpInst} (h : ready c = i :: rest) :
    readyAll ready = i ::ₘ readyAll (Function.update ready c rest) := by
  rw [← Multiset.singleton_add]
  cases c <;>
    simp only [readyAll, Function.update_self, ne_eq, reduceCtorEq, not_false_eq_true,
      Function.update_of_ne, h, ← Multiset.cons_coe, ← Multiset.singleton_add] <;>
    abel

/-- The pipeline for shared memory. -/
def LdstUnit.pipeline (u : LdstUnit) : Multiset WarpInst :=
  ↑u.pipelineReg0.toList + ↑u.pipelineReg1.toList + ↑u.pipelineReg2.toList

/-- What is written back next, as far as it is from shared memory. -/
def LdstUnit.nextShared (u : LdstUnit) : Multiset WarpInst :=
  ↑(u.nextWb.toList.filter (·.space = .shared))

/-- What is written back next, as far as it is the response of an access. -/
def LdstUnit.nextAccess (u : LdstUnit) : Multiset WarpInst :=
  ↑(u.nextWb.toList.filter (·.space ≠ .shared))

namespace LdstRun

/-- The instructions before and after `m_dispatch_reg`. -/
def queued (s : LdstRun) : Multiset WarpInst := s.unit.nextShared + (↑s.waiting + s.unit.pipeline)

/-- The accesses that were sent and are not written back. -/
def sent (s : LdstRun) : Multiset WarpInst :=
  s.unit.nextAccess + (↑(s.inFlight.map Prod.snd) + readyAll s.unit.ready)

/-- The unit as the ledger sees it. -/
def ledger (s : LdstRun) : Ledger where
  pending := s.unit.pendingWrites.count
  table := s.unit.regTable
  completed := s.unit.completed
  issued := s.issued
  queued := s.queued
  dispatch := s.unit.dispatchReg
  left := s.unit.accessq
  accesses := s.sent.filter (·.regs ≠ [])

/-- What a new instruction is promised to be. -/
structure WellFormed (inst : WarpInst) : Prop where
  nodup : inst.regs.Nodup
  store : inst.isLoad = false → inst.regs = []
  shared : inst.isLoad = true → inst.space = .shared → inst.regs ≠ []
  accesses : inst.space ≠ .shared → (inst.accessqCount = 0 ↔ inst.activeCount = 0)

/-- The invariant without the queue of `m_dispatch_reg`. -/
structure Core (s : LdstRun) : Prop where
  ledger : s.ledger.Inv
  issued : ∀ i ∈ s.issued, WellFormed i
  pipeline : ∀ i ∈ s.unit.pipeline + s.unit.nextShared, i.space = .shared ∧ i.isLoad = true
  sent : ∀ i ∈ s.sent, i.space ≠ .shared

/-- The invariant of the unit between two events. -/
structure Inv (s : LdstRun) : Prop extends Core s where
  queue : ∀ d ∈ s.unit.dispatchReg, d.space ≠ .shared → (s.unit.accessq = 0 ↔ d.activeCount = 0)

theorem core_start : Core {} where
  ledger :=
    { nodup := List.nodup_nil
      completed := by simp [LdstRun.ledger]
      queuedNodup := by simp [LdstRun.ledger, LdstRun.queued, LdstUnit.nextShared, LdstUnit.pipeline]
      queued := by simp [LdstRun.ledger, LdstRun.queued, LdstUnit.nextShared, LdstUnit.pipeline]
      dispatch := by simp [LdstRun.ledger]
      accesses := by simp [LdstRun.ledger, LdstRun.sent, LdstUnit.nextAccess, readyAll]
      covered := by simp [LdstRun.ledger, Ledger.Live]
      disjoint := by simp [LdstRun.ledger, Ledger.Live]
      table := by simp [LdstRun.ledger, Ledger.Live]
      count := by
        simp [LdstRun.ledger, LdstRun.sent, LdstUnit.nextAccess, readyAll, PendingWrites.count,
          Ledger.unserved, Ledger.queue] }
  issued := by simp
  pipeline := by simp [LdstUnit.nextShared, LdstUnit.pipeline]
  sent := by simp [LdstRun.sent, LdstUnit.nextAccess, readyAll]

/-! ## The writeback -/

variable {s : LdstRun}

/-- The counts of an access that is written back: all 1, if it is the last one, and else all more. -/
theorem Core.count_access (h : Core s) {t : WarpInst} (ht : t ∈ s.ledger.accesses) {r : ℕ}
    (hr : r ∈ t.regs) :
    s.unit.pendingWrites.count t.warpId r =
      (s.ledger.accesses.count t + if s.unit.dispatchReg = some t then s.unit.accessq else 0 : ℕ) := by
  have hc := h.ledger.count t.warpId r
  have hlive := (h.ledger.accesses t ht).1
  have hcount : s.ledger.accesses.countP (·.Writes t.warpId r) = s.ledger.accesses.count t := by
    refine Multiset.countP_congr rfl fun j hj => propext ⟨?_, ?_⟩
    · intro hw
      exact h.ledger.disjoint t j hlive (h.ledger.accesses j hj).1 _ _ ⟨rfl, hr⟩ hw
    · rintro rfl
      exact ⟨rfl, hr⟩
  have hqueue : s.ledger.queue t.warpId r =
      if s.unit.dispatchReg = some t then s.unit.accessq else 0 := by
    simp only [Ledger.queue]
    congr 1
    refine propext ⟨?_, fun hd => ⟨t, hd, (h.ledger.accesses t ht).2.1, rfl, hr⟩⟩
    rintro ⟨d, hd, -, hw⟩
    rw [h.ledger.disjoint t d hlive (h.ledger.dispatch d hd).1 _ _ ⟨rfl, hr⟩ hw]
    exact hd
  rw [Ledger.unserved, hcount, hqueue] at hc
  exact hc

/-- The part of the invariant beside the ledger, when what was written back is cleared. -/
theorem Core.cleared (h : Core s) {u : LdstUnit} (hw : u.nextWb = none)
    (hp : u.pipeline = s.unit.pipeline) (hr : u.ready = s.unit.ready)
    (hl : ({ s with unit := u } : LdstRun).ledger.Inv) : Core { s with unit := u } := by
  refine ⟨hl, h.issued, ?_, ?_⟩
  · intro j hj
    exact h.pipeline j (Multiset.mem_add.2 (.inl (by simpa [LdstUnit.nextShared, hw, hp] using hj)))
  · intro j hj
    simp only [LdstRun.sent, LdstUnit.nextAccess, hw, hr] at hj
    exact h.sent j (Multiset.mem_add.2 (.inr (by simpa using hj)))

/-- What is written back next, from shared memory, is complete. -/
theorem Inv.write_shared (h : Inv s) {i : WarpInst} (hw : s.unit.nextWb = some i)
    (hs : i.space = .shared) :
    ∃ u, writeNext s.unit true = some u ∧ Inv { s with unit := u } := by
  have hnext : i ∈ s.unit.nextShared := by simp [LdstUnit.nextShared, hw, hs]
  have hq : i ∈ s.ledger.queued := Multiset.mem_add.2 (.inl hnext)
  have hload := (h.pipeline i (Multiset.mem_add.2 (.inr hnext))).2
  have hr := (h.issued i (h.ledger.queued i hq).1.1).shared hload hs
  have hfold := foldlM_writebackReg_shared hs i.regs s.unit.pendingWrites s.unit.regTable false
  simp only [writeNext, hw, if_true, hfold]
  refine ⟨_, rfl, h.toCore.cleared rfl rfl rfl ?_, h.queue⟩
  have hc := h.ledger.complete hq
  convert hc using 1
  simp [LdstRun.ledger, Ledger.complete, LdstRun.queued, LdstRun.sent, LdstUnit.nextShared,
    LdstUnit.nextAccess, LdstUnit.pipeline, hw, hs, hr, WarpInst.Writes]

/-- An access of a load without registers changes nothing. -/
theorem Inv.write_nothing (h : Inv s) {t : WarpInst} (hw : s.unit.nextWb = some t)
    (hs : t.space ≠ .shared) (hr : t.regs = []) :
    ∃ u, writeNext s.unit true = some u ∧ Inv { s with unit := u } := by
  simp only [writeNext, hw, hr, if_true]
  refine ⟨_, rfl, h.toCore.cleared rfl rfl rfl ?_, h.queue⟩
  have hl := h.ledger
  convert hl using 1
  simp [LdstRun.ledger, LdstRun.queued, LdstRun.sent, LdstUnit.nextShared, LdstUnit.nextAccess,
    LdstUnit.pipeline, hw, hs, hr]

/-- The ledger after the access `t` is written back. -/
theorem ledger_written {t : WarpInst} (hw : s.unit.nextWb = some t) (hs : t.space ≠ .shared)
    (hr : t.regs ≠ []) {m : PendingWrites} {table : RegTable} {done : List WarpInst}
    (hm : ∀ w r, m.count w r = s.unit.pendingWrites.count w r - if t.Writes w r then 1 else 0) :
    ({ s with unit := { s.unit with
      pendingWrites := m, regTable := table, nextWb := none, completed := done } } : LdstRun).ledger =
      { s.ledger.serve t with table := table, completed := done } := by
  simp only [LdstRun.ledger, Ledger.serve, Ledger.mk.injEq]
  refine ⟨?_, trivial, trivial, trivial, ?_, trivial, trivial, ?_⟩
  · funext w r
    exact hm w r
  · simp [LdstRun.queued, LdstUnit.nextShared, LdstUnit.pipeline, hw, hs]
  · simp [LdstRun.sent, LdstUnit.nextAccess, hw, hs, hr]

/-- A count of 1 is that of the last access. -/
theorem Inv.last_access (h : Inv s) {t : WarpInst} (ht : t ∈ s.ledger.accesses)
    (hs : t.space ≠ .shared) {r : ℕ} (hr : r ∈ t.regs) :
    s.unit.pendingWrites.count t.warpId r = 1 ↔
      t ∉ s.ledger.dispatch ∧ t ∉ s.ledger.accesses.erase t := by
  have hpos := Multiset.count_pos.2 ht
  have herase : t ∉ s.ledger.accesses.erase t ↔ s.ledger.accesses.count t = 1 := by
    rw [← Multiset.count_eq_zero, Multiset.count_erase_self]
    omega
  rw [h.count_access ht hr, herase]
  by_cases hd : s.unit.dispatchReg = some t
  · have hact := (h.ledger.accesses t ht).2.2.2
    have hq : s.unit.accessq ≠ 0 := fun hz => hact ((h.queue t hd hs).1 hz)
    have hd' : t ∈ s.ledger.dispatch := hd
    simp only [hd, if_true, hd', not_true_eq_false, false_and, iff_false]
    omega
  · have hd' : t ∉ s.ledger.dispatch := hd
    simp only [hd, if_false, hd', not_false_eq_true, true_and]
    omega

/-- What is written back next, of a load with registers, is served. -/
theorem Inv.write_access (h : Inv s) {t : WarpInst} (hw : s.unit.nextWb = some t)
    (hs : t.space ≠ .shared) (hr : t.regs ≠ []) :
    ∃ u, writeNext s.unit true = some u ∧ Inv { s with unit := u } := by
  have ht : t ∈ s.ledger.accesses := by
    simp [LdstRun.ledger, LdstRun.sent, LdstUnit.nextAccess, hw, hs, hr]
  have hpos : ∀ r ∈ t.regs, 0 < s.unit.pendingWrites.count t.warpId r := by
    intro r hr
    have hcount := Multiset.count_pos.2 ht
    rw [h.count_access ht hr]
    omega
  have hlast := fun r hr => h.last_access (r := r) ht hs hr
  obtain ⟨p, hfold, hp, htable, hdone⟩ := foldlM_writebackReg hs
    (h.issued t (h.ledger.accesses t ht).1.1).nodup s.unit.regTable false hpos
  obtain ⟨r₀, hr₀⟩ := List.exists_mem_of_ne_nil _ hr
  simp only [writeNext, hw, if_true, hfold]
  refine ⟨_, rfl, h.toCore.cleared rfl rfl rfl ?_, h.queue⟩
  rw [ledger_written hw hs hr hp]
  by_cases hl : t ∉ s.ledger.dispatch ∧ t ∉ s.ledger.accesses.erase t
  · have hc := (h.ledger.serve_last ht hl.1 hl.2).complete (i := t)
      (Multiset.mem_cons_self t s.ledger.queued)
    convert hc using 1
    have hdone' : p.2.2 = true := hdone.2 (.inr ⟨r₀, hr₀, (hlast r₀ hr₀).2 hl⟩)
    simp only [Ledger.complete, hdone', if_true, htable, Multiset.erase_cons_head]
    congr 1
    funext w r
    have hone := hlast r
    simp only [WarpInst.Writes, Ledger.serve, LdstRun.ledger]
    grind
  · have hm : t ∈ s.ledger.dispatch ∨ t ∈ s.ledger.accesses.erase t := by
      by_contra hn
      exact hl (not_or.1 hn)
    have hc := h.ledger.serve ht hm
    convert hc using 1
    have hdone' : p.2.2 = false := by
      rw [Bool.eq_false_iff, ne_eq, hdone]
      rintro (hf | ⟨r, hr, h1⟩)
      · exact absurd hf Bool.false_ne_true
      · exact hl ((hlast r hr).1 h1)
    simp only [hdone', Bool.false_eq_true, if_false, htable]
    have htab : (fun w r => if t.warpId = w ∧ r ∈ t.regs ∧
        s.unit.pendingWrites.count t.warpId r = 1 then false else s.unit.regTable w r) =
        s.unit.regTable := by
      funext w r
      refine if_neg ?_
      rintro ⟨-, hr, h1⟩
      exact hl ((hlast r hr).1 h1)
    rw [htab]
    rfl

theorem Inv.writeNext (h : Inv s) (collector : Bool) :
    ∃ u, writeNext s.unit collector = some u ∧ Inv { s with unit := u } := by
  cases hw : s.unit.nextWb with
  | none => exact ⟨s.unit, by simp [Ldst.writeNext, hw], h⟩
  | some i =>
    cases collector with
    | false => exact ⟨s.unit, by simp [Ldst.writeNext, hw], h⟩
    | true =>
      by_cases hs : i.space = .shared
      · exact h.write_shared hw hs
      · by_cases hr : i.regs = []
        · exact h.write_nothing hw hs hr
        · exact h.write_access hw hs hr

theorem Inv.takeClient (h : Inv s) (hn : s.unit.nextWb = none) {c : Client} {u : LdstUnit}
    (hu : takeClient s.unit c = some u) : Inv { s with unit := u } := by
  by_cases hc : c = .shared
  · subst hc
    obtain ⟨i, hp, rfl⟩ := Option.map_eq_some_iff.1 hu
    have hi := h.pipeline i (by simp [LdstUnit.pipeline, hp])
    have hmove : (({ s.unit with nextWb := some i, pipelineReg0 := none } : LdstUnit).pipeline +
        ({ s.unit with nextWb := some i, pipelineReg0 := none } : LdstUnit).nextShared) =
        s.unit.pipeline + s.unit.nextShared := by
      simp [LdstUnit.pipeline, LdstUnit.nextShared, hn, hp, hi.1, ← Multiset.cons_coe,
        ← Multiset.singleton_add, -Multiset.coe_add]
      abel
    refine ⟨⟨?_, h.issued, hmove ▸ h.pipeline, ?_⟩, h.queue⟩
    · have hl := h.ledger
      convert hl using 1
      simp [LdstRun.ledger, LdstRun.queued, LdstRun.sent, LdstUnit.nextShared, LdstUnit.nextAccess,
        LdstUnit.pipeline, hn, hp, hi.1, -Multiset.singleton_add, -Multiset.coe_add]
      abel
    · intro j hj
      exact h.sent j (by simpa [LdstRun.sent, LdstUnit.nextAccess, hn, hi.1] using hj)
  · obtain ⟨i, rest, hr, rfl⟩ : ∃ i rest, s.unit.ready c = i :: rest ∧
        u = { s.unit with nextWb := some i, ready := Function.update s.unit.ready c rest } := by
      cases hr : s.unit.ready c <;> cases c <;> simp_all [Ldst.takeClient]
    have hrest := readyAll_rest hr
    have hi : i.space ≠ .shared := h.sent i (by simp [LdstRun.sent, hrest])
    have hsent : ({ s with unit := { s.unit with
        nextWb := some i, ready := Function.update s.unit.ready c rest } } : LdstRun).sent = s.sent := by
      simp [LdstRun.sent, LdstUnit.nextAccess, hn, hi, hrest]
    refine ⟨⟨?_, h.issued, ?_, hsent ▸ h.sent⟩, h.queue⟩
    · have hl := h.ledger
      convert hl using 1
      simp only [LdstRun.ledger, hsent]
      simp [LdstRun.queued, LdstUnit.nextShared, LdstUnit.pipeline, hn, hi]
    · intro j hj
      exact h.pipeline j (by simpa [LdstUnit.nextShared, LdstUnit.pipeline, hn, hi] using hj)

theorem Inv.arbitrate (h : Inv s) (hn : s.unit.nextWb = none) (n c : ℕ) :
    Inv { s with unit := arbitrate s.unit n c } := by
  induction n generalizing c with
  | zero => exact h
  | succ n ih =>
    simp only [Ldst.arbitrate]
    cases hu : Ldst.takeClient s.unit (clientOf ((c + s.unit.writebackArb) % numWritebackClients)) with
    | none => exact ih (c + 1)
    | some u =>
      have ht := h.takeClient hn hu
      exact ⟨⟨ht.ledger, ht.issued, ht.pipeline, ht.sent⟩, ht.queue⟩

theorem Inv.writeback (h : Inv s) (collector : Bool) :
    ∃ u, writeback s.unit collector = some u ∧ Inv { s with unit := u } := by
  obtain ⟨u, hu, hi⟩ := h.writeNext collector
  simp only [Ldst.writeback, hu, Option.map_some]
  refine ⟨_, rfl, ?_⟩
  split
  · next hn => exact hi.arbitrate hn numWritebackClients 0
  · exact hi

theorem Inv.shiftPipeline (h : Inv s) : Inv { s with unit := shiftPipeline s.unit } := by
  have hp : (Ldst.shiftPipeline s.unit).pipeline = s.unit.pipeline := by
    cases h0 : s.unit.pipelineReg0 <;> cases h1 : s.unit.pipelineReg1 <;>
      cases h2 : s.unit.pipelineReg2 <;> simp [Ldst.shiftPipeline, LdstUnit.pipeline, h0, h1, h2]
  have hrest : (Ldst.shiftPipeline s.unit).nextWb = s.unit.nextWb ∧
      (Ldst.shiftPipeline s.unit).ready = s.unit.ready ∧
      (Ldst.shiftPipeline s.unit).pendingWrites = s.unit.pendingWrites ∧
      (Ldst.shiftPipeline s.unit).regTable = s.unit.regTable ∧
      (Ldst.shiftPipeline s.unit).completed = s.unit.completed ∧
      (Ldst.shiftPipeline s.unit).dispatchReg = s.unit.dispatchReg ∧
      (Ldst.shiftPipeline s.unit).accessq = s.unit.accessq := by
    cases h0 : s.unit.pipelineReg0 <;> cases h1 : s.unit.pipelineReg1 <;>
      simp [Ldst.shiftPipeline, h0, h1]
  obtain ⟨hw, hr, hm, ht, hc, hd, hq⟩ := hrest
  refine ⟨⟨?_, h.issued, ?_, ?_⟩, ?_⟩
  · have hl := h.ledger
    convert hl using 1
    simp [LdstRun.ledger, LdstRun.queued, LdstRun.sent, LdstUnit.nextShared, LdstUnit.nextAccess,
      hp, hw, hr, hm, ht, hc, hd, hq]
  · simpa [LdstUnit.nextShared, hp, hw] using h.pipeline
  · simpa [LdstRun.sent, LdstUnit.nextAccess, hw, hr] using h.sent
  · simpa [hd, hq] using h.queue

end LdstRun

end CompressionWork.Ldst
