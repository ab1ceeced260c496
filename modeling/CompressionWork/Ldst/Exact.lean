import CompressionWork.Ldst.Complete

/-!
# The load/store unit: what arrives is served

With a free operand collector every cycle takes something on: the instruction that is written back, a
response that a client hands out, or a load in the pipeline for shared memory.

* `LdstUnit.work` — what is left to take on, and `cycle_work`: a cycle takes from it.
* `drains` — a load that only waits for its writeback is complete after that many cycles.
* `leaves` — the instruction in `m_dispatch_reg` leaves it when nothing holds it up.
* `loads_complete_once` — **loads complete exactly once**, in every state that the unit can reach.
-/

namespace CompressionWork.Ldst

namespace LdstUnit

/-- What the writeback still has to do: a response is handed out and written back, and a load of shared memory
goes through its pipeline first. -/
def work (u : LdstUnit) : ℕ :=
  5 * (u.dispatchReg.toList.filter (·.space = .shared)).length + 4 * u.pipelineReg2.toList.length +
    3 * u.pipelineReg1.toList.length + 2 * u.pipelineReg0.toList.length + 2 * (readyAll u.ready).card +
    u.nextWb.toList.length

/-- Something waits for the writeback. -/
def Handing (u : LdstUnit) : Prop :=
  u.nextWb ≠ none ∨ readyAll u.ready ≠ 0 ∨ u.pipelineReg0 ≠ none ∨ u.pipelineReg1 ≠ none ∨ u.pipelineReg2 ≠ none

/-- A part of the cycle moves `u` to `u'`: the completed instructions stay, and no client gets a response. -/
structure Moves (u u' : LdstUnit) : Prop where
  completed : u.completed <+: u'.completed
  dispatch : u'.dispatchReg = u.dispatchReg ∨ u'.dispatchReg = none
  shared : u.ready .shared = [] → u'.ready .shared = []
  work : u'.work ≤ u.work

theorem Moves.refl (u : LdstUnit) : Moves u u := ⟨List.prefix_rfl, .inl rfl, id, le_rfl⟩

theorem Moves.trans {u u' u'' : LdstUnit} (h : Moves u u') (h' : Moves u' u'') : Moves u u'' where
  completed := h.completed.trans h'.completed
  dispatch := by
    rcases h'.dispatch with hd | hd
    · rw [hd]
      exact h.dispatch
    · exact .inr hd
  shared := fun hs => h'.shared (h.shared hs)
  work := h'.work.trans h.work

end LdstUnit

open LdstUnit

variable {u u' : LdstUnit}

/-! ## The parts of a cycle -/

/-- A free collector takes what is written back next. -/
theorem writeNext_moves (h : writeNext u true = some u') :
    Moves u u' ∧ u'.nextWb = none ∧ u'.dispatchReg = u.dispatchReg ∧ u'.accessq = u.accessq ∧
      u'.ready = u.ready ∧ u'.pipelineReg0 = u.pipelineReg0 ∧ u'.pipelineReg1 = u.pipelineReg1 ∧
      u'.pipelineReg2 = u.pipelineReg2 ∧ (u.nextWb ≠ none → u'.work < u.work) := by
  unfold writeNext at h
  split at h
  · next hw =>
    obtain rfl := Option.some.inj h
    exact ⟨.refl u, hw, rfl, rfl, rfl, rfl, rfl, rfl, fun hne => absurd hw hne⟩
  · next inst hw =>
    rw [if_pos rfl] at h
    obtain ⟨s, -, rfl⟩ := Option.map_eq_some_iff.1 h
    have hwork : ∀ (m : PendingWrites) (t : RegTable) (done : List WarpInst),
        ({ u with pendingWrites := m, regTable := t, nextWb := none, completed := done } : LdstUnit).work <
          u.work := by
      intro m t done
      simp [LdstUnit.work, hw]
    refine ⟨⟨?_, .inl rfl, id, (hwork _ _ _).le⟩, rfl, rfl, rfl, rfl, rfl, rfl, rfl, fun _ => hwork _ _ _⟩
    dsimp only
    split
    · exact List.prefix_append _ _
    · exact List.prefix_rfl

/-- What a client hands out is written back next. -/
theorem takeClient_moves (hn : u.nextWb = none) {c : Client} (h : takeClient u c = some u') :
    Moves u u' ∧ u'.dispatchReg = u.dispatchReg ∧ u'.accessq = u.accessq ∧
      u'.pipelineReg2 = u.pipelineReg2 ∧ u'.work < u.work := by
  by_cases hc : c = .shared
  · subst hc
    obtain ⟨i, hp, rfl⟩ := Option.map_eq_some_iff.1 h
    have hwork : ({ u with nextWb := some i, pipelineReg0 := none } : LdstUnit).work < u.work := by
      simp only [LdstUnit.work, hn, hp, Option.toList_none, Option.toList_some, List.length_nil,
        List.length_singleton]
      omega
    exact ⟨⟨List.prefix_rfl, .inl rfl, id, hwork.le⟩, rfl, rfl, rfl, hwork⟩
  · obtain ⟨i, rest, hr, rfl⟩ : ∃ i rest, u.ready c = i :: rest ∧
        u' = { u with nextWb := some i, ready := Function.update u.ready c rest } := by
      cases hr : u.ready c <;> cases c <;> simp_all [Ldst.takeClient]
    have hwork : ({ u with nextWb := some i, ready := Function.update u.ready c rest } : LdstUnit).work <
        u.work := by
      have hcard := congrArg Multiset.card (readyAll_rest hr)
      rw [Multiset.card_cons] at hcard
      simp only [LdstUnit.work, hn, Option.toList_none, Option.toList_some, List.length_nil,
        List.length_singleton]
      omega
    refine ⟨⟨List.prefix_rfl, .inl rfl, fun hs => ?_, hwork.le⟩, rfl, rfl, rfl, hwork⟩
    exact (Function.update_of_ne (fun heq => hc heq.symm) _ _).trans hs

/-- A client that has something hands it out. -/
theorem takeClient_eq_none_iff {c : Client} :
    takeClient u c = none ↔ if c = .shared then u.pipelineReg0 = none else u.ready c = [] := by
  cases c <;> simp only [takeClient, reduceCtorEq, if_true, if_false, Option.map_eq_none_iff] <;>
    split <;> simp_all

/-- Either one of the clients in turn hands something out, or none of them has anything. -/
theorem arbitrate_cases (hn : u.nextWb = none) (n c : ℕ) :
    (Moves u (arbitrate u n c) ∧ (arbitrate u n c).dispatchReg = u.dispatchReg ∧
      (arbitrate u n c).accessq = u.accessq ∧ (arbitrate u n c).pipelineReg2 = u.pipelineReg2) ∧
    ((arbitrate u n c).work < u.work ∨
      (arbitrate u n c = u ∧
        ∀ k < n, takeClient u (clientOf ((c + k + u.writebackArb) % numWritebackClients)) = none)) := by
  induction n generalizing c with
  | zero => exact ⟨⟨.refl u, rfl, rfl, rfl⟩, .inr ⟨rfl, fun k hk => absurd hk (Nat.not_lt_zero k)⟩⟩
  | succ n ih =>
    simp only [arbitrate]
    cases ht : takeClient u (clientOf ((c + u.writebackArb) % numWritebackClients)) with
    | some u' =>
      obtain ⟨hm, hd, hq, h2, hw⟩ := takeClient_moves hn ht
      exact ⟨⟨⟨hm.completed, hm.dispatch, hm.shared, hm.work⟩, hd, hq, h2⟩, .inl hw⟩
    | none =>
      obtain ⟨hm, hcase⟩ := ih (c + 1)
      refine ⟨hm, ?_⟩
      rcases hcase with hlt | ⟨heq, hall⟩
      · exact .inl hlt
      · refine .inr ⟨heq, fun k hk => ?_⟩
        cases k with
        | zero => simpa using ht
        | succ k =>
          have hk := hall k (by omega)
          rwa [show c + 1 + k = c + (k + 1) by omega] at hk

/-- All clients come in turn. -/
theorem arbitrate_all (hn : u.nextWb = none) (hs : u.ready .shared = [])
    (hhanding : readyAll u.ready ≠ 0 ∨ u.pipelineReg0 ≠ none) :
    (arbitrate u numWritebackClients 0).work < u.work := by
  refine (arbitrate_cases hn numWritebackClients 0).2.resolve_right ?_
  rintro ⟨-, hall⟩
  have hclient : ∀ x < 5, takeClient u (clientOf x) = none := by
    intro x hx
    have hk := hall ((x + 5 * (u.writebackArb + 1) - u.writebackArb) % 5) (Nat.mod_lt _ (by decide))
    have hmod : (0 + (x + 5 * (u.writebackArb + 1) - u.writebackArb) % 5 + u.writebackArb) %
        numWritebackClients = x := by
      rw [numWritebackClients]
      omega
    rwa [hmod] at hk
  have h0 := takeClient_eq_none_iff.1 (hclient 0 (by decide))
  have h1 := takeClient_eq_none_iff.1 (hclient 1 (by decide))
  have h2 := takeClient_eq_none_iff.1 (hclient 2 (by decide))
  have h3 := takeClient_eq_none_iff.1 (hclient 3 (by decide))
  have h4 := takeClient_eq_none_iff.1 (hclient 4 (by decide))
  simp only [clientOf, reduceCtorEq, if_true, if_false] at h0 h1 h2 h3 h4
  rcases hhanding with hr | hp
  · exact hr (by simp [readyAll, hs, h1, h2, h3, h4])
  · exact hp h0

theorem shiftPipeline_moves (u : LdstUnit) :
    Moves u (shiftPipeline u) ∧ (shiftPipeline u).dispatchReg = u.dispatchReg ∧
      (shiftPipeline u).accessq = u.accessq ∧
      ((shiftPipeline u).pipelineReg2 ≠ none → u.pipelineReg2 ≠ none) ∧
      (u.pipelineReg0 = none → u.pipelineReg1 ≠ none ∨ u.pipelineReg2 ≠ none →
        (shiftPipeline u).work < u.work) := by
  have hwork : (shiftPipeline u).work ≤ u.work ∧ (u.pipelineReg0 = none →
      u.pipelineReg1 ≠ none ∨ u.pipelineReg2 ≠ none → (shiftPipeline u).work < u.work) := by
    cases h0 : u.pipelineReg0 <;> cases h1 : u.pipelineReg1 <;> cases h2 : u.pipelineReg2 <;>
      simp [shiftPipeline, LdstUnit.work, h0, h1, h2]
  have hrest : (shiftPipeline u).completed = u.completed ∧ (shiftPipeline u).dispatchReg = u.dispatchReg ∧
      (shiftPipeline u).accessq = u.accessq ∧ (shiftPipeline u).ready = u.ready ∧
      ((shiftPipeline u).pipelineReg2 ≠ none → u.pipelineReg2 ≠ none) := by
    cases h0 : u.pipelineReg0 <;> cases h1 : u.pipelineReg1 <;> simp [shiftPipeline, h0, h1]
  obtain ⟨hc, hd, hq, hr, h2⟩ := hrest
  exact ⟨⟨hc ▸ List.prefix_rfl, .inl hd, fun hs => hr.symm ▸ hs, hwork.1⟩, hd, hq, h2, hwork.2⟩

/-- What is left in `m_dispatch_reg` by the end of `cycle`. -/
theorem retire_moves {d : WarpInst} (hd : u.dispatchReg = some d) :
    Moves u (retire u d) ∧
      (d.space = .shared → d.isLoad = true → u.pipelineReg2 ≠ none ∨ (retire u d).dispatchReg = none) ∧
      (¬ (d.space = .shared ∧ d.isLoad = true) → (retire u d).dispatchReg = none) := by
  unfold retire
  split
  · next hl =>
    split
    · next hs =>
      split
      · next h2 =>
        refine ⟨⟨List.prefix_rfl, .inr rfl, id, ?_⟩, fun _ _ => .inr rfl, fun _ => rfl⟩
        simp [LdstUnit.work, hd, h2, hs]
      · next h2 => exact ⟨.refl u, fun _ _ => .inl h2, fun hn => absurd ⟨hs, hl⟩ hn⟩
    · next hs =>
      dsimp only
      split
      · exact ⟨⟨List.prefix_rfl, .inr rfl, id, by simp [LdstUnit.work]⟩, fun h => absurd h hs, fun _ => rfl⟩
      · exact ⟨⟨List.prefix_append _ _, .inr rfl, id, by simp [LdstUnit.work]⟩, fun h => absurd h hs,
          fun _ => rfl⟩
  · next hl =>
    exact ⟨⟨List.prefix_append _ _, .inr rfl, id, by simp [LdstUnit.work]⟩, fun _ h => absurd h hl, fun _ => rfl⟩

/-- What `memory_cycle` makes of an access: it goes to the cache, past the cache, or stays when the
interconnect is full. -/
theorem memoryCycle_cases {m : PendingWrites} {d : WarpInst} {q : ℕ} {input : CycleInput} {g : Stage}
    (h : memoryCycle m d q input = some g) : q ≠ 0 ∧
      (g = processMemoryAccessQueue m .l1d d q input ∨ g = ⟨m, q - 1, some .global⟩ ∨
        input.icntFull = true ∧ g = ⟨m, q, none⟩) := by
  unfold memoryCycle at h
  split at h
  · cases h
  · next hq =>
    refine ⟨hq, ?_⟩
    split at h
    · split at h
      · next hfull => exact .inr (.inr ⟨hfull, (Option.some.inj h).symm⟩)
      · split at h
        · cases h
        · exact .inr (.inl (Option.some.inj h).symm)
    · exact .inl (Option.some.inj h).symm

/-- An instruction of shared memory or without active threads keeps its accesses; of another one, one
access is tried in the stage of its space. -/
theorem stages_cases {m : PendingWrites} {d : WarpInst} {q : ℕ} {input : CycleInput} {r : Bool × Stage}
    (h : stages m d q input = some r) :
    (r.2 = ⟨m, q, none⟩ ∧ (d.space = .shared ∨ d.activeCount = 0 ∧ r.1 = true)) ∨
      (d.activeCount ≠ 0 ∧ ((∃ c ≠ Client.shared, r.2 = processMemoryAccessQueue m c d q input) ∨
        memoryCycle m d q input = some r.2)) := by
  unfold stages at h
  split at h
  · next hs =>
    obtain rfl := Option.some.inj h
    exact .inl ⟨rfl, .inl hs⟩
  all_goals
    split at h
    · next ha =>
      obtain rfl := Option.some.inj h
      exact .inl ⟨rfl, .inr ⟨ha, rfl⟩⟩
    · next ha =>
      refine .inr ⟨ha, ?_⟩
      first
      | (obtain rfl := Option.some.inj h
         exact .inl ⟨_, by decide, rfl⟩)
      | (obtain ⟨g, hg, rfl⟩ := Option.map_eq_some_iff.1 h
         exact .inr hg)

/-- The accesses go to the clients of their spaces. -/
theorem stages_sent {m : PendingWrites} {d : WarpInst} {q : ℕ} {input : CycleInput} {r : Bool × Stage}
    (h : stages m d q input = some r) : r.2.sent ≠ some .shared := by
  have hcache : ∀ c, c ≠ Client.shared → (processMemoryAccessQueue m c d q input).sent ≠ some .shared := by
    intro c hc
    unfold processMemoryAccessQueue processCacheAccess
    split
    · simp
    · split
      · split <;> simp [hc]
      · simp
  rcases stages_cases h with ⟨hstay, -⟩ | ⟨-, ⟨c, hc, hr⟩ | hmemory⟩
  · simp [hstay]
  · exact hr ▸ hcache c hc
  · rcases (memoryCycle_cases hmemory).2 with hr | hr | ⟨-, hr⟩
    · exact hr ▸ hcache .l1d (by decide)
    · simp [hr]
    · simp [hr]

theorem dispatch_moves {input : CycleInput} {r : LdstUnit × Option (Client × WarpInst)}
    (h : dispatch u input = some r) :
    Moves u r.1 ∧ ∀ a ∈ r.2, a.1 ≠ .shared ∧ u.dispatchReg = some a.2 := by
  unfold dispatch at h
  split at h
  · obtain rfl := Option.some.inj h
    exact ⟨.refl u, by simp⟩
  · next d hd =>
    obtain ⟨g, hg, rfl⟩ := Option.map_eq_some_iff.1 h
    have hsame : Moves u { u with pendingWrites := g.2.pendingWrites, accessq := g.2.accessq } :=
      ⟨List.prefix_rfl, .inl rfl, id, le_rfl⟩
    refine ⟨?_, ?_⟩
    · dsimp only
      split
      · exact hsame.trans (retire_moves (u := { u with
          pendingWrites := g.2.pendingWrites, accessq := g.2.accessq }) hd).1
      · exact hsame
    · intro a ha
      obtain ⟨c, hc, rfl⟩ := Option.map_eq_some_iff.1 ha
      exact ⟨fun hs => stages_sent hg (hc.trans (congrArg some hs)), hd⟩

/-- The writeback, whether the collector is free or not. -/
theorem writeback_moves {collector : Bool} (h : writeback u collector = some u') :
    Moves u u' ∧ u'.dispatchReg = u.dispatchReg ∧ u'.accessq = u.accessq ∧
      u'.pipelineReg2 = u.pipelineReg2 := by
  obtain ⟨w, hw, rfl⟩ := Option.map_eq_some_iff.1 h
  have hnext : Moves u w ∧ w.dispatchReg = u.dispatchReg ∧ w.accessq = u.accessq ∧
      w.pipelineReg2 = u.pipelineReg2 := by
    cases collector with
    | true =>
      obtain ⟨hm, -, hd, hq, -, -, -, h2, -⟩ := writeNext_moves hw
      exact ⟨hm, hd, hq, h2⟩
    | false =>
      have hsame : w = u := by
        unfold writeNext at hw
        split at hw <;> simp_all
      rw [hsame]
      exact ⟨.refl u, rfl, rfl, rfl⟩
  obtain ⟨hm, hd, hq, h2⟩ := hnext
  split
  · next hn =>
    obtain ⟨hma, hda, hqa, h2a⟩ := (arbitrate_cases hn numWritebackClients 0).1
    exact ⟨hm.trans hma, hda.trans hd, hqa.trans hq, h2a.trans h2⟩
  · exact ⟨hm, hd, hq, h2⟩

/-- A free collector: something is written back or handed out, or only the pipeline for shared memory has
something behind its last register. -/
theorem writeback_work (hs : u.ready .shared = []) (hhanding : u.Handing) (h : writeback u true = some u') :
    u'.work < u.work ∨
      (u'.pipelineReg0 = none ∧ (u'.pipelineReg1 ≠ none ∨ u'.pipelineReg2 ≠ none)) := by
  obtain ⟨w, hw, rfl⟩ := Option.map_eq_some_iff.1 h
  obtain ⟨hmw, hnone, -, -, hrw, h0, h1, h2, hlt⟩ := writeNext_moves hw
  rw [if_pos hnone]
  obtain ⟨⟨hma, -⟩, hcase⟩ := arbitrate_cases hnone numWritebackClients 0
  have hle := hma.work
  have hle' := hmw.work
  by_cases hnext : u.nextWb = none
  · by_cases hclient : readyAll w.ready ≠ 0 ∨ w.pipelineReg0 ≠ none
    · have harb := arbitrate_all hnone (hmw.shared hs) hclient
      exact .inl (by omega)
    · obtain ⟨hr, hp⟩ := not_or.1 hclient
      refine hcase.imp (fun harb => by omega) fun hidle => ?_
      rw [hidle.1, h1, h2]
      refine ⟨not_not.1 hp, ?_⟩
      rcases hhanding with hn | hr' | hp' | hp'
      · exact absurd hnext hn
      · exact absurd (hrw ▸ hr') hr
      · exact absurd (h0 ▸ hp') hp
      · exact hp'
  · have := hlt hnext
    exact .inl (by omega)

theorem cycle_moves {input : CycleInput} {r : LdstUnit × Option (Client × WarpInst)}
    (h : Ldst.cycle u input = some r) :
    Moves u r.1 ∧ ∀ a ∈ r.2, a.1 ≠ .shared ∧ u.dispatchReg = some a.2 := by
  obtain ⟨v, hv, hdisp⟩ := Option.bind_eq_some_iff.1 h
  obtain ⟨hmv, hdv, -⟩ := writeback_moves hv
  obtain ⟨hms, hds, -⟩ := shiftPipeline_moves v
  obtain ⟨hmd, hsent⟩ := dispatch_moves hdisp
  refine ⟨(hmv.trans hms).trans hmd, fun a ha => ?_⟩
  obtain ⟨hne, hda⟩ := hsent a ha
  exact ⟨hne, by rw [← hdv, ← hds, hda]⟩

/-- **A cycle with a free collector takes something on**, when there is something. -/
theorem cycle_work {input : CycleInput} {r : LdstUnit × Option (Client × WarpInst)}
    (hcollector : input.collector = true) (hs : u.ready .shared = []) (hhanding : u.Handing)
    (h : Ldst.cycle u input = some r) : r.1.work < u.work := by
  obtain ⟨v, hv, hdisp⟩ := Option.bind_eq_some_iff.1 h
  rw [hcollector] at hv
  have hle := (writeback_moves hv).1.work
  obtain ⟨hms, -, -, -, hshift⟩ := shiftPipeline_moves v
  have hle' := hms.work
  have hle'' := (dispatch_moves hdisp).1.work
  rcases writeback_work hs hhanding hv with hlt | ⟨h0, hpipe⟩
  · omega
  · have := hshift h0 hpipe
    omega

theorem LdstUnit.Handing.work_pos (h : u.Handing) : 0 < u.work := by
  rcases h with h | h | h | h | h
  · obtain ⟨i, hi⟩ := Option.ne_none_iff_exists'.1 h
    simp [LdstUnit.work, hi]
  · have := Multiset.card_pos.2 h
    rw [LdstUnit.work]
    omega
  all_goals
    obtain ⟨i, hi⟩ := Option.ne_none_iff_exists'.1 h
    simp only [LdstUnit.work, hi, Option.toList_some, List.length_singleton]
    omega

/-! ## Nothing holds the unit up -/

/-- Nothing holds the unit up in a cycle: the collector takes what is written back, and an access leaves the
queue. -/
structure CycleInput.Free (input : CycleInput) : Prop where
  collector : input.collector = true
  dispatchDelay : input.dispatchDelay = false
  dataPortFree : input.dataPortFree = true
  icntFull : input.icntFull = false
  status : ∃ status, input.status = some status ∧ status ≠ .reservationFail

theorem processMemoryAccessQueue_free {m : PendingWrites} {c : Client} {d : WarpInst} {q : ℕ}
    {input : CycleInput} (hf : input.Free) (hq : q ≠ 0) :
    (processMemoryAccessQueue m c d q input).accessq = q - 1 := by
  obtain ⟨status, hstatus, hne⟩ := hf.status
  simp only [processMemoryAccessQueue, hq, hf.dataPortFree, hstatus, Bool.true_eq_false, or_self, if_false]
  cases status with
  | hit => rfl
  | miss => rfl
  | hitReserved => rfl
  | reservationFail => exact absurd rfl hne

/-- One access leaves the queue, and after the last one the stages are done. -/
theorem stages_free {m : PendingWrites} {d : WarpInst} {q : ℕ} {input : CycleInput} {r : Bool × Stage}
    (hf : input.Free) (hs : d.space ≠ .shared) (hq : q = 0 ↔ d.activeCount = 0)
    (h : stages m d q input = some r) : r.1 = true ∨ r.2.accessq < q := by
  rcases stages_cases h with ⟨-, hspace | ⟨-, hdone⟩⟩ | ⟨ha, hcase⟩
  · exact absurd hspace hs
  · exact .inl hdone
  · right
    have hq0 : q ≠ 0 := fun hz => ha (hq.1 hz)
    have hcache : ∀ c, (processMemoryAccessQueue m c d q input).accessq < q := fun c => by
      rw [processMemoryAccessQueue_free hf hq0]
      omega
    rcases hcase with ⟨c, -, hr⟩ | hmemory
    · exact hr ▸ hcache c
    · rcases (memoryCycle_cases hmemory).2 with hr | hr | ⟨hfull, -⟩
      · exact hr ▸ hcache .l1d
      · rw [hr]
        dsimp only
        omega
      · exact absurd (hf.icntFull.symm.trans hfull) Bool.false_ne_true

/-- The instruction leaves `m_dispatch_reg`, or an access leaves its queue, or a load of shared memory waits for
the first register of its pipeline. -/
theorem dispatch_free {d : WarpInst} {input : CycleInput} {r : LdstUnit × Option (Client × WarpInst)}
    (hf : input.Free) (hd : u.dispatchReg = some d)
    (hq : d.space ≠ .shared → (u.accessq = 0 ↔ d.activeCount = 0)) (h : dispatch u input = some r) :
    r.1.dispatchReg = none ∨ r.1.accessq < u.accessq ∨
      (u.pipelineReg2 ≠ none ∧ r.1.accessq = u.accessq) := by
  unfold dispatch at h
  split at h
  · next hn => simp [hd] at hn
  next e he =>
  obtain rfl : d = e := Option.some.inj (hd.symm.trans he)
  obtain ⟨g, hg, rfl⟩ := Option.map_eq_some_iff.1 h
  have hretire := retire_moves (u := { u with pendingWrites := g.2.pendingWrites, accessq := g.2.accessq }) hd
  by_cases hs : d.space = .shared
  · have hg' : g = (true, ⟨u.pendingWrites, u.accessq, none⟩) := by
      simp only [stages, hs, hf.dispatchDelay] at hg
      exact (Option.some.inj hg).symm
    subst hg'
    dsimp only
    rw [if_pos rfl]
    by_cases hl : d.isLoad = true
    · by_cases h2 : u.pipelineReg2 = none
      · exact .inl ((hretire.2.1 hs hl).resolve_left (not_not.2 h2))
      · refine .inr (.inr ⟨h2, ?_⟩)
        simp [retire, hs, hl, h2]
    · exact .inl (hretire.2.2 fun hn => hl hn.2)
  · by_cases hdone : g.1 = true
    · dsimp only
      rw [if_pos hdone]
      exact .inl (hretire.2.2 fun hn => hs hn.1)
    · dsimp only
      rw [if_neg hdone]
      exact .inr (.inl ((stages_free hf hs (hq hs) hg).resolve_left hdone))

/-- A free cycle brings the instruction in `m_dispatch_reg` on. -/
theorem cycle_free {d : WarpInst} {input : CycleInput} {r : LdstUnit × Option (Client × WarpInst)}
    (hf : input.Free) (hs : u.ready .shared = []) (hd : u.dispatchReg = some d)
    (hq : d.space ≠ .shared → (u.accessq = 0 ↔ d.activeCount = 0)) (h : Ldst.cycle u input = some r) :
    r.1.dispatchReg = none ∨ r.1.work + r.1.accessq < u.work + u.accessq := by
  have hmoves := (cycle_moves h).1.work
  have hlt := cycle_work hf.collector hs (h := h)
  obtain ⟨v, hv, hdisp⟩ := Option.bind_eq_some_iff.1 h
  obtain ⟨-, hdv, hqv, h2v⟩ := writeback_moves hv
  obtain ⟨-, hds, hqs, h2s, -⟩ := shiftPipeline_moves v
  rcases dispatch_free hf (hds.trans (hdv.trans hd)) (by rwa [hqs, hqv]) hdisp with hn | hless | ⟨h2, hsame⟩
  · exact .inl hn
  · rw [hqs, hqv] at hless
    exact .inr (by omega)
  · rw [hqs, hqv] at hsame
    have := hlt (.inr (.inr (.inr (.inr (h2v ▸ h2s h2)))))
    exact .inr (by omega)

/-! ## Runs of cycles -/

namespace LdstRun

variable {s s' : LdstRun} {i d : WarpInst}

/-- Cycles without a new instruction or response. -/
def runCycles (s : LdstRun) (inputs : List CycleInput) : Option LdstRun :=
  inputs.foldlM (fun s input => next s (.cycle input)) s

/-- The instruction only waits for its writeback: it has left `m_dispatch_reg`, and no response is to come. -/
structure Settled (s : LdstRun) (i : WarpInst) : Prop where
  issued : i ∈ s.issued
  waiting : i ∉ s.waiting
  dispatch : s.unit.dispatchReg ≠ some i
  arrived : ∀ c, (c, i) ∉ s.inFlight

/-- No response is for the client of the shared memory. -/
def Clients (s : LdstRun) : Prop := s.unit.ready .shared = [] ∧ ∀ a ∈ s.inFlight, a.1 ≠ .shared

theorem cycle_eq {input : CycleInput} (h : next s (.cycle input) = some s') :
    ∃ r, Ldst.cycle s.unit input = some r ∧ s' = { s with
      unit := r.1, inFlight := s.inFlight ++ (r.2.toList.filter fun access => access.2.isLoad) } := by
  obtain ⟨r, hr, rfl⟩ := Option.map_eq_some_iff.1 h
  exact ⟨r, hr, rfl⟩

theorem Clients.cycle (h : s.Clients) {input : CycleInput} (hn : next s (.cycle input) = some s') :
    s'.Clients := by
  obtain ⟨r, hr, rfl⟩ := cycle_eq hn
  obtain ⟨hm, hsent⟩ := cycle_moves hr
  refine ⟨hm.shared h.1, fun a ha => ?_⟩
  rcases List.mem_append.1 ha with ha | ha
  · exact h.2 a ha
  · exact (hsent a (Option.mem_toList.1 (List.mem_filter.1 ha).1)).1

theorem Reachable.clients (h : Reachable s) : s.Clients := by
  induction h with
  | start => exact ⟨rfl, by simp⟩
  | @step s s' op hreach ha hn ih =>
    cases op with
    | issueWarp i =>
      obtain ⟨t, -, rfl⟩ := Option.map_eq_some_iff.1 hn
      exact ih
    | issue i =>
      obtain rfl := Option.some.inj hn
      exact ih
    | respond c i =>
      obtain rfl := Option.some.inj hn
      refine ⟨?_, fun a ha => ih.2 a (List.mem_of_mem_erase ha)⟩
      exact (Function.update_of_ne (fun heq => ih.2 (c, i) ha.1 heq.symm) _ _).trans ih.1
    | cycle input => exact ih.cycle hn

/-- An instruction stays where it is. -/
theorem Settled.cycle (h : s.Settled i) {input : CycleInput} (hn : next s (.cycle input) = some s') :
    s'.Settled i := by
  obtain ⟨r, hr, rfl⟩ := cycle_eq hn
  obtain ⟨hm, hsent⟩ := cycle_moves hr
  refine ⟨h.issued, h.waiting, fun hd => ?_, fun c hc => ?_⟩
  · rcases hm.dispatch with hd' | hd'
    · exact h.dispatch (hd'.symm.trans hd)
    · exact absurd (hd'.symm.trans hd) (by simp)
  · rcases List.mem_append.1 hc with hc | hc
    · exact h.arrived c hc
    · exact h.dispatch (hsent (c, i) (Option.mem_toList.1 (List.mem_filter.1 hc).1)).2

/-- What only waits for its writeback is complete when nothing waits for the writeback. -/
theorem Settled.handing (h : s.Settled i) (hi : Inv s) (hc : i ∉ s.unit.completed) : s.unit.Handing := by
  by_contra hidle
  simp only [LdstUnit.Handing, not_or, not_not] at hidle
  obtain ⟨hn, hr, h0, h1, h2⟩ := hidle
  refine hc ((hi.complete_iff h.issued).2 ⟨fun hq => ?_, h.dispatch, fun hs => ?_⟩)
  · have hw := h.waiting
    simp [LdstRun.queued, LdstUnit.nextShared, LdstUnit.pipeline, hn, h0, h1, h2, hw] at hq
  · have hmap : i ∉ s.inFlight.map Prod.snd := by
      intro hm
      obtain ⟨⟨c, j⟩, hj, rfl⟩ := List.mem_map.1 hm
      exact h.arrived c hj
    simp [LdstRun.sent, LdstUnit.nextAccess, hn, hr] at hs
    obtain ⟨c, hc'⟩ := hs
    exact absurd hc' (h.arrived c)

/-- A complete instruction stays complete over any cycles. -/
theorem runCycles_completed (hi : Inv s) (hc : i ∈ s.unit.completed) (inputs : List CycleInput) :
    ∃ s', s.runCycles inputs = some s' ∧ i ∈ s'.unit.completed := by
  induction inputs generalizing s with
  | nil => exact ⟨s, rfl, hc⟩
  | cons input inputs ih =>
    obtain ⟨t, ht, hit⟩ := hi.cycle input
    obtain ⟨r, hr, hrt⟩ := cycle_eq ht
    have hct : i ∈ t.unit.completed := by
      rw [hrt]
      exact (cycle_moves hr).1.completed.subset hc
    obtain ⟨s', hs', hc'⟩ := ih hit hct
    exact ⟨s', by rw [runCycles, List.foldlM_cons, ht]; exact hs', hc'⟩

/-- By induction on the cycles: each takes from the work that is left. -/
theorem drains (hi : Inv s) (hcl : s.Clients) (h : s.Settled i) {inputs : List CycleInput}
    (hfree : ∀ input ∈ inputs, input.collector = true) (hlen : s.unit.work ≤ inputs.length) :
    ∃ s', s.runCycles inputs = some s' ∧ i ∈ s'.unit.completed := by
  induction inputs generalizing s with
  | nil =>
    refine ⟨s, rfl, ?_⟩
    by_contra hc
    exact absurd (h.handing hi hc).work_pos (by simpa using hlen)
  | cons input inputs ih =>
    by_cases hc : i ∈ s.unit.completed
    · exact runCycles_completed hi hc _
    · obtain ⟨t, ht, hit⟩ := hi.cycle input
      obtain ⟨r, hr, hrt⟩ := cycle_eq ht
      have hwork := cycle_work (hfree input List.mem_cons_self) hcl.1 (h.handing hi hc) hr
      have hunit : t.unit = r.1 := by rw [hrt]
      obtain ⟨s', hs', hc'⟩ := ih hit (hcl.cycle ht) (h.cycle ht)
        (fun x hx => hfree x (List.mem_cons_of_mem _ hx)) (by
          rw [hunit]
          simp only [List.length_cons] at hlen
          omega)
      exact ⟨s', by rw [runCycles, List.foldlM_cons, ht]; exact hs', hc'⟩

/-- Over free cycles `m_dispatch_reg` becomes empty and stays so. -/
theorem leaves (hi : Inv s) (hcl : s.Clients) {inputs : List CycleInput}
    (hfree : ∀ input ∈ inputs, input.Free) (hlen : s.unit.work + s.unit.accessq < inputs.length) :
    ∃ s', s.runCycles inputs = some s' ∧ s'.unit.dispatchReg = none := by
  -- either it is empty already, or what is left falls with every cycle
  have hgen : s.unit.dispatchReg = none ∨ s.unit.work + s.unit.accessq < inputs.length := .inr hlen
  clear hlen
  induction inputs generalizing s with
  | nil => exact ⟨s, rfl, hgen.resolve_right (by simp)⟩
  | cons input inputs ih =>
    obtain ⟨t, ht, hit⟩ := hi.cycle input
    obtain ⟨r, hr, hrt⟩ := cycle_eq ht
    have hunit : t.unit = r.1 := by rw [hrt]
    have hgen' : t.unit.dispatchReg = none ∨ t.unit.work + t.unit.accessq < inputs.length := by
      rw [hunit]
      cases hd : s.unit.dispatchReg with
      | none =>
        left
        rcases (cycle_moves hr).1.dispatch with hsame | hnone
        · exact hsame.trans hd
        · exact hnone
      | some d =>
        have hlen := hgen.resolve_left (by simp [hd])
        simp only [List.length_cons] at hlen
        refine (cycle_free (hfree input List.mem_cons_self) hcl.1 hd (hi.queue d hd) hr).imp_right ?_
        intro hlt
        omega
    obtain ⟨s', hs', hn'⟩ := ih hit (hcl.cycle ht) (fun x hx => hfree x (List.mem_cons_of_mem _ hx)) hgen'
    exact ⟨s', by rw [runCycles, List.foldlM_cons, ht]; exact hs', hn'⟩

/-! ## Exactly once -/

/-- Loads complete exactly once.  The counts are the accesses that are not served; the reserved registers
are those of the instructions that are not complete; a load that has left `m_dispatch_reg` holds its
registers as long as their counts are not zero; an instruction is complete once, as soon as nothing of it
is left; what only waits for its writeback is complete after as many cycles with a free collector as there is
work; the instruction in `m_dispatch_reg` leaves it when nothing holds it up; and no assertion fails. -/
structure ExactlyOnce (s : LdstRun) : Prop where
  count : ∀ w r, s.unit.pendingWrites.count w r = s.unserved w r
  reserved : ∀ w r, s.unit.regTable w r = true ↔
    ∃ i ∈ s.issued, i ∉ s.unit.completed ∧ i.Writes w r
  released : ∀ w r, s.unit.regTable w r = false → s.unit.pendingWrites.count w r = 0
  held : ∀ i ∈ s.issued, i.counted = true → i ∉ s.waiting → s.unit.dispatchReg ≠ some i →
    i ∉ s.unit.completed → ∀ w r, i.Writes w r → 0 < s.unit.pendingWrites.count w r
  once : s.unit.completed.Nodup
  complete : ∀ i ∈ s.issued, i ∈ s.unit.completed ↔
    i ∉ s.queued ∧ s.unit.dispatchReg ≠ some i ∧ (i ∈ s.sent → i.regs = [])
  served : ∀ i inputs, s.Settled i → (∀ input ∈ inputs, input.collector = true) →
    s.unit.work ≤ inputs.length → ∃ s', s.runCycles inputs = some s' ∧ i ∈ s'.unit.completed
  dispatched : ∀ inputs, (∀ input ∈ inputs, input.Free) → s.unit.work + s.unit.accessq < inputs.length →
    ∃ s', s.runCycles inputs = some s' ∧ s'.unit.dispatchReg = none
  noAbort : ∀ op, Allowed s op → (Ldst.next s op).isSome

/-- **Loads complete exactly once**, in every state that the unit can reach. -/
theorem loads_complete_once (h : Reachable s) : ExactlyOnce s := by
  have hi := h.inv
  refine ⟨hi.count_eq, ?_, fun w r hf => hi.count_of_free hf, ?_, hi.ledger.nodup,
    fun i him => hi.complete_iff him, fun i inputs hs hfree hlen => drains hi h.clients hs hfree hlen,
    fun inputs hfree hlen => leaves hi h.clients hfree hlen, ?_⟩
  · intro w r
    have ht := hi.ledger.table w r
    simp only [Ledger.Live, and_assoc] at ht
    exact ht
  · intro i him hcd hw hd hc w r hwr
    have hsent := hi.mem_sent him hcd hw hd hc
    have hpos : 0 < s.sent.countP (·.Writes w r) := Multiset.countP_pos.2 ⟨i, hsent, hwr⟩
    rw [hi.count_eq, unserved]
    omega
  · intro op ha
    obtain ⟨s', hs', -⟩ := hi.next ha
    simp [hs']

/-! ## A run -/

/-- A load of two registers with two accesses. -/
def twoAccesses : WarpInst where
  uid := 1
  warpId := 0
  out := [4, 5, 0, 0]
  inputs := [2]
  isLoad := true
  space := .global
  activeCount := 32
  accessqCount := 2
  bypassL1D := false

/-- What the cache answers, with nothing in the way. -/
def answer (status : Cache.CacheRequestStatus) : CycleInput := ⟨true, false, true, false, some status⟩

instance (s : LdstRun) : (op : LdstOp) → Decidable (Allowed s op)
  | .issueWarp _ => inferInstanceAs (Decidable (_ ∧ _))
  | .issue _ => inferInstanceAs (Decidable (_ ∧ _))
  | .respond _ _ => inferInstanceAs (Decidable (_ ∧ _))
  | .cycle _ => inferInstanceAs (Decidable True)

/-- The operations one after the other, as far as they are allowed. -/
def runOps (s : LdstRun) (ops : List LdstOp) : Option LdstRun :=
  ops.foldlM (fun s op => if Allowed s op then next s op else none) s

theorem Reachable.runOps (h : Reachable s) {ops : List LdstOp} (hr : s.runOps ops = some s') : Reachable s' := by
  induction ops generalizing s with
  | nil => exact Option.some.inj hr ▸ h
  | cons op ops ih =>
    rw [LdstRun.runOps, List.foldlM_cons] at hr
    obtain ⟨t, ht, hr⟩ := Option.bind_eq_some_iff.1 hr
    split at ht
    · next ha => exact ih (.step op h ha ht) hr
    · cases ht

/-- The first access hits and the second one misses, and its response comes. -/
def respondedOps : List LdstOp :=
  [.issueWarp twoAccesses, .issue twoAccesses, .cycle (answer .hit), .cycle (answer .miss),
    .respond .l1d twoAccesses]

/-- The response is handed out in one cycle and written back in the next, which completes the load. -/
theorem loads_complete_once_twoAccesses : ∃ s s', ({} : LdstRun).runOps respondedOps = some s ∧
    s.unit.pendingWrites.count 0 4 = 1 ∧ ExactlyOnce s ∧
    s.runCycles [answer .hit, answer .hit] = some s' ∧ s'.unit.completed = [twoAccesses] ∧
    s'.unit.regTable 0 4 = false := by
  have hcount : (({} : LdstRun).runOps respondedOps).map (fun s => s.unit.pendingWrites.count 0 4) = some 1 := by
    decide
  have hdone : (({} : LdstRun).runOps respondedOps).bind (fun s =>
      (s.runCycles [answer .hit, answer .hit]).map fun s => (s.unit.completed, s.unit.regTable 0 4)) =
        some ([twoAccesses], false) := by
    decide
  obtain ⟨s, hs, hcount⟩ := Option.map_eq_some_iff.1 hcount
  rw [hs, Option.bind_some] at hdone
  obtain ⟨s', hs', hdone⟩ := Option.map_eq_some_iff.1 hdone
  obtain ⟨hcompleted, hfree⟩ := Prod.mk.inj hdone
  exact ⟨s, s', hs, hcount, loads_complete_once (Reachable.start.runOps hs), hs', hcompleted, hfree⟩

end LdstRun

end CompressionWork.Ldst
