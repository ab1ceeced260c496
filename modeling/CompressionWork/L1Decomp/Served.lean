/-
# Compressed hits are served exactly

`Inv` holds between the attempts: a request in the pipeline is that of the fired access at the back of the
instruction of the SM that put it in. It is broken when another SM takes the output of the pipeline, and
when an access is removed in the other mode while its request is on the way.
-/
import CompressionWork.L1Decomp.Attempt
import Mathlib.Data.List.Nodup
import Mathlib.Data.List.Range
import Mathlib.Tactic.Common

namespace CompressionWork
namespace L1Decomp

open Transition

variable {c : Cluster} {sm : ℕ} {a : Access} {rest : List Access} {ev : Event} {mf : MemFetch}

/-! ## The invariant -/

/-- The accesses have ids of their own, and a request in the pipeline is that of the fired global read at the
back of the instruction of its SM. -/
structure Inv (c : Cluster) : Prop where
  served : c.Served
  cells : c.line ≠ []
  requests : ((held c.line).map (·.access)).Nodup
  back : ∀ mf ∈ held c.line, ∃ a rest, (c.inst mf.sid).accessq = a :: rest ∧ a.id = mf.access ∧
    a.globalRead = true ∧ a.id ∈ (c.inst mf.sid).fired
  ids : ∀ sm, ((c.inst sm).accessq.map (·.id)).Nodup
  apart : ∀ sm sm', ∀ a ∈ (c.inst sm).accessq, ∀ a' ∈ (c.inst sm').accessq, a.id = a'.id → sm = sm'
  fresh : ∀ sm, ∀ a ∈ (c.inst sm).accessq, a.id < c.nextId
  old : ∀ r ∈ c.removed, r.access.id < c.nextId

namespace Inv

theorem init {algo : CompAlgo} {latency : ℕ} (hlatency : 0 < latency) : Inv (Cluster.init algo latency) := by
  have hheld : held (List.replicate latency (none : Option MemFetch)) = [] := by
    simp [held, List.reduceOption_replicate_none]
  have hempty : ∀ sm (a : Access), a ∉ ((Cluster.init algo latency).inst sm).accessq := fun _ _ =>
    List.not_mem_nil
  refine ⟨⟨List.nodup_nil, fun r hr => absurd hr List.not_mem_nil,
    fun sm hsm => absurd hsm List.not_mem_nil, ?_, fun sm a ha => absurd ha (hempty sm a)⟩, ?_, ?_, ?_,
    fun _ => List.nodup_nil, fun sm _ a ha => absurd ha (hempty sm a),
    fun sm a ha => absurd ha (hempty sm a), fun r hr => absurd hr List.not_mem_nil⟩
  · rw [Cluster.init, hheld]
    exact fun mf hmf => absurd hmf List.not_mem_nil
  · exact fun h => absurd (congrArg List.length h) (by simp [Cluster.init]; omega)
  · rw [Cluster.init, hheld]
    exact List.nodup_nil
  · rw [Cluster.init, hheld]
    exact fun mf hmf => absurd hmf List.not_mem_nil

/-- New accesses have ids of their own. -/
theorem new_ids (n : ℕ) (types : List Bool) :
    (∀ a ∈ types.mapIdx (fun k t => (⟨n + k, t⟩ : Access)), n ≤ a.id ∧ a.id < n + types.length) ∧
      ((types.mapIdx fun k t => (⟨n + k, t⟩ : Access)).map (·.id)).Nodup := by
  constructor
  · intro a ha
    obtain ⟨k, hk, rfl⟩ := List.mem_mapIdx.1 ha
    exact ⟨Nat.le_add_right _ _, Nat.add_lt_add_left hk _⟩
  · have hids : (types.mapIdx fun k t => (⟨n + k, t⟩ : Access)).map (·.id) =
        (List.range types.length).map (n + ·) := by
      refine List.ext_getElem (by simp) fun k _ _ => ?_
      simp
    rw [hids]
    exact List.nodup_range.map fun x y hxy => Nat.add_left_cancel hxy

theorem issue (h : Inv c) (sm : ℕ) (types : List Bool) : Inv (c.issue sm types) := by
  unfold Cluster.issue
  split
  case isFalse => exact h
  case isTrue hnil =>
    have hother : ∀ s, s ≠ sm →
        (c.setInst sm ⟨types.mapIdx fun k t => ⟨c.nextId + k, t⟩, []⟩).inst s = c.inst s := fun s hs =>
      if_neg hs
    have hself : (c.setInst sm ⟨types.mapIdx fun k t => ⟨c.nextId + k, t⟩, []⟩).inst sm =
        ⟨types.mapIdx fun k t => ⟨c.nextId + k, t⟩, []⟩ := if_pos rfl
    obtain ⟨hnew, hids⟩ := new_ids c.nextId types
    have hmem : ∀ s, ∀ a ∈ ((c.setInst sm ⟨types.mapIdx fun k t => ⟨c.nextId + k, t⟩, []⟩).inst s).accessq,
        (s ≠ sm ∧ a ∈ (c.inst s).accessq ∧ a.id < c.nextId) ∨
          (s = sm ∧ c.nextId ≤ a.id ∧ a.id < c.nextId + types.length) := by
      intro s a ha
      by_cases hs : s = sm
      · subst hs
        rw [hself] at ha
        exact Or.inr ⟨rfl, hnew a ha⟩
      · rw [hother s hs] at ha
        exact Or.inl ⟨hs, ha, h.fresh s a ha⟩
    have hbusy : ∀ mf ∈ held c.line, mf.sid ≠ sm := by
      rintro mf hmf rfl
      obtain ⟨a, rest, hq, -⟩ := h.back mf hmf
      rw [hnil] at hq
      cases hq
    refine ⟨⟨h.served.once, fun r hr s a ha => ?_, h.served.output, fun mf hmf => ?_,
      fun s a ha hfired => ?_⟩, h.cells, h.requests, fun mf hmf => ?_, fun s => ?_,
      fun s s' a ha a' ha' heq => ?_, fun s a ha => ?_, fun r hr => Nat.lt_add_right _ (h.old r hr)⟩
    · rcases hmem s a ha with ⟨-, ha', -⟩ | ⟨-, hge, -⟩
      · exact h.served.gone r hr s a ha'
      · exact Nat.ne_of_gt (Nat.lt_of_lt_of_le (h.old r hr) hge)
    · obtain ⟨a, rest, hq, hid, -⟩ := h.back mf hmf
      refine ⟨mf.sid, a, ?_, hid⟩
      show a ∈ ((c.setInst sm _).inst mf.sid).accessq
      rw [hother _ (hbusy mf hmf), hq]
      exact List.mem_cons_self
    · change a.id ∈ ((c.setInst sm _).inst s).fired at hfired
      by_cases hs : s = sm
      · subst hs
        rw [hself] at hfired
        exact absurd hfired List.not_mem_nil
      · rw [hother s hs] at hfired
        change a ∈ ((c.setInst sm _).inst s).accessq at ha
        rw [hother s hs] at ha
        exact h.served.waits s a ha hfired
    · obtain ⟨a, rest, hq, hid, hread, hfired⟩ := h.back mf hmf
      refine ⟨a, rest, ?_, hid, hread, ?_⟩
      · show ((c.setInst sm _).inst mf.sid).accessq = _
        rwa [hother _ (hbusy mf hmf)]
      · show a.id ∈ ((c.setInst sm _).inst mf.sid).fired
        rwa [hother _ (hbusy mf hmf)]
    · show (((c.setInst sm _).inst s).accessq.map (·.id)).Nodup
      by_cases hs : s = sm
      · subst hs
        rw [hself]
        exact hids
      · rw [hother s hs]
        exact h.ids s
    · rcases hmem s a ha with ⟨-, ha₁, hlt⟩ | ⟨hs, hge, -⟩
      · rcases hmem s' a' ha' with ⟨-, ha₂, -⟩ | ⟨-, hge', -⟩
        · exact h.apart s s' a ha₁ a' ha₂ heq
        · omega
      · rcases hmem s' a' ha' with ⟨-, -, hlt'⟩ | ⟨hs', -, -⟩
        · omega
        · rw [hs, hs']
    · rcases hmem s a ha with ⟨-, -, hlt⟩ | ⟨-, -, hlt⟩
      · exact Nat.lt_add_right _ hlt
      · exact hlt

/-- A request of an SM is that of the access at its back. -/
theorem access_eq_iff (h : Inv c) (hq : (c.inst sm).accessq = a :: rest) (hmf : mf ∈ held c.line) :
    mf.access = a.id ↔ mf.sid = sm := by
  obtain ⟨a', rest', hq', hid, -⟩ := h.back mf hmf
  constructor
  · intro heq
    exact h.apart mf.sid sm a' (hq' ▸ List.mem_cons_self) a (hq ▸ List.mem_cons_self) (hid.trans heq)
  · rintro rfl
    obtain ⟨rfl, -⟩ := List.cons.inj (hq.symm.trans hq')
    exact hid.symm

/-- The access at the back of an instruction has a request in the pipeline only when it was fired. -/
theorem fired_of_mem (h : Inv c) (hq : (c.inst sm).accessq = a :: rest)
    (hmem : a.id ∈ (held c.line).map (·.access)) : a.globalRead = true ∧ a.id ∈ (c.inst sm).fired := by
  obtain ⟨mf, hmf, heq⟩ := List.mem_map.1 hmem
  obtain rfl := (h.access_eq_iff hq hmf).1 heq
  obtain ⟨a', rest', hq', -, hread, hfired⟩ := h.back mf hmf
  obtain ⟨rfl, -⟩ := List.cons.inj (hq.symm.trans hq')
  exact ⟨hread, hfired⟩

/-- Only the pipeline moves on, and nothing comes out. -/
theorem setLine (h : Inv c) {line : List (Option MemFetch)} (hcells : line ≠ [])
    (hheld : held line = held c.line) : Inv { c with line := line } :=
  ⟨⟨h.served.once, h.served.gone, h.served.output, fun mf hmf => h.served.queued mf (hheld ▸ hmf),
    fun s a ha hfired => by
      obtain ⟨mf, hmf, heq⟩ := h.served.waits s a ha hfired
      exact ⟨mf, hheld ▸ hmf, heq⟩⟩,
    hcells, hheld ▸ h.requests, fun mf hmf => h.back mf (hheld ▸ hmf), h.ids, h.apart, h.fresh, h.old⟩

/-- What is queued after the access at the back is removed. -/
theorem mem_popBack (h : Inv c) (hq : (c.inst sm).accessq = a :: rest) {line : List (Option MemFetch)}
    {output : Option MemFetch} {s : ℕ} {a' : Access}
    (ha' : a' ∈ ((Cluster.popBack { c with line := line } sm a output).inst s).accessq) :
    a' ∈ (c.inst s).accessq ∧ a'.id ≠ a.id := by
  by_cases hs : s = sm
  · subst hs
    have htail : a' ∈ rest := by
      simpa [Cluster.popBack, Cluster.setInst, hq] using ha'
    have hids := h.ids s
    rw [hq, List.map_cons, List.nodup_cons] at hids
    refine ⟨hq ▸ List.mem_cons_of_mem a htail, fun heq => hids.1 ?_⟩
    exact heq ▸ List.mem_map_of_mem htail
  · have hold : a' ∈ (c.inst s).accessq := by
      simpa [Cluster.popBack, Cluster.setInst, hs] using ha'
    exact ⟨hold, fun heq => hs (h.apart s sm a' hold a (hq ▸ List.mem_cons_self) heq)⟩

/-- The history of the fired accesses stays. -/
theorem fired_popBack {line : List (Option MemFetch)} {output : Option MemFetch} (s : ℕ) :
    ((Cluster.popBack { c with line := line } sm a output).inst s).fired = (c.inst s).fired := by
  by_cases hs : s = sm
  · subst hs
    simp [Cluster.popBack, Cluster.setInst]
  · simp [Cluster.popBack, Cluster.setInst, hs]

/-- A request that is left is that of the access at the back of another instruction. -/
theorem back_popBack (h : Inv c) (hq : (c.inst sm).accessq = a :: rest) {line : List (Option MemFetch)}
    {output : Option MemFetch} (hsub : (held line).Sublist (held c.line))
    (hnot : a.id ∉ (held line).map (·.access)) (hmf : mf ∈ held line) : ∃ a' rest',
      ((Cluster.popBack { c with line := line } sm a output).inst mf.sid).accessq = a' :: rest' ∧
      a'.id = mf.access ∧ a'.globalRead = true ∧
      a'.id ∈ ((Cluster.popBack { c with line := line } sm a output).inst mf.sid).fired := by
  obtain ⟨a', rest', hq', hid, hread, hfired⟩ := h.back mf (hsub.subset hmf)
  have hs : mf.sid ≠ sm := fun heq =>
    hnot (List.mem_map.2 ⟨mf, hmf, (h.access_eq_iff hq (hsub.subset hmf)).2 heq⟩)
  refine ⟨a', rest', ?_, hid, hread, (fired_popBack mf.sid).symm ▸ hfired⟩
  simpa [Cluster.popBack, Cluster.setInst, hs] using hq'

/-- The access at the back is removed, and the requests left in the pipeline are those of other accesses, or all
that there were. This is right if and only if the output is its own request and no request of it is left. -/
theorem served_popBack_iff (h : Inv c) (hq : (c.inst sm).accessq = a :: rest)
    {line : List (Option MemFetch)} {output : Option MemFetch}
    (hheld : output.toList ++ held line = held c.line) :
    (Cluster.popBack { c with line := line } sm a output).Served ↔
      (∀ mf ∈ output, mf.access = a.id) ∧ a.id ∉ (held line).map (·.access) := by
  have hsub : (held line).Sublist (held c.line) := hheld ▸ List.sublist_append_right _ _
  have hlast : (⟨a, output⟩ : Removal) ∈
      (Cluster.popBack { c with line := line } sm a output).removed :=
    List.mem_append_right _ (List.mem_singleton.2 rfl)
  constructor
  · intro hserved
    refine ⟨fun mf hmf => hserved.output _ hlast mf hmf, fun hid => ?_⟩
    obtain ⟨mf, hmf, heq⟩ := List.mem_map.1 hid
    obtain ⟨s, a', ha', heq'⟩ := hserved.queued mf hmf
    exact hserved.gone _ hlast s a' ha' (heq'.trans heq)
  · rintro ⟨houtput, hnot⟩
    refine ⟨?_, fun r hr s a' ha' => ?_, fun r hr mf hmf => ?_, fun mf hmf => ?_, fun s a' ha' hfired => ?_⟩
    · show ((c.removed ++ [(⟨a, output⟩ : Removal)]).map fun r => r.access.id).Nodup
      rw [List.map_append, List.map_singleton]
      refine List.nodup_append.2 ⟨h.served.once, List.nodup_singleton _, fun x hx y hy => ?_⟩
      obtain ⟨r, hr, rfl⟩ := List.mem_map.1 hx
      rw [List.mem_singleton.1 hy]
      exact (h.served.gone r hr sm a (hq ▸ List.mem_cons_self)).symm
    · obtain ⟨hold, hne⟩ := h.mem_popBack hq ha'
      rcases List.mem_append.1 hr with hr | hr
      · exact h.served.gone r hr s a' hold
      · rw [List.mem_singleton.1 hr]
        exact hne
    · rcases List.mem_append.1 hr with hr | hr
      · exact h.served.output r hr mf hmf
      · obtain rfl := List.mem_singleton.1 hr
        exact houtput mf hmf
    · obtain ⟨a', rest', hq', hid', -⟩ := h.back_popBack hq hsub hnot hmf
      exact ⟨mf.sid, a', hq' ▸ List.mem_cons_self, hid'⟩
    · -- what came out was the request of the access that is removed
      obtain ⟨hold, hne⟩ := h.mem_popBack hq ha'
      rw [fired_popBack] at hfired
      obtain ⟨mf, hmf, heq⟩ := h.served.waits s a' hold hfired
      rw [← hheld] at hmf
      rcases List.mem_append.1 hmf with hmf | hmf
      · exact absurd (heq.symm.trans (houtput mf (Option.mem_toList.1 hmf))) hne
      · exact ⟨mf, hmf, heq⟩

theorem popBack (h : Inv c) (hq : (c.inst sm).accessq = a :: rest) {line : List (Option MemFetch)}
    {output : Option MemFetch} (hcells : line ≠ []) (hheld : output.toList ++ held line = held c.line)
    (houtput : ∀ mf ∈ output, mf.access = a.id) (hnot : a.id ∉ (held line).map (·.access)) :
    Inv (Cluster.popBack { c with line := line } sm a output) := by
  have hsub : (held line).Sublist (held c.line) := hheld ▸ List.sublist_append_right _ _
  refine ⟨(h.served_popBack_iff hq hheld).2 ⟨houtput, hnot⟩, hcells,
    h.requests.sublist (hsub.map _), fun mf hmf => h.back_popBack hq hsub hnot hmf, fun s => ?_,
    fun s s' x hx y hy heq => h.apart s s' x (h.mem_popBack hq hx).1 y (h.mem_popBack hq hy).1 heq,
    fun s x hx => h.fresh s x (h.mem_popBack hq hx).1, fun r hr => ?_⟩
  · by_cases hs : s = sm
    · subst hs
      have hids := h.ids s
      rw [hq, List.map_cons, List.nodup_cons] at hids
      simpa [Cluster.popBack, Cluster.setInst, hq] using hids.2
    · simpa [Cluster.popBack, Cluster.setInst, hs] using h.ids s
  · rcases List.mem_append.1 hr with hr | hr
    · exact h.old r hr
    · rw [List.mem_singleton.1 hr]
      exact h.fresh sm a (hq ▸ List.mem_cons_self)

/-- A hit is put into the pipeline. -/
theorem fire (h : Inv c) (hq : (c.inst sm).accessq = a :: rest) (hread : a.globalRead = true)
    {line : List (Option MemFetch)} (hcells : line ≠ []) (hheld : held line = held c.line ++ [⟨a.id, sm⟩])
    (hnot : a.id ∉ (held c.line).map (·.access)) :
    Inv (Cluster.insertFired { c with line := line } sm a) := by
  have hqueue : ∀ s, ((Cluster.insertFired { c with line := line } sm a).inst s).accessq =
      (c.inst s).accessq := by
    intro s
    by_cases hs : s = sm
    · subst hs
      simp [Cluster.insertFired, Cluster.setInst]
    · simp [Cluster.insertFired, Cluster.setInst, hs]
  have hfired : ∀ s id, id ∈ ((Cluster.insertFired { c with line := line } sm a).inst s).fired ↔
      id ∈ (c.inst s).fired ∨ (s = sm ∧ id = a.id) := by
    intro s id
    by_cases hs : s = sm
    · subst hs
      simp [Cluster.insertFired, Cluster.setInst, or_comm]
    · simp [Cluster.insertFired, Cluster.setInst, hs]
  have hback : ∀ mf ∈ held line, ∃ a' rest',
      ((Cluster.insertFired { c with line := line } sm a).inst mf.sid).accessq = a' :: rest' ∧
      a'.id = mf.access ∧ a'.globalRead = true ∧
      a'.id ∈ ((Cluster.insertFired { c with line := line } sm a).inst mf.sid).fired := by
    intro mf hmf
    rw [hheld] at hmf
    rcases List.mem_append.1 hmf with hmf | hmf
    · obtain ⟨a', rest', hq', hid', hr', hf⟩ := h.back mf hmf
      exact ⟨a', rest', (hqueue _).trans hq', hid', hr', (hfired _ _).2 (Or.inl hf)⟩
    · obtain rfl := List.mem_singleton.1 hmf
      exact ⟨a, rest, (hqueue sm).trans hq, rfl, hread, (hfired _ _).2 (Or.inr ⟨rfl, rfl⟩)⟩
  refine ⟨⟨h.served.once, fun r hr s x hx => h.served.gone r hr s x (hqueue s ▸ hx), h.served.output,
    fun mf hmf => ?_, fun s x hx hf => ?_⟩, hcells, ?_, hback, fun s => hqueue s ▸ h.ids s,
    fun s s' x hx y hy => h.apart s s' x (hqueue s ▸ hx) y (hqueue s' ▸ hy),
    fun s x hx => h.fresh s x (hqueue s ▸ hx), h.old⟩
  · obtain ⟨a', rest', hq', hid', -⟩ := hback mf hmf
    exact ⟨mf.sid, a', hq' ▸ List.mem_cons_self, hid'⟩
  · show ∃ mf ∈ held line, mf.access = x.id
    rw [hheld]
    rcases (hfired s x.id).1 hf with hf | ⟨rfl, hid⟩
    · obtain ⟨mf, hmf, heq⟩ := h.served.waits s x (hqueue s ▸ hx) hf
      exact ⟨mf, List.mem_append_left _ hmf, heq⟩
    · exact ⟨⟨a.id, s⟩, List.mem_append_right _ (List.mem_singleton.2 rfl), hid.symm⟩
  · show ((held line).map (·.access)).Nodup
    rw [hheld, List.map_append, List.map_singleton]
    refine List.nodup_append.2 ⟨h.requests, List.nodup_singleton _, fun x hx y hy hxy => hnot ?_⟩
    obtain rfl : x = a.id := hxy.trans (List.mem_singleton.1 hy)
    exact hx

end Inv

/-! ## Steps -/

theorem held_run (c : Cluster) : c.run.1.toList ++ held c.run.2.line = held c.line := by
  have := held_shift c.line none
  simpa [Cluster.run] using this

theorem run_cells (h : c.line ≠ []) : c.run.2.line ≠ [] := by
  cases hline : c.line with
  | nil => exact absurd hline h
  | cons x xs => simp [Cluster.run, shift, hline]

/-- The output is the request in the last register. -/
theorem run_output (h : c.line ≠ []) : c.run.1 = c.line.headD none := by
  cases hline : c.line with
  | nil => exact absurd hline h
  | cons x xs => simp [Cluster.run, shift, hline]

/-- What is put in after `run` is put in at the free input. -/
theorem held_setInputData (h : c.line ≠ []) (hout : c.run.1 = none) (mf : MemFetch) :
    held (c.run.2.setInputData mf).line = held c.line ++ [mf] := by
  cases hline : c.line with
  | nil => exact absurd hline h
  | cons x xs =>
    have hx : x = none := by simpa [Cluster.run, shift, hline] using hout
    subst hx
    simp [Cluster.run, Cluster.setInputData, shift, hline, held, List.reduceOption_append,
      List.reduceOption_cons_of_none, List.reduceOption_cons_of_some]

/-- A step that succeeds is right if and only if it meets the condition, and then the invariant holds again. -/
def StepIff (next : Option Cluster) (p : Prop) : Prop :=
  ((∃ c', next = some c' ∧ c'.Served) ↔ p) ∧ (p → ∃ c', next = some c' ∧ Inv c')

/-- What a step does that keeps the invariant whatever the condition says. -/
theorem Inv.always {p : Prop} {c' : Cluster} (h : Inv c') (hp : p) : StepIff (some c') p :=
  ⟨⟨fun _ => hp, fun _ => ⟨c', rfl, h.served⟩⟩, fun _ => ⟨c', rfl, h⟩⟩

/-- A step that removes the access at the back. -/
theorem Inv.removes (h : Inv c) (hq : (c.inst sm).accessq = a :: rest) {line : List (Option MemFetch)}
    {output : Option MemFetch} (hcells : line ≠ []) (hheld : output.toList ++ held line = held c.line)
    {p : Prop} (hp : p ↔ (∀ mf ∈ output, mf.access = a.id) ∧ a.id ∉ (held line).map (·.access)) :
    StepIff (some (Cluster.popBack { c with line := line } sm a output)) p := by
  refine ⟨Iff.trans ?_ ((h.served_popBack_iff hq hheld).trans hp.symm), fun hmeets =>
    ⟨_, rfl, h.popBack hq hcells hheld (hp.1 hmeets).1 (hp.1 hmeets).2⟩⟩
  constructor
  · rintro ⟨c', heq, hserved⟩
    exact Option.some.inj heq ▸ hserved
  · exact fun hserved => ⟨_, rfl, hserved⟩

/-- The normal way: the access is right to leave when its SM has no request in the pipeline. -/
theorem Inv.step_normal (h : Inv c) (hq : (c.inst sm).accessq = a :: rest) (status : Status) :
    StepIff (some (c.processCacheAccess sm a status)) (a.globalRead = true →
      status = .reservationFail ∨ ∀ mf ∈ held c.line, mf.sid ≠ sm) := by
  unfold Cluster.processCacheAccess
  by_cases hfail : status = .reservationFail
  · rw [if_pos hfail]
    exact h.always fun _ => Or.inl hfail
  · rw [if_neg hfail]
    refine h.removes hq h.cells rfl ?_
    constructor
    · intro hmeets
      refine ⟨fun mf hmf => absurd hmf (Option.not_mem_none mf), fun hmem => ?_⟩
      obtain ⟨mf, hmf, heq⟩ := List.mem_map.1 hmem
      exact (hmeets (h.fired_of_mem hq hmem).1).resolve_left hfail mf hmf ((h.access_eq_iff hq hmf).1 heq)
    · rintro ⟨-, hnot⟩ -
      exact Or.inr fun mf hmf hsid => hnot (List.mem_map.2 ⟨mf, hmf, (h.access_eq_iff hq hmf).2 hsid⟩)

/-- The compressed way: what comes out of the pipeline must have been put in by the same SM. -/
theorem Inv.step_compressed (h : Inv c) (hq : (c.inst sm).accessq = a :: rest) (hread : a.globalRead = true)
    (status : Status) :
    StepIff (match c.run with
      | (some mf, c) => some (c.popBack sm a (some mf))
      | (none, c) =>
          if a.id ∈ (c.inst sm).fired then some c
          else if status = .hit then some ((c.setInputData ⟨a.id, sm⟩).insertFired sm a)
          else some (c.processCacheAccess sm a status))
      (∀ mf ∈ c.line.headD none, mf.sid = sm) := by
  have hheld := held_run c
  have hcells := run_cells h.cells
  have hsame : c.run.2 = { c with line := c.run.2.line } := rfl
  rw [← run_output h.cells]
  cases hout : c.run.1 with
  | some mf =>
    have hrun : c.run = (some mf, c.run.2) := by rw [← hout]
    rw [hrun]
    dsimp only
    rw [hout] at hheld
    rw [hsame]
    refine h.removes hq hcells hheld ?_
    have hmem : mf ∈ held c.line := hheld ▸ List.mem_cons_self
    have hnodup := h.requests
    rw [← hheld, Option.toList_some, List.singleton_append, List.map_cons, List.nodup_cons] at hnodup
    simp only [Option.mem_some_iff, forall_eq', ← h.access_eq_iff hq hmem]
    exact ⟨fun heq => ⟨heq, heq ▸ hnodup.1⟩, And.left⟩
  | none =>
    have hrun : c.run = (none, c.run.2) := by rw [← hout]
    rw [hrun]
    dsimp only
    rw [hout, Option.toList_none, List.nil_append] at hheld
    have hmeets : ∀ mf ∈ (none : Option MemFetch), mf.sid = sm := fun mf hmf => absurd hmf (Option.not_mem_none mf)
    have hmoved : Inv c.run.2 := hsame ▸ h.setLine hcells hheld
    by_cases hfired : a.id ∈ (c.run.2.inst sm).fired
    · rw [if_pos hfired]
      exact hmoved.always hmeets
    · rw [if_neg hfired]
      have hnot : a.id ∉ (held c.line).map (·.access) := fun hid => hfired (h.fired_of_mem hq hid).2
      by_cases hhit : status = .hit
      · rw [if_pos hhit]
        have hset : c.run.2.setInputData ⟨a.id, sm⟩ =
            { c with line := (c.run.2.setInputData ⟨a.id, sm⟩).line } := rfl
        rw [hset]
        refine (h.fire hq hread ?_ (held_setInputData h.cells hout _) hnot).always hmeets
        simp [Cluster.setInputData]
      · rw [if_neg hhit]
        unfold Cluster.processCacheAccess
        split
        · exact hmoved.always hmeets
        · rw [hsame]
          refine h.removes hq hcells (by rw [Option.toList_none, List.nil_append, hheld]) ?_
          exact ⟨fun _ => ⟨fun mf hmf => absurd hmf (Option.not_mem_none mf), hheld.symm ▸ hnot⟩,
            fun _ => hmeets⟩

/-- One step is right if and only if it meets the condition, and then the invariant holds again. -/
theorem Inv.step (h : Inv c) (ev : Event) : StepIff (c.next ev) (c.Meets ev) := by
  cases ev with
  | issue sm types => exact (h.issue sm types).always trivial
  | attempt sm dataPortFree comp status =>
    simp only [Cluster.next, Cluster.attempt, Cluster.Meets]
    cases hq : (c.inst sm).accessq with
    | nil => exact h.always (by simp)
    | cons a rest =>
      simp only [List.head?_cons, Option.mem_some_iff, forall_eq']
      cases dataPortFree with
      | false => exact h.always (by simp)
      | true =>
        simp only [Bool.true_eq_false, if_false, true_imp_iff]
        cases comp with
        | false => simpa using h.step_normal hq status
        | true =>
          cases hread : a.globalRead with
          | false => simpa [hread] using h.step_normal hq status
          | true =>
            simp only [Bool.true_eq_false, or_self, if_false, if_true, true_imp_iff]
            cases halgo : c.algo.hasPipeline with
            | false => exact ⟨by simp, by simp⟩
            | true =>
              simp only [Bool.true_eq_false, if_false, true_and]
              exact h.step_compressed hq hread status

/-- By induction on the run: a step that is right keeps the invariant for the next one. -/
theorem Inv.run_iff (h : Inv c) (evs : List Event) : RunServed c evs ↔ RunMeets c evs := by
  induction evs generalizing c with
  | nil => exact Iff.rfl
  | cons ev evs ih =>
    obtain ⟨hiff, hinv⟩ := h.step ev
    constructor
    · rintro ⟨c', hnext, hserved, hrest⟩
      have hmeets := hiff.1 ⟨c', hnext, hserved⟩
      refine ⟨hmeets, fun c'' hnext' => ?_⟩
      obtain ⟨d, hd, hi⟩ := hinv hmeets
      rw [hnext] at hnext' hd
      obtain rfl := Option.some.inj hnext'
      obtain rfl := Option.some.inj hd
      exact (ih hi).1 hrest
    · rintro ⟨hmeets, hrest⟩
      obtain ⟨d, hd, hi⟩ := hinv hmeets
      exact ⟨d, hd, hi.served, (ih hi).2 (hrest d hd)⟩

/-- **A run serves the compressed hits exactly if and only if its steps meet the condition.** -/
theorem run_served_iff (algo : CompAlgo) (latency : ℕ) (hlatency : 0 < latency) (evs : List Event) :
    RunServed (Cluster.init algo latency) evs ↔ RunMeets (Cluster.init algo latency) evs :=
  (Inv.init hlatency).run_iff evs

/-- A hit of one SM that comes out of the pipeline at its next attempt. -/
def hitRun : List Event :=
  [.issue 0 [true], .attempt 0 true true .hit, .attempt 0 true true .hit]

theorem run_served_iff_hit :
    RunServed (Cluster.init .bdiWordMatching 1) hitRun ↔ RunMeets (Cluster.init .bdiWordMatching 1) hitRun :=
  run_served_iff .bdiWordMatching 1 (by decide) hitRun

/-- Two SMs of a cluster: the hit of the first one comes out at an attempt of the second one, which
removes its own access. -/
theorem not_served : ¬ RunServed (Cluster.init .bdiWordMatching 1)
    [.issue 0 [true], .issue 1 [true], .attempt 0 true true .hit, .attempt 1 true true .hit] := by
  rintro ⟨c₁, h₁, -, c₂, h₂, -, c₃, h₃, -, c₄, h₄, hserved, -⟩
  obtain rfl := Option.some.inj h₁
  obtain rfl := Option.some.inj h₂
  obtain rfl := Option.some.inj h₃
  obtain rfl := Option.some.inj h₄
  exact absurd (hserved.output ⟨⟨1, true⟩, some ⟨0, 0⟩⟩ (by decide) ⟨0, 0⟩ rfl) (by decide)

end L1Decomp
end CompressionWork
