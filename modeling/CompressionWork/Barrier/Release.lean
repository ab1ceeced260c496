/-
# The barrier unit releases the right warps

`Inv` holds of what barriers are for in every run. On the calls that meet the condition the masks of the unit
stay what they are for, and on any other call they do not.
-/
import CompressionWork.Barrier.BarrierSet
import Mathlib.Data.Finset.Lattice.Basic
import Mathlib.Tactic.Common

namespace CompressionWork
namespace Barrier

open Transition

variable {cfg : Config} {u : BarrierSet} {s : Waiting} {cta warp bar b v : ℕ} {warps : Finset ℕ}
  {type : BarType} {count : Option ℕ} {done : ℕ → Prop}

/-! ## The invariant -/

/-- CTAs have bounded ids and warps of their own, and who waits somewhere is active and has arrived there. -/
structure Inv (cfg : Config) (s : Waiting) : Prop where
  bound : ∀ c warps, s.warpsOf c = some warps → c < cfg.maxCtaPerCore
  apart : ∀ c c' warps warps', s.warpsOf c = some warps → s.warpsOf c' = some warps' →
    ∀ w ∈ warps, w ∈ warps' → c = c'
  waiting : ∀ w p, s.waits w = some p → w ∈ s.active ∧ w ∈ s.arrived p.1
  resident : ∀ b, ∀ w ∈ s.arrived b, b < cfg.maxBarriersPerCta ∧ ∃ c warps, s.warpsOf c = some warps ∧ w ∈ warps

/-- The barriers of a CTA whose warps have all exited are empty. -/
def Emptied (s : Waiting) : Prop :=
  ∀ c warps, s.warpsOf c = some warps → (∀ w ∈ warps, w ∉ s.active) →
    ∀ b, ∀ w ∈ warps, w ∉ s.arrived b

theorem mem_arrived_arrive :
    v ∈ (s.arrive warp type bar).arrived b ↔ v ∈ s.arrived b ∨ (b = bar ∧ v = warp) := by
  unfold Waiting.arrive
  by_cases hb : b = bar <;> simp [hb, or_comm]

namespace Inv

theorem init (cfg : Config) : Inv cfg .init :=
  ⟨nofun, nofun, nofun, fun _ _ hw => absurd hw (Finset.notMem_empty _)⟩

theorem allocate (h : Inv cfg s) (hcan : s.Admits cfg (.allocate cta warps)) :
    Inv cfg (s.step cfg (.allocate cta warps)).1 := by
  obtain ⟨hbound, hnone, hdisj⟩ := hcan
  have hof : ∀ c x, (s.step cfg (.allocate cta warps)).1.warpsOf c = some x →
      (c = cta ∧ x = warps) ∨ (c ≠ cta ∧ s.warpsOf c = some x) := by
    intro c x hx
    by_cases hc : c = cta
    · exact Or.inl ⟨hc, (Option.some.inj ((if_pos hc).symm.trans hx)).symm⟩
    · exact Or.inr ⟨hc, (if_neg hc).symm.trans hx⟩
  refine ⟨fun c x hx => ?_, fun c c' x x' hx hx' w hw hw' => ?_, fun w p hp => ?_, fun b w hw => ?_⟩
  · rcases hof c x hx with ⟨rfl, -⟩ | ⟨-, hx⟩
    · exact hbound
    · exact h.bound c x hx
  · rcases hof c x hx with ⟨hc, hx₁⟩ | ⟨-, hx₁⟩ <;> rcases hof c' x' hx' with ⟨hc', hx₂⟩ | ⟨-, hx₂⟩
    · exact hc.trans hc'.symm
    · exact absurd hw' (Finset.disjoint_left.1 (hdisj c' x' hx₂) (hx₁ ▸ hw))
    · exact absurd hw (Finset.disjoint_left.1 (hdisj c x hx₁) (hx₂ ▸ hw'))
    · exact h.apart c c' x x' hx₁ hx₂ w hw hw'
  · exact ⟨Finset.mem_union_left _ (h.waiting w p hp).1, (h.waiting w p hp).2⟩
  · obtain ⟨hb, c, x, hx, hwx⟩ := h.resident b w hw
    have hc : c ≠ cta := by
      rintro rfl
      exact nomatch hnone.symm.trans hx
    exact ⟨hb, c, x, (if_neg hc).trans hx, hwx⟩

theorem deallocate (h : Inv cfg s) (hempty : Emptied s) (hcan : s.Admits cfg (.deallocate cta)) :
    Inv cfg (s.step cfg (.deallocate cta)).1 := by
  obtain ⟨warps, hwarps, hexit⟩ := hcan
  have hof : ∀ c x, (s.step cfg (.deallocate cta)).1.warpsOf c = some x → s.warpsOf c = some x := by
    intro c x hx
    by_cases hc : c = cta
    · exact nomatch (if_pos hc).symm.trans hx
    · exact (if_neg hc).symm.trans hx
  refine ⟨fun c x hx => h.bound c x (hof c x hx), fun c c' x x' hx hx' =>
    h.apart c c' x x' (hof c x hx) (hof c' x' hx'), h.waiting, fun b w hw => ?_⟩
  obtain ⟨hb, c, x, hx, hwx⟩ := h.resident b w hw
  have hc : c ≠ cta := by
    rintro rfl
    obtain rfl := Option.some.inj (hwarps.symm.trans hx)
    exact hempty c warps hwarps (fun w hw => Finset.disjoint_left.1 hexit hw) b w hwx hw
  exact ⟨hb, c, x, (if_neg hc).trans hx, hwx⟩

theorem arrive (h : Inv cfg s) (hcan : s.Admits cfg (.reach cta warp type bar count)) :
    Inv cfg (s.arrive warp type bar) := by
  obtain ⟨⟨warps, hwarps, hmem⟩, hactive, -, hbar, -⟩ := hcan
  refine ⟨h.bound, h.apart, fun w p hp => ?_, fun b w hw => ?_⟩
  · by_cases hw : w = warp ∧ type ≠ .arrive
    · obtain rfl := Option.some.inj ((if_pos hw).symm.trans hp)
      rw [hw.1]
      exact ⟨hactive, mem_arrived_arrive.2 (Or.inr ⟨rfl, rfl⟩)⟩
    · obtain ⟨ha, hb⟩ := h.waiting w p ((if_neg hw).symm.trans hp)
      exact ⟨ha, mem_arrived_arrive.2 (Or.inl hb)⟩
  · rcases mem_arrived_arrive.1 hw with hw | ⟨rfl, rfl⟩
    · exact h.resident b w hw
    · exact ⟨hbar, cta, warps, hwarps, hmem⟩

theorem exitActive (h : Inv cfg s) (hfree : s.waits warp = none) :
    Inv cfg { s with active := s.active.erase warp } := by
  refine ⟨h.bound, h.apart, fun w p hp => ?_, h.resident⟩
  obtain ⟨ha, hb⟩ := h.waiting w p hp
  refine ⟨Finset.mem_erase.2 ⟨?_, ha⟩, hb⟩
  rintro rfl
  exact nomatch hfree.symm.trans hp

end Inv

theorem mem_arrived_complete [DecidablePred done] :
    v ∈ (s.complete warps done).arrived b ↔ v ∈ s.arrived b ∧ ¬ (done b ∧ v ∈ warps) := by
  unfold Waiting.complete
  by_cases hb : done b <;> simp [hb]

theorem waits_complete [DecidablePred done] {p : ℕ × Bool} :
    (s.complete warps done).waits v = some p ↔ s.waits v = some p ∧ ¬ (v ∈ warps ∧ done p.1) := by
  unfold Waiting.complete
  rw [Option.filter_eq_some_iff, decide_eq_true_iff]

theorem Inv.complete [DecidablePred done] (h : Inv cfg s) : Inv cfg (s.complete warps done) := by
  refine ⟨h.bound, h.apart, fun w p hp => ?_, fun b w hw => h.resident b w (mem_arrived_complete.1 hw).1⟩
  obtain ⟨hp, hnot⟩ := waits_complete.1 hp
  obtain ⟨ha, hb⟩ := h.waiting w p hp
  exact ⟨ha, mem_arrived_complete.2 ⟨hb, fun hd => hnot hd.symm⟩⟩

theorem Emptied.complete [DecidablePred done] (h : Emptied s) : Emptied (s.complete warps done) :=
  fun c x hx hexit b w hw hmem => h c x hx hexit b w hw (mem_arrived_complete.1 hmem).1

/-! ## The CTA of a warp -/

theorem ctaOf_eq (h : Inv cfg s) (hwarps : s.warpsOf cta = some warps) (hmem : warp ∈ warps) :
    s.ctaOf cfg warp = some (cta, warps) := by
  have hself : ((s.warpsOf cta).filter fun warps => warp ∈ warps).map (fun warps => (cta, warps)) =
      some (cta, warps) := by
    simp [hwarps, hmem]
  unfold Waiting.ctaOf
  cases hfind : (List.range cfg.maxCtaPerCore).findSome? fun c =>
      ((s.warpsOf c).filter fun warps => warp ∈ warps).map fun warps => (c, warps) with
  | none =>
    rw [List.findSome?_eq_none_iff] at hfind
    exact nomatch hself.symm.trans (hfind cta (List.mem_range.2 (h.bound cta warps hwarps)))
  | some p =>
    obtain ⟨c, -, hc⟩ := List.exists_of_findSome?_eq_some hfind
    obtain ⟨x, hx, rfl⟩ := Option.map_eq_some_iff.1 hc
    obtain ⟨hx, hwx⟩ := Option.filter_eq_some_iff.1 hx
    obtain rfl := h.apart c cta x warps hx hwarps warp (of_decide_eq_true hwx) hmem
    rw [Option.some.inj (hx.symm.trans hwarps)]

/-- The search in the unit finds the same CTA. -/
theorem find_eq (hctas : u.ctaToWarps = s.warpsOf) :
    ((List.range cfg.maxCtaPerCore).findSome? fun c =>
      (u.ctaToWarps c).filter fun warps => warp ∈ warps) = (s.ctaOf cfg warp).map Prod.snd := by
  unfold Waiting.ctaOf
  rw [List.map_findSome?, hctas]
  congr 1
  funext c
  simp [Function.comp_def]

/-! ## The steps -/

theorem step_reach (hwarps : s.warpsOf cta = some warps) :
    s.step cfg (.reach cta warp type bar count) =
      if (s.arrive warp type bar).Completes cfg warps bar count then
        ((s.arrive warp type bar).complete warps fun b => b = bar,
          (s.arrive warp type bar).due cta warps [bar])
      else (s.arrive warp type bar, []) := by
  simp only [Waiting.step, hwarps, Option.getD_some]

/-- The state before the barriers are tested at an exit. -/
abbrev exited (s : Waiting) (warp : ℕ) : Waiting := { s with active := s.active.erase warp }

theorem step_exit (h : Inv cfg s) (hwarps : s.warpsOf cta = some warps) (hmem : warp ∈ warps) :
    s.step cfg (.exit warp) =
      ((exited s warp).complete warps fun b =>
          b < cfg.maxBarriersPerCta ∧ (exited s warp).AllArrived warps b,
        (exited s warp).due cta warps
          ((List.range cfg.maxBarriersPerCta).filter fun b => (exited s warp).AllArrived warps b)) := by
  have hcta : (exited s warp).ctaOf cfg warp = some (cta, warps) :=
    (ctaOf_eq h hwarps hmem : s.ctaOf cfg warp = _)
  simp only [Waiting.step, hcta]

theorem Inv.step {ev : Event} (h : Inv cfg s) (hempty : Emptied s) (hcan : s.Admits cfg ev) :
    Inv cfg (s.step cfg ev).1 := by
  cases ev with
  | allocate cta warps => exact h.allocate hcan
  | deallocate cta => exact h.deallocate hempty hcan
  | reach cta warp type bar count =>
    have harrive := h.arrive hcan
    obtain ⟨⟨warps, hwarps, -⟩, -⟩ := hcan
    rw [step_reach hwarps]
    split
    · exact harrive.complete
    · exact harrive
  | exit warp =>
    obtain ⟨⟨cta, warps, hwarps, hmem⟩, -, hfree⟩ := hcan
    rw [step_exit h hwarps hmem]
    exact (h.exitActive hfree).complete

theorem Emptied.arrive (hempty : Emptied s) (hactive : warp ∈ s.active) :
    Emptied (s.arrive warp type bar) := by
  intro c x hx hexit b w hw hmem
  rcases mem_arrived_arrive.1 hmem with hmem | ⟨-, rfl⟩
  · exact hempty c x hx hexit b w hw hmem
  · exact hexit w hw hactive

theorem Emptied.step {ev : Event} (hempty : Emptied s) (h : Inv cfg s) (hcan : s.Admits cfg ev) :
    Emptied (s.step cfg ev).1 := by
  cases ev with
  | allocate cta warps =>
    intro c x hx hexit b w hw
    by_cases hc : c = cta
    · obtain rfl := Option.some.inj ((if_pos hc).symm.trans hx)
      exact absurd (Finset.mem_union_right _ hw) (hexit w hw)
    · apply hempty c x ((if_neg hc).symm.trans hx) _ b w hw
      exact fun w hw hmem => hexit w hw (Finset.mem_union_left _ hmem)
  | deallocate cta =>
    intro c x hx hexit
    by_cases hc : c = cta
    · exact nomatch (if_pos hc).symm.trans hx
    · exact hempty c x ((if_neg hc).symm.trans hx) hexit
  | reach cta warp type bar count =>
    obtain ⟨⟨warps, hwarps, -⟩, hactive, -⟩ := hcan
    rw [step_reach hwarps]
    split
    · exact (hempty.arrive hactive).complete
    · exact hempty.arrive hactive
  | exit warp =>
    obtain ⟨⟨cta, warps, hwarps, hmem⟩, -, -⟩ := hcan
    rw [step_exit h hwarps hmem]
    intro c x hx hexit b w hw hafter
    obtain ⟨harrived, hnot⟩ := mem_arrived_complete.1 hafter
    clear hafter
    by_cases hin : warp ∈ x
    · -- the last warp of the CTA exits, so all its barriers complete
      obtain rfl := h.apart c cta x warps hx hwarps warp hin hmem
      obtain rfl := Option.some.inj (hx.symm.trans hwarps)
      have hall : (exited s warp).AllArrived x b := fun v hv ha => absurd ha (hexit v hv)
      exact hnot ⟨⟨(h.resident b w harrived).1, hall⟩, hw⟩
    · apply hempty c x hx _ b w hw harrived
      intro v hv ha
      apply hexit v hv
      refine Finset.mem_erase.2 ⟨?_, ha⟩
      rintro rfl
      exact hin hv

/-! ## Releases -/

/-- The arrivals of a CTA at the barriers that are done leave the masks. -/
structure Released (warps : Finset ℕ) (done : ℕ → Prop) (u u' : BarrierSet) : Prop where
  ctas : u'.ctaToWarps = u.ctaToWarps
  active : u'.warpActive = u.warpActive
  bars : ∀ b v, v ∈ u'.barIdToWarps b ↔ v ∈ u.barIdToWarps b ∧ ¬ (done b ∧ v ∈ warps)
  waiting : ∀ v, v ∈ u'.warpAtBarrier ↔
    v ∈ u.warpAtBarrier ∧ ¬ ∃ b, done b ∧ v ∈ warps ∧ v ∈ u.barIdToWarps b

theorem released_release (warps : Finset ℕ) (u : BarrierSet) (bar : ℕ) :
    Released warps (fun b => b = bar) u (u.release bar (u.atBarrier warps bar)) := by
  refine ⟨rfl, rfl, fun b v => ?_, fun v => ?_⟩
  · unfold BarrierSet.release BarrierSet.atBarrier
    by_cases hb : b = bar
    · simp [hb]
    · simp [hb]
  · simp [BarrierSet.release, BarrierSet.atBarrier]

namespace Released

theorem congr {done' : ℕ → Prop} {u' : BarrierSet} (h : Released warps done u u')
    (hiff : ∀ b, done b ↔ done' b) : Released warps done' u u' := by
  obtain rfl : done = done' := funext fun b => propext (hiff b)
  exact h

theorem refl (warps : Finset ℕ) (u : BarrierSet) : Released warps (fun _ => False) u u :=
  ⟨rfl, rfl, by simp, by simp⟩

theorem trans {done' : ℕ → Prop} {u' u'' : BarrierSet} (h : Released warps done u u')
    (h' : Released warps done' u' u'') : Released warps (fun b => done b ∨ done' b) u u'' := by
  refine ⟨h'.ctas.trans h.ctas, h'.active.trans h.active, fun b v => ?_, fun v => ?_⟩
  · rw [h'.bars, h.bars]
    tauto
  · rw [h'.waiting, h.waiting, and_assoc]
    refine and_congr_right fun _ => ⟨fun ⟨hno, hno'⟩ => ?_, fun hno => ⟨?_, ?_⟩⟩
    · rintro ⟨b, hd, hw, hmem⟩
      by_cases hdb : done b
      · exact hno ⟨b, hdb, hw, hmem⟩
      · exact hno' ⟨b, hd.resolve_left hdb, hw, (h.bars b v).2 ⟨hmem, fun hand => hdb hand.1⟩⟩
    · rintro ⟨b, hd, hw, hmem⟩
      exact hno ⟨b, Or.inl hd, hw, hmem⟩
    · rintro ⟨b, hd, hw, hmem⟩
      exact hno ⟨b, Or.inr hd, hw, ((h.bars b v).1 hmem).1⟩

end Released

theorem released_exitLoop {bars : List ℕ} (hnodup : bars.Nodup) {u : BarrierSet} :
    Released warps (fun b => b ∈ bars ∧ u.atBarrier warps b = warps ∩ u.warpActive) u
      (BarrierSet.exitLoop warps u bars) := by
  induction bars generalizing u with
  | nil => exact (Released.refl warps u).congr fun b => by simp
  | cons j bars ih =>
    obtain ⟨hj, hnodup⟩ := List.nodup_cons.1 hnodup
    by_cases htest : u.atBarrier warps j = warps ∩ u.warpActive
    · have hstep := released_release warps u j
      have hloop : BarrierSet.exitLoop warps u (j :: bars) =
          BarrierSet.exitLoop warps (u.release j (u.atBarrier warps j)) bars := by
        unfold BarrierSet.exitLoop
        rw [List.foldl_cons, if_pos htest]
      rw [hloop]
      apply (hstep.trans (ih hnodup)).congr
      intro b
      by_cases hb : b = j
      · subst hb
        simp [htest]
      · have hsame : (u.release j (u.atBarrier warps j)).atBarrier warps b = u.atBarrier warps b := by
          simp [BarrierSet.release, BarrierSet.atBarrier, hb]
        rw [hsame]
        simp [hb, BarrierSet.release]
    · have hloop : BarrierSet.exitLoop warps u (j :: bars) = BarrierSet.exitLoop warps u bars := by
        unfold BarrierSet.exitLoop
        rw [List.foldl_cons, if_neg htest]
      rw [hloop]
      apply (ih hnodup).congr
      intro b
      by_cases hb : b = j
      · subst hb
        simp [htest, hj]
      · simp [hb]

/-! ## The masks -/

namespace Refines

theorem init : Refines .init .init := ⟨rfl, rfl, rfl, fun _ => by simp [BarrierSet.init, Waiting.init]⟩

/-- To clear the bits of warps that have arrived nowhere changes nothing. -/
theorem sdiff_arrived (h : Refines u s) (hout : ∀ b, ∀ w ∈ warps, w ∉ s.arrived b) :
    (fun i => if i < cfg.maxBarriersPerCta then u.barIdToWarps i \ warps else u.barIdToWarps i) =
      s.arrived := by
  funext i
  rw [h.arrived]
  split
  · exact Finset.sdiff_eq_self_of_disjoint (Finset.disjoint_left.2 fun w hw hmem => hout i w hmem hw)
  · rfl

theorem mem_sdiff (h : Refines u s) (hinv : Inv cfg s) (hout : ∀ b, ∀ w ∈ warps, w ∉ s.arrived b) :
    v ∈ u.warpAtBarrier \ warps ↔ (s.waits v).isSome := by
  rw [Finset.mem_sdiff, h.waits v, and_iff_left_iff_imp]
  intro hsome hmem
  obtain ⟨p, hp⟩ := Option.isSome_iff_exists.1 hsome
  exact hout p.1 v hmem (hinv.waiting v p hp).2

theorem allocate (h : Refines u s) (hinv : Inv cfg s) (hcan : s.Admits cfg (.allocate cta warps)) :
    ∃ u', u.allocate cfg cta warps = some u' ∧ Refines u' (s.step cfg (.allocate cta warps)).1 := by
  obtain ⟨hbound, hnone, hdisj⟩ := hcan
  have hout : ∀ b, ∀ w ∈ warps, w ∉ s.arrived b := by
    intro b w hw hmem
    obtain ⟨-, c, x, hx, hwx⟩ := hinv.resident b w hmem
    exact Finset.disjoint_left.1 (hdisj c x hx) hw hwx
  rw [BarrierSet.allocate, if_pos hbound, if_pos (h.ctas ▸ hnone)]
  refine ⟨_, rfl, ⟨?_, ?_, h.sdiff_arrived hout, fun v => h.mem_sdiff hinv hout⟩⟩
  · rw [h.ctas]
    rfl
  · rw [h.active]
    rfl

theorem deallocate (h : Refines u s) (hinv : Inv cfg s) (hempty : Emptied s)
    (hcan : s.Admits cfg (.deallocate cta)) :
    ∃ u', u.deallocate cfg cta = some u' ∧ Refines u' (s.step cfg (.deallocate cta)).1 := by
  obtain ⟨warps, hwarps, hexit⟩ := hcan
  have hout : ∀ b, ∀ w ∈ warps, w ∉ s.arrived b :=
    hempty cta warps hwarps fun w hw => Finset.disjoint_left.1 hexit hw
  have hat : warps ∩ u.warpAtBarrier = ∅ := by
    rw [← Finset.disjoint_iff_inter_eq_empty, Finset.disjoint_left]
    intro w hw hmem
    exact (Finset.mem_sdiff.1 ((h.mem_sdiff hinv hout).2 ((h.waits w).1 hmem))).2 hw
  have hactive : warps ∩ u.warpActive = ∅ := by
    rw [h.active]
    exact Finset.disjoint_iff_inter_eq_empty.1 hexit
  have hbars : ∀ i < cfg.maxBarriersPerCta, warps ∩ u.barIdToWarps i = ∅ := by
    intro i _
    rw [← Finset.disjoint_iff_inter_eq_empty, Finset.disjoint_left, h.arrived]
    exact hout i
  unfold BarrierSet.deallocate
  simp only [h.ctas, hwarps, if_pos hat, if_pos hactive]
  rw [if_pos hbars]
  refine ⟨_, rfl, ⟨rfl, ?_, h.sdiff_arrived hout, fun v => h.mem_sdiff hinv hout⟩⟩
  rw [h.active]
  exact Finset.sdiff_eq_self_of_disjoint hexit.symm

theorem setBits (h : Refines u s) : Refines (u.setBits warp type bar) (s.arrive warp type bar) := by
  refine ⟨h.ctas, h.active, ?_, fun v => ?_⟩
  · unfold BarrierSet.setBits Waiting.arrive
    simp only [h.arrived]
  · have hold := h.waits v
    unfold BarrierSet.setBits Waiting.arrive
    cases type with
    | arrive => simpa using hold
    | sync => by_cases hv : v = warp <;> simp [hv, hold]
    | red => by_cases hv : v = warp <;> simp [hv, hold]

/-- The warp that exits leaves the active ones on both sides. -/
theorem exited (h : Refines u s) (warp : ℕ) :
    Refines { u with warpActive := u.warpActive.erase warp } (exited s warp) := by
  refine ⟨h.ctas, ?_, h.arrived, h.waits⟩
  rw [h.active]

/-- A release of the arrivals at the barriers that are done is right when none of them waits elsewhere. -/
theorem complete [DecidablePred done] {u' : BarrierSet} (h : Refines u s) (hinv : Inv cfg s)
    (hrel : Released warps done u u') (halone : s.Alone warps done) :
    Refines u' (s.complete warps done) := by
  refine ⟨hrel.ctas.trans h.ctas, hrel.active.trans h.active, ?_, fun v => ?_⟩
  · funext b
    ext v
    rw [hrel.bars, h.arrived, mem_arrived_complete]
  · rw [hrel.waiting, h.waits v, h.arrived, Option.isSome_iff_exists, Option.isSome_iff_exists]
    constructor
    · rintro ⟨⟨p, hp⟩, hnot⟩
      refine ⟨p, waits_complete.2 ⟨hp, fun ⟨hmem, hd⟩ => ?_⟩⟩
      exact hnot ⟨p.1, hd, hmem, (hinv.waiting v p hp).2⟩
    · rintro ⟨p, hp⟩
      obtain ⟨hp, hnot⟩ := waits_complete.1 hp
      refine ⟨⟨p, hp⟩, fun ⟨b, hd, hmem, harrived⟩ => ?_⟩
      exact hnot ⟨hmem, halone b hd v hmem harrived p hp⟩

/-- The test of the unit for all active warps is right when no arrival of an exited warp is left. -/
theorem test_iff (h : Refines u s)
    (hexact : s.AllArrived warps b → ∀ w ∈ warps, w ∈ s.arrived b → w ∈ s.active) :
    u.atBarrier warps b = warps ∩ u.warpActive ↔ s.AllArrived warps b := by
  unfold BarrierSet.atBarrier
  rw [h.arrived, h.active]
  constructor
  · intro heq w hw hactive
    have hmem : w ∈ warps ∩ s.arrived b := heq ▸ Finset.mem_inter.2 ⟨hw, hactive⟩
    exact (Finset.mem_inter.1 hmem).2
  · intro hall
    ext w
    rw [Finset.mem_inter, Finset.mem_inter]
    exact and_congr_right fun hw => ⟨hexact hall w hw, hall w hw⟩

theorem released_iff (h : Refines u s)
    (hexact : s.Completes cfg warps bar count →
      match count with
      | none => ∀ w ∈ warps, w ∈ s.arrived bar → w ∈ s.active
      | some count => (warps ∩ s.arrived bar).card * cfg.warpSize ≤ count) :
    u.released cfg warps bar count ↔ s.Completes cfg warps bar count := by
  cases count with
  | none => exact h.test_iff hexact
  | some n =>
    unfold BarrierSet.released BarrierSet.atBarrier
    rw [h.arrived]
    exact ⟨fun heq => Nat.le_of_eq heq.symm, fun hle => Nat.le_antisymm (hexact hle) hle⟩

theorem reach (h : Refines u s) (hinv : Inv cfg s)
    (hcan : s.Admits cfg (.reach cta warp type bar count))
    (hmeets : s.Meets cfg (.reach cta warp type bar count)) :
    ∃ u', u.reach cfg cta warp type bar count = some (u', (s.step cfg (.reach cta warp type bar count)).2) ∧
      Refines u' (s.step cfg (.reach cta warp type bar count)).1 := by
  have hinv' := hinv.arrive hcan
  obtain ⟨⟨warps, hwarps, hmem⟩, -⟩ := hcan
  have h' : Refines (u.setBits warp type bar) (s.arrive warp type bar) := h.setBits
  simp only [Waiting.Meets, hwarps, Option.getD_some] at hmeets
  have hiff := h'.released_iff fun hc => (hmeets hc).1
  rw [step_reach hwarps]
  simp only [BarrierSet.reach, h.ctas, hwarps, if_pos hmem]
  by_cases hc : (s.arrive warp type bar).Completes cfg warps bar count
  · obtain ⟨-, halone, hred⟩ := hmeets hc
    rw [if_pos hc, if_pos (hiff.2 hc)]
    refine ⟨_, ?_, h'.complete hinv' (released_release _ _ _) halone⟩
    have hiffRed : (s.arrive warp type bar).Reduces warps bar ↔ type = .red := by
      refine ⟨hred, ?_⟩
      rintro rfl
      exact ⟨warp, hmem, if_pos ⟨rfl, by simp⟩⟩
    have hat : (u.setBits warp type bar).atBarrier warps bar =
        warps ∩ (s.arrive warp type bar).arrived bar := by
      rw [BarrierSet.atBarrier, h'.arrived]
    by_cases htype : type = .red
    · have hreduces := hiffRed.2 htype
      rw [if_pos htype, hat]
      simp [Waiting.due, hreduces]
    · have hnot := mt hiffRed.1 htype
      rw [if_neg htype]
      simp [Waiting.due, hnot]
  · rw [if_neg hc, if_neg fun hr => hc (hiff.1 hr)]
    exact ⟨_, rfl, h'⟩

theorem exit (h : Refines u s) (hinv : Inv cfg s) (hcan : s.Admits cfg (.exit warp))
    (hmeets : s.Meets cfg (.exit warp)) :
    ∃ u', u.exit cfg warp = some u' ∧ (s.step cfg (.exit warp)).2 = [] ∧
      Refines u' (s.step cfg (.exit warp)).1 := by
  obtain ⟨⟨cta, warps, hwarps, hmem⟩, -, hfree⟩ := hcan
  have hcta : s.ctaOf cfg warp = some (cta, warps) := ctaOf_eq hinv hwarps hmem
  obtain ⟨hexact, halone, hred⟩ := hmeets cta warps hcta
  have h' := h.exited warp
  rw [step_exit hinv hwarps hmem]
  simp only [BarrierSet.exit, find_eq h.ctas, hcta, Option.map_some]
  refine ⟨_, rfl, ?_, h'.complete (hinv.exitActive hfree) ?_ halone⟩
  · unfold Waiting.due
    rw [List.filter_eq_nil_iff.2, List.map_nil]
    intro b hb
    obtain ⟨hb, hall⟩ := List.mem_filter.1 hb
    simpa using hred b (List.mem_range.1 hb) (of_decide_eq_true hall)
  · apply (released_exitLoop List.nodup_range).congr
    intro b
    rw [List.mem_range]
    exact and_congr_right fun hb => h'.test_iff (hexact b hb)

end Refines

/-! ## The condition is needed -/

/-- An arrival that the two sides answer alike meets the condition. -/
theorem meets_reach {u' : BarrierSet} (h : Refines u s)
    (hcan : s.Admits cfg (.reach cta warp type bar count))
    (hstep : u.reach cfg cta warp type bar count =
      some (u', (s.step cfg (.reach cta warp type bar count)).2))
    (h' : Refines u' (s.step cfg (.reach cta warp type bar count)).1) :
    s.Meets cfg (.reach cta warp type bar count) := by
  obtain ⟨⟨warps, hwarps, hmem⟩, -⟩ := hcan
  have hset : Refines (u.setBits warp type bar) (s.arrive warp type bar) := h.setBits
  simp only [Waiting.Meets, hwarps, Option.getD_some]
  intro hc
  rw [step_reach hwarps, if_pos hc] at hstep h'
  simp only [BarrierSet.reach, h.ctas, hwarps, if_pos hmem] at hstep
  have hself : warp ∈ (u.setBits warp type bar).barIdToWarps bar := by
    simp [BarrierSet.setBits]
  have hrel : (u.setBits warp type bar).released cfg warps bar count := by
    by_contra hnot
    rw [if_neg hnot, Option.some.injEq, Prod.mk.injEq] at hstep
    have hkept : warp ∈ ((s.arrive warp type bar).complete warps fun b => b = bar).arrived bar := by
      rw [← h'.arrived, ← hstep.1]
      exact hself
    exact (mem_arrived_complete.1 hkept).2 ⟨rfl, hmem⟩
  rw [if_pos hrel, Option.some.injEq, Prod.mk.injEq] at hstep
  obtain ⟨rfl, hdue⟩ := hstep
  refine ⟨?_, fun b hb w hw harrived p hp => ?_, fun hred => ?_⟩
  · cases count with
    | none =>
      intro w hw harrived
      rw [← hset.arrived] at harrived
      have hin : w ∈ warps ∩ (u.setBits warp type bar).warpActive :=
        (show (u.setBits warp type bar).atBarrier warps bar = _ from hrel) ▸ Finset.mem_inter.2 ⟨hw, harrived⟩
      exact hset.active ▸ (Finset.mem_inter.1 hin).2
    | some n =>
      rw [← hset.arrived]
      exact Nat.le_of_eq hrel
  · by_contra hne
    have hwaits : ((s.arrive warp type bar).complete warps fun b => b = bar).waits w = some p :=
      waits_complete.2 ⟨hp, fun hand => hne hand.2⟩
    have hwaiting := (h'.waits w).2 (Option.isSome_of_eq_some hwaits)
    rw [← hset.arrived] at harrived
    exact (((released_release warps _ bar).waiting w).1 hwaiting).2 ⟨b, hb, hw, harrived⟩
  · by_contra hnot
    rw [if_neg hnot] at hdue
    simp [Waiting.due, hred] at hdue

/-- An exit that the two sides answer alike meets the condition. -/
theorem meets_exit {u' : BarrierSet} (h : Refines u s) (hinv : Inv cfg s)
    (hcan : s.Admits cfg (.exit warp)) (hstep : u.exit cfg warp = some u')
    (hdue : (s.step cfg (.exit warp)).2 = []) (h' : Refines u' (s.step cfg (.exit warp)).1) :
    s.Meets cfg (.exit warp) := by
  obtain ⟨⟨cta, warps, hwarps, hmem⟩, -, -⟩ := hcan
  have hcta : s.ctaOf cfg warp = some (cta, warps) := ctaOf_eq hinv hwarps hmem
  intro c x hx
  obtain ⟨rfl, rfl⟩ := Prod.mk.inj (Option.some.inj (hcta.symm.trans hx))
  have hactive := h.exited warp
  rw [step_exit hinv hwarps hmem] at hdue h'
  simp only [BarrierSet.exit, find_eq h.ctas, hcta, Option.map_some, Option.some.injEq] at hstep
  have hrel : Released warps _ _ u' := hstep ▸ released_exitLoop List.nodup_range
  have hexact : ∀ b < cfg.maxBarriersPerCta, (exited s warp).AllArrived warps b →
      ∀ w ∈ warps, w ∈ s.arrived b → w ∈ (exited s warp).active := by
    intro b hb hall w hw harrived
    by_contra hnot
    have hgone : w ∉ u'.barIdToWarps b := by
      rw [h'.arrived]
      exact fun hkept => (mem_arrived_complete.1 hkept).2 ⟨⟨hb, hall⟩, hw⟩
    apply hgone
    refine (hrel.bars b w).2 ⟨h.arrived ▸ harrived, fun ⟨⟨_, htest⟩, _⟩ => hnot ?_⟩
    have hin : w ∈ warps ∩ u.warpActive.erase warp :=
      htest ▸ Finset.mem_inter.2 ⟨hw, h.arrived ▸ harrived⟩
    show w ∈ s.active.erase warp
    rw [← h.active]
    exact (Finset.mem_inter.1 hin).2
  refine ⟨hexact, fun b hb w hw harrived p hp => ?_, fun b hb hall hred => ?_⟩
  · by_contra hne
    have hwaits := (h'.waits w).2 (Option.isSome_of_eq_some
      (waits_complete.2 ⟨hp, fun hand => hne hand.2⟩))
    have htest := (hactive.test_iff (hexact b hb.1)).2 hb.2
    exact ((hrel.waiting w).1 hwaits).2
      ⟨b, ⟨List.mem_range.2 hb.1, htest⟩, hw, h.arrived ▸ harrived⟩
  · unfold Waiting.due at hdue
    rw [List.map_eq_nil_iff, List.filter_eq_nil_iff] at hdue
    exact hdue b (List.mem_filter.2 ⟨List.mem_range.2 hb, decide_eq_true hall⟩) (decide_eq_true hred)

/-! ## Runs -/

/-- From right masks, a call is answered right just when it meets the condition. -/
theorem next_agree_iff {p : Pair} {ev : Event} (hagree : p.Agree) (hinv : Inv cfg p.spec)
    (hempty : Emptied p.spec) (hcan : p.spec.Admits cfg ev) :
    (p.next cfg ev).Agree ↔ p.spec.Meets cfg ev := by
  obtain ⟨u, hu, h⟩ := hagree
  have hnext : (p.next cfg ev).unit = (u.step cfg ev).map fun t => (t.1, p.due ++ t.2) := by
    simp only [Pair.next, hu, Option.bind_some]
  have hiff : (p.next cfg ev).Agree ↔
      ∃ u', u.step cfg ev = some (u', (p.spec.step cfg ev).2) ∧ Refines u' (p.spec.step cfg ev).1 := by
    constructor
    · rintro ⟨u', hu', h'⟩
      obtain ⟨⟨v, due⟩, hstep, heq⟩ := Option.map_eq_some_iff.1 (hnext.symm.trans hu')
      obtain ⟨rfl, hdue⟩ := Prod.mk.inj heq
      have hsame : p.due ++ due = p.due ++ (p.spec.step cfg ev).2 := hdue
      rw [List.append_cancel_left hsame] at hstep
      exact ⟨v, hstep, h'⟩
    · rintro ⟨u', hstep, h'⟩
      exact ⟨u', hnext.trans (by rw [hstep]; rfl), h'⟩
  rw [hiff]
  cases ev with
  | allocate cta warps =>
    obtain ⟨u', hstep, h'⟩ := h.allocate hinv hcan
    exact iff_of_true ⟨u', by simp [BarrierSet.step, hstep, Waiting.step], h'⟩ trivial
  | deallocate cta =>
    obtain ⟨u', hstep, h'⟩ := h.deallocate hinv hempty hcan
    exact iff_of_true ⟨u', by simp [BarrierSet.step, hstep, Waiting.step], h'⟩ trivial
  | reach cta warp type bar count =>
    exact ⟨fun ⟨u', hstep, h'⟩ => meets_reach h hcan hstep h', h.reach hinv hcan⟩
  | exit warp =>
    constructor
    · rintro ⟨u', hstep, h'⟩
      obtain ⟨v, hv, heq⟩ := Option.map_eq_some_iff.1 hstep
      obtain ⟨rfl, hdue⟩ := Prod.mk.inj heq
      exact meets_exit h hinv hcan hv hdue.symm h'
    · intro hmeets
      obtain ⟨u', hstep, hdue, h'⟩ := h.exit hinv hcan hmeets
      exact ⟨u', by simp [BarrierSet.step, hstep, hdue], h'⟩

/-- In a run whose calls all meet the condition no assertion fails, the warps that wait are the right ones
and every result is broadcast once; and the condition says of the next call whether this goes on. -/
theorem run_releases {log : List Event} {p : Pair} (hrun : Reach (· = Pair.init) (CleanStep cfg) log p) :
    p.Agree ∧ ∀ ev, p.spec.Admits cfg ev → ((p.next cfg ev).Agree ↔ p.spec.Meets cfg ev) := by
  have h : p.Agree ∧ Inv cfg p.spec ∧ Emptied p.spec := by
    apply hrun.invariant (fun _ p => p.Agree ∧ Inv cfg p.spec ∧ Emptied p.spec)
    · rintro p rfl
      exact ⟨⟨.init, rfl, .init⟩, .init cfg, nofun⟩
    · rintro log p ev p' - ⟨hagree, hinv, hempty⟩ ⟨⟨hcan, rfl⟩, hmeets⟩
      exact ⟨(next_agree_iff hagree hinv hempty hcan).2 hmeets, hinv.step hempty hcan,
        hempty.step hinv hcan⟩
  exact ⟨h.1, fun ev hcan => next_agree_iff h.1 h.2.1 h.2.2 hcan⟩

def coreConfig : Config := ⟨8, 16, 32⟩

def runCalls (calls : List Event) : Pair := calls.foldl (Pair.next coreConfig) Pair.init

/-- Two warps pass barrier 0, and one of them arrives at barrier 1 before the other passes it. -/
def passCalls : List Event :=
  [.allocate 0 {0, 1}, .reach 0 0 .sync 0 none, .reach 0 1 .sync 0 none, .reach 0 0 .arrive 1 (some 64),
    .reach 0 1 .sync 1 (some 64)]

theorem run_releases_twoBarriers : (runCalls passCalls).Agree ∧
    ∀ ev, (runCalls passCalls).spec.Admits coreConfig ev →
      (((runCalls passCalls).next coreConfig ev).Agree ↔ (runCalls passCalls).spec.Meets coreConfig ev) := by
  have hwarps : ∀ {n}, n ∣ 64 → ∀ m, some 64 = some m → n ∣ m := by
    rintro n hn m hm
    rwa [← Option.some.inj hm]
  have hrun : Steps (CleanStep coreConfig) Pair.init passCalls (runCalls passCalls) := by
    refine .cons ⟨⟨?_, rfl⟩, trivial⟩ (.cons ⟨⟨?_, rfl⟩, ?_⟩ (.cons ⟨⟨?_, rfl⟩, ?_⟩ (.cons ⟨⟨?_, rfl⟩, ?_⟩
      (.cons ⟨⟨?_, rfl⟩, ?_⟩ .nil))))
    · exact ⟨by decide, rfl, nofun⟩
    · exact ⟨⟨{0, 1}, rfl, by decide⟩, by decide, rfl, by decide, nofun⟩
    · exact fun hcomplete => absurd hcomplete (by decide)
    · exact ⟨⟨{0, 1}, rfl, by decide⟩, by decide, rfl, by decide, nofun⟩
    · intro _
      refine ⟨by decide, fun b hb w hw harrived p hp => ?_, by decide⟩
      rcases Finset.mem_insert.1 hw with rfl | hw
      · obtain rfl := Option.some.inj hp
        exact hb ▸ rfl
      · obtain rfl := Finset.mem_singleton.1 hw
        obtain rfl := Option.some.inj hp
        exact hb ▸ rfl
    · exact ⟨⟨{0, 1}, rfl, by decide⟩, by decide, rfl, by decide, hwarps (by decide)⟩
    · exact fun hcomplete => absurd hcomplete (by decide)
    · exact ⟨⟨{0, 1}, rfl, by decide⟩, by decide, rfl, by decide, hwarps (by decide)⟩
    · intro _
      refine ⟨by decide, fun b hb w hw harrived p hp => ?_, by decide⟩
      rcases Finset.mem_insert.1 hw with rfl | hw
      · exact absurd hp nofun
      · obtain rfl := Finset.mem_singleton.1 hw
        obtain rfl := Option.some.inj hp
        exact hb ▸ rfl
  exact run_releases (Reach.append (.start rfl) hrun)

/-- A warp arrives at barrier 1 and waits at barrier 0, and the other warp completes barrier 1. -/
def producerCalls : List Event :=
  [.allocate 0 {0, 1}, .reach 0 0 .arrive 1 (some 64), .reach 0 0 .sync 0 none, .reach 0 1 .sync 1 (some 64)]

/-- The unit releases the first warp from barrier 0, where the other one has not arrived. -/
theorem not_releases : ¬ ∀ log p, Reach (· = Pair.init) (Step coreConfig) log p → p.Agree := by
  intro h
  have hrun : Steps (Step coreConfig) Pair.init producerCalls (runCalls producerCalls) := by
    refine .cons ⟨?_, rfl⟩ (.cons ⟨?_, rfl⟩ (.cons ⟨?_, rfl⟩ (.cons ⟨?_, rfl⟩ .nil)))
    · exact ⟨by decide, rfl, nofun⟩
    · exact ⟨⟨{0, 1}, rfl, by decide⟩, by decide, rfl, by decide, fun n hn => by
        obtain rfl := Option.some.inj hn
        decide⟩
    · exact ⟨⟨{0, 1}, rfl, by decide⟩, by decide, rfl, by decide, nofun⟩
    · exact ⟨⟨{0, 1}, rfl, by decide⟩, by decide, rfl, by decide, fun n hn => by
        obtain rfl := Option.some.inj hn
        decide⟩
  obtain ⟨u, hu, href⟩ := h _ _ (Reach.append (.start rfl) hrun)
  have hfree : ((runCalls producerCalls).unit.map fun t => decide (0 ∈ t.1.warpAtBarrier)) =
      some false := by decide
  have hwaits : ((runCalls producerCalls).spec.waits 0).isSome = true := by decide
  rw [hu] at hfree
  exact absurd ((href.waits 0).2 hwaits) (of_decide_eq_false (Option.some.inj hfree))

end Barrier
end CompressionWork
