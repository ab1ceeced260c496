/-
# The barrier unit

`barrier_set_t` keeps one mask of the waiting warps for all barriers, and a mask of the arrivals for each
barrier id. The warps of all CTAs of the core share the masks.

* `BarrierSet.step` — the four calls of the core;
* `Waiting.step` — what barriers are for: who has arrived where, and who waits at which barrier.
-/
import CompressionWork.Transition.Reach
import Mathlib.Data.Finset.Basic
import Mathlib.Data.Finset.Card
import Mathlib.Data.Nat.Notation
import Mathlib.Tactic.Common

namespace CompressionWork
namespace Barrier

/-- `barrier_type` -/
inductive BarType where
  | sync
  | arrive
  | red
  deriving DecidableEq, Repr

/-- The numbers of the core configuration that the barriers read. -/
structure Config where
  maxCtaPerCore : ℕ
  maxBarriersPerCta : ℕ
  warpSize : ℕ

/-- What the core tells the barrier unit. `count` is `none` for a `bar_count` of -1. -/
inductive Event where
  | allocate (cta : ℕ) (warps : Finset ℕ)
  | deallocate (cta : ℕ)
  | reach (cta warp : ℕ) (type : BarType) (bar : ℕ) (count : Option ℕ)
  | exit (warp : ℕ)

/-- The arguments of `broadcast_barrier_reduction`. -/
structure Broadcast where
  cta : ℕ
  bar : ℕ
  warps : Finset ℕ
  deriving DecidableEq

/-- `barrier_set_t` -/
structure BarrierSet where
  ctaToWarps : ℕ → Option (Finset ℕ)
  warpActive : Finset ℕ
  warpAtBarrier : Finset ℕ
  barIdToWarps : ℕ → Finset ℕ

namespace BarrierSet

variable (cfg : Config)

/-- A core without CTAs. -/
def init : BarrierSet := ⟨fun _ => none, ∅, ∅, fun _ => ∅⟩

/-- `allocate_barrier`. The number of CTAs is at most the bound, as their ids are below it. -/
def allocate (s : BarrierSet) (cta : ℕ) (warps : Finset ℕ) : Option BarrierSet :=
  if cta < cfg.maxCtaPerCore then
    if s.ctaToWarps cta = none then
      some
        { ctaToWarps := fun c => if c = cta then some warps else s.ctaToWarps c
          warpActive := s.warpActive ∪ warps
          warpAtBarrier := s.warpAtBarrier \ warps
          barIdToWarps := fun i =>
            if i < cfg.maxBarriersPerCta then s.barIdToWarps i \ warps else s.barIdToWarps i }
    else none
  else none

/-- `deallocate_barrier`, with its three assertions. -/
def deallocate (s : BarrierSet) (cta : ℕ) : Option BarrierSet :=
  match s.ctaToWarps cta with
  | none => some s
  | some warps =>
    if warps ∩ s.warpAtBarrier = ∅ then
      if warps ∩ s.warpActive = ∅ then
        if ∀ i < cfg.maxBarriersPerCta, warps ∩ s.barIdToWarps i = ∅ then
          some
            { ctaToWarps := fun c => if c = cta then none else s.ctaToWarps c
              warpActive := s.warpActive \ warps
              warpAtBarrier := s.warpAtBarrier \ warps
              barIdToWarps := fun i =>
                if i < cfg.maxBarriersPerCta then s.barIdToWarps i \ warps else s.barIdToWarps i }
        else none
      else none
    else none

/-- The arrivals of the CTA at a barrier. -/
def atBarrier (s : BarrierSet) (warps : Finset ℕ) (bar : ℕ) : Finset ℕ := warps ∩ s.barIdToWarps bar

/-- The release: the warps leave the mask of the barrier and the mask of the waiting warps. -/
def release (s : BarrierSet) (bar : ℕ) (warps : Finset ℕ) : BarrierSet :=
  { s with
    barIdToWarps := fun i => if i = bar then s.barIdToWarps i \ warps else s.barIdToWarps i
    warpAtBarrier := s.warpAtBarrier \ warps }

/-- The masks of `warp_reaches_barrier` before its tests. -/
def setBits (s : BarrierSet) (warp : ℕ) (type : BarType) (bar : ℕ) : BarrierSet :=
  { s with
    barIdToWarps := fun i => if i = bar then insert warp (s.barIdToWarps i) else s.barIdToWarps i
    warpAtBarrier :=
      if type = .sync ∨ type = .red then insert warp s.warpAtBarrier else s.warpAtBarrier }

/-- The two tests of `warp_reaches_barrier`. -/
def released (s : BarrierSet) (warps : Finset ℕ) (bar : ℕ) (count : Option ℕ) : Prop :=
  match count with
  | none => s.atBarrier warps bar = warps ∩ s.warpActive
  | some count => (s.atBarrier warps bar).card * cfg.warpSize = count

instance (s : BarrierSet) (warps : Finset ℕ) (bar : ℕ) (count : Option ℕ) :
    Decidable (s.released cfg warps bar count) := by
  unfold released
  split <;> infer_instance

/-- `warp_reaches_barrier` -/
def reach (s : BarrierSet) (cta warp : ℕ) (type : BarType) (bar : ℕ) (count : Option ℕ) :
    Option (BarrierSet × List Broadcast) :=
  match s.ctaToWarps cta with
  | none => none
  | some warps =>
    if warp ∈ warps then
      let s := s.setBits warp type bar
      if s.released cfg warps bar count then
        some (s.release bar (s.atBarrier warps bar),
          if type = .red then [⟨cta, bar, s.atBarrier warps bar⟩] else [])
      else some (s, [])
    else none

/-- The loop of `warp_exit` over the barriers. -/
def exitLoop (warps : Finset ℕ) (s : BarrierSet) (bars : List ℕ) : BarrierSet :=
  bars.foldl
    (fun s i => if s.atBarrier warps i = warps ∩ s.warpActive then s.release i (s.atBarrier warps i) else s) s

/-- `warp_exit`. `none` stands for the use of the end of the map. -/
def exit (s : BarrierSet) (warp : ℕ) : Option BarrierSet :=
  let s := { s with warpActive := s.warpActive.erase warp }
  match (List.range cfg.maxCtaPerCore).findSome? fun c => (s.ctaToWarps c).filter fun warps => warp ∈ warps with
  | none => none
  | some warps => some (exitLoop warps s (List.range cfg.maxBarriersPerCta))

/-- One call, and the broadcasts that it makes. `none` stands for a failed assertion. -/
def step (s : BarrierSet) : Event → Option (BarrierSet × List Broadcast)
  | .allocate cta warps => (s.allocate cfg cta warps).map (·, [])
  | .deallocate cta => (s.deallocate cfg cta).map (·, [])
  | .reach cta warp type bar count => s.reach cfg cta warp type bar count
  | .exit warp => (s.exit cfg warp).map (·, [])

end BarrierSet

/-! ## What barriers are for -/

/-- The warps of the CTAs, who has arrived at a barrier since it last completed, and at which barrier a warp
waits, `true` for a reduction. -/
structure Waiting where
  warpsOf : ℕ → Option (Finset ℕ)
  active : Finset ℕ
  arrived : ℕ → Finset ℕ
  waits : ℕ → Option (ℕ × Bool)

namespace Waiting

variable (cfg : Config)

/-- Nobody waits. -/
def init : Waiting := ⟨fun _ => none, ∅, fun _ => ∅, fun _ => none⟩

/-- A warp arrives; at `bar.sync` and `bar.red` it waits. -/
def arrive (s : Waiting) (warp : ℕ) (type : BarType) (bar : ℕ) : Waiting :=
  { s with
    arrived := fun b => if b = bar then insert warp (s.arrived b) else s.arrived b
    waits := fun w => if w = warp ∧ type ≠ .arrive then some (bar, decide (type = .red)) else s.waits w }

/-- Every active warp of the CTA has arrived. -/
def AllArrived (s : Waiting) (warps : Finset ℕ) (bar : ℕ) : Prop :=
  ∀ w ∈ warps, w ∈ s.active → w ∈ s.arrived bar

/-- Every active warp of the CTA, or the requested number of warps, has arrived. -/
def Completes (s : Waiting) (warps : Finset ℕ) (bar : ℕ) : Option ℕ → Prop
  | none => s.AllArrived warps bar
  | some count => count ≤ (warps ∩ s.arrived bar).card * cfg.warpSize

/-- The barriers of a CTA that are done are emptied, and the warps that wait there are released. -/
def complete (s : Waiting) (warps : Finset ℕ) (done : ℕ → Prop) [DecidablePred done] : Waiting :=
  { s with
    arrived := fun b => if done b then s.arrived b \ warps else s.arrived b
    waits := fun w => (s.waits w).filter fun p => ¬ (w ∈ warps ∧ done p.1) }

/-- A warp of the CTA waits for the result of a reduction. -/
def Reduces (s : Waiting) (warps : Finset ℕ) (bar : ℕ) : Prop := ∃ w ∈ warps, s.waits w = some (bar, true)

instance (s : Waiting) (warps : Finset ℕ) (bar : ℕ) : Decidable (s.AllArrived warps bar) := by
  unfold AllArrived
  infer_instance

instance (s : Waiting) (warps : Finset ℕ) (bar : ℕ) (count : Option ℕ) :
    Decidable (s.Completes cfg warps bar count) := by
  unfold Completes
  split <;> infer_instance

instance (s : Waiting) (warps : Finset ℕ) (bar : ℕ) : Decidable (s.Reduces warps bar) := by
  unfold Reduces
  infer_instance

/-- The results that are due when the barriers complete. -/
def due (s : Waiting) (cta : ℕ) (warps : Finset ℕ) (bars : List ℕ) : List Broadcast :=
  (bars.filter fun b => s.Reduces warps b).map fun b => ⟨cta, b, warps ∩ s.arrived b⟩

/-- The CTA of a warp, with its warps. -/
def ctaOf (s : Waiting) (warp : ℕ) : Option (ℕ × Finset ℕ) :=
  (List.range cfg.maxCtaPerCore).findSome? fun c =>
    ((s.warpsOf c).filter fun warps => warp ∈ warps).map fun warps => (c, warps)

/-- The state after a call, and the results that are due. -/
def step (s : Waiting) : Event → Waiting × List Broadcast
  | .allocate cta warps =>
    ({ s with
        warpsOf := fun c => if c = cta then some warps else s.warpsOf c
        active := s.active ∪ warps }, [])
  | .deallocate cta => ({ s with warpsOf := fun c => if c = cta then none else s.warpsOf c }, [])
  | .reach cta warp type bar count =>
    let warps := (s.warpsOf cta).getD ∅
    let s := s.arrive warp type bar
    if s.Completes cfg warps bar count then
      (s.complete warps fun b => b = bar, s.due cta warps [bar])
    else (s, [])
  | .exit warp =>
    let s := { s with active := s.active.erase warp }
    match s.ctaOf cfg warp with
    | none => (s, [])
    | some (cta, warps) =>
      (s.complete warps fun b => b < cfg.maxBarriersPerCta ∧ s.AllArrived warps b,
        s.due cta warps ((List.range cfg.maxBarriersPerCta).filter fun b => s.AllArrived warps b))

/-- What the core can call: CTAs get free ids and free warps and are deallocated when all their warps have
exited, and active warps that do not wait arrive at barriers and exit. -/
def Admits (s : Waiting) : Event → Prop
  | .allocate cta warps =>
    cta < cfg.maxCtaPerCore ∧ s.warpsOf cta = none ∧
      ∀ c warps', s.warpsOf c = some warps' → Disjoint warps warps'
  | .deallocate cta => ∃ warps, s.warpsOf cta = some warps ∧ Disjoint warps s.active
  | .reach cta warp _ bar count =>
    (∃ warps, s.warpsOf cta = some warps ∧ warp ∈ warps) ∧ warp ∈ s.active ∧ s.waits warp = none ∧
      bar < cfg.maxBarriersPerCta ∧ ∀ n, count = some n → cfg.warpSize ∣ n
  | .exit warp => (∃ cta warps, s.warpsOf cta = some warps ∧ warp ∈ warps) ∧ warp ∈ s.active ∧
      s.waits warp = none

/-- No arrival at a barrier that completes waits at another one that does not complete with it. -/
def Alone (s : Waiting) (warps : Finset ℕ) (done : ℕ → Prop) : Prop :=
  ∀ b, done b → ∀ w ∈ warps, w ∈ s.arrived b → ∀ p, s.waits w = some p → done p.1

/-- The calls on which the unit does what barriers are for. No arrival of an exited warp is left when all
active warps have arrived, and no more warps than requested; a barrier that completes has no arrivals that
wait elsewhere; and one with a reduction is completed by a reduction. -/
def Meets (s : Waiting) : Event → Prop
  | .allocate _ _ => True
  | .deallocate _ => True
  | .reach cta warp type bar count =>
    let warps := (s.warpsOf cta).getD ∅
    let s := s.arrive warp type bar
    s.Completes cfg warps bar count →
      (match count with
        | none => ∀ w ∈ warps, w ∈ s.arrived bar → w ∈ s.active
        | some count => (warps ∩ s.arrived bar).card * cfg.warpSize ≤ count) ∧
      s.Alone warps (fun b => b = bar) ∧ (s.Reduces warps bar → type = .red)
  | .exit warp =>
    let s := { s with active := s.active.erase warp }
    ∀ cta warps, s.ctaOf cfg warp = some (cta, warps) →
      (∀ b < cfg.maxBarriersPerCta, s.AllArrived warps b → ∀ w ∈ warps, w ∈ s.arrived b → w ∈ s.active) ∧
      s.Alone warps (fun b => b < cfg.maxBarriersPerCta ∧ s.AllArrived warps b) ∧
      ∀ b < cfg.maxBarriersPerCta, s.AllArrived warps b → ¬ s.Reduces warps b

end Waiting

/-! ## Runs -/

/-- The unit with the results it has broadcast, if no assertion has failed, beside what barriers are for with
the results that were due. -/
structure Pair where
  unit : Option (BarrierSet × List Broadcast)
  spec : Waiting
  due : List Broadcast

/-- Both sides at the start. -/
def Pair.init : Pair := ⟨some (.init, []), .init, []⟩

/-- Both sides make the same call. -/
def Pair.next (cfg : Config) (p : Pair) (ev : Event) : Pair :=
  { unit := p.unit.bind fun s => (s.1.step cfg ev).map fun t => (t.1, s.2 ++ t.2)
    spec := (p.spec.step cfg ev).1
    due := p.due ++ (p.spec.step cfg ev).2 }

/-- The masks say what they are for: the waiting warps are those that wait at some barrier. -/
structure Refines (s : BarrierSet) (w : Waiting) : Prop where
  ctas : s.ctaToWarps = w.warpsOf
  active : s.warpActive = w.active
  arrived : s.barIdToWarps = w.arrived
  waits : ∀ v, v ∈ s.warpAtBarrier ↔ (w.waits v).isSome

/-- No assertion has failed, the masks are right, and every result was broadcast once. -/
def Pair.Agree (p : Pair) : Prop := ∃ s, p.unit = some (s, p.due) ∧ Refines s p.spec

/-- A call that the core can make. -/
def Step (cfg : Config) (p : Pair) (ev : Event) (p' : Pair) : Prop :=
  p.spec.Admits cfg ev ∧ p' = p.next cfg ev

/-- A call that meets the condition as well. -/
def CleanStep (cfg : Config) (p : Pair) (ev : Event) (p' : Pair) : Prop :=
  Step cfg p ev p' ∧ p.spec.Meets cfg ev

end Barrier
end CompressionWork
