import CompressionWork.Sched.Order
import CompressionWork.Transition.Reach

/-!
# The two-level scheduler

`two_level_active_scheduler` issues from a list of active warps.  A warp that waits is demoted to a queue, and
the warps that have been there longest take the free places.

* `TwoLevel` — the active warps and the pending ones.
* `demote`, `promote`, `orderWarps` — what a cycle does.
* `Kept` — every warp is in one place.
* `twoLevel_keeps_iff` — no run loses a warp exactly when there are as many warps as active places.

The constructor reads two prioritizations too; only the round robin of each level is implemented, so the
model has these.
-/

namespace CompressionWork.Sched

open Transition

variable {α : Type}

/-- `m_next_cycle_prioritized_warps` and `m_pending_warps`. -/
structure TwoLevel (α : Type) where
  active : List α := []
  pending : List α := []

namespace TwoLevel

variable (maxActiveWarps : ℕ)

/-- `add_supervised_warp_id`. -/
def addSupervisedWarpId (s : TwoLevel α) (w : α) : TwoLevel α :=
  if s.active.length < maxActiveWarps then { s with active := s.active ++ [w] }
  else { s with pending := s.pending ++ [w] }

/-- The scheduler with its warps. -/
def new (warps : List α) : TwoLevel α := warps.foldl (addSupervisedWarpId maxActiveWarps) {}

/-- The first loop of `order_warps`, with `num_demoted`: it erases the waiting warps as it goes over the
active ones. -/
def demote (waiting : α → Bool) : List α → List α → ℕ → TwoLevel α × ℕ
  | [], pending, numDemoted => (⟨[], pending⟩, numDemoted)
  | w :: active, pending, numDemoted =>
      if waiting w then demote waiting active (pending ++ [w]) (numDemoted + 1)
      else
        let r := demote waiting active pending numDemoted
        ({ r.1 with active := w :: r.1.active }, r.2)

/-- The second loop, with `num_promoted`; the queue has a front only when it is not empty. -/
def promote (active : List α) : List α → ℕ → Option (TwoLevel α × ℕ)
  | [], numPromoted => if active.length < maxActiveWarps then none else some (⟨active, []⟩, numPromoted)
  | w :: pending, numPromoted =>
      if active.length < maxActiveWarps then promote (active ++ [w]) pending (numPromoted + 1)
      else some (⟨active, w :: pending⟩, numPromoted)

/-- `order_warps`, with its assertion that as many warps move up as down. -/
def orderWarps (waiting : α → Bool) (s : TwoLevel α) : Option (TwoLevel α) := do
  let (s, numDemoted) := demote waiting s.active s.pending 0
  let (s, numPromoted) ← promote maxActiveWarps s.active s.pending 0
  guard (numPromoted = numDemoted)
  pure s

/-- `do_on_warp_issued`, for the active warp at a position. -/
def doOnWarpIssued (prioritizedIter : ℕ) (s : TwoLevel α) : Option (TwoLevel α) :=
  (orderLrr s.active prioritizedIter s.active.length).map fun newActive => { s with active := newActive }

end TwoLevel

/-- A cycle, with the warps that wait in it; and the issue of the active warp at a position. -/
inductive SchedEvent (α : Type)
  | orderWarps (waiting : α → Bool)
  | warpIssued (prioritizedIter : ℕ)

namespace TwoLevel

/-- What an event does to the two lists. -/
def exec (maxActiveWarps : ℕ) (s : TwoLevel α) : SchedEvent α → Option (TwoLevel α)
  | .orderWarps waiting => s.orderWarps maxActiveWarps waiting
  | .warpIssued prioritizedIter => s.doOnWarpIssued prioritizedIter

/-- A warp issues from the active list. -/
def Allowed (s : TwoLevel α) : SchedEvent α → Prop
  | .orderWarps _ => True
  | .warpIssued prioritizedIter => prioritizedIter < s.active.length

/-- The states of the runs with so many active warps. -/
def Reaches (maxActiveWarps : ℕ) (warps : List α) (log : List (SchedEvent α)) (s : TwoLevel α) : Prop :=
  Reach (· = new maxActiveWarps warps) (fun s e s' => s.Allowed e ∧ s.exec maxActiveWarps e = some s') log s

/-- Every warp is in one place, and the active list keeps its limit. -/
structure Kept (maxActiveWarps : ℕ) (warps : List α) (s : TwoLevel α) : Prop where
  perm : (s.active ++ s.pending).Perm warps
  limit : s.active.length ≤ maxActiveWarps

variable {s s' : TwoLevel α} {limit n : ℕ} {warps active pending : List α} {waiting : α → Bool}

/-! ## The loops -/

theorem addSupervisedWarpId_spec (w : α) (h : s.active.length ≤ limit) :
    ((s.addSupervisedWarpId limit w).active ++ (s.addSupervisedWarpId limit w).pending).Perm
        (s.active ++ s.pending ++ [w]) ∧
      (s.addSupervisedWarpId limit w).active.length = min limit (s.active.length + 1) := by
  rw [addSupervisedWarpId]
  split_ifs with hlt
  · refine ⟨?_, by rw [List.length_append, List.length_singleton]; omega⟩
    rw [List.append_assoc, List.append_assoc]
    exact List.perm_append_comm.append_left s.active
  · exact ⟨.of_eq (List.append_assoc _ _ _).symm, by simp only; omega⟩

/-- The first warps are active, up to the limit. -/
theorem new_spec (limit : ℕ) (warps : List α) :
    ((new limit warps).active ++ (new limit warps).pending).Perm warps ∧
      (new limit warps).active.length = min limit warps.length := by
  induction warps using List.reverseRecOn with
  | nil => exact ⟨.refl _, (Nat.min_zero _).symm⟩
  | append_singleton warps w ih =>
    obtain ⟨hperm, hlength⟩ := ih
    have hnew : new limit (warps ++ [w]) = (new limit warps).addSupervisedWarpId limit w := by
      rw [new, List.foldl_append]
      rfl
    obtain ⟨hadd, hadd_length⟩ := addSupervisedWarpId_spec w (hlength ▸ Nat.min_le_left limit warps.length)
    rw [hnew]
    refine ⟨hadd.trans (hperm.append_right [w]), ?_⟩
    rw [hadd_length, hlength, List.length_append, List.length_singleton]
    omega

theorem demote_spec (waiting : α → Bool) (active pending : List α) (n : ℕ) :
    ((demote waiting active pending n).1.active ++ (demote waiting active pending n).1.pending).Perm
        (active ++ pending) ∧
      (demote waiting active pending n).1.active.length + (demote waiting active pending n).2 =
        active.length + n := by
  induction active generalizing pending n with
  | nil => exact ⟨.refl _, rfl⟩
  | cons w active ih =>
    rw [demote]
    split_ifs with hwait
    · obtain ⟨hperm, hlength⟩ := ih (pending ++ [w]) (n + 1)
      refine ⟨hperm.trans ?_, by rw [hlength, List.length_cons]; omega⟩
      rw [← List.append_assoc]
      exact List.perm_append_comm
    · obtain ⟨hperm, hlength⟩ := ih pending n
      refine ⟨hperm.cons w, ?_⟩
      simp only [List.length_cons]
      omega

/-- The places are filled from the front of the queue, when it has enough warps for them. -/
theorem promote_spec (hle : active.length ≤ limit) (hmany : limit ≤ active.length + pending.length) :
    ∃ s, promote limit active pending n = some (s, n + (limit - active.length)) ∧
      s.active ++ s.pending = active ++ pending ∧ s.active.length = limit := by
  induction pending generalizing active n with
  | nil =>
    have hfull : active.length = limit := Nat.le_antisymm hle hmany
    refine ⟨⟨active, []⟩, ?_, rfl, hfull⟩
    rw [promote, if_neg (by omega), hfull, Nat.sub_self, Nat.add_zero]
  | cons w pending ih =>
    rw [promote]
    split_ifs with hlt
    · have hlength : (active ++ [w]).length = active.length + 1 := List.length_append
      rw [List.length_cons] at hmany
      obtain ⟨s, hs, hall, hactive⟩ := @ih (n + 1) (active ++ [w]) (by omega) (by omega)
      refine ⟨s, ?_, by rw [hall, List.append_assoc]; rfl, hactive⟩
      have hcount : n + 1 + (limit - (active ++ [w]).length) = n + (limit - active.length) := by omega
      rw [hs, hcount]
    · have hfull : active.length = limit := by omega
      exact ⟨⟨active, w :: pending⟩, by rw [hfull, Nat.sub_self, Nat.add_zero], rfl, hfull⟩

/-- With too few warps, one is taken from the empty queue. -/
theorem promote_eq_none (hfew : active.length + pending.length < limit) :
    promote limit active pending n = none := by
  induction pending generalizing active n with
  | nil => rw [promote, if_pos (by simpa using hfew)]
  | cons w pending ih =>
    rw [List.length_cons] at hfew
    rw [promote, if_pos (by omega)]
    exact ih (by rw [List.length_append, List.length_singleton]; omega)

/-! ## Cycles -/

/-- **A cycle** keeps the warps, and fills the active list again. -/
theorem orderWarps_spec (waiting : α → Bool) (hfull : s.active.length = limit) :
    ∃ s', s.orderWarps limit waiting = some s' ∧ (s'.active ++ s'.pending).Perm (s.active ++ s.pending) ∧
      s'.active.length = limit := by
  obtain ⟨hperm, hlength⟩ := demote_spec waiting s.active s.pending 0
  have hsum := hperm.length_eq
  rw [List.length_append, List.length_append] at hsum
  obtain ⟨s', hs', hall, hactive⟩ := @promote_spec _ limit 0
    (demote waiting s.active s.pending 0).1.active (demote waiting s.active s.pending 0).1.pending
    (by omega) (by omega)
  have hcount : 0 + (limit - (demote waiting s.active s.pending 0).1.active.length) =
      (demote waiting s.active s.pending 0).2 := by omega
  refine ⟨s', ?_, hall ▸ hperm, hactive⟩
  rw [orderWarps]
  simp only [hs', hcount, Option.bind_eq_bind, Option.bind_some, guard_true]
  rfl

theorem orderWarps_eq_none (waiting : α → Bool) (hfew : s.active.length + s.pending.length < limit) :
    s.orderWarps limit waiting = none := by
  have hsum := (demote_spec waiting s.active s.pending 0).1.length_eq
  rw [List.length_append, List.length_append] at hsum
  rw [orderWarps]
  simp only [promote_eq_none (hsum ▸ hfew)]
  rfl

theorem doOnWarpIssued_spec {i : ℕ} (hi : i < s.active.length) :
    ∃ s', s.doOnWarpIssued i = some s' ∧ s'.active.Perm s.active ∧ s'.pending = s.pending := by
  obtain ⟨r, hr, hperm, -⟩ := orderLrr_length hi.le
  exact ⟨{ s with active := r }, by rw [doOnWarpIssued, hr]; rfl, hperm, rfl⟩

/-- Every warp is in one place, and the active list is full. -/
structure Full (limit : ℕ) (warps : List α) (s : TwoLevel α) : Prop where
  perm : (s.active ++ s.pending).Perm warps
  full : s.active.length = limit

theorem Full.exec (h : s.Full limit warps) {e : SchedEvent α} (he : s.Allowed e) :
    ∃ s', s.exec limit e = some s' ∧ s'.Full limit warps := by
  cases e with
  | orderWarps waiting =>
    obtain ⟨s', hs', hperm, hfull⟩ := orderWarps_spec waiting h.full
    exact ⟨s', hs', hperm.trans h.perm, hfull⟩
  | warpIssued i =>
    obtain ⟨s', hs', hperm, hpending⟩ := doOnWarpIssued_spec he
    refine ⟨s', hs', ?_, hperm.length_eq.trans h.full⟩
    rw [hpending]
    exact (hperm.append_right _).trans h.perm

theorem Full.of_reaches (hle : limit ≤ warps.length) {log : List (SchedEvent α)}
    (h : Reaches limit warps log s) : s.Full limit warps := by
  refine Reach.invariant (fun _ s => s.Full limit warps) ?_ ?_ h
  · rintro s rfl
    obtain ⟨hperm, hlength⟩ := new_spec limit warps
    exact ⟨hperm, hlength.trans (Nat.min_eq_left hle)⟩
  · rintro log s e s' - hs ⟨he, hexec⟩
    obtain ⟨s'', hs'', hfull⟩ := hs.exec he
    exact Option.some.inj (hs''.symm.trans hexec) ▸ hfull

end TwoLevel

/-- **The two-level scheduler** keeps its warps in every run, without an empty queue and with as many
promotions as demotions, exactly when there are as many warps as active places. -/
theorem twoLevel_keeps_iff (limit : ℕ) (warps : List α) :
    (∀ log s, TwoLevel.Reaches limit warps log s → s.Kept limit warps ∧
        ∀ e, s.Allowed e → ∃ s', s.exec limit e = some s') ↔ limit ≤ warps.length := by
  constructor
  · intro h
    by_contra hfew
    obtain ⟨hkept, hnext⟩ := h [] (TwoLevel.new limit warps) (.start rfl)
    obtain ⟨s', hs'⟩ := hnext (.orderWarps fun _ => false) trivial
    have hlength := hkept.perm.length_eq
    rw [List.length_append] at hlength
    rw [TwoLevel.exec, TwoLevel.orderWarps_eq_none _ (by omega)] at hs'
    exact absurd hs' nofun
  · intro hle log s hs
    have hfull := TwoLevel.Full.of_reaches hle hs
    refine ⟨⟨hfull.perm, hfull.full.le⟩, fun e he => ?_⟩
    obtain ⟨s', hs', -⟩ := hfull.exec he
    exact ⟨s', hs'⟩

/-- Two warps and four active places. -/
theorem orderWarps_empty_queue :
    (TwoLevel.new 4 [0, 1]).orderWarps 4 (fun _ : ℕ => false) = none ∧
      ¬ ∀ log s, TwoLevel.Reaches 4 [0, 1] log s → s.Kept 4 [0, 1] ∧
        ∀ e, s.Allowed e → ∃ s', s.exec 4 e = some s' := by
  have hnone : (TwoLevel.new 4 [0, 1]).orderWarps 4 (fun _ : ℕ => false) = none := rfl
  refine ⟨hnone, fun h => ?_⟩
  obtain ⟨s', hs'⟩ := (h [] (TwoLevel.new 4 [0, 1]) (.start rfl)).2 (.orderWarps fun _ => false) trivial
  rw [TwoLevel.exec, hnone] at hs'
  exact absurd hs' nofun

end CompressionWork.Sched
