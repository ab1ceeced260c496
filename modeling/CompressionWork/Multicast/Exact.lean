/-
# Every replica is injected once

`Inv` says where every flit of every packet is: the flits of the packets, in the order in which they
were generated, are those that have left the input queue and those that stand in it; for each
destination the replicas are those that were injected and those that stand in its queue. A flit in
the input queue has a replica that is not injected, so it is freed. The replicas of the front flit that
are not injected are at the fronts of their queues, so a step with room sends them all.
-/
import CompressionWork.Multicast.Inject
import CompressionWork.Reply.Compressor
import CompressionWork.Transition.Loop
import Mathlib.Data.List.Perm.Subperm
import Mathlib.Tactic.Common

namespace CompressionWork
namespace Multicast

variable {groupSize vcs pid k d : ℕ} {buf : Buffers} {s : State} {p q : Packet} {r r' : Replica}
  {done rest : List (Packet × ℕ)}

/-! ## All flits and replicas, in order -/

/-- The flits of the packets. -/
def flits (packets : List Packet) : List (Packet × ℕ) :=
  packets.flatMap fun p => (List.range p.size).map fun idx => (p, idx)

/-- The replicas of the packets for a destination. -/
def replicasFor (packets : List Packet) (dest : ℕ) : List Replica :=
  packets.flatMap fun p => p.queued dest

theorem mem_flits {packets : List Packet} {x : Packet × ℕ} :
    x ∈ flits packets ↔ x.1 ∈ packets ∧ x.2 < x.1.size := by
  obtain ⟨p, idx⟩ := x
  simp only [flits, List.mem_flatMap, List.mem_map, List.mem_range, Prod.mk.injEq]
  constructor
  · rintro ⟨p, hp, i, hi, rfl, rfl⟩
    exact ⟨hp, hi⟩
  · rintro ⟨hp, hi⟩
    exact ⟨p, hp, idx, hi, rfl, rfl⟩

theorem mem_replicas {idx : ℕ} :
    r ∈ p.replicas idx ↔ 0 < p.merged ∧ ∃ d ≤ p.merged, r = p.replica idx d := by
  unfold Packet.replicas
  split
  · rename_i h
    simp only [List.mem_map, List.mem_range, h, true_and]
    constructor
    · rintro ⟨d, hd, rfl⟩
      exact ⟨d, by omega, rfl⟩
    · rintro ⟨d, hd, rfl⟩
      exact ⟨d, by omega, rfl⟩
  · rename_i h
    simp [h]

theorem mem_queued :
    r ∈ p.queued d ↔ 0 < p.merged ∧ d ≤ p.merged ∧ ∃ idx < p.size, r = p.replica idx d := by
  unfold Packet.queued
  split
  · rename_i h
    simp only [List.mem_map, List.mem_range, h.1, h.2, true_and]
    constructor
    · rintro ⟨i, hi, rfl⟩
      exact ⟨i, hi, rfl⟩
    · rintro ⟨i, hi, rfl⟩
      exact ⟨i, hi, rfl⟩
  · rename_i h
    constructor
    · intro hmem
      cases hmem
    · rintro ⟨h1, h2, -⟩
      exact absurd ⟨h1, h2⟩ h

/-- The replicas of a packet begin with its head. -/
theorem idx_of_queued_cons {rs : List Replica} (h : p.queued d = r :: rs) : r.idx = 0 := by
  unfold Packet.queued at h
  split at h
  · cases hsize : p.size with
    | zero => simp [hsize] at h
    | succ n =>
        rw [hsize, List.range_succ_eq_map, List.map_cons] at h
        rw [← (List.cons.inj h).1]
        rfl
  · cases h

theorem mem_replicasFor {packets : List Packet} :
    r ∈ replicasFor packets d ↔
      ∃ p ∈ packets, 0 < p.merged ∧ d ≤ p.merged ∧ ∃ idx < p.size, r = p.replica idx d := by
  simp only [replicasFor, List.mem_flatMap, mem_queued]

/-- The order in which flits and replicas are generated. -/
def Before (pid idx pid' idx' : ℕ) : Prop := pid < pid' ∨ pid = pid' ∧ idx < idx'

theorem pairwise_flits {packets : List Packet} (h : packets.Pairwise (·.pid < ·.pid)) :
    (flits packets).Pairwise fun x y => Before x.1.pid x.2 y.1.pid y.2 := by
  refine List.pairwise_flatMap.2 ⟨fun p _ => ?_, h.imp fun hlt x hx y hy => ?_⟩
  · exact List.pairwise_map.2 (List.pairwise_lt_range.imp fun hlt => Or.inr ⟨rfl, hlt⟩)
  · obtain ⟨i, -, rfl⟩ := List.mem_map.1 hx
    obtain ⟨j, -, rfl⟩ := List.mem_map.1 hy
    exact Or.inl hlt

theorem pairwise_replicasFor {packets : List Packet} (h : packets.Pairwise (·.pid < ·.pid)) (d : ℕ) :
    (replicasFor packets d).Pairwise fun x y => Before x.pid x.idx y.pid y.idx := by
  refine List.pairwise_flatMap.2 ⟨fun p _ => ?_, h.imp fun hlt x hx y hy => ?_⟩
  · unfold Packet.queued
    split
    · exact List.pairwise_map.2 (List.pairwise_lt_range.imp fun hlt => Or.inr ⟨rfl, hlt⟩)
    · exact List.Pairwise.nil
  · obtain ⟨-, -, i, -, rfl⟩ := mem_queued.1 hx
    obtain ⟨-, -, j, -, rfl⟩ := mem_queued.1 hy
    exact Or.inl hlt

theorem eq_of_pid {packets : List Packet} (h : packets.Pairwise (·.pid < ·.pid)) (hp : p ∈ packets)
    (hq : q ∈ packets) (heq : p.pid = q.pid) : p = q := by
  obtain ⟨i, hi, rfl⟩ := List.mem_iff_getElem.1 hp
  obtain ⟨j, hj, rfl⟩ := List.mem_iff_getElem.1 hq
  have hlt := List.pairwise_iff_getElem.1 h
  rcases Nat.lt_trichotomy i j with hij | rfl | hij
  · have := hlt i j hi hj hij
    omega
  · rfl
  · have := hlt j i hj hi hij
    omega

/-! ## The invariant -/

/-- A flit in the input queue, when some replicas are injected. -/
def flitAfter (sent : List Replica) (x : Packet × ℕ) : Flit :=
  ⟨x.1.pid, x.2, (x.1.replicas x.2).map fun r => if r ∈ sent then none else some r⟩

/-- The replicas that are injected. -/
def State.sent (s : State) : List Replica := s.injected.map Prod.fst

/-- What a step keeps while it sends replicas. -/
structure Placed (vcs : ℕ) (s : State) (done rest : List (Packet × ℕ)) : Prop where
  pids : s.packets.Pairwise (·.pid < ·.pid)
  fresh : ∀ p ∈ s.packets, p.pid < s.curPid
  flits : flits s.packets = done ++ rest
  input : s.input = rest.map (flitAfter s.sent)
  queue : ∀ d, s.sent.filter (·.dest = d) ++ (s.queue d).map (·.rep) = replicasFor s.packets d
  injectedVC : ∀ e ∈ s.injected, e.2 = multicastVC vcs e.1.dest
  queuedVC : ∀ d, ∀ r ∈ s.queue d, r.vc = none ∨ r.vc = some (multicastVC vcs d)
  freed : s.freed = (done.filter fun x => 0 < x.1.merged).map fun x => (x.1.pid, x.2)
  gone : ∀ x ∈ done, ∀ r ∈ x.1.replicas x.2, r ∈ s.sent
  -- a replica behind the head of its packet has been given the VC
  front : ∀ d x xs, s.queue d = x :: xs → x.rep.idx ≠ 0 → x.vc ≠ none

/-- Between steps every flit in the input queue has a replica to send. -/
structure Inv (vcs : ℕ) (s : State) (done rest : List (Packet × ℕ)) : Prop
    extends Placed vcs s done rest where
  pending : ∀ x ∈ rest, 0 < x.1.merged → ∃ r ∈ x.1.replicas x.2, r ∉ s.sent

namespace Placed

theorem dest_of_mem (h : Placed vcs s done rest) (hr : r ∈ (s.queue d).map (·.rep)) : r.dest = d := by
  have hmem : r ∈ replicasFor s.packets d := by
    rw [← h.queue d]
    exact List.mem_append_right _ hr
  obtain ⟨p, -, -, -, i, -, rfl⟩ := mem_replicasFor.1 hmem
  rfl

/-- A replica of a packet is injected or stands in the queue of its destination. -/
theorem sent_or_queued (h : Placed vcs s done rest) (hr : r ∈ replicasFor s.packets r.dest) :
    r ∈ s.sent ∨ r ∈ (s.queue r.dest).map (·.rep) := by
  rw [← h.queue r.dest] at hr
  rcases List.mem_append.1 hr with hr | hr
  · exact Or.inl (List.mem_filter.1 hr).1
  · exact Or.inr hr

/-- What is injected was generated before what stands in the queue. -/
theorem sent_before (h : Placed vcs s done rest) (hr : r ∈ s.sent) (hd : r.dest = d)
    (hr' : r' ∈ (s.queue d).map (·.rep)) : Before r.pid r.idx r'.pid r'.idx := by
  have hp := pairwise_replicasFor h.pids d
  rw [← h.queue d] at hp
  exact (List.pairwise_append.1 hp).2.2 r (List.mem_filter.2 ⟨hr, by simpa using hd⟩) r' hr'

theorem not_sent (h : Placed vcs s done rest) (hr : r ∈ (s.queue d).map (·.rep)) : r ∉ s.sent := by
  intro hsent
  rcases h.sent_before hsent (h.dest_of_mem hr) hr with hlt | ⟨-, hlt⟩ <;> omega

/-- The front of a queue was generated before the rest of the queue. -/
theorem front_before (h : Placed vcs s done rest) {x : Queued} {xs : List Queued}
    (hqueue : s.queue d = x :: xs) (hr : r ∈ xs.map (·.rep)) :
    Before x.rep.pid x.rep.idx r.pid r.idx := by
  have hp := pairwise_replicasFor h.pids d
  rw [← h.queue d, hqueue, List.map_cons] at hp
  exact (List.pairwise_cons.1 (List.pairwise_append.1 hp).2.1).1 r hr

/-- What stands in a queue was generated for its destination. -/
theorem mem_replicasFor_of_queued (h : Placed vcs s done rest) (hr : r ∈ (s.queue d).map (·.rep)) :
    r ∈ replicasFor s.packets d := by
  rw [← h.queue d]
  exact List.mem_append_right _ hr

/-- Behind a tail a packet begins. -/
theorem idx_of_tail (h : Placed vcs s done rest) {x y : Queued} {ys : List Queued}
    (hqueue : s.queue d = x :: y :: ys) (htail : x.rep.tail = true) : y.rep.idx = 0 := by
  obtain ⟨q, hq, hpos, hd, j, hj, hy⟩ := mem_replicasFor.1
    (h.mem_replicasFor_of_queued (d := d) (r := y.rep) (by simp [hqueue]))
  have hxy : Before x.rep.pid x.rep.idx y.rep.pid y.rep.idx := h.front_before hqueue (by simp)
  rw [hy] at hxy ⊢
  show j = 0
  by_contra hne
  -- the replica before `y` is in its packet and neither injected nor `x` nor behind `y`
  have hprev : q.replica (j - 1) d ∈ replicasFor s.packets d :=
    mem_replicasFor.2 ⟨q, hq, hpos, hd, j - 1, by omega, rfl⟩
  have hp := pairwise_replicasFor h.pids d
  rw [← h.queue d, hqueue, List.map_cons, List.map_cons] at hprev hp
  obtain ⟨-, hbehind, hinjected⟩ := List.pairwise_append.1 hp
  rcases List.mem_append.1 hprev with hsent | hqueued
  · rcases hinjected _ hsent x.rep List.mem_cons_self with h1 | ⟨h1, h1'⟩ <;>
      rcases hxy with h2 | ⟨h2, h2'⟩ <;> simp only [Packet.replica] at h1 h2
    · omega
    · omega
    · omega
    · simp only [Packet.replica] at h1' h2'
      omega
  · rcases List.mem_cons.1 hqueued with hx | hqueued
    · rw [← hx] at htail
      have := of_decide_eq_true htail
      omega
    · rcases List.mem_cons.1 hqueued with hy' | hys
      · have := congrArg Replica.idx (hy'.trans hy)
        simp only [Packet.replica] at this
        omega
      · have hlater := (List.pairwise_cons.1 (List.pairwise_cons.1 hbehind).2).1 _ hys
        rw [hy] at hlater
        rcases hlater with h1 | ⟨-, h1⟩ <;> simp only [Packet.replica] at h1 <;> omega

end Placed

/-! ## A packet is generated -/

theorem sent_pid (h : Placed vcs s done rest) (hr : r ∈ s.sent) : r.pid < s.curPid := by
  have hmem : r ∈ replicasFor s.packets r.dest := by
    rw [← h.queue r.dest]
    exact List.mem_append_left _ (List.mem_filter.2 ⟨hr, by simp⟩)
  obtain ⟨p, hp, -, -, i, -, hrep⟩ := mem_replicasFor.1 hmem
  have hpid : r.pid = p.pid := congrArg Replica.pid hrep
  rw [hpid]
  exact h.fresh p hp

theorem flitAfter_of_fresh {sent : List Replica} {idx : ℕ} (h : ∀ r ∈ p.replicas idx, r ∉ sent) :
    flitAfter sent (p, idx) = p.flit idx := by
  have hmap : (p.replicas idx).map (fun r => if r ∈ sent then none else some r) =
      (p.replicas idx).map some := List.map_congr_left fun r hr => if_neg (h r hr)
  simp only [flitAfter, Packet.flit, hmap]

/-- Behind the replicas that stand in a queue a packet begins with its head. -/
theorem front_generate (h : Placed vcs s done rest) {x : Queued} {xs : List Queued}
    (hqueue : s.queue d ++ (p.queued d).map (fun r => ⟨r, none⟩) = x :: xs) (hidx : x.rep.idx ≠ 0) :
    x.vc ≠ none := by
  cases hold : s.queue d with
  | cons y ys =>
      rw [hold] at hqueue
      obtain ⟨rfl, -⟩ := List.cons.inj hqueue
      exact h.front d y ys hold hidx
  | nil =>
      rw [hold, List.nil_append] at hqueue
      obtain ⟨r, rs, hcons, rfl, -⟩ := List.map_eq_cons_iff.1 hqueue
      exact absurd (idx_of_queued_cons hcons) hidx

theorem Inv.generate (h : Inv vcs s done rest) {merged size : ℕ} {s' : State}
    (hs' : s.generate groupSize merged size = some s') :
    ∃ new, Inv vcs s' done (rest ++ new) := by
  unfold State.generate at hs'
  split at hs'
  · cases hs'
  obtain rfl := Option.some.inj hs'
  have hnew : ∀ idx, ∀ r ∈ (⟨s.curPid, merged, size⟩ : Packet).replicas idx, r ∉ s.sent := by
    intro idx r hr hsent
    obtain ⟨-, d, -, rfl⟩ := mem_replicas.1 hr
    exact absurd (sent_pid h.toPlaced hsent) (Nat.lt_irrefl _)
  have hlt : ∀ p ∈ s.packets, p.pid < s.curPid + 1 + (if 0 < merged then merged + 1 else 0) :=
    fun p hp => Nat.lt_of_lt_of_le (h.fresh p hp) (by omega)
  refine ⟨(List.range size).map fun idx => (⟨s.curPid, merged, size⟩, idx),
    ⟨?_, ?_, ?_, ?_, ?_, h.injectedVC, ?_, h.freed, h.gone, ?_⟩, ?_⟩
  · refine List.pairwise_append.2 ⟨h.pids, List.pairwise_singleton _ _, fun p hp q hq => ?_⟩
    rw [List.mem_singleton.1 hq]
    exact h.fresh p hp
  · intro p hp
    rcases List.mem_append.1 hp with hp | hp
    · exact hlt p hp
    · rw [List.mem_singleton.1 hp]
      show s.curPid < s.curPid + 1 + _
      omega
  · rw [flits, List.flatMap_append, ← List.append_assoc, ← h.flits]
    simp [flits]
  · show s.input ++ _ = (rest ++ _).map (flitAfter s.sent)
    rw [h.input, List.map_append, List.map_map]
    congr 1
    exact List.map_congr_left fun idx _ => (flitAfter_of_fresh (hnew idx)).symm
  · intro d
    show s.sent.filter _ ++ (s.queue d ++ _).map _ = replicasFor (s.packets ++ _) d
    rw [List.map_append, ← List.append_assoc, h.queue d, replicasFor, replicasFor,
      List.flatMap_append, List.map_map]
    simp [Function.comp_def]
  · intro d x hx
    rcases List.mem_append.1 hx with hx | hx
    · exact h.queuedVC d x hx
    · obtain ⟨r, -, rfl⟩ := List.mem_map.1 hx
      exact Or.inl rfl
  · exact fun d x xs hqueue => front_generate h.toPlaced hqueue
  · intro x hx hpos
    rcases List.mem_append.1 hx with hx | hx
    · exact h.pending x hx hpos
    · obtain ⟨idx, -, rfl⟩ := List.mem_map.1 hx
      have hmem : (⟨s.curPid, merged, size⟩ : Packet).replica idx 0 ∈
          (⟨s.curPid, merged, size⟩ : Packet).replicas idx :=
        mem_replicas.2 ⟨hpos, 0, Nat.zero_le _, rfl⟩
      exact ⟨_, hmem, hnew idx _ hmem⟩

/-! ## A replica is sent -/

theorem drop_flitAfter (sent : List Replica) (r : Replica) (x : Packet × ℕ) :
    Flit.drop r (flitAfter sent x) = flitAfter (sent ++ [r]) x := by
  simp only [Flit.drop, flitAfter, List.map_map]
  congr 1
  refine List.map_congr_left fun r' _ => ?_
  by_cases hmem : r' ∈ sent
  · simp [hmem]
  · by_cases heq : r' = r
    · simp [heq]
    · simp [hmem, heq]

theorem allNull_flitAfter {sent : List Replica} {x : Packet × ℕ} :
    (flitAfter sent x).allNull = true ↔ ∀ r ∈ x.1.replicas x.2, r ∈ sent := by
  simp only [Flit.allNull, flitAfter, List.all_map, List.all_eq_true, Function.comp_apply]
  refine forall₂_congr fun r _ => ?_
  by_cases hmem : r ∈ sent <;> simp [hmem]

theorem map_passBack (r : Replica) (v : ℕ) (xs : List Queued) :
    (passBack r v xs).map (·.rep) = xs.map (·.rep) := by
  cases xs with
  | nil => rfl
  | cons x xs =>
      simp only [passBack]
      split <;> rfl

theorem vc_passBack {v : ℕ} {xs : List Queued} (h : ∀ x ∈ xs, x.vc = none ∨ x.vc = some v) :
    ∀ x ∈ passBack r v xs, x.vc = none ∨ x.vc = some v := by
  cases xs with
  | nil => exact h
  | cons y xs =>
      simp only [passBack]
      split
      · exact h
      · intro x hx
        rcases List.mem_cons.1 hx with rfl | hx
        · exact Or.inr rfl
        · exact h x (List.mem_cons_of_mem _ hx)

/-- The next replica has the VC of the one that leaves, or begins a packet. -/
theorem Placed.front_passBack (h : Placed vcs s done rest) {x y : Queued} {xs ys : List Queued} {v : ℕ}
    (hqueue : s.queue d = x :: xs) (hpass : passBack x.rep v xs = y :: ys) (hidx : y.rep.idx ≠ 0) :
    y.vc ≠ none := by
  cases xs with
  | nil => cases hpass
  | cons z zs =>
      by_cases htail : x.rep.tail = true
      · obtain ⟨rfl, -⟩ : z = y ∧ zs = ys := by simpa [passBack, htail] using hpass
        exact absurd (h.idx_of_tail hqueue htail) hidx
      · obtain ⟨rfl, -⟩ : { z with vc := some v } = y ∧ zs = ys := by simpa [passBack, htail] using hpass
        exact Option.some_ne_none _

/-- The state when a replica has left its queue, before the front of the input queue is looked at. -/
def State.moved (s : State) (index : ℕ) (r : Replica) (v : ℕ) (xs : List Queued) : State :=
  { s with
    queue := fun dest => if dest = index then passBack r v xs else s.queue dest
    input := s.input.map (Flit.drop r)
    injected := s.injected ++ [(r, v)] }

theorem Placed.moved (h : Placed vcs s done rest) {x : Queued} {xs : List Queued}
    (hqueue : s.queue k = x :: xs) :
    Placed vcs (s.moved k x.rep (multicastVC vcs k) xs) done rest := by
  have hsent : (s.moved k x.rep (multicastVC vcs k) xs).sent = s.sent ++ [x.rep] := by
    simp [State.moved, State.sent]
  have hdest : x.rep.dest = k := h.dest_of_mem (by rw [hqueue]; simp)
  refine ⟨h.pids, h.fresh, h.flits, ?_, fun d => ?_, fun e he => ?_, fun d y hy => ?_, h.freed,
    fun y hy r hr => ?_, fun d y ys hys hidx => ?_⟩
  · rw [hsent]
    show s.input.map _ = _
    rw [h.input, List.map_map]
    exact List.map_congr_left fun y _ => drop_flitAfter s.sent x.rep y
  · rw [hsent, List.filter_append]
    show _ ++ (if d = k then _ else _ : List Queued).map _ = replicasFor s.packets d
    rw [← h.queue d]
    by_cases hd : d = k
    · subst hd
      rw [if_pos rfl, map_passBack, hqueue]
      simp [hdest]
    · have hne : ¬ k = d := fun heq => hd heq.symm
      simp [hd, hdest, hne]
  · rcases List.mem_append.1 he with he | he
    · exact h.injectedVC e he
    · rw [List.mem_singleton.1 he, hdest]
  · have hold := h.queuedVC d y
    by_cases hd : d = k
    · subst hd
      refine @vc_passBack x.rep _ xs (fun z hz => h.queuedVC d z ?_) y
        (by simpa [State.moved] using hy)
      rw [hqueue]
      exact List.mem_cons_of_mem _ hz
    · exact hold (by simpa [State.moved, hd] using hy)
  · rw [hsent]
    exact List.mem_append_left _ (h.gone y hy r hr)
  · by_cases hd : d = k
    · subst hd
      exact h.front_passBack hqueue (by simpa [State.moved] using hys) hidx
    · exact h.front d y ys (by simpa [State.moved, hd] using hys) hidx

/-- The flit of the front of a queue, and what is injected of the flits before it. -/
theorem Placed.flit_of_front (h : Placed vcs s done rest) {x : Queued} {xs : List Queued}
    (hqueue : s.queue k = x :: xs) :
    ∃ y ∈ rest, 0 < y.1.merged ∧ k ≤ y.1.merged ∧ x.rep = y.1.replica y.2 k := by
  have hdest : x.rep.dest = k := h.dest_of_mem (by rw [hqueue]; simp)
  have hmem : x.rep ∈ replicasFor s.packets k := by
    rw [← h.queue k, hqueue]
    simp
  obtain ⟨p, hp, hpos, hk, i, hi, hrep⟩ := mem_replicasFor.1 hmem
  have hflit : (p, i) ∈ Multicast.flits s.packets := mem_flits.2 ⟨hp, hi⟩
  rw [h.flits] at hflit
  rcases List.mem_append.1 hflit with hgone | hrest
  · have hsent := h.gone _ hgone x.rep (mem_replicas.2 ⟨hpos, k, hk, hrep⟩)
    exact absurd hsent (h.not_sent (by rw [hqueue]; simp))
  · exact ⟨(p, i), hrest, hpos, hk, hrep⟩

/-- A replica before the front of its queue is injected. -/
theorem Placed.sent_of_before (h : Placed vcs s done rest) {x : Queued} {xs : List Queued}
    (hqueue : s.queue k = x :: xs) (hr : r ∈ replicasFor s.packets k)
    (hbefore : Before r.pid r.idx x.rep.pid x.rep.idx) : r ∈ s.sent := by
  rw [← h.queue k, hqueue, List.map_cons] at hr
  rcases List.mem_append.1 hr with hr | hr
  · exact (List.mem_filter.1 hr).1
  · exfalso
    rcases List.mem_cons.1 hr with rfl | hr
    · rcases hbefore with hlt | ⟨-, hlt⟩ <;> omega
    · have hlater := h.front_before hqueue hr
      rcases hbefore with h1 | ⟨h1, h1'⟩ <;> rcases hlater with h2 | ⟨h2, h2'⟩ <;> omega

/-- Behind a replica that is not injected no replica for its destination is. -/
theorem Placed.not_sent_of_before (h : Placed vcs s done rest) (hr : r ∈ replicasFor s.packets k)
    (hd : r.dest = k) (hd' : r'.dest = k) (hnot : r ∉ s.sent)
    (hbefore : Before r.pid r.idx r'.pid r'.idx) : r' ∉ s.sent := by
  intro hsent
  subst hd
  rcases h.sent_or_queued hr with hr | hr
  · exact hnot hr
  · have := h.sent_before hsent hd' hr
    rcases hbefore with h1 | ⟨h1, h1'⟩ <;> rcases this with h2 | ⟨h2, h2'⟩ <;> omega

theorem mem_of_rest (h : Placed vcs s done rest) {y : Packet × ℕ} (hy : y ∈ rest) :
    y.1 ∈ s.packets ∧ y.2 < y.1.size := by
  refine mem_flits.1 ?_
  rw [h.flits]
  exact List.mem_append_right _ hy

theorem rest_before (h : Placed vcs s done rest) {y : Packet × ℕ} {tl : List (Packet × ℕ)}
    (hrest : rest = y :: tl) : ∀ z ∈ tl, Before y.1.pid y.2 z.1.pid z.2 := by
  have hp := pairwise_flits h.pids
  rw [h.flits, hrest] at hp
  exact (List.pairwise_cons.1 (List.pairwise_append.1 hp).2.1).1

/-- The flits in the input queue belong to the packet whose replicas are sent, or to later ones. -/
def From (pid : ℕ) (rest : List (Packet × ℕ)) : Prop := ∀ y ∈ rest, pid ≤ y.1.pid

theorem from_of_rest (h : Placed vcs s done rest) {y : Packet × ℕ} {tl : List (Packet × ℕ)}
    (hrest : rest = y :: tl) : From y.1.pid rest := by
  intro z hz
  rw [hrest] at hz
  rcases List.mem_cons.1 hz with rfl | hz
  · exact Nat.le_refl _
  · rcases rest_before h hrest z hz with hlt | ⟨heq, -⟩ <;> omega

/-- A flit other than the one of the sent replica keeps a replica to send. -/
theorem Inv.pending_of_ne (h : Inv vcs s done rest) {f z : Packet × ℕ} (hf : f ∈ rest) (hz : z ∈ rest)
    (hne : z ≠ f) (hpos : 0 < z.1.merged) :
    ∃ r ∈ z.1.replicas z.2, r ∉ s.sent ++ [f.1.replica f.2 k] := by
  obtain ⟨r, hr, hnot⟩ := h.pending z hz hpos
  refine ⟨r, hr, fun hmem => ?_⟩
  rcases List.mem_append.1 hmem with hmem | hmem
  · exact hnot hmem
  · obtain ⟨-, d, -, hrd⟩ := mem_replicas.1 hr
    have heq : z.1.replica z.2 d = f.1.replica f.2 k := by rw [← hrd, List.mem_singleton.1 hmem]
    refine hne (Prod.ext ?_ (congrArg Replica.idx heq))
    exact eq_of_pid h.pids (mem_of_rest h.toPlaced hz).1 (mem_of_rest h.toPlaced hf).1
      (congrArg Replica.pid heq)

/-- The front is the flit of the replica, or an earlier flit of the packet. -/
theorem Placed.eq_or_before {f y : Packet × ℕ} {tl : List (Packet × ℕ)} (h : Placed vcs s done (y :: tl))
    (hfrom : From f.1.pid (y :: tl)) (hf : f ∈ y :: tl) (hne : y ≠ f) : y.1 = f.1 ∧ y.2 < f.2 := by
  have hfmem := (List.mem_cons.1 hf).resolve_left fun heq => hne heq.symm
  have hle := hfrom y List.mem_cons_self
  rcases rest_before h rfl f hfmem with hlt | ⟨heq, hlt⟩
  · omega
  · exact ⟨eq_of_pid h.pids (mem_of_rest h List.mem_cons_self).1 (mem_of_rest h hf).1 heq, hlt⟩

/-- While an earlier flit of the packet waits for a destination, so does the flit of the replica. -/
theorem Inv.pending_of_before (h : Inv vcs s done rest) {x : Queued} {xs : List Queued}
    (hqueue : s.queue k = x :: xs) {f y : Packet × ℕ} (hrep : x.rep = f.1.replica f.2 k)
    (hy : y ∈ rest) (hpos : 0 < f.1.merged) (hp : y.1 = f.1) (hlt : y.2 < f.2) :
    ∃ r ∈ f.1.replicas f.2, r ∉ s.sent ++ [x.rep] := by
  have hypos : 0 < y.1.merged := hp ▸ hpos
  obtain ⟨r, hr, hnot⟩ := h.pending y hy hypos
  obtain ⟨-, d, hd, rfl⟩ := mem_replicas.1 hr
  have hymem := mem_of_rest h.toPlaced hy
  have hexpect : y.1.replica y.2 d ∈ replicasFor s.packets d :=
    mem_replicasFor.2 ⟨y.1, hymem.1, hypos, hd, y.2, hymem.2, rfl⟩
  have hbefore : ∀ e, Before (y.1.replica y.2 d).pid (y.1.replica y.2 d).idx
      (f.1.replica f.2 e).pid (f.1.replica f.2 e).idx :=
    fun _ => Or.inr ⟨congrArg Packet.pid hp, hlt⟩
  have hdk : d ≠ k := by
    rintro rfl
    refine hnot (h.toPlaced.sent_of_before hqueue hexpect ?_)
    rw [hrep]
    exact hbefore d
  refine ⟨f.1.replica f.2 d, mem_replicas.2 ⟨hpos, d, hp ▸ hd, rfl⟩, fun hmem => ?_⟩
  rcases List.mem_append.1 hmem with hmem | hmem
  · exact h.toPlaced.not_sent_of_before hexpect rfl rfl hnot (hbefore d) hmem
  · have heq := congrArg Replica.dest (List.mem_singleton.1 hmem)
    rw [hrep] at heq
    exact hdk heq

/-- A front that is sent in full leaves the input queue and is freed. -/
theorem Placed.freeFront_sent {y : Packet × ℕ} {tl : List (Packet × ℕ)} (h : Placed vcs s done (y :: tl))
    (hpos : 0 < y.1.merged) (hsent : ∀ r ∈ y.1.replicas y.2, r ∈ s.sent) :
    Placed vcs s.freeFront (done ++ [y]) tl ∧ s.freeFront.sent = s.sent := by
  have hfree : s.freeFront =
      { s with input := tl.map (flitAfter s.sent), freed := s.freed ++ [(y.1.pid, y.2)] } := by
    unfold State.freeFront
    rw [h.input, List.map_cons]
    exact if_pos (allNull_flitAfter.2 hsent)
  rw [hfree]
  refine ⟨⟨h.pids, h.fresh, ?_, rfl, h.queue, h.injectedVC, h.queuedVC, ?_, ?_, h.front⟩, rfl⟩
  · rw [List.append_assoc]
    exact h.flits
  · rw [h.freed, List.filter_append, List.map_append]
    simp [hpos]
  · intro z hz r hr
    rcases List.mem_append.1 hz with hz | hz
    · exact h.gone z hz r hr
    · obtain rfl := List.mem_singleton.1 hz
      exact hsent r hr

/-- A front with a replica to send stays. -/
theorem Placed.freeFront_kept {y : Packet × ℕ} {tl : List (Packet × ℕ)} (h : Placed vcs s done (y :: tl))
    (hkept : ∃ r ∈ y.1.replicas y.2, r ∉ s.sent) : s.freeFront = s := by
  obtain ⟨r, hr, hnot⟩ := hkept
  unfold State.freeFront
  rw [h.input, List.map_cons]
  exact if_neg fun hnull => hnot (allNull_flitAfter.1 hnull r hr)

theorem Inv.send (h : Inv vcs s done rest) (hfrom : From pid rest) {x : Queued} {xs : List Queued}
    (hqueue : s.queue k = x :: xs) (hpid : x.rep.pid = pid) :
    ∃ done' rest', Inv vcs (s.send k x.rep (multicastVC vcs k) xs) done' rest' ∧ From pid rest' := by
  have hmoved := h.toPlaced.moved hqueue
  have hsent : (s.moved k x.rep (multicastVC vcs k) xs).sent = s.sent ++ [x.rep] := by
    simp [State.moved, State.sent]
  obtain ⟨f, hf, hfpos, hfk, hrep⟩ := h.toPlaced.flit_of_front hqueue
  have hother : ∀ z ∈ rest, z ≠ f → 0 < z.1.merged → ∃ r ∈ z.1.replicas z.2, r ∉ s.sent ++ [x.rep] := by
    rw [hrep]
    exact fun z hz => h.pending_of_ne hf hz
  have hfpid : f.1.pid = pid := by
    rw [← hpid, hrep]
    rfl
  obtain ⟨y, tl, rfl⟩ : ∃ y tl, rest = y :: tl := by
    cases rest with
    | nil => cases hf
    | cons y tl => exact ⟨y, tl, rfl⟩
  have hfront := h.toPlaced.eq_or_before (hfpid ▸ hfrom) hf
  show ∃ done' rest', Inv vcs (s.moved k x.rep (multicastVC vcs k) xs).freeFront done' rest' ∧ _
  by_cases hall : ∀ r ∈ y.1.replicas y.2, r ∈ s.sent ++ [x.rep]
  · -- the front is sent in full, so it is the flit of the replica
    have hyf : y = f := by
      by_contra hne
      have hypos : 0 < y.1.merged := (hfront hne).1 ▸ hfpos
      obtain ⟨r, hr, hnot⟩ := hother y List.mem_cons_self hne hypos
      exact hnot (hall r hr)
    subst hyf
    obtain ⟨hplaced, hsame⟩ := hmoved.freeFront_sent hfpos (by rwa [hsent])
    refine ⟨done ++ [y], tl, ⟨hplaced, fun z hz hpos => ?_⟩, fun z hz => hfrom z (List.mem_cons_of_mem _ hz)⟩
    have hne : z ≠ y := by
      rintro rfl
      rcases rest_before h.toPlaced rfl z hz with hlt | ⟨-, hlt⟩ <;> omega
    rw [hsame, hsent]
    exact hother z (List.mem_cons_of_mem _ hz) hne hpos
  · simp only [not_forall, exists_prop] at hall
    rw [hmoved.freeFront_kept (by rwa [hsent])]
    refine ⟨done, y :: tl, ⟨hmoved, fun z hz hpos => ?_⟩, hfrom⟩
    rw [hsent]
    by_cases hzf : z = f
    · subst hzf
      by_cases hyz : y = z
      · subst hyz
        exact hall
      · obtain ⟨hp, hlt⟩ := hfront hyz
        exact h.pending_of_before hqueue hrep List.mem_cons_self hfpos hp hlt
    · exact hother z hz hzf hpos

/-! ## Steps and runs -/

theorem decideVC_eq {x : Queued} {v : ℕ} (hvc : x.vc = none ∨ x.vc = some (multicastVC vcs k))
    (h : decideVC vcs buf k x = some v) : v = multicastVC vcs k := by
  obtain ⟨w, hw, h⟩ := Option.bind_eq_some_iff.1 h
  have hv : w = v := by
    split at h
    · cases h
    · exact Option.some.inj h
  subst hv
  split at hw
  · split at hw
    · exact (Option.some.inj hw).symm
    · cases hw
  · rcases hvc with hnone | hsome
    · rw [hnone] at hw
      cases hw
    · exact Option.some.inj (hw.symm.trans hsome)

theorem Inv.trySend (h : Inv vcs s done rest) (hfrom : From pid rest) :
    ∃ done' rest', Inv vcs (s.trySend vcs buf pid k) done' rest' ∧ From pid rest' := by
  unfold State.trySend
  split
  · exact ⟨done, rest, h, hfrom⟩
  · rename_i x xs hqueue
    split
    · exact ⟨done, rest, h, hfrom⟩
    · rename_i hpid
      cases hvc : decideVC vcs buf k x with
      | none => exact ⟨done, rest, h, hfrom⟩
      | some v =>
          have hv : v = multicastVC vcs k :=
            decideVC_eq (h.queuedVC k x (by rw [hqueue]; exact List.mem_cons_self)) hvc
          subst hv
          exact h.send hfrom hqueue (not_not.1 hpid)

theorem Inv.inject (h : Inv vcs s done rest) :
    ∃ done' rest', Inv vcs (s.inject vcs buf) done' rest' := by
  cases hrest : rest with
  | nil =>
      have hinput : s.input = [] := by rw [h.input, hrest, List.map_nil]
      exact ⟨done, rest, by simpa [State.inject, hinput] using h⟩
  | cons y tl =>
      have hinput : s.input = flitAfter s.sent y :: tl.map (flitAfter s.sent) := by
        rw [h.input, hrest, List.map_cons]
      unfold State.inject
      rw [hinput]
      dsimp only
      split
      · rename_i hnil
        split
        · -- a flit without replicas leaves the input queue and is not freed here
          have hsingle : ¬ 0 < y.1.merged := by
            intro hpos
            have hmem : y.1.replica y.2 0 ∈ y.1.replicas y.2 :=
              mem_replicas.2 ⟨hpos, 0, Nat.zero_le _, rfl⟩
            rw [List.map_eq_nil_iff.1 hnil] at hmem
            cases hmem
          refine ⟨done ++ [y], tl, ⟨⟨h.pids, h.fresh, ?_, rfl, h.queue, h.injectedVC, h.queuedVC, ?_, ?_,
            h.front⟩, fun z hz => h.pending z (by rw [hrest]; exact List.mem_cons_of_mem _ hz)⟩⟩
          · rw [List.append_assoc]
            exact h.flits.trans (by rw [hrest]; rfl)
          · show s.freed = _
            rw [h.freed, List.filter_append, List.map_append]
            simp [hsingle]
          · intro z hz r hr
            rcases List.mem_append.1 hz with hz | hz
            · exact h.gone z hz r hr
            · obtain rfl := List.mem_singleton.1 hz
              exact absurd (mem_replicas.1 hr).1 hsingle
        · exact ⟨done, rest, h⟩
      · have hfrom := from_of_rest h.toPlaced hrest
        obtain ⟨done', rest', h', -⟩ := Transition.foldl_range
          (fun _ s => ∃ done' rest', Inv vcs s done' rest' ∧ From y.1.pid rest')
          (flitAfter s.sent y).replicas.length ⟨done, rest, h, hfrom⟩
          fun k s _ ⟨done', rest', h', hfrom'⟩ => h'.trySend hfrom'
        exact ⟨done', rest', h'⟩

/-! ## A step with room -/

theorem freeFront_packets (s : State) : s.freeFront.packets = s.packets := by
  unfold State.freeFront
  split
  · rfl
  · split <;> rfl

theorem sent_freeFront (s : State) : s.freeFront.sent = s.sent := by
  unfold State.freeFront
  split
  · rfl
  · split <;> rfl

theorem trySend_packets (s : State) : (s.trySend vcs buf pid k).packets = s.packets := by
  unfold State.trySend
  split
  · rfl
  · split
    · rfl
    · split
      · rfl
      · exact freeFront_packets _

theorem sent_subset_trySend (s : State) : s.sent ⊆ (s.trySend vcs buf pid k).sent := by
  intro r hr
  unfold State.trySend
  split
  · exact hr
  · split
    · exact hr
    · split
      · exact hr
      · rw [State.send, sent_freeFront]
        simp only [State.sent, List.map_append, List.mem_append]
        exact Or.inl hr

theorem decideVC_of_room {x : Queued}
    (hroom : buf.available (multicastVC vcs k) = true ∧ buf.full (multicastVC vcs k) = false)
    (hvc : x.vc = none ∨ x.vc = some (multicastVC vcs k)) (hfront : x.rep.idx ≠ 0 → x.vc ≠ none) :
    decideVC vcs buf k x = some (multicastVC vcs k) := by
  unfold decideVC
  rcases hvc with hnone | hsome
  · have hidx : x.rep.idx = 0 := by
      by_contra hne
      exact hfront hne hnone
    simp [hidx, hnone, hroom.1, hroom.2]
  · simp [hsome, hroom.2]

/-- A replica is injected after its queue has had room, when all replicas before it were. -/
theorem Placed.mem_sent_trySend (h : Placed vcs s done rest)
    (hroom : buf.available (multicastVC vcs k) = true ∧ buf.full (multicastVC vcs k) = false)
    (hr : r ∈ replicasFor s.packets k)
    (hbefore : ∀ r' ∈ replicasFor s.packets k, Before r'.pid r'.idx r.pid r.idx → r' ∈ s.sent) :
    r ∈ (s.trySend vcs buf r.pid k).sent := by
  obtain rfl : r.dest = k := by
    obtain ⟨p, -, -, -, i, -, rfl⟩ := mem_replicasFor.1 hr
    rfl
  rcases h.sent_or_queued hr with hsent | hqueued
  · exact sent_subset_trySend s hsent
  cases hqueue : s.queue r.dest with
  | nil => simp [hqueue] at hqueued
  | cons x xs =>
      have hx : x.rep = r := by
        rw [hqueue, List.map_cons] at hqueued
        rcases List.mem_cons.1 hqueued with heq | hlater
        · exact heq.symm
        · have hmem : x.rep ∈ (s.queue r.dest).map (·.rep) := by simp [hqueue]
          have hsent := hbefore _ (h.mem_replicasFor_of_queued hmem) (h.front_before hqueue hlater)
          exact absurd hsent (h.not_sent hmem)
      have hvc := decideVC_of_room hroom (h.queuedVC _ x (by simp [hqueue])) (h.front _ x xs hqueue)
      have hsend : s.trySend vcs buf r.pid r.dest = s.send r.dest r (multicastVC vcs r.dest) xs := by
        simp [State.trySend, hqueue, hx, hvc]
      rw [hsend, State.send, sent_freeFront]
      simp [State.sent]

/-- All replicas before the front of the input queue are injected. -/
theorem Placed.sent_of_before_front (h : Placed vcs s done rest) {y : Packet × ℕ}
    {tl : List (Packet × ℕ)} (hrest : rest = y :: tl) (hr : r ∈ replicasFor s.packets d)
    (hbefore : Before r.pid r.idx y.1.pid y.2) : r ∈ s.sent := by
  obtain ⟨q, hq, hpos, hd, j, hj, rfl⟩ := mem_replicasFor.1 hr
  have hflit : (q, j) ∈ Multicast.flits s.packets := mem_flits.2 ⟨hq, hj⟩
  rw [h.flits] at hflit
  rcases List.mem_append.1 hflit with hdone | hmem
  · exact h.gone _ hdone _ (mem_replicas.2 ⟨hpos, d, hd, rfl⟩)
  · exfalso
    simp only [Packet.replica] at hbefore
    rw [hrest] at hmem
    rcases List.mem_cons.1 hmem with rfl | hmem
    · rcases hbefore with h1 | ⟨-, h1⟩ <;> exact absurd h1 (Nat.lt_irrefl _)
    · have hafter := rest_before h hrest _ hmem
      rcases hbefore with h1 | ⟨h1, h1'⟩ <;> rcases hafter with h2 | ⟨h2, h2'⟩ <;>
        simp only at h2 <;> omega

theorem Inv.empty : Inv vcs State.empty [] [] := by
  refine ⟨⟨List.Pairwise.nil, nofun, rfl, rfl, fun d => rfl, nofun, nofun, rfl, nofun, nofun⟩, nofun⟩

/-! ## What the invariant says -/

theorem queued_map_idx (hpos : 0 < p.merged) (hd : d ≤ p.merged) :
    (p.queued d).map (·.idx) = List.range p.size := by
  rw [Packet.queued, if_pos ⟨hpos, hd⟩, List.map_map]
  exact List.map_id _

/-- Of the replicas for a destination those of one packet. -/
theorem filter_replicasFor {packets : List Packet} (h : packets.Pairwise (·.pid < ·.pid))
    (hp : p ∈ packets) :
    (replicasFor packets d).filter (·.pid = p.pid) = p.queued d := by
  obtain ⟨front, back, rfl⟩ := List.append_of_mem hp
  have hnone : ∀ l : List Packet, (∀ q ∈ l, q.pid ≠ p.pid) →
      (l.flatMap fun q => q.queued d).filter (·.pid = p.pid) = [] := by
    intro l hl
    refine List.filter_eq_nil_iff.2 fun r hr => ?_
    obtain ⟨q, hq, hr⟩ := List.mem_flatMap.1 hr
    obtain ⟨-, -, i, -, rfl⟩ := mem_queued.1 hr
    intro hpid
    exact hl q hq (of_decide_eq_true hpid)
  have hself : (p.queued d).filter (·.pid = p.pid) = p.queued d := by
    refine List.filter_eq_self.2 fun r hr => ?_
    obtain ⟨-, -, i, -, rfl⟩ := mem_queued.1 hr
    simp [Packet.replica]
  obtain ⟨-, hback, hcross⟩ := List.pairwise_append.1 h
  rw [replicasFor, List.flatMap_append, List.flatMap_cons, List.filter_append, List.filter_append,
    hnone front fun q hq => Nat.ne_of_lt (hcross q hq p List.mem_cons_self), hself,
    hnone back fun q hq => Nat.ne_of_gt ((List.pairwise_cons.1 hback).1 q hq), List.nil_append,
    List.append_nil]

theorem injectedFor_eq (s : State) (p : Packet) (d : ℕ) :
    s.injectedFor p d = ((s.sent.filter (·.dest = d)).filter (·.pid = p.pid)).map (·.idx) := by
  rw [State.injectedFor, State.sent, List.filter_filter, List.filter_map, List.map_map]
  congr 1
  exact List.filter_congr fun e _ => by simp

namespace Inv

variable (h : Inv vcs s done rest)

include h

theorem injectedFor_initial (hp : p ∈ s.packets) (hpos : 0 < p.merged) (hd : d ≤ p.merged) :
    s.injectedFor p d <+: List.range p.size := by
  rw [injectedFor_eq, ← queued_map_idx hpos hd, ← filter_replicasFor h.pids hp, ← h.queue d]
  exact ((List.prefix_append _ _).filter _).map _

theorem mem_injectedFor {idx : ℕ} (hp : p ∈ s.packets) :
    idx ∈ s.injectedFor p d ↔ p.replica idx d ∈ s.sent := by
  rw [injectedFor_eq, List.mem_map]
  constructor
  · rintro ⟨r, hr, rfl⟩
    obtain ⟨hr, hpid⟩ := List.mem_filter.1 hr
    obtain ⟨hr, hdest⟩ := List.mem_filter.1 hr
    have hdest := of_decide_eq_true hdest
    have hpid := of_decide_eq_true hpid
    have hmem : r ∈ replicasFor s.packets d := by
      rw [← h.queue d]
      exact List.mem_append_left _ (List.mem_filter.2 ⟨hr, decide_eq_true hdest⟩)
    obtain ⟨q, hq, -, -, i, -, hrep⟩ := mem_replicasFor.1 hmem
    have hqp : q = p := eq_of_pid h.pids hq hp ((congrArg Replica.pid hrep).symm.trans hpid)
    rw [hqp] at hrep
    rw [hrep] at hr ⊢
    exact hr
  · intro hsent
    exact ⟨_, List.mem_filter.2 ⟨List.mem_filter.2 ⟨hsent, by simp [Packet.replica]⟩,
      by simp [Packet.replica]⟩, rfl⟩

/-- A flit has left the input queue just when its replicas are injected. -/
theorem mem_done_iff {idx : ℕ} (hp : p ∈ s.packets) (hpos : 0 < p.merged) (hidx : idx < p.size) :
    (p, idx) ∈ done ↔ ∀ d ≤ p.merged, idx ∈ s.injectedFor p d := by
  constructor
  · intro hdone d hd
    exact (h.mem_injectedFor hp).2 (h.gone _ hdone _ (mem_replicas.2 ⟨hpos, d, hd, rfl⟩))
  · intro hall
    have hflit : (p, idx) ∈ Multicast.flits s.packets := mem_flits.2 ⟨hp, hidx⟩
    rw [h.flits] at hflit
    rcases List.mem_append.1 hflit with hdone | hrest
    · exact hdone
    · obtain ⟨r, hr, hnot⟩ := h.pending _ hrest hpos
      obtain ⟨-, d, hd, rfl⟩ := mem_replicas.1 hr
      exact absurd ((h.mem_injectedFor hp).1 (hall d hd)) hnot

theorem mem_freed_iff {idx : ℕ} (hp : p ∈ s.packets) (hpos : 0 < p.merged) (hidx : idx < p.size) :
    (p.pid, idx) ∈ s.freed ↔ ∀ d ≤ p.merged, idx ∈ s.injectedFor p d := by
  rw [← h.mem_done_iff hp hpos hidx, h.freed, List.mem_map]
  constructor
  · rintro ⟨x, hx, heq⟩
    obtain ⟨hx, -⟩ := List.mem_filter.1 hx
    obtain ⟨h1, h2⟩ := Prod.mk.inj heq
    have hxmem : x ∈ Multicast.flits s.packets := by
      rw [h.flits]
      exact List.mem_append_left _ hx
    have hxp : x = (p, idx) := Prod.ext (eq_of_pid h.pids (mem_flits.1 hxmem).1 hp h1) h2
    rwa [← hxp]
  · intro hdone
    exact ⟨(p, idx), List.mem_filter.2 ⟨hdone, by simpa using hpos⟩, rfl⟩

omit h in
/-- A flit without replicas leaves the front in a step with room. -/
theorem single_inject {f : Flit} {tl : List Flit} (hinput : s.input = f :: tl) (hnil : f.replicas = [])
    (hroom : buf.single = true) : (f.pid, f.idx) ∈ (s.inject vcs buf).single := by
  simp [State.inject, hinput, hnil, hroom]

/-- A flit with replicas is freed in a step with room: each replica is injected or at the front of its
queue. -/
theorem freed_inject {f : Flit} {tl : List Flit} (hinput : s.input = f :: tl) (hne : f.replicas ≠ [])
    (hopen : buf.Open vcs f.replicas.length) : (f.pid, f.idx) ∈ (s.inject vcs buf).freed := by
  obtain ⟨y, rest', hrest, rfl⟩ : ∃ y rest', rest = y :: rest' ∧ flitAfter s.sent y = f := by
    have hmap := h.input
    rw [hinput] at hmap
    obtain ⟨y, rest', hrest, hy, -⟩ := List.map_eq_cons_iff.1 hmap.symm
    exact ⟨y, rest', hrest, hy⟩
  have hpos : 0 < y.1.merged := by
    by_contra hzero
    simp [flitAfter, Packet.replicas, hzero] at hne
  have hlength : (flitAfter s.sent y).replicas.length = y.1.merged + 1 := by
    simp [flitAfter, Packet.replicas, hpos]
  have hy : y.1 ∈ s.packets ∧ y.2 < y.1.size := mem_of_rest h.toPlaced (by rw [hrest]; simp)
  have hinject : s.inject vcs buf = (List.range (flitAfter s.sent y).replicas.length).foldl
      (State.trySend vcs buf y.1.pid) s := by
    unfold State.inject
    rw [hinput]
    exact if_neg hne
  obtain ⟨⟨done', rest', h', -⟩, hpackets, -, hsent⟩ := @Transition.foldl_range State
    (fun k t => (∃ done' rest', Inv vcs t done' rest' ∧ From y.1.pid rest') ∧ t.packets = s.packets ∧
      s.sent ⊆ t.sent ∧ ∀ d < k, y.1.replica y.2 d ∈ t.sent)
    (State.trySend vcs buf y.1.pid) s (flitAfter s.sent y).replicas.length
    ⟨⟨done, rest, h, from_of_rest h.toPlaced hrest⟩, rfl, fun _ hr => hr, nofun⟩
    fun k t hk ⟨⟨done', rest', h', hfrom'⟩, hpackets, hsub, hsent⟩ => by
      refine ⟨h'.trySend hfrom', (trySend_packets t).trans hpackets,
        fun r hr => sent_subset_trySend t (hsub hr), fun d hd => ?_⟩
      rcases Nat.lt_succ_iff_lt_or_eq.1 hd with hlt | rfl
      · exact sent_subset_trySend t (hsent d hlt)
      · have hmem : y.1.replica y.2 d ∈ replicasFor t.packets d :=
          mem_replicasFor.2 ⟨y.1, hpackets ▸ hy.1, hpos, by omega, y.2, hy.2, rfl⟩
        refine h'.toPlaced.mem_sent_trySend (hopen.multicast d hk) hmem fun r hr hbefore => hsub ?_
        exact h.toPlaced.sent_of_before_front hrest (hpackets ▸ hr) hbefore
  rw [hinject]
  refine (h'.mem_freed_iff (hpackets ▸ hy.1) hpos hy.2).2 fun d hd => ?_
  exact (h'.mem_injectedFor (hpackets ▸ hy.1)).2 (hsent d (by omega))

theorem isExact : s.Exact vcs where
  inOrder p hp hpos d hd := h.injectedFor_initial hp hpos hd
  nothingElse e he := by
    have hsent : e.1 ∈ s.sent := List.mem_map_of_mem he
    have hmem : e.1 ∈ replicasFor s.packets e.1.dest := by
      rw [← h.queue e.1.dest]
      exact List.mem_append_left _ (List.mem_filter.2 ⟨hsent, by simp⟩)
    obtain ⟨p, hp, hpos, hd, i, hi, hrep⟩ := mem_replicasFor.1 hmem
    have hidx : e.1.idx = i := congrArg Replica.idx hrep
    exact ⟨p, hp, hpos, congrArg Replica.pid hrep, hd, by omega⟩
  oneVC := h.injectedVC
  freedOnce := by
    have hp := pairwise_flits h.pids
    rw [h.flits] at hp
    rw [h.freed]
    refine List.pairwise_map.2 (((List.pairwise_append.1 hp).1.filter _).imp fun {x y} hbefore heq => ?_)
    obtain ⟨h1, h2⟩ := Prod.mk.inj heq
    rcases hbefore with hlt | ⟨-, hlt⟩ <;> omega
  freed p hp hpos idx hidx := h.mem_freed_iff hp hpos hidx
  complete p hp hpos hnone d hd := by
    refine (h.injectedFor_initial hp hpos hd).eq_of_length_le ?_
    have hsub : List.range p.size ⊆ s.injectedFor p d := by
      intro idx hidx
      have hidx := List.mem_range.1 hidx
      refine (h.mem_done_iff hp hpos hidx).1 ?_ d hd
      have hflit : (p, idx) ∈ Multicast.flits s.packets := mem_flits.2 ⟨hp, hidx⟩
      rw [h.flits] at hflit
      refine (List.mem_append.1 hflit).resolve_right fun hrest => ?_
      refine hnone (flitAfter s.sent (p, idx)) ?_ rfl
      rw [h.input]
      exact List.mem_map_of_mem hrest
    have := (List.subperm_of_subset List.nodup_range hsub).length_le
    simpa using this
  progress f rest hinput buf hopen :=
    ⟨fun hne => h.freed_inject hinput hne hopen, fun hnil => single_inject hinput hnil hopen.single⟩

end Inv

/-- The multicast queues of the node are enough for the replicas of the packets. -/
def GroupsFit (groupSize : ℕ) (evs : List Event) : Prop :=
  ∀ merged size, .generate merged size ∈ evs → merged = 0 ∨ merged + 1 ≤ groupSize

theorem run_inv {evs : List Event} (hfit : GroupsFit groupSize evs) (h : Inv vcs s done rest) :
    ∃ s' done' rest', evs.foldlM (State.next groupSize vcs) s = some s' ∧ Inv vcs s' done' rest' := by
  induction evs generalizing s done rest with
  | nil => exact ⟨s, done, rest, rfl, h⟩
  | cons ev evs ih =>
      have hfit' : GroupsFit groupSize evs := fun m n hmem => hfit m n (List.mem_cons_of_mem _ hmem)
      obtain ⟨t, ht, done', rest', h'⟩ : ∃ t, s.next groupSize vcs ev = some t ∧
          ∃ done' rest', Inv vcs t done' rest' := by
        cases ev with
        | step buf => exact ⟨_, rfl, h.inject⟩
        | generate merged size =>
            have hle := hfit merged size List.mem_cons_self
            obtain ⟨t, ht⟩ : ∃ t, s.generate groupSize merged size = some t := by
              unfold State.generate
              rw [if_neg (by omega)]
              exact ⟨_, rfl⟩
            obtain ⟨new, h'⟩ := h.generate ht
            exact ⟨t, ht, done, rest ++ new, h'⟩
      obtain ⟨s', done'', rest'', hs', hinv⟩ := ih hfit' h'
      exact ⟨s', done'', rest'', by rw [List.foldlM_cons, ht]; exact hs', hinv⟩

/-- **In a run whose packets have at most as many replicas as there are multicast queues, no queue is
missing and injection is exact in every state.** -/
theorem run_injects (groupSize vcs : ℕ) (evs : List Event) (hfit : GroupsFit groupSize evs) :
    ∃ s, run groupSize vcs evs = some s ∧ s.Exact vcs := by
  obtain ⟨s, done, rest, hs, h⟩ := run_inv hfit (@Inv.empty vcs)
  exact ⟨s, hs, h.isExact⟩

/-- A packet for three destinations, one without merged replies, and steps in between. -/
def mixedRun : List Event :=
  let open_ : Buffers := ⟨fun _ => true, fun _ => false, true⟩
  let oneFull : Buffers := ⟨fun _ => true, fun v => v = 1, true⟩
  [.generate 2 2, .step oneFull, .generate 0 1, .step open_, .step open_, .step open_, .step open_]

/-- The replicas that were injected, as packet, flit, destination and VC, and the flits that were sent
or freed. -/
def State.record (s : State) : List (ℕ × ℕ × ℕ × ℕ) × List (ℕ × ℕ) × List (ℕ × ℕ) :=
  (s.injected.map fun e => (e.1.pid, e.1.idx, e.1.dest, e.2), s.single, s.freed)

theorem run_injects_mixed : ∃ s, run 15 1 mixedRun = some s ∧ s.Exact 1 ∧
    s.record = ([(0, 0, 1, 2), (0, 0, 2, 3), (0, 0, 0, 1), (0, 1, 1, 2), (0, 1, 2, 3), (0, 1, 0, 1)],
      [(4, 0)], [(0, 0), (0, 1)]) := by
  obtain ⟨s, hs, hexact⟩ := run_injects 15 1 mixedRun fun merged size h => by
    simp only [mixedRun, List.mem_cons, reduceCtorEq, Event.generate.injEq, false_or, or_false,
      List.not_mem_nil] at h
    omega
  have hrecord : (run 15 1 mixedRun).map State.record = some
      ([(0, 0, 1, 2), (0, 0, 2, 3), (0, 0, 0, 1), (0, 1, 1, 2), (0, 1, 2, 3), (0, 1, 0, 1)],
        [(4, 0)], [(0, 0), (0, 1)]) := by decide +kernel
  rw [hs] at hrecord
  exact ⟨s, hs, hexact, Option.some.inj hrecord⟩

/-- The recompressor merges replies to different SMs with the same data; a merged reply adds two bits
to the packet, which may have 288 bytes. -/
def mergeConfig : Reply.Config :=
  ⟨.localWordMatching, 4, 1, 32, true, .diffSmPkt, 32, fun _ _ => false,
    fun prev _ => (1024 + 2 * prev.merged.length + 98 + 7) / 8 ≤ 288, fun _ _ => true⟩

/-- Replies of the same data to sixteen SMs become one packet with fifteen merged replies, for whose
last replica there is no multicast queue. -/
theorem not_injects :
    ((List.range 16).foldl (fun buffer sm =>
      Reply.recCompRun mergeConfig (.reply ⟨sm, .globalAccR, false, sm⟩) buffer) []).map
        (·.merged.length) = [15] ∧
    run 15 1 [.generate 15 1] = none :=
  ⟨by decide +kernel, rfl⟩

end Multicast
end CompressionWork
