import CompressionWork.Icnt.BufferState
import CompressionWork.Transition.Reach

/-!
# Credit-based flow control

A router sends flits down a channel into the input buffer of the next router (`buffer.cpp`, `vc.cpp`), and
credits for the flits that have left the buffer come back.  The steps of the two routers and the two channels
come in any order.

* `VC`, `Buffer` — the input buffer, which checks its room and the packet of every flit.
* `Link`, `LinkEvent`, `exec` — the two ends and what is on its way between them.
* `Inv` — the invariant; every flit that holds a slot is in one place, and every slot that is free is known
  to be free or has its credit on the way.
* `link_safe` — **no order of steps overflows a buffer** or mixes two packets, and flits stay in order.
* `link_quiescent` — **no credit is lost**.

The router follows the two checks of `iq_router.cpp`: it takes a virtual channel that is available, and sends
a flit of the packet that has the channel when the channel is not full.
-/

namespace CompressionWork.Icnt

open Function Transition BufferState

/-- `VC`: a queue of flits, and the packet whose flits it expects. -/
structure VC where
  buffer : List Flit := []
  expectedPid : Option ℕ := none

namespace VC

/-- The packet that a virtual channel expects after a flit. -/
def expect (expectedPid : Option ℕ) (f : Flit) : Option (Option ℕ) :=
  match expectedPid with
  | some pid => if f.pid ≠ pid then none else some (if f.tail then none else some pid)
  | none => some (if f.tail then none else some f.pid)

/-- `VC::AddFlit` -/
def addFlit (q : VC) (f : Flit) : Option VC :=
  (expect q.expectedPid f).map fun expectedPid => { buffer := q.buffer ++ [f], expectedPid }

/-- `VC::RemoveFlit` -/
def removeFlit (q : VC) : Option (Flit × VC) :=
  match q.buffer with
  | [] => none
  | f :: rest => some (f, { q with buffer := rest })

end VC

/-- `Buffer`, of the router downstream. -/
structure Buffer where
  occupancy : ℤ := 0
  vc : ℕ → VC := fun _ => {}

namespace Buffer

/-- `Buffer::AddFlit` -/
def addFlit (cfg : BufferConfig) (b : Buffer) (vc : ℕ) (f : Flit) : Option Buffer :=
  if vc < cfg.numVcs ∧ b.occupancy < cfg.size then
    ((b.vc vc).addFlit f).map fun q => { occupancy := b.occupancy + 1, vc := update b.vc vc q }
  else none

/-- `Buffer::RemoveFlit` -/
def removeFlit (cfg : BufferConfig) (b : Buffer) (vc : ℕ) : Option (Flit × Buffer) :=
  if vc < cfg.numVcs then
    (b.vc vc).removeFlit.map fun r => (r.1, { occupancy := b.occupancy - 1, vc := update b.vc vc r.2 })
  else none

end Buffer

/-- The two ends of a channel, what is on its way, and the packet whose flits go to each virtual channel. -/
structure Link where
  up : BufferState
  packet : ℕ → Option ℕ := fun _ => none
  channel : List Flit := []
  down : Buffer := {}
  credits : List (List ℕ) := []

/-- What happens on a link. -/
inductive LinkEvent
  | take (vc tag pid : ℕ)
  | send (f : Flit)
  | deliver
  | remove (fs : List Flit)
  | credit

namespace Link

variable (cfg : BufferConfig)

/-- The flits of a virtual channel. -/
def onVc (v : ℕ) (fs : List Flit) : List Flit := fs.filter (·.vc = v)

/-- What the routers check before a step.  One credit names the virtual channels of one cycle. -/
def Allowed (l : Link) : LinkEvent → Prop
  | .take vc _ _ => vc < cfg.numVcs ∧ l.up.isAvailableFor vc
  | .send f => f.vc < cfg.numVcs ∧ l.packet f.vc = some f.pid ∧ l.up.isFullFor cfg f.vc = false
  | .deliver => l.channel ≠ []
  | .remove fs => (fs.map Flit.vc).Pairwise (· < ·) ∧ ∀ f ∈ fs, (l.down.vc f.vc).buffer.head? = some f
  | .credit => l.credits ≠ []

/-- The flits that leave the input buffer in one cycle. -/
def removeAll (fs : List Flit) (b : Buffer) : Option Buffer :=
  fs.foldlM (fun b f => (b.removeFlit cfg f.vc).map Prod.snd) b

/-- The link after an event; `none` when it stops with an error. -/
def exec (l : Link) : LinkEvent → Option Link
  | .take vc tag pid =>
    (takeBuffer cfg l.up vc tag).map fun up => { l with up, packet := update l.packet vc (some pid) }
  | .send f =>
    (sendingFlit cfg l.up f).map fun up => { l with
      up
      channel := l.channel ++ [f]
      packet := if f.tail then update l.packet f.vc none else l.packet }
  | .deliver =>
    match l.channel with
    | [] => none
    | f :: rest => (l.down.addFlit cfg f.vc f).map fun down => { l with down, channel := rest }
  | .remove fs =>
    (removeAll cfg fs l.down).map fun down => { l with down, credits := l.credits ++ [fs.map Flit.vc] }
  | .credit =>
    match l.credits with
    | [] => none
    | c :: rest => (processCredit cfg l.up c).map fun up => { l with up, credits := rest }

/-- An event that the router's checks allow. -/
def Step (l : Link) (e : LinkEvent) (l' : Link) : Prop := l.Allowed cfg e ∧ l.exec cfg e = some l'

/-- A link on which nothing was sent. -/
def init : Link := { up := BufferState.new cfg }

instance (l : Link) : ∀ e, Decidable (l.Allowed cfg e)
  | .take .. => inferInstanceAs (Decidable (_ ∧ _))
  | .send _ => inferInstanceAs (Decidable (_ ∧ _ ∧ _))
  | .deliver => inferInstanceAs (Decidable (_ ≠ _))
  | .remove _ => inferInstanceAs (Decidable (_ ∧ _))
  | .credit => inferInstanceAs (Decidable (_ ≠ _))

/-- A run of allowed steps. -/
def run (l : Link) : List LinkEvent → Option Link
  | [] => some l
  | e :: es => if l.Allowed cfg e then (l.exec cfg e).bind (run · es) else none

/-! ## What a run has done -/

/-- The flits that the run has sent on a virtual channel. -/
def sentOn (v : ℕ) (log : List LinkEvent) : List Flit :=
  log.flatMap fun
    | .send f => onVc v [f]
    | _ => []

/-- The flits of a virtual channel that have left the input buffer. -/
def removedOn (v : ℕ) (log : List LinkEvent) : List Flit :=
  log.flatMap fun
    | .remove fs => onVc v fs
    | _ => []

/-- The credits on their way for a virtual channel. -/
def credited (v : ℕ) (credits : List (List ℕ)) : ℕ := (credits.map (List.count v)).sum

/-- The slots of a virtual channel that are in use or whose credits are on the way. -/
def slots (l : Link) (v : ℕ) : ℕ :=
  (onVc v l.channel).length + (l.down.vc v).buffer.length + credited v l.credits

/-- What holds between the two ends. -/
structure Sound (log : List LinkEvent) (l : Link) : Prop where
  fits : l.channel.length + l.down.occupancy ≤ cfg.size
  slots_eq : ∀ v, l.up.vcOccupancy v = l.slots v
  fifo : ∀ v, sentOn v log = removedOn v log ++ (l.down.vc v).buffer ++ onVc v l.channel

/-- Both ends of the link agree on where the flits are. -/
structure Inv (log : List LinkEvent) (l : Link) : Prop where
  coherent : Coherent cfg l.up
  packets : ∀ v, (l.packet v).isSome = l.up.isSending v
  slots_eq : ∀ v, l.up.vcOccupancy v = l.slots v
  down : l.down.occupancy = ∑ v ∈ Finset.range cfg.numVcs, ((l.down.vc v).buffer.length : ℤ)
  sent : ∀ f ∈ l.channel, f.vc < cfg.numVcs
  queued : ∀ v, (l.down.vc v).buffer ≠ [] → v < cfg.numVcs
  returned : ∀ c ∈ l.credits, ∀ v ∈ c, v < cfg.numVcs
  expected : ∀ v, ∃ e, (onVc v l.channel).foldlM VC.expect (l.down.vc v).expectedPid = some e ∧
    (e = none ∨ e = l.packet v)
  fifo : ∀ v, sentOn v log = removedOn v log ++ (l.down.vc v).buffer ++ onVc v l.channel

/-! ## What is on a channel -/

variable {cfg}
variable {log : List LinkEvent} {l l' : Link} {e : LinkEvent} {f : Flit} {fs rest : List Flit} {v : ℕ}

theorem onVc_append : onVc v (fs ++ rest) = onVc v fs ++ onVc v rest := List.filter_append ..

theorem onVc_self : onVc f.vc (f :: rest) = f :: onVc f.vc rest := by simp [onVc]

theorem onVc_of_ne (h : v ≠ f.vc) : onVc v (f :: rest) = onVc v rest := by simp [onVc, Ne.symm h]

theorem sentOn_append : sentOn v (log ++ [e]) = sentOn v log ++ sentOn v [e] := List.flatMap_append ..

theorem removedOn_append : removedOn v (log ++ [e]) = removedOn v log ++ removedOn v [e] :=
  List.flatMap_append ..

theorem credited_append (credits : List (List ℕ)) (c : List ℕ) :
    credited v (credits ++ [c]) = credited v credits + c.count v := by
  simp [credited]

theorem credited_cons (c : List ℕ) (credits : List (List ℕ)) :
    credited v (c :: credits) = c.count v + credited v credits := by
  simp [credited]

theorem count_vcs (fs : List Flit) : (fs.map Flit.vc).count v = (onVc v fs).length := by
  induction fs with
  | nil => rfl
  | cons f fs ih =>
    by_cases heq : v = f.vc
    · subst heq
      rw [List.map_cons, List.count_cons_self, ih, onVc_self, List.length_cons]
    · rw [List.map_cons, List.count_cons_of_ne (Ne.symm heq), ih, onVc_of_ne heq]

/-- The flits of a list, one virtual channel after the other. -/
theorem length_eq_sum (hin : ∀ f ∈ fs, f.vc < cfg.numVcs) :
    (fs.length : ℤ) = ∑ v ∈ Finset.range cfg.numVcs, ((onVc v fs).length : ℤ) := by
  induction fs with
  | nil => simp [onVc]
  | cons f fs ih =>
    have hrest := ih fun g hg => hin g (List.mem_cons_of_mem _ hg)
    rw [sum_term (g := fun v => ((onVc v fs).length : ℤ)) (hin f List.mem_cons_self) fun v hne => by
      rw [onVc_of_ne hne], ← hrest, onVc_self]
    push_cast [List.length_cons]
    omega

/-- What the buffer knows of the packet on a virtual channel is enough for the flits of that packet. -/
theorem expect_own (expectedPid : Option ℕ) (h : expectedPid = none ∨ expectedPid = some f.pid) :
    VC.expect expectedPid f = some (if f.tail then none else some f.pid) := by
  rcases h with rfl | rfl <;> simp [VC.expect]

/-! ## The invariant -/

/-- **The flits on the channel fit the buffer they go to.** -/
theorem Inv.fits (hv : Valid cfg) (h : Inv cfg log l) : l.channel.length + l.down.occupancy ≤ cfg.size := by
  have hsum : l.channel.length + l.down.occupancy ≤ l.up.occupancy := by
    rw [length_eq_sum h.sent, h.down, h.coherent.sum, ← Finset.sum_add_distrib]
    refine Finset.sum_le_sum fun v _ => ?_
    rw [h.slots_eq, slots]
    push_cast
    omega
  refine hsum.trans ?_
  rw [h.coherent.sum]
  exact vcSum_le hv h.coherent.within h.coherent.charged

theorem init_inv (hv : Valid cfg) : Inv cfg [] (init cfg) where
  coherent := new_coherent hv
  packets _ := rfl
  slots_eq _ := rfl
  down := by simp [init]
  sent f h := by simp [init] at h
  queued v h := absurd rfl h
  returned c h := by simp [init] at h
  expected v := ⟨none, rfl, .inl rfl⟩
  fifo v := rfl

theorem Inv.take (hv : Valid cfg) (h : Inv cfg log l) {vc tag pid : ℕ} (hallowed : l.Allowed cfg (.take vc tag pid)) :
    ∃ l', l.exec cfg (.take vc tag pid) = some l' ∧ Inv cfg (log ++ [.take vc tag pid]) l' := by
  obtain ⟨hvc, havailable⟩ := hallowed
  obtain ⟨up, htake, hcoherent, hocc, hsend⟩ := takeBuffer_coherent hv h.coherent hvc havailable tag
  refine ⟨{ l with up, packet := update l.packet vc (some pid) }, by rw [exec, htake, Option.map_some], ?_⟩
  exact {
    coherent := hcoherent
    packets := fun v => by
      simp only [hsend]
      by_cases heq : v = vc
      · rw [heq, update_self, update_self]
        rfl
      · rw [update_of_ne heq, update_of_ne heq]
        exact h.packets v
    slots_eq := fun v => by
      simp only [hocc]
      exact h.slots_eq v
    down := h.down
    sent := h.sent
    queued := h.queued
    returned := h.returned
    -- no packet had the channel, so the buffer expects none after the flits on their way
    expected := fun v => by
      obtain ⟨e, hfold, he⟩ := h.expected v
      refine ⟨e, hfold, ?_⟩
      by_cases heq : v = vc
      · subst heq
        have hidle : l.up.isSending v = false := by
          have hnone : l.up.inUseBy v = none := of_decide_eq_true havailable
          simp [isSending, hnone]
        have hpacket : l.packet v = none := by simpa [hidle] using h.packets v
        rw [hpacket, or_self] at he
        exact .inl he
      · simp only [update_of_ne heq]
        exact he
    fifo := fun v => by
      rw [sentOn_append, removedOn_append, h.fifo v]
      simp [sentOn, removedOn] }

theorem Inv.send (hv : Valid cfg) (h : Inv cfg log l) (hallowed : l.Allowed cfg (.send f)) :
    ∃ l', l.exec cfg (.send f) = some l' ∧ Inv cfg (log ++ [.send f]) l' := by
  obtain ⟨hvc, hpacket, hfull⟩ := hallowed
  have hsend : l.up.isSending f.vc := by rw [← h.packets, hpacket, Option.isSome_some]
  obtain ⟨up, hsending, hcoherent, hocc, hsend'⟩ := sendingFlit_coherent hv h.coherent hvc hsend hfull
  refine ⟨_, by rw [exec, hsending, Option.map_some], ?_⟩
  exact {
    coherent := hcoherent
    packets := fun v => by
      simp only [hsend']
      by_cases heq : v = f.vc
      · rw [heq, update_self]
        by_cases ht : f.tail
        · simp [ht]
        · simp [ht, hpacket]
      · rw [update_of_ne heq, ← h.packets v]
        split_ifs
        · rw [update_of_ne heq]
        · rfl
    slots_eq := fun v => by
      have hold := h.slots_eq v
      simp only [hocc, slots] at hold ⊢
      by_cases heq : v = f.vc
      · subst heq
        rw [update_self, onVc_append, onVc_self, hold]
        simp [onVc]
        omega
      · rw [update_of_ne heq, onVc_append, onVc_of_ne heq, hold]
        simp [onVc]
    down := h.down
    sent := fun g hg => by
      rcases List.mem_append.1 hg with hg | hg
      · exact h.sent g hg
      · rwa [List.mem_singleton.1 hg]
    queued := h.queued
    returned := h.returned
    expected := fun v => by
      obtain ⟨e, hfold, he⟩ := h.expected v
      by_cases heq : v = f.vc
      · subst heq
        rw [hpacket] at he
        refine ⟨if f.tail then none else some f.pid, ?_, ?_⟩
        · simp only [onVc_append, onVc_self, List.foldlM_append, hfold]
          simp [onVc, expect_own e he]
        · by_cases ht : f.tail
          · exact .inl (by simp [ht])
          · exact .inr (by simp [ht, hpacket])
      · refine ⟨e, ?_, ?_⟩
        · simp only [onVc_append, onVc_of_ne heq]
          simpa [onVc] using hfold
        · simp only
          split_ifs
          · rwa [update_of_ne heq]
          · exact he
    fifo := fun v => by
      rw [sentOn_append, removedOn_append, h.fifo v]
      simp [sentOn, removedOn, onVc_append] }

theorem Inv.deliver (hv : Valid cfg) (h : Inv cfg log l) (hallowed : l.Allowed cfg .deliver) :
    ∃ l', l.exec cfg .deliver = some l' ∧ Inv cfg (log ++ [.deliver]) l' := by
  obtain ⟨f, rest, hchannel⟩ := List.exists_cons_of_ne_nil hallowed
  have hvc : f.vc < cfg.numVcs := h.sent f (by simp [hchannel])
  have hroom : l.down.occupancy < cfg.size := by
    have hfits := h.fits hv
    rw [hchannel, List.length_cons] at hfits
    push_cast at hfits
    omega
  obtain ⟨e, hfold, he⟩ := h.expected f.vc
  rw [hchannel, onVc_self, List.foldlM_cons] at hfold
  obtain ⟨e', hexpect, hrest⟩ := Option.bind_eq_some_iff.1 hfold
  refine ⟨{ l with
    down := { occupancy := l.down.occupancy + 1
              vc := update l.down.vc f.vc { buffer := (l.down.vc f.vc).buffer ++ [f], expectedPid := e' } }
    channel := rest }, ?_, ?_⟩
  · simp only [exec, hchannel]
    rw [Buffer.addFlit, if_pos ⟨hvc, hroom⟩, VC.addFlit, hexpect]
    rfl
  exact {
    coherent := h.coherent
    packets := h.packets
    slots_eq := fun v => by
      have hold := h.slots_eq v
      simp only [slots, hchannel] at hold ⊢
      by_cases heq : v = f.vc
      · subst heq
        rw [onVc_self] at hold
        simp only [update_self, List.length_append, List.length_cons, List.length_nil] at hold ⊢
        rw [hold]
        push_cast
        omega
      · rw [onVc_of_ne heq] at hold
        rw [update_of_ne heq, hold]
    down := by
      rw [sum_term (g := fun v => ((l.down.vc v).buffer.length : ℤ)) hvc fun v hne => by
        simp only [update_of_ne hne], ← h.down]
      simp only [update_self, List.length_append, List.length_singleton]
      push_cast
      omega
    sent := fun g hg => h.sent g (by
      rw [hchannel]
      exact List.mem_cons_of_mem _ hg)
    queued := fun v hne => by
      by_cases heq : v = f.vc
      · rwa [heq]
      · simp only [update_of_ne heq] at hne
        exact h.queued v hne
    returned := h.returned
    expected := fun v => by
      by_cases heq : v = f.vc
      · subst heq
        exact ⟨e, by simpa using hrest, he⟩
      · obtain ⟨e, hfold, he⟩ := h.expected v
        rw [hchannel, onVc_of_ne heq] at hfold
        exact ⟨e, by simpa [update_of_ne heq] using hfold, he⟩
    fifo := fun v => by
      rw [sentOn_append, removedOn_append, h.fifo v, hchannel]
      by_cases heq : v = f.vc
      · subst heq
        simp [sentOn, removedOn, onVc_self]
      · simp [sentOn, removedOn, onVc_of_ne heq, update_of_ne heq] }

/-- By induction on the flits, whose virtual channels are different. -/
theorem removeAll_spec {b : Buffer} (hnodup : (fs.map Flit.vc).Nodup)
    (hhead : ∀ f ∈ fs, (b.vc f.vc).buffer.head? = some f) (hin : ∀ f ∈ fs, f.vc < cfg.numVcs) :
    ∃ b', removeAll cfg fs b = some b' ∧ b'.occupancy = b.occupancy - fs.length ∧
      ∀ v, (b.vc v).buffer = onVc v fs ++ (b'.vc v).buffer ∧ (b'.vc v).expectedPid = (b.vc v).expectedPid := by
  induction fs generalizing b with
  | nil => exact ⟨b, rfl, by simp, fun v => ⟨rfl, rfl⟩⟩
  | cons f fs ih =>
    obtain ⟨hnot, hnodup⟩ := List.nodup_cons.1 hnodup
    obtain ⟨rest, hbuffer⟩ := List.head?_eq_some_iff.1 (hhead f List.mem_cons_self)
    have hremove : b.removeFlit cfg f.vc = some (f,
        ⟨b.occupancy - 1, update b.vc f.vc { buffer := rest, expectedPid := (b.vc f.vc).expectedPid }⟩) := by
      rw [Buffer.removeFlit, if_pos (hin f List.mem_cons_self), VC.removeFlit, hbuffer]
      rfl
    obtain ⟨b', hrest, hocc, hbuffers⟩ := ih hnodup
      (b := ⟨b.occupancy - 1, update b.vc f.vc { buffer := rest, expectedPid := (b.vc f.vc).expectedPid }⟩)
      (fun g hg => by
        have hne : g.vc ≠ f.vc := fun heq => hnot (by
          rw [← heq]
          exact List.mem_map_of_mem hg)
        simp only [update_of_ne hne]
        exact hhead g (List.mem_cons_of_mem _ hg))
      fun g hg => hin g (List.mem_cons_of_mem _ hg)
    refine ⟨b', ?_, ?_, fun v => ?_⟩
    · rw [removeAll, List.foldlM_cons, hremove]
      exact hrest
    · rw [hocc, List.length_cons]
      push_cast
      omega
    · obtain ⟨hv, hexpected⟩ := hbuffers v
      by_cases heq : v = f.vc
      · subst heq
        simp only [update_self] at hv hexpected
        rw [onVc_self, hbuffer, hv, hexpected]
        exact ⟨rfl, rfl⟩
      · simp only [update_of_ne heq] at hv hexpected
        rw [onVc_of_ne heq]
        exact ⟨hv, hexpected⟩

theorem Inv.remove (h : Inv cfg log l) (hallowed : l.Allowed cfg (.remove fs)) :
    ∃ l', l.exec cfg (.remove fs) = some l' ∧ Inv cfg (log ++ [.remove fs]) l' := by
  obtain ⟨hsorted, hhead⟩ := hallowed
  have hin : ∀ f ∈ fs, f.vc < cfg.numVcs := fun f hf => h.queued f.vc fun hnil => by
    simpa [hnil] using hhead f hf
  obtain ⟨b, hremove, hocc, hbuffers⟩ := removeAll_spec (hsorted.imp fun hlt => Nat.ne_of_lt hlt) hhead hin
  refine ⟨_, by rw [exec, hremove, Option.map_some], ?_⟩
  exact {
    coherent := h.coherent
    packets := h.packets
    slots_eq := fun v => by
      have hold := h.slots_eq v
      simp only [slots, (hbuffers v).1, List.length_append] at hold ⊢
      rw [credited_append, count_vcs, hold]
      push_cast
      omega
    down := by
      have hold := h.down
      have hsum : ∑ v ∈ Finset.range cfg.numVcs, ((l.down.vc v).buffer.length : ℤ) =
          fs.length + ∑ v ∈ Finset.range cfg.numVcs, ((b.vc v).buffer.length : ℤ) := by
        rw [length_eq_sum hin, ← Finset.sum_add_distrib]
        refine Finset.sum_congr rfl fun v _ => ?_
        rw [(hbuffers v).1, List.length_append]
        push_cast
        rfl
      simp only [hocc]
      omega
    sent := h.sent
    queued := fun v hne => h.queued v fun hnil => by
      rw [(hbuffers v).1, List.append_eq_nil_iff] at hnil
      exact hne hnil.2
    returned := fun c hc v hvc => by
      rcases List.mem_append.1 hc with hc | hc
      · exact h.returned c hc v hvc
      · rw [List.mem_singleton.1 hc] at hvc
        obtain ⟨f, hf, rfl⟩ := List.mem_map.1 hvc
        exact hin f hf
    expected := fun v => by
      simp only [(hbuffers v).2]
      exact h.expected v
    fifo := fun v => by
      rw [sentOn_append, removedOn_append, h.fifo v, (hbuffers v).1]
      simp [sentOn, removedOn] }

theorem Inv.credit (hv : Valid cfg) (h : Inv cfg log l) (hallowed : l.Allowed cfg .credit) :
    ∃ l', l.exec cfg .credit = some l' ∧ Inv cfg (log ++ [.credit]) l' := by
  obtain ⟨c, rest, hcredits⟩ := List.exists_cons_of_ne_nil hallowed
  obtain ⟨up, hprocess, hcoherent, hocc, hsend⟩ := processCredit_coherent hv h.coherent
    (c := c) (h.returned c (by simp [hcredits])) fun v => by
      rw [h.slots_eq v, slots, hcredits, credited_cons]
      push_cast
      omega
  refine ⟨{ l with up, credits := rest }, ?_, ?_⟩
  · simp only [exec, hcredits]
    rw [hprocess, Option.map_some]
  exact {
    coherent := hcoherent
    packets := fun v => by
      simp only [hsend]
      exact h.packets v
    slots_eq := fun v => by
      have hold := h.slots_eq v
      simp only [slots, hcredits, credited_cons] at hold ⊢
      rw [hocc, hold]
      push_cast
      omega
    down := h.down
    sent := h.sent
    queued := h.queued
    returned := fun c' hc' => h.returned c' (by
      rw [hcredits]
      exact List.mem_cons_of_mem _ hc')
    expected := h.expected
    fifo := fun v => by
      rw [sentOn_append, removedOn_append, h.fifo v]
      simp [sentOn, removedOn] }

/-- **An allowed step does not fail**, and it keeps the invariant. -/
theorem Inv.step (hv : Valid cfg) (h : Inv cfg log l) (hallowed : l.Allowed cfg e) :
    ∃ l', l.exec cfg e = some l' ∧ Inv cfg (log ++ [e]) l' := by
  cases e with
  | take vc tag pid => exact h.take hv hallowed
  | send f => exact h.send hv hallowed
  | deliver => exact h.deliver hv hallowed
  | remove fs => exact h.remove hallowed
  | credit => exact h.credit hv hallowed

/-! ## Runs -/

theorem reach_inv (hv : Valid cfg) (h : Reach (· = init cfg) (Step cfg) log l) : Inv cfg log l := by
  refine Reach.invariant (Inv cfg) ?_ ?_ h
  · rintro l rfl
    exact init_inv hv
  · intro log l e l' _ hinv hstep
    obtain ⟨l'', hexec, hinv'⟩ := hinv.step hv hstep.1
    rw [hstep.2] at hexec
    rwa [Option.some.inj hexec]

/-- **Safety.**  Whatever the order of the steps, no step that the routers allow runs into an error or a failed
assertion, at either end; the flits on the way fit the buffer; and the flits of a virtual channel leave the
buffer in the order in which they were sent, none lost and none twice. -/
theorem link_safe (hv : Valid cfg) (h : Reach (· = init cfg) (Step cfg) log l) :
    l.Sound cfg log ∧ ∀ e, l.Allowed cfg e → ∃ l', l.exec cfg e = some l' := by
  have hinv := reach_inv hv h
  refine ⟨⟨hinv.fits hv, hinv.slots_eq, hinv.fifo⟩, fun e he => ?_⟩
  obtain ⟨l', hexec, -⟩ := hinv.step hv he
  exact ⟨l', hexec⟩

theorem reach_run {es : List LinkEvent} (h : Reach (· = init cfg) (Step cfg) log l) (hrun : run cfg l es = some l') :
    Reach (· = init cfg) (Step cfg) (log ++ es) l' := by
  induction es generalizing log l with
  | nil =>
    obtain rfl := Option.some.inj hrun
    simpa using h
  | cons e es ih =>
    rw [run] at hrun
    split_ifs at hrun with hallowed
    obtain ⟨t, ht, hrest⟩ := Option.bind_eq_some_iff.1 hrun
    simpa using ih (h.step ⟨hallowed, ht⟩) hrest

/-- One virtual channel and two slots, of which one is private. -/
def oneVc : BufferConfig where
  numVcs := 1
  bufSize := 2
  vcBufSize := 0
  waitForTailCredit := true
  policy := .dynamicLimitedSharedBuffer
  privateBufs := 1
  privateBufSize _ := 1
  privateBufVcMap _ := 0
  maxHeldSlots := -1

theorem oneVc_valid : Valid oneVc where
  vcSize h := by cases h
  privateSize _ _ _ := Int.one_nonneg
  sharedSize _ := by decide
  mapped _ _ _ := Nat.one_pos
  slots _ := by decide

def head : Flit := ⟨0, 5, 0, false⟩

def last : Flit := ⟨1, 5, 0, true⟩

/-- A packet of two flits; the credit of the first one comes back before the second one is sent. -/
def twoFlits : List LinkEvent :=
  [.take 0 3 5, .send head, .deliver, .remove [head], .credit, .send last, .deliver, .remove [last], .credit]

theorem reach_twoFlits : ∃ log l, Reach (· = init oneVc) (Step oneVc) log l ∧ l.channel = [] ∧ l.credits = [] ∧
    (∀ v < 1, (l.down.vc v).buffer = []) ∧ ∀ v < 1, l.packet v = none := by
  have hrun : (run oneVc (init oneVc) twoFlits).any (fun l => l.channel = [] ∧ l.credits = [] ∧
      (l.down.vc 0).buffer = [] ∧ l.packet 0 = none) = true := by decide +kernel
  obtain ⟨l, hl, hend⟩ := (Option.any_eq_true _ _).1 hrun
  obtain ⟨hchannel, hcredits, hempty, hpacket⟩ := of_decide_eq_true hend
  refine ⟨_, l, reach_run (.start rfl) hl, hchannel, hcredits, fun v hv => ?_, fun v hv => ?_⟩
  · rwa [Nat.lt_one_iff.1 hv]
  · rwa [Nat.lt_one_iff.1 hv]

theorem link_safe_twoFlits : ∃ log l, Reach (· = init oneVc) (Step oneVc) log l ∧ l.Sound oneVc log ∧
    ∀ e, l.Allowed oneVc e → ∃ l', l.exec oneVc e = some l' := by
  obtain ⟨log, l, h, -⟩ := reach_twoFlits
  exact ⟨log, l, h, link_safe oneVc_valid h⟩

/-- **No credit is lost.**  When nothing is on its way and no packet has a virtual channel, the buffer state is
that of the start: no slot is in use or reserved, in any pool, and every virtual channel is available. -/
theorem link_quiescent (hv : Valid cfg) (h : Reach (· = init cfg) (Step cfg) log l) (hchannel : l.channel = [])
    (hcredits : l.credits = []) (hempty : ∀ v < cfg.numVcs, (l.down.vc v).buffer = [])
    (hpackets : ∀ v < cfg.numVcs, l.packet v = none) :
    l.up.occupancy = 0 ∧
      (∀ v < cfg.numVcs, l.up.vcOccupancy v = 0 ∧ l.up.reservedSlots v = 0 ∧ l.up.isAvailableFor v) ∧
      (cfg.limits → l.up.activeVcs = 0) ∧
      (cfg.policy ≠ .privateBuffer →
        l.up.sharedBufOccupancy = 0 ∧ ∀ i < cfg.privateBufs, l.up.privateBufOccupancy i = 0) := by
  have hinv := reach_inv hv h
  have hcoherent := hinv.coherent
  have hocc : ∀ v < cfg.numVcs, l.up.vcOccupancy v = 0 := fun v hlt => by
    rw [hinv.slots_eq v, slots, hchannel, hcredits, hempty v hlt]
    rfl
  have hidle : ∀ v < cfg.numVcs, l.up.isSending v = false := fun v hlt => by
    rw [← hinv.packets v, hpackets v hlt]
    rfl
  have hreserved : ∀ v < cfg.numVcs, l.up.reservedSlots v = 0 := fun v hlt => by
    by_contra hne
    have hsend := hcoherent.reserved v hne
    rw [hidle v hlt] at hsend
    cases hsend
  have hactive : sending cfg l.up.isSending = 0 :=
    Finset.sum_eq_zero fun v hmem => by simp [hidle v (Finset.mem_range.1 hmem)]
  refine ⟨?_, fun v hlt => ⟨hocc v hlt, hreserved v hlt, ?_⟩, fun hl => (hcoherent.active hl).trans hactive,
    fun hp => ?_⟩
  · rw [hcoherent.sum]
    exact Finset.sum_eq_zero fun v hmem => hocc v (Finset.mem_range.1 hmem)
  · -- a packet whose tail was sent gave the channel back with the tail or with its last credit
    by_contra hused
    have hused : l.up.inUseBy v ≠ none := by simpa [isAvailableFor] using hused
    have hsent : l.up.tailSent v = true := by
      by_contra hnot
      have hsend := isSending_iff.2 ⟨hused, by simpa using hnot⟩
      rw [hidle v hlt] at hsend
      cases hsend
    by_cases hw : cfg.waitForTailCredit
    · have := hcoherent.waiting hw v hused hsent
      rw [hocc v hlt] at this
      omega
    · rw [hcoherent.unsent (by simpa using hw) v hused] at hsent
      cases hsent
  · have hcharged := hcoherent.charged hp
    have hprivate : ∀ i < cfg.privateBufs, l.up.privateBufOccupancy i = 0 := fun i hi => by
      rw [hcharged.own i hi]
      refine Finset.sum_eq_zero fun v hmem => ?_
      have hlt := Finset.mem_range.1 hmem
      simp [hocc v hlt, hreserved v hlt]
    refine ⟨?_, hprivate⟩
    rw [hcharged.rest]
    refine Finset.sum_eq_zero fun i hi => ?_
    have hsize := hv.privateSize hp i (Finset.mem_range.1 hi)
    rw [hprivate i (Finset.mem_range.1 hi)]
    omega

theorem link_quiescent_twoFlits : ∃ log l, Reach (· = init oneVc) (Step oneVc) log l ∧ l.up.occupancy = 0 ∧
    l.up.sharedBufOccupancy = 0 := by
  obtain ⟨log, l, h, hchannel, hcredits, hempty, hpackets⟩ := reach_twoFlits
  obtain ⟨hocc, -, -, hpools⟩ := link_quiescent oneVc_valid h hchannel hcredits hempty hpackets
  exact ⟨log, l, h, hocc, (hpools (by decide)).1⟩

end Link

end CompressionWork.Icnt
