/-
# Injection of multicast packets

A reply with `m` merged replies is injected as `m + 1` replicas of each of its flits.
`_GeneratePacket` puts the flit into the input queue of its node and its replicas into the
multicast queues of the node, one queue for each destination; `_Step` sends the fronts of these
queues. Replies have one subnet and, as by default, one class.

* `State.generate`, `State.inject` — the translation, for one node;
* `run` — the packets and the steps in any order.
-/
import Mathlib.Data.List.Basic
import Mathlib.Data.List.Nodup

namespace CompressionWork
namespace Multicast

/-- A replica flit: `org_pid`, the place in its packet, the index of its destination, and `tail`. -/
structure Replica where
  pid : ℕ
  idx : ℕ
  dest : ℕ
  tail : Bool
  deriving DecidableEq, Repr

/-- A replica in a multicast queue, with its `vc`; `none` stands for -1. -/
structure Queued where
  rep : Replica
  vc : Option ℕ
  deriving DecidableEq, Repr

/-- A flit in the input queue, with its `replica_flits`; `none` stands for `NULL`. A flit of a packet
without merged replies has no replicas. -/
structure Flit where
  pid : ℕ
  idx : ℕ
  replicas : List (Option Replica)
  deriving DecidableEq, Repr

/-- A packet that was generated: its id, `get_merged_mf_no`, and its flits. -/
structure Packet where
  pid : ℕ
  merged : ℕ
  size : ℕ
  deriving DecidableEq, Repr

/-- One node: `_cur_pid`, the input queue, the multicast queues, and what has happened to the flits:
which packets were generated, which replicas were injected into which VC, which flits without
replicas were injected, and which flits were freed. -/
structure State where
  curPid : ℕ
  input : List Flit
  queue : ℕ → List Queued
  packets : List Packet
  injected : List (Replica × ℕ)
  single : List (ℕ × ℕ)
  freed : List (ℕ × ℕ)

/-- A node before its first packet. -/
def State.empty : State := ⟨0, [], fun _ => [], [], [], [], []⟩

/-! ## Generating packets -/

namespace Packet

/-- The replica of a flit for a destination; the last flit of the packet is its tail. -/
def replica (p : Packet) (idx dest : ℕ) : Replica := ⟨p.pid, idx, dest, idx + 1 = p.size⟩

/-- The replicas of a flit: one for the packet itself and one for each merged reply, when there is
one. -/
def replicas (p : Packet) (idx : ℕ) : List Replica :=
  if 0 < p.merged then (List.range (p.merged + 1)).map (p.replica idx) else []

/-- A flit of the packet, none of whose replicas is sent. -/
def flit (p : Packet) (idx : ℕ) : Flit := ⟨p.pid, idx, (p.replicas idx).map some⟩

/-- What the packet puts into the queue of a destination. -/
def queued (p : Packet) (dest : ℕ) : List Replica :=
  if 0 < p.merged ∧ dest ≤ p.merged then (List.range p.size).map fun idx => p.replica idx dest else []

end Packet

/-- `_GeneratePacket`. Each replica takes an id of its own from `_cur_pid`. `none` stands for an access
behind the end of `_multicast_input_queue[source]`. -/
def State.generate (groupSize merged size : ℕ) (s : State) : Option State :=
  let p : Packet := ⟨s.curPid, merged, size⟩
  if 0 < merged ∧ 0 < size ∧ groupSize < merged + 1 then none
  else some { s with
    curPid := s.curPid + 1 + (if 0 < merged then merged + 1 else 0)
    input := s.input ++ (List.range size).map p.flit
    queue := fun dest => s.queue dest ++ (p.queued dest).map fun r => ⟨r, none⟩
    packets := s.packets ++ [p] }

/-! ## Injecting flits -/

/-- The buffers of the router as one step sees them: `IsAvailableFor` and `IsFullFor` of each VC, and
whether a flit without replicas finds a VC. -/
structure Buffers where
  available : ℕ → Bool
  full : ℕ → Bool
  single : Bool

/-- `GetMulticastVC(0, index)`: the multicast VCs come after the `vcs` ordinary ones. -/
def multicastVC (vcs index : ℕ) : ℕ := vcs + index

/-- `DecideInputPortVC` for a replica. A head takes the VC of its destination when it is available and
not full. -/
def decideVC (vcs : ℕ) (buf : Buffers) (index : ℕ) (r : Queued) : Option ℕ :=
  let vc :=
    if r.rep.idx = 0 ∧ r.vc = none then
      if buf.available (multicastVC vcs index) ∧ buf.full (multicastVC vcs index) = false then
        some (multicastVC vcs index)
      else none
    else r.vc
  vc.bind fun v => if buf.full v then none else some v

/-- `SetReplicaFlit(k, NULL)` at the flit that holds the replica; no other flit holds it. -/
def Flit.drop (r : Replica) (f : Flit) : Flit :=
  { f with replicas := f.replicas.map fun x => if x = some r then none else x }

/-- All places of `replica_flits` are `NULL`. -/
def Flit.allNull (f : Flit) : Bool := f.replicas.all Option.isNone

/-- The VC is passed back to the next replica of the packet. -/
def passBack (r : Replica) (v : ℕ) : List Queued → List Queued
  | [] => []
  | next :: rest => if r.tail then next :: rest else { next with vc := some v } :: rest

/-- The front of the input queue is freed once all of its replicas are sent. -/
def State.freeFront (s : State) : State :=
  match s.input with
  | [] => s
  | front :: rest =>
      if front.allNull then { s with input := rest, freed := s.freed ++ [(front.pid, front.idx)] }
      else s

/-- A replica leaves the front of its queue. -/
def State.send (s : State) (index : ℕ) (r : Replica) (v : ℕ) (rest : List Queued) : State :=
  State.freeFront { s with
    queue := fun dest => if dest = index then passBack r v rest else s.queue dest
    input := s.input.map (Flit.drop r)
    injected := s.injected ++ [(r, v)] }

/-- The front of one multicast queue: it is sent if it belongs to the packet at the front of the input
queue and has a VC. The source first decides about all the queues of the flit and then sends; a
decision depends on its own queue and on the buffers only. -/
def State.trySend (vcs : ℕ) (buf : Buffers) (pid : ℕ) (s : State) (index : ℕ) : State :=
  match s.queue index with
  | [] => s
  | r :: rest =>
      if r.rep.pid ≠ pid then s
      else match decideVC vcs buf index r with
        | none => s
        | some v => s.send index r.rep v rest

/-- The injection of one step at the node. -/
def State.inject (vcs : ℕ) (buf : Buffers) (s : State) : State :=
  match s.input with
  | [] => s
  | cf :: rest =>
      if cf.replicas = [] then
        if buf.single then { s with input := rest, single := s.single ++ [(cf.pid, cf.idx)] } else s
      else (List.range cf.replicas.length).foldl (State.trySend vcs buf cf.pid) s

/-! ## Runs -/

/-- What happens at the node: a packet is generated, or the router takes a step. -/
inductive Event where
  | generate (merged size : ℕ)
  | step (buf : Buffers)

/-- The state after an event. -/
def State.next (groupSize vcs : ℕ) (s : State) : Event → Option State
  | .generate merged size => s.generate groupSize merged size
  | .step buf => some (s.inject vcs buf)

/-- The state after a run of events. -/
def run (groupSize vcs : ℕ) (evs : List Event) : Option State :=
  evs.foldlM (State.next groupSize vcs) State.empty

/-! ## What injection is for -/

/-- The places of the flits of a packet that were injected for a destination, in order. -/
def State.injectedFor (s : State) (p : Packet) (dest : ℕ) : List ℕ :=
  (s.injected.filter fun e => e.1.pid = p.pid ∧ e.1.dest = dest).map (·.1.idx)

/-- The router has room for `n` replicas and for a flit without replicas. -/
structure Buffers.Open (vcs n : ℕ) (buf : Buffers) : Prop where
  multicast : ∀ index < n, buf.available (multicastVC vcs index) = true ∧
    buf.full (multicastVC vcs index) = false
  single : buf.single = true

/-- Injection is exact so far: for each destination the flits of a packet go out once each and in
order, in one VC, nothing else goes out, and a flit is freed once, when all its replicas are out. The
front of the input queue goes out in the next step in which there is room. -/
structure State.Exact (vcs : ℕ) (s : State) : Prop where
  inOrder : ∀ p ∈ s.packets, 0 < p.merged → ∀ dest ≤ p.merged,
    s.injectedFor p dest <+: List.range p.size
  nothingElse : ∀ e ∈ s.injected, ∃ p ∈ s.packets, 0 < p.merged ∧ e.1.pid = p.pid ∧
    e.1.dest ≤ p.merged ∧ e.1.idx < p.size
  oneVC : ∀ e ∈ s.injected, e.2 = multicastVC vcs e.1.dest
  freedOnce : s.freed.Nodup
  freed : ∀ p ∈ s.packets, 0 < p.merged → ∀ idx < p.size,
    ((p.pid, idx) ∈ s.freed ↔ ∀ dest ≤ p.merged, idx ∈ s.injectedFor p dest)
  complete : ∀ p ∈ s.packets, 0 < p.merged → (∀ f ∈ s.input, f.pid ≠ p.pid) →
    ∀ dest ≤ p.merged, s.injectedFor p dest = List.range p.size
  progress : ∀ f rest, s.input = f :: rest → ∀ buf : Buffers, buf.Open vcs f.replicas.length →
    (f.replicas ≠ [] → (f.pid, f.idx) ∈ (s.inject vcs buf).freed) ∧
    (f.replicas = [] → (f.pid, f.idx) ∈ (s.inject vcs buf).single)

end Multicast
end CompressionWork
