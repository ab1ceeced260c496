import CompressionWork.Transition.Reach
import Mathlib.Data.List.Infix
import Mathlib.Logic.Function.Basic
import Mathlib.Tactic.Common

/-!
# The boundary buffer at an ejection port

The flits of a device are put together to packets again, in a buffer for each virtual channel, and the device
takes the packets from the channels in turn (`interconnect_interface.cpp`).

* `BoundaryBufferItem` — the two queues of a channel with their count of packets.
* `Device` — the channels of a device, with `Pop` and `Top_for_buffering`.
* `Step`, `Allowed` — the calls, and which flits arrive.
* `Correct` — every packet is returned once, in order and after its tail, and the peeks are right.
* `boundaryBuffer_correct` — in every run, and a call does not return exactly when it is a `TopPacket` with
  a packet of more than one flit in front.

The data of a flit is a pointer that is not `NULL`; a failed assertion, or the front of an empty queue, is
`none`.
-/

namespace CompressionWork.Icnt

open Transition Function

variable {α : Type*}

/-! ## One channel -/

/-- `_BoundaryBufferItem` -/
structure BoundaryBufferItem (α : Type*) where
  buffer : List α := []
  tailFlag : List Bool := []
  packetN : ℕ := 0

namespace BoundaryBufferItem

/-- `HasPacket` -/
def hasPacket (b : BoundaryBufferItem α) : Bool := 0 < b.packetN

/-- `PushFlitData` -/
def pushFlitData (b : BoundaryBufferItem α) (data : α) (isTail : Bool) : BoundaryBufferItem α where
  buffer := b.buffer ++ [data]
  tailFlag := b.tailFlag ++ [isTail]
  packetN := if isTail then b.packetN + 1 else b.packetN

/-- The loop of `PopPacket`: flits are popped up to a tail. -/
def popLoop [DecidableEq α] (flitData : α) : List α → List Bool → ℕ → Option (α × BoundaryBufferItem α)
  | data :: buffer, isTail :: tailFlag, packetN =>
      if flitData = data then
        if isTail then some (data, ⟨buffer, tailFlag, packetN - 1⟩)
        else popLoop flitData buffer tailFlag packetN
      else none
  | _, _, _ => none

/-- `PopPacket`. -/
def popPacket [DecidableEq α] (b : BoundaryBufferItem α) : Option (α × BoundaryBufferItem α) :=
  if b.packetN = 0 then none
  else b.buffer.head?.bind fun flitData => popLoop flitData b.buffer b.tailFlag b.packetN

/-- The loop of `TopPacket`, which pops nothing; it may use so many rounds. -/
def topPacket (b : BoundaryBufferItem α) : ℕ → Option α
  | 0 => none
  | rounds + 1 =>
      if b.packetN = 0 then none
      else if b.tailFlag.head? = some true then b.buffer.head?
      else topPacket b rounds

/-- The loop of `TopPacket_for_buffering`, on copies of the queues. -/
def topLoop : List α → List Bool → Option α
  | data :: buffer, isTail :: tailFlag => if isTail then some data else topLoop buffer tailFlag
  | _, _ => none

/-- `TopPacketForBuffering`. -/
def topPacketForBuffering (b : BoundaryBufferItem α) : Option α :=
  if b.packetN = 0 then none else topLoop b.buffer b.tailFlag

end BoundaryBufferItem

/-! ## The channels of a device -/

/-- `_boundary_buffer` and `_round_robin_turn` of a device. -/
structure Device (α : Type*) where
  channel : ℕ → BoundaryBufferItem α := fun _ => {}
  turn : ℕ := 0

/-- The channels in the order in which they are looked at: from `turn` on, and then around. -/
def order (vcs turn : ℕ) : List ℕ := List.range' turn (vcs - turn) ++ List.range turn

namespace Device

variable (vcs : ℕ) (d : Device α)

/-- A flit comes in on a channel. -/
def push (vc : ℕ) (data : α) (isTail : Bool) : Device α :=
  { d with channel := update d.channel vc ((d.channel vc).pushFlitData data isTail) }

/-- The first channel with a packet. -/
def served : Option ℕ := (order vcs d.turn).find? fun vc => (d.channel vc).hasPacket

/-- `Pop`: the turn goes to the channel after the one that was served. -/
def pop [DecidableEq α] : Option (Option α × Device α) :=
  match d.served vcs with
  | none => some (none, d)
  | some vc => (d.channel vc).popPacket.map fun r =>
      (some r.1, ⟨update d.channel vc r.2, if vc + 1 = vcs then 0 else vc + 1⟩)

/-- `Top_for_buffering`: the turn stays. -/
def topForBuffering : Option (Option α) :=
  match d.served vcs with
  | none => some none
  | some vc => (d.channel vc).topPacketForBuffering.map some

end Device

/-! ## Runs -/

/-- A packet: the pointer that all its flits carry, and how many flits it has before the tail. -/
structure Packet (α : Type*) where
  data : α
  body : ℕ

/-- The flits of a packet. -/
def Packet.flits (p : Packet α) : List (α × Bool) := List.replicate p.body (p.data, false) ++ [(p.data, true)]

/-- The flits of packets that come one after another. -/
def flits (packets : List (Packet α)) : List (α × Bool) := packets.flatMap Packet.flits

/-- The calls on a boundary buffer. -/
inductive Event (α : Type*)
  | push (vc : ℕ) (data : α) (isTail : Bool)
  | pop
  | topForBuffering
  | topPacket (vc : ℕ)

/-- A device with its history: the flits pushed and the packets popped on each channel; and the packets that
were peeked at and not popped since, by `Top_for_buffering` and by `TopPacket`. -/
structure Traced (α : Type*) where
  device : Device α := {}
  pushed : ℕ → List (α × Bool) := fun _ => []
  popped : ℕ → List α := fun _ => []
  peeked : Option (ℕ × α) := none
  topped : ℕ → Option α := fun _ => none

namespace Traced

variable (vcs : ℕ) (s : Traced α)

/-- Of two channels, `v` is looked at first. -/
def LooksFirst (v vc : ℕ) : Prop :=
  (order vcs s.device.turn).find? (fun u => u == v || u == vc) = some v

instance (v vc : ℕ) : Decidable (s.LooksFirst vcs v vc) := by
  unfold LooksFirst
  infer_instance

/-- A packet that is completed on a channel before the one peeked at overtakes it. -/
def push (vc : ℕ) (data : α) (isTail : Bool) : Traced α :=
  { s with
    device := s.device.push vc data isTail
    pushed := update s.pushed vc (s.pushed vc ++ [(data, isTail)])
    peeked := s.peeked.filter fun p => !isTail || decide (s.LooksFirst vcs p.1 vc) }

/-- A packet leaves a channel, and earlier peeks no longer count. -/
def pop (vc : ℕ) (data : α) (device : Device α) : Traced α :=
  { s with
    device
    popped := update s.popped vc (s.popped vc ++ [data])
    peeked := none
    topped := update s.topped vc none }

end Traced

/-- The calls that return. -/
inductive Step [DecidableEq α] (vcs : ℕ) : Traced α → Event α → Traced α → Prop
  | push {s : Traced α} {vc : ℕ} {data : α} {isTail : Bool} :
      Step vcs s (.push vc data isTail) (s.push vcs vc data isTail)
  | popNull {s : Traced α} {device : Device α} (h : s.device.pop vcs = some (none, device)) :
      Step vcs s .pop { s with device }
  | pop {s : Traced α} {vc : ℕ} {data : α} {device : Device α} (hvc : s.device.served vcs = some vc)
      (h : s.device.pop vcs = some (some data, device)) : Step vcs s .pop (s.pop vc data device)
  | topNull {s : Traced α} (h : s.device.topForBuffering vcs = some none) : Step vcs s .topForBuffering s
  | topForBuffering {s : Traced α} {vc : ℕ} {data : α} (hvc : s.device.served vcs = some vc)
      (h : s.device.topForBuffering vcs = some (some data)) :
      Step vcs s .topForBuffering { s with peeked := some (vc, data) }
  | topPacket {s : Traced α} {vc rounds : ℕ} {data : α}
      (h : (s.device.channel vc).topPacket rounds = some data) :
      Step vcs s (.topPacket vc) { s with topped := update s.topped vc (some data) }

/-- The flits that are pushed on a channel are those of the packets sent on it, and `TopPacket` is called
when there is a packet. -/
def Traced.Allowed (vcs : ℕ) (sent : ℕ → List (Packet α)) (s : Traced α) : Event α → Prop
  | .push vc data isTail => vc < vcs ∧ s.pushed vc ++ [(data, isTail)] <+: flits (sent vc)
  | .topPacket vc => vc < vcs ∧ (s.device.channel vc).hasPacket = true
  | _ => True

/-- `TopPacket` is called for packets of one flit only. -/
def Traced.SingleFlit (sent : ℕ → List (Packet α)) (s : Traced α) : Event α → Prop
  | .topPacket vc => ∀ p ∈ (sent vc)[(s.popped vc).length]?, p.body = 0
  | _ => True

/-- What a buffer of packets is to do. -/
structure Traced.Correct [DecidableEq α] (vcs : ℕ) (sent : ℕ → List (Packet α)) (s : Traced α) : Prop where
  /-- every packet once, in order -/
  order : ∀ vc, s.popped vc <+: (sent vc).map Packet.data
  /-- after its tail -/
  arrived : ∀ vc, flits ((sent vc).take (s.popped vc).length) <+: s.pushed vc
  /-- `Pop` returns, and `NULL` only when every packet that has arrived was popped -/
  pop : ∃ r device, s.device.pop vcs = some (r, device) ∧
    (r = none → ∀ vc < vcs, (s.pushed vc).countP (·.2) = (s.popped vc).length)
  /-- `Top_for_buffering` returns what `Pop` does -/
  peek : s.device.topForBuffering vcs = (s.device.pop vcs).map Prod.fst
  /-- also later, as long as no packet overtakes -/
  peeked : ∀ v data, s.peeked = some (v, data) → ∃ device, s.device.pop vcs = some (some data, device)
  /-- `TopPacket` returns what `PopPacket` does -/
  topped : ∀ vc data, s.topped vc = some data →
    ∃ b, (s.device.channel vc).popPacket = some (data, b)

/-! ## Channels -/

variable {b : BoundaryBufferItem α} {L rest : List (α × Bool)} {p : Packet α} {packets : List (Packet α)}

/-- The two queues are those of a list of flits, and the count is that of its tails. -/
structure BoundaryBufferItem.Contains (b : BoundaryBufferItem α) (L : List (α × Bool)) : Prop where
  buffer : b.buffer = L.map Prod.fst
  tailFlag : b.tailFlag = L.map Prod.snd
  packetN : b.packetN = L.countP (·.2)

namespace BoundaryBufferItem

theorem Contains.push (h : b.Contains L) (data : α) (isTail : Bool) :
    (b.pushFlitData data isTail).Contains (L ++ [(data, isTail)]) := by
  refine ⟨by simp [pushFlitData, h.buffer], by simp [pushFlitData, h.tailFlag], ?_⟩
  cases isTail <;> simp [pushFlitData, h.packetN]

theorem popLoop_flits [DecidableEq α] (n packetN : ℕ) (data : α) :
    popLoop data ((List.replicate n (data, false) ++ (data, true) :: rest).map Prod.fst)
      ((List.replicate n (data, false) ++ (data, true) :: rest).map Prod.snd) packetN =
      some (data, ⟨rest.map Prod.fst, rest.map Prod.snd, packetN - 1⟩) := by
  induction n with
  | zero => simp [popLoop]
  | succ n ih =>
    rw [List.replicate_succ, List.cons_append, List.map_cons, List.map_cons, popLoop, if_pos rfl]
    exact ih

theorem topLoop_flits (n : ℕ) (data : α) :
    topLoop ((List.replicate n (data, false) ++ (data, true) :: rest).map Prod.fst)
      ((List.replicate n (data, false) ++ (data, true) :: rest).map Prod.snd) = some data := by
  induction n with
  | zero => simp [topLoop]
  | succ n ih =>
    rw [List.replicate_succ, List.cons_append, List.map_cons, List.map_cons, topLoop]
    exact ih

theorem flits_append (p : Packet α) (rest : List (α × Bool)) :
    p.flits ++ rest = List.replicate p.body (p.data, false) ++ (p.data, true) :: rest := by
  simp [Packet.flits]

theorem Contains.packetN_eq (h : b.Contains (p.flits ++ rest)) : b.packetN = rest.countP (·.2) + 1 := by
  rw [h.packetN, flits_append, List.countP_append, List.countP_cons]
  simp [List.countP_replicate]

theorem Contains.head (h : b.Contains (p.flits ++ rest)) : b.buffer.head? = some p.data := by
  rw [h.buffer, flits_append]
  cases p.body <;> simp [List.replicate_succ]

/-- **`PopPacket`** takes the flits of the packet in front. -/
theorem Contains.popPacket [DecidableEq α] (h : b.Contains (p.flits ++ rest)) :
    ∃ b', b.popPacket = some (p.data, b') ∧ b'.Contains rest := by
  refine ⟨⟨rest.map Prod.fst, rest.map Prod.snd, b.packetN - 1⟩, ?_, rfl, rfl, ?_⟩
  · rw [BoundaryBufferItem.popPacket, if_neg (by rw [h.packetN_eq]; omega), h.head, Option.bind_some,
      h.buffer, h.tailFlag, flits_append, popLoop_flits]
  · rw [h.packetN_eq, Nat.add_sub_cancel]

theorem Contains.topPacketForBuffering (h : b.Contains (p.flits ++ rest)) :
    b.topPacketForBuffering = some p.data := by
  rw [BoundaryBufferItem.topPacketForBuffering, if_neg (by rw [h.packetN_eq]; omega), h.buffer, h.tailFlag,
    flits_append, topLoop_flits]

/-- **`TopPacket`** returns exactly when the first flit of the packet is its tail. -/
theorem Contains.topPacket (h : b.Contains (p.flits ++ rest)) :
    ((∃ rounds data, b.topPacket rounds = some data) ↔ p.body = 0) ∧
      ∀ rounds data, b.topPacket rounds = some data → data = p.data := by
  have hne : b.packetN ≠ 0 := by rw [h.packetN_eq]; omega
  have hflag : b.tailFlag.head? = some true ↔ p.body = 0 := by
    rw [h.tailFlag, flits_append]
    cases p.body <;> simp [List.replicate_succ]
  have hloop : ∀ rounds data, b.topPacket rounds = some data → p.body = 0 ∧ data = p.data := by
    intro rounds
    induction rounds with
    | zero => exact fun data hd => absurd hd nofun
    | succ rounds ih =>
      intro data hd
      rw [BoundaryBufferItem.topPacket, if_neg hne, h.head] at hd
      split_ifs at hd with htail
      · exact ⟨hflag.1 htail, (Option.some.inj hd).symm⟩
      · exact ih data hd
  refine ⟨⟨fun ⟨rounds, data, hd⟩ => (hloop rounds data hd).1, fun hbody => ⟨1, p.data, ?_⟩⟩,
    fun rounds data hd => (hloop rounds data hd).2⟩
  rw [BoundaryBufferItem.topPacket, if_neg hne, if_pos (hflag.2 hbody), h.head]

end BoundaryBufferItem

theorem flits_cons (p : Packet α) (packets : List (Packet α)) :
    flits (p :: packets) = p.flits ++ flits packets := rfl

/-- A packet has one tail. -/
theorem countP_flits (packets : List (Packet α)) : (flits packets).countP (·.2) = packets.length := by
  induction packets with
  | nil => rfl
  | cons p packets ih =>
    rw [flits_cons, List.countP_append, ih, List.length_cons, Packet.flits]
    simp [List.countP_replicate, Nat.add_comm]

/-- Flits of packets with a tail among them start with a whole packet. -/
theorem exists_packet (h : L <+: flits packets) (hpos : 0 < L.countP (·.2)) :
    ∃ p packets' rest, packets = p :: packets' ∧ L = p.flits ++ rest ∧ rest <+: flits packets' := by
  cases packets with
  | nil =>
    rw [List.prefix_nil.1 h] at hpos
    exact absurd hpos (Nat.lt_irrefl 0)
  | cons p packets =>
    rw [flits_cons] at h
    rcases List.prefix_or_prefix_of_prefix h (List.prefix_append p.flits _) with hle | hle
    · rcases List.prefix_concat_iff.1 hle with heq | hle
      · refine ⟨p, packets, [], rfl, ?_, List.nil_prefix⟩
        rw [heq, List.append_nil]
        rfl
      · -- only flits before the tail
        have hcount := hle.sublist.countP_le (p := (·.2))
        rw [List.countP_replicate] at hcount
        simp only [Bool.false_eq_true, if_false] at hcount
        omega
    · obtain ⟨rest, rfl⟩ := hle
      exact ⟨p, packets, rest, rfl, rfl, (List.prefix_append_right_inj _).1 h⟩

/-! ## The order of the channels -/

variable {vcs turn vc v : ℕ}

theorem mem_order (h : turn ≤ vcs) : vc ∈ order vcs turn ↔ vc < vcs := by
  rw [order, List.mem_append, List.mem_range'_1, List.mem_range]
  omega

/-- A channel that gets a packet is served first only when it is looked at first. -/
theorem find?_or_eq {l : List ℕ} {q : ℕ → Bool} (h : l.find? q = some v)
    (hfirst : l.find? (fun u => u == v || u == vc) = some v) :
    l.find? (fun u => q u || u == vc) = some v := by
  induction l with
  | nil => exact h
  | cons u l ih =>
    rw [List.find?_cons] at h hfirst ⊢
    cases hq : q u with
    | true => rwa [hq] at h
    | false =>
      rw [hq] at h
      have hne : u ≠ v := fun huv => by
        rw [huv, List.find?_some h] at hq
        exact absurd hq nofun
      by_cases hvc : u = vc
      · simp only [hvc, beq_self_eq_true, Bool.or_true, Option.some.injEq] at hfirst
        exact absurd (hvc.trans hfirst) hne
      · simp only [beq_eq_false_iff_ne.2 hne, beq_eq_false_iff_ne.2 hvc, Bool.or_self] at hfirst ⊢
        exact ih h hfirst

/-! ## The invariant -/

variable {sent : ℕ → List (Packet α)} {s s' : Traced α}

/-- What was popped on a channel are its first packets, and what is in its queues comes next.  What was
peeked at is the packet in front. -/
structure Traced.Inv (vcs : ℕ) (sent : ℕ → List (Packet α)) (s : Traced α) : Prop where
  turn : s.device.turn ≤ vcs
  popped : ∀ vc, s.popped vc = ((sent vc).take (s.popped vc).length).map Packet.data
  contains : ∀ vc, ∃ L, (s.device.channel vc).Contains L ∧
    s.pushed vc = flits ((sent vc).take (s.popped vc).length) ++ L ∧
    L <+: flits ((sent vc).drop (s.popped vc).length)
  peeked : ∀ v data, s.peeked = some (v, data) → s.device.served vcs = some v ∧
    (sent v)[(s.popped v).length]?.map Packet.data = some data
  topped : ∀ vc data, s.topped vc = some data → (s.device.channel vc).hasPacket = true ∧
    (sent vc)[(s.popped vc).length]?.map Packet.data = some data

theorem flits_take_drop (packets : List (Packet α)) (n : ℕ) :
    flits (packets.take n) ++ flits (packets.drop n) = flits packets := by
  rw [flits, flits, ← List.flatMap_append, List.take_append_drop, flits]

namespace Traced.Inv

theorem init : (({} : Traced α)).Inv vcs sent where
  turn := Nat.zero_le _
  popped _ := rfl
  contains _ := ⟨[], ⟨rfl, rfl, rfl⟩, rfl, List.nil_prefix⟩
  peeked _ _ h := absurd h nofun
  topped _ _ h := absurd h nofun

/-- A channel with a packet has all flits of the one that comes next. -/
theorem front (h : s.Inv vcs sent) (hvc : (s.device.channel vc).hasPacket = true) :
    ∃ p rest, (sent vc)[(s.popped vc).length]? = some p ∧
      (s.device.channel vc).Contains (p.flits ++ rest) ∧
      s.pushed vc = flits ((sent vc).take ((s.popped vc).length + 1)) ++ rest ∧
      rest <+: flits ((sent vc).drop ((s.popped vc).length + 1)) := by
  obtain ⟨L, hL, hpushed, hprefix⟩ := h.contains vc
  have hpos : 0 < L.countP (·.2) := by
    rw [← hL.packetN]
    exact of_decide_eq_true hvc
  obtain ⟨p, packets', rest, hdrop, rfl, hrest⟩ := exists_packet hprefix hpos
  have hget : (sent vc)[(s.popped vc).length]? = some p := by
    rw [← List.head?_drop, hdrop]
    rfl
  have hdrop' : (sent vc).drop ((s.popped vc).length + 1) = packets' := by
    rw [← List.drop_drop, hdrop]
    rfl
  refine ⟨p, rest, hget, hL, ?_, hdrop' ▸ hrest⟩
  rw [hpushed, List.take_add_one, hget, flits, flits, List.flatMap_append, List.append_assoc]
  simp

theorem push (h : s.Inv vcs sent) {data : α} {isTail : Bool}
    (hsent : s.pushed vc ++ [(data, isTail)] <+: flits (sent vc)) :
    (s.push vcs vc data isTail).Inv vcs sent := by
  have hpacket : ∀ u, ((s.device.push vc data isTail).channel u).hasPacket =
      ((s.device.channel u).hasPacket || (u == vc && isTail)) := by
    intro u
    by_cases hu : u = vc
    · subst hu
      cases isTail <;> simp [Device.push, BoundaryBufferItem.pushFlitData, BoundaryBufferItem.hasPacket]
    · simp [Device.push, hu]
  refine ⟨h.turn, h.popped, fun u => ?_, fun v d hv => ?_, fun u d hu => ?_⟩
  · obtain ⟨L, hL, hpushed, hprefix⟩ := h.contains u
    by_cases hu : u = vc
    · subst hu
      refine ⟨L ++ [(data, isTail)], ?_, ?_, ?_⟩
      · simpa [Traced.push, Device.push] using hL.push data isTail
      · simp [Traced.push, hpushed]
      · rw [hpushed, List.append_assoc, ← flits_take_drop (sent u) (s.popped u).length] at hsent
        exact (List.prefix_append_right_inj _).1 hsent
    · exact ⟨L, by simpa [Traced.push, Device.push, hu] using hL, by simpa [Traced.push, hu] using hpushed,
        hprefix⟩
  · obtain ⟨hpeek, hkeep⟩ := Option.filter_eq_some_iff.1 hv
    obtain ⟨hserved, hdata⟩ := h.peeked v d hpeek
    refine ⟨?_, hdata⟩
    have hturn : (s.device.push vc data isTail).turn = s.device.turn := rfl
    simp only [Device.served, Traced.push, hpacket, hturn] at hserved ⊢
    cases isTail with
    | false => simpa using hserved
    | true =>
      simp only [Bool.not_true, Bool.false_or, decide_eq_true_eq] at hkeep
      simpa using find?_or_eq hserved hkeep
  · obtain ⟨hu', hdata⟩ := h.topped u d hu
    exact ⟨by rw [Traced.push, hpacket, hu', Bool.true_or], hdata⟩

variable [DecidableEq α]

/-- `Pop` serves a channel with a packet, if there is one. -/
theorem pop_cases (h : s.Inv vcs sent) :
    s.device.served vcs = none ∧ s.device.pop vcs = some (none, s.device) ∧
        (∀ vc < vcs, (s.device.channel vc).hasPacket = false) ∨
      ∃ vc p rest b, s.device.served vcs = some vc ∧ vc < vcs ∧
        (s.device.channel vc).hasPacket = true ∧ (sent vc)[(s.popped vc).length]? = some p ∧
        (s.device.channel vc).Contains (p.flits ++ rest) ∧ b.Contains rest ∧
        s.device.pop vcs = some (some p.data,
          ⟨update s.device.channel vc b, if vc + 1 = vcs then 0 else vc + 1⟩) := by
  cases hserved : s.device.served vcs with
  | none =>
    refine Or.inl ⟨rfl, by rw [Device.pop, hserved], fun vc hvc => ?_⟩
    have := List.find?_eq_none.1 hserved vc ((mem_order h.turn).2 hvc)
    simpa using this
  | some vc =>
    have hpacket : (s.device.channel vc).hasPacket = true :=
      List.find?_some (p := fun vc => (s.device.channel vc).hasPacket) hserved
    obtain ⟨p, rest, hget, hcontains, -, -⟩ := h.front hpacket
    obtain ⟨b, hb, hrest⟩ := hcontains.popPacket
    refine Or.inr ⟨vc, p, rest, b, rfl, (mem_order h.turn).1 (List.mem_of_find?_eq_some hserved), hpacket,
      hget, hcontains, hrest, ?_⟩
    rw [Device.pop, hserved]
    simp only [hb, Option.map_some]

theorem pop (h : s.Inv vcs sent) {data : α} {device : Device α} (hserved : s.device.served vcs = some vc)
    (hpop : s.device.pop vcs = some (some data, device)) : (s.pop vc data device).Inv vcs sent := by
  obtain ⟨hnone, -, -⟩ | ⟨vc', p, rest, b, hserved', hlt, hpacket, hget, hcontains, hrest, hpop'⟩ := h.pop_cases
  · exact absurd (hserved.symm.trans hnone) nofun
  obtain rfl : vc = vc' := Option.some.inj (hserved.symm.trans hserved')
  obtain ⟨hdata, hdevice⟩ := Prod.mk.inj (Option.some.inj (hpop.symm.trans hpop'))
  obtain rfl : data = p.data := Option.some.inj hdata
  subst hdevice
  refine ⟨?_, fun u => ?_, fun u => ?_, fun v d hv => absurd hv nofun, fun u d hu => ?_⟩
  · simp only [Traced.pop]
    split_ifs <;> omega
  · by_cases hu : u = vc
    · subst hu
      simp only [Traced.pop, update_self, List.length_append, List.length_singleton, List.take_add_one, hget,
        List.map_append, ← h.popped u]
      rfl
    · simpa [Traced.pop, hu] using h.popped u
  · by_cases hu : u = vc
    · subst hu
      obtain ⟨p', rest', hget', hcontains', hpushed, hprefix⟩ := h.front hpacket
      obtain rfl : p = p' := Option.some.inj (hget.symm.trans hget')
      have hsame : rest = rest' := by
        have hfst := hcontains.buffer.symm.trans hcontains'.buffer
        have hsnd := hcontains.tailFlag.symm.trans hcontains'.tailFlag
        have hzip := congrArg₂ List.zip hfst hsnd
        rw [← List.unzip_fst, ← List.unzip_snd, List.zip_unzip, ← List.unzip_fst, ← List.unzip_snd,
          List.zip_unzip] at hzip
        exact List.append_cancel_left hzip
      subst hsame
      refine ⟨rest, by simpa [Traced.pop] using hrest, ?_, ?_⟩
      · simpa [Traced.pop] using hpushed
      · simpa [Traced.pop] using hprefix
    · simpa [Traced.pop, hu] using h.contains u
  · by_cases hu' : u = vc
    · subst hu'
      simp [Traced.pop] at hu
    · have := h.topped u d (by simpa [Traced.pop, hu'] using hu)
      simpa [Traced.pop, hu'] using this

theorem step {e : Event α} (h : s.Inv vcs sent) (hallowed : s.Allowed vcs sent e) (hstep : Step vcs s e s') :
    s'.Inv vcs sent := by
  cases hstep with
  | push => exact h.push hallowed.2
  | popNull hpop =>
    obtain ⟨-, hpop', -⟩ | ⟨vc, p, rest, b, -, -, -, -, -, -, hpop'⟩ := h.pop_cases
    · obtain ⟨-, rfl⟩ := Prod.mk.inj (Option.some.inj (hpop.symm.trans hpop'))
      exact h
    · exact absurd (Prod.mk.inj (Option.some.inj (hpop.symm.trans hpop'))).1 nofun
  | pop hserved hpop => exact h.pop hserved hpop
  | topNull => exact h
  | topForBuffering hserved htop =>
    rename_i vc data
    refine ⟨h.turn, h.popped, h.contains, fun v d hv => ?_, h.topped⟩
    obtain ⟨rfl, rfl⟩ := Prod.mk.inj (Option.some.inj hv)
    have hpacket : (s.device.channel vc).hasPacket = true :=
      List.find?_some (p := fun vc => (s.device.channel vc).hasPacket) hserved
    obtain ⟨p, rest, hget, hcontains, -, -⟩ := h.front hpacket
    rw [Device.topForBuffering, hserved] at htop
    simp only [hcontains.topPacketForBuffering, Option.map_some, Option.some.injEq] at htop
    exact ⟨hserved, by rw [hget, Option.map_some, htop]⟩
  | topPacket htop =>
    rename_i vc rounds data
    refine ⟨h.turn, h.popped, h.contains, h.peeked, fun u d hu => ?_⟩
    by_cases huv : u = vc
    · subst huv
      obtain ⟨p, rest, hget, hcontains, -, -⟩ := h.front hallowed.2
      have hdata := hcontains.topPacket.2 rounds data htop
      have hu := Option.some.inj ((update_self u (some data) s.topped).symm.trans hu)
      exact ⟨hallowed.2, by rw [hget, Option.map_some, ← hu, hdata]⟩
    · exact h.topped u d (by simpa [huv] using hu)

/-! ## Every run -/

theorem correct (h : s.Inv vcs sent) : s.Correct vcs sent := by
  constructor
  · intro vc
    rw [h.popped vc]
    exact (List.take_prefix _ _).map _
  · intro vc
    obtain ⟨L, -, hpushed, -⟩ := h.contains vc
    exact ⟨L, hpushed.symm⟩
  · obtain ⟨-, hpop, hempty⟩ | ⟨vc, p, rest, b, -, -, -, -, -, -, hpop⟩ := h.pop_cases
    · refine ⟨_, _, hpop, fun _ vc hvc => ?_⟩
      obtain ⟨L, hL, hpushed, -⟩ := h.contains vc
      have hnone : L.countP (·.2) = 0 := by
        rw [← hL.packetN]
        simpa [BoundaryBufferItem.hasPacket] using hempty vc hvc
      rw [hpushed, List.countP_append, hnone, countP_flits, ← List.length_map Packet.data, ← h.popped vc]
      rfl
    · exact ⟨_, _, hpop, fun hnone => absurd hnone nofun⟩
  · obtain ⟨hserved, hpop, -⟩ | ⟨vc, p, rest, b, hserved, -, -, -, hcontains, -, hpop⟩ := h.pop_cases
    · rw [hpop, Device.topForBuffering, hserved]
      rfl
    · rw [hpop, Device.topForBuffering, hserved]
      simp only [hcontains.topPacketForBuffering, Option.map_some]
  · intro v data hv
    obtain ⟨hserved, hdata⟩ := h.peeked v data hv
    obtain ⟨hnone, -, -⟩ | ⟨vc, p, rest, b, hserved', -, -, hget, -, -, hpop⟩ := h.pop_cases
    · exact absurd (hserved.symm.trans hnone) nofun
    · obtain rfl : v = vc := Option.some.inj (hserved.symm.trans hserved')
      rw [hget, Option.map_some, Option.some.injEq] at hdata
      exact ⟨_, hdata ▸ hpop⟩
  · intro vc data hvc
    obtain ⟨hpacket, hdata⟩ := h.topped vc data hvc
    obtain ⟨p, rest, hget, hcontains, -, -⟩ := h.front hpacket
    obtain ⟨b, hb, -⟩ := hcontains.popPacket
    rw [hget, Option.map_some, Option.some.injEq] at hdata
    exact ⟨b, hdata ▸ hb⟩

/-- All calls return, but for `TopPacket` on a longer packet. -/
theorem returns_iff {e : Event α} (h : s.Inv vcs sent) (hallowed : s.Allowed vcs sent e) :
    (∃ s', Step vcs s e s') ↔ s.SingleFlit sent e := by
  cases e with
  | push vc data isTail => exact iff_of_true ⟨_, .push⟩ trivial
  | pop =>
    refine iff_of_true ?_ trivial
    obtain ⟨-, hpop, -⟩ | ⟨vc, p, rest, b, hserved, -, -, -, -, -, hpop⟩ := h.pop_cases
    · exact ⟨_, .popNull hpop⟩
    · exact ⟨_, .pop hserved hpop⟩
  | topForBuffering =>
    refine iff_of_true ?_ trivial
    have hpeek := h.correct.peek
    obtain ⟨-, hpop, -⟩ | ⟨vc, p, rest, b, hserved, -, -, -, -, -, hpop⟩ := h.pop_cases
    · exact ⟨_, .topNull (by rw [hpeek, hpop]; rfl)⟩
    · exact ⟨_, .topForBuffering hserved (by rw [hpeek, hpop]; rfl)⟩
  | topPacket vc =>
    obtain ⟨p, rest, hget, hcontains, -, -⟩ := h.front hallowed.2
    have hsingle : s.SingleFlit sent (.topPacket vc) ↔ p.body = 0 := by
      simp [Traced.SingleFlit, hget]
    rw [hsingle, ← hcontains.topPacket.1]
    constructor
    · rintro ⟨s', hstep⟩
      cases hstep with
      | topPacket htop => exact ⟨_, _, htop⟩
    · rintro ⟨rounds, data, htop⟩
      exact ⟨_, .topPacket htop⟩

end Traced.Inv

/-- **The boundary buffer**: in every state of every run, the packets are returned once, in order and after
their tails, the peeks are right, and a call returns unless it is a `TopPacket` on a longer packet. -/
theorem boundaryBuffer_correct [DecidableEq α] (vcs : ℕ) (sent : ℕ → List (Packet α))
    {log : List (Event α)} {s : Traced α}
    (h : Reach (· = {}) (fun s e s' => s.Allowed vcs sent e ∧ Step vcs s e s') log s) :
    s.Correct vcs sent ∧ ∀ e, s.Allowed vcs sent e → ((∃ s', Step vcs s e s') ↔ s.SingleFlit sent e) := by
  have hinv : s.Inv vcs sent := h.invariant (fun _ s => s.Inv vcs sent) (fun _ hs => hs ▸ .init)
    fun _ _ _ _ _ hs hstep => hs.step hstep.1 hstep.2
  exact ⟨hinv.correct, fun e => hinv.returns_iff⟩

/-- One packet of two flits on one channel. -/
def twoFlits : ℕ → List (Packet ℕ) := fun vc => if vc = 0 then [⟨7, 1⟩] else []

/-- The device when both flits have arrived. -/
def bothArrived : Traced ℕ := (({} : Traced ℕ).push 1 0 7 false).push 1 0 7 true

theorem reach_bothArrived : Reach (· = {}) (fun s e s' => s.Allowed 1 twoFlits e ∧ Step 1 s e s')
    [.push 0 7 false, .push 0 7 true] bothArrived := by
  have hfirst : Reach (· = ({} : Traced ℕ)) (fun s e s' => s.Allowed 1 twoFlits e ∧ Step 1 s e s')
      ([] ++ [.push 0 7 false]) (({} : Traced ℕ).push 1 0 7 false) :=
    .step (.start rfl) ⟨⟨by decide, [(7, true)], rfl⟩, .push⟩
  exact .step hfirst ⟨⟨by decide, [], rfl⟩, .push⟩

theorem boundaryBuffer_correct_bothArrived : bothArrived.Correct 1 twoFlits ∧
    ∀ e, bothArrived.Allowed 1 twoFlits e →
      ((∃ s', Step 1 bothArrived e s') ↔ bothArrived.SingleFlit twoFlits e) :=
  boundaryBuffer_correct 1 twoFlits reach_bothArrived

/-- There is a packet, and `TopPacket` does not return. -/
theorem topPacket_bothArrived : (∃ log, Reach (· = {})
    (fun s e s' => s.Allowed 1 twoFlits e ∧ Step 1 s e s') log bothArrived) ∧
      bothArrived.Allowed 1 twoFlits (.topPacket 0) ∧
      ∀ rounds, (bothArrived.device.channel 0).topPacket rounds = none := by
  refine ⟨⟨_, reach_bothArrived⟩, ⟨by decide, by decide⟩, fun rounds => ?_⟩
  induction rounds with
  | zero => rfl
  | succ rounds ih => exact ih

end CompressionWork.Icnt
