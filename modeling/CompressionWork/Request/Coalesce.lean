/-
# Coalescing of requests

A cluster keeps its requests in `hpcl_req_coal_buffer`: a main buffer, and a buffer for each
sub-partition. `core_cycle` takes the top of the main buffer, merges waiting reads of its
sub-partition into it and injects it.

* `Buffer` — the translation of the buffer and of the requests' `m_merged_req_mfs`;
* `Buffer.coreCycle` — the coalescing part of `simt_core_cluster::core_cycle`.
-/
import Mathlib.Data.Nat.Notation
import Mathlib.Data.List.Basic

namespace CompressionWork
namespace Request

/-- A request: its `m_request_uid`, sub-partition, `get_is_write`, `size` and `get_ctrl_size`. -/
structure Mf where
  uid : ℕ
  sub : ℕ
  isWrite : Bool
  size : ℕ
  ctrlSize : ℕ
  deriving DecidableEq, Repr

/-- `m_mem_fetch_buffer`, `m_mem_fetch_subbuffer`, the `m_merged_req_mfs` of every request, and what has
happened: the requests that were pushed and the roots that were injected. -/
structure Buffer where
  main : List Mf
  subs : ℕ → List Mf
  merged : ℕ → List Mf
  pushed : List Mf
  injected : List Mf

/-- A buffer to which nothing was pushed. -/
def Buffer.empty : Buffer := ⟨[], fun _ => [], fun _ => [], [], []⟩

namespace Buffer

/-- The buffer of a sub-partition is replaced. -/
def setSub (b : Buffer) (i : ℕ) (l : List Mf) : Buffer :=
  { b with subs := fun j => if j = i then l else b.subs j }

/-- `m_merged_req_mfs` of a request is replaced. -/
def setMerged (b : Buffer) (mf : Mf) (l : List Mf) : Buffer :=
  { b with merged := fun u => if u = mf.uid then l else b.merged u }

/-- `push_mem_fetch` of a new request. -/
def push (b : Buffer) (sub : ℕ) (isWrite : Bool) (size ctrlSize : ℕ) : Buffer :=
  let mf : Mf := ⟨b.pushed.length, sub, isWrite, size, ctrlSize⟩
  { b.setSub sub (b.subs sub ++ [mf]) with main := b.main ++ [mf], pushed := b.pushed ++ [mf] }

/-- `pop_mem_fetch`; `erase_index` is 0 when the request is not found. -/
def pop (b : Buffer) (mf : Mf) : Buffer :=
  let l := b.subs mf.sub
  { b.setSub mf.sub (l.eraseIdx ((l.findIdx? (· = mf)).getD 0)) with main := b.main.tail }

/-- `delete_mfs`. `none` stands for a failed assertion. -/
def deleteMfs : Buffer → List Mf → Option Buffer
  | b, [] => some b
  | b, m :: ms =>
      if m ∈ b.main then
        if m ∈ b.subs m.sub then
          deleteMfs { b.setSub m.sub ((b.subs m.sub).erase m) with main := b.main.erase m } ms
        else none
      else none

/-- The requests to be merged and the size of the packet with them. -/
def chooseMerged (limit : ℕ) (mf : Mf) : ℕ → List Mf → List Mf × ℕ
  | size, [] => ([], size)
  | size, w :: ws =>
      if w ≠ mf ∧ w.isWrite = false then
        if size + w.ctrlSize ≤ limit then
          let (ms, total) := chooseMerged limit mf (size + w.ctrlSize) ws
          (w :: ms, total)
        else ([], size)
      else chooseMerged limit mf size ws

/-- `pop_mem_fetch` and `icnt_inject_request_packet`. -/
def inject (b : Buffer) (mf : Mf) : Buffer :=
  { b.pop mf with injected := b.injected ++ [mf] }

end Buffer

/-- `hpcl_req_coal_lazy_inj_en` and `32*g_NI_input_buffer_size`. -/
structure Config where
  lazyInj : Bool
  limit : ℕ

/-- The interconnect at one cycle: `icnt_injection_buffer_full` by packet size, and
`icnt_injection_buffer_occupancy`. -/
structure Icnt where
  full : ℕ → Bool
  occupancy : ℕ

/-- The packet of the top request: the requests merged into it, and its size. -/
def Buffer.packet (cfg : Config) (b : Buffer) (mf : Mf) : List Mf × ℕ :=
  let waiting := b.subs mf.sub
  if 1 < waiting.length then Buffer.chooseMerged cfg.limit mf mf.ctrlSize waiting
  else ([], mf.ctrlSize)

/-- Steps 0 to 2 of a read: the merged requests of the previous attempt are cleared, and those chosen now
are added. -/
def Buffer.attach (cfg : Config) (b : Buffer) (mf : Mf) : Buffer × ℕ :=
  if mf.isWrite then (b, mf.size)
  else
    let (ms, size) := b.packet cfg mf
    (b.setMerged mf ms, size)

/-- The coalescing of one `core_cycle`. -/
def Buffer.coreCycle (cfg : Config) (icnt : Icnt) (b : Buffer) : Option Buffer :=
  match b.main with
  | [] => some b
  | mf :: _ =>
      let (b, size) := b.attach cfg mf
      if icnt.full size = false then
        let b' := if cfg.lazyInj = true ∧ 1 < icnt.occupancy then b else b.inject mf
        -- the merged requests leave the buffers also when the root stays
        b'.deleteMfs (b'.merged mf.uid)
      else some (b.setMerged mf [])

/-! ## Runs -/

/-- A request is pushed, or the core takes a cycle. -/
inductive Event where
  | push (sub : ℕ) (isWrite : Bool) (size ctrlSize : ℕ)
  | cycle (icnt : Icnt)

/-- The buffer after an event. -/
def Buffer.next (cfg : Config) (b : Buffer) : Event → Option Buffer
  | .push sub isWrite size ctrlSize => some (b.push sub isWrite size ctrlSize)
  | .cycle icnt => b.coreCycle cfg icnt

/-- The buffer after a run of events. -/
def Buffer.run (cfg : Config) (b : Buffer) (evs : List Event) : Option Buffer :=
  evs.foldlM (Buffer.next cfg) b

/-! ## What coalescing is for -/

/-- The requests in a packet. -/
def Buffer.packetOf (b : Buffer) (root : Mf) : List Mf := root :: b.merged root.uid

/-- Nothing is lost or doubled: the pushed requests are those that wait and those in the injected packets,
each once; a packet is for one sub-partition; and the buffers of the sub-partitions hold the main
buffer. -/
structure Buffer.Conserved (b : Buffer) : Prop where
  distinct : b.pushed.Nodup
  parts : b.pushed.Perm (b.main ++ b.injected.flatMap b.packetOf)
  sameSub : ∀ r ∈ b.injected, ∀ m ∈ b.merged r.uid, m.sub = r.sub
  subs : ∀ i, b.subs i = b.main.filter fun m => m.sub = i

/-- The top request is injected in the next cycle in which its packet has room and is not held back. -/
def Buffer.Moves (cfg : Config) (b : Buffer) : Prop :=
  ∀ icnt : Icnt, ∀ mf ∈ b.main.head?, icnt.full (b.attach cfg mf).2 = false →
    (cfg.lazyInj = true → icnt.occupancy ≤ 1) →
      ∃ b', b.coreCycle cfg icnt = some b' ∧ b'.injected = b.injected ++ [mf]

end Request
end CompressionWork
