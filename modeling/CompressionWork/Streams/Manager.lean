/-
# The stream manager

The host pushes operations to streams; `stream_manager::operation` registers a kernel that has
finished and performs the operation that `front` selects. A stream is busy from the selection of its
front operation until that operation is done.

* `Manager.operation` — the translation, with the kernel slots of the GPU;
* `Manager.Exact` — what the manager is for.
-/
import Mathlib.Data.Nat.Notation
import Mathlib.Data.List.Basic

namespace CompressionWork
namespace Streams

/-- The operations: the copies, an event, and a kernel, which runs on the GPU or in functional
simulation. -/
inductive Kind where
  | memcpy
  | event
  | kernel (simMode : Bool)
  deriving DecidableEq, Repr

/-- An operation; `uid` is the kernel's `get_uid`, and tells the operations apart. -/
structure Op where
  uid : ℕ
  kind : Kind
  deriving DecidableEq, Repr

/-- `is_kernel`. -/
def Op.isKernel (op : Op) : Bool :=
  match op.kind with
  | .kernel _ => true
  | _ => false

/-- `CUstream_st`: `m_operations` and `m_pending`; and what has happened in the stream: the operations that
were pushed, those that were performed and those that are done. -/
structure Stream where
  ops : List Op
  pending : Bool
  pushed : List Op
  performed : List Op
  finished : List Op

/-- The manager and the GPU. Stream 0 is `m_stream_zero`, the others are in the order of `m_streams`.
`running` are the kernels in `m_running_kernels`, `finishedKernel` is `m_finished_kernel`. -/
structure Manager where
  stream : ℕ → Stream
  serviceStreamZero : Bool
  gridIdToStream : ℕ → Option ℕ
  running : List ℕ
  finishedKernel : List ℕ
  nextUid : ℕ

/-- No stream has an operation. -/
def Manager.init : Manager := ⟨fun _ => ⟨[], false, [], [], []⟩, false, fun _ => none, [], [], 1⟩

namespace Manager

/-- A stream changes. -/
def setStream (m : Manager) (i : ℕ) (x : Stream) : Manager :=
  { m with stream := fun j => if j = i then x else m.stream j }

/-- `CUstream_st::push` of a new operation. -/
def push (m : Manager) (i : ℕ) (kind : Kind) : Manager :=
  let x := m.stream i
  let op : Op := ⟨m.nextUid, kind⟩
  { m.setStream i { x with ops := x.ops ++ [op], pushed := x.pushed ++ [op] } with
    nextUid := m.nextUid + 1 }

/-- `record_next_done`. `none` stands for a failed assertion. -/
def recordNextDone (m : Manager) (i : ℕ) : Option Manager :=
  let x := m.stream i
  if x.pending = true then
    some (m.setStream i
      { x with ops := x.ops.tail, pending := false, finished := x.finished ++ x.ops.take 1 })
  else none

/-- `register_finished_kernel`. -/
def registerFinishedKernel (m : Manager) (uid : ℕ) : Option Manager :=
  match m.gridIdToStream uid with
  | none => none
  | some i =>
      match (m.stream i).ops with
      | [] => none
      | op :: _ =>
          if op.uid = uid then
            (m.recordNextDone i).map fun m =>
              { m with gridIdToStream := fun u => if u = uid then none else m.gridIdToStream u }
          else none

/-- `check_finished_kernel`. -/
def checkFinishedKernel (m : Manager) : Option Manager :=
  match m.finishedKernel with
  | [] => some m
  | uid :: rest => { m with finishedKernel := rest }.registerFinishedKernel uid

/-- `concurrent_streams_empty`, with `count` streams beside stream zero. -/
def concurrentStreamsEmpty (count : ℕ) (m : Manager) : Bool :=
  (List.range' 1 count).all fun i => (m.stream i).ops.isEmpty

/-- `next`, and the entry of a kernel in `m_grid_id_to_stream`. -/
def take (m : Manager) (i : ℕ) (op : Op) : Manager :=
  { m.setStream i { m.stream i with pending := true } with
    gridIdToStream := fun u =>
      if op.isKernel = true ∧ u = op.uid then some i else m.gridIdToStream u }

/-- The first stream that is not busy and not empty. -/
def ready? (count : ℕ) (m : Manager) : Option ℕ :=
  (List.range' 1 count).find? fun i => !(m.stream i).pending && !(m.stream i).ops.isEmpty

/-- `front`: the stream and the operation that are selected. -/
def front (count : ℕ) (m : Manager) : Manager × Option (ℕ × Op) :=
  let m := if m.concurrentStreamsEmpty count then { m with serviceStreamZero := true } else m
  if m.serviceStreamZero = true then
    match (m.stream 0).ops with
    | [] => ({ m with serviceStreamZero := false }, none)
    | op :: _ => if (m.stream 0).pending = true then (m, none) else (m.take 0 op, some (0, op))
  else
    match m.ready? count with
    | none => (m, none)
    | some i =>
        match (m.stream i).ops with
        | [] => (m, none)
        | op :: _ => (m.take i op, some (i, op))

/-- The effect of an operation takes place. -/
def perform (m : Manager) (i : ℕ) (op : Op) : Manager :=
  m.setStream i { m.stream i with performed := (m.stream i).performed ++ [op] }

/-- `do_operation`, with `limit` kernel slots. -/
def doOperation (limit : ℕ) (m : Manager) (i : ℕ) (op : Op) : Option Manager :=
  match op.kind with
  | .memcpy => (m.perform i op).recordNextDone i
  | .event => (m.perform i op).recordNextDone i
  | .kernel simMode =>
      if m.running.length < limit then
        if simMode = true then (m.perform i op).registerFinishedKernel op.uid
        else some { m.perform i op with running := m.running ++ [op.uid] }
      else some m

/-- `operation`. -/
def operation (count limit : ℕ) (m : Manager) : Option Manager :=
  m.checkFinishedKernel.bind fun m =>
    match m.front count with
    | (m, none) => some m
    | (m, some (i, op)) => m.doOperation limit i op

end Manager

/-- A push to a stream, a call of `operation`, or the end of a kernel on the GPU. -/
inductive Event where
  | push (i : ℕ) (kind : Kind)
  | operation
  | kernelDone (uid : ℕ)

/-- A push is to stream zero or to one of the `count` streams; a kernel ends when it runs. -/
def Manager.next (count limit : ℕ) (m : Manager) : Event → Option Manager
  | .push i kind => some (if i ≤ count then m.push i kind else m)
  | .operation => m.operation count limit
  | .kernelDone uid =>
      some (if uid ∈ m.running then
        { m with running := m.running.erase uid, finishedKernel := m.finishedKernel ++ [uid] } else m)

/-- The manager after a run of events. -/
def Manager.run (count limit : ℕ) (m : Manager) (evs : List Event) : Option Manager :=
  evs.foldlM (Manager.next count limit) m

/-! ## What the manager is for -/

/-- The operation of a stream that has started and is not done. -/
def Stream.started (x : Stream) : List Op := if x.pending = true then x.ops.take 1 else []

/-- The operations of a stream are performed in the order of the pushes, each once and when the ones
before it are done; an operation that is not done is the front operation, a kernel that runs or is about
to be registered; and stream zero has no operation in progress together with another stream. -/
structure Manager.Exact (count : ℕ) (m : Manager) : Prop where
  pushed : ∀ i ≤ count, (m.stream i).pushed = (m.stream i).finished ++ (m.stream i).ops
  performed : ∀ i ≤ count,
    (m.stream i).performed = (m.stream i).finished ++ (m.stream i).started
  runs : ∀ i ≤ count, (m.stream i).pending = true →
    ∃ op ∈ (m.stream i).started, op.uid ∈ m.running ∨ op.uid ∈ m.finishedKernel
  exclusive : (m.stream 0).pending = true → ∀ i, 0 < i → i ≤ count → (m.stream i).pending = false

end Streams
end CompressionWork
