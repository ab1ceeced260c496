/-
# Compressed hits of the L1 data cache

In compressed mode a hit of the L1D is put into a decompression pipeline, which the SMs of a cluster
share; the access stays at the back of the queue of its instruction until an attempt of an LD/ST unit
finds a request at the output of the pipeline, and then removes the access at its own back.

* `Cluster.attempt` — `ldst_unit::process_memory_access_queue`;
* `Cluster.next` — instructions that arrive, and attempts in any order.
-/
import CompressionWork.Transition.DelayLine

namespace CompressionWork
namespace L1Decomp

open Transition

/-- `hpcl_comp_algo` -/
inductive CompAlgo where
  | globalPrivate
  | localWordMatching
  | bdiWordMatching
  | abpdLocalWordMatching
  | cpackWordMatching
  | fpcWordMatching
  | localWordMatching2
  | sc2WordMatching
  | fphWordMatching
  | bpcWordMatching
  | dataSegMatching
  | dataSegLwmMatching
  | dataSegLwmHybridSeq
  | dataSegLwmHybridParl
  | dataSegMatching2
  deriving DecidableEq, Repr

/-- The algorithms with a pipeline for the L1D; the chain of `process_memory_access_queue` ends in `assert(0)`
for the others. -/
def CompAlgo.hasPipeline : CompAlgo → Bool
  | .dataSegLwmHybridParl | .cpackWordMatching | .bdiWordMatching | .fpcWordMatching | .bpcWordMatching
  | .fphWordMatching | .sc2WordMatching | .dataSegMatching | .dataSegMatching2 => true
  | .globalPrivate | .localWordMatching | .abpdLocalWordMatching | .localWordMatching2
  | .dataSegLwmMatching | .dataSegLwmHybridSeq => false

/-- An access: its `m_uid`, and whether its type is `GLOBAL_ACC_R`. -/
structure Access where
  id : ℕ
  globalRead : Bool
  deriving DecidableEq, Repr

/-- `enum cache_request_status` -/
inductive Status where
  | hit
  | hitReserved
  | miss
  | reservationFail
  deriving DecidableEq, Repr

/-- A request: the `m_uid` of its access, and `get_sid`, the SM that allocated it. -/
structure MemFetch where
  access : ℕ
  sid : ℕ
  deriving DecidableEq, Repr

/-- The instruction in the LD/ST unit: its access queue, the back first, and `m_fired_access_hist`. -/
structure Inst where
  accessq : List Access
  fired : List ℕ
  deriving DecidableEq, Repr

/-- A removal: the access, and the request at the output of the pipeline that triggered it, if one did. -/
structure Removal where
  access : Access
  output : Option MemFetch
  deriving DecidableEq, Repr

/-- The cluster: the algorithm, the instructions of its SMs, the registers of the pipeline, the output first and
the input last, the next access id, and what was removed. -/
structure Cluster where
  algo : CompAlgo
  inst : ℕ → Inst
  line : List (Option MemFetch)
  nextId : ℕ
  removed : List Removal

/-- A pipeline of `latency` stages. -/
def Cluster.init (algo : CompAlgo) (latency : ℕ) : Cluster :=
  ⟨algo, fun _ => ⟨[], []⟩, List.replicate latency none, 0, []⟩

namespace Cluster

/-- The instruction of an SM. -/
def setInst (c : Cluster) (sm : ℕ) (x : Inst) : Cluster :=
  { c with inst := fun s => if s = sm then x else c.inst s }

/-- `set_input_data` -/
def setInputData (c : Cluster) (mf : MemFetch) : Cluster := { c with line := c.line.dropLast ++ [some mf] }

/-- `run`: the loop goes from the last stage to the first, so that every register moves on. -/
def run (c : Cluster) : Option MemFetch × Cluster :=
  ((shift c.line none).1, { c with line := (shift c.line none).2 })

/-- `accessq_pop_back` -/
def popBack (c : Cluster) (sm : ℕ) (a : Access) (output : Option MemFetch) : Cluster :=
  { c.setInst sm { c.inst sm with accessq := (c.inst sm).accessq.tail } with
    removed := c.removed ++ [⟨a, output⟩] }

/-- `process_cache_access`: the access is removed unless no resources were reserved. -/
def processCacheAccess (c : Cluster) (sm : ℕ) (a : Access) (status : Status) : Cluster :=
  if status = .reservationFail then c else c.popBack sm a none

/-- `insert_fired_access_id` -/
def insertFired (c : Cluster) (sm : ℕ) (a : Access) : Cluster :=
  c.setInst sm { c.inst sm with fired := a.id :: (c.inst sm).fired }

/-- `process_memory_access_queue` of the L1D; `none` when the assertion fails. `comp` is whether compressed mode
is on, and `status` what `cache->access` returns when it is called. -/
def attempt (c : Cluster) (sm : ℕ) (dataPortFree comp : Bool) (status : Status) : Option Cluster :=
  match (c.inst sm).accessq with
  | [] => some c
  | a :: _ =>
      if dataPortFree = false then some c
      else if comp = false ∨ a.globalRead = false then some (c.processCacheAccess sm a status)
      else if c.algo.hasPipeline = false then none
      else
        match c.run with
        | (some mf, c) => some (c.popBack sm a (some mf))
        | (none, c) =>
            if a.id ∈ (c.inst sm).fired then some c
            else if status = .hit then some ((c.setInputData ⟨a.id, sm⟩).insertFired sm a)
            else some (c.processCacheAccess sm a status)

/-- An instruction with accesses of the given types arrives when the one before has none left. -/
def issue (c : Cluster) (sm : ℕ) (types : List Bool) : Cluster :=
  if (c.inst sm).accessq = [] then
    { c.setInst sm ⟨types.mapIdx fun k t => ⟨c.nextId + k, t⟩, []⟩ with
      nextId := c.nextId + types.length }
  else c

end Cluster

/-- What an LD/ST unit of the cluster does. -/
inductive Event where
  | issue (sm : ℕ) (types : List Bool)
  | attempt (sm : ℕ) (dataPortFree comp : Bool) (status : Status)

/-- One event; `none` when an assertion fails. -/
def Cluster.next (c : Cluster) : Event → Option Cluster
  | .issue sm types => some (c.issue sm types)
  | .attempt sm dataPortFree comp status => c.attempt sm dataPortFree comp status

/-! ## What the pipeline is for -/

/-- An access is removed once; a removal that the output of the pipeline triggers is that of the access
whose request it is; a request in the pipeline is that of an access that is still queued; and an access that
was fired and is still queued has its request there, so that it does not wait for ever. -/
structure Cluster.Served (c : Cluster) : Prop where
  once : (c.removed.map (·.access.id)).Nodup
  gone : ∀ r ∈ c.removed, ∀ sm, ∀ a ∈ (c.inst sm).accessq, a.id ≠ r.access.id
  output : ∀ r ∈ c.removed, ∀ mf ∈ r.output, mf.access = r.access.id
  queued : ∀ mf ∈ held c.line, ∃ sm, ∃ a ∈ (c.inst sm).accessq, a.id = mf.access
  waits : ∀ sm, ∀ a ∈ (c.inst sm).accessq, a.id ∈ (c.inst sm).fired → ∃ mf ∈ held c.line, mf.access = a.id

/-- No step of the run fails, and the states after each step are served. -/
def RunServed : Cluster → List Event → Prop
  | _, [] => True
  | c, ev :: evs => ∃ c', c.next ev = some c' ∧ c'.Served ∧ RunServed c' evs

/-- A global read is attempted with a free data port. In compressed mode the algorithm has a pipeline, and a
request in its last register was put in by the same SM; when the mode is off and the cache takes the access, no
request that this SM has put in is in the pipeline. -/
def Cluster.Meets (c : Cluster) : Event → Prop
  | .issue _ _ => True
  | .attempt sm dataPortFree comp status =>
      ∀ a ∈ (c.inst sm).accessq.head?, dataPortFree = true → a.globalRead = true →
        if comp = true then c.algo.hasPipeline = true ∧ ∀ mf ∈ c.line.headD none, mf.sid = sm
        else status = .reservationFail ∨ ∀ mf ∈ held c.line, mf.sid ≠ sm

/-- Every step of the run meets the condition. -/
def RunMeets : Cluster → List Event → Prop
  | _, [] => True
  | c, ev :: evs => c.Meets ev ∧ ∀ c', c.next ev = some c' → RunMeets c' evs

end L1Decomp
end CompressionWork
