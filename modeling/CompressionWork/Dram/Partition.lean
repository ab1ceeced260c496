import CompressionWork.Dram.Channel
import CompressionWork.Transition.Reach
import Mathlib.Algebra.BigOperators.Group.Finset.Basic
import Mathlib.Algebra.Order.Ring.Int

/-!
# A memory partition

The model of `memory_partition_unit`: the sub-partitions of a channel send requests to DRAM, by credits.

* `Arbitration` — the credits, each sub-partition's own and the shared ones.
* `dramCycle` — a cycle: data returns, the channel has its cycle, one sub-partition issues a request, and
  the oldest request of the latency queue enters the channel.
* `step` — the cycles, and what the L2 caches do to their queues in between.
-/

namespace CompressionWork.Dram

open Transition

/-- What a partition reads of the memory configuration, and its id. -/
structure PartitionConfig extends MemoryConfig where
  id : ℕ
  dramLatency : ℕ
  l2Dram : ℕ
  dramL2 : ℕ

/-- The number of sub-partitions. -/
def PartitionConfig.subPartitions (cfg : PartitionConfig) : ℕ := cfg.nSubPartitionPerMemoryChannel.toNat

/-- Why a cycle aborts. -/
inductive Abort
  | wrongSubPartition
  | borrowing
  | returning
  | nullRequest
  | scheduler
  deriving DecidableEq

/-! ## Credits -/

/-- `arbitration_metadata`; the credits are those in use. -/
structure Arbitration where
  lastBorrower : ℕ
  privateCredit : ℕ → ℤ := fun _ => 0
  sharedCredit : ℤ := 0

namespace Arbitration

variable (cfg : PartitionConfig)

/-- `m_private_credit_limit`. -/
def privateCreditLimit : ℤ := 1

/-- No limit where this is zero. -/
def sharedCreditLimit : ℤ :=
  if cfg.frfcfsDramSchedQueueSize = 0 ∨ cfg.dramReturnQueueSize = 0 then 0
  else (cfg.frfcfsDramSchedQueueSize + cfg.dramReturnQueueSize -
    (cfg.nSubPartitionPerMemoryChannel - 1)).toInt32.toInt

/-- The constructor. -/
def new : Arbitration where
  lastBorrower := cfg.subPartitions - 1

/-- `has_credits`. -/
def hasCredits (a : Arbitration) (spid : ℕ) : Bool :=
  a.privateCredit spid < privateCreditLimit || sharedCreditLimit cfg == 0 ||
    a.sharedCredit < sharedCreditLimit cfg

/-- `borrow_credit`, with its assertion. -/
def borrowCredit (a : Arbitration) (spid : ℕ) : Except Abort Arbitration :=
  if a.privateCredit spid < privateCreditLimit then
    pure { a with
      privateCredit := Function.update a.privateCredit spid (a.privateCredit spid + 1)
      lastBorrower := spid }
  else if sharedCreditLimit cfg = 0 ∨ a.sharedCredit < sharedCreditLimit cfg then
    pure { a with sharedCredit := a.sharedCredit + 1, lastBorrower := spid }
  else throw .borrowing

/-- `return_credit`, with its assertion. -/
def returnCredit (a : Arbitration) (spid : ℕ) : Except Abort Arbitration :=
  let a :=
    if 0 < a.privateCredit spid then
      { a with privateCredit := Function.update a.privateCredit spid (a.privateCredit spid - 1) }
    else { a with sharedCredit := a.sharedCredit - 1 }
  if 0 ≤ a.sharedCredit then pure a else throw .returning

end Arbitration

/-! ## The partition -/

/-- `memory_partition_unit`, with the queues of its sub-partitions towards DRAM, and its history: the
requests that the L2 caches have sent, and those that were issued to DRAM, returned to a sub-partition, or
retired as write-backs. -/
structure Partition where
  dram : DramT
  l2Dram : ℕ → Fifo MemFetch
  dramL2 : ℕ → Fifo MemFetch
  latencyQueue : List (ℕ × MemFetch) := []
  arbitration : Arbitration
  sent : List MemFetch := []
  issued : List MemFetch := []
  returned : List MemFetch := []
  retired : List MemFetch := []

namespace Partition

variable (cfg : PartitionConfig)

/-- A partition without requests. -/
def new : Partition where
  dram := .new cfg.toMemoryConfig
  l2Dram _ := .new 0 cfg.l2Dram
  dramL2 _ := .new 0 cfg.dramL2
  arbitration := .new cfg

/-- `global_sub_partition_id_to_local_id`, with the assertion that follows it. -/
def localId (mf : MemFetch) : Except Abort ℕ :=
  if cfg.id * cfg.subPartitions ≤ mf.subPartitionId ∧
      mf.subPartitionId < cfg.id * cfg.subPartitions + cfg.subPartitions then
    pure (mf.subPartitionId - cfg.id * cfg.subPartitions)
  else throw .wrongSubPartition

/-- `can_issue_to_dram`. -/
def canIssueToDram (s : Partition) (spid : ℕ) : Bool :=
  s.arbitration.hasCredits cfg spid && !(s.dramL2 spid).full

/-- `set_done`. -/
def setDone (s : Partition) (mf : MemFetch) : Except Abort Partition := do
  let spid ← localId cfg mf
  let arbitration ← if mf.isWrbk then s.arbitration.returnCredit spid else pure s.arbitration
  pure { s with arbitration, retired := s.retired ++ [mf] }

/-- The first part of `dram_cycle`: data that has returned goes to its sub-partition. -/
def returnTop (s : Partition) : Except Abort Partition :=
  let dram := { s.dram with returnq := s.dram.returnq.pop.2 }
  match s.dram.returnq.top with
  | none => pure { s with dram }
  | some mfReturn => do
      let destSpid ← localId cfg mfReturn
      if (s.dramL2 destSpid).full then pure s
      else if mfReturn.accessType = .l1WrbkAcc then
        pure { s with dram, retired := s.retired ++ [mfReturn] }
      else
        let arbitration ← s.arbitration.returnCredit destSpid
        pure { s with
          dram
          arbitration
          dramL2 := Function.update s.dramL2 destSpid ((s.dramL2 destSpid).push (some mfReturn))
          returned := s.returned ++ [mfReturn] }

/-- The cycle of the channel, which calls `set_done` before its scheduler. -/
def cycleDram (s : Partition) : Except Abort Partition := do
  let s' ←
    match (s.dram.returnData cfg.toMemoryConfig).1 with
    | none => pure s
    | some data => s.setDone cfg data
  match s.dram.cycle cfg.toMemoryConfig with
  | none => throw .scheduler
  | some (_, dram) => pure { s' with dram }

/-- The loop over the sub-partitions: the first one that can issues a request. -/
def issueToDram (s : Partition) (now : ℕ) : Except Abort Partition :=
  let n := cfg.subPartitions
  if s.dram.full cfg.toMemoryConfig then pure s
  else
    match ((List.range n).map fun p => (p + s.arbitration.lastBorrower + 1) % n).find? fun spid =>
        !(s.l2Dram spid).isEmpty && s.canIssueToDram cfg spid with
    | none => pure s
    | some spid =>
        match (s.l2Dram spid).top with
        | none => throw .nullRequest
        | some mf => do
            let arbitration ← s.arbitration.borrowCredit cfg spid
            pure { s with
              arbitration
              l2Dram := Function.update s.l2Dram spid (s.l2Dram spid).pop.2
              latencyQueue := s.latencyQueue ++ [(now + cfg.dramLatency, mf)]
              issued := s.issued ++ [mf] }

/-- The end of `dram_cycle`. -/
def leaveLatencyQueue (s : Partition) (now : ℕ) : Partition :=
  match s.latencyQueue with
  | [] => s
  | (readyCycle, req) :: rest =>
      if readyCycle ≤ now ∧ s.dram.full cfg.toMemoryConfig = false then
        { s with latencyQueue := rest, dram := s.dram.push req }
      else s

/-- `dram_cycle`. -/
def dramCycle (s : Partition) (now : ℕ) : Except Abort Partition := do
  let s ← s.returnTop cfg
  let s ← s.cycleDram cfg
  let s ← s.issueToDram cfg now
  pure (s.leaveLatencyQueue cfg now)

/-! ## Runs -/

/-- What happens to the partition: a sub-partition pushes or pops, or the DRAM clock ticks. -/
inductive Event
  | l2DramPush (spid : ℕ) (mf : MemFetch)
  | dramL2Pop (spid : ℕ)
  | dramCycle (now : ℕ)

/-- A sub-partition sends requests of its own, each of them once. -/
def step (s : Partition) : Event → Partition → Prop
  | .l2DramPush spid mf, s' =>
      spid < cfg.subPartitions ∧ mf.subPartitionId = cfg.id * cfg.subPartitions + spid ∧
        (∀ mf' ∈ s.sent, mf'.requestUid ≠ mf.requestUid) ∧
        s' = { s with
          l2Dram := Function.update s.l2Dram spid ((s.l2Dram spid).push (some mf))
          sent := s.sent ++ [mf] }
  | .dramL2Pop spid, s' =>
      s' = { s with dramL2 := Function.update s.dramL2 spid (s.dramL2 spid).pop.2 }
  | .dramCycle now, s' => s.dramCycle cfg now = .ok s'

/-- The requests issued to DRAM that have neither been returned nor retired. -/
def outstanding (s : Partition) : List MemFetch :=
  s.issued.filter fun mf => mf ∉ s.returned ∧ mf ∉ s.retired

/-- The private and the shared credits in use. -/
def creditsInUse (s : Partition) : ℤ :=
  ∑ spid ∈ Finset.range cfg.subPartitions, s.arbitration.privateCredit spid + s.arbitration.sharedCredit

end Partition

end CompressionWork.Dram
