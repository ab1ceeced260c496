import CompressionWork.Coalesce.SortedMap
import CompressionWork.Dram.Scheduler
import Mathlib

/-!
# Memory access coalescing

The model of `memory_coalescing_arch_13` and its variant for atomics: the accesses of the threads of a
subwarp are put together to transactions of 32, 64 or 128 bytes.

* `coalesceSubwarp` — one transaction for each segment that is accessed.
* `coalesceSubwarpAtomic` — a segment has as many transactions as its conflicts need.
* `reduceAndSend` — a transaction shrinks to the part of its segment that is used.

Where an assertion of the source fails, the result is `none`.
-/

namespace CompressionWork.Coalesce

open Dram (MemAccessType)

/-- `transaction_info`. -/
structure TransactionInfo where
  chunks : ℕ → Bool := fun _ => false
  bytes : ℕ → Bool := fun _ => false
  active : ℕ → Bool := fun _ => false
  threadIdAccessAddr : List (ℕ × ℕ) := []

/-- `mem_access_t`. -/
structure MemAccess where
  accessType : MemAccessType
  addr : ℕ
  reqSize : ℕ
  write : Bool
  active : ℕ → Bool
  bytes : ℕ → Bool
  threadIdAccessAddr : List (ℕ × ℕ)
  deriving Inhabited

/-- What the coalescer reads of a `warp_inst_t` and of its configuration. -/
structure WarpInst where
  warpSize : ℕ
  memWarpParts : ℕ
  dataSize : ℕ
  /-- `local_space` or `param_space_local`; else `global_space` -/
  isLocal : Bool
  isAtomic : Bool
  isWrite : Bool
  accessType : MemAccessType
  active : ℕ → Bool
  memreqaddr : ℕ → ℕ → ℕ

/-- `line_size_based_tag_func`; the line size is a power of two, and the result is an `unsigned`. -/
def lineSizeBasedTagFunc (address lineSize : ℕ) : ℕ := (address - address % lineSize) % 2 ^ 32

/-- A loop that sets `n` bits from `idx` on. -/
def setBits (bits : ℕ → Bool) (idx n : ℕ) : ℕ → Bool := fun i => bits i || (idx ≤ i && i < idx + n)

/-- `test_bytes`. -/
def TransactionInfo.testBytes (info : TransactionInfo) (startBit endBit : ℕ) : Bool :=
  (List.range' startBit (endBit + 1 - startBit)).any info.bytes

/-- The bits that an access sets. -/
def TransactionInfo.set (info : TransactionInfo) (width thread addr : ℕ) : TransactionInfo :=
  { info with
    chunks := setBits info.chunks (addr % 128 / 32) 1
    active := setBits info.active thread 1
    bytes := setBits info.bytes (addr % 128) width }

/-- The second case analysis of `memory_coalescing_arch_13_reduce_and_send`: the halves of 64 bytes. -/
def reduceHalves (addr : ℕ) (h0 h1 : Bool) : Option (ℕ × ℕ) :=
  if h0 && !h1 then some (addr, 32)
  else if !h0 && h1 then some (addr + 32, 32)
  else if h0 && h1 then some (addr, 64)
  else none

/-- The first case analysis: the halves of 128 bytes, or the chunks of a segment of 64. -/
def reduceSegment (q : ℕ → Bool) (addr segmentSize : ℕ) : Option (ℕ × ℕ) :=
  if segmentSize = 128 then
    if (q 0 || q 1) && !(q 2 || q 3) then reduceHalves addr (q 0) (q 1)
    else if !(q 0 || q 1) && (q 2 || q 3) then reduceHalves (addr + 64) (q 2) (q 3)
    else if (q 0 || q 1) && (q 2 || q 3) then some (addr, 128)
    else none
  else if segmentSize = 64 then
    if addr % 128 = 0 then reduceHalves addr (q 0) (q 1)
    else if addr % 128 = 64 then reduceHalves addr (q 2) (q 3)
    else none
  else some (addr, segmentSize)

namespace WarpInst

variable (w : WarpInst)

/-- `segment_size`. -/
def segmentSize : ℕ :=
  match w.dataSize with
  | 1 => 32
  | 2 => 64
  | 4 | 8 | 16 => 128
  | _ => 0

/-- `memory_coalescing_arch_13_reduce_and_send`. -/
def reduceAndSend (info : TransactionInfo) (addr segmentSize : ℕ) : Option MemAccess := do
  let q := info.chunks
  guard (addr % segmentSize = 0)
  guard (q 0 || q 1 || q 2 || q 3)
  let (addr, size) ← reduceSegment q addr segmentSize
  pure {
    accessType := w.accessType
    addr
    reqSize := size
    write := w.isWrite
    active := info.active
    bytes := info.bytes
    threadIdAccessAddr := info.threadIdAccessAddr }

/-! ## Loads and stores -/

/-- `data_size_coales`. -/
def dataSizeCoales : ℕ := if w.isLocal && 4 ≤ w.dataSize then 4 else w.dataSize

/-- `num_accesses`. -/
def numAccesses : ℕ := if w.isLocal && 4 ≤ w.dataSize then w.dataSize / 4 else 1

/-- The accesses of the active threads of a subwarp, each with its thread, in the order of the loops. -/
def accesses (subwarpSize num subwarp : ℕ) : List (ℕ × ℕ) :=
  ((List.range' (subwarp * subwarpSize) subwarpSize).filter w.active).flatMap fun thread =>
    (List.range num).map fun access => (thread, w.memreqaddr thread access)

/-- `block_address` of an access. -/
def blockAddress (access : ℕ × ℕ) : ℕ := lineSizeBasedTagFunc access.2 w.segmentSize

/-- The assertion that an access stays in its segment. -/
def oneSegment (width : ℕ) (access : ℕ × ℕ) : Bool :=
  w.blockAddress access == lineSizeBasedTagFunc (access.2 + width - 1) w.segmentSize

/-- An access joins the transaction of its segment, if there is one. -/
def join (access : ℕ × ℕ) (info : Option TransactionInfo) : TransactionInfo :=
  let info := info.getD {}
  { info with threadIdAccessAddr := info.threadIdAccessAddr ++ [access] }.set w.dataSizeCoales access.1 access.2

/-- `memory_coalescing_arch_13`, for one subwarp. -/
def coalesceSubwarp (subwarp : ℕ) : Option (List MemAccess) := do
  guard (w.numAccesses ≤ 8)
  let accesses := w.accesses (w.warpSize / w.memWarpParts) w.numAccesses subwarp
  let transactions ← accesses.foldlM (fun transactions access =>
    if w.oneSegment w.dataSizeCoales access then
      some (SortedMap.alter (w.blockAddress access) (w.join access) transactions)
    else none) []
  transactions.mapM fun t => w.reduceAndSend t.2 t.1 w.segmentSize

/-- `memory_coalescing_arch_13`. -/
def memoryCoalescingArch13 : Option (List MemAccess) :=
  ((List.range w.memWarpParts).mapM w.coalesceSubwarp).map List.flatten

/-! ## Atomics -/

/-- An access joins the first transaction of its segment that does not use its bytes, else a new one.  (The
assertion on each byte repeats the test.) -/
def joinFirst (access : ℕ × ℕ) : List TransactionInfo → List TransactionInfo
  | [] => [({} : TransactionInfo).set w.dataSize access.1 access.2]
  | info :: rest =>
      if info.testBytes (access.2 % 128) (access.2 % 128 + w.dataSize - 1) then
        info :: joinFirst access rest
      else info.set w.dataSize access.1 access.2 :: rest

/-- `memory_coalescing_arch_13_atomic`, for one subwarp. -/
def coalesceSubwarpAtomic (subwarp : ℕ) : Option (List MemAccess) := do
  let transactions ← (w.accesses (w.warpSize / 2) 1 subwarp).foldlM (fun transactions access =>
    if w.oneSegment w.dataSize access then
      some (SortedMap.alter (w.blockAddress access) (fun list => w.joinFirst access (list.getD []))
        transactions)
    else none) []
  let accessq ← transactions.mapM fun t => t.2.mapM fun info => w.reduceAndSend info t.1 w.segmentSize
  pure accessq.flatten

/-- `memory_coalescing_arch_13_atomic`. -/
def memoryCoalescingArch13Atomic : Option (List MemAccess) := do
  guard (!w.isLocal)
  let accessq ← (List.range 2).mapM w.coalesceSubwarpAtomic
  pure accessq.flatten

/-- The part of `generate_mem_accesses` for the global and the local space. -/
def generateMemAccesses : Option (List MemAccess) :=
  if w.isAtomic then w.memoryCoalescingArch13Atomic else w.memoryCoalescingArch13

end WarpInst

end CompressionWork.Coalesce
