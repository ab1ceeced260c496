import CompressionWork.Cache.Config
import Mathlib.Data.List.AList

/-!
# Miss status holding registers

The model of `mem_fetch`, as far as the caches look at it, and of `mshr_table`: the requests that
wait for a block, and the queue of blocks whose data has arrived.

* `MshrTable.add` — a request joins the entry of its block.
* `MshrTable.markReady` — the block of an entry goes to the end of the queue.
* `MshrTable.nextAccess` — the oldest request of the first block; the last one takes the entry.

A `mem_fetch *` is the object at the time the pointer was stored, told apart by its number; of the
fields here a cache only changes the data size.  The table is a finite map.
-/

namespace CompressionWork.Cache

/-- `mem_access_type`. -/
inductive MemAccessType
  | globalAccR
  | localAccR
  | constAccR
  | textureAccR
  | globalAccW
  | localAccW
  | l1WrbkAcc
  | l2WrbkAcc
  | instAccR
  | l1WrAllocR
  | l2WrAllocR
  deriving DecidableEq

/-- `mem_fetch`: its number, its access, and what the compressors report; `compDataBits` is -1
before they do. -/
structure MemFetch where
  requestUid : ℕ
  accessType : MemAccessType
  isWrite : Bool
  isAtomic : Bool
  addr : NewAddrType
  dataSize : ℕ
  compDataBits : ℤ := -1
  deriving DecidableEq

/-- `mshr_entry`. -/
structure MshrEntry where
  list : List MemFetch := []
  hasAtomic : Bool := false

/-- `mshr_table`. -/
structure MshrTable where
  numEntries : ℕ
  maxMerged : ℕ
  data : AList fun _ : NewAddrType => MshrEntry := ∅
  currentResponse : List NewAddrType := []

namespace MshrTable

variable (m : MshrTable)

/-- `probe`: the block has an entry. -/
def probe (blockAddr : NewAddrType) : Bool := (m.data.lookup blockAddr).isSome

/-- `full`: no room for another request of the block. -/
def full (blockAddr : NewAddrType) : Bool :=
  match m.data.lookup blockAddr with
  | some entry => m.maxMerged ≤ entry.list.length
  | none => m.numEntries ≤ m.data.entries.length

/-- `add`; `m_data[block_addr]` makes the entry when there is none. -/
def add (blockAddr : NewAddrType) (mf : MemFetch) : Option MshrTable :=
  let entry := (m.data.lookup blockAddr).getD {}
  let entry : MshrEntry := ⟨entry.list ++ [mf], entry.hasAtomic || mf.isAtomic⟩
  let data := m.data.insert blockAddr entry
  if data.entries.length ≤ m.numEntries ∧ entry.list.length ≤ m.maxMerged then
    some { m with data }
  else none

/-- `mark_ready`, with `has_atomic` as a result. -/
def markReady (blockAddr : NewAddrType) : Option (MshrTable × Bool) := do
  let entry ← m.data.lookup blockAddr
  let currentResponse := m.currentResponse ++ [blockAddr]
  guard (currentResponse.length ≤ m.data.entries.length)
  pure ({ m with currentResponse }, entry.hasAtomic)

/-- `access_ready`. -/
def accessReady : Bool := !m.currentResponse.isEmpty

/-- `next_access`. -/
def nextAccess : Option (MemFetch × MshrTable) :=
  match m.currentResponse with
  | [] => none
  | blockAddr :: rest =>
      match m.data.lookup blockAddr with
      | some ⟨[result], _⟩ =>
          some (result, { m with data := m.data.erase blockAddr, currentResponse := rest })
      | some ⟨result :: list, hasAtomic⟩ =>
          some (result, { m with data := m.data.insert blockAddr ⟨list, hasAtomic⟩ })
      | _ => none

end MshrTable

end CompressionWork.Cache
