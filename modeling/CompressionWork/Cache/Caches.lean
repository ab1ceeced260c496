import CompressionWork.Cache.Mshr
import CompressionWork.Cache.TagArray

/-!
# The caches: the model

The model of `baseline_cache`, `read_only_cache`, `data_cache` and `tex_cache`.  A function returns
`none` where an assertion fails or the source aborts; otherwise it returns the status, the cache
and the request after the call, and the events with those it has added.

* `sendReadRequest` — a miss joins an entry of the MSHR table or starts a new one.
* `wrHitWb`, `wrHitWt`, `wrHitWe`, `wrMissWa`, `wrMissNoWa`, `rdHitBase`, `rdMissBase` — what a
  configuration plugs into `data_cache`.
* `dataAccess`, `readOnlyAccess`, `TexCache.access` — the three access functions.
* `fill`, `cycle`, `nextAccess` — the response side.

The statistics are left out; nothing in the caches reads them.
-/

namespace CompressionWork.Cache

/-- `cache_event`. -/
inductive CacheEvent
  | writeBackRequestSent
  | readRequestSent
  | writeRequestSent
  deriving DecidableEq

/-! ## State -/

/-- `extra_mf_fields` of a request on its way to memory. -/
structure ExtraMfFields where
  blockAddr : NewAddrType
  cacheIndex : ℕ
  dataSize : ℕ
  deriving DecidableEq

/-- What a cache refers to: the parameters of its tag array, and the access types of the requests a
data cache makes itself (write allocation and write-back). -/
structure CacheParams extends TagParams where
  wrAllocType : MemAccessType
  wrbkType : MemAccessType

/-- `baseline_cache`, with the number of the next `mem_fetch` (`sm_next_mf_request_uid`). -/
structure BaselineCache where
  tagArray : TagArray
  mshrs : MshrTable
  missQueue : List MemFetch := []
  extraMfFields : AList fun _ : ℕ => ExtraMfFields := ∅
  dataPortOccupiedCycles : ℕ := 0
  fillPortOccupiedCycles : ℕ := 0
  nextRequestUid : ℕ

/-- What a call leaves behind: the status it returns, and what it may have changed. -/
structure Outcome where
  status : CacheRequestStatus
  cache : BaselineCache
  mf : MemFetch
  events : List CacheEvent

namespace CacheParams

variable (p : CacheParams)

/-- The constructor. -/
def newCache (nextRequestUid : ℕ) : Option BaselineCache := do
  let tagArray ← p.newArray
  guard (p.config.mshrType = .assoc)
  pure
    { tagArray, mshrs := { numEntries := p.config.mshrEntries, maxMerged := p.config.mshrMaxMerge },
      nextRequestUid }

/-- `miss_queue_full`: no room for `numMiss` further requests and one more. -/
def missQueueFull (c : BaselineCache) (numMiss : ℕ) : Bool :=
  p.config.missQueueSize ≤ c.missQueue.length + numMiss

/-! ## Ports -/

/-- `use_data_port`. -/
def useDataPort (c : BaselineCache) (mf : MemFetch) (outcome : CacheRequestStatus)
    (events : List CacheEvent) : BaselineCache :=
  match outcome with
  | .hit =>
      let dataCycles := mf.dataSize / p.config.dataPortWidth +
        if 0 < mf.dataSize % p.config.dataPortWidth then 1 else 0
      { c with dataPortOccupiedCycles := c.dataPortOccupiedCycles + dataCycles }
  | .hitReserved | .miss =>
      -- a write-back reads the whole line
      if .writeBackRequestSent ∈ events then
        { c with dataPortOccupiedCycles :=
            c.dataPortOccupiedCycles + p.config.lineSz.toNat / p.config.dataPortWidth }
      else c
  | .reservationFail => c

/-- `use_fill_port`. -/
def useFillPort (c : BaselineCache) : BaselineCache :=
  { c with fillPortOccupiedCycles :=
      c.fillPortOccupiedCycles + p.config.lineSz.toNat / p.config.dataPortWidth }

/-! ## Misses -/

/-- What `send_read_request` sets: `do_miss`, the evicted block when `wb`, and the rest. -/
structure ReadRequest where
  doMiss : Bool
  evicted : Option CacheBlock
  cache : BaselineCache
  mf : MemFetch
  events : List CacheEvent

/-- The index that `tag_array::access` leaves in its reference parameter. -/
def accessIndex (cacheIndex : ℕ) : TagParams.ProbeResult → ℕ
  | .hit idx => idx
  | .hitReserved idx => idx
  | .miss idx _ => idx
  | .reservationFail => cacheIndex

/-- The access in `send_read_request`: a read-only cache does not expect a write-back. -/
def readAccess (c : BaselineCache) (blockAddr : NewAddrType) (time : UInt32) (readOnly : Bool) :
    Option (TagParams.ProbeResult × Option CacheBlock × TagArray) :=
  if readOnly then (p.accessNoWb c.tagArray blockAddr time).map fun r => (r.1, none, r.2)
  else p.access c.tagArray blockAddr time

/-- `send_read_request`. -/
def sendReadRequest (c : BaselineCache) (blockAddr : NewAddrType) (cacheIndex : ℕ) (mf : MemFetch)
    (time : UInt32) (events : List CacheEvent) (readOnly wa : Bool) : Option ReadRequest :=
  let mshrHit := c.mshrs.probe blockAddr
  let mshrAvail := !c.mshrs.full blockAddr
  if mshrHit ∧ mshrAvail then do
    let (_, evicted, tagArray) ← p.readAccess c blockAddr time readOnly
    let mshrs ← c.mshrs.add blockAddr mf
    pure ⟨true, evicted, { c with tagArray, mshrs }, mf, events⟩
  else if ¬ mshrHit ∧ mshrAvail ∧ c.missQueue.length < p.config.missQueueSize then do
    let (result, evicted, tagArray) ← p.readAccess c blockAddr time readOnly
    let mshrs ← c.mshrs.add blockAddr mf
    let fields : ExtraMfFields := ⟨blockAddr, accessIndex cacheIndex result, mf.dataSize⟩
    let mf := { mf with dataSize := p.config.lineSz.toNat }
    pure ⟨true, evicted,
      { c with
        tagArray, mshrs
        extraMfFields := c.extraMfFields.insert mf.requestUid fields
        missQueue := c.missQueue ++ [mf] },
      mf, if wa then events else events ++ [.readRequestSent]⟩
  else some ⟨false, none, c, mf, events⟩

/-- `send_write_request`. -/
def sendWriteRequest (c : BaselineCache) (mf : MemFetch) (request : CacheEvent)
    (events : List CacheEvent) : BaselineCache × List CacheEvent :=
  ({ c with missQueue := c.missQueue ++ [mf] }, events ++ [request])

/-- The write-back request for an evicted block (`m_memfetch_creator->alloc`). -/
def allocWriteBack (c : BaselineCache) (evicted : CacheBlock) : MemFetch × BaselineCache :=
  ({ requestUid := c.nextRequestUid, accessType := p.wrbkType, isWrite := true, isAtomic := false,
     addr := evicted.blockAddr, dataSize := p.config.lineSz.toNat },
    { c with nextRequestUid := c.nextRequestUid + 1 })

/-! ## Data caches: hits -/

/-- The status of a line. -/
def setStatus (t : TagArray) (idx : ℕ) (status : CacheBlockState) : TagArray :=
  { t with lines := Function.update t.lines idx { t.lines idx with status } }

/-- `wr_hit_wb`. -/
def wrHitWb (c : BaselineCache) (addr : NewAddrType) (cacheIndex : ℕ) (mf : MemFetch)
    (time : UInt32) (events : List CacheEvent) : Option Outcome := do
  let (result, t) ← p.accessNoWb c.tagArray (p.config.blockAddr addr) time
  let tagArray := setStatus t (accessIndex cacheIndex result) .modified
  pure ⟨.hit, { c with tagArray }, mf, events⟩

/-- `wr_hit_wt`. -/
def wrHitWt (c : BaselineCache) (addr : NewAddrType) (cacheIndex : ℕ) (mf : MemFetch)
    (time : UInt32) (events : List CacheEvent) : Option Outcome :=
  if p.missQueueFull c 0 then some ⟨.reservationFail, c, mf, events⟩
  else do
    let (result, t) ← p.accessNoWb c.tagArray (p.config.blockAddr addr) time
    let tagArray := setStatus t (accessIndex cacheIndex result) .modified
    let (c, events) := sendWriteRequest { c with tagArray } mf .writeRequestSent events
    pure ⟨.hit, c, mf, events⟩

/-- `wr_hit_we`. -/
def wrHitWe (c : BaselineCache) (cacheIndex : ℕ) (mf : MemFetch) (events : List CacheEvent) :
    Option Outcome :=
  if p.missQueueFull c 0 then some ⟨.reservationFail, c, mf, events⟩
  else
    let (c, events) := sendWriteRequest c mf .writeRequestSent events
    some ⟨.hit, { c with tagArray := setStatus c.tagArray cacheIndex .invalid }, mf, events⟩

/-- `wr_hit_global_we_local_wb`. -/
def wrHitGlobalWeLocalWb (c : BaselineCache) (addr : NewAddrType) (cacheIndex : ℕ) (mf : MemFetch)
    (time : UInt32) (events : List CacheEvent) : Option Outcome :=
  if mf.accessType = .globalAccW then p.wrHitWe c cacheIndex mf events
  else p.wrHitWb c addr cacheIndex mf time events

/-- `m_wr_hit`, as the constructor sets it; a read-only data cache is not built. -/
def wrHit (c : BaselineCache) (addr : NewAddrType) (cacheIndex : ℕ) (mf : MemFetch)
    (time : UInt32) (events : List CacheEvent) : Option Outcome :=
  match p.config.writePolicy with
  | .readOnly => none
  | .writeBack => p.wrHitWb c addr cacheIndex mf time events
  | .writeThrough => p.wrHitWt c addr cacheIndex mf time events
  | .writeEvict => p.wrHitWe c cacheIndex mf events
  | .localWbGlobalWt => p.wrHitGlobalWeLocalWb c addr cacheIndex mf time events

/-- `rd_hit_base`: an atomic marks the line as dirty. -/
def rdHitBase (c : BaselineCache) (addr : NewAddrType) (cacheIndex : ℕ) (mf : MemFetch)
    (time : UInt32) (events : List CacheEvent) : Option Outcome := do
  let (result, t) ← p.accessNoWb c.tagArray (p.config.blockAddr addr) time
  if mf.isAtomic then
    guard (mf.accessType = .globalAccR)
    let tagArray := setStatus t (accessIndex cacheIndex result) .modified
    pure ⟨.hit, { c with tagArray }, mf, events⟩
  else pure ⟨.hit, { c with tagArray := t }, mf, events⟩

/-! ## Data caches: misses -/

/-- `wr_miss_wa`: the write goes to memory, and a read for the block with it. -/
def wrMissWa (c : BaselineCache) (addr : NewAddrType) (cacheIndex : ℕ) (mf : MemFetch)
    (time : UInt32) (events : List CacheEvent) : Option Outcome :=
  let blockAddr := p.config.blockAddr addr
  let mshrHit := c.mshrs.probe blockAddr
  let mshrAvail := !c.mshrs.full blockAddr
  if p.missQueueFull c 2 ∨ (¬ (mshrHit ∧ mshrAvail) ∧
      ¬ (¬ mshrHit ∧ mshrAvail ∧ c.missQueue.length < p.config.missQueueSize)) then
    some ⟨.reservationFail, c, mf, events⟩
  else do
    let (c, events) := sendWriteRequest c mf .writeRequestSent events
    let nMf : MemFetch :=
      { requestUid := c.nextRequestUid, accessType := p.wrAllocType, isWrite := false,
        isAtomic := false, addr := mf.addr, dataSize := mf.dataSize }
    let c := { c with nextRequestUid := c.nextRequestUid + 1 }
    let r ← p.sendReadRequest c blockAddr cacheIndex nMf time events false true
    if r.doMiss then
      match r.evicted with
      | some evicted =>
          if p.config.writePolicy ≠ .writeThrough then
            let (wb, c) := p.allocWriteBack r.cache evicted
            pure ⟨.miss, { c with missQueue := c.missQueue ++ [wb] }, mf, r.events⟩
          else pure ⟨.miss, r.cache, mf, r.events⟩
      | none => pure ⟨.miss, r.cache, mf, r.events⟩
    else pure ⟨.reservationFail, r.cache, mf, r.events⟩

/-- `wr_miss_no_wa`. -/
def wrMissNoWa (c : BaselineCache) (mf : MemFetch) (events : List CacheEvent) : Option Outcome :=
  if p.missQueueFull c 0 then some ⟨.reservationFail, c, mf, events⟩
  else
    let (c, events) := sendWriteRequest c mf .writeRequestSent events
    some ⟨.miss, c, mf, events⟩

/-- `m_wr_miss`, as the constructor sets it. -/
def wrMiss (c : BaselineCache) (addr : NewAddrType) (cacheIndex : ℕ) (mf : MemFetch)
    (time : UInt32) (events : List CacheEvent) : Option Outcome :=
  match p.config.writeAllocPolicy with
  | .writeAllocate => p.wrMissWa c addr cacheIndex mf time events
  | .noWriteAllocate => p.wrMissNoWa c mf events

/-- `rd_miss_base`. -/
def rdMissBase (c : BaselineCache) (addr : NewAddrType) (cacheIndex : ℕ) (mf : MemFetch)
    (time : UInt32) (events : List CacheEvent) : Option Outcome :=
  if p.missQueueFull c 1 then some ⟨.reservationFail, c, mf, events⟩
  else do
    let r ← p.sendReadRequest c (p.config.blockAddr addr) cacheIndex mf time events false false
    if r.doMiss then
      match r.evicted with
      | some evicted =>
          if p.config.writePolicy ≠ .writeThrough then
            let (wb, c) := p.allocWriteBack r.cache evicted
            let (c, events) := sendWriteRequest c wb .writeBackRequestSent r.events
            pure ⟨.miss, c, r.mf, events⟩
          else pure ⟨.miss, r.cache, r.mf, r.events⟩
      | none => pure ⟨.miss, r.cache, r.mf, r.events⟩
    else pure ⟨.reservationFail, r.cache, r.mf, r.events⟩

/-! ## Accesses -/

/-- `process_tag_probe`, up to the use of the data port. -/
def dispatch (c : BaselineCache) (probeStatus : TagParams.ProbeResult) (addr : NewAddrType)
    (mf : MemFetch) (time : UInt32) (events : List CacheEvent) : Option Outcome :=
  match probeStatus with
  | .hit idx =>
      if mf.isWrite then p.wrHit c addr idx mf time events else p.rdHitBase c addr idx mf time events
  | .hitReserved idx | .miss idx _ =>
      if mf.isWrite then p.wrMiss c addr idx mf time events
      else p.rdMissBase c addr idx mf time events
  | .reservationFail => some ⟨.reservationFail, c, mf, events⟩

/-- `data_cache::access`. -/
def dataAccess (c : BaselineCache) (addr : NewAddrType) (mf : MemFetch) (time : UInt32)
    (events : List CacheEvent) : Option Outcome := do
  guard (mf.dataSize ≤ p.config.lineSz.toNat)
  let probeStatus ← p.probe c.tagArray.lines (p.config.blockAddr addr) 0
  let o ← p.dispatch c probeStatus addr mf time events
  pure { o with cache := p.useDataPort o.cache o.mf o.status o.events }

/-- `read_only_cache::access`. -/
def readOnlyAccess (c : BaselineCache) (addr : NewAddrType) (mf : MemFetch) (time : UInt32)
    (events : List CacheEvent) : Option Outcome := do
  guard (mf.dataSize ≤ p.config.lineSz.toNat)
  guard (p.config.writePolicy = .readOnly)
  guard (mf.isWrite = false)
  let blockAddr := p.config.blockAddr addr
  let probeStatus ← p.probe c.tagArray.lines blockAddr 0
  match probeStatus with
  | .hit _ =>
      let (result, tagArray) ← p.accessNoWb c.tagArray blockAddr time
      pure ⟨result.status, { c with tagArray }, mf, events⟩
  | .hitReserved idx | .miss idx _ =>
      if p.missQueueFull c 0 then pure ⟨.reservationFail, c, mf, events⟩
      else do
        let r ← p.sendReadRequest c blockAddr idx mf time events true false
        pure ⟨if r.doMiss then .miss else .reservationFail, r.cache, r.mf, r.events⟩
  | .reservationFail => pure ⟨.reservationFail, c, mf, events⟩

/-! ## Responses -/

/-- The size and the compression mark that `baseline_cache::fill` gives to a compressed L1 data
cache: a local access is not compressed, and a global one needs a compression result. -/
def fillSize (mf : MemFetch) : Option (ℕ × ℕ) :=
  if mf.accessType = .localAccR then some (mf.dataSize, 0)
  else if mf.accessType = .globalAccR ∧ 0 < mf.compDataBits then
    let bits := mf.compDataBits.toNat
    some ((bits + 7) / 8, if mf.dataSize * 8 < bits then 0 else 1)
  else none

/-- The tag array after the response `mf`. -/
def fillTags (t : TagArray) (fields : ExtraMfFields) (mf : MemFetch) (time : UInt32) :
    Option TagArray :=
  match p.config.allocPolicy with
  | .onMiss => p.fillIdx t fields.cacheIndex time
  | .onFill =>
      if p.comp.hpclCacheCompEn = 0 ∨ ¬ p.isL1D then p.fillAddr t fields.blockAddr time 0 0
      else do
        let (dataSize, compressed) ← fillSize mf
        p.fillAddr t fields.blockAddr time dataSize compressed

/-- `baseline_cache::fill`, with the request it returns to its old size. -/
def fill (c : BaselineCache) (mf : MemFetch) (time : UInt32) : Option (BaselineCache × MemFetch) := do
  let fields ← c.extraMfFields.lookup mf.requestUid
  let mf := { mf with dataSize := fields.dataSize }
  let tagArray ← p.fillTags c.tagArray fields mf time
  let (mshrs, hasAtomic) ← c.mshrs.markReady fields.blockAddr
  let tagArray ←
    if hasAtomic then
      if p.config.allocPolicy = .onMiss then some (setStatus tagArray fields.cacheIndex .modified)
      else none
    else some tagArray
  let extraMfFields := c.extraMfFields.erase mf.requestUid
  pure (p.useFillPort { c with tagArray, mshrs, extraMfFields }, mf)

/-- `cycle`: the memory port (with request coalescing, the coalescing buffer) takes the next request
or is full; the ports advance. -/
def cycle (c : BaselineCache) (portFull : Bool) : BaselineCache × Option MemFetch :=
  let c' := { c with
    dataPortOccupiedCycles := c.dataPortOccupiedCycles - 1
    fillPortOccupiedCycles := c.fillPortOccupiedCycles - 1 }
  match c.missQueue with
  | mf :: missQueue => if portFull then (c', none) else ({ c' with missQueue }, some mf)
  | [] => (c', none)

/-- `next_access`. -/
def nextAccess (c : BaselineCache) : Option (MemFetch × BaselineCache) :=
  c.mshrs.nextAccess.map fun r => (r.1, { c with mshrs := r.2 })

end CacheParams

/-! ## Texture caches -/

/-- `fifo`: a ring of `size` places. -/
structure Fifo (α : Type) where
  size : ℕ
  head : ℕ := 0
  tail : ℕ := 0
  num : ℕ := 0
  data : ℕ → Option α := fun _ => none

namespace Fifo

variable {α : Type} (q : Fifo α)

/-- `full`. -/
def full : Bool := q.num == q.size

/-- `empty`. -/
def empty : Bool := q.num == 0

/-- `push`, with the place of the new element. -/
def push (e : α) : Option (ℕ × Fifo α) :=
  if q.full then none
  else some (q.head, { q with
    data := Function.update q.data q.head (some e)
    head := (q.head + 1) % q.size
    num := q.num + 1 })

/-- `pop`. -/
def pop : Option (α × Fifo α) :=
  if q.empty then none
  else (q.data q.tail).map fun e => (e, { q with tail := (q.tail + 1) % q.size, num := q.num - 1 })

/-- `peek` at an index. -/
def peek (index : ℕ) : Option α := if index < q.size then q.data index else none

end Fifo

/-- `fragment_entry`. -/
structure FragmentEntry where
  request : MemFetch
  cacheIndex : ℕ
  miss : Bool
  dataSize : ℕ

/-- `rob_entry`. -/
structure RobEntry where
  ready : Bool
  time : UInt32
  index : ℕ
  request : MemFetch
  blockAddr : NewAddrType

/-- `data_block`. -/
structure DataBlock where
  valid : Bool := false
  blockAddr : NewAddrType := 0

/-- `tex_cache`; its `extra_mf_fields` are places in the reorder buffer. -/
structure TexCache where
  tags : TagArray
  fragmentFifo : Fifo FragmentEntry
  requestFifo : Fifo MemFetch
  rob : Fifo RobEntry
  cache : ℕ → DataBlock := fun _ => {}
  resultFifo : Fifo MemFetch
  extraMfFields : AList fun _ : ℕ => ℕ := ∅

/-- What an access to a texture cache leaves behind. -/
structure TexOutcome where
  status : CacheRequestStatus
  cache : TexCache
  mf : MemFetch
  events : List CacheEvent

namespace TagParams

variable (p : TagParams)

/-- The constructor of `tex_cache`. -/
def newTexCache : Option TexCache := do
  let tags ← p.newArray
  guard (p.config.mshrType = .texFifo ∧ p.config.writePolicy = .readOnly ∧
    p.config.allocPolicy = .onMiss)
  pure
    { tags, fragmentFifo := { size := p.config.mshrEntries },
      requestFifo := { size := p.config.mshrMaxMerge }, rob := { size := p.config.missQueueSize },
      resultFifo := { size := p.config.resultFifoEntries } }

/-- `tex_cache::access`. -/
def texAccess (c : TexCache) (addr : NewAddrType) (mf : MemFetch) (time : UInt32)
    (events : List CacheEvent) : Option TexOutcome :=
  if c.fragmentFifo.full ∨ c.requestFifo.full ∨ c.rob.full then
    some ⟨.reservationFail, c, mf, events⟩
  else do
    guard (mf.dataSize ≤ p.config.lineSz.toNat)
    let blockAddr := p.config.blockAddr addr
    let (result, tags) ← p.accessNoWb c.tags blockAddr time
    match result with
    | .miss idx _ =>
        let (_, fragmentFifo) ← c.fragmentFifo.push ⟨mf, idx, true, mf.dataSize⟩
        let (robIndex, rob) ← c.rob.push ⟨false, 0, idx, mf, blockAddr⟩
        let extraMfFields := c.extraMfFields.insert mf.requestUid robIndex
        let mf := { mf with dataSize := p.config.lineSz.toNat }
        let tags ← p.fillIdx tags idx time
        let (_, requestFifo) ← c.requestFifo.push mf
        pure ⟨.miss, { c with tags, fragmentFifo, rob, extraMfFields, requestFifo }, mf,
          events ++ [.readRequestSent]⟩
    | .hit idx =>
        let (_, fragmentFifo) ← c.fragmentFifo.push ⟨mf, idx, false, mf.dataSize⟩
        pure ⟨.hitReserved, { c with tags, fragmentFifo }, mf, events⟩
    | _ => none

/-- `tex_cache::fill`. -/
def texFill (c : TexCache) (mf : MemFetch) (time : UInt32) : Option TexCache := do
  let robIndex ← c.extraMfFields.lookup mf.requestUid
  guard (c.rob.empty = false)
  let r ← c.rob.peek robIndex
  guard (r.ready = false)
  guard (r.blockAddr = p.config.blockAddr mf.addr)
  let rob := { c.rob with
    data := Function.update c.rob.data robIndex (some { r with ready := true, time }) }
  pure { c with rob }

/-- The first part of `tex_cache::cycle`: the memory port takes the next request or is full. -/
def texSend (c : TexCache) (portFull : Bool) : Option (TexCache × Option MemFetch) :=
  if c.requestFifo.empty ∨ portFull then some (c, none)
  else c.requestFifo.pop.map fun r => ({ c with requestFifo := r.2 }, some r.1)

/-- The second part of `tex_cache::cycle`: the oldest access goes to the results when its data is
there. -/
def texRead (c : TexCache) : Option TexCache :=
  if c.fragmentFifo.empty ∨ c.resultFifo.full then some c
  else do
    let e ← c.fragmentFifo.peek c.fragmentFifo.tail
    if e.miss then
      let r ← c.rob.peek c.rob.tail
      guard (r.request.requestUid = e.request.requestUid)
      guard (r.blockAddr = p.config.blockAddr e.request.addr)
      if r.ready then
        guard (r.index = e.cacheIndex)
        let (_, resultFifo) ← c.resultFifo.push e.request
        let (_, rob) ← c.rob.pop
        let (_, fragmentFifo) ← c.fragmentFifo.pop
        pure { c with
          cache := Function.update c.cache r.index ⟨true, r.blockAddr⟩, resultFifo, rob,
          fragmentFifo }
      else pure c
    else
      guard (c.cache e.cacheIndex).valid
      guard ((c.cache e.cacheIndex).blockAddr = p.config.blockAddr e.request.addr)
      let (_, resultFifo) ← c.resultFifo.push e.request
      let (_, fragmentFifo) ← c.fragmentFifo.pop
      pure { c with resultFifo, fragmentFifo }

/-- `tex_cache::cycle`. -/
def texCycle (c : TexCache) (portFull : Bool) : Option (TexCache × Option MemFetch) := do
  let (c, sent) ← texSend c portFull
  let c ← p.texRead c
  pure (c, sent)

end TagParams

end CompressionWork.Cache
