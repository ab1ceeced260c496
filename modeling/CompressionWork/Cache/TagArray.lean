import CompressionWork.Cache.Config
import Mathlib.Data.Int.Notation
import Mathlib.Data.List.Basic
import Mathlib.Data.Nat.Notation
import Mathlib.Logic.Function.Basic

/-!
# Tag arrays: the model

The model of `cache_block_t` and `tag_array`, with the segmented layout that a compressed L1 data
cache gives to the lines of a set: a line occupies the segments from `startSegIdx` to `endSegIdx`,
and the ways of a set lie one behind the other, way 0 last.

* `probe` — the search for a hit, and for the line a miss would replace.
* `doMultiLineEviction` — the neighbours that have to go when one line is too short.
* `access`, `fillAddr`, `fillIdx`, `flush` — the operations that change the array.

`m_lines` is a function here, since nothing asks for its size; indices past its end come up only in
the eviction loop, whose fuel is the number of lines that the constructor allocates.  Segment
numbers are natural numbers, and their differences (`int` in the source) are integers.
-/

namespace CompressionWork.Cache

/-! ## Blocks -/

/-- `cache_block_state`. -/
inductive CacheBlockState
  | invalid
  | reserved
  | valid
  | modified
  deriving DecidableEq

/-- `cache_request_status`. -/
inductive CacheRequestStatus
  | hit
  | hitReserved
  | miss
  | reservationFail
  deriving DecidableEq

/-- `cache_block_t`. -/
structure CacheBlock where
  tag : NewAddrType := 0
  blockAddr : NewAddrType := 0
  allocTime : UInt32 := 0
  lastAccessTime : UInt32 := 0
  fillTime : UInt32 := 0
  status : CacheBlockState := .invalid
  startSegIdx : ℕ := 0
  endSegIdx : ℕ := 0
  compressed : ℕ := 0
  deriving DecidableEq

/-- `allocate`; the segments default to 0. -/
def CacheBlock.allocate (_ : CacheBlock) (tag blockAddr : NewAddrType) (time : UInt32)
    (startSegIdx endSegIdx compressed : ℕ) : CacheBlock :=
  { tag, blockAddr, allocTime := time, lastAccessTime := time, fillTime := 0, status := .reserved,
    startSegIdx, endSegIdx, compressed }

/-- `fill`: only a reserved block can be filled. -/
def CacheBlock.fill (b : CacheBlock) (time : UInt32) : Option CacheBlock :=
  if b.status = .reserved then some { b with status := .valid, fillTime := time } else none

/-- `reset_comp_cache_info`. -/
def CacheBlock.resetCompCacheInfo (b : CacheBlock) (maxSegIdx : ℕ) : CacheBlock :=
  { b with startSegIdx := 0, endSegIdx := maxSegIdx, compressed := 0 }

/-- `get_avail_space`: the number of segments of a line. -/
def getAvailSpace (line : CacheBlock) : ℕ :=
  if line.startSegIdx > line.endSegIdx then 0 else line.endSegIdx - line.startSegIdx + 1

/-! ## The array -/

/-- `MAX_DEFAULT_CACHE_SIZE_MULTIBLIER`. -/
def maxDefaultCacheSizeMultiplier : ℕ := 4

/-- What a tag array refers to: its configuration, the options of the compression framework, and
whether it belongs to an L1 data cache (`m_core_id >= 0` and the normal type). -/
structure TagParams where
  config : CacheConfig
  comp : HpclCompConfig
  isL1D : Bool

/-- The lines of a tag array. -/
abbrev Lines := ℕ → CacheBlock

/-- `tag_array`: its lines and its counters. -/
structure TagArray where
  lines : Lines
  access : ℕ := 0
  miss : ℕ := 0
  pendingHit : ℕ := 0
  resFail : ℕ := 0

namespace TagParams

variable (p : TagParams)

/-- The array is segmented (`is_compressed_cache`). -/
def isCompressed : Bool := p.isL1D && p.comp.hpclCacheCompEn == 1

/-- The ways of a set: with compression there are more tags than lines of data. -/
def assocNo : ℕ :=
  if p.isCompressed then p.config.assoc * p.comp.hpclCompTagSizeMultiplier else p.config.assoc

/-- `assoc_no` in the functions for segmented arrays. -/
def tagAssocNo : ℕ := p.config.assoc * p.comp.hpclCompTagSizeMultiplier

/-- The segments of a set. -/
def maxSegNo : ℕ := p.config.assoc * 128 / p.comp.hpclCompCacheSegmentSize

/-- `max_seg_idx`. -/
def maxSegIdx : ℕ := p.maxSegNo - 1

/-- The size of `m_lines` in a segmented array. -/
def allocatedLines : ℕ := maxDefaultCacheSizeMultiplier * p.config.getNumLines * 2

/-- `get_way_idx`. -/
def getWayIdx (idx : ℕ) : ℕ := idx % p.tagAssocNo

/-- The constructor: with compression every line starts with all segments of its set. -/
def newArray : Option TagArray :=
  if p.isL1D ∧ p.comp.hpclCacheCompEn ≠ 0 then
    if 0 < p.maxSegIdx then some { lines := fun _ => { endSegIdx := p.maxSegIdx } } else none
  else some { lines := fun _ => {} }

/-! ## Eviction -/

/-- `get_neighbor_idx`: the ways above and below, as far as there are any. -/
def getNeighborIdx (idx : ℕ) : Option ℕ × Option ℕ :=
  if p.getWayIdx idx = 0 then (some (idx + 1), none)
  else if p.getWayIdx idx = p.tagAssocNo - 1 then (none, some (idx - 1))
  else (some (idx + 1), some (idx - 1))

/-- `select_evict_line_idx`.  Between two neighbours only LRU has a choice: FIFO falls through to
`return -1`, and the caller then indexes `m_lines[-1]`.  Without a neighbour an assertion fails. -/
def selectEvictLineIdx (lines : Lines) : Option ℕ → Option ℕ → Option ℕ
  | some topIdx, some botIdx =>
      if p.config.replacementPolicy = .lru then
        if (lines topIdx).lastAccessTime < (lines botIdx).lastAccessTime then some topIdx
        else some botIdx
      else none
  | some topIdx, none => some topIdx
  | none, some botIdx => some botIdx
  | none, none => none

/-- The segments behind a last line that does not reach the end of the set. -/
def tailSpace (lines : Lines) (idx : ℕ) : ℕ :=
  if p.getWayIdx idx = 0 ∧ (lines idx).startSegIdx ≤ (lines idx).endSegIdx ∧
      (lines idx).endSegIdx < p.maxSegIdx then
    p.maxSegIdx - (lines idx).endSegIdx
  else 0

/-- Insert an index into a descending list. -/
def insertEvict (line : ℕ) : List ℕ → List ℕ
  | [] => [line]
  | i :: rest => if i < line then line :: i :: rest else i :: insertEvict line rest

/-- The locals of the loop in `do_multi_line_eviction`. -/
structure Eviction where
  availSegNo : ℕ
  maxIdx : ℕ
  minIdx : ℕ
  isLastSegUsed : Bool
  evictLineIdx : List ℕ

/-- One round of the loop: the next line to evict joins.  Lines that end at the last segment are
counted once, since several tags may point to the same free segments. -/
def addEvictLine (lines : Lines) (e : Eviction) (evictLine : ℕ) : Eviction :=
  let line := lines evictLine
  let counted := e.isLastSegUsed = true ∧ line.endSegIdx = p.maxSegIdx
  { availSegNo := e.availSegNo + (if counted then 0 else getAvailSpace line) +
      p.tailSpace lines evictLine
    maxIdx := max e.maxIdx evictLine
    minIdx := min e.minIdx evictLine
    isLastSegUsed := e.isLastSegUsed || line.endSegIdx == p.maxSegIdx
    evictLineIdx := insertEvict evictLine e.evictLineIdx }

/-- The loop of `do_multi_line_eviction`.  Every round moves on to a line outside the ones
visited; without fuel it has left the array. -/
def evictLoop (lines : Lines) (segNo : ℕ) : ℕ → Eviction → Option Eviction
  | fuel, e =>
      if segNo ≤ e.availSegNo then some e
      else
        match fuel with
        | 0 => none
        | fuel + 1 => do
            let evictLine ← p.selectEvictLineIdx lines (p.getNeighborIdx e.maxIdx).1
              (p.getNeighborIdx e.minIdx).2
            evictLoop lines segNo fuel (p.addEvictLine lines e evictLine)

/-- The locals of `do_multi_line_eviction` before the loop. -/
def startEviction (lines : Lines) (cacheLine : ℕ) : Eviction where
  availSegNo := getAvailSpace (lines cacheLine) + p.tailSpace lines cacheLine
  maxIdx := cacheLine
  minIdx := cacheLine
  isLastSegUsed := (lines cacheLine).endSegIdx == p.maxSegIdx
  evictLineIdx := [cacheLine]

/-- `do_multi_line_eviction`: the line to use and the other ones to evict, in descending order. -/
def doMultiLineEviction (lines : Lines) (cacheLine segNo : ℕ) : Option (ℕ × List ℕ) :=
  (p.evictLoop lines segNo p.allocatedLines (p.startEviction lines cacheLine)).map fun e =>
    (e.maxIdx, e.evictLineIdx.erase e.maxIdx)

/-! ## The search for a line -/

/-- The locals of `probe`; `none` stands for `(unsigned)-1`. -/
structure Candidates where
  invalidLine : Option ℕ := none
  validLine : Option ℕ := none
  validTimestamp : UInt32 := 0xFFFFFFFF
  allReserved : Bool := true
  invalidLineWithAvailSpace : Option ℕ := none
  validLineWithAvailSpace : Option ℕ := none

/-- The time the replacement policy goes by. -/
def stamp (line : CacheBlock) : UInt32 :=
  match p.config.replacementPolicy with
  | .lru => line.lastAccessTime
  | .fifo => line.allocTime

/-- What `probe` notes about a line that does not hold the tag. -/
def noteLine (lines : Lines) (segNo : ℕ) (c : Candidates) (index : ℕ) : Candidates :=
  let line := lines index
  if line.status = .reserved then c
  else if line.status = .invalid then
    if p.isCompressed ∧ segNo ≤ getAvailSpace line then
      { c with allReserved := false, invalidLineWithAvailSpace := some index }
    else { c with allReserved := false, invalidLine := some index }
  else if p.stamp line < c.validTimestamp then
    if p.isCompressed then
      -- FIFO also continues with the time of the last access
      if segNo ≤ getAvailSpace line then
        { c with allReserved := false, validLineWithAvailSpace := some index,
                 validTimestamp := line.lastAccessTime }
      else
        { c with allReserved := false, validLine := some index,
                 validTimestamp := line.lastAccessTime }
    else { c with allReserved := false, validLine := some index, validTimestamp := p.stamp line }
  else { c with allReserved := false }

/-- What `probe` returns in its result and its reference parameters. -/
inductive ProbeResult
  | hit (idx : ℕ)
  | hitReserved (idx : ℕ)
  | miss (idx : ℕ) (evictLineIdx : List ℕ)
  | reservationFail

/-- The status that `probe` returns. -/
def ProbeResult.status : ProbeResult → CacheRequestStatus
  | hit _ => .hit
  | hitReserved _ => .hitReserved
  | miss _ _ => .miss
  | reservationFail => .reservationFail

/-- The loop of `probe` over the ways of a set: a hit, or the candidates for a replacement. -/
def probeLoop (lines : Lines) (tag : NewAddrType) (segNo : ℕ) :
    List ℕ → Candidates → ProbeResult ⊕ Candidates
  | [], c => .inr c
  | index :: rest, c =>
      if (lines index).tag = tag ∧ (lines index).status = .reserved then .inl (.hitReserved index)
      else if (lines index).tag = tag ∧ (lines index).status ≠ .invalid then .inl (.hit index)
      else probeLoop lines tag segNo rest (p.noteLine lines segNo c index)

/-- The choice among the candidates at the end of `probe`. -/
def chooseLine (lines : Lines) (segNo : ℕ) (c : Candidates) : Option ProbeResult :=
  if c.allReserved then
    if p.config.allocPolicy = .onMiss then some .reservationFail else none
  else if p.isCompressed then
    match c.invalidLineWithAvailSpace, c.validLineWithAvailSpace, c.invalidLine, c.validLine with
    | some idx, _, _, _ => some (.miss idx [])
    | none, some idx, _, _ => some (.miss idx [])
    | none, none, some idx, _ =>
        (p.doMultiLineEviction lines idx segNo).map fun r => .miss r.1 r.2
    | none, none, none, some idx =>
        (p.doMultiLineEviction lines idx segNo).map fun r => .miss r.1 r.2
    | none, none, none, none => none
  else
    match c.invalidLine, c.validLine with
    | some idx, _ => some (.miss idx [])
    | none, some idx => some (.miss idx [])
    | none, none => none

/-- The lines of a set, in the order of the ways. -/
def setLines (setIndex : ℕ) : List ℕ :=
  (List.range p.assocNo).map fun way => setIndex * p.assocNo + way

/-- `probe`; `access` leaves out the number of segments, which is then 0. -/
def probe (lines : Lines) (addr : NewAddrType) (segNo : ℕ) : Option ProbeResult := do
  let setIndex ← p.config.setIndex addr
  match p.probeLoop lines (p.config.tag addr) segNo (p.setLines setIndex) {} with
  | .inl result => some result
  | .inr c => p.chooseLine lines segNo c

/-! ## Accesses -/

/-- `access`: the result of the probe, the evicted block when a write-back is needed, and the
array after the access. -/
def access (t : TagArray) (addr : NewAddrType) (time : UInt32) :
    Option (ProbeResult × Option CacheBlock × TagArray) := do
  let result ← p.probe t.lines addr 0
  let t := { t with access := t.access + 1 }
  match result with
  | .hitReserved idx =>
      pure (result, none,
        { t with pendingHit := t.pendingHit + 1,
                 lines := Function.update t.lines idx
                   { t.lines idx with lastAccessTime := time } })
  | .hit idx =>
      pure (result, none,
        { t with lines := Function.update t.lines idx
                   { t.lines idx with lastAccessTime := time } })
  | .miss idx _ =>
      let t := { t with miss := t.miss + 1 }
      if p.config.allocPolicy = .onMiss then
        let evicted := if (t.lines idx).status = .modified then some (t.lines idx) else none
        let block := (t.lines idx).allocate (p.config.tag addr) (p.config.blockAddr addr) time 0 0 0
        pure (result, evicted, { t with lines := Function.update t.lines idx block })
      else pure (result, none, t)
  | .reservationFail => pure (result, none, { t with resFail := t.resFail + 1 })

/-- `access` for callers that do not expect a write-back. -/
def accessNoWb (t : TagArray) (addr : NewAddrType) (time : UInt32) :
    Option (ProbeResult × TagArray) := do
  let (result, evicted, t) ← p.access t addr time
  guard (evicted = none)
  pure (result, t)

/-! ## Fills -/

/-- The number of segments of a compressed line. -/
def segNo (compressedDataSize : ℕ) : ℕ :=
  (compressedDataSize + p.comp.hpclCompCacheSegmentSize - 1) / p.comp.hpclCompCacheSegmentSize

/-- The last segment the new line may use: that of the last evicted line (of the line itself, when
no other one goes), or of the set when that is the last way. -/
def lastSegIdx (lines : Lines) (idx : ℕ) (evictIdx : List ℕ) : ℕ :=
  let last := evictIdx.getLastD idx
  if p.getWayIdx last = 0 then p.maxSegIdx else (lines last).endSegIdx

/-- The end of the new line: as many segments as it needs.  (For no segments at the start of
the set `nec_end_seg_idx` is -1, which compares as a large `unsigned`.) -/
def newEndSegIdx (startSegIdx endSegIdx segNo : ℕ) : ℕ :=
  if 0 < startSegIdx + segNo ∧ startSegIdx + segNo - 1 < endSegIdx then startSegIdx + segNo - 1
  else endSegIdx

/-- The line behind `idx - i + 1` after the one in front of it has changed, in the compact case.
(The inner test for the last segment repeats the outer one.) -/
def compactStep (lines : Lines) (idx : ℕ) (i : ℕ) : Option Lines :=
  let front := lines (idx - i + 1)
  let line := lines (idx - i)
  if front.endSegIdx = p.maxSegIdx then
    if line.endSegIdx = p.maxSegIdx then
      some (Function.update lines (idx - i) { line with startSegIdx := p.maxSegIdx + 1 })
    else none
  else
    let offset : ℤ := line.endSegIdx - line.startSegIdx
    let startSegIdx := front.endSegIdx + 1
    let endSegIdx :=
      if line.endSegIdx = p.maxSegIdx then line.endSegIdx else (startSegIdx + offset).toNat
    some (Function.update lines (idx - i) { line with startSegIdx, endSegIdx })

/-- The compact case: the lines behind `idx` move up to it. -/
def compact (lines : Lines) (idx : ℕ) : Option Lines :=
  (List.range' 1 (p.getWayIdx idx)).foldlM (fun lines i => p.compactStep lines idx i) lines

/-- A line moved by `shiftOffset` ways to the segment `updateSegIdx`, in the shift case, and the
segment behind it. -/
def shiftStep (shiftOffset : ℕ) (s : Lines × ℤ) (i : ℕ) : Lines × ℤ :=
  let line := s.1 i
  if p.maxSegIdx < s.2 then
    (Function.update s.1 (i + shiftOffset)
      { line with startSegIdx := p.maxSegIdx + 1, endSegIdx := p.maxSegIdx }, s.2)
  else
    let lastSegIdx : ℤ := s.2 + ((line.endSegIdx : ℤ) - line.startSegIdx)
    if p.maxSegIdx < lastSegIdx then
      (Function.update s.1 (i + shiftOffset)
        { line with startSegIdx := s.2.toNat, endSegIdx := p.maxSegIdx }, lastSegIdx)
    else
      (Function.update s.1 (i + shiftOffset)
        { line with startSegIdx := s.2.toNat, endSegIdx := lastSegIdx.toNat }, lastSegIdx + 1)

/-- A way that the shift has freed: it gets the segments that are left. -/
def freeStep (updateSegIdx : ℤ) (lines : Lines) (i : ℕ) : Lines :=
  Function.update lines i
    { lines i with
      startSegIdx := if p.maxSegIdx < updateSegIdx then p.maxSegIdx + 1 else updateSegIdx.toNat
      endSegIdx := p.maxSegIdx
      status := .invalid }

/-- The shift case: the lines behind the evicted ones move up by as many ways, and the last ways
of the set become free. -/
def shift (lines : Lines) (idx endSegIdx shiftOffset : ℕ) : Lines :=
  let lastWayIdx := idx - p.getWayIdx idx
  -- from `idx - shift_offset - 1` down to the last way
  let moved := (List.range (p.getWayIdx idx - shiftOffset)).foldl
    (fun s j => p.shiftStep shiftOffset s (idx - shiftOffset - 1 - j))
    (lines, (endSegIdx : ℤ) + 1)
  (List.range shiftOffset).foldl
    (fun lines j => p.freeStep moved.2 lines (lastWayIdx + shiftOffset - 1 - j)) moved.1

/-- The layout of a set after a fill of `idx` that evicts the lines `evictIdx` as well. -/
def fillSegments (lines : Lines) (idx : ℕ) (evictIdx : List ℕ) (addr : NewAddrType)
    (time : UInt32) (segNo compressed : ℕ) : Option Lines := do
  let startSegIdx := (lines idx).startSegIdx
  let endSegIdx := p.lastSegIdx lines idx evictIdx
  guard (startSegIdx ≤ endSegIdx)
  guard (segNo ≤ endSegIdx - startSegIdx + 1)
  let endSegIdx := newEndSegIdx startSegIdx endSegIdx segNo
  let block := (lines idx).allocate (p.config.tag addr) (p.config.blockAddr addr) time startSegIdx
    endSegIdx compressed
  let lines := Function.update lines idx block
  if evictIdx = [] then p.compact lines idx
  else pure (p.shift lines idx endSegIdx evictIdx.length)

/-- `m_lines[idx].fill(time)`. -/
def fillLine (lines : Lines) (idx : ℕ) (time : UInt32) : Option Lines :=
  ((lines idx).fill time).map fun block => Function.update lines idx block

/-- `fill` of an address, for caches that allocate on a fill. -/
def fillAddr (t : TagArray) (addr : NewAddrType) (time : UInt32) (compressedDataSize compressed : ℕ) :
    Option TagArray := do
  guard (p.config.allocPolicy = .onFill)
  if p.comp.hpclCacheCompEn = 0 ∨ ¬ p.isL1D then
    match ← p.probe t.lines addr 0 with
    | .miss idx _ =>
        let block := (t.lines idx).allocate (p.config.tag addr) (p.config.blockAddr addr) time 0 0 0
        let lines ← fillLine (Function.update t.lines idx block) idx time
        pure { t with lines }
    | _ => none
  else
    match ← p.probe t.lines addr (p.segNo compressedDataSize) with
    | .miss idx evictIdx =>
        let lines ← p.fillSegments t.lines idx evictIdx addr time (p.segNo compressedDataSize)
          compressed
        let lines ← fillLine lines idx time
        pure { t with lines }
    | _ => none

/-- `fill` of an index, for caches that allocate on a miss. -/
def fillIdx (t : TagArray) (index : ℕ) (time : UInt32) : Option TagArray := do
  guard (p.config.allocPolicy = .onMiss)
  let lines ← fillLine t.lines index time
  pure { t with lines }

/-- `flush`: a segmented array clears twice the lines of its configuration. -/
def flush (t : TagArray) : TagArray :=
  if p.isL1D ∧ p.comp.hpclCacheCompEn ≠ 0 then
    { t with lines := fun i =>
        if i < p.config.getNumLines * 2 then
          { t.lines i with status := .invalid }.resetCompCacheInfo p.maxSegIdx
        else t.lines i }
  else
    { t with lines := fun i =>
        if i < p.config.getNumLines then { t.lines i with status := .invalid } else t.lines i }

end TagParams

end CompressionWork.Cache
