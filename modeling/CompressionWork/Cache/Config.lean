import Mathlib.Data.Nat.Bits
import Mathlib.Data.Option.Basic
import Mathlib.Tactic.Common

/-!
# Cache configurations

The model of `cache_config` and its subclasses in `gpu-cache.h` and `gpu-cache.cc`, and of the
options of `hpcl_comp_config` that the tag array reads.

* `CacheConfig.init` — the tokens scanned from a configuration string, or a parse error.
* `CacheConfig.tag`, `CacheConfig.blockAddr` — the line of an address; the mask is built in 32
  bits and then widened.
* `CacheConfig.setIndex` — the virtual function of the three configuration classes.

`none` stands for `abort`, a failed assertion, or the exit after a parse error.
-/

namespace CompressionWork.Cache

/-- `new_addr_type`. -/
abbrev NewAddrType := UInt64

/-! ## Policies -/

/-- `replacement_policy_t`. -/
inductive ReplacementPolicy
  | lru
  | fifo
  deriving DecidableEq

/-- `write_policy_t`. -/
inductive WritePolicy
  | readOnly
  | writeBack
  | writeThrough
  | writeEvict
  | localWbGlobalWt
  deriving DecidableEq

/-- `allocation_policy_t`. -/
inductive AllocationPolicy
  | onMiss
  | onFill
  deriving DecidableEq

/-- `write_allocate_policy_t`. -/
inductive WriteAllocatePolicy
  | noWriteAllocate
  | writeAllocate
  deriving DecidableEq

/-- `mshr_config_t`. -/
inductive MshrConfig
  | texFifo
  | assoc
  deriving DecidableEq

/-- `set_index_function`. -/
inductive SetIndexFunction
  | fermiHash
  | linear
  | custom
  deriving DecidableEq

/-- The classes with their own `set_index`: `cache_config`, `l1d_cache_config`, and
`l2_cache_config` with the `partition_address` of its address mapping, when there is one. -/
inductive ConfigClass
  | base
  | l1d
  | l2 (partitionAddress : Option (NewAddrType → NewAddrType))

/-! ## The configuration -/

/-- `cache_config`.  The three unions hold the sizes of the texture cache under the names of
the MSHR table: `mshrEntries` is also `m_fragment_fifo_entries`, `mshrMaxMerge` is
`m_request_fifo_entries` and `missQueueSize` is `m_rob_entries`. -/
structure CacheConfig where
  cls : ConfigClass
  nset : ℕ
  lineSz : UInt32
  assoc : ℕ
  replacementPolicy : ReplacementPolicy
  writePolicy : WritePolicy
  allocPolicy : AllocationPolicy
  writeAllocPolicy : WriteAllocatePolicy
  mshrType : MshrConfig
  mshrEntries : ℕ
  mshrMaxMerge : ℕ
  missQueueSize : ℕ
  resultFifoEntries : ℕ
  dataPortWidth : ℕ
  setIndexFunction : SetIndexFunction

/-- What `sscanf` reads from a configuration string; a width that is not there stays 0. -/
structure ConfigTokens where
  nset : ℕ
  lineSz : UInt32
  assoc : ℕ
  rp : Char
  wp : Char
  ap : Char
  wap : Char
  sif : Char
  mshrType : Char
  mshrEntries : ℕ
  mshrMaxMerge : ℕ
  missQueueSize : ℕ
  resultFifoEntries : ℕ
  dataPortWidth : ℕ

/-- The letter of the replacement policy, in `cache_config::init`. -/
def parseReplacementPolicy : Char → Option ReplacementPolicy
  | 'L' => some .lru
  | 'F' => some .fifo
  | _ => none

/-- The letter of the write policy. -/
def parseWritePolicy : Char → Option WritePolicy
  | 'R' => some .readOnly
  | 'B' => some .writeBack
  | 'T' => some .writeThrough
  | 'E' => some .writeEvict
  | 'L' => some .localWbGlobalWt
  | _ => none

/-- The letter of the allocation policy. -/
def parseAllocPolicy : Char → Option AllocationPolicy
  | 'm' => some .onMiss
  | 'f' => some .onFill
  | _ => none

/-- The texture form of the MSHR field needs thirteen tokens. -/
def parseMshrType (ntok : ℕ) : Char → Option MshrConfig
  | 'F' => if ntok = 13 then some .texFifo else none
  | 'A' => some .assoc
  | _ => none

/-- The letter of the write-allocate policy. -/
def parseWriteAllocPolicy : Char → Option WriteAllocatePolicy
  | 'W' => some .writeAllocate
  | 'N' => some .noWriteAllocate
  | _ => none

/-- The letter of the set index function. -/
def parseSetIndexFunction : Char → Option SetIndexFunction
  | 'H' => some .fermiHash
  | 'C' => some .custom
  | 'L' => some .linear
  | _ => none

/-- `init` for a configuration string with `ntok` tokens.  The string `"none"` disables the
cache, so no cache object uses the configuration; it is not a configuration here. -/
def CacheConfig.init (cls : ConfigClass) (ntok : ℕ) (t : ConfigTokens) : Option CacheConfig := do
  guard (11 ≤ ntok)
  let replacementPolicy ← parseReplacementPolicy t.rp
  let writePolicy ← parseWritePolicy t.wp
  let allocPolicy ← parseAllocPolicy t.ap
  let mshrType ← parseMshrType ntok t.mshrType
  let writeAllocPolicy ← parseWriteAllocPolicy t.wap
  guard ¬ (allocPolicy = .onFill ∧ writePolicy = .writeBack)
  let dataPortWidth := if t.dataPortWidth = 0 then t.lineSz.toNat else t.dataPortWidth
  -- the remainder of a line of size 0 is a division by zero
  guard (dataPortWidth ≠ 0 ∧ t.lineSz.toNat % dataPortWidth = 0)
  let setIndexFunction ← parseSetIndexFunction t.sif
  pure
    { cls, nset := t.nset, lineSz := t.lineSz, assoc := t.assoc, replacementPolicy, writePolicy,
      allocPolicy, writeAllocPolicy, mshrType, mshrEntries := t.mshrEntries,
      mshrMaxMerge := t.mshrMaxMerge, missQueueSize := t.missQueueSize,
      resultFifoEntries := t.resultFifoEntries, dataPortWidth, setIndexFunction }

namespace CacheConfig

variable (cfg : CacheConfig)

/-- `get_num_lines`. -/
def getNumLines : ℕ := cfg.nset * cfg.assoc

/-- `tag`: the same as the block address. -/
def tag (addr : NewAddrType) : NewAddrType := addr &&& (~~~(cfg.lineSz - 1)).toUInt64

/-- `block_addr`. -/
def blockAddr (addr : NewAddrType) : NewAddrType := addr &&& (~~~(cfg.lineSz - 1)).toUInt64

/-- `m_line_sz_log2`. -/
def lineSzLog2 : ℕ := cfg.lineSz.toNat.log2

/-- The linear set index. -/
def linearIndex (addr : NewAddrType) : ℕ :=
  (addr.toNat >>> cfg.lineSzLog2) &&& (cfg.nset - 1)

/-- The hashed set index of the L1 data cache: bits 7 to 11 against bits 13, 14, 15, 17 and 19;
with 64 sets bit 12 comes on top. -/
def fermiHashIndex (addr : NewAddrType) : Option ℕ :=
  if cfg.nset = 32 ∨ cfg.nset = 64 then
    let lowerXor := (addr.toNat >>> cfg.lineSzLog2) &&& 0x1F
    let upperXor := ((addr.toNat &&& 0xE000) >>> 13) ||| ((addr.toNat &&& 0x20000) >>> 14) |||
      ((addr.toNat &&& 0x80000) >>> 15)
    let setIndex := lowerXor ^^^ upperXor
    some (if cfg.nset = 64 then setIndex ||| ((addr.toNat &&& 0x1000) >>> 7) else setIndex)
  else none

/-- The `switch` in the `set_index` of the L1 data cache; the index starts as `m_nset`. -/
def l1dIndex (addr : NewAddrType) : Option ℕ :=
  match cfg.setIndexFunction with
  | .fermiHash => cfg.fermiHashIndex addr
  | .custom => some cfg.nset
  | .linear => some (cfg.linearIndex addr)

/-- `set_index`. -/
def setIndex (addr : NewAddrType) : Option ℕ :=
  match cfg.cls with
  | .base => if cfg.setIndexFunction = .linear then some (cfg.linearIndex addr) else none
  | .l1d => do
      let index ← cfg.l1dIndex addr
      guard (index < cfg.nset)
      pure index
  | .l2 none => some (cfg.linearIndex addr)
  | .l2 (some partitionAddress) => some (cfg.linearIndex (partitionAddress addr))

theorem blockAddr_blockAddr (addr : NewAddrType) :
    cfg.blockAddr (cfg.blockAddr addr) = cfg.blockAddr addr := by
  rw [blockAddr, blockAddr, UInt64.and_assoc, UInt64.and_self]

theorem linearIndex_lt (h : 0 < cfg.nset) (addr : NewAddrType) : cfg.linearIndex addr < cfg.nset := by
  have hle : cfg.linearIndex addr ≤ cfg.nset - 1 := Nat.and_le_right
  omega

/-- A set index is the number of a set. -/
theorem setIndex_lt (h : 0 < cfg.nset) {addr : NewAddrType} {index : ℕ}
    (hindex : cfg.setIndex addr = some index) : index < cfg.nset := by
  unfold setIndex at hindex
  cases hcls : cfg.cls with
  | base =>
      rw [hcls] at hindex
      by_cases hlin : cfg.setIndexFunction = .linear
      · simp only [if_pos hlin, Option.some.injEq] at hindex
        rw [← hindex]
        exact cfg.linearIndex_lt h addr
      · simp [if_neg hlin] at hindex
  | l1d =>
      simp only [hcls, Option.bind_eq_bind, Option.bind_eq_some_iff, Option.guard_eq_some',
        Option.pure_def, Option.some.injEq, exists_const] at hindex
      obtain ⟨_, -, hlt, rfl⟩ := hindex
      exact hlt
  | l2 mapping =>
      cases mapping <;> simp only [hcls, Option.some.injEq] at hindex <;> rw [← hindex] <;>
        exact cfg.linearIndex_lt h _

end CacheConfig

/-- Write-back caches allocate on a miss. -/
theorem allocPolicy_of_init {cls : ConfigClass} {ntok : ℕ} {t : ConfigTokens} {cfg : CacheConfig}
    (h : CacheConfig.init cls ntok t = some cfg) (hwb : cfg.writePolicy = .writeBack) :
    cfg.allocPolicy = .onMiss := by
  simp only [CacheConfig.init, Option.bind_eq_bind, Option.bind_eq_some_iff, Option.guard_eq_some',
    Option.pure_def, Option.some.injEq, exists_const] at h
  obtain ⟨-, _, -, _, -, allocPolicy, -, _, -, _, -, hnot, -, _, -, rfl⟩ := h
  cases allocPolicy with
  | onMiss => rfl
  | onFill => exact absurd ⟨rfl, hwb⟩ hnot

/-! ## Options of the compression framework -/

/-- The options of `hpcl_comp_config` for the compressed L1 data cache. -/
structure HpclCompConfig where
  hpclCacheCompEn : ℕ
  hpclCompTagSizeMultiplier : ℕ
  hpclCompCacheSegmentSize : ℕ

end CompressionWork.Cache
