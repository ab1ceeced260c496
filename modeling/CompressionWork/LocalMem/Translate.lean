import Mathlib.Algebra.Order.Ring.Nat
import Mathlib.Data.Nat.Basic
import Mathlib.Tactic.Common

/-!
# Local memory in the shared address space

`shader_core_ctx::translate_local_memaddr` (`shader.cc`) gives every hardware thread its part
of one address range for the timing simulation.  The words of all threads with one local
address lie side by side, and the order of the threads is one of two mappings.

* `ShaderCore.translateLocalMemaddr` — the function; `none` is a failed assertion.
* `Launch` — the shaders of a GPU while they run one kernel; `ShaderCore.setMaxCta`.
* `Access.Ok` — an access of a hardware thread of one of the shaders to its local memory.
* `Touches` — the bytes at the translated addresses.
* `byteAddr`, `touches_iff` — the address of a local byte without the wrap around of 32 bits,
  and that these are the bytes that an access touches.
* `translate_overlap_iff` — accesses overlap exactly when they share a byte of one thread, as
  long as the whole words of all local memories fit above `LOCAL_GENERIC_START`.
-/

namespace CompressionWork.LocalMem

/-! ## The source -/

/-- `GLOBAL_HEAP_START` -/
def globalHeapStart : ℕ := 0x80000000

/-- `TOTAL_SHARED_MEM` -/
def totalSharedMem : ℕ := 64 * (64 * 1024)

/-- `TOTAL_LOCAL_MEM` -/
def totalLocalMem : ℕ := 64 * 2048 * (8 * 1024)

/-- `LOCAL_GENERIC_START` -/
def localGenericStart : ℕ := globalHeapStart - totalSharedMem - totalLocalMem

/-- `MAX_ACCESSES_PER_INSN_PER_THREAD` -/
def maxAccessesPerInsnPerThread : ℕ := 8

/-- The options in use. -/
structure Config where
  gpgpuLocalMemMap : Bool
  nThreadPerShader : ℕ
  warpSize : ℕ

/-- A shader core; `kernelMaxCtaPerShader` and `kernelPaddedThreadsPerCta` are set by
`set_max_cta`. -/
structure ShaderCore where
  config : Config
  sid : ℕ
  kernelMaxCtaPerShader : ℕ
  kernelPaddedThreadsPerCta : ℕ

/-- `set_max_cta`, from the number of CTAs that `max_cta` allows and the CTA size. -/
def ShaderCore.setMaxCta (c : ShaderCore) (maxCta gpuCtaSize : ℕ) : ShaderCore :=
  { c with
    kernelMaxCtaPerShader := maxCta
    kernelPaddedThreadsPerCta :=
      if gpuCtaSize % c.config.warpSize ≠ 0 then
        c.config.warpSize * (gpuCtaSize / c.config.warpSize + 1) % 2 ^ 32
      else gpuCtaSize }

/-- `thread_base` -/
def ShaderCore.threadBase (c : ShaderCore) (tid numShader : ℕ) : ℕ :=
  if c.config.gpgpuLocalMemMap = true then
    4 * (c.kernelPaddedThreadsPerCta * (c.sid + numShader * (tid / c.kernelPaddedThreadsPerCta)) +
      tid % c.kernelPaddedThreadsPerCta) % 2 ^ 32
  else 4 * (c.config.nThreadPerShader * c.sid + tid) % 2 ^ 32

/-- `max_concurrent_threads` -/
def ShaderCore.maxConcurrentThreads (c : ShaderCore) (numShader : ℕ) : ℕ :=
  if c.config.gpgpuLocalMemMap = true then
    c.kernelPaddedThreadsPerCta * c.kernelMaxCtaPerShader * numShader % 2 ^ 32
  else numShader * c.config.nThreadPerShader % 2 ^ 32

/-- `linear_address` -/
def ShaderCore.linearAddress (c : ShaderCore) (tid numShader localWord localWordOffset : ℕ) : ℕ :=
  (localWord * c.maxConcurrentThreads numShader * 4 + localWordOffset + c.threadBase tid numShader +
    localGenericStart) % 2 ^ 32

/-- `translate_local_memaddr`; the number it returns is the length of the list. -/
def ShaderCore.translateLocalMemaddr (c : ShaderCore) (localaddr tid numShader datasize : ℕ) :
    Option (List ℕ) :=
  if c.threadBase tid numShader < 4 * c.maxConcurrentThreads numShader % 2 ^ 32 then
    if 4 ≤ datasize then
      if datasize % 4 = 0 ∧ datasize / 4 ≤ maxAccessesPerInsnPerThread ∧ localaddr % 4 = 0 then
        some ((List.range (datasize / 4)).map fun i =>
          c.linearAddress tid numShader (localaddr / 4 + i) 0)
      else none
    else if 0 < datasize ∧ (localaddr + datasize - 1) % 2 ^ 32 / 4 = localaddr / 4 then
      some [c.linearAddress tid numShader (localaddr / 4) (localaddr % 4)]
    else none
  else none

/-! ## What may be accessed -/

/-- The shaders while they run a kernel. -/
structure Launch where
  config : Config
  numShader : ℕ
  maxCta : ℕ
  gpuCtaSize : ℕ

/-- The shader with a number. -/
def Launch.core (l : Launch) (sid : ℕ) : ShaderCore :=
  ShaderCore.setMaxCta
    { config := l.config
      sid := sid
      kernelMaxCtaPerShader := 0
      kernelPaddedThreadsPerCta := 0 } l.maxCta l.gpuCtaSize

/-- `kernel_padded_threads_per_cta` -/
def Launch.paddedCta (l : Launch) : ℕ := (l.core 0).kernelPaddedThreadsPerCta

/-- The hardware threads of a shader. -/
def Launch.hwThreads (l : Launch) : ℕ :=
  if l.config.gpgpuLocalMemMap = true then l.paddedCta * l.maxCta else l.config.nThreadPerShader

/-- The hardware threads of all shaders. -/
def Launch.concurrent (l : Launch) : ℕ := l.hwThreads * l.numShader

/-- An access to local memory. -/
structure Access where
  sid : ℕ
  tid : ℕ
  localaddr : ℕ
  datasize : ℕ

/-- A hardware thread of one of the shaders accesses its local memory. -/
structure Access.Ok (a : Access) (l : Launch) (localMemSize : ℕ) : Prop where
  sid : a.sid < l.numShader
  tid : a.tid < l.hwThreads
  bytes : a.localaddr + a.datasize ≤ localMemSize

/-- The translation of an access. -/
def Launch.translate (l : Launch) (a : Access) : Option (List ℕ) :=
  (l.core a.sid).translateLocalMemaddr a.localaddr a.tid l.numShader a.datasize

/-- The bytes that are accessed: four at each address, or fewer when there are fewer. -/
def Touches (addrs : List ℕ) (datasize b : ℕ) : Prop :=
  ∃ addr ∈ addrs, addr ≤ b ∧ b < addr + min datasize 4

/-- Two accesses have a byte in common. -/
def Overlap (addrs : List ℕ) (datasize : ℕ) (addrs' : List ℕ) (datasize' : ℕ) : Prop :=
  ∃ b, Touches addrs datasize b ∧ Touches addrs' datasize' b

/-- Two accesses are for a local byte of one thread. -/
def Access.Shares (a a' : Access) : Prop :=
  a.sid = a'.sid ∧ a.tid = a'.tid ∧ ∃ x, (a.localaddr ≤ x ∧ x < a.localaddr + a.datasize) ∧
    a'.localaddr ≤ x ∧ x < a'.localaddr + a'.datasize

/-! ## Numbers with two digits -/

/-- The digits of a number to a base are its own. -/
theorem digits_inj {n a a' b b' : ℕ} (hb : b < n) (hb' : b' < n) (h : n * a + b = n * a' + b') :
    a = a' ∧ b = b' := by
  have hpos : 0 < n := by omega
  have hdiv := congrArg (· / n) h
  have hmod := congrArg (· % n) h
  simp only [Nat.mul_add_div hpos, Nat.div_eq_of_lt hb, Nat.div_eq_of_lt hb', Nat.add_zero] at hdiv
  simp only [Nat.mul_add_mod, Nat.mod_eq_of_lt hb, Nat.mod_eq_of_lt hb'] at hmod
  exact ⟨hdiv, hmod⟩

/-- A number with two digits is below the product of the bases. -/
theorem digits_lt {n m a b : ℕ} (ha : a < m) (hb : b < n) : n * a + b < n * m :=
  calc n * a + b < n * a + n := Nat.add_lt_add_left hb _
    _ = n * (a + 1) := by rw [Nat.mul_succ]
    _ ≤ n * m := Nat.mul_le_mul_left _ ha

/-! ## The place of a thread -/

section Thread

variable {l : Launch} {sid sid' tid tid' : ℕ}

/-- The place of a thread among all threads. -/
def Launch.slot (l : Launch) (sid tid : ℕ) : ℕ :=
  if l.config.gpgpuLocalMemMap = true then
    l.paddedCta * (l.numShader * (tid / l.paddedCta) + sid) + tid % l.paddedCta
  else l.hwThreads * sid + tid

theorem slot_lt (hsid : sid < l.numShader) (htid : tid < l.hwThreads) :
    l.slot sid tid < l.concurrent := by
  unfold Launch.slot Launch.concurrent
  split
  · rename_i hmap
    rw [Launch.hwThreads, if_pos hmap] at htid ⊢
    have hpos : 0 < l.paddedCta := Nat.pos_of_ne_zero fun h => by simp [h] at htid
    have hcta : tid / l.paddedCta < l.maxCta := Nat.div_lt_of_lt_mul htid
    rw [Nat.mul_assoc, Nat.mul_comm l.maxCta]
    exact digits_lt (digits_lt hcta hsid) (Nat.mod_lt _ hpos)
  · exact digits_lt hsid htid

/-- Different threads have different places. -/
theorem slot_inj (hsid : sid < l.numShader) (htid : tid < l.hwThreads) (hsid' : sid' < l.numShader)
    (htid' : tid' < l.hwThreads) (h : l.slot sid tid = l.slot sid' tid') :
    sid = sid' ∧ tid = tid' := by
  unfold Launch.slot at h
  split at h
  · rename_i hmap
    rw [Launch.hwThreads, if_pos hmap] at htid
    have hpos : 0 < l.paddedCta := Nat.pos_of_ne_zero fun h => by simp [h] at htid
    obtain ⟨hcta, hrest⟩ := digits_inj (Nat.mod_lt _ hpos) (Nat.mod_lt _ hpos) h
    obtain ⟨hdiv, hs⟩ := digits_inj hsid hsid' hcta
    refine ⟨hs, ?_⟩
    rw [← Nat.div_add_mod tid l.paddedCta, hdiv, hrest, Nat.div_add_mod]
  · exact digits_inj htid htid' h

theorem core_padded (l : Launch) (sid : ℕ) :
    (l.core sid).kernelPaddedThreadsPerCta = l.paddedCta := rfl

/-- What the core computes, when the threads fit into 32 bits. -/
theorem maxConcurrentThreads_eq (hfit : 4 * l.concurrent < 2 ^ 32) (sid : ℕ) :
    (l.core sid).maxConcurrentThreads l.numShader = l.concurrent := by
  have hmod : l.concurrent % 2 ^ 32 = l.concurrent := Nat.mod_eq_of_lt (by omega)
  rw [← hmod]
  unfold ShaderCore.maxConcurrentThreads Launch.concurrent Launch.hwThreads
  rw [core_padded]
  change (if l.config.gpgpuLocalMemMap = true then l.paddedCta * l.maxCta * l.numShader % 2 ^ 32
    else l.numShader * l.config.nThreadPerShader % 2 ^ 32) = _
  split
  · rfl
  · rw [Nat.mul_comm]

theorem threadBase_eq (hfit : 4 * l.concurrent < 2 ^ 32) (hsid : sid < l.numShader)
    (htid : tid < l.hwThreads) :
    (l.core sid).threadBase tid l.numShader = 4 * l.slot sid tid := by
  have hslot := slot_lt hsid htid
  have hmod : 4 * l.slot sid tid % 2 ^ 32 = 4 * l.slot sid tid := Nat.mod_eq_of_lt (by omega)
  rw [← hmod]
  unfold ShaderCore.threadBase Launch.slot
  rw [core_padded]
  change (if l.config.gpgpuLocalMemMap = true then
      4 * (l.paddedCta * (sid + l.numShader * (tid / l.paddedCta)) + tid % l.paddedCta) % 2 ^ 32
    else 4 * (l.config.nThreadPerShader * sid + tid) % 2 ^ 32) = _
  split
  · rw [Nat.add_comm sid]
  · rename_i hmap
    rw [Launch.hwThreads, if_neg hmap]

end Thread

/-! ## The bytes of an access -/

/-- The whole words of all local memories fit above `LOCAL_GENERIC_START`. -/
def Launch.Fits (l : Launch) (localMemSize : ℕ) : Prop :=
  l.concurrent * (4 * ((localMemSize + 3) / 4)) < 2 ^ 32 - localGenericStart

/-- The address of a local byte of a thread. -/
def Launch.byteAddr (l : Launch) (sid tid x : ℕ) : ℕ :=
  localGenericStart + (4 * (l.concurrent * (x / 4) + l.slot sid tid) + x % 4)

section Bytes

variable {l : Launch} {localMemSize : ℕ} {a a' : Access} {addrs addrs' : List ℕ}

/-- The addresses of different local bytes are different. -/
theorem byteAddr_inj (ha : a.Ok l localMemSize) (ha' : a'.Ok l localMemSize) {x x' : ℕ}
    (h : l.byteAddr a.sid a.tid x = l.byteAddr a'.sid a'.tid x') :
    a.sid = a'.sid ∧ a.tid = a'.tid ∧ x = x' := by
  obtain ⟨hword, hoff⟩ := digits_inj (Nat.mod_lt x (by decide)) (Nat.mod_lt x' (by decide))
    (Nat.add_left_cancel h)
  obtain ⟨hdiv, hslot⟩ := digits_inj (slot_lt ha.sid ha.tid) (slot_lt ha'.sid ha'.tid) hword
  obtain ⟨hsid, htid⟩ := slot_inj ha.sid ha.tid ha'.sid ha'.tid hslot
  exact ⟨hsid, htid, by omega⟩

/-- No address of a local word wraps around. -/
theorem linearAddress_eq (hfit : l.Fits localMemSize) (ha : a.Ok l localMemSize) {x : ℕ}
    (hx : x < localMemSize) :
    (l.core a.sid).linearAddress a.tid l.numShader (x / 4) (x % 4) =
      l.byteAddr a.sid a.tid x := by
  have hslot := slot_lt ha.sid ha.tid
  have hword : x / 4 < (localMemSize + 3) / 4 := by omega
  have hlt := digits_lt hword hslot
  unfold Launch.Fits at hfit
  rw [Nat.mul_left_comm] at hfit
  have hfit32 : 4 * l.concurrent < 2 ^ 32 := by
    have hle : l.concurrent * 1 ≤ l.concurrent * ((localMemSize + 3) / 4) :=
      Nat.mul_le_mul_left _ (by omega)
    omega
  unfold ShaderCore.linearAddress Launch.byteAddr
  rw [maxConcurrentThreads_eq hfit32, threadBase_eq hfit32 ha.sid ha.tid, Nat.mul_comm (x / 4)]
  generalize l.concurrent * (x / 4) = p at hlt ⊢
  generalize l.concurrent * ((localMemSize + 3) / 4) = q at hlt hfit
  have hstart : localGenericStart = 0x3FC00000 := by decide
  omega

/-- The bytes of a word have consecutive addresses. -/
theorem byteAddr_add (l : Launch) (sid tid : ℕ) {x d : ℕ} (h : x % 4 + d < 4) :
    l.byteAddr sid tid (x + d) = l.byteAddr sid tid x + d := by
  unfold Launch.byteAddr
  rw [show (x + d) / 4 = x / 4 by omega, show (x + d) % 4 = x % 4 + d by omega, Nat.add_assoc,
    Nat.add_assoc]

/-- Some bytes of a word. -/
theorem word_bytes_iff (l : Launch) (sid tid : ℕ) {x n : ℕ} (h : x % 4 + n ≤ 4) (b : ℕ) :
    (l.byteAddr sid tid x ≤ b ∧ b < l.byteAddr sid tid x + n) ↔
      ∃ y, (x ≤ y ∧ y < x + n) ∧ b = l.byteAddr sid tid y := by
  constructor
  · rintro ⟨hle, hlt⟩
    obtain ⟨d, rfl⟩ := Nat.exists_eq_add_of_le hle
    exact ⟨x + d, by omega, (byteAddr_add l _ _ (by omega)).symm⟩
  · rintro ⟨y, ⟨hle, hlt⟩, rfl⟩
    obtain ⟨d, rfl⟩ := Nat.exists_eq_add_of_le hle
    rw [byteAddr_add l _ _ (by omega)]
    omega

/-- With a thread there, a local memory has less than 2³² bytes. -/
theorem Launch.Fits.lt (hfit : l.Fits localMemSize) (ha : a.Ok l localMemSize) :
    localMemSize < 2 ^ 32 := by
  have hslot := slot_lt ha.sid ha.tid
  have hle : 1 * (4 * ((localMemSize + 3) / 4)) ≤ l.concurrent * (4 * ((localMemSize + 3) / 4)) :=
    Nat.mul_le_mul_right _ (by omega)
  unfold Launch.Fits at hfit
  omega

/-- **The bytes of an access** are those of its local bytes. -/
theorem touches_iff (hfit : l.Fits localMemSize) (ha : a.Ok l localMemSize)
    (h : l.translate a = some addrs) (b : ℕ) :
    Touches addrs a.datasize b ↔
      ∃ x, (a.localaddr ≤ x ∧ x < a.localaddr + a.datasize) ∧ b = l.byteAddr a.sid a.tid x := by
  have hbytes := ha.bytes
  unfold Launch.translate ShaderCore.translateLocalMemaddr at h
  split at h
  swap
  · exact absurd h (by simp)
  split at h
  · rename_i hsize
    split at h
    swap
    · exact absurd h (by simp)
    rename_i hassert
    obtain ⟨hmul, -, halign⟩ := hassert
    obtain rfl := Option.some.inj h
    -- the word of each round of the loop
    have hword : ∀ i < a.datasize / 4,
        (l.core a.sid).linearAddress a.tid l.numShader (a.localaddr / 4 + i) 0 =
          l.byteAddr a.sid a.tid (a.localaddr + 4 * i) := by
      intro i hi
      rw [← linearAddress_eq hfit ha (by omega)]
      congr 1 <;> omega
    constructor
    · rintro ⟨addr, haddr, hin⟩
      obtain ⟨i, hi, rfl⟩ := List.mem_map.1 haddr
      rw [List.mem_range] at hi
      rw [hword i hi, Nat.min_eq_right hsize] at hin
      obtain ⟨y, hy, rfl⟩ := (word_bytes_iff l _ _ (by omega) b).1 hin
      exact ⟨y, by omega, rfl⟩
    · rintro ⟨y, hy, rfl⟩
      have hi : (y - a.localaddr) / 4 < a.datasize / 4 := by omega
      refine ⟨_, List.mem_map.2 ⟨_, List.mem_range.2 hi, rfl⟩, ?_⟩
      rw [hword _ hi, Nat.min_eq_right hsize]
      exact (word_bytes_iff l _ _ (by omega) _).2 ⟨y, by omega, rfl⟩
  · rename_i hsize
    split at h
    swap
    · exact absurd h (by simp)
    rename_i hassert
    obtain ⟨hpos, hsame⟩ := hassert
    obtain rfl := Option.some.inj h
    have hlt := hfit.lt ha
    rw [Nat.mod_eq_of_lt (by omega)] at hsame
    rw [linearAddress_eq hfit ha (by omega)]
    unfold Touches
    simp only [List.mem_singleton, exists_eq_left]
    rw [Nat.min_eq_left (by omega)]
    exact word_bytes_iff l _ _ (by omega) b

/-- **Local memories do not collide.**  When the whole words of all local memories fit above
`LOCAL_GENERIC_START`, two accesses overlap if and only if they are for a local byte of one
thread. -/
theorem translate_overlap_iff (hfit : l.Fits localMemSize) (ha : a.Ok l localMemSize)
    (ha' : a'.Ok l localMemSize) (h : l.translate a = some addrs)
    (h' : l.translate a' = some addrs') :
    Overlap addrs a.datasize addrs' a'.datasize ↔ a.Shares a' := by
  unfold Overlap
  simp only [touches_iff hfit ha h, touches_iff hfit ha' h']
  constructor
  · rintro ⟨b, ⟨x, hx, hb⟩, x', hx', hb'⟩
    obtain ⟨hsid, htid, rfl⟩ := byteAddr_inj ha ha' (hb.symm.trans hb')
    exact ⟨hsid, htid, x, hx, hx'⟩
  · rintro ⟨hsid, htid, x, hx, hx'⟩
    exact ⟨_, ⟨x, hx, rfl⟩, x, hx', by rw [hsid, htid]⟩

/-- Two shaders with two CTAs of 33 threads, padded to 64, and local memories of ten bytes: a
word of one thread and the word of its neighbour do not overlap. -/
theorem translate_overlap_iff_neighbours :
    let l : Launch :=
      { config := { gpgpuLocalMemMap := true, nThreadPerShader := 1024, warpSize := 32 }
        numShader := 2
        maxCta := 2
        gpuCtaSize := 33 }
    l.paddedCta = 64 ∧
    ¬Overlap [0x3FC00704] 4 [0x3FC00708] 4 := by
  intro l
  refine ⟨by decide, fun hoverlap => ?_⟩
  have hshares := (@translate_overlap_iff l 10 ⟨1, 65, 4, 4⟩ ⟨1, 66, 4, 4⟩ [0x3FC00704] [0x3FC00708]
    (by unfold Launch.Fits; decide) ⟨by decide, by decide, by decide⟩ ⟨by decide, by decide, by decide⟩
    (by decide) (by decide)).1 hoverlap
  exact absurd hshares.2.1 (by decide)

/-- Without the whole words: with local memories of one byte and 2³⁰ + 32 threads, the last
shader gets the addresses of the first one. -/
theorem translate_collides :
    ¬∀ (l : Launch) (localMemSize : ℕ) (a a' : Access) (addrs addrs' : List ℕ),
      l.concurrent * localMemSize < 2 ^ 32 - localGenericStart →
      a.Ok l localMemSize → a'.Ok l localMemSize →
      l.translate a = some addrs → l.translate a' = some addrs' →
      (Overlap addrs a.datasize addrs' a'.datasize ↔ a.Shares a') := by
  intro h
  let l : Launch :=
    { config := { gpgpuLocalMemMap := true, nThreadPerShader := 32, warpSize := 32 }
      numShader := 2 ^ 25 + 1
      maxCta := 1
      gpuCtaSize := 32 }
  have hshares := (h l 1 ⟨0, 0, 0, 1⟩ ⟨2 ^ 25, 0, 0, 1⟩ [localGenericStart] [localGenericStart]
    (by decide) ⟨by decide, by decide, by decide⟩ ⟨by decide, by decide, by decide⟩
    (by decide) (by decide)).1 ⟨localGenericStart, ⟨_, List.mem_singleton_self _, by decide⟩,
      _, List.mem_singleton_self _, by decide⟩
  exact absurd hshares.1 (by decide)

end Bytes

end CompressionWork.LocalMem
