/-
# The CTAs and threads of a kernel

`kernel_info_t` counts through the CTAs of the grid, and for each CTA through the threads of the block. All
its fields are 32-bit numbers.

* `KernelInfo` — the counters, with the functions that `ptx_sim_init_thread` uses;
* `createThreads`, `createCtas` — the loops;
* `Odometer` — the ids of a box, each once, first in x, then in y, then in z;
* `createdOnce_iff` — the ids are right for every kernel, and the numbers of the threads exactly for blocks
  of fewer than `2 ^ 32` threads.
-/
import CompressionWork.Launch.Completion

namespace CompressionWork
namespace Launch

/-- `dim3` with its 32-bit sides -/
structure UDim3 where
  x : UInt32
  y : UInt32
  z : UInt32
  deriving DecidableEq, Repr

/-- `increment_x_then_y_then_z` -/
def UDim3.increment (i bound : UDim3) : UDim3 :=
  let i := { i with x := i.x + 1 }
  if i.x ≥ bound.x then
    let i := { i with x := 0, y := i.y + 1 }
    if i.y ≥ bound.y then
      let i := { i with y := 0 }
      if i.z < bound.z then { i with z := i.z + 1 } else i
    else i
  else i

/-- `kernel_info_t`: `m_grid_dim`, `m_block_dim`, `m_next_cta` and `m_next_tid` -/
structure KernelInfo where
  gridDim : UDim3
  blockDim : UDim3
  nextCta : UDim3 := ⟨0, 0, 0⟩
  nextTid : UDim3 := ⟨0, 0, 0⟩

namespace KernelInfo

variable (k : KernelInfo)

/-- The product is 32-bit; the result is a `size_t`. -/
def threadsPerCta : ℕ := (k.blockDim.x * k.blockDim.y * k.blockDim.z).toNat

/-- `increment_cta_id`. -/
def incrementCtaId : KernelInfo :=
  { k with nextCta := k.nextCta.increment k.gridDim, nextTid := ⟨0, 0, 0⟩ }

/-- `no_more_ctas_to_run`. -/
def noMoreCtasToRun : Bool :=
  k.nextCta.x ≥ k.gridDim.x || k.nextCta.y ≥ k.gridDim.y || k.nextCta.z ≥ k.gridDim.z

/-- `increment_thread_id`. -/
def incrementThreadId : KernelInfo := { k with nextTid := k.nextTid.increment k.blockDim }

/-- `get_next_thread_id`. -/
def getNextThreadId : UInt32 :=
  k.nextTid.x + k.blockDim.x * k.nextTid.y + k.blockDim.x * k.blockDim.y * k.nextTid.z

/-- `more_threads_in_cta`. -/
def moreThreadsInCta : Bool :=
  k.nextTid.z < k.blockDim.z && k.nextTid.y < k.blockDim.y && k.nextTid.x < k.blockDim.x

/-- The loop of `ptx_sim_init_thread`, in so many rounds: the thread ids of a CTA, each with its number. -/
def createThreads : ℕ → KernelInfo → Option (List (UDim3 × UInt32) × KernelInfo)
  | 0, _ => none
  | rounds + 1, k =>
      if k.moreThreadsInCta then
        (createThreads rounds k.incrementThreadId).map fun r =>
          ((k.nextTid, k.getNextThreadId) :: r.1, r.2)
      else some ([], k)

/-- `ptx_sim_init_thread` for one CTA after another, until there are no more. -/
def createCtas (threadRounds : ℕ) : ℕ → KernelInfo → Option (List (UDim3 × List (UDim3 × UInt32)))
  | 0, _ => none
  | rounds + 1, k =>
      if k.noMoreCtasToRun then some []
      else do
        let (threads, k') ← createThreads threadRounds k
        let ctas ← createCtas threadRounds rounds k'.incrementCtaId
        pure ((k.nextCta, threads) :: ctas)

end KernelInfo

/-! ## Boxes -/

/-- The three numbers without their width. -/
def UDim3.toDim3 (d : UDim3) : Dim3 := ⟨d.x.toNat, d.y.toNat, d.z.toNat⟩

/-- The ids of a box. -/
def UDim3.Inside (bound i : UDim3) : Prop := i.x < bound.x ∧ i.y < bound.y ∧ i.z < bound.z

instance (bound i : UDim3) : Decidable (bound.Inside i) :=
  inferInstanceAs (Decidable (i.x < bound.x ∧ i.y < bound.y ∧ i.z < bound.z))

/-- How many ids come before an id: the x coordinate runs first, then y, then z. -/
def UDim3.rank (bound i : UDim3) : ℕ := i.x.toNat + bound.x.toNat * (i.y.toNat + bound.y.toNat * i.z.toNat)

/-- All ids of a box, each once and in order. -/
structure Odometer (bound : UDim3) (ids : List UDim3) : Prop where
  nodup : ids.Nodup
  complete : ∀ i, i ∈ ids ↔ bound.Inside i
  ordered : ids.map bound.rank = List.range bound.toDim3.numBlocks

/-- Each CTA is created once, with each of its threads once; the numbers of the threads run from 0 to
`threads_per_cta() - 1`; and the loops end. -/
def KernelInfo.CreatedOnce (k : KernelInfo) : Prop :=
  ∃ threadRounds rounds ctas, k.createCtas threadRounds rounds = some ctas ∧
    Odometer k.gridDim (ctas.map Prod.fst) ∧
    ∀ c ∈ ctas, Odometer k.blockDim (c.2.map Prod.fst) ∧
      c.2.map (fun t => t.2.toNat) = List.range k.threadsPerCta

/-! ## Counting -/

variable {bound i j : UDim3} {n m : ℕ} {k : KernelInfo}

theorem past_iff_not_inside : Past bound.toDim3 i.toDim3 ↔ ¬ bound.Inside i := by
  simp only [Past, UDim3.toDim3, UDim3.Inside, UInt32.lt_iff_toNat_lt]
  omega

theorem toNat_succ {a b : UInt32} (h : a < b) : (a + 1).toNat = a.toNat + 1 := by
  rw [UInt32.lt_iff_toNat_lt] at h
  have hb := b.toNat_lt
  rw [UInt32.toNat_add]
  exact Nat.mod_eq_of_lt (by simp; omega)

/-- Inside the box the counter does not overflow. -/
theorem toDim3_increment (h : bound.Inside i) :
    (i.increment bound).toDim3 = bound.toDim3.increment i.toDim3 := by
  obtain ⟨hx, hy, hz⟩ := h
  have hx' := toNat_succ hx
  have hy' := toNat_succ hy
  have hz' := toNat_succ hz
  have hzn := UInt32.lt_iff_toNat_lt.1 hz
  simp only [UDim3.increment, Dim3.increment, UDim3.toDim3, ge_iff_le, UInt32.le_iff_toNat_le, hx', hy', hz,
    hzn, if_true]
  split_ifs <;> simp [hx', hy', hz']

theorem UDim3.ext_toDim3 (h : i.toDim3 = j.toDim3) : i = j := by
  obtain ⟨x, y, z⟩ := i
  obtain ⟨x', y', z'⟩ := j
  simp only [UDim3.toDim3, Dim3.mk.injEq, UInt32.toNat_inj] at h
  obtain ⟨rfl, rfl, rfl⟩ := h
  rfl

theorem Index.rank_eq (h : Index bound.toDim3 i.toDim3 n) : bound.rank i = n := h.eq.symm

theorem Index.increment_inside (h : Index bound.toDim3 i.toDim3 n) (hin : bound.Inside i) :
    Index bound.toDim3 (i.increment bound).toDim3 (n + 1) := by
  rw [toDim3_increment hin]
  exact h.increment fun hpast => past_iff_not_inside.1 hpast hin

/-- The ids from one on to the end of the box, as a loop visits them. -/
structure VisitedFrom (bound : UDim3) (n : ℕ) (ids : List UDim3) : Prop where
  inside : ∀ i ∈ ids, bound.Inside i
  ordered : ids.map bound.rank = List.range' n (bound.toDim3.numBlocks - n)

theorem VisitedFrom.nil (h : Index bound.toDim3 i.toDim3 n) (hout : ¬ bound.Inside i) :
    VisitedFrom bound n [] := by
  have hend := h.past_iff.1 (past_iff_not_inside.2 hout)
  exact ⟨fun i hi => absurd hi List.not_mem_nil, by rw [hend, Nat.sub_self]; rfl⟩

theorem VisitedFrom.cons {ids : List UDim3} (h : Index bound.toDim3 i.toDim3 n) (hin : bound.Inside i)
    (hids : VisitedFrom bound (n + 1) ids) : VisitedFrom bound n (i :: ids) := by
  have hlt : n < bound.toDim3.numBlocks :=
    Nat.lt_of_le_of_ne h.le fun heq => past_iff_not_inside.1 (h.past_iff.2 heq) hin
  refine ⟨List.forall_mem_cons.2 ⟨hin, hids.inside⟩, ?_⟩
  have hrest : bound.toDim3.numBlocks - n = bound.toDim3.numBlocks - (n + 1) + 1 := by omega
  rw [List.map_cons, h.rank_eq, hids.ordered, hrest, List.range'_succ]

/-- A number in base `b` has one last digit. -/
theorem eq_of_add_mul_eq {b p q p' q' : ℕ} (hp : p < b) (hp' : p' < b) (h : p + b * q = p' + b * q') :
    p = p' ∧ q = q' := by
  have hmod := congrArg (· % b) h
  have hdiv := congrArg (· / b) h
  simp only [Nat.add_mul_mod_self_left, Nat.mod_eq_of_lt hp, Nat.mod_eq_of_lt hp'] at hmod
  simp only [Nat.add_mul_div_left _ _ (Nat.zero_lt_of_lt hp), Nat.div_eq_of_lt hp, Nat.div_eq_of_lt hp',
    Nat.zero_add] at hdiv
  exact ⟨hmod, hdiv⟩

/-- An id of the box has a rank of its own. -/
theorem rank_inj (hi : bound.Inside i) (hj : bound.Inside j) (h : bound.rank i = bound.rank j) : i = j := by
  obtain ⟨hix, hiy, -⟩ := hi
  obtain ⟨hjx, hjy, -⟩ := hj
  rw [UInt32.lt_iff_toNat_lt] at hix hiy hjx hjy
  obtain ⟨hx, hyz⟩ := eq_of_add_mul_eq hix hjx h
  obtain ⟨hy, hz⟩ := eq_of_add_mul_eq hiy hjy hyz
  exact UDim3.ext_toDim3 (by rw [UDim3.toDim3, UDim3.toDim3, hx, hy, hz])

theorem rank_lt (h : bound.Inside i) : bound.rank i < bound.toDim3.numBlocks := by
  obtain ⟨hx, hy, hz⟩ := h
  rw [UInt32.lt_iff_toNat_lt] at hx hy hz
  have hinner : i.y.toNat + bound.y.toNat * i.z.toNat < bound.y.toNat * bound.z.toNat :=
    calc i.y.toNat + bound.y.toNat * i.z.toNat < bound.y.toNat + bound.y.toNat * i.z.toNat :=
          Nat.add_lt_add_right hy _
      _ = bound.y.toNat * (i.z.toNat + 1) := by rw [Nat.mul_succ, Nat.add_comm]
      _ ≤ bound.y.toNat * bound.z.toNat := Nat.mul_le_mul_left _ hz
  calc bound.rank i < bound.x.toNat + bound.x.toNat * (i.y.toNat + bound.y.toNat * i.z.toNat) :=
        Nat.add_lt_add_right hx _
    _ = bound.x.toNat * (i.y.toNat + bound.y.toNat * i.z.toNat + 1) := by rw [Nat.mul_succ, Nat.add_comm]
    _ ≤ bound.x.toNat * (bound.y.toNat * bound.z.toNat) := Nat.mul_le_mul_left _ hinner

theorem VisitedFrom.odometer {ids : List UDim3} (h : VisitedFrom bound 0 ids) : Odometer bound ids := by
  have hordered : ids.map bound.rank = List.range bound.toDim3.numBlocks := by
    rw [h.ordered, Nat.sub_zero, List.range_eq_range']
  refine ⟨List.Nodup.of_map bound.rank (hordered ▸ List.nodup_range), fun i => ⟨h.inside i, fun hi => ?_⟩,
    hordered⟩
  have hmem : bound.rank i ∈ ids.map bound.rank := by
    rw [hordered]
    exact List.mem_range.2 (rank_lt hi)
  obtain ⟨j, hj, hrank⟩ := List.mem_map.1 hmem
  exact rank_inj (h.inside j hj) hi hrank ▸ hj

/-! ## The loops -/

theorem moreThreadsInCta_iff : k.moreThreadsInCta = true ↔ k.blockDim.Inside k.nextTid := by
  simp only [KernelInfo.moreThreadsInCta, UDim3.Inside, Bool.and_eq_true, decide_eq_true_eq]
  exact ⟨fun h => ⟨h.2, h.1.2, h.1.1⟩, fun h => ⟨⟨h.2.2, h.2.1⟩, h.1⟩⟩

theorem noMoreCtasToRun_iff : k.noMoreCtasToRun = true ↔ ¬ k.gridDim.Inside k.nextCta := by
  simp only [KernelInfo.noMoreCtasToRun, UDim3.Inside, Bool.or_eq_true, decide_eq_true_eq, ge_iff_le,
    UInt32.le_iff_toNat_le, UInt32.lt_iff_toNat_lt]
  omega

/-- The number of a thread is its rank in 32 bits. -/
theorem toNat_getNextThreadId : k.getNextThreadId.toNat = k.blockDim.rank k.nextTid % 2 ^ 32 := by
  simp only [KernelInfo.getNextThreadId, UDim3.rank, UInt32.toNat_add, UInt32.toNat_mul, Nat.add_mod_mod,
    Nat.mod_add_mod, Nat.mod_mul_mod]
  congr 1
  ring

theorem createThreads_spec {rounds : ℕ} (h : Index k.blockDim.toDim3 k.nextTid.toDim3 n)
    (hrounds : k.blockDim.toDim3.numBlocks - n < rounds) :
    ∃ threads tid, k.createThreads rounds = some (threads, { k with nextTid := tid }) ∧
      VisitedFrom k.blockDim n (threads.map Prod.fst) ∧
      ∀ t ∈ threads, t.2.toNat = k.blockDim.rank t.1 % 2 ^ 32 := by
  induction rounds generalizing k n with
  | zero => exact absurd hrounds (Nat.not_lt_zero _)
  | succ rounds ih =>
    rw [KernelInfo.createThreads]
    by_cases hin : k.blockDim.Inside k.nextTid
    · have hlt := rank_lt hin
      rw [h.rank_eq] at hlt
      obtain ⟨threads, tid, hthreads, hvisited, hnumbers⟩ :=
        ih (k := k.incrementThreadId) (h.increment_inside hin) (by
          simp only [KernelInfo.incrementThreadId]
          omega)
      rw [if_pos (moreThreadsInCta_iff.2 hin), hthreads]
      refine ⟨_, _, rfl, hvisited.cons h hin, List.forall_mem_cons.2 ⟨toNat_getNextThreadId, hnumbers⟩⟩
    · rw [if_neg (mt moreThreadsInCta_iff.1 hin)]
      exact ⟨[], k.nextTid, rfl, .nil h hin, fun t ht => absurd ht List.not_mem_nil⟩

/-- **All CTAs**, each with all its threads, and the number of a thread is its rank in 32 bits. -/
theorem createCtas_spec {rounds : ℕ} (hcta : Index k.gridDim.toDim3 k.nextCta.toDim3 n)
    (htid : k.nextTid = ⟨0, 0, 0⟩) (hrounds : k.gridDim.toDim3.numBlocks - n < rounds) :
    ∃ ctas, k.createCtas (k.blockDim.toDim3.numBlocks + 1) rounds = some ctas ∧
      VisitedFrom k.gridDim n (ctas.map Prod.fst) ∧
      ∀ c ∈ ctas, Odometer k.blockDim (c.2.map Prod.fst) ∧
        ∀ t ∈ c.2, t.2.toNat = k.blockDim.rank t.1 % 2 ^ 32 := by
  induction rounds generalizing k n with
  | zero => exact absurd hrounds (Nat.not_lt_zero _)
  | succ rounds ih =>
    rw [KernelInfo.createCtas]
    by_cases hin : k.gridDim.Inside k.nextCta
    · have hlt := rank_lt hin
      rw [hcta.rank_eq] at hlt
      have hfirst : Index k.blockDim.toDim3 k.nextTid.toDim3 0 := by
        rw [htid]
        exact Index.zero _
      have hthreadRounds : k.blockDim.toDim3.numBlocks - 0 < k.blockDim.toDim3.numBlocks + 1 := by omega
      obtain ⟨threads, tid, hthreads, hvisited, hnumbers⟩ := createThreads_spec hfirst hthreadRounds
      obtain ⟨ctas, hctas, hvisited', hall⟩ :=
        ih (k := KernelInfo.incrementCtaId { k with nextTid := tid }) (hcta.increment_inside hin) rfl (by
          simp only [KernelInfo.incrementCtaId]
          omega)
      rw [if_neg (mt noMoreCtasToRun_iff.1 (not_not.2 hin)), hthreads]
      simp only [Option.bind_eq_bind, Option.bind_some]
      refine ⟨(k.nextCta, threads) :: ctas, ?_, hvisited'.cons hcta hin,
        List.forall_mem_cons.2 ⟨⟨hvisited.odometer, hnumbers⟩, hall⟩⟩
      have hctas' : KernelInfo.createCtas (k.blockDim.toDim3.numBlocks + 1) rounds
          (KernelInfo.incrementCtaId { k with nextTid := tid }) = some ctas := hctas
      rw [hctas']
      rfl
    · rw [if_pos (noMoreCtasToRun_iff.2 hin)]
      exact ⟨[], rfl, .nil hcta hin, fun c hc => absurd hc List.not_mem_nil⟩

/-- `threads_per_cta` is the number of threads in 32 bits. -/
theorem threadsPerCta_eq : k.threadsPerCta = k.blockDim.toDim3.numBlocks % 2 ^ 32 := by
  simp only [KernelInfo.threadsPerCta, Dim3.numBlocks, UDim3.toDim3, UInt32.toNat_mul, Nat.mod_mul_mod,
    Nat.mul_assoc]

/-- **Every CTA and thread is created once**, with its number, exactly when the number of threads of a CTA
has 32 bits. -/
theorem createdOnce_iff (gridDim blockDim : UDim3) (hx : 0 < gridDim.x) (hy : 0 < gridDim.y)
    (hz : 0 < gridDim.z) :
    KernelInfo.CreatedOnce { gridDim, blockDim } ↔
      blockDim.x.toNat * blockDim.y.toNat * blockDim.z.toNat < 2 ^ 32 := by
  have hsize : blockDim.x.toNat * blockDim.y.toNat * blockDim.z.toNat = blockDim.toDim3.numBlocks :=
    Nat.mul_assoc _ _ _
  rw [hsize]
  constructor
  · rintro ⟨threadRounds, rounds, ctas, -, hctas, hall⟩
    -- the first CTA has a number for each of its threads
    obtain ⟨c, hc, -⟩ := List.mem_map.1 ((hctas.complete ⟨0, 0, 0⟩).2 ⟨hx, hy, hz⟩)
    obtain ⟨hthreads, hnumbers⟩ := hall c hc
    have hlength := congrArg List.length hthreads.ordered
    have hlength' := congrArg List.length hnumbers
    simp only [List.length_map, List.length_range] at hlength hlength'
    rw [threadsPerCta_eq] at hlength'
    have := Nat.mod_lt blockDim.toDim3.numBlocks (Nat.two_pow_pos 32)
    simp only at hlength hlength'
    omega
  · intro hlt
    have hrounds : gridDim.toDim3.numBlocks - 0 < gridDim.toDim3.numBlocks + 1 := by omega
    obtain ⟨ctas, hctas, hvisited, hall⟩ :=
      createCtas_spec (k := { gridDim, blockDim }) (Index.zero _) rfl hrounds
    refine ⟨_, _, ctas, hctas, hvisited.odometer, fun c hc => ⟨(hall c hc).1, ?_⟩⟩
    obtain ⟨hthreads, hnumbers⟩ := hall c hc
    have hrank : c.2.map (fun t => t.2.toNat) = (c.2.map Prod.fst).map blockDim.rank := by
      rw [List.map_map]
      refine List.map_congr_left fun t ht => ?_
      have hin := (hthreads.complete _).1 (List.mem_map_of_mem ht)
      rw [hnumbers t ht]
      exact Nat.mod_eq_of_lt ((rank_lt hin).trans hlt)
    rw [hrank, hthreads.ordered, threadsPerCta_eq, Nat.mod_eq_of_lt hlt]

theorem createdOnce_iff_small : KernelInfo.CreatedOnce { gridDim := ⟨2, 1, 1⟩, blockDim := ⟨32, 2, 1⟩ } ↔
    (32 : UInt32).toNat * (2 : UInt32).toNat * (1 : UInt32).toNat < 2 ^ 32 :=
  createdOnce_iff ⟨2, 1, 1⟩ ⟨32, 2, 1⟩ (by decide) (by decide) (by decide)

/-- A block of `2 ^ 32` threads has, by `threads_per_cta`, none. -/
theorem not_createdOnce_large :
    ¬ KernelInfo.CreatedOnce { gridDim := ⟨1, 1, 1⟩, blockDim := ⟨65536, 65536, 1⟩ } := by
  rintro ⟨threadRounds, rounds, ctas, -, hctas, hall⟩
  obtain ⟨c, hc, -⟩ := List.mem_map.1 ((hctas.complete ⟨0, 0, 0⟩).2 (by decide))
  obtain ⟨hthreads, hnumbers⟩ := hall c hc
  have hmem := (hthreads.complete ⟨0, 0, 0⟩).2 (by decide)
  obtain ⟨t, ht, -⟩ := List.mem_map.1 hmem
  have hnone : c.2.map (fun t => t.2.toNat) = [] := hnumbers
  rw [List.map_eq_nil_iff.1 hnone] at ht
  exact absurd ht List.not_mem_nil

end Launch
end CompressionWork
