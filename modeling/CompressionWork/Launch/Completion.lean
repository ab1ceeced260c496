/-
# Kernels complete exactly

`Cores` says what the SMs and the counters have to do with each other, and `Slots` which kernels the slots
hold. An empty grid is never selected, so it is never reported.
-/
import CompressionWork.Launch.Gpu
import Mathlib.Algebra.Order.BigOperators.Group.Finset
import Mathlib.Tactic.Common
import Mathlib.Tactic.Ring

namespace CompressionWork
namespace Launch

open Transition

variable {cfg : Config} {kernel : ℕ → Kernel cfg} {g g' : Gpu} {c : Core} {uid sid cta slot n k : ℕ}

/-- A sum of which one term changes. -/
theorem sum_set {j : ℕ} {f t : ℕ → ℕ} (hj : j < n) (h : ∀ i, i ≠ j → t i = f i) :
    (∑ i ∈ Finset.range n, t i) + f j = (∑ i ∈ Finset.range n, f i) + t j := by
  have hmem := Finset.mem_range.2 hj
  have hrest : ∑ i ∈ (Finset.range n).erase j, t i = ∑ i ∈ (Finset.range n).erase j, f i :=
    Finset.sum_congr rfl fun i hi => h i (Finset.ne_of_mem_erase hi)
  rw [← Finset.add_sum_erase _ t hmem, ← Finset.add_sum_erase _ f hmem, hrest]
  omega

/-! ## CTA ids -/

/-- The next CTA of a grid after so many. -/
structure Index (grid next : Dim3) (issued : ℕ) : Prop where
  eq : issued = next.x + grid.x * (next.y + grid.y * next.z)
  le : issued ≤ grid.numBlocks
  inside : (next.x < grid.x ∧ next.y < grid.y) ∨ grid.numBlocks = 0

/-- Past the end of the grid. -/
def Past (grid next : Dim3) : Prop := grid.x ≤ next.x ∨ grid.y ≤ next.y ∨ grid.z ≤ next.z

namespace Index

variable {grid next : Dim3} {issued : ℕ}

theorem zero (grid : Dim3) : Index grid ⟨0, 0, 0⟩ 0 := by
  refine ⟨rfl, Nat.zero_le _, ?_⟩
  by_cases hx : grid.x = 0
  · exact Or.inr (by rw [Dim3.numBlocks, hx, Nat.zero_mul])
  by_cases hy : grid.y = 0
  · exact Or.inr (by rw [Dim3.numBlocks, hy, Nat.zero_mul, Nat.mul_zero])
  · exact Or.inl ⟨Nat.pos_of_ne_zero hx, Nat.pos_of_ne_zero hy⟩

theorem lt_of_z_lt (h : Index grid next issued) (hx : next.x < grid.x) (hy : next.y < grid.y)
    (hz : next.z < grid.z) : issued < grid.numBlocks := by
  have hw : next.y + grid.y * next.z + 1 ≤ grid.y * grid.z := by
    have := Nat.mul_le_mul_left grid.y hz
    rw [Nat.mul_succ] at this
    omega
  have := Nat.mul_le_mul_left grid.x hw
  rw [h.eq, Dim3.numBlocks]
  rw [Nat.mul_add, Nat.mul_one] at this
  omega

/-- The grid is past its end when all its CTAs were issued. -/
theorem past_iff (h : Index grid next issued) : Past grid next ↔ issued = grid.numBlocks := by
  rcases h.inside with ⟨hx, hy⟩ | hempty
  · constructor
    · intro hpast
      have hz : grid.z ≤ next.z := by
        unfold Past at hpast
        omega
      apply Nat.le_antisymm h.le
      have := Nat.mul_le_mul_left grid.x
        (Nat.le_trans (Nat.mul_le_mul_left grid.y hz) (Nat.le_add_left _ next.y))
      rw [h.eq, Dim3.numBlocks]
      omega
    · intro heq
      by_contra hnot
      unfold Past at hnot
      have := h.lt_of_z_lt hx hy (by omega)
      omega
  · refine iff_of_true ?_ ?_
    · unfold Past
      rcases Nat.mul_eq_zero.1 hempty with hx | hyz
      · omega
      · rcases Nat.mul_eq_zero.1 hyz with hy | hz <;> omega
    · have := h.le
      omega

theorem increment (h : Index grid next issued) (hpast : ¬ Past grid next) :
    Index grid (grid.increment next) (issued + 1) := by
  unfold Past at hpast
  have hlt := h.lt_of_z_lt (by omega) (by omega) (by omega)
  have heq := h.eq
  unfold Dim3.increment
  split
  case isFalse hx =>
    refine ⟨?_, hlt, Or.inl ⟨by simp only; omega, by simp only; omega⟩⟩
    simp only
    omega
  case isTrue hx =>
    have hgx : grid.x = next.x + 1 := by omega
    split
    case isFalse hy =>
      refine ⟨?_, hlt, Or.inl ⟨by simp only; omega, by simp only; omega⟩⟩
      rw [heq]
      simp only [hgx]
      ring
    case isTrue hy =>
      have hgy : grid.y = next.y + 1 := by omega
      refine ⟨?_, hlt, Or.inl ⟨by simp only; omega, by simp only; omega⟩⟩
      rw [heq, if_pos (by omega)]
      simp only [hgx, hgy]
      ring

end Index

/-! ## SMs -/

/-- The counters of an SM, which is bound to a kernel when it has CTAs. -/
structure CoreOk (cfg : Config) (c : Core) : Prop where
  active : c.nActiveCta = ∑ i ∈ Finset.range cfg.maxCtaPerShader, if c.ctaStatus i = 0 then 0 else 1
  left : c.notCompleted = ∑ i ∈ Finset.range cfg.maxCtaPerShader, c.ctaStatus i
  idle : c.kernel = none ↔ c.nActiveCta = 0

namespace CoreOk

theorem notCompleted_eq_zero_iff (h : CoreOk cfg c) : c.notCompleted = 0 ↔ c.kernel = none := by
  rw [h.idle, h.left, h.active, Finset.sum_eq_zero_iff, Finset.sum_eq_zero_iff]
  refine forall₂_congr fun i _ => ?_
  by_cases hi : c.ctaStatus i = 0 <;> simp [hi]

/-- A free CTA slot, below any bound that the CTAs do not reach. -/
theorem exists_free (h : CoreOk cfg c) {m : ℕ} (hm : m ≤ cfg.maxCtaPerShader) (hlt : c.nActiveCta < m) :
    ∃ slot < m, (List.range m).find? (fun i => c.ctaStatus i = 0) = some slot ∧ c.ctaStatus slot = 0 := by
  cases hfind : (List.range m).find? fun i => c.ctaStatus i = 0 with
  | some slot =>
    exact ⟨slot, List.mem_range.1 (List.mem_of_find?_eq_some hfind), rfl, by
      simpa using List.find?_some hfind⟩
  | none =>
    rw [List.find?_eq_none] at hfind
    have hfull : (∑ i ∈ Finset.range m, if c.ctaStatus i = 0 then 0 else 1) = m := by
      rw [Finset.sum_const_nat (m := 1), Finset.card_range, Nat.mul_one]
      intro i hi
      apply if_neg
      simpa using hfind i (List.mem_range.2 (Finset.mem_range.1 hi))
    have hle : (∑ i ∈ Finset.range m, if c.ctaStatus i = 0 then 0 else 1) ≤ c.nActiveCta := by
      rw [h.active]
      exact Finset.sum_le_sum_of_subset (Finset.range_mono hm)
    omega

/-- What `CoreOk` says of an SM with one more CTA. -/
theorem addCta (h : CoreOk cfg c) {threads : ℕ} (hslot : slot < cfg.maxCtaPerShader)
    (hfree : c.ctaStatus slot = 0) (hthreads : 0 < threads) (uid : ℕ) :
    CoreOk cfg { c.addCta slot threads with kernel := some uid } := by
  have hactive := sum_set hslot (f := fun i => if c.ctaStatus i = 0 then 0 else 1)
    (t := fun i => if (c.addCta slot threads).ctaStatus i = 0 then 0 else 1)
    fun i hi => by simp [Core.addCta, hi]
  have hleft := sum_set hslot (f := c.ctaStatus) (t := (c.addCta slot threads).ctaStatus)
    fun i hi => by simp [Core.addCta, hi]
  have hself : (c.addCta slot threads).ctaStatus slot = threads := if_pos rfl
  simp only [hfree, hself, if_pos, if_neg (Nat.ne_of_gt hthreads)] at hactive hleft
  refine ⟨?_, ?_, iff_of_false (by simp) (by simp [Core.addCta])⟩
  · show c.nActiveCta + 1 =
      ∑ i ∈ Finset.range cfg.maxCtaPerShader, if (c.addCta slot threads).ctaStatus i = 0 then 0 else 1
    rw [h.active]
    omega
  · show c.notCompleted + threads =
      ∑ i ∈ Finset.range cfg.maxCtaPerShader, (c.addCta slot threads).ctaStatus i
    rw [h.left]
    omega

theorem exitThread (h : CoreOk cfg c) (hcta : cta < cfg.maxCtaPerShader) (hthere : c.ctaStatus cta ≠ 0) :
    (c.exitThread cta).nActiveCta =
        (∑ i ∈ Finset.range cfg.maxCtaPerShader, if (c.exitThread cta).ctaStatus i = 0 then 0 else 1) ∧
      (c.exitThread cta).notCompleted =
        (∑ i ∈ Finset.range cfg.maxCtaPerShader, (c.exitThread cta).ctaStatus i) ∧
      c.notCompleted ≠ 0 := by
  have hactive := sum_set hcta (f := fun i => if c.ctaStatus i = 0 then 0 else 1)
    (t := fun i => if (c.exitThread cta).ctaStatus i = 0 then 0 else 1)
    fun i hi => by simp [Core.exitThread, hi]
  have hleft := sum_set hcta (f := c.ctaStatus) (t := (c.exitThread cta).ctaStatus)
    fun i hi => by simp [Core.exitThread, hi]
  have hself : (c.exitThread cta).ctaStatus cta = c.ctaStatus cta - 1 := if_pos rfl
  rw [hself, ← h.left] at hleft
  simp only [hself, if_neg hthere, ← h.active] at hactive
  refine ⟨?_, ?_, ?_⟩
  · show (if c.ctaStatus cta = 1 then c.nActiveCta - 1 else c.nActiveCta) = _
    split at hactive <;> split <;> omega
  · show c.notCompleted - 1 = _
    omega
  · have hle := Finset.single_le_sum (f := c.ctaStatus) (fun _ _ => Nat.zero_le _) (Finset.mem_range.2 hcta)
    rw [h.left]
    omega

end CoreOk

/-! ## Counters -/

/-- The threads of a kernel that have not exited. -/
def remaining (cfg : Config) (g : Gpu) (uid : ℕ) : ℕ :=
  ∑ sid ∈ Finset.range (cfg.clusters * cfg.coresPerCluster),
    if (g.core sid).kernel = some uid then (g.core sid).notCompleted else 0

/-- What the counters of the kernels say about the SMs. -/
structure Cores (kernel : ℕ → Kernel cfg) (g : Gpu) : Prop where
  core : ∀ sid, CoreOk cfg (g.core sid)
  counts : ∀ k, g.numCoresRunning k = g.bound cfg k
  threads : ∀ k, g.exited k + remaining cfg g k = (kernel k).threadsPerCta * g.issued k
  index : ∀ k, Index (kernel k).gridDim (g.nextCta k) (g.issued k)

theorem bound_set (hsid : sid < cfg.clusters * cfg.coresPerCluster)
    (hcore : ∀ i, i ≠ sid → g'.core i = g.core i) (k : ℕ) :
    g'.bound cfg k + (if (g.core sid).kernel = some k then 1 else 0) =
      g.bound cfg k + if (g'.core sid).kernel = some k then 1 else 0 :=
  sum_set (f := fun i => if (g.core i).kernel = some k then 1 else 0)
    (t := fun i => if (g'.core i).kernel = some k then 1 else 0) hsid fun i hi => by rw [hcore i hi]

theorem remaining_set (hsid : sid < cfg.clusters * cfg.coresPerCluster)
    (hcore : ∀ i, i ≠ sid → g'.core i = g.core i) (k : ℕ) :
    remaining cfg g' k + (if (g.core sid).kernel = some k then (g.core sid).notCompleted else 0) =
      remaining cfg g k + if (g'.core sid).kernel = some k then (g'.core sid).notCompleted else 0 :=
  sum_set (f := fun i => if (g.core i).kernel = some k then (g.core i).notCompleted else 0)
    (t := fun i => if (g'.core i).kernel = some k then (g'.core i).notCompleted else 0) hsid
    fun i hi => by rw [hcore i hi]

theorem Cores.remaining_eq_zero_iff (h : Cores kernel g) :
    remaining cfg g k = 0 ↔ g.numCoresRunning k = 0 := by
  rw [h.counts, remaining, Gpu.bound, Finset.sum_eq_zero_iff, Finset.sum_eq_zero_iff]
  refine forall₂_congr fun i _ => ?_
  by_cases hi : (g.core i).kernel = some k
  · have hne : (g.core i).notCompleted ≠ 0 := by
      rw [Ne, (h.core i).notCompleted_eq_zero_iff, hi]
      nofun
    simp [hi, hne]
  · simp [hi]

theorem Cores.running_ne_zero (h : Cores kernel g) (hsid : sid < cfg.clusters * cfg.coresPerCluster)
    (hk : (g.core sid).kernel = some k) : g.numCoresRunning k ≠ 0 := by
  rw [h.counts]
  intro hzero
  have := (Finset.sum_eq_zero_iff.1 hzero) sid (Finset.mem_range.2 hsid)
  simp [hk] at this

/-- A CTA is issued to an SM that has CTAs of the kernel, or to an idle one, which is bound to it. -/
theorem Cores.issue (h : Cores kernel g) (hsid : sid < cfg.clusters * cfg.coresPerCluster)
    (hmore : ¬ g.noMoreCtasToRun kernel uid)
    (hfor : (g.core sid).kernel = none ∨ (g.core sid).kernel = some uid)
    (hslot : slot < cfg.maxCtaPerShader) (hfree : (g.core sid).ctaStatus slot = 0)
    (hcore : ∀ i, i ≠ sid → g'.core i = g.core i)
    (hself : g'.core sid = { (g.core sid).addCta slot (kernel uid).threadsPerCta with kernel := some uid })
    (hrun : ∀ k, g'.numCoresRunning k = g.numCoresRunning k +
      if k = uid ∧ (g.core sid).kernel = none then 1 else 0)
    (hnext : ∀ k, g'.nextCta k =
      if k = uid then (kernel uid).gridDim.increment (g.nextCta uid) else g.nextCta k)
    (hissued : ∀ k, g'.issued k = if k = uid then g.issued k + 1 else g.issued k)
    (hexited : g'.exited = g.exited) : Cores kernel g' := by
  refine ⟨fun i => ?_, fun k => ?_, fun k => ?_, fun k => ?_⟩
  · by_cases hi : i = sid
    · rw [hi, hself]
      exact (h.core sid).addCta hslot hfree (kernel uid).threads_pos uid
    · rw [hcore i hi]
      exact h.core i
  · have hset := bound_set hsid hcore k
    rw [hself] at hset
    rw [hrun, h.counts]
    rcases hfor with hnone | hsome
    · by_cases hk : k = uid
      · subst hk
        simp only [hnone, and_self, if_pos, reduceCtorEq, if_false] at hset ⊢
        omega
      · simp only [hnone, hk, Ne.symm hk, Option.some.injEq, false_and, reduceCtorEq, if_false] at hset ⊢
        omega
    · simp only [hsome, reduceCtorEq, and_false, if_false] at hset ⊢
      omega
  · have hset := remaining_set hsid hcore k
    have hold := h.threads k
    rw [hself] at hset
    rw [hexited, hissued]
    have hidle : (g.core sid).kernel = none → (g.core sid).notCompleted = 0 :=
      (h.core sid).notCompleted_eq_zero_iff.2
    by_cases hk : k = uid
    · subst hk
      rw [if_pos rfl, Nat.mul_succ]
      simp only [if_pos, Core.addCta] at hset
      rcases hfor with hnone | hsome
      · simp only [hnone, reduceCtorEq, if_false, hidle hnone] at hset
        omega
      · simp only [hsome, if_pos] at hset
        omega
    · rw [if_neg hk]
      have hne : (some uid : Option ℕ) ≠ some k := fun he => hk (Option.some.inj he).symm
      have hne' : (g.core sid).kernel ≠ some k := by
        rcases hfor with hnone | hsome
        · rw [hnone]
          simp
        · rw [hsome]
          exact hne
      simp only [if_neg hne, if_neg hne'] at hset
      omega
  · rw [hnext, hissued]
    by_cases hk : k = uid
    · subst hk
      rw [if_pos rfl, if_pos rfl]
      exact (h.index k).increment hmore
    · rw [if_neg hk, if_neg hk]
      exact h.index k

/-- A thread exits; the SM is released when that was its last one. -/
theorem Cores.exitThread (h : Cores kernel g) (hsid : sid < cfg.clusters * cfg.coresPerCluster)
    (hcta : cta < cfg.maxCtaPerShader) (hthere : (g.core sid).ctaStatus cta ≠ 0)
    (hk : (g.core sid).kernel = some uid)
    (hcore : ∀ i, i ≠ sid → g'.core i = g.core i)
    (hself : g'.core sid = { (g.core sid).exitThread cta with
      kernel := if ((g.core sid).exitThread cta).nActiveCta = 0 then none else some uid })
    (hrun : ∀ k, g'.numCoresRunning k =
      if k = uid ∧ ((g.core sid).exitThread cta).nActiveCta = 0 then g.numCoresRunning k - 1
      else g.numCoresRunning k)
    (hnext : g'.nextCta = g.nextCta) (hissued : g'.issued = g.issued)
    (hexited : ∀ k, g'.exited k = if k = uid then g.exited k + 1 else g.exited k) : Cores kernel g' := by
  obtain ⟨hactive, hleft, hne⟩ := (h.core sid).exitThread hcta hthere
  have hok : CoreOk cfg (g'.core sid) := by
    rw [hself]
    refine ⟨hactive, hleft, ?_⟩
    by_cases hzero : ((g.core sid).exitThread cta).nActiveCta = 0 <;> simp [hzero]
  have hleftSelf : (g'.core sid).notCompleted = (g.core sid).notCompleted - 1 := by
    rw [hself]
    rfl
  have hkernel : (g'.core sid).kernel =
      if ((g.core sid).exitThread cta).nActiveCta = 0 then none else some uid := by
    rw [hself]
  refine ⟨fun i => ?_, fun k => ?_, fun k => ?_, fun k => ?_⟩
  · by_cases hi : i = sid
    · rw [hi]
      exact hok
    · rw [hcore i hi]
      exact h.core i
  · have hset := bound_set hsid hcore k
    rw [hk, hkernel] at hset
    rw [hrun, h.counts]
    by_cases hzero : ((g.core sid).exitThread cta).nActiveCta = 0
    · by_cases hku : k = uid
      · subst hku
        simp only [hzero, and_self, if_pos, reduceCtorEq, if_false] at hset ⊢
        omega
      · simp only [hzero, hku, Ne.symm hku, Option.some.injEq, false_and, reduceCtorEq, if_false, if_pos] at hset ⊢
        omega
    · simp only [hzero, and_false, if_false] at hset ⊢
      omega
  · have hset := remaining_set hsid hcore k
    have hold := h.threads k
    rw [hk, hleftSelf] at hset
    rw [hexited, hissued]
    by_cases hku : k = uid
    · subst hku
      rw [if_pos rfl] at hset ⊢
      by_cases hnone : (g'.core sid).kernel = none
      · have hlast := hok.notCompleted_eq_zero_iff.2 hnone
        rw [hleftSelf] at hlast
        simp only [hnone, reduceCtorEq, if_false] at hset
        omega
      · have hsome : (g'.core sid).kernel = some k := by
          rw [hkernel] at hnone ⊢
          split at hnone
          · exact absurd rfl hnone
          · next hz => rw [if_neg hz]
        rw [if_pos hsome] at hset
        omega
    · have hne' : (some uid : Option ℕ) ≠ some k := fun he => hku (Option.some.inj he).symm
      have hne'' : (g'.core sid).kernel ≠ some k := by
        rw [hkernel]
        split
        · simp
        · exact hne'
      rw [if_neg hku]
      rw [if_neg hne', if_neg hne''] at hset
      omega
  · rw [hnext, hissued]
    exact h.index k

theorem Cores.numBlocks_pos (h : Cores kernel g) (hsid : sid < cfg.clusters * cfg.coresPerCluster)
    (hk : (g.core sid).kernel = some k) : 0 < (kernel k).gridDim.numBlocks := by
  have hrem := mt h.remaining_eq_zero_iff.1 (h.running_ne_zero hsid hk)
  have hthreads := h.threads k
  have hissued : g.issued k ≠ 0 := by
    intro hzero
    rw [hzero, Nat.mul_zero] at hthreads
    omega
  have := (h.index k).le
  omega

/-! ## Slots -/

/-- The slots hold the kernels that were launched and not reported, and the bound ones are among them. -/
structure Slots (kernel : ℕ → Kernel cfg) (g : Gpu) : Prop where
  resident : ∀ sid < cfg.clusters * cfg.coresPerCluster, ∀ k, (g.core sid).kernel = some k →
    ∃ n < cfg.maxConcurrentKernel, g.runningKernels n = some k
  slot : ∀ n < cfg.maxConcurrentKernel, ∀ k, g.runningKernels n = some k →
    k ∈ g.launched ∧ k ∉ g.reported ++ g.finished
  apart : ∀ n < cfg.maxConcurrentKernel, ∀ m < cfg.maxConcurrentKernel, ∀ k,
    g.runningKernels n = some k → g.runningKernels m = some k → n = m
  waiting : ∀ k ∈ g.launched, 0 < (kernel k).gridDim.numBlocks → k ∉ g.reported ++ g.finished →
    ∃ n < cfg.maxConcurrentKernel, g.runningKernels n = some k
  notDone : ∀ n < cfg.maxConcurrentKernel, ∀ k, g.runningKernels n = some k →
    0 < (kernel k).gridDim.numBlocks → ¬ g.done kernel k
  reported : ∀ k ∈ g.reported ++ g.finished, g.done kernel k ∧ 0 < (kernel k).gridDim.numBlocks
  nodup : (g.reported ++ g.finished).Nodup
  fresh : ∀ k, k ∉ g.launched → g.issued k = 0

namespace Slots

theorem congr (h : Slots kernel g) (hslots : g'.runningKernels = g.runningKernels)
    (hlaunched : g'.launched = g.launched)
    (hreports : g'.reported ++ g'.finished = g.reported ++ g.finished)
    (hdone : ∀ k, g'.done kernel k ↔ g.done kernel k)
    (hres : ∀ sid < cfg.clusters * cfg.coresPerCluster, ∀ k, (g'.core sid).kernel = some k →
      ∃ n < cfg.maxConcurrentKernel, g.runningKernels n = some k)
    (hfresh : ∀ k, k ∉ g.launched → g'.issued k = 0) : Slots kernel g' := by
  refine ⟨?_, ?_, ?_, ?_, ?_, ?_, ?_, ?_⟩
  · rw [hslots]
    exact hres
  · rw [hslots, hlaunched, hreports]
    exact h.slot
  · rw [hslots]
    exact h.apart
  · rw [hslots, hlaunched, hreports]
    exact h.waiting
  · intro n hn k hk hpos
    rw [hdone]
    exact h.notDone n hn k (hslots ▸ hk) hpos
  · intro k hk
    rw [hdone]
    exact h.reported k (hreports ▸ hk)
  · rw [hreports]
    exact h.nodup
  · rw [hlaunched]
    exact hfresh

/-- The kernel in a slot is done and leaves it. -/
theorem finish (h : Slots kernel g) (hn : n < cfg.maxConcurrentKernel)
    (hslot : g.runningKernels n = some uid) (hpos : 0 < (kernel uid).gridDim.numBlocks)
    (hslots : ∀ i, g'.runningKernels i = if i = n then none else g.runningKernels i)
    (hlaunched : g'.launched = g.launched)
    (hreports : g'.reported ++ g'.finished = (g.reported ++ g.finished) ++ [uid])
    (hself : g'.done kernel uid) (hdone : ∀ k, k ≠ uid → (g'.done kernel k ↔ g.done kernel k))
    (hres : ∀ sid < cfg.clusters * cfg.coresPerCluster, ∀ k, (g'.core sid).kernel = some k →
      k ≠ uid ∧ (g.core sid).kernel = some k)
    (hissued : g'.issued = g.issued) : Slots kernel g' := by
  have hof : ∀ i < cfg.maxConcurrentKernel, ∀ k, g'.runningKernels i = some k →
      k ≠ uid ∧ g.runningKernels i = some k := by
    intro i hi k hk
    rw [hslots] at hk
    split at hk
    · cases hk
    · next hin =>
      refine ⟨?_, hk⟩
      rintro rfl
      exact hin (h.apart i hi n hn k hk hslot)
  have hback : ∀ k, k ≠ uid → (∃ i < cfg.maxConcurrentKernel, g.runningKernels i = some k) →
      ∃ i < cfg.maxConcurrentKernel, g'.runningKernels i = some k := by
    rintro k hk ⟨i, hi, heq⟩
    refine ⟨i, hi, ?_⟩
    rw [hslots, if_neg, heq]
    rintro rfl
    exact hk (Option.some.inj (heq.symm.trans hslot))
  refine ⟨fun sid hsid k hk => ?_, fun i hi k hk => ?_, fun i hi m hm k hk hk' => ?_,
    fun k hk hpos hnot => ?_, fun i hi k hk hpos => ?_, fun k hk => ?_, ?_, ?_⟩
  · obtain ⟨hne, hk⟩ := hres sid hsid k hk
    exact hback k hne (h.resident sid hsid k hk)
  · obtain ⟨hne, hk⟩ := hof i hi k hk
    rw [hlaunched, hreports, List.mem_append, List.mem_singleton]
    exact ⟨(h.slot i hi k hk).1, not_or.2 ⟨(h.slot i hi k hk).2, hne⟩⟩
  · exact h.apart i hi m hm k (hof i hi k hk).2 (hof m hm k hk').2
  · rw [hreports, List.mem_append, List.mem_singleton, not_or] at hnot
    exact hback k hnot.2 (h.waiting k (hlaunched ▸ hk) hpos hnot.1)
  · obtain ⟨hne, hk⟩ := hof i hi k hk
    rw [hdone k hne]
    exact h.notDone i hi k hk hpos
  · rw [hreports, List.mem_append, List.mem_singleton] at hk
    by_cases hku : k = uid
    · subst hku
      exact ⟨hself, hpos⟩
    · rw [hdone k hku]
      exact h.reported k (hk.resolve_right hku)
  · rw [hreports]
    refine List.nodup_append.2 ⟨h.nodup, List.nodup_singleton uid, fun a ha b hb => ?_⟩
    rw [List.mem_singleton.1 hb]
    rintro rfl
    exact (h.slot n hn a hslot).2 ha
  · rw [hlaunched, hissued]
    exact h.fresh

end Slots

/-! ## The steps -/

theorem launch_spec (h : Cores kernel g) (hs : Slots kernel g) (hnew : uid ∉ g.launched)
    (hcan : g.canStartKernel kernel) :
    ∃ g', g.launch kernel uid = some g' ∧ Cores kernel g' ∧ Slots kernel g' := by
  unfold Gpu.launch
  cases hfind : (List.range cfg.maxConcurrentKernel).find? fun n => g.slotFree kernel n with
  | none =>
    obtain ⟨n, hn, hfree⟩ := hcan
    rw [List.find?_eq_none] at hfind
    exact absurd (decide_eq_true hfree) (hfind n (List.mem_range.2 hn))
  | some n =>
    have hn := List.mem_range.1 (List.mem_of_find?_eq_some hfind)
    have hfree : g.slotFree kernel n := by simpa using List.find?_some hfind
    refine ⟨_, rfl, ⟨h.core, h.counts, h.threads, h.index⟩, ?_⟩
    have hunreported : uid ∉ g.reported ++ g.finished := by
      intro hmem
      obtain ⟨⟨hpast, -⟩, hpos⟩ := hs.reported uid hmem
      have := (h.index uid).past_iff.1 hpast
      rw [hs.fresh uid hnew] at this
      omega
    have hback : ∀ k, (∃ i < cfg.maxConcurrentKernel, g.runningKernels i = some k) → ¬ g.done kernel k →
        ∃ i < cfg.maxConcurrentKernel, (if i = n then some uid else g.runningKernels i) = some k := by
      rintro k ⟨i, hi, heq⟩ hdone
      refine ⟨i, hi, ?_⟩
      rw [if_neg, heq]
      rintro rfl
      exact hdone (hfree k heq)
    refine ⟨fun sid hsid k hk => ?_, fun i hi k hk => ?_, fun i hi m hm k hk hk' => ?_,
      fun k hk hpos hnot => ?_, fun i hi k hk hpos => ?_, hs.reported, hs.nodup, fun k hk => ?_⟩
    · exact hback k (hs.resident sid hsid k hk) fun hd => h.running_ne_zero hsid hk hd.2
    · dsimp only at hk
      split at hk
      · obtain rfl := Option.some.inj hk
        exact ⟨List.mem_cons_self, hunreported⟩
      · exact ⟨List.mem_cons_of_mem _ (hs.slot i hi k hk).1, (hs.slot i hi k hk).2⟩
    · dsimp only at hk hk'
      split at hk <;> split at hk'
      · next hin him => exact hin.trans him.symm
      · obtain rfl := Option.some.inj hk
        exact absurd (hs.slot m hm uid hk').1 hnew
      · obtain rfl := Option.some.inj hk'
        exact absurd (hs.slot i hi uid hk).1 hnew
      · exact hs.apart i hi m hm k hk hk'
    · rcases List.mem_cons.1 hk with rfl | hk
      · exact ⟨n, hn, if_pos rfl⟩
      · obtain ⟨i, hi, heq⟩ := hs.waiting k hk hpos hnot
        exact hback k ⟨i, hi, heq⟩ (hs.notDone i hi k heq hpos)
    · dsimp only at hk
      split at hk
      · obtain rfl := Option.some.inj hk
        rintro ⟨hpast, -⟩
        have := (h.index uid).past_iff.1 hpast
        rw [hs.fresh uid hnew] at this
        omega
      · exact hs.notDone i hi k hk hpos
    · exact hs.fresh k fun hmem => hk (List.mem_cons_of_mem _ hmem)

theorem finishedKernel_spec (h : Cores kernel g) (hs : Slots kernel g) :
    Cores kernel g.finishedKernel ∧ Slots kernel g.finishedKernel := by
  unfold Gpu.finishedKernel
  split
  · exact ⟨h, hs⟩
  · next uid rest heq =>
    refine ⟨⟨h.core, h.counts, h.threads, h.index⟩, ?_⟩
    exact hs.congr rfl rfl (by simp [heq]) (fun _ => Iff.rfl) hs.resident hs.fresh

theorem core_exitThread (g : Gpu) (sid cta : ℕ) :
    (g.exitThread sid cta).core sid = (g.core sid).exitThread cta := if_pos rfl

theorem core_exitThread_of_ne {i : ℕ} (hi : i ≠ sid) : (g.exitThread sid cta).core i = g.core i := if_neg hi

theorem exited_exitThread (cta : ℕ) (hk : (g.core sid).kernel = some uid) (k : ℕ) :
    (g.exitThread sid cta).exited k = if k = uid then g.exited k + 1 else g.exited k := by
  simp only [Gpu.exitThread, hk, Option.some.injEq, eq_comm]

theorem core_unbind (g : Gpu) (sid cta uid : ℕ) : ((g.exitThread sid cta).unbind sid uid).core sid =
    { (g.core sid).exitThread cta with kernel := none } := by
  simp only [Gpu.unbind, Gpu.setCore, if_pos, core_exitThread]

theorem core_unbind_of_ne {i : ℕ} (hi : i ≠ sid) :
    ((g.exitThread sid cta).unbind sid uid).core i = g.core i :=
  (if_neg hi).trans (core_exitThread_of_ne hi)

/-- A released SM is not bound; the others stay as they were. -/
theorem kernel_of_unbind (uid : ℕ) {i : ℕ}
    (h : (((g.exitThread sid cta).unbind sid uid).core i).kernel = some k) : (g.core i).kernel = some k := by
  by_cases hi : i = sid
  · rw [hi, core_unbind] at h
    exact nomatch h
  · rwa [core_unbind_of_ne hi] at h

theorem done_unbind_of_ne (hk : k ≠ uid) :
    ((g.exitThread sid cta).unbind sid uid).done kernel k ↔ g.done kernel k := by
  refine and_congr Iff.rfl ?_
  rw [show ((g.exitThread sid cta).unbind sid uid).numCoresRunning k = g.numCoresRunning k from if_neg hk]

/-- A thread that is not the last one of its SM. -/
theorem exitThread_kept (h : Cores kernel g) (hs : Slots kernel g)
    (hsid : sid < cfg.clusters * cfg.coresPerCluster) (hcta : cta < cfg.maxCtaPerShader)
    (hthere : (g.core sid).ctaStatus cta ≠ 0) (hk : (g.core sid).kernel = some uid)
    (hleft : ((g.core sid).exitThread cta).nActiveCta ≠ 0) :
    Cores kernel (g.exitThread sid cta) ∧ Slots kernel (g.exitThread sid cta) := by
  constructor
  · apply h.exitThread hsid hcta hthere hk fun i => core_exitThread_of_ne
    · rw [core_exitThread, if_neg hleft, ← hk]
      rfl
    · intro k
      rw [if_neg fun hand => hleft hand.2]
      rfl
    · rfl
    · rfl
    · exact exited_exitThread cta hk
  · refine hs.congr ?_ ?_ ?_ ?_ ?_ hs.fresh
    · rfl
    · rfl
    · rfl
    · exact fun _ => Iff.rfl
    intro i hi k hik
    by_cases his : i = sid
    · rw [his, core_exitThread] at hik
      exact hs.resident sid hsid k hik
    · rw [core_exitThread_of_ne his] at hik
      exact hs.resident i hi k hik

/-- With its last thread the SM is released. -/
theorem Cores.unbind (h : Cores kernel g) (hsid : sid < cfg.clusters * cfg.coresPerCluster)
    (hcta : cta < cfg.maxCtaPerShader) (hthere : (g.core sid).ctaStatus cta ≠ 0)
    (hk : (g.core sid).kernel = some uid) (hzero : ((g.core sid).exitThread cta).nActiveCta = 0) :
    Cores kernel ((g.exitThread sid cta).unbind sid uid) := by
  apply h.exitThread hsid hcta hthere hk fun i => core_unbind_of_ne
  · rw [core_unbind, if_pos hzero]
  · intro k
    simp only [hzero, and_true]
    rfl
  · rfl
  · rfl
  · exact exited_exitThread cta hk

/-- A kernel that is not done keeps its slot when an SM is released. -/
theorem Slots.unbind (hs : Slots kernel g) (hn : n < cfg.maxConcurrentKernel)
    (hslot : g.runningKernels n = some uid) (hpos : 0 < (kernel uid).gridDim.numBlocks)
    (hdone : ¬ ((g.exitThread sid cta).unbind sid uid).done kernel uid) :
    Slots kernel ((g.exitThread sid cta).unbind sid uid) := by
  refine hs.congr ?_ ?_ ?_ ?_ ?_ ?_
  · rfl
  · rfl
  · rfl
  · intro k
    by_cases hku : k = uid
    · rw [hku]
      exact iff_of_false hdone (hs.notDone n hn uid hslot hpos)
    · exact done_unbind_of_ne hku
  · intro i hi k hik
    exact hs.resident i hi k (kernel_of_unbind uid hik)
  · exact hs.fresh

/-- A kernel that is done leaves its slot and is reported. -/
theorem setKernelDone_spec (hcores : Cores kernel ((g.exitThread sid cta).unbind sid uid))
    (hs : Slots kernel g) (hn : n < cfg.maxConcurrentKernel) (hslot : g.runningKernels n = some uid)
    (hpos : 0 < (kernel uid).gridDim.numBlocks)
    (hdone : ((g.exitThread sid cta).unbind sid uid).done kernel uid) :
    ∃ g', ((g.exitThread sid cta).unbind sid uid).setKernelDone cfg uid = some g' ∧
      Cores kernel g' ∧ Slots kernel g' := by
  rw [Gpu.setKernelDone]
  cases hfind : (List.range cfg.maxConcurrentKernel).find? fun n =>
      ((g.exitThread sid cta).unbind sid uid).runningKernels n = some uid with
  | none =>
    rw [List.find?_eq_none] at hfind
    exact absurd (decide_eq_true hslot) (hfind n (List.mem_range.2 hn))
  | some m =>
    have hm := List.mem_range.1 (List.mem_of_find?_eq_some hfind)
    have hslot' : g.runningKernels m = some uid := by
      have := List.find?_some hfind
      exact of_decide_eq_true this
    refine ⟨_, rfl, ⟨hcores.core, hcores.counts, hcores.threads, hcores.index⟩, ?_⟩
    refine hs.finish hm hslot' hpos ?_ ?_ ?_ ?_ ?_ ?_ ?_
    · exact fun _ => rfl
    · rfl
    · exact (List.append_assoc _ _ _).symm
    · exact hdone
    · intro k hku
      exact (done_unbind_of_ne hku : ((g.exitThread sid cta).unbind sid uid).done kernel k ↔ _)
    · intro i hi k hik
      refine ⟨?_, kernel_of_unbind uid hik⟩
      rintro rfl
      exact hcores.running_ne_zero hi hik hdone.2
    · rfl

theorem exit_spec (h : Cores kernel g) (hs : Slots kernel g)
    (hsid : sid < cfg.clusters * cfg.coresPerCluster) (hcta : cta < cfg.maxCtaPerShader)
    (hthere : (g.core sid).ctaStatus cta ≠ 0) :
    ∃ g', g.registerCtaThreadExit kernel sid cta = some g' ∧ Cores kernel g' ∧ Slots kernel g' := by
  have hne := ((h.core sid).exitThread hcta hthere).2.2
  obtain ⟨uid, hk⟩ := Option.ne_none_iff_exists'.1 fun hnone =>
    hne ((h.core sid).notCompleted_eq_zero_iff.2 hnone)
  have hactive : (g.core sid).nActiveCta ≠ 0 := by
    rw [Ne, ← (h.core sid).idle, hk]
    nofun
  have hlast : ((g.core sid).exitThread cta).nActiveCta = 0 → (g.core sid).ctaStatus cta = 1 := by
    intro hzero
    by_contra hnot
    exact hactive ((if_neg hnot).symm.trans hzero)
  rw [Gpu.registerCtaThreadExit, if_neg hthere]
  dsimp only
  rw [core_exitThread]
  by_cases hzero : ((g.core sid).exitThread cta).nActiveCta = 0
  · have hbound : ((g.exitThread sid cta).core sid).kernel = some uid :=
      (congrArg Core.kernel (core_exitThread g sid cta)).trans hk
    have hrunning : ¬ (g.exitThread sid cta).numCoresRunning uid = 0 := h.running_ne_zero hsid hk
    rw [if_pos ⟨hlast hzero, hzero⟩, Gpu.release, hbound]
    dsimp only
    rw [if_neg hrunning]
    have hcores := h.unbind hsid hcta hthere hk hzero
    obtain ⟨n, hn, hslot⟩ := hs.resident sid hsid uid hk
    have hpos := h.numBlocks_pos hsid hk
    by_cases hdone : ((g.exitThread sid cta).unbind sid uid).done kernel uid
    · rw [if_pos hdone]
      exact setKernelDone_spec hcores hs hn hslot hpos hdone
    · rw [if_neg hdone]
      exact ⟨_, rfl, hcores, hs.unbind hn hslot hpos hdone⟩
  · rw [if_neg fun hand => hzero hand.2]
    exact ⟨_, rfl, exitThread_kept h hs hsid hcta hthere hk hzero⟩

/-! ## Issue -/

theorem selectKernel_spec {idx : ℕ} (h : g.selectKernel kernel = some (idx, uid)) :
    (∃ n < cfg.maxConcurrentKernel, g.runningKernels n = some uid) ∧ ¬ g.noMoreCtasToRun kernel uid := by
  obtain ⟨n, hn, hsome⟩ := List.exists_of_findSome?_eq_some h
  have hpos : 0 < cfg.maxConcurrentKernel := Nat.zero_lt_of_lt (List.mem_range.1 hn)
  dsimp only at hsome
  split at hsome
  · cases hsome
  · next k hk =>
    split at hsome
    · cases hsome
    · next hmore =>
      obtain ⟨-, rfl⟩ := Prod.mk.inj (Option.some.inj hsome)
      exact ⟨⟨_, Nat.mod_lt _ hpos, hk⟩, hmore⟩

/-- A CTA is issued to an SM that is bound to the kernel, or was just bound to it. -/
theorem issue_spec (h : Cores kernel g) (hs : Slots kernel g)
    (hsid : sid < cfg.clusters * cfg.coresPerCluster) (hmore : ¬ g.noMoreCtasToRun kernel uid)
    (hfor : (g.core sid).kernel = none ∨ (g.core sid).kernel = some uid)
    (hslotted : ∃ n < cfg.maxConcurrentKernel, g.runningKernels n = some uid)
    (hroom : (g.core sid).nActiveCta < (kernel uid).maxCta) (b : Gpu)
    (hcore : ∀ i, i ≠ sid → b.core i = g.core i)
    (hself : b.core sid = { g.core sid with kernel := some uid })
    (hrun : ∀ k, b.numCoresRunning k = g.numCoresRunning k +
      if k = uid ∧ (g.core sid).kernel = none then 1 else 0)
    (hnext : b.nextCta = g.nextCta) (hissued : b.issued = g.issued) (hexited : b.exited = g.exited)
    (hslots : b.runningKernels = g.runningKernels) (hlaunched : b.launched = g.launched)
    (hreports : b.reported ++ b.finished = g.reported ++ g.finished) (next : ℕ → ℕ) :
    ∃ g', b.issueCta kernel sid uid = some g' ∧ Cores kernel { g' with ctaIssueNextCore := next } ∧
      Slots kernel { g' with ctaIssueNextCore := next } := by
  obtain ⟨slot, hslot, hfind, hfree⟩ := (h.core sid).exists_free (kernel uid).maxCta_le hroom
  have hstatus : (b.core sid).ctaStatus = (g.core sid).ctaStatus := by rw [hself]
  rw [Gpu.issueCta, hstatus, hfind]
  refine ⟨_, rfl, ?_, ?_⟩
  · apply h.issue hsid hmore hfor (Nat.lt_of_lt_of_le hslot (kernel uid).maxCta_le) hfree
    · exact fun i hi => (if_neg hi).trans (hcore i hi)
    · refine (if_pos rfl).trans ?_
      rw [hself]
      rfl
    · exact hrun
    · intro k
      rw [← hnext]
    · intro k
      rw [← hissued]
    · exact hexited
  · have hnew : ∀ i < cfg.clusters * cfg.coresPerCluster, ∀ k,
        (((b.setCore sid ((b.core sid).addCta slot (kernel uid).threadsPerCta)).core i).kernel = some k) →
        ∃ n < cfg.maxConcurrentKernel, g.runningKernels n = some k := by
      intro i hi k hik
      by_cases his : i = sid
      · have hsome : (b.core sid).kernel = some k := by
          have hset : (b.setCore sid ((b.core sid).addCta slot (kernel uid).threadsPerCta)).core sid =
              (b.core sid).addCta slot (kernel uid).threadsPerCta := if_pos rfl
          rw [his, hset] at hik
          exact hik
        rw [hself] at hsome
        obtain rfl := Option.some.inj hsome
        exact hslotted
      · have hsome : (b.core i).kernel = some k := (congrArg Core.kernel (if_neg his)).symm.trans hik
        rw [hcore i his] at hsome
        exact hs.resident i hi k hsome
    refine hs.congr hslots hlaunched hreports ?_ hnew ?_
    rotate_left
    · intro k hk
      have hne : k ≠ uid := by
        rintro rfl
        obtain ⟨n, hn, heq⟩ := hslotted
        exact hk (hs.slot n hn k heq).1
      exact (if_neg hne).trans (hissued ▸ hs.fresh k hk)
    · intro k
      by_cases hk : k = uid
      · subst hk
        refine iff_of_false (fun hd => ?_) fun hd => hmore hd.1
        have hzero : b.numCoresRunning k = 0 := hd.2
        rw [hrun] at hzero
        rcases hfor with hnone | hsome
        · simp [hnone] at hzero
        · exact h.running_ne_zero hsid hsome (Nat.eq_zero_of_add_eq_zero_right hzero)
      · refine and_congr ?_ ?_
        · simp only [Gpu.noMoreCtasToRun, if_neg hk, hnext]
        · show b.numCoresRunning k = 0 ↔ g.numCoresRunning k = 0
          rw [hrun, if_neg fun hand => hk hand.1, Nat.add_zero]

theorem issueCta_next (h : g.issueCta kernel sid uid = some g') :
    g'.ctaIssueNextCore = g.ctaIssueNextCore := by
  unfold Gpu.issueCta at h
  split at h
  · cases h
  · obtain rfl := Option.some.inj h
    rfl

theorem issueLoop_spec {cluster : ℕ} (hcluster : cluster < cfg.clusters) (h : Cores kernel g)
    (hs : Slots kernel g) {cores : List ℕ} (hcores : ∀ core ∈ cores, core < cfg.coresPerCluster) :
    ∃ g', g.issueLoop kernel cluster cores = some g' ∧ Cores kernel g' ∧ Slots kernel g' := by
  induction cores with
  | nil => exact ⟨g, rfl, h, hs⟩
  | cons core rest ih =>
    have hrest := ih fun i hi => hcores i (List.mem_cons_of_mem _ hi)
    have hsid : cluster * cfg.coresPerCluster + core < cfg.clusters * cfg.coresPerCluster := by
      have hcore := hcores core List.mem_cons_self
      have := Nat.mul_le_mul_right cfg.coresPerCluster hcluster
      rw [Nat.succ_mul] at this
      omega
    rw [Gpu.issueLoop]
    generalize cluster * cfg.coresPerCluster + core = sid at hsid ⊢
    cases hk : (g.core sid).kernel with
    | none =>
      have hzero := (h.core sid).notCompleted_eq_zero_iff.2 hk
      cases hsel : g.selectKernel kernel with
      | none =>
        have hbind : g.bind kernel sid = g := by simp only [Gpu.bind, hzero, hk, hsel, if_pos]
        rw [hbind, hk]
        exact hrest
      | some p =>
        obtain ⟨idx, uid⟩ := p
        obtain ⟨hslotted, hmore⟩ := selectKernel_spec hsel
        have hbind : g.bind kernel sid = g.setKernel sid idx uid := by
          simp only [Gpu.bind, hzero, hk, hsel, if_pos]
        have hself : (g.setKernel sid idx uid).core sid = { g.core sid with kernel := some uid } := if_pos rfl
        have hroom : (g.core sid).nActiveCta < (kernel uid).maxCta := by
          rw [(h.core sid).idle.1 hk]
          exact (kernel uid).maxCta_pos
        have hgo : ¬ (g.setKernel sid idx uid).noMoreCtasToRun kernel uid ∧
            ((g.setKernel sid idx uid).core sid).nActiveCta < (kernel uid).maxCta :=
          ⟨hmore, by rw [hself]; exact hroom⟩
        rw [hbind, show ((g.setKernel sid idx uid).core sid).kernel = some uid by rw [hself]]
        dsimp only
        rw [if_pos hgo]
        obtain ⟨g', hg', hc', hs'⟩ := issue_spec h hs hsid hmore (Or.inl hk) hslotted hroom
          (g.setKernel sid idx uid) (fun i hi => if_neg hi) hself
          (fun k => by
            show (if k = uid then g.numCoresRunning k + 1 else g.numCoresRunning k) = _
            by_cases hku : k = uid <;> simp [hku, hk])
          rfl rfl rfl rfl rfl rfl fun c => if c = cluster then core else g.ctaIssueNextCore c
        rw [hg', Option.map_some, issueCta_next hg']
        exact ⟨_, rfl, hc', hs'⟩
    | some uid =>
      have hbind : g.bind kernel sid = g := by simp [Gpu.bind, hk]
      rw [hbind, hk]
      dsimp only
      by_cases hgo : ¬ g.noMoreCtasToRun kernel uid ∧ (g.core sid).nActiveCta < (kernel uid).maxCta
      · rw [if_pos hgo]
        obtain ⟨g', hg', hc', hs'⟩ := issue_spec h hs hsid hgo.1 (Or.inr hk) (hs.resident sid hsid uid hk)
          hgo.2 g (fun _ _ => rfl) (by rw [← hk]) (fun k => by simp [hk]) rfl rfl rfl rfl rfl rfl
          fun c => if c = cluster then core else g.ctaIssueNextCore c
        rw [hg', Option.map_some, issueCta_next hg']
        exact ⟨_, rfl, hc', hs'⟩
      · rw [if_neg hgo]
        exact hrest

/-! ## Runs -/

theorem step_spec {ev : Event} (h : Cores kernel g) (hs : Slots kernel g) (hcan : g.Admits kernel ev) :
    ∃ g', g.step kernel ev = some g' ∧ Cores kernel g' ∧ Slots kernel g' := by
  cases ev with
  | launch uid => exact launch_spec h hs hcan.1 hcan.2
  | issue cluster =>
    apply issueLoop_spec hcan h hs
    intro core hcore
    obtain ⟨i, hi, rfl⟩ := List.mem_map.1 hcore
    exact Nat.mod_lt _ (Nat.zero_lt_of_lt (List.mem_range.1 hi))
  | threadExit sid cta => exact exit_spec h hs hcan.1 hcan.2.1 hcan.2.2
  | finishedKernel => exact ⟨_, rfl, finishedKernel_spec h hs⟩

theorem Cores.init : Cores kernel (Gpu.init cfg) := by
  refine ⟨fun _ => ⟨by simp [Gpu.init], by simp [Gpu.init], iff_of_true rfl rfl⟩, fun _ => ?_, fun _ => ?_,
    fun _ => Index.zero _⟩
  · simp [Gpu.init, Gpu.bound]
  · simp [Gpu.init, remaining]

theorem Slots.init : Slots kernel (Gpu.init cfg) := by
  refine ⟨fun _ _ _ hk => ?_, fun _ _ _ hk => ?_, fun _ _ _ _ _ hk => ?_,
    fun _ hk => absurd hk List.not_mem_nil, fun _ _ _ hk => ?_,
    fun _ hk => absurd hk List.not_mem_nil, List.nodup_nil, fun _ _ => rfl⟩
  all_goals exact nomatch hk

/-- A launched kernel with CTAs is among the reports just when it is complete. -/
theorem mem_reports_iff (h : Cores kernel g) (hs : Slots kernel g) (hk : k ∈ g.launched)
    (hpos : 0 < (kernel k).gridDim.numBlocks) :
    k ∈ g.reported ++ g.finished ↔ g.Complete kernel k := by
  have hthreads := h.threads k
  constructor
  · intro hmem
    obtain ⟨⟨hpast, hrun⟩, -⟩ := hs.reported k hmem
    have hissued := (h.index k).past_iff.1 hpast
    rw [h.remaining_eq_zero_iff.2 hrun, hissued] at hthreads
    exact ⟨hissued, hthreads⟩
  · rintro ⟨hissued, hexited⟩
    rw [hissued] at hthreads
    have hdone : g.done kernel k :=
      ⟨(h.index k).past_iff.2 hissued, h.remaining_eq_zero_iff.1 (by omega)⟩
    by_contra hnot
    obtain ⟨n, hn, hslot⟩ := hs.waiting k hk hpos hnot
    exact hs.notDone n hn k hslot hpos hdone

theorem exact_iff (h : Cores kernel g) (hs : Slots kernel g) (hk : k ∈ g.launched) :
    g.Exact kernel k ↔ 0 < (kernel k).gridDim.numBlocks := by
  unfold Gpu.Exact
  constructor
  · intro hexact
    by_contra hnot
    have hempty : (kernel k).gridDim.numBlocks = 0 := by omega
    have hissued : g.issued k = 0 := by
      have := (h.index k).le
      omega
    have hthreads := h.threads k
    rw [hissued, Nat.mul_zero] at hthreads
    have hcomplete : g.Complete kernel k := by
      refine ⟨hissued.trans hempty.symm, ?_⟩
      rw [hempty, Nat.mul_zero]
      omega
    rw [if_pos hcomplete] at hexact
    have hmem : k ∈ g.reported ++ g.finished := List.count_pos_iff.1 (by omega)
    exact hnot (hs.reported k hmem).2
  · intro hpos
    have hiff := mem_reports_iff h hs hk hpos
    split
    case isTrue hcomplete => exact List.count_eq_one_of_mem hs.nodup (hiff.2 hcomplete)
    case isFalse hnot => exact List.count_eq_zero_of_not_mem fun hmem => hnot (hiff.1 hmem)

/-- A call that the GPU can get. -/
def Step (kernel : ℕ → Kernel cfg) (g : Gpu) (ev : Event) (g' : Gpu) : Prop :=
  g.Admits kernel ev ∧ g.step kernel ev = some g'

/-- In every run no assertion fails and the running counts are the numbers of bound SMs, and a launched
kernel is reported as it should just when its grid is not empty. -/
theorem run_complete {log : List Event} (hrun : Reach (· = Gpu.init cfg) (Step kernel) log g) :
    (∀ k, g.numCoresRunning k = g.bound cfg k) ∧
      (∀ ev, g.Admits kernel ev → g.step kernel ev ≠ none) ∧
      ∀ k ∈ g.launched, g.Exact kernel k ↔ 0 < (kernel k).gridDim.numBlocks := by
  have h : Cores kernel g ∧ Slots kernel g := by
    apply hrun.invariant (fun _ g => Cores kernel g ∧ Slots kernel g)
    · rintro g rfl
      exact ⟨.init, .init⟩
    · rintro log g ev g' - ⟨h, hs⟩ ⟨hcan, hstep⟩
      obtain ⟨x, hx, hc, hs⟩ := step_spec h hs hcan
      obtain rfl := Option.some.inj (hx.symm.trans hstep)
      exact ⟨hc, hs⟩
  refine ⟨h.1.counts, fun ev hcan => ?_, fun k hk => exact_iff h.1 h.2 hk⟩
  obtain ⟨x, hx, -⟩ := step_spec h.1 h.2 hcan
  rw [hx]
  nofun

theorem reach_run {log evs : List Event} {g' : Gpu} (h : Reach (· = Gpu.init cfg) (Step kernel) log g)
    (hrun : g.run kernel evs = some g') : Reach (· = Gpu.init cfg) (Step kernel) (log ++ evs) g' := by
  induction evs generalizing log g with
  | nil =>
    obtain rfl := Option.some.inj hrun
    rwa [List.append_nil]
  | cons ev evs ih =>
    rw [Gpu.run] at hrun
    split at hrun
    case isTrue hadmits =>
      obtain ⟨g₁, hstep, hrun⟩ := Option.bind_eq_some_iff.1 hrun
      have hreach := ih (h.append (.cons ⟨hadmits, hstep⟩ .nil)) hrun
      rwa [List.append_assoc, List.singleton_append] at hreach
    case isFalse => cases hrun

def smallConfig : Config := ⟨1, 1, 1, 8⟩

/-- A kernel of one thread per CTA. -/
def smallKernel (ctas : ℕ) (_ : ℕ) : Kernel smallConfig where
  gridDim := ⟨ctas, 1, 1⟩
  threadsPerCta := 1
  maxCta := 1
  threads_pos := by decide
  maxCta_pos := by decide
  maxCta_le := by decide

/-- Two CTAs, one after the other, from the launch to the report. -/
def wholeKernel : List Event :=
  [.launch 1, .issue 0, .threadExit 0 0, .issue 0, .threadExit 0 0, .finishedKernel]

theorem run_complete_wholeKernel : ∃ g,
    Reach (· = Gpu.init smallConfig) (Step (smallKernel 2)) wholeKernel g ∧
      (g.launched = [1] ∧ g.issued 1 = 2 ∧ g.exited 1 = 2 ∧ g.reported = [1]) ∧
      (∀ k, g.numCoresRunning k = g.bound smallConfig k) ∧
      (∀ ev, g.Admits (smallKernel 2) ev → g.step (smallKernel 2) ev ≠ none) ∧
      ∀ k ∈ g.launched, g.Exact (smallKernel 2) k ↔ 0 < (smallKernel 2 k).gridDim.numBlocks := by
  have hcounts : ((Gpu.init smallConfig).run (smallKernel 2) wholeKernel).any (fun g =>
      g.launched = [1] ∧ g.issued 1 = 2 ∧ g.exited 1 = 2 ∧ g.reported = [1]) = true := by decide +kernel
  obtain ⟨g, hg, hend⟩ := (Option.any_eq_true _ _).1 hcounts
  have hreach := reach_run (.start rfl) hg
  exact ⟨g, hreach, of_decide_eq_true hend, run_complete hreach⟩

/-- The state after a launch into the first slot. -/
def launched : Gpu :=
  { Gpu.init smallConfig with runningKernels := fun i => if i = 0 then some 1 else none, launched := [1] }

theorem launch_step (ctas : ℕ) :
    Reach (· = Gpu.init smallConfig) (Step (smallKernel ctas)) [.launch 1] launched := by
  have hstep : Step (smallKernel ctas) (Gpu.init smallConfig) (.launch 1) launched :=
    ⟨⟨List.not_mem_nil, 0, by decide, fun _ hk => nomatch hk⟩, rfl⟩
  have hstart : Reach (· = Gpu.init smallConfig) (Step (smallKernel ctas)) [] (Gpu.init smallConfig) :=
    .start rfl
  exact hstart.append (.cons hstep .nil)

/-- The empty grid is complete when it is launched, and not reported. -/
theorem not_complete : ¬ ∀ log g, Reach (· = Gpu.init smallConfig) (Step (smallKernel 0)) log g →
    ∀ k ∈ g.launched, g.Exact (smallKernel 0) k := by
  intro h
  have hexact : (launched.reported ++ launched.finished).count 1 =
      if launched.Complete (smallKernel 0) 1 then 1 else 0 := h _ _ (launch_step 0) 1 List.mem_cons_self
  exact absurd hexact (by decide)

end Launch
end CompressionWork
