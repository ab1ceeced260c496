/-
# Kernels on the SMs

`launch` puts a kernel into a slot, the clusters issue its CTAs to their SMs, and an SM is bound to a kernel
as long as it has CTAs of it. The exit of the last thread of an SM may be the end of the kernel.

* `Gpu.launch`, `issueBlock2core`, `registerCtaThreadExit`, `finishedKernel` — the translation;
* `Gpu.step` — one of these calls, with what is counted beside it.
-/
import CompressionWork.Transition.Reach
import Mathlib.Algebra.BigOperators.Group.Finset.Basic
import Mathlib.Data.Finset.Range
import Mathlib.Data.Nat.Notation
import Mathlib.Tactic.Common

namespace CompressionWork
namespace Launch

/-- `dim3` -/
structure Dim3 where
  x : ℕ
  y : ℕ
  z : ℕ
  deriving DecidableEq, Repr

/-- The clusters and cores of the GPU, and the kernels and CTAs they may hold. -/
structure Config where
  clusters : ℕ
  coresPerCluster : ℕ
  maxConcurrentKernel : ℕ
  maxCtaPerShader : ℕ

/-- A kernel: `m_grid_dim`, `threads_per_cta` and what `max_cta` returns. `issue_block2core` asserts that a
CTA has threads, and `max_cta` that at least one CTA fits and at most `MAX_CTA_PER_SHADER`. -/
structure Kernel (cfg : Config) where
  gridDim : Dim3
  threadsPerCta : ℕ
  maxCta : ℕ
  threads_pos : 0 < threadsPerCta
  maxCta_pos : 0 < maxCta
  maxCta_le : maxCta ≤ cfg.maxCtaPerShader

/-- `num_blocks` -/
def Dim3.numBlocks (d : Dim3) : ℕ := d.x * (d.y * d.z)

/-- `increment_x_then_y_then_z` -/
def Dim3.increment (bound i : Dim3) : Dim3 :=
  if bound.x ≤ i.x + 1 then
    if bound.y ≤ i.y + 1 then ⟨0, 0, if i.z < bound.z then i.z + 1 else i.z⟩ else ⟨0, i.y + 1, i.z⟩
  else ⟨i.x + 1, i.y, i.z⟩

/-- An SM: `m_kernel`, `m_cta_status`, `m_n_active_cta` and `m_not_completed`. -/
structure Core where
  kernel : Option ℕ
  ctaStatus : ℕ → ℕ
  nActiveCta : ℕ
  notCompleted : ℕ

/-- `issue_block2core` as far as the SM is concerned. -/
def Core.addCta (c : Core) (slot threads : ℕ) : Core :=
  { c with
    ctaStatus := fun i => if i = slot then threads else c.ctaStatus i
    nActiveCta := c.nActiveCta + 1
    notCompleted := c.notCompleted + threads }

/-- `register_cta_thread_exit` as far as the SM is concerned, and the step of `m_not_completed` after it. -/
def Core.exitThread (c : Core) (cta : ℕ) : Core :=
  { c with
    ctaStatus := fun i => if i = cta then c.ctaStatus i - 1 else c.ctaStatus i
    nActiveCta := if c.ctaStatus cta = 1 then c.nActiveCta - 1 else c.nActiveCta
    notCompleted := c.notCompleted - 1 }

/-- The kernels by their uid: `m_next_cta` and `m_num_cores_running`; the slots `m_running_kernels`; the
queue `m_finished_kernel`; and the clusters. Beside them: which kernels were launched and reported, the CTAs
that were issued and the threads that have exited. -/
structure Gpu where
  nextCta : ℕ → Dim3
  numCoresRunning : ℕ → ℕ
  runningKernels : ℕ → Option ℕ
  lastIssuedKernel : ℕ
  finished : List ℕ
  core : ℕ → Core
  ctaIssueNextCore : ℕ → ℕ
  launched : List ℕ
  reported : List ℕ
  issued : ℕ → ℕ
  exited : ℕ → ℕ

namespace Gpu

variable {cfg : Config} (kernel : ℕ → Kernel cfg)

/-- The first launch of a cluster uses its core 0. -/
def init (cfg : Config) : Gpu where
  nextCta _ := ⟨0, 0, 0⟩
  numCoresRunning _ := 0
  runningKernels _ := none
  lastIssuedKernel := 0
  finished := []
  core _ := ⟨none, fun _ => 0, 0, 0⟩
  ctaIssueNextCore _ := cfg.coresPerCluster - 1
  launched := []
  reported := []
  issued _ := 0
  exited _ := 0

/-- A core changes. -/
def setCore (g : Gpu) (sid : ℕ) (c : Core) : Gpu :=
  { g with core := fun i => if i = sid then c else g.core i }

/-- `no_more_ctas_to_run`. -/
def noMoreCtasToRun (g : Gpu) (uid : ℕ) : Prop :=
  (kernel uid).gridDim.x ≤ (g.nextCta uid).x ∨ (kernel uid).gridDim.y ≤ (g.nextCta uid).y ∨
    (kernel uid).gridDim.z ≤ (g.nextCta uid).z

instance (g : Gpu) (uid : ℕ) : Decidable (g.noMoreCtasToRun kernel uid) := by
  unfold noMoreCtasToRun
  infer_instance

/-- `done`. -/
def done (g : Gpu) (uid : ℕ) : Prop := g.noMoreCtasToRun kernel uid ∧ g.numCoresRunning uid = 0

instance (g : Gpu) (uid : ℕ) : Decidable (g.done kernel uid) := by
  unfold done
  infer_instance

/-- A slot for another kernel. -/
def slotFree (g : Gpu) (n : ℕ) : Prop := ∀ uid, g.runningKernels n = some uid → g.done kernel uid

instance (g : Gpu) (n : ℕ) : Decidable (g.slotFree kernel n) :=
  match h : g.runningKernels n with
  | none => isTrue fun _ hu => nomatch h.symm.trans hu
  | some uid =>
    decidable_of_iff (g.done kernel uid)
      ⟨fun hd _ hu => Option.some.inj (h.symm.trans hu) ▸ hd, fun hf => hf uid h⟩

/-- `can_start_kernel`. -/
def canStartKernel (g : Gpu) : Prop := ∃ n < cfg.maxConcurrentKernel, g.slotFree kernel n

instance (g : Gpu) : Decidable (g.canStartKernel kernel) :=
  inferInstanceAs (Decidable (∃ n < cfg.maxConcurrentKernel, g.slotFree kernel n))

/-- `launch`. `none` stands for the failed assertion. -/
def launch (g : Gpu) (uid : ℕ) : Option Gpu :=
  match (List.range cfg.maxConcurrentKernel).find? fun n => g.slotFree kernel n with
  | none => none
  | some n =>
    some { g with
      runningKernels := fun i => if i = n then some uid else g.runningKernels i
      launched := uid :: g.launched }

/-- `select_kernel`: the slot and the kernel. -/
def selectKernel (g : Gpu) : Option (ℕ × ℕ) :=
  (List.range cfg.maxConcurrentKernel).findSome? fun n =>
    let idx := (n + g.lastIssuedKernel + 1) % cfg.maxConcurrentKernel
    match g.runningKernels idx with
    | none => none
    | some uid => if g.noMoreCtasToRun kernel uid then none else some (idx, uid)

/-- `set_kernel` -/
def setKernel (g : Gpu) (sid idx uid : ℕ) : Gpu :=
  { g.setCore sid { g.core sid with kernel := some uid } with
    lastIssuedKernel := idx
    numCoresRunning := fun k => if k = uid then g.numCoresRunning k + 1 else g.numCoresRunning k }

/-- `shader_core_ctx::issue_block2core`. `none` stands for the failed assertion. -/
def issueCta (g : Gpu) (sid uid : ℕ) : Option Gpu :=
  match (List.range (kernel uid).maxCta).find? fun i => (g.core sid).ctaStatus i = 0 with
  | none => none
  | some slot =>
    some { g.setCore sid ((g.core sid).addCta slot (kernel uid).threadsPerCta) with
      nextCta := fun k => if k = uid then (kernel uid).gridDim.increment (g.nextCta uid) else g.nextCta k
      issued := fun k => if k = uid then g.issued k + 1 else g.issued k }

/-- An idle SM is bound to the next kernel. -/
def bind (g : Gpu) (sid : ℕ) : Gpu :=
  if (g.core sid).notCompleted = 0 then
    if (g.core sid).kernel = none then
      match g.selectKernel kernel with
      | some (idx, uid) => g.setKernel sid idx uid
      | none => g
    else g
  else g

/-- The loop of `simt_core_cluster::issue_block2core` over the cores. -/
def issueLoop (cluster : ℕ) : List ℕ → Gpu → Option Gpu
  | [], g => some g
  | core :: rest, g =>
    let sid := cluster * cfg.coresPerCluster + core
    let g := g.bind kernel sid
    match (g.core sid).kernel with
    | none => issueLoop cluster rest g
    | some uid =>
      if ¬ g.noMoreCtasToRun kernel uid ∧ (g.core sid).nActiveCta < (kernel uid).maxCta then
        (g.issueCta kernel sid uid).map fun g =>
          { g with ctaIssueNextCore := fun c => if c = cluster then core else g.ctaIssueNextCore c }
      else issueLoop cluster rest g

/-- `simt_core_cluster::issue_block2core` -/
def issueBlock2core (g : Gpu) (cluster : ℕ) : Option Gpu :=
  issueLoop kernel cluster
    ((List.range cfg.coresPerCluster).map fun i =>
      (i + g.ctaIssueNextCore cluster + 1) % cfg.coresPerCluster) g

/-- `set_kernel_done`. `none` stands for the failed assertion. -/
def setKernelDone (cfg : Config) (g : Gpu) (uid : ℕ) : Option Gpu :=
  match (List.range cfg.maxConcurrentKernel).find? fun n => g.runningKernels n = some uid with
  | none => none
  | some n =>
    some { g with
      finished := g.finished ++ [uid]
      runningKernels := fun i => if i = n then none else g.runningKernels i }

/-- The SM is not bound to the kernel any more. -/
def unbind (g : Gpu) (sid uid : ℕ) : Gpu :=
  { g.setCore sid { g.core sid with kernel := none } with
    numCoresRunning := fun k => if k = uid then g.numCoresRunning k - 1 else g.numCoresRunning k }

/-- The SM is empty: `dec_running`, and `set_kernel_done` for the last SM of a kernel. `none` stands for a
failed assertion. -/
def release (g : Gpu) (sid : ℕ) : Option Gpu :=
  match (g.core sid).kernel with
  | none => none
  | some uid =>
    if g.numCoresRunning uid = 0 then none
    else
      let g := g.unbind sid uid
      if g.done kernel uid then g.setKernelDone cfg uid else some g

/-- A thread of a CTA exits. -/
def exitThread (g : Gpu) (sid cta : ℕ) : Gpu :=
  { g.setCore sid ((g.core sid).exitThread cta) with
    exited := fun k => if (g.core sid).kernel = some k then g.exited k + 1 else g.exited k }

/-- `register_cta_thread_exit`. `none` stands for a failed assertion. -/
def registerCtaThreadExit (g : Gpu) (sid cta : ℕ) : Option Gpu :=
  if (g.core sid).ctaStatus cta = 0 then none
  else
    let g' := g.exitThread sid cta
    if (g.core sid).ctaStatus cta = 1 ∧ (g'.core sid).nActiveCta = 0 then g'.release kernel sid else some g'

/-- `finished_kernel` -/
def finishedKernel (g : Gpu) : Gpu :=
  match g.finished with
  | [] => g
  | uid :: rest => { g with finished := rest, reported := g.reported ++ [uid] }

end Gpu

/-- The calls: a launch, a cluster that issues a CTA, a thread that exits, and a report that is taken. -/
inductive Event where
  | launch (uid : ℕ)
  | issue (cluster : ℕ)
  | threadExit (sid cta : ℕ)
  | finishedKernel

namespace Gpu

variable {cfg : Config} (kernel : ℕ → Kernel cfg)

/-- The GPU after an event; `none` when an assertion fails. -/
def step (g : Gpu) : Event → Option Gpu
  | .launch uid => g.launch kernel uid
  | .issue cluster => g.issueBlock2core kernel cluster
  | .threadExit sid cta => g.registerCtaThreadExit kernel sid cta
  | .finishedKernel => some g.finishedKernel

/-- Every kernel is launched once and when there is a slot, and the threads that exit are there. -/
def Admits (g : Gpu) : Event → Prop
  | .launch uid => uid ∉ g.launched ∧ g.canStartKernel kernel
  | .issue cluster => cluster < cfg.clusters
  | .threadExit sid cta => sid < cfg.clusters * cfg.coresPerCluster ∧ cta < cfg.maxCtaPerShader ∧
      (g.core sid).ctaStatus cta ≠ 0
  | .finishedKernel => True

instance (g : Gpu) : (ev : Event) → Decidable (g.Admits kernel ev)
  | .launch uid => inferInstanceAs (Decidable (uid ∉ g.launched ∧ g.canStartKernel kernel))
  | .issue cluster => inferInstanceAs (Decidable (cluster < cfg.clusters))
  | .threadExit sid cta => inferInstanceAs (Decidable (sid < cfg.clusters * cfg.coresPerCluster ∧
      cta < cfg.maxCtaPerShader ∧ (g.core sid).ctaStatus cta ≠ 0))
  | .finishedKernel => inferInstanceAs (Decidable True)

/-- Some admitted calls; `none` when one is not admitted or aborts. -/
def run (g : Gpu) : List Event → Option Gpu
  | [] => some g
  | ev :: evs => if g.Admits kernel ev then (g.step kernel ev).bind fun g' => run g' evs else none

/-! ## What completion is -/

/-- The number of SMs bound to a kernel. -/
def bound (cfg : Config) (g : Gpu) (uid : ℕ) : ℕ :=
  ∑ sid ∈ Finset.range (cfg.clusters * cfg.coresPerCluster), if (g.core sid).kernel = some uid then 1 else 0

/-- All CTAs of the kernel were issued and all their threads have exited. -/
def Complete (g : Gpu) (uid : ℕ) : Prop :=
  g.issued uid = (kernel uid).gridDim.numBlocks ∧
    g.exited uid = (kernel uid).threadsPerCta * (kernel uid).gridDim.numBlocks

instance (g : Gpu) (uid : ℕ) : Decidable (g.Complete kernel uid) := by
  unfold Complete
  infer_instance

/-- The launched kernel is reported once if it is complete, else not at all. -/
def Exact (g : Gpu) (uid : ℕ) : Prop :=
  (g.reported ++ g.finished).count uid = if g.Complete kernel uid then 1 else 0

end Gpu

end Launch
end CompressionWork
