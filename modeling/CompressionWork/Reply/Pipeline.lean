import CompressionWork.Transition.DelayLine
import CompressionWork.Transition.Loop
import Mathlib.Logic.Function.Basic

/-!
# The stage registers of the compressor pipelines

`hpcl_comp_*_pl::run`: every stage has an output register, and one run visits the stages in the order
of its loop.  Four loops occur in the source.

* `run` — the loops, with `visit` for the body.
* `run_line` — every pipeline is a delay line: of `pipeline_no - 1` cells for most compressors, of no
  cell when there is one stage and for the DSC loop, which follows the packet through all stages.
-/

namespace CompressionWork.Reply

open CompressionWork.Transition

variable {α : Type*}

/-- `enum PL_TYPE` -/
inductive PlType
  | comp
  | dummy
  | getOutput
  deriving DecidableEq, Repr

/-- `m_comp_pl_proc[i]->get_output()->get_mem_fetch()` for every stage. -/
abbrev Registers (α : Type*) := ℕ → Option α

/-- The body of the loop in `run` at stage `i`; `next` is the stage whose register is written. -/
def visit (plType : ℕ → PlType) (next : ℕ → ℕ) (input : Option α)
    (s : Registers α × Option α) (i : ℕ) : Registers α × Option α :=
  match plType i with
  | .comp => (Function.update (Function.update s.1 (next i) input) i none, s.2)
  | .getOutput => (Function.update s.1 i none, s.1 i)
  | .dummy =>
      match s.1 i with
      | some mf => (Function.update (Function.update s.1 (next i) (some mf)) i none, s.2)
      | none => (Function.update s.1 i none, s.2)

/-- The four shapes of `create` and `run`. -/
inductive Loop
  /-- one stage -/
  | single
  /-- LWM, SC2, FPH: the input enters at the last stage, `for(i = 0; i < m_pipeline_no; i++)` -/
  | ascending
  /-- CPACK, BDI, FPC, BPC: the input enters at stage 0, `for(i = m_pipeline_no-1; i >= 0; i--)` -/
  | descending
  /-- DSC: the input enters at the last stage, `for(i = m_pipeline_no-1; i >= 0; i--)` -/
  | through
  deriving DecidableEq, Repr

/-- `set_pl_type` in `create` -/
def Loop.plType (loop : Loop) (pipelineNo i : ℕ) : PlType :=
  match loop with
  | .descending => if i = 0 then .comp else if i = pipelineNo - 1 then .getOutput else .dummy
  | _ => if i = 0 then .getOutput else if i = pipelineNo - 1 then .comp else .dummy

/-- The register a stage writes: `i+1` or `i-1`. -/
def Loop.next (loop : Loop) (i : ℕ) : ℕ :=
  match loop with
  | .descending => i + 1
  | _ => i - 1

/-- The order in which the loop visits the stages. -/
def Loop.order (loop : Loop) (pipelineNo : ℕ) : List ℕ :=
  match loop with
  | .ascending => List.range pipelineNo
  | _ => (List.range pipelineNo).map fun k => pipelineNo - 1 - k

/-- `run` -/
def run (loop : Loop) (pipelineNo : ℕ) (reg : Registers α) (input : Option α) :
    Registers α × Option α :=
  match loop with
  | .single => (reg, input)
  | _ => (loop.order pipelineNo).foldl (visit (loop.plType pipelineNo) loop.next input) (reg, none)

/-! ## Pipelines as delay lines -/

/-- The stage at distance `k` from the output. -/
def Loop.stage (loop : Loop) (pipelineNo k : ℕ) : ℕ :=
  match loop with
  | .descending => pipelineNo - 1 - k
  | _ => k

/-- The number of packets a pipeline can hold between two runs. -/
def Loop.depth (loop : Loop) (pipelineNo : ℕ) : ℕ :=
  match loop with
  | .single => 0
  | .through => 0
  | _ => pipelineNo - 1

/-- The cells of the delay line, from the output on. -/
def line (loop : Loop) (pipelineNo : ℕ) (reg : Registers α) : List (Option α) :=
  (List.range (loop.depth pipelineNo)).map fun k => reg (loop.stage pipelineNo k)

/-- Between two runs the register of the first stage is empty, and with the DSC loop all are. -/
def Idle (loop : Loop) (pipelineNo : ℕ) (reg : Registers α) : Prop :=
  ∀ k, loop.depth pipelineNo ≤ k → k < pipelineNo → reg (loop.stage pipelineNo k) = none

/-- Two stages or more, but for the pipelines of one stage. -/
def Workable (loop : Loop) (pipelineNo : ℕ) : Prop := loop = .single ∨ 2 ≤ pipelineNo

/-! ### The loops that visit the stages from the output on -/

section Visit

variable {plType : ℕ → PlType} {next stage : ℕ → ℕ} {n : ℕ} {reg : Registers α} {input : Option α}

/-- The registers after `k` visits: the first cells have moved on by one. -/
structure Moved (stage : ℕ → ℕ) (n : ℕ) (reg : Registers α) (input : Option α) (k : ℕ)
    (s : Registers α × Option α) : Prop where
  moved : ∀ d, d + 1 < k → d + 2 < n → s.1 (stage d) = reg (stage (d + 1))
  entered : ∀ d, d + 1 < k → d + 2 = n → s.1 (stage d) = input
  cleared : ∀ d, d < n → d + 1 = k → s.1 (stage d) = none
  kept : ∀ d, k ≤ d → d < n → s.1 (stage d) = reg (stage d)
  output : 0 < k → s.2 = reg (stage 0)

theorem Moved.step (hn : 2 ≤ n)
    (hinj : ∀ d, d < n → ∀ e, e < n → stage d = stage e → d = e)
    (hfirst : plType (stage 0) = .getOutput)
    (hmid : ∀ k, 0 < k → k + 1 < n → plType (stage k) = .dummy)
    (hlast : plType (stage (n - 1)) = .comp)
    (hnext : ∀ k, 0 < k → k < n → next (stage k) = stage (k - 1)) {k : ℕ} (hk : k < n)
    {s : Registers α × Option α} (h : Moved stage n reg input k s) :
    Moved stage n reg input (k + 1) (visit plType next input s (stage k)) := by
  have hne : ∀ d, d < n → d ≠ k → stage d ≠ stage k := fun d hd hdk heq => hdk (hinj d hd k hk heq)
  rcases Nat.eq_zero_or_pos k with rfl | hpos
  · -- the stage that hands its packet out
    have hv : visit plType next input s (stage 0) =
        (Function.update s.1 (stage 0) none, s.1 (stage 0)) := by
      unfold visit
      rw [hfirst]
    rw [hv]
    refine ⟨by omega, by omega, fun d _ hd => ?_, fun d hd hdn => ?_, fun _ => h.kept 0 (Nat.le_refl _) hk⟩
    · obtain rfl : d = 0 := by omega
      exact Function.update_self ..
    · dsimp only
      rw [Function.update_of_ne (hne d hdn (by omega))]
      exact h.kept d (by omega) hdn
  · have hprev : k - 1 < n := by omega
    have hback : ∀ d, d < n → d ≠ k - 1 → stage d ≠ stage (k - 1) :=
      fun d hd hdk heq => hdk (hinj d hd _ hprev heq)
    -- in both cases the previous register gets `cell` and this one is cleared
    have hv : ∃ cell, visit plType next input s (stage k) =
        (Function.update (Function.update s.1 (stage (k - 1)) cell) (stage k) none, s.2) ∧
          cell = if k + 1 = n then input else reg (stage k) := by
      unfold visit
      by_cases hend : k + 1 = n
      · refine ⟨input, ?_, by rw [if_pos hend]⟩
        rw [show k = n - 1 by omega, hlast, ← show k = n - 1 by omega]
        dsimp only
        rw [hnext k hpos hk]
      · rw [hmid k hpos (by omega)]
        dsimp only
        cases hcell : s.1 (stage k) with
        | some mf =>
            refine ⟨some mf, ?_, by rw [if_neg hend, ← hcell, h.kept k (Nat.le_refl _) hk]⟩
            dsimp only
            rw [hnext k hpos hk]
        | none =>
            refine ⟨none, ?_, by rw [if_neg hend, ← hcell, h.kept k (Nat.le_refl _) hk]⟩
            have hclear := h.cleared (k - 1) hprev (by omega)
            dsimp only
            rw [← hclear, Function.update_eq_self]
    obtain ⟨cell, hv, hcell⟩ := hv
    rw [hv]
    have hcur : stage (k - 1) ≠ stage k := hne _ hprev (by omega)
    refine ⟨fun d hd hdn => ?_, fun d hd hdn => ?_, fun d hdn hd => ?_, fun d hd hdn => ?_, fun _ => ?_⟩
    · dsimp only
      rw [Function.update_of_ne (hne d (by omega) (by omega))]
      by_cases hdk : d = k - 1
      · subst hdk
        rw [Function.update_self, hcell, if_neg (by omega), Nat.sub_add_cancel hpos]
      · rw [Function.update_of_ne (hback d (by omega) hdk)]
        exact h.moved d (by omega) hdn
    · dsimp only
      rw [Function.update_of_ne (hne d (by omega) (by omega))]
      obtain rfl : d = k - 1 := by omega
      rw [Function.update_self, hcell, if_pos (by omega)]
    · obtain rfl : d = k := by omega
      exact Function.update_self ..
    · dsimp only
      rw [Function.update_of_ne (hne d hdn (by omega)),
        Function.update_of_ne (hback d hdn (by omega))]
      exact h.kept d (by omega) hdn
    · exact h.output hpos

theorem Moved.foldl (hn : 2 ≤ n)
    (hinj : ∀ d, d < n → ∀ e, e < n → stage d = stage e → d = e)
    (hfirst : plType (stage 0) = .getOutput)
    (hmid : ∀ k, 0 < k → k + 1 < n → plType (stage k) = .dummy)
    (hlast : plType (stage (n - 1)) = .comp)
    (hnext : ∀ k, 0 < k → k < n → next (stage k) = stage (k - 1)) :
    Moved stage n reg input n
      (((List.range n).map stage).foldl (visit plType next input) (reg, none)) := by
  rw [List.foldl_map]
  refine foldl_range (fun k s => Moved stage n reg input k s) n ?_ ?_
  · exact ⟨by omega, by omega, by omega, fun _ _ _ => rfl, by omega⟩
  · exact fun k s hk h => h.step hn hinj hfirst hmid hlast hnext hk

end Visit

/-! ### The DSC loop -/

/-- After `k` visits the packet is in the next stage that will be visited. -/
theorem through_foldl {n : ℕ} (hn : 2 ≤ n) {reg : Registers α} {input : Option α}
    (hidle : ∀ d, d < n → reg d = none) :
    let s := ((List.range n).map fun k => n - 1 - k).foldl
      (visit (Loop.through.plType n) Loop.through.next input) (reg, none)
    (∀ d, d < n → s.1 d = none) ∧ s.2 = input := by
  rw [List.foldl_map]
  have h := foldl_range (fun k (s : Registers α × Option α) =>
    (∀ d, d < n → s.1 d = if d + 1 + k = n ∧ 0 < k then input else none) ∧
      (k = n → s.2 = input)) (f := fun s k => visit (Loop.through.plType n) Loop.through.next input s
        (n - 1 - k)) (s := (reg, none)) n ?_ ?_
  · refine ⟨fun d hd => ?_, h.2 rfl⟩
    rw [h.1 d hd, if_neg (by omega)]
  · refine ⟨fun d hd => ?_, by omega⟩
    dsimp only
    rw [hidle d hd, if_neg (by omega)]
  · rintro k ⟨r, out⟩ hk ⟨hr, -⟩
    dsimp only at hr
    unfold visit Loop.plType Loop.next
    by_cases hfirst : k = 0
    · -- the stage that compresses
      subst hfirst
      simp only [Nat.sub_zero, show n - 1 ≠ 0 by omega, if_false, if_true]
      refine ⟨fun d hd => ?_, by omega⟩
      rw [Function.update_apply, Function.update_apply, hr d hd]
      grind
    · by_cases hlast : n - 1 - k = 0
      · simp only [hlast, if_true]
        refine ⟨fun d hd => ?_, fun _ => ?_⟩
        · rw [Function.update_apply, hr d hd]
          grind
        · rw [hr 0 (by omega), if_pos (by omega)]
      · simp only [if_neg hlast, if_neg (show n - 1 - k ≠ n - 1 by omega)]
        have hcell := hr (n - 1 - k) (by omega)
        rw [if_pos (by omega)] at hcell
        cases hin : input with
        | some mf =>
            rw [hcell, hin]
            refine ⟨fun d hd => ?_, by omega⟩
            dsimp only
            rw [Function.update_apply, Function.update_apply, hr d hd]
            grind
        | none =>
            rw [hcell, hin]
            refine ⟨fun d hd => ?_, by omega⟩
            dsimp only
            rw [Function.update_apply, hr d hd, hin]
            grind

/-! ### All pipelines -/

variable {loop : Loop} {n : ℕ} {reg : Registers α} {input : Option α}

/-- One run of a pipeline whose loop goes from the output to the input. -/
theorem run_moved (hn : 2 ≤ n) (hloop : loop = .ascending ∨ loop = .descending) :
    Moved (loop.stage n) n reg input n (run loop n reg input) := by
  have horder : run loop n reg input = ((List.range n).map (loop.stage n)).foldl
      (visit (loop.plType n) loop.next input) (reg, none) := by
    rcases hloop with rfl | rfl
    · exact congrArg (List.foldl _ _) (List.map_id' (List.range n)).symm
    · rfl
  rw [horder]
  rcases hloop with rfl | rfl
  · refine Moved.foldl hn (fun d _ e _ h => h) rfl (fun k hk hkn => ?_) ?_ fun k hk _ => rfl
    · dsimp only [Loop.plType, Loop.stage]
      rw [if_neg (by omega), if_neg (by omega)]
    · simp only [Loop.plType, Loop.stage, if_neg (show n - 1 ≠ 0 by omega), if_true]
  · refine Moved.foldl hn (fun d hd e he h => ?_) ?_ (fun k hk hkn => ?_) ?_ fun k hk hkn => ?_
    · simp only [Loop.stage] at h
      omega
    · simp only [Loop.plType, Loop.stage, Nat.sub_zero, if_neg (show n - 1 ≠ 0 by omega), if_true]
    · dsimp only [Loop.plType, Loop.stage]
      rw [if_neg (by omega), if_neg (by omega)]
    · simp only [Loop.plType, Loop.stage, Nat.sub_self, if_true]
    · simp only [Loop.next, Loop.stage]
      omega

theorem Moved.shift_line {s : Registers α × Option α} {stage : ℕ → ℕ} (hn : 2 ≤ n)
    (h : Moved stage n reg input n s) :
    shift ((List.range (n - 1)).map fun k => reg (stage k)) input =
      (s.2, (List.range (n - 1)).map fun k => s.1 (stage k)) := by
  have hcells : ((List.range (n - 1)).map fun k => reg (stage k)) ++ [input] =
      reg (stage 0) :: (List.range (n - 1)).map fun k => s.1 (stage k) := by
    obtain ⟨m, rfl⟩ : ∃ m, n = m + 2 := ⟨n - 2, by omega⟩
    rw [show m + 2 - 1 = m + 1 from rfl, List.range_succ_eq_map, List.map_cons, List.map_map,
      ← List.range_succ_eq_map, List.range_succ, List.map_append, List.cons_append,
      List.map_singleton, h.entered m (by omega) rfl]
    refine congrArg (_ :: · ++ _) (List.map_congr_left fun k hk => ?_)
    have hk := List.mem_range.1 hk
    exact (h.moved k (by omega) (by omega)).symm
  rw [shift, hcells, h.output (by omega)]
  rfl

/-- **Every pipeline is a delay line.** -/
theorem run_line (hw : Workable loop n) (hidle : Idle loop n reg) :
    shift (line loop n reg) input = ((run loop n reg input).2, line loop n (run loop n reg input).1) ∧
      Idle loop n (run loop n reg input).1 := by
  cases loop with
  | single => exact ⟨rfl, hidle⟩
  | ascending =>
      have hn : 2 ≤ n := hw.resolve_left nofun
      have h := @run_moved α _ _ reg input hn (Or.inl rfl)
      exact ⟨h.shift_line hn, fun k hk hkn => h.cleared k hkn (by simp only [Loop.depth] at hk; omega)⟩
  | descending =>
      have hn : 2 ≤ n := hw.resolve_left nofun
      have h := @run_moved α _ _ reg input hn (Or.inr rfl)
      exact ⟨h.shift_line hn, fun k hk hkn => h.cleared k hkn (by simp only [Loop.depth] at hk; omega)⟩
  | through =>
      have hn : 2 ≤ n := hw.resolve_left nofun
      have h := @through_foldl α n hn reg input fun d hd => hidle d (Nat.zero_le d) hd
      exact ⟨Prod.ext h.2.symm rfl, fun k _ hkn => h.1 k hkn⟩

theorem line_none (loop : Loop) (n : ℕ) : held (line loop n fun _ => (none : Option α)) = [] := by
  simp [line, held, List.reduceOption]

theorem idle_none (loop : Loop) (n : ℕ) : Idle loop n fun _ => (none : Option α) :=
  fun _ _ _ => rfl

end CompressionWork.Reply
