/-
# Barriers in functional simulation

`functionalCoreSim::execute` steps the warps of a CTA round-robin. A warp that executes `bar.sync` or
`membar` waits, in both cases in `m_warpAtBarrier`, until every warp with live threads waits.

* `State.step` — one call of `executeWarp`, or the end of a round;
* `Prog` — the instructions of the warps, of any length.
-/
import Mathlib.Data.Nat.Notation
import Mathlib.Logic.Function.Iterate
import Mathlib.Tactic.Common
import Mathlib.Tactic.IntervalCases

namespace CompressionWork
namespace FuncSim

/-- `BARRIER_OP`, `MEMORY_BARRIER_OP`, or another kind. -/
inductive Op where
  | barrier
  | memoryBarrier
  | other
  deriving DecidableEq, Repr

/-- An instruction as the warp executes it: its kind, and how many threads finish with it. -/
structure Inst where
  op : Op
  exits : ℕ
  deriving DecidableEq, Repr

/-- The instructions that the warps execute, by warp and place. -/
abbrev Prog := ℕ → ℕ → Inst

/-- A warp: `m_warpAtBarrier`, `m_liveThreadCount`, the number of instructions and of `bar.sync` that it has
executed, and the kind of the last instruction. -/
structure Warp where
  atBarrier : Bool
  live : ℕ
  executed : ℕ
  syncs : ℕ
  last : Op
  deriving DecidableEq, Repr

/-- A state inside the loop of `execute`: the warp `i` that is next, and the two flags of the round. -/
structure State where
  i : ℕ
  allAtBarrier : Bool
  someOneLive : Bool
  finished : Bool
  warps : ℕ → Warp

/-- `createWarp`, with the threads that each warp has. -/
def State.init (live : ℕ → ℕ) : State := ⟨0, true, false, false, fun w => ⟨false, live w, 0, 0, .other⟩⟩

/-- One instruction of a warp. -/
def Warp.execute (inst : Inst) (x : Warp) : Warp :=
  { atBarrier := if inst.op = .barrier ∨ inst.op = .memoryBarrier then true else x.atBarrier
    live := x.live - inst.exits
    executed := x.executed + 1
    syncs := if inst.op = .barrier then x.syncs + 1 else x.syncs
    last := inst.op }

/-- The warp executes when it does not wait and has live threads. -/
def Warp.Ready (x : Warp) : Prop := x.atBarrier = false ∧ x.live ≠ 0

instance (x : Warp) : Decidable x.Ready := by
  unfold Warp.Ready
  infer_instance

/-- `executeWarp`. -/
def State.executeWarp (prog : Prog) (s : State) : State :=
  let x := s.warps s.i
  let x' := if x.Ready then x.execute (prog s.i x.executed) else x
  { s with
    i := s.i + 1
    someOneLive := if 0 < x'.live then true else s.someOneLive
    allAtBarrier := if x'.atBarrier = false ∧ 0 < x'.live then false else s.allAtBarrier
    warps := fun w => if w = s.i then x' else s.warps w }

/-- The end of a round: the loop ends when no warp is live, else a new round starts, in which the warps are
released if all of them wait. -/
def State.endRound (s : State) : State :=
  if s.someOneLive = false then { s with finished := true }
  else
    { s with
      i := 0
      allAtBarrier := true
      someOneLive := false
      warps := fun w =>
        if s.allAtBarrier = true then { s.warps w with atBarrier := false } else s.warps w }

/-- One step of `execute` with `count` warps. -/
def State.step (count : ℕ) (prog : Prog) (s : State) : State :=
  if s.finished = true then s
  else if s.i < count then s.executeWarp prog
  else s.endRound

/-! ## What barriers are for -/

/-- The warp that is next does not pass a `bar.sync` that a live warp has not executed. -/
def State.Safe (count : ℕ) (s : State) : Prop :=
  s.finished = false → s.i < count → (s.warps s.i).Ready →
    ∀ w < count, (s.warps w).live ≠ 0 → (s.warps s.i).syncs ≤ (s.warps w).syncs

/-- The CTA ends, or a warp executes an instruction. -/
def State.Progress (count : ℕ) (prog : Prog) (s : State) : Prop :=
  ∃ n, ((State.step count prog)^[n] s).finished = true ∨
    ∃ w < count, (s.warps w).executed < (((State.step count prog)^[n] s).warps w).executed

/-- A release of the warps, which all wait: at `bar.sync`, or at `membar`. -/
def State.OneKind (count : ℕ) (s : State) : Prop :=
  s.finished = false → s.i = count → s.allAtBarrier = true →
    (∀ w < count, (s.warps w).live ≠ 0 → (s.warps w).last = .barrier) ∨
    (∀ w < count, (s.warps w).live ≠ 0 → (s.warps w).last = .memoryBarrier)

variable {count : ℕ} {prog : Prog} {s : State} {w n : ℕ}

/-! ## Rounds -/

/-- The flags of a round say what holds of the warps before `i`. -/
structure Flags (count : ℕ) (s : State) : Prop where
  bound : s.i ≤ count
  all : s.allAtBarrier = true ↔ ∀ w < s.i, (s.warps w).live ≠ 0 → (s.warps w).atBarrier = true
  some : s.someOneLive = true ↔ ∃ w < s.i, (s.warps w).live ≠ 0
  ended : s.finished = true → s.i = count

theorem executeWarp_warps_of_ne (hw : w ≠ s.i) : (s.executeWarp prog).warps w = s.warps w := if_neg hw

theorem executeWarp_warps_self :
    (s.executeWarp prog).warps s.i =
      if (s.warps s.i).Ready then (s.warps s.i).execute (prog s.i (s.warps s.i).executed)
      else s.warps s.i := if_pos rfl

namespace Flags

theorem init (live : ℕ → ℕ) : Flags count (State.init live) :=
  ⟨Nat.zero_le _, ⟨fun _ _ hw => absurd hw (Nat.not_lt_zero _), fun _ => rfl⟩,
    ⟨nofun, fun ⟨_, hw, _⟩ => absurd hw (Nat.not_lt_zero _)⟩, nofun⟩

theorem executeWarp (h : Flags count s) (hi : s.i < count) (hrun : s.finished = false) :
    Flags count (s.executeWarp prog) := by
  have hold : ∀ w < s.i, (s.executeWarp prog).warps w = s.warps w := fun w hw =>
    executeWarp_warps_of_ne (Nat.ne_of_lt hw)
  refine ⟨hi, ?_, ?_, fun hend => absurd (hrun.symm.trans hend) nofun⟩
  · have hall : (s.executeWarp prog).allAtBarrier = true ↔ s.allAtBarrier = true ∧
        (((s.executeWarp prog).warps s.i).live ≠ 0 →
          ((s.executeWarp prog).warps s.i).atBarrier = true) := by
      rw [executeWarp_warps_self]
      simp only [State.executeWarp]
      generalize (if (s.warps s.i).Ready then _ else s.warps s.i : Warp) = x
      by_cases hx : x.atBarrier = false ∧ 0 < x.live
      · rw [if_pos hx]
        simp [hx.1, Nat.ne_of_gt hx.2]
      · rw [if_neg hx]
        simp only [not_and, Nat.not_lt, Nat.le_zero] at hx
        cases hat : x.atBarrier <;> simp_all
    rw [hall, h.all]
    constructor
    · rintro ⟨hbefore, hself⟩ w hw
      rcases Nat.lt_succ_iff_lt_or_eq.1 hw with hw | rfl
      · rw [hold w hw]
        exact hbefore w hw
      · exact hself
    · intro hbefore
      refine ⟨fun w hw => ?_, hbefore s.i (Nat.lt_succ_self _)⟩
      rw [← hold w hw]
      exact hbefore w (Nat.lt_succ_of_lt hw)
  · have hsome : (s.executeWarp prog).someOneLive = true ↔ s.someOneLive = true ∨
        ((s.executeWarp prog).warps s.i).live ≠ 0 := by
      rw [executeWarp_warps_self]
      simp only [State.executeWarp]
      generalize (if (s.warps s.i).Ready then _ else s.warps s.i : Warp) = x
      by_cases hx : 0 < x.live
      · simp [hx, Nat.ne_of_gt hx]
      · simp [Nat.le_zero.1 (Nat.le_of_not_lt hx)]
    rw [hsome, h.some]
    constructor
    · rintro (⟨w, hw, hlive⟩ | hlive)
      · exact ⟨w, Nat.lt_succ_of_lt hw, by rwa [hold w hw]⟩
      · exact ⟨s.i, Nat.lt_succ_self _, hlive⟩
    · rintro ⟨w, hw, hlive⟩
      rcases Nat.lt_succ_iff_lt_or_eq.1 hw with hw | rfl
      · exact Or.inl ⟨w, hw, by rwa [hold w hw] at hlive⟩
      · exact Or.inr hlive

theorem endRound (h : Flags count s) (hi : s.i = count) (hrun : s.finished = false) : Flags count s.endRound := by
  unfold State.endRound
  split
  · exact ⟨h.bound, h.all, h.some, fun _ => hi⟩
  · next hlive =>
    exact ⟨Nat.zero_le _, ⟨fun _ _ hw => absurd hw (Nat.not_lt_zero _), fun _ => rfl⟩,
      ⟨nofun, fun ⟨_, hw, _⟩ => absurd hw (Nat.not_lt_zero _)⟩,
      fun hend => absurd (hrun.symm.trans hend) nofun⟩

theorem step (h : Flags count s) : Flags count (s.step count prog) := by
  unfold State.step
  split
  · exact h
  · next hrun =>
    have hrun := Bool.eq_false_iff.2 hrun
    split
    · next hi => exact h.executeWarp hi hrun
    · next hi => exact h.endRound (Nat.le_antisymm h.bound (Nat.le_of_not_lt hi)) hrun

theorem iterate (h : Flags count s) (n : ℕ) : Flags count ((State.step count prog)^[n] s) := by
  induction n with
  | zero => exact h
  | succ n ih =>
    rw [Function.iterate_succ_apply']
    exact ih.step

end Flags

theorem flags (live : ℕ → ℕ) (n : ℕ) : Flags count ((State.step count prog)^[n] (State.init live)) :=
  (Flags.init live).iterate n

/-! ## The same number of `bar.sync` -/

/-- The live warps have executed the same number of `bar.sync`, but for those that wait at the next. -/
def Phase (count c : ℕ) (s : State) : Prop :=
  ∀ w < count, (s.warps w).live ≠ 0 →
    (s.warps w).syncs = if (s.warps w).atBarrier = true ∧ (s.warps w).last = .barrier then c + 1 else c

namespace Phase

variable {c : ℕ}

theorem safe (h : Phase count c s) : s.Safe count := by
  rintro - hi ⟨hat, hlive⟩ w hw hw'
  have hself := h s.i hi hlive
  rw [if_neg (by simp [hat])] at hself
  rw [hself, h w hw hw']
  split <;> omega

theorem executeWarp (h : Phase count c s) : Phase count c (s.executeWarp prog) := by
  intro w hw hlive
  by_cases hwi : w = s.i
  · subst hwi
    rw [executeWarp_warps_self] at hlive ⊢
    by_cases hready : (s.warps s.i).Ready
    · rw [if_pos hready]
      obtain ⟨hat, hlive'⟩ := hready
      have hself := h s.i hw hlive'
      rw [if_neg (by simp [hat])] at hself
      simp only [Warp.execute, hself, hat]
      cases (prog s.i (s.warps s.i).executed).op <;> simp
    · rw [if_neg hready] at hlive ⊢
      exact h s.i hw hlive
  · rw [executeWarp_warps_of_ne hwi] at hlive ⊢
    exact h w hw hlive

/-- A release of warps that wait at the same kind of instruction. -/
theorem endRound (h : Phase count c s) (hflags : Flags count s) (hkind : s.OneKind count)
    (hi : s.i = count) (hrun : s.finished = false) : ∃ c', Phase count c' s.endRound := by
  unfold State.endRound
  split
  · exact ⟨c, h⟩
  cases hall : s.allAtBarrier with
  | false => exact ⟨c, h⟩
  | true =>
    have hwait : ∀ w < count, (s.warps w).live ≠ 0 → (s.warps w).atBarrier = true := hi ▸ hflags.all.1 hall
    rcases hkind hrun hi hall with hkind | hkind
    · refine ⟨c + 1, fun w hw hlive => ?_⟩
      have hself := h w hw hlive
      rw [if_pos ⟨hwait w hw hlive, hkind w hw hlive⟩] at hself
      simpa using hself
    · refine ⟨c, fun w hw hlive => ?_⟩
      have hself := h w hw hlive
      rw [if_neg fun hbar => absurd (hbar.2.symm.trans (hkind w hw hlive)) nofun] at hself
      simpa using hself

end Phase

/-- Every round of the run releases warps of one kind. -/
def OneKindRun (count : ℕ) (prog : Prog) (live : ℕ → ℕ) : Prop :=
  ∀ n, ((State.step count prog)^[n] (State.init live)).OneKind count

theorem phase_iterate {live : ℕ → ℕ} (hkind : OneKindRun count prog live) (n : ℕ) :
    ∃ c, Phase count c ((State.step count prog)^[n] (State.init live)) := by
  induction n with
  | zero => exact ⟨0, fun _ _ _ => rfl⟩
  | succ n ih =>
    obtain ⟨c, ih⟩ := ih
    have hflags : Flags count ((State.step count prog)^[n] (State.init live)) := flags live n
    have hkind := hkind n
    rw [Function.iterate_succ_apply']
    generalize (State.step count prog)^[n] (State.init live) = s at ih hflags hkind
    unfold State.step
    split
    · exact ⟨c, ih⟩
    · next hrun =>
      have hrun := Bool.eq_false_iff.2 hrun
      split
      · exact ⟨c, ih.executeWarp⟩
      · next hi => exact ih.endRound hflags hkind (Nat.le_antisymm hflags.bound (Nat.le_of_not_lt hi)) hrun

/-! ## Progress -/

theorem executed_le_step (w : ℕ) : (s.warps w).executed ≤ ((s.step count prog).warps w).executed := by
  unfold State.step
  split
  · exact Nat.le_refl _
  split
  · by_cases hwi : w = s.i
    · subst hwi
      rw [executeWarp_warps_self]
      split
      · exact Nat.le_succ _
      · exact Nat.le_refl _
    · exact Nat.le_of_eq (by rw [executeWarp_warps_of_ne hwi])
  · unfold State.endRound
    split
    · exact Nat.le_refl _
    · cases s.allAtBarrier <;> exact Nat.le_refl _

/-- Progress after some steps is progress. -/
theorem State.Progress.of_step (h : (s.step count prog).Progress count prog) : s.Progress count prog := by
  obtain ⟨n, hend | ⟨w, hw, hlt⟩⟩ := h
  · exact ⟨n + 1, Or.inl (by rwa [Function.iterate_succ_apply])⟩
  · refine ⟨n + 1, Or.inr ⟨w, hw, ?_⟩⟩
    rw [Function.iterate_succ_apply]
    exact Nat.lt_of_le_of_lt (executed_le_step w) hlt

/-- A warp that is ready executes in the rest of the round. -/
theorem progress_of_ready (hrun : s.finished = false) (hw : w < count) (hi : s.i ≤ w)
    (hready : (s.warps w).Ready) : s.Progress count prog := by
  obtain ⟨d, hd⟩ := Nat.exists_eq_add_of_le hi
  induction d generalizing s with
  | zero =>
    refine ⟨1, Or.inr ⟨w, hw, ?_⟩⟩
    have hwi : w = s.i := hd
    subst hwi
    rw [Function.iterate_one, State.step, if_neg (by simp [hrun]), if_pos hw, executeWarp_warps_self,
      if_pos hready]
    exact Nat.lt_succ_self _
  | succ d ih =>
    have hne : w ≠ s.i := by omega
    have hstep : s.step count prog = s.executeWarp prog := by
      rw [State.step, if_neg (by simp [hrun]), if_pos (by omega)]
    refine State.Progress.of_step ?_
    rw [hstep]
    refine ih hrun (show s.i + 1 ≤ w by omega) ?_ (show w = s.i + 1 + d by omega)
    rwa [executeWarp_warps_of_ne hne]

/-- The end of a round ends the CTA or lets a warp execute. -/
theorem progress_of_endRound (h : Flags count s) (hrun : s.finished = false) (hi : s.i = count) :
    s.Progress count prog := by
  have hstep : s.step count prog = s.endRound := by
    rw [State.step, if_neg (by simp [hrun]), if_neg (by omega)]
  refine State.Progress.of_step ?_
  rw [hstep]
  unfold State.endRound
  split
  · exact ⟨0, Or.inl rfl⟩
  next hlive =>
  obtain ⟨w, hw, hlive⟩ := h.some.1 (Bool.not_eq_false _ ▸ hlive)
  cases hall : s.allAtBarrier with
  | true => exact progress_of_ready hrun (hi ▸ hw) (Nat.zero_le _) ⟨rfl, hlive⟩
  | false =>
    -- some live warp does not wait
    have hnot : ¬ ∀ w < s.i, (s.warps w).live ≠ 0 → (s.warps w).atBarrier = true := fun hall' =>
      absurd (hall.symm.trans (h.all.2 hall')) nofun
    push Not at hnot
    obtain ⟨v, hv, hvlive, hvat⟩ := hnot
    exact progress_of_ready hrun (hi ▸ hv) (Nat.zero_le _) ⟨Bool.eq_false_iff.2 hvat, hvlive⟩

theorem progress (h : Flags count s) : s.Progress count prog := by
  cases hrun : s.finished with
  | true => exact ⟨0, Or.inl hrun⟩
  | false =>
    obtain ⟨d, hd⟩ := Nat.exists_eq_add_of_le h.bound
    induction d generalizing s with
    | zero => exact progress_of_endRound h hrun hd.symm
    | succ d ih =>
      have hi : s.i < count := by omega
      have hstep : s.step count prog = s.executeWarp prog := by
        rw [State.step, if_neg (by simp [hrun]), if_pos hi]
      refine State.Progress.of_step ?_
      rw [hstep]
      exact ih (h.executeWarp hi hrun) hrun (show count = s.i + 1 + d by omega)

/-- **When the warps of each release wait at one kind of instruction, no warp passes a `bar.sync` before
the live warps have executed it; and no CTA is stuck.** -/
theorem barriers_hold (count : ℕ) (prog : Prog) (live : ℕ → ℕ) (hkind : OneKindRun count prog live)
    (n : ℕ) : ((State.step count prog)^[n] (State.init live)).Safe count ∧
      ((State.step count prog)^[n] (State.init live)).Progress count prog := by
  obtain ⟨c, h⟩ := phase_iterate hkind n
  exact ⟨h.safe, progress (flags live n)⟩

theorem iterate_of_finished (h : s.finished = true) (n : ℕ) : (State.step count prog)^[n] s = s := by
  have hstep : s.step count prog = s := if_pos h
  exact Function.iterate_fixed hstep n

instance (count : ℕ) (s : State) : Decidable (s.OneKind count) := by
  unfold State.OneKind
  infer_instance

instance (count : ℕ) (s : State) : Decidable (s.Safe count) := by
  unfold State.Safe
  infer_instance

/-- Each warp executes `bar.sync` and exits. -/
def syncProg : Prog := fun _ p => if p = 0 then ⟨.barrier, 0⟩ else ⟨.other, 32⟩

theorem barriers_hold_sync :
    ((State.step 2 syncProg)^[3] (State.init fun _ => 32)).Safe 2 ∧
      ((State.step 2 syncProg)^[3] (State.init fun _ => 32)).Progress 2 syncProg :=
  barriers_hold 2 syncProg (fun _ => 32) (fun n => by
    rcases Nat.lt_or_ge n 6 with hn | hn
    · interval_cases n <;> decide
    · obtain ⟨k, rfl⟩ := Nat.exists_eq_add_of_le' hn
      rw [Function.iterate_add_apply, iterate_of_finished (by decide)]
      decide) 3

/-- The first warp executes `bar.sync` and the second `membar`: both are released, and the first one goes
on. -/
theorem not_barriers_hold :
    ¬ ((State.step 2 fun w p => ⟨if p = 0 then if w = 0 then .barrier else .memoryBarrier else
        if w = 1 ∧ p = 2 then .barrier else .other, 0⟩)^[3] (State.init fun _ => 32)).Safe 2 := by
  decide

end FuncSim
end CompressionWork
