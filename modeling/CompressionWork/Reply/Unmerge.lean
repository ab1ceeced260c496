import CompressionWork.Reply.Pipeline
import CompressionWork.Transition.Reach

/-!
# Unmerging replies at the SM

The model of `hpcl_decomp_*_pl::run` and of the decompression in `simt_core_cluster::icnt_cycle`.  A merged
packet brings replies to the same SM with it; the first stage takes them off one at a time, and each of them
is fed back to the input with the rest.

* `DecompPl`, `run` — a decompression pipeline.
* `icntCycle` — one cycle for each algorithm.
* `Safe` — in no cycle is a reply that is fed back lost.
* `unmerge_delivers` — a run of such cycles delivers every reply once.
-/

namespace CompressionWork.Reply

open CompressionWork.Transition

/-- A `mem_fetch` with `m_merged_mfs_to_same_SM`; `lwmComp` is `get_comp_algo_type() != DSM_COMP`. -/
structure MergedReply where
  uid : ℕ
  nested : List ℕ := []
  lwmComp : Bool := true
  deriving DecidableEq

/-- A reply and those that it brings. -/
def MergedReply.content (mf : MergedReply) : List ℕ := mf.uid :: mf.nested

/-- `hpcl_decomp_*_pl`: the registers of its stages, and the input of the first one. -/
structure DecompPl where
  reg : Registers MergedReply := fun _ => none
  input : Option MergedReply := none

namespace DecompPl

/-- The loop of `run`; with one stage the packet comes out in the same cycle. -/
def loop (pipelineNo : ℕ) : Loop := if pipelineNo = 1 then .single else .descending

/-- `run`: what comes out, what is fed back, and the pipeline after it. -/
def run (pipelineNo : ℕ) (pl : DecompPl) : Option MergedReply × Option MergedReply × DecompPl :=
  let fbMf := pl.input.bind fun mf => mf.nested.head?.map fun uid => { uid, nested := mf.nested.tail }
  let mf := pl.input.map fun mf => { mf with nested := mf.nested.tail }
  let r := Reply.run (loop pipelineNo) pipelineNo pl.reg mf
  (r.2, fbMf, { reg := r.1 })

/-- `set_input_data`. -/
def setInputData (pl : DecompPl) (mf : MergedReply) : DecompPl := { pl with input := some mf }

end DecompPl

/-- The branches of `icnt_cycle`. -/
inductive DecompAlgo
  /-- LWM, SC2, CPACK, BDI, FPC, BPC and FPH -/
  | feedback
  /-- `DATA_SEG_MATCHING`, `DATA_SEG_MATCHING2` -/
  | dsc
  /-- `DATA_SEG_LWM_MATCHING`, `DATA_SEG_LWM_HYBRID_SEQ`, `DATA_SEG_LWM_HYBRID_PARL` -/
  | dscLwm
  deriving DecidableEq

/-- The decompression of a cluster: its pipeline (the DSC one where there are two), the LWM pipeline where
there are two, and what has been popped from the interconnect and pushed to the decompression buffer. -/
structure DecompCluster where
  pl : DecompPl := {}
  lwmPl : DecompPl := {}
  popped : List MergedReply := []
  pushed : List ℕ := []

namespace DecompCluster

/-- `push_mem_fetch`. -/
def pushMemFetch (s : DecompCluster) (mf : Option MergedReply) : DecompCluster :=
  { s with pushed := s.pushed ++ (mf.map (·.uid)).toList }

/-- What is fed back enters only in a cycle in which something comes out. -/
def feedBack (decompMf fbMf : Option MergedReply) (pl : DecompPl) : DecompPl :=
  if decompMf.isSome then
    match fbMf with
    | none => pl
    | some mf => pl.setInputData mf
  else pl

/-- `perf_icnt_pop`, where `mf` is the next packet, if there is one. -/
def icntPop (s : DecompCluster) (mf : Option MergedReply) : DecompCluster :=
  match mf with
  | none => s
  | some mf => { s with pl := s.pl.setInputData mf, popped := s.popped ++ [mf] }

/-- The same for two pipelines. -/
def icntPopTwo (s : DecompCluster) (mf : Option MergedReply) : DecompCluster :=
  match mf with
  | none => s
  | some mf =>
      if mf.lwmComp then { s with lwmPl := s.lwmPl.setInputData mf, popped := s.popped ++ [mf] }
      else { s with pl := s.pl.setInputData mf, popped := s.popped ++ [mf] }

/-- Phase 1 of `icnt_cycle`, in a cycle in which the decompression buffer has space; `mf` is `none` in a
cycle in which nothing may be popped. -/
def icntCycle (algo : DecompAlgo) (pipelineNo : ℕ) (s : DecompCluster) (mf : Option MergedReply) :
    DecompCluster :=
  match algo with
  | .feedback =>
      let (decompMf, fbMf, pl) := s.pl.run pipelineNo
      let s := { s with pl := feedBack decompMf fbMf pl }.pushMemFetch decompMf
      let isMfPushed := decompMf.isSome && fbMf.isSome
      if isMfPushed = false then s.icntPop mf else s
  | .dsc =>
      let (decompMf, fbMf, pl) := s.pl.run pipelineNo
      let s := { s with pl := feedBack decompMf fbMf pl }.pushMemFetch decompMf
      s.icntPop mf
  | .dscLwm =>
      let (decompMf1, fbMf1, pl) := s.pl.run pipelineNo
      let s := { s with pl := feedBack decompMf1 fbMf1 pl }.pushMemFetch decompMf1
      let (decompMf2, fbMf2, lwmPl) := s.lwmPl.run pipelineNo
      let s := { s with lwmPl := feedBack decompMf2 fbMf2 lwmPl }.pushMemFetch decompMf2
      if fbMf1 = none ∧ fbMf2 = none then s.icntPopTwo mf else s

end DecompCluster

/-! ## What is in a pipeline -/

namespace DecompPl

variable {n : ℕ} {pl : DecompPl}

/-- The replies in a pipeline. -/
def content (n : ℕ) (pl : DecompPl) : List ℕ :=
  (held (line (loop n) n pl.reg)).map (·.uid) ++ pl.input.toList.flatMap MergedReply.content

/-- A reply is fed back only in a cycle in which the last stage puts something out. -/
def Safe (n : ℕ) (pl : DecompPl) : Prop :=
  ∀ mf, pl.input = some mf → mf.nested ≠ [] → n = 1 ∨ (pl.reg (n - 1)).isSome

theorem workable (hn : 1 ≤ n) : Workable (loop n) n := by
  unfold loop
  split_ifs with h
  · exact Or.inl rfl
  · exact Or.inr (by omega)

/-- A cycle only moves replies on: to the output, back to the input, or to the next stage. -/
theorem run_content (hn : 1 ≤ n) (hidle : Idle (loop n) n pl.reg) :
    (pl.content n).Perm ((pl.run n).1.toList.map (·.uid) ++ ((pl.run n).2.1.toList.flatMap MergedReply.content ++
      (pl.run n).2.2.content n)) ∧ Idle (loop n) n (pl.run n).2.2.reg := by
  obtain ⟨reg, input⟩ := pl
  obtain ⟨hshift, hidle'⟩ := @run_line _ _ _ reg (input.map fun mf => { mf with nested := mf.nested.tail })
    (workable hn) hidle
  refine ⟨List.perm_iff_count.2 fun uid => ?_, hidle'⟩
  -- the line loses nothing
  have hheld := held_shift (line (loop n) n reg)
    (input.map fun mf => { mf with nested := mf.nested.tail })
  rw [hshift] at hheld
  have hcount := congrArg (fun l : List MergedReply => (l.map (·.uid)).count uid) hheld
  simp only [List.map_append, List.count_append] at hcount
  cases input with
  | none =>
    simp only [content, run, Option.map_none, Option.bind_none, Option.toList_none, List.flatMap_nil,
      List.append_nil, List.nil_append, List.map_nil, List.count_nil, List.count_append] at hcount ⊢
    omega
  | some mf =>
    obtain ⟨x, nested, lwmComp⟩ := mf
    cases nested with
    | nil =>
      simp [content, run, MergedReply.content, List.count_append] at hcount ⊢
      omega
    | cons y rest =>
      simp [content, run, MergedReply.content, List.count_append, List.count_cons] at hcount ⊢
      omega

/-- What is fed back in a safe cycle enters. -/
theorem run_safe (hn : 1 ≤ n) (hidle : Idle (loop n) n pl.reg) (hsafe : pl.Safe n)
    (hfb : (pl.run n).2.1.isSome) : (pl.run n).1.isSome := by
  obtain ⟨reg, input⟩ := pl
  cases input with
  | none => exact absurd hfb (by simp [run])
  | some mf =>
    have hnested : mf.nested ≠ [] := fun hnil => by simp [run, hnil] at hfb
    rcases hsafe mf rfl hnested with rfl | hlast
    · rfl
    · by_cases h1 : n = 1
      · subst h1
        rfl
      · have hshift := (@run_line _ _ _ reg (some { mf with nested := mf.nested.tail })
          (workable hn) hidle).1
        have hline : line (loop n) n reg = reg (n - 1) :: (line (loop n) n reg).tail := by
          obtain ⟨m, rfl⟩ : ∃ m, n = m + 2 := ⟨n - 2, by omega⟩
          simp [line, loop, Loop.depth, Loop.stage, List.range_succ_eq_map]
        rw [hline] at hshift
        have hout : reg (n - 1) = (Reply.run (loop n) n reg (some { mf with nested := mf.nested.tail })).2 :=
          congrArg Prod.fst hshift
        simp only [run, Option.map_some]
        rw [← hout]
        exact hlast

end DecompPl

/-! ## Every run -/

namespace DecompCluster

variable {n : ℕ} {algo : DecompAlgo} {s s' : DecompCluster} {mf : Option MergedReply}

/-- The replies in the pipelines. -/
def content (n : ℕ) (s : DecompCluster) : List ℕ := s.pl.content n ++ s.lwmPl.content n

/-- The condition on the state before a cycle, and on the packet that may be popped in it. -/
def Safe (algo : DecompAlgo) (n : ℕ) (s : DecompCluster) (mf : Option MergedReply) : Prop :=
  s.pl.Safe n ∧ (algo = .dscLwm → s.lwmPl.Safe n) ∧
    (algo = .dsc → mf.isSome → ∀ held, s.pl.input = some held → held.nested = [])

/-- Every reply that has been popped, alone or in a merged packet, has been pushed to the buffer or is in a
pipeline, once. -/
def Delivered (n : ℕ) (s : DecompCluster) : Prop :=
  (s.popped.flatMap MergedReply.content).Perm (s.pushed ++ s.content n)

/-- Between two cycles the first stages are empty. -/
structure Ready (n : ℕ) (s : DecompCluster) : Prop where
  pl : Idle (DecompPl.loop n) n s.pl.reg
  lwmPl : Idle (DecompPl.loop n) n s.lwmPl.reg

/-- A pipeline runs, and what is fed back enters. -/
theorem run_feedBack {pl : DecompPl} (hn : 1 ≤ n) (hidle : Idle (DecompPl.loop n) n pl.reg)
    (hsafe : pl.Safe n) :
    (pl.content n).Perm (((pl.run n).1.map (·.uid)).toList ++
      (feedBack (pl.run n).1 (pl.run n).2.1 (pl.run n).2.2).content n) ∧
    Idle (DecompPl.loop n) n (feedBack (pl.run n).1 (pl.run n).2.1 (pl.run n).2.2).reg ∧
    (feedBack (pl.run n).1 (pl.run n).2.1 (pl.run n).2.2).input = (pl.run n).2.1 := by
  obtain ⟨hperm, hidle'⟩ := DecompPl.run_content hn hidle
  have hentered := DecompPl.run_safe hn hidle hsafe
  have hinput : (pl.run n).2.2.input = none := rfl
  rw [← Option.toList_map] at hperm
  unfold feedBack
  cases hfb : (pl.run n).2.1 with
  | none =>
    rw [hfb] at hperm
    simp only [ite_self]
    exact ⟨hperm, hidle', hinput⟩
  | some mf =>
    rw [hfb] at hperm hentered
    rw [if_pos (hentered rfl)]
    refine ⟨hperm.trans (List.Perm.append_left _ ?_), hidle', rfl⟩
    simp only [DecompPl.content, DecompPl.setInputData, hinput, Option.toList_some, Option.toList_none,
      List.flatMap_cons, List.flatMap_nil, List.append_nil]
    exact List.perm_append_comm

theorem content_setInputData {pl : DecompPl} (hinput : pl.input = none) (mf : MergedReply) :
    (pl.setInputData mf).content n = pl.content n ++ mf.content := by
  simp [DecompPl.content, DecompPl.setInputData, hinput]

theorem delivered_icntPop (h : s.Delivered n) (hinput : mf.isSome → s.pl.input = none) :
    (s.icntPop mf).Delivered n := by
  cases mf with
  | none => exact h
  | some mf =>
    refine List.perm_iff_count.2 fun uid => ?_
    have hcount := List.perm_iff_count.1 h uid
    simp only [icntPop, content, content_setInputData (hinput rfl), List.flatMap_append, List.flatMap_cons,
      List.flatMap_nil, List.append_nil, List.count_append] at hcount ⊢
    omega

theorem delivered_icntPopTwo (h : s.Delivered n) (hpl : s.pl.input = none) (hlwmPl : s.lwmPl.input = none) :
    (s.icntPopTwo mf).Delivered n := by
  cases mf with
  | none => exact h
  | some mf =>
    refine List.perm_iff_count.2 fun uid => ?_
    have hcount := List.perm_iff_count.1 h uid
    unfold icntPopTwo
    dsimp only
    split_ifs
    · simp only [content, content_setInputData hlwmPl, List.flatMap_append, List.flatMap_cons,
        List.flatMap_nil, List.append_nil, List.count_append] at hcount ⊢
      omega
    · simp only [content, content_setInputData hpl, List.flatMap_append, List.flatMap_cons,
        List.flatMap_nil, List.append_nil, List.count_append] at hcount ⊢
      omega

theorem ready_icntPop (h : s.Ready n) : (s.icntPop mf).Ready n := by
  cases mf with
  | none => exact h
  | some mf => exact ⟨h.pl, h.lwmPl⟩

theorem ready_icntPopTwo (h : s.Ready n) : (s.icntPopTwo mf).Ready n := by
  cases mf with
  | none => exact h
  | some mf =>
    unfold icntPopTwo
    dsimp only
    split_ifs <;> exact ⟨h.pl, h.lwmPl⟩

/-- The first pipeline has its cycle. -/
theorem delivered_run (hn : 1 ≤ n) (h : s.Delivered n) (hready : s.Ready n) (hsafe : s.pl.Safe n) :
    let r := s.pl.run n
    let t := { s with pl := feedBack r.1 r.2.1 r.2.2 }.pushMemFetch r.1
    t.Delivered n ∧ t.Ready n ∧ t.pl.input = r.2.1 := by
  obtain ⟨hperm, hidle, hinput⟩ := run_feedBack hn hready.pl hsafe
  refine ⟨List.perm_iff_count.2 fun uid => ?_, ⟨hidle, hready.lwmPl⟩, hinput⟩
  have hcount := List.perm_iff_count.1 h uid
  have hcount' := List.perm_iff_count.1 hperm uid
  simp only [pushMemFetch, content, List.count_append] at hcount hcount' ⊢
  omega

/-- The second one has its cycle. -/
theorem delivered_runLwm (hn : 1 ≤ n) (h : s.Delivered n) (hready : s.Ready n) (hsafe : s.lwmPl.Safe n) :
    let r := s.lwmPl.run n
    let t := { s with lwmPl := feedBack r.1 r.2.1 r.2.2 }.pushMemFetch r.1
    t.Delivered n ∧ t.Ready n ∧ t.lwmPl.input = r.2.1 := by
  obtain ⟨hperm, hidle, hinput⟩ := run_feedBack hn hready.lwmPl hsafe
  refine ⟨List.perm_iff_count.2 fun uid => ?_, ⟨hready.pl, hidle⟩, hinput⟩
  have hcount := List.perm_iff_count.1 h uid
  have hcount' := List.perm_iff_count.1 hperm uid
  simp only [pushMemFetch, content, List.count_append] at hcount hcount' ⊢
  omega

/-- **A safe cycle** loses no reply and doubles none. -/
theorem delivered_icntCycle (hn : 1 ≤ n) (h : s.Delivered n) (hready : s.Ready n)
    (hsafe : s.Safe algo n mf) :
    (s.icntCycle algo n mf).Delivered n ∧ (s.icntCycle algo n mf).Ready n := by
  obtain ⟨hpl, hlwm, hdsc⟩ := hsafe
  obtain ⟨h₁, hready₁, hinput₁⟩ := delivered_run hn h hready hpl
  cases algo with
  | feedback =>
    unfold icntCycle
    dsimp only
    split_ifs with hpushed
    · refine ⟨delivered_icntPop h₁ fun _ => hinput₁.trans ?_, ready_icntPop hready₁⟩
      -- nothing was fed back
      cases hfb : (s.pl.run n).2.1 with
      | none => rfl
      | some fb =>
        have hout := DecompPl.run_safe hn hready.pl hpl (by rw [hfb]; rfl)
        rw [hout, hfb] at hpushed
        exact absurd hpushed nofun
    · exact ⟨h₁, hready₁⟩
  | dsc =>
    refine ⟨delivered_icntPop h₁ fun hmf => hinput₁.trans ?_, ready_icntPop hready₁⟩
    cases hin : s.pl.input with
    | none => simp [DecompPl.run, hin]
    | some x => simp [DecompPl.run, hin, hdsc rfl hmf x hin]
  | dscLwm =>
    obtain ⟨h₂, hready₂, hinput₂⟩ := delivered_runLwm hn h₁ hready₁ (hlwm rfl)
    unfold icntCycle
    dsimp only
    split_ifs with hfb
    · exact ⟨delivered_icntPopTwo h₂ (hinput₁.trans hfb.1) (hinput₂.trans hfb.2), ready_icntPopTwo hready₂⟩
    · exact ⟨h₂, hready₂⟩

/-- **Every run of safe cycles** delivers each reply once: what has been popped has been pushed or is in a
pipeline. -/
theorem unmerge_delivers (hn : 1 ≤ n) {log : List (Option MergedReply)}
    (h : Reach (fun s => s = {}) (fun s mf s' => s.Safe algo n mf ∧ s' = s.icntCycle algo n mf) log s) :
    s.Delivered n := by
  have hboth : s.Delivered n ∧ s.Ready n := by
    refine h.invariant (fun _ s => s.Delivered n ∧ s.Ready n) ?_ ?_
    · rintro s rfl
      refine ⟨?_, idle_none _ _, idle_none _ _⟩
      simp [Delivered, content, DecompPl.content, line_none]
    · rintro - s mf s' - ⟨hdel, hready⟩ ⟨hsafe, rfl⟩
      exact delivered_icntCycle hn hdel hready hsafe
  exact hboth.1

/-- With one stage a packet of two replies comes out in two cycles. -/
theorem unmerge_delivers_two : ∃ s : DecompCluster,
    Reach (fun s => s = {}) (fun s mf s' => s.Safe .feedback 1 mf ∧ s' = s.icntCycle .feedback 1 mf)
      [some ⟨0, [1], true⟩, none, none] s ∧ s.pushed = [0, 1] ∧ s.Delivered 1 := by
  have hsafe : ∀ (s : DecompCluster) (mf : Option MergedReply), s.Safe .feedback 1 mf :=
    fun s mf => ⟨fun _ _ _ => Or.inl rfl, nofun, nofun⟩
  have hstart : Reach (fun s => s = {}) (fun s mf s' => s.Safe .feedback 1 mf ∧
      s' = s.icntCycle .feedback 1 mf) [] ({} : DecompCluster) := .start rfl
  have h₁ := hstart.step (e := some ⟨0, [1], true⟩) ⟨hsafe _ _, rfl⟩
  have h₂ := h₁.step (e := none) ⟨hsafe _ _, rfl⟩
  have h₃ := h₂.step (e := none) ⟨hsafe _ _, rfl⟩
  exact ⟨_, h₃, rfl, unmerge_delivers (Nat.le_refl 1) h₃⟩

/-- With two stages the second reply of a packet is gone; and with DSC a packet that arrives while a reply
is fed back takes its place. -/
theorem not_delivers :
    ¬ Delivered 2 ([some ⟨0, [1], true⟩, none, none, none].foldl (icntCycle .feedback 2) {}) ∧
      ¬ Delivered 1 ([some ⟨0, [1], false⟩, some ⟨2, [], false⟩, none, none].foldl (icntCycle .dsc 1) {}) := by
  constructor
  · intro h
    exact absurd h.length_eq (by decide +kernel)
  · intro h
    exact absurd h.length_eq (by decide +kernel)

end DecompCluster

end CompressionWork.Reply
