import CompressionWork.Reply.Compressor
import Mathlib.Data.List.Induction
import Mathlib.Data.List.Perm.Basic

/-!
# No reply is lost on the way into the compression buffer, and when one is

* `Kept` — the replies removed from the L2-to-interconnect queue are those pushed into the compression
  buffer and those in the pipeline, each as often.
* `compress_accounts` — the pipelines lose nothing.
* `passMf_accounts` — what one cycle loses: the reply behind a write-back that `top` has removed, and a
  reply for which no branch runs a pipeline.
* `kept_iff` — nothing is lost in a run if and only if none of its cycles is one of these.
-/

namespace CompressionWork.Reply

open CompressionWork.Transition

/-- Every reply removed from the queue was pushed once, or is still in its pipeline. -/
def Kept (cfg : Config) (s : State) : Prop :=
  (s.pushed ++ inFlight cfg s).Perm s.removed

/-- What the stage needs to keep the replies: with buffer space, no reply behind a write-back at the
head, and a branch for the word size when a read reply is at the head. -/
def Keeps (cfg : Config) (s : State) : Prop :=
  hasCompBufferSpace cfg s = true →
    (∀ w r queue, s.l2IcntQueue = w :: r :: queue → w.isWrbk = true → r.isWrbk = true) ∧
    (cfg.compAlgo = .localWordMatching → cfg.compWordSize = 6 →
      ∀ mf queue, s.l2IcntQueue = mf :: queue → isDataRetrievable mf = false)

variable {cfg : Config} {s : State}

/-! ## The pipelines -/

theorem workable_of_mem_branch (hb : cfg.Builds) {c : Compressor} (hc : c ∈ cfg.branch) :
    Workable (c.loop cfg) (c.pipelineNo cfg) := by
  cases halgo : cfg.compAlgo <;> rw [Config.Builds, halgo] at hb <;>
    rw [Config.branch, halgo] at hc <;> dsimp only at hb hc
  case localWordMatching =>
    have hlwm : c = .lwm2B ∨ c = .lwm4B ∨ c = .lwm8B := by
      revert hc
      split_ifs <;> simp +contextual
    by_cases hone : cfg.dscLwmCompCycle = 1
    · rcases hlwm with rfl | rfl | rfl <;> exact Or.inl (if_pos hone)
    · have htwo : 2 ≤ cfg.dscLwmCompCycle := by omega
      rcases hlwm with rfl | rfl | rfl <;> exact Or.inr htwo
  case localWordMatching2 =>
    have hlwm : c = .lwm2Two ∨ c = .lwm2Four ∨ c = .lwm2Eight := by
      revert hc
      split_ifs <;> simp +contextual
    rcases hlwm with rfl | rfl | rfl <;> exact Or.inl rfl
  case dataSegMatching | dataSegMatching2 =>
    obtain rfl := List.mem_singleton.1 hc
    by_cases hone : cfg.dscLwmCompCycle = 1
    · exact Or.inl (if_pos hone)
    · exact Or.inr (show 2 ≤ cfg.dscLwmCompCycle by omega)
  case abpdLocalWordMatching =>
    obtain rfl := List.mem_singleton.1 hc
    exact Or.inl rfl
  all_goals
    obtain rfl := List.mem_singleton.1 hc
    exact Or.inr (by simp [Compressor.pipelineNo])

/-- Only one setting has pipelines and no branch that runs them. -/
theorem branch_eq_nil_iff (hb : cfg.Builds) :
    cfg.branch = [] ↔ cfg.compAlgo = .localWordMatching ∧ cfg.compWordSize = 6 := by
  cases halgo : cfg.compAlgo <;> rw [Config.Builds, halgo] at hb <;>
    rw [Config.branch, halgo] <;> dsimp only at hb ⊢
  case localWordMatching =>
    simp only [List.mem_cons, List.not_mem_nil, or_false] at hb
    rcases hb.1 with h | h | h | h | h <;> simp [h]
  case localWordMatching2 =>
    simp only [List.mem_cons, List.not_mem_nil, or_false] at hb
    rcases hb with h | h | h | h <;> simp [h]
  all_goals simp

theorem branch_nodup (cfg : Config) : cfg.branch.Nodup := by
  unfold Config.branch
  split <;> (try split_ifs) <;> decide

/-- The pipelines of the branch are idle in the sense of `run_line`. -/
def PipelinesIdle (cfg : Config) (s : State) : Prop :=
  ∀ c ∈ cfg.branch, Idle (c.loop cfg) (c.pipelineNo cfg) (s.pipelines c)

theorem runCompressor_pipelines_of_ne (mf : Option MemFetch) {c d : Compressor} (h : d ≠ c) :
    (runCompressor cfg mf s c).pipelines d = s.pipelines d :=
  Function.update_of_ne h ..

/-- What running pipelines one after the other leaves in each of them. -/
theorem foldl_runCompressor_pipelines (mf : Option MemFetch) {cs : List Compressor} (hcs : cs.Nodup)
    (s : State) (c : Compressor) :
    (cs.foldl (runCompressor cfg mf) s).pipelines c =
      if c ∈ cs then (run (c.loop cfg) (c.pipelineNo cfg) (s.pipelines c) mf).1
      else s.pipelines c := by
  induction cs generalizing s with
  | nil => simp
  | cons d cs ih =>
      obtain ⟨hd, hcs⟩ := List.nodup_cons.1 hcs
      rw [List.foldl_cons, ih hcs]
      by_cases hcd : c = d
      · subst hcd
        rw [if_neg hd, if_pos List.mem_cons_self]
        exact Function.update_self ..
      · rw [runCompressor_pipelines_of_ne mf hcd]
        simp [hcd]

/-- **The pipelines lose nothing**: what goes in is pushed, or in the pipeline. -/
theorem compress_accounts (hb : cfg.Builds) (hidle : PipelinesIdle cfg s) (mf : Option MemFetch) :
    (compress cfg mf s).pushed ++ inFlight cfg (compress cfg mf s) =
        s.pushed ++ inFlight cfg s ++ (if cfg.branch = [] then [] else mf.toList) ∧
      PipelinesIdle cfg (compress cfg mf s) := by
  have hpipe : ∀ c ∈ cfg.branch, (compress cfg mf s).pipelines c =
      (run (c.loop cfg) (c.pipelineNo cfg) (s.pipelines c) mf).1 := by
    intro c hc
    rw [compress_eq, foldl_runCompressor_pipelines mf (branch_nodup cfg), if_pos hc]
  refine ⟨?_, fun c hc => ?_⟩
  · cases hbranch : cfg.branch with
    | nil => simp [compress_eq, inFlight, hbranch]
    | cons c cs =>
        have hc : c ∈ cfg.branch := by simp [hbranch]
        obtain ⟨hshift, -⟩ := @run_line MemFetch _ _ _ mf (workable_of_mem_branch hb hc) (hidle c hc)
        have hheld := held_shift (line (c.loop cfg) (c.pipelineNo cfg) (s.pipelines c)) mf
        rw [hshift] at hheld
        have hin : ∀ t : State, inFlight cfg t =
            held (line (c.loop cfg) (c.pipelineNo cfg) (t.pipelines c)) := by
          intro t
          simp [inFlight, hbranch]
        rw [hin, hin, hpipe c hc, if_neg (List.cons_ne_nil c cs), List.append_assoc, ← hheld,
          ← List.append_assoc]
        simp [compress_eq, hbranch, output]
  · rw [hpipe c hc]
    exact (run_line (workable_of_mem_branch hb hc) (hidle c hc)).2

/-! ## One cycle -/

/-- The books of a run that has lost the replies `lost`. -/
structure Accounts (cfg : Config) (s : State) (lost : List MemFetch) : Prop where
  idle : PipelinesIdle cfg s
  perm : (s.pushed ++ inFlight cfg s ++ lost).Perm s.removed

/-- Only the queue, the pipelines and the two records are in the books. -/
theorem Accounts.congr {t : State} {lost : List MemFetch} (h : Accounts cfg s lost)
    (hpipe : t.pipelines = s.pipelines) (hpushed : t.pushed = s.pushed)
    (hremoved : t.removed = s.removed) : Accounts cfg t lost := by
  refine ⟨fun c hc => hpipe ▸ h.idle c hc, ?_⟩
  have hin : inFlight cfg t = inFlight cfg s := by
    unfold inFlight
    rw [hpipe]
  rw [hpushed, hin, hremoved]
  exact h.perm

/-- A packet that neither bypasses the pipeline nor is removed: the cycle of an empty queue. -/
theorem Accounts.compress_none (hb : cfg.Builds) {lost : List MemFetch} (h : Accounts cfg s lost) :
    Accounts cfg (compress cfg none s) lost := by
  obtain ⟨heq, hidle⟩ := compress_accounts hb h.idle none
  refine ⟨hidle, ?_⟩
  rw [heq, compress_eq]
  simpa using h.perm

/-- What `pop` removes is lost when nothing was taken for it. -/
theorem Accounts.pop {lost : List MemFetch} (h : Accounts cfg s lost) :
    Accounts cfg s.pop (lost ++ (Reply.pop s.l2IcntQueue).1.toList) := by
  refine ⟨h.idle, ?_⟩
  change (s.pushed ++ inFlight cfg s ++ (lost ++ _)).Perm (s.removed ++ _)
  rw [← List.append_assoc]
  exact h.perm.append_right _

/-- What `pop` removes is kept when it was pushed or given to the pipeline. -/
theorem Accounts.pop_kept {t : State} {lost : List MemFetch} (h : Accounts cfg s lost)
    (hidle : PipelinesIdle cfg t)
    (hin : (t.pushed ++ inFlight cfg t).Perm
      (s.pushed ++ inFlight cfg s ++ (Reply.pop t.l2IcntQueue).1.toList))
    (hremoved : t.removed = s.removed) : Accounts cfg t.pop lost := by
  refine ⟨hidle, ?_⟩
  change (t.pushed ++ inFlight cfg t ++ lost).Perm (t.removed ++ _)
  rw [hremoved]
  refine (hin.append_right lost).trans ?_
  rw [List.append_assoc]
  refine (List.perm_append_comm.append_left _).trans ?_
  rw [← List.append_assoc]
  exact h.perm.append_right _

theorem isWrbk_eq_false_of_isDataRetrievable {mf : MemFetch} (h : isDataRetrievable mf = true) :
    mf.isWrbk = false := by
  simp only [isDataRetrievable, Bool.and_eq_true, Bool.or_eq_true, beq_iff_eq] at h
  rcases h.2 with h | h <;> simp [MemFetch.isWrbk, h]

section Front

variable {lost queue : List MemFetch} {m : MemFetch}

/-- A write-back at the front is gone, and `pop` takes the packet behind it. -/
theorem passMf_accounts_wrbk (hb : cfg.Builds) (h : Accounts cfg s.topped lost)
    (hspace : hasCompBufferSpace cfg s = true) (hqueue : s.l2IcntQueue = m :: queue)
    (hm : m.isWrbk = true) : ∃ r, Accounts cfg (passMf cfg s) (lost ++ r) ∧ (r = [] ↔ Keeps cfg s) := by
  refine ⟨(Reply.pop queue).1.toList, ?_, ?_⟩
  · rw [passMf_of_none hspace (by rw [hqueue, top, if_pos hm])]
    have hpop := (h.compress_none hb).pop
    have hrest : s.topped.l2IcntQueue = queue := by
      rw [State.topped, hqueue]
      simp [top, hm]
    rwa [compress_l2IcntQueue, hrest] at hpop
  · have hkeeps : Keeps cfg s ↔ ∀ r rest, queue = r :: rest → r.isWrbk = true := by
      refine ⟨fun hk r rest hrest => ?_, fun hk _ => ⟨?_, ?_⟩⟩
      · exact (hk hspace).1 m r rest (by rw [hqueue, hrest]) hm
      · intro w r rest heq _
        rw [hqueue] at heq
        exact hk r rest (List.cons.inj heq).2
      · intro _ _ mf rest heq
        rw [hqueue] at heq
        rw [← (List.cons.inj heq).1]
        exact Bool.eq_false_iff.2 fun hr => by
          rw [isWrbk_eq_false_of_isDataRetrievable hr] at hm
          exact Bool.noConfusion hm
    rw [hkeeps]
    cases queue with
    | nil => simp [Reply.pop]
    | cons r rest => cases hr : r.isWrbk <;> simp [Reply.pop, hr]

theorem top_of_reply (hqueue : s.l2IcntQueue = m :: queue) (hm : m.isWrbk = false) :
    top s.l2IcntQueue = (some m, m :: queue) := by
  rw [hqueue, top, if_neg (by simp [hm])]

theorem pop_of_reply (hm : m.isWrbk = false) : (Reply.pop (m :: queue)).1.toList = [m] := by
  simp [Reply.pop, hm]

/-- No write-back stands before a reply at the front. -/
theorem first_of_reply (hqueue : s.l2IcntQueue = m :: queue) (hm : m.isWrbk = false) (w r : MemFetch)
    (rest : List MemFetch) (heq : s.l2IcntQueue = w :: r :: rest) (hw : w.isWrbk = true) :
    r.isWrbk = true := by
  rw [hqueue] at heq
  rw [← (List.cons.inj heq).1, hm] at hw
  exact Bool.noConfusion hw

/-- A reply without data is pushed past the pipeline. -/
theorem passMf_accounts_pushed (h : Accounts cfg s.topped lost)
    (hspace : hasCompBufferSpace cfg s = true) (hqueue : s.l2IcntQueue = m :: queue)
    (hm : m.isWrbk = false) (hdata : isDataRetrievable m = false) :
    Accounts cfg (passMf cfg s) lost ∧ Keeps cfg s := by
  have htop := top_of_reply hqueue hm
  have hrest : s.topped.l2IcntQueue = m :: queue := by rw [State.topped, htop]
  constructor
  · rw [passMf_of_some hspace (by rw [htop]), hdata, if_neg Bool.false_ne_true]
    refine h.pop_kept h.idle ?_ rfl
    change (s.pushed ++ [m] ++ inFlight cfg s).Perm (s.pushed ++ inFlight cfg s ++ _)
    rw [show (s.topped.pushMemFetch (.reply m)).l2IcntQueue = m :: queue from hrest,
      pop_of_reply hm, List.append_assoc, List.append_assoc]
    exact List.perm_append_comm.append_left _
  · refine fun _ => ⟨first_of_reply hqueue hm, fun _ _ mf rest heq => ?_⟩
    rw [hqueue] at heq
    rw [← (List.cons.inj heq).1, hdata]

/-- A reply with data is given to the pipeline, and lost when no branch takes it. -/
theorem passMf_accounts_compressed (hb : cfg.Builds) (h : Accounts cfg s.topped lost)
    (hspace : hasCompBufferSpace cfg s = true) (hqueue : s.l2IcntQueue = m :: queue)
    (hm : m.isWrbk = false) (hdata : isDataRetrievable m = true) :
    ∃ r, Accounts cfg (passMf cfg s) (lost ++ r) ∧ (r = [] ↔ Keeps cfg s) := by
  have htop := top_of_reply hqueue hm
  have hrest : s.topped.l2IcntQueue = m :: queue := by rw [State.topped, htop]
  have hpopped : (Reply.pop (m :: queue)).1.toList = [m] := pop_of_reply hm
  rw [passMf_of_some hspace (by rw [htop]), hdata, if_pos rfl]
  obtain ⟨heq, hidle⟩ := compress_accounts hb h.idle (some m)
  have hkeeps : Keeps cfg s ↔ cfg.branch ≠ [] := by
    rw [Ne, branch_eq_nil_iff hb]
    refine ⟨fun hk hsix => ?_, fun hk _ =>
      ⟨first_of_reply hqueue hm, fun h1 h2 => absurd ⟨h1, h2⟩ hk⟩⟩
    have := (hk hspace).2 hsix.1 hsix.2 m queue hqueue
    rw [hdata] at this
    exact Bool.noConfusion this
  by_cases hbranch : cfg.branch = []
  · refine ⟨[m], ?_, by simp [hkeeps, hbranch]⟩
    rw [if_pos hbranch, List.append_nil] at heq
    have hbooks : Accounts cfg (compress cfg (some m) s.topped) lost := by
      refine ⟨hidle, ?_⟩
      rw [heq, compress_removed]
      exact h.perm
    have hpop := hbooks.pop
    rwa [compress_l2IcntQueue, hrest, hpopped] at hpop
  · refine ⟨[], ?_, by simp [hkeeps, hbranch]⟩
    rw [List.append_nil]
    refine h.pop_kept hidle ?_ (compress_removed ..)
    rw [heq, if_neg hbranch, compress_l2IcntQueue, hrest, hpopped]
    rfl

end Front

/-- **One cycle**: what it loses, and when it loses nothing. -/
theorem passMf_accounts (hb : cfg.Builds) {lost : List MemFetch} (h : Accounts cfg s lost) :
    ∃ r, Accounts cfg (passMf cfg s) (lost ++ r) ∧ (r = [] ↔ Keeps cfg s) := by
  have htopped : Accounts cfg s.topped lost := h.congr rfl rfl rfl
  cases hspace : hasCompBufferSpace cfg s with
  | false =>
      -- without space only `top` may have removed a write-back
      refine ⟨[], ?_, by simp [Keeps, hspace]⟩
      rw [passMf_of_not_space hspace, List.append_nil]
      exact htopped
  | true =>
      cases hqueue : s.l2IcntQueue with
      | nil =>
          refine ⟨[], ?_, by simp [Keeps, hqueue]⟩
          rw [passMf_of_none hspace (by rw [hqueue]; rfl)]
          have hpop := (htopped.compress_none hb).pop
          have hrest : s.topped.l2IcntQueue = [] := by
            rw [State.topped, hqueue]
            rfl
          rwa [compress_l2IcntQueue, hrest] at hpop
      | cons m queue =>
          cases hm : m.isWrbk with
          | true => exact passMf_accounts_wrbk hb htopped hspace hqueue hm
          | false =>
              cases hdata : isDataRetrievable m with
              | false =>
                  obtain ⟨hbooks, hkeeps⟩ := passMf_accounts_pushed htopped hspace hqueue hm hdata
                  exact ⟨[], by rwa [List.append_nil], iff_of_true rfl hkeeps⟩
              | true => exact passMf_accounts_compressed hb htopped hspace hqueue hm hdata

/-! ## Runs -/

/-- The other stages leave the books alone. -/
theorem Accounts.exec1 {lost : List MemFetch} (h : Accounts cfg s lost) {stage : Stage}
    (hstage : stage ≠ .pass) : Accounts cfg (exec1 cfg s stage) lost := by
  cases stage with
  | l2 mf => exact h.congr rfl rfl rfl
  | pass => exact absurd rfl hstage
  | recComp =>
      simp only [Reply.exec1]
      split
      · unfold passRecComp
        split
        · exact h
        · split
          · exact h.congr rfl rfl rfl
          · exact h
      · exact h
  | icnt =>
      simp only [Reply.exec1]
      split
      · exact h.congr rfl rfl rfl
      · exact h.congr rfl rfl rfl

theorem accounts_init (cfg : Config) : Accounts cfg State.init [] := by
  refine ⟨fun c _ => idle_none _ _, ?_⟩
  simp [State.init, inFlight, line_none]

/-- **A run**: the replies it has lost, none of them if every cycle was one that keeps them. -/
theorem exec_accounts (hb : cfg.Builds) (stages : List Stage) :
    ∃ lost, Accounts cfg (exec cfg stages) lost ∧
      (lost = [] ↔ ∀ before after, stages = before ++ .pass :: after →
        Keeps cfg (exec cfg before)) := by
  induction stages using List.reverseRecOn with
  | nil => exact ⟨[], accounts_init cfg, by simp⟩
  | append_singleton stages stage ih =>
      obtain ⟨lost, hbooks, hlost⟩ := ih
      rw [exec_concat, forall_append_cons_concat, ← hlost]
      by_cases hstage : stage = .pass
      · subst hstage
        obtain ⟨r, hr, hkeeps⟩ := passMf_accounts hb hbooks
        refine ⟨lost ++ r, hr, ?_⟩
        rw [List.append_eq_nil_iff, hkeeps]
        exact and_congr_right fun _ => ⟨fun h _ => h, fun h => h rfl⟩
      · refine ⟨lost, hbooks.exec1 hstage, ?_⟩
        exact ⟨fun h => ⟨h, fun hpass => absurd hpass.symm hstage⟩, And.left⟩

/-- **When no reply is lost**: if and only if every cycle of the run keeps the replies. -/
theorem kept_iff (cfg : Config) (hb : cfg.Builds) (stages : List Stage) :
    Kept cfg (exec cfg stages) ↔
      ∀ before after, stages = before ++ .pass :: after → Keeps cfg (exec cfg before) := by
  obtain ⟨lost, hbooks, hlost⟩ := exec_accounts hb stages
  rw [← hlost]
  refine ⟨fun hkept => ?_, fun h => ?_⟩
  · have hlen := hbooks.perm.length_eq
    rw [List.length_append, hkept.length_eq] at hlen
    exact List.eq_nil_of_length_eq_zero (by omega)
  · have hperm := hbooks.perm
    rwa [h, List.append_nil] at hperm

/-- A configuration with one pipeline of three stages. -/
def fpcConfig : Config :=
  ⟨.fpcWordMatching, 4, 1, 4, false, .sameSmPkt, 1, fun _ _ => true, fun _ _ => true,
    fun _ _ => false⟩

theorem kept_iff_fpc :
    Kept fpcConfig (exec fpcConfig [.l2 ⟨0, .globalAccR, false, 0⟩, .pass]) ↔
      ∀ before after, [.l2 ⟨0, .globalAccR, false, 0⟩, .pass] = before ++ .pass :: after →
        Keeps fpcConfig (exec fpcConfig before) :=
  kept_iff fpcConfig trivial _

/-- Local word matching with the pipelines for words of two and of four bytes. -/
def twoWordSizes : Config :=
  { fpcConfig with compAlgo := .localWordMatching, compWordSize := 6 }

/-- A read reply right behind a write-back: `top` removes the write-back, `pop` the reply.  And a reply for
the two pipelines, for which the step has no branch. -/
theorem not_kept_behind_wrbk :
    (fpcConfig.Builds ∧ ∃ stages, ¬ Kept fpcConfig (exec fpcConfig stages)) ∧
      twoWordSizes.Builds ∧ ∃ reply, ¬ Kept twoWordSizes (exec twoWordSizes [.l2 reply, .pass]) := by
  refine ⟨⟨trivial, [.l2 ⟨0, .l2WrbkAcc, true, 0⟩, .l2 ⟨1, .globalAccR, false, 0⟩, .pass], fun h => ?_⟩,
    ⟨by decide, by decide⟩, ⟨0, .globalAccR, false, 0⟩, fun h => ?_⟩
  · have hlen := h.length_eq
    revert hlen
    decide
  · have hlen := h.length_eq
    revert hlen
    decide

end CompressionWork.Reply
