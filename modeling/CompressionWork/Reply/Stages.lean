import CompressionWork.Reply.Pipeline

/-!
# The compressor pipelines, stage by stage

`create` and `run` of `hpcl_comp_{bdi,fpc,cpack,sc2,fph,lwm}_pl` for every number of stages: which
stage compresses, which hands out, which branch takes a pipeline of one stage, and which stage the
loop of BDI writes.

* `cycle` — one `run`; `none` stands for an access out of `m_comp_pl_proc`.
* `outputs` — what the runs return for a sequence of packets and bubbles.
* `Fifo` — every packet leaves once, compressed once, in order, `N` cycles after it came.
* `fifo_iff` — the numbers of stages for which a pipeline is one.

`comp t` is what the compression step makes of a packet in cycle `t`; it may depend on all that went
before.
-/

namespace CompressionWork.Reply

open CompressionWork.Transition

/-- The compressors with a pipeline of this kind. -/
inductive Kind
  | bdi
  | fpc
  | cpack
  | sc2
  | fph
  | lwm
  deriving DecidableEq, Repr

/-- `set_pl_type` in `create`: the last assignment to a stage counts. `run` of BDI tests the index
instead, and hands out at every stage but the first. -/
def Kind.plType (kind : Kind) (pipelineNo i : ℕ) : PlType :=
  match kind with
  | .bdi => if i = 0 then .comp else .getOutput
  | .fpc | .cpack => if i = pipelineNo - 1 then .getOutput else if i = 0 then .comp else .dummy
  | .sc2 | .fph | .lwm => if i = pipelineNo - 1 then .comp else if i = 0 then .getOutput else .dummy

/-- A branch for `m_pipeline_no == 1`: the stage compresses and hands out. -/
def Kind.oneStage : Kind → Bool
  | .bdi | .fpc => false
  | .cpack | .sc2 | .fph | .lwm => true

/-- The loop of `run`. -/
def Kind.loop : Kind → Loop
  | .bdi | .fpc | .cpack => .descending
  | .sc2 | .fph | .lwm => .ascending

/-- The next stage is one of `m_comp_pl_proc`. -/
def Kind.InRange (kind : Kind) (pipelineNo i : ℕ) : Prop :=
  match kind with
  | .bdi | .fpc | .cpack => i + 1 < pipelineNo
  | .sc2 | .fph | .lwm => 0 < i

instance (kind : Kind) (pipelineNo i : ℕ) : Decidable (kind.InRange pipelineNo i) := by
  cases kind <;> unfold Kind.InRange <;> infer_instance

section Run

variable {α β : Type}

/-- The body of the loop at stage `i`; `input` is what the first stage has compressed. -/
def visitStage (kind : Kind) (pipelineNo : ℕ) (input : Option β) (s : Registers β × Option β)
    (i : ℕ) : Option (Registers β × Option β) :=
  if kind.plType pipelineNo i ≠ .getOutput ∧ ¬ kind.InRange pipelineNo i then none
  else some (visit (kind.plType pipelineNo) kind.loop.next input s i)

/-- `run` -/
def cycle (kind : Kind) (pipelineNo : ℕ) (reg : Registers β) (input : Option β) :
    Option (Registers β × Option β) :=
  if pipelineNo = 1 ∧ kind.oneStage = true then some (Function.update reg 0 none, input)
  else (kind.loop.order pipelineNo).foldlM (visitStage kind pipelineNo input) (reg, none)

/-- The results of the runs, from cycle `t` on. -/
def outputs (kind : Kind) (pipelineNo : ℕ) (comp : ℕ → α → β) :
    ℕ → Registers β → List (Option α) → Option (List (Option β))
  | _, _, [] => some []
  | t, reg, x :: xs =>
      (cycle kind pipelineNo reg (x.map (comp t))).bind fun s =>
        (outputs kind pipelineNo comp (t + 1) s.1 xs).map fun ys => s.2 :: ys

/-- The inputs from cycle `t` on, each compressed once. -/
def compressed (comp : ℕ → α → β) : ℕ → List (Option α) → List (Option β)
  | _, [] => []
  | t, x :: xs => x.map (comp t) :: compressed comp (t + 1) xs

end Run

/-- From empty stages, the results are the inputs, compressed, `delay` cycles later. -/
def Delays (kind : Kind) (pipelineNo delay : ℕ) : Prop :=
  ∀ (α β : Type) (comp : ℕ → α → β) (inputs : List (Option α)),
    outputs kind pipelineNo comp 0 (fun _ => none) inputs =
      some ((List.replicate delay none ++ compressed comp 0 inputs).take inputs.length)

/-- A packet that enters in cycle `t` leaves in cycle `t + N - 1`, the `N`-th that it is there. -/
def Fifo (kind : Kind) (pipelineNo : ℕ) : Prop := Delays kind pipelineNo (pipelineNo - 1)

/-- Two stages for BDI, which skips the others; two at least for FPC, which takes one stage for the
last; any number for the rest. -/
def StagesFit : Kind → ℕ → Prop
  | .bdi, pipelineNo => pipelineNo = 2
  | .fpc, pipelineNo => 2 ≤ pipelineNo
  | _, _ => True

/-! ## Delay lines -/

section Line

variable {α β : Type} {kind : Kind} {n : ℕ} {comp : ℕ → α → β}

@[simp] theorem length_compressed (t : ℕ) (xs : List (Option α)) :
    (compressed comp t xs).length = xs.length := by
  induction xs generalizing t with
  | nil => rfl
  | cons x xs ih => simp [compressed, ih]

/-- Registers that move like the cells of a line give its cells back, then the inputs. -/
theorem outputs_eq (cells : Registers β → List (Option β)) (inv : Registers β → Prop)
    (hcycle : ∀ reg input, inv reg → ∃ s, cycle kind n reg input = some s ∧
      shift (cells reg) input = (s.2, cells s.1) ∧ inv s.1) (t : ℕ) (reg : Registers β)
    (hinv : inv reg) (xs : List (Option α)) :
    outputs kind n comp t reg xs =
      some ((cells reg ++ compressed comp t xs).take xs.length) := by
  induction xs generalizing t reg with
  | nil => rfl
  | cons x xs ih =>
      obtain ⟨s, hs, hshift, hinv'⟩ := hcycle reg (x.map (comp t)) hinv
      have hcells : s.2 :: cells s.1 = cells reg ++ [x.map (comp t)] := by
        rw [← shift_eq, hshift]
      have happ : cells reg ++ compressed comp t (x :: xs) =
          s.2 :: (cells s.1 ++ compressed comp (t + 1) xs) := by
        rw [compressed, ← List.singleton_append, ← List.append_assoc, ← hcells, List.cons_append]
      rw [outputs, hs, Option.bind_some, ih (t + 1) s.1 hinv', happ]
      rfl

/-- One packet tells the delays apart. -/
theorem delays_unique {d d' : ℕ} (h : Delays kind n d) (h' : Delays kind n d') : d = d' := by
  have hlt : ∀ a b : ℕ, a < b → Delays kind n a → Delays kind n b → False := by
    intro a b hab ha hb
    let xs : List (Option Unit) := some () :: List.replicate b none
    have heq := (ha Unit Unit (fun _ => id) xs).symm.trans (hb Unit Unit (fun _ => id) xs)
    have hget := congrArg (fun l : List (Option Unit) => l[a]?) (Option.some.inj heq)
    have hlen : a < xs.length := by simp [xs]; omega
    simp only [List.getElem?_take_of_lt hlen] at hget
    rw [List.getElem?_append_right (by simp), List.getElem?_append_left (by simpa using hab)] at hget
    simp [xs, compressed, hab] at hget
  obtain hab | rfl | hab := Nat.lt_trichotomy d d'
  · exact (hlt d d' hab h h').elim
  · rfl
  · exact (hlt d' d hab h' h).elim

end Line

/-! ## The loops -/

section Loops

variable {β : Type} {kind : Kind} {n : ℕ} {reg : Registers β} {input : Option β}

/-- With two stages or more every stage that is written exists. -/
theorem foldlM_visitStage (hn : 2 ≤ n) (s : Registers β × Option β) :
    (kind.loop.order n).foldlM (visitStage kind n input) s =
      some ((kind.loop.order n).foldl (visit (kind.plType n) kind.loop.next input) s) := by
  have hmem : ∀ i ∈ kind.loop.order n, i < n := by
    intro i hi
    cases kind <;> simp only [Kind.loop, Loop.order, List.mem_map, List.mem_range] at hi
    all_goals first
      | exact hi
      | (obtain ⟨k, hk, rfl⟩ := hi; omega)
  have hstage : ∀ i < n, ∀ s, visitStage kind n input s i =
      some (visit (kind.plType n) kind.loop.next input s i) := by
    intro i hi s
    rw [visitStage, if_neg]
    rintro ⟨htype, hrange⟩
    cases kind <;> simp only [Kind.plType, Kind.InRange] at htype hrange <;> split at htype <;>
      first
        | omega
        | (split at htype <;> first | omega | simp at htype)
        | simp at htype
  generalize kind.loop.order n = order at hmem
  induction order generalizing s with
  | nil => rfl
  | cons i order ih =>
      rw [List.foldlM_cons, hstage i (hmem i (by simp))]
      exact ih _ fun j hj => hmem j (by simp [hj])

/-- All but BDI: the loop of two stages or more is the one of the delay lines. -/
theorem cycle_eq_run (hn : 2 ≤ n) (hkind : kind ≠ .bdi) :
    cycle kind n reg input = some (run kind.loop n reg input) := by
  rw [cycle, if_neg (by omega), foldlM_visitStage hn]
  have hagree : ∀ i, kind.plType n i = kind.loop.plType n i := by
    intro i
    cases kind with
    | bdi => exact absurd rfl hkind
    | fpc | cpack | sc2 | fph | lwm =>
        simp only [Kind.plType, Kind.loop, Loop.plType]
        by_cases h0 : i = 0
        · rw [if_neg (by omega), if_pos h0, if_pos h0]
        · rw [if_neg h0, if_neg h0]
  rw [show kind.plType n = kind.loop.plType n from funext hagree]
  cases kind <;> rfl

/-- All but BDI, with two stages or more. -/
theorem delays_of_two_le (hn : 2 ≤ n) (hkind : kind ≠ .bdi) : Delays kind n (n - 1) := by
  intro α β comp inputs
  have hwork : Workable kind.loop n := Or.inr hn
  have hempty : line kind.loop n (fun _ => (none : Option β)) = List.replicate (n - 1) none := by
    rw [line, List.map_const', List.length_range]
    cases kind <;> rfl
  rw [← hempty]
  apply outputs_eq (line kind.loop n) (Idle kind.loop n)
  · intro reg input hidle
    exact ⟨_, cycle_eq_run hn hkind, run_line hwork hidle⟩
  · exact idle_none _ _

/-- One stage with its branch. -/
theorem delays_one (hkind : kind.oneStage = true) : Delays kind 1 0 := by
  intro α β comp inputs
  apply outputs_eq (fun _ => []) fun _ => True
  · intro reg input _
    exact ⟨_, if_pos ⟨rfl, hkind⟩, rfl, trivial⟩
  · trivial

/-- The loop of BDI hands out the register of stage 1, whatever the number of stages. -/
theorem cycle_bdi (hn : 2 ≤ n) : ∃ s, cycle .bdi n reg input = some s ∧ s.2 = reg 1 ∧
    s.1 1 = input := by
  rw [cycle, if_neg (by omega), foldlM_visitStage hn]
  refine ⟨_, rfl, ?_⟩
  have horder : Kind.bdi.loop.order n = (List.range n).map fun k => n - 1 - k := rfl
  rw [horder, List.foldl_map]
  -- after `k` stages the register of stage 1 is as before, until its turn comes
  have hinv := foldl_range (fun k (s : Registers β × Option β) =>
    (k < n - 1 → s.1 1 = reg 1) ∧ (k = n - 1 → s.2 = reg 1) ∧
      (k = n → s.2 = reg 1 ∧ s.1 1 = input))
    (f := fun s k => visit (Kind.plType .bdi n) Loop.descending.next input s (n - 1 - k))
    (s := (reg, none)) n ⟨fun _ => rfl, by omega, by omega⟩ ?_
  · exact hinv.2.2 rfl
  · rintro k s hk ⟨hbefore, hturn, -⟩
    by_cases hlast : n - 1 - k = 0
    · have hk' : k = n - 1 := by omega
      refine ⟨by omega, by omega, fun _ => ?_⟩
      simp only [visit, Kind.plType, hlast, if_true, Loop.next]
      refine ⟨hturn hk', ?_⟩
      rw [Function.update_of_ne (by decide), Function.update_self]
    · have hreg := hbefore (by omega)
      simp only [visit, Kind.plType, if_neg hlast]
      refine ⟨fun hlt => ?_, fun heq => ?_, by omega⟩
      · rw [Function.update_of_ne (by omega)]
        exact hreg
      · rw [show n - 1 - k = 1 by omega]
        exact hreg

theorem delays_bdi (hn : 2 ≤ n) : Delays .bdi n 1 := by
  intro α β comp inputs
  apply outputs_eq (fun reg => [reg 1]) fun _ => True
  · intro reg input _
    obtain ⟨s, hs, hout, hnext⟩ := @cycle_bdi β n reg input hn
    exact ⟨s, hs, by rw [hout, hnext]; rfl, trivial⟩
  · trivial

end Loops

/-! ## Which pipelines are queues -/

/-- BDI with one stage writes to a stage that is not there. -/
theorem not_fifo_bdi_one : ¬ Fifo .bdi 1 := by
  intro h
  have hrun := h Unit Unit (fun _ => id) [some ()]
  simp [outputs, cycle, Kind.oneStage, Kind.loop, Loop.order, visitStage, Kind.plType,
    Kind.InRange] at hrun

/-- FPC with one stage only hands out. -/
theorem not_fifo_fpc_one : ¬ Fifo .fpc 1 := by
  intro h
  have hrun := h Unit Unit (fun _ => id) [some ()]
  simp [outputs, cycle, Kind.oneStage, Kind.loop, Loop.order, visitStage, Kind.plType,
    visit, compressed] at hrun

/-- A pipeline of one stage or more is a queue with the latency of its stages exactly when the
number of stages fits its loop. -/
theorem fifo_iff (kind : Kind) {pipelineNo : ℕ} (h : 1 ≤ pipelineNo) :
    Fifo kind pipelineNo ↔ StagesFit kind pipelineNo := by
  by_cases hn : 2 ≤ pipelineNo
  · by_cases hkind : kind = .bdi
    · subst hkind
      constructor
      · intro hfifo
        have := delays_unique hfifo (delays_bdi hn)
        simp only [StagesFit]
        omega
      · intro hfit
        simp only [StagesFit] at hfit
        subst hfit
        exact delays_bdi hn
    · have hfifo : Fifo kind pipelineNo := delays_of_two_le hn hkind
      refine ⟨fun _ => ?_, fun _ => hfifo⟩
      cases kind <;> simp_all [StagesFit]
  · obtain rfl : pipelineNo = 1 := by omega
    cases kind with
    | bdi =>
        have hfit : ¬ StagesFit .bdi 1 := by simp [StagesFit]
        exact ⟨fun hfifo => absurd hfifo not_fifo_bdi_one, fun h => absurd h hfit⟩
    | fpc =>
        have hfit : ¬ StagesFit .fpc 1 := by simp [StagesFit]
        exact ⟨fun hfifo => absurd hfifo not_fifo_fpc_one, fun h => absurd h hfit⟩
    | cpack | sc2 | fph | lwm => exact ⟨fun _ => trivial, fun _ => delays_one rfl⟩

theorem fifo_iff_cpack_one : Fifo .cpack 1 ↔ StagesFit .cpack 1 := fifo_iff .cpack (Nat.le_refl 1)

/-- BDI with three stages: the packet leaves in the second cycle. -/
theorem not_fifo : ¬ ∀ (kind : Kind) (pipelineNo : ℕ), 1 ≤ pipelineNo → Fifo kind pipelineNo := by
  intro h
  have hrun := delays_unique (h .bdi 3 (by decide)) (delays_bdi (by decide))
  omega

end CompressionWork.Reply
