import CompressionWork.Simt.Step

/-!
# The SIMT stack: runs of a warp

The stack follows the threads of a warp in every run whose instructions `update` handles.  A thread that
exits in a call stays in the masks of the entries below, and is active again after the return.
-/

namespace CompressionWork.Simt

namespace Warp

variable {w : Warp} {i : Instr} {top : StackEntry} {rest : List StackEntry}

/-! ## Runs -/

/-- The runs of a warp from its launch, with the instructions that are `ok`. -/
inductive Run (ok : Warp → Instr → Prop) : Warp → Prop
  | start {startPc : ℕ} {threads : Finset ℕ} (h : threads.Nonempty) : Run ok (Warp.start startPc threads)
  | step {w w' : Warp} (i : Instr) (h : Run ok w) (ha : Allowed w i) (hok : ok w i)
      (hs : w.step i = some w') : Run ok w'

/-- The stack follows the threads: each live one is in it, the top entry has live threads at its PC, the
entries of one branch are disjoint and inside their reconvergence entry, and no assertion fails in what
comes next. -/
structure Faithful (ok : Warp → Instr → Prop) (w : Warp) : Prop where
  live : ∀ t ∈ w.live, ∃ e ∈ w.stack, t ∈ e.activeMask
  top : w.live.Nonempty → ∃ top rest, w.stack = top :: rest ∧ top.activeMask.Nonempty ∧
    ∀ t ∈ top.activeMask, t ∈ w.live ∧ w.pc t = top.pc
  disjoint : ∀ a e b, w.stack = a ++ e :: b → ∀ x ∈ a, x.region = e.region →
    Disjoint x.activeMask e.activeMask
  region : ∀ a e b, w.stack = a ++ e :: b → ∀ p, e.region = some p →
    ∃ c f d, b = c ++ f :: d ∧ d.length = p ∧ e.activeMask ⊆ f.activeMask
  noAbort : ∀ i, Allowed w i → ok w i → (w.step i).isSome

theorem start_split {startPc : ℕ} {threads : Finset ℕ} {a b : List StackEntry} {e : StackEntry}
    (hs : (Warp.start startPc threads).stack = a ++ e :: b) :
    a = [] ∧ e = { pc := startPc, activeMask := threads } ∧ b = [] := by
  cases a with
  | nil =>
    obtain ⟨rfl, rfl⟩ := List.cons.inj hs
    exact ⟨rfl, rfl, rfl⟩
  | cons x a =>
    have hl := congrArg List.length hs
    simp [Warp.start, launch] at hl

theorem sound_start {startPc : ℕ} {threads : Finset ℕ} (hne : threads.Nonempty) :
    Sound (Warp.start startPc threads) where
  inv :=
    { nonempty := by simpa [Warp.start, launch] using hne
      cover := by
        intro t ht
        exact ⟨_, List.mem_cons_self, (mem_live.1 ht).1⟩
      own := by
        intro a e b hs t _ _ _
        obtain ⟨rfl, rfl, rfl⟩ := start_split hs
        rfl
      link := by
        intro a e b hs _ hr
        obtain ⟨rfl, rfl, rfl⟩ := start_split hs
        exact absurd rfl hr
      call := by
        intro a e b hs hc
        obtain ⟨rfl, rfl, rfl⟩ := start_split hs
        simp at hc
      disjoint := by
        intro a e b hs x hx
        obtain ⟨rfl, -⟩ := start_split hs
        simp at hx
      region := by
        intro a e b hs p hp
        obtain ⟨rfl, rfl, rfl⟩ := start_split hs
        simp at hp }
  threads := by simp [Warp.start, launch]
  top := by
    intro _ top htop
    obtain rfl := Option.some.inj htop
    intro t ht
    exact mem_live.2 ⟨ht, by simp [Warp.start]⟩

theorem Run.sound (h : Run Handled w) : Sound w := by
  induction h with
  | start hne => exact sound_start hne
  | step i _ ha hok hs ih =>
    obtain ⟨w', hs', hsound⟩ := ih.step ha hok
    rw [hs] at hs'
    cases hs'
    exact hsound

theorem stack_faithful (h : Run Handled w) : Faithful Handled w := by
  have hs := h.sound
  refine ⟨hs.inv.cover, ?_, hs.inv.disjoint, hs.inv.region, ?_⟩
  · intro hl
    cases hst : w.stack with
    | nil =>
      obtain ⟨t, ht⟩ := hl
      obtain ⟨e, he, -⟩ := hs.inv.cover t ht
      simp [hst] at he
    | cons top rest =>
      refine ⟨top, rest, rfl, hs.inv.nonempty top (by simp [hst]), fun t ht => ?_⟩
      have hlive := hs.top hl top (by simp [hst]) ht
      exact ⟨hlive, hs.inv.own [] top rest hst t hlive ht (by simp [Free])⟩
  · intro i ha hok
    obtain ⟨w', hw', -⟩ := hs.step ha hok
    simp [hw']

/-! ## Two threads in a call -/

theorem step_of_update {stack : List StackEntry} (hs : w.stack = top :: rest)
    (hu : update (top :: rest) (w.result top i) = some stack) :
    w.step i = some (w.after top i stack) := by
  simp only [Warp.step, hs, hu, Option.map_some]
  rfl

theorem paths_of_single {u : Update} {p : ℕ} (h : u.pcs top = {p}) : u.paths top = [p] := by
  have hle : (u.pcs top).card ≤ 2 := by simp [h]
  rcases Update.paths_cases hle with
    ⟨-, hp⟩ | ⟨q, hq, hp⟩ | ⟨q, r, -, hqr, hp⟩
  · simp [h] at hp
  · rw [h, Finset.singleton_inj] at hp
    rw [hq, hp]
  · have hcard := congrArg Finset.card (h.symm.trans hp)
    simp [Finset.card_pair hqr] at hcard

/-- Both threads call the function at 100. -/
def callBoth : Instr := ⟨.callOps, 8, nullPc, ∅, fun _ => 100⟩

/-- Thread 0 exits in the function. -/
def exitFirst : Instr := ⟨.other, 8, nullPc, {0}, fun _ => 108⟩

/-- The return. -/
def returnBoth : Instr := ⟨.retOps, 8, nullPc, ∅, fun _ => 8⟩

/-- The entry at launch. -/
def launched : StackEntry := { pc := 0, activeMask := {0, 1} }

/-- The entry of the call. -/
def inCall : StackEntry := { pc := 100, activeMask := {0, 1}, type := .call, region := some 0 }

/-- The warp in the function, after one thread has exited, and after the other has returned. -/
def called : Warp := (Warp.start 0 {0, 1}).after launched callBoth [inCall, launched]

def exited : Warp := called.after inCall exitFirst [inCall.onPath 108 {1}, launched]

def returned : Warp :=
  exited.after (inCall.onPath 108 {1}) returnBoth [{ launched with pc := 8 }]

theorem step_called : (Warp.start 0 {0, 1}).step callBoth = some called :=
  step_of_update rfl (update_call rfl ⟨0, by decide⟩ (paths_of_single (by decide)) rfl)

theorem step_exited : called.step exitFirst = some exited :=
  step_of_update rfl (update_one (p := 108) rfl ⟨0, by decide⟩ (paths_of_single (by decide))
    ⟨by decide, by decide⟩)

theorem step_returned : exited.step returnBoth = some returned :=
  step_of_update rfl (update_ret (p := 8) rfl ⟨1, by decide⟩ (paths_of_single (by decide)) rfl rfl)

/-- An instruction for which the top entry is known. -/
theorem allowed_of_top {t : ℕ} (ht : t ∈ w.live) (hs : w.stack.head? = some top)
    (hc : ((w.result top i).pcs top).card ≤ 2) (hn : nullPc ∉ (w.result top i).pcs top) :
    Allowed w i := by
  refine ⟨⟨t, ht⟩, fun x hx => ?_⟩
  obtain rfl := Option.some.inj (hs.symm.trans hx)
  exact ⟨hc, hn⟩

theorem allowed_called : Allowed (Warp.start 0 {0, 1}) callBoth :=
  allowed_of_top (t := 0) (by decide) rfl (by decide) (by decide)

/-- A call of both threads. -/
theorem stack_faithful_called : Faithful Handled called := by
  refine stack_faithful (.step callBoth (.start ⟨0, by decide⟩) allowed_called ?_ step_called)
  intro top rest hs
  obtain ⟨rfl, rfl⟩ := List.cons.inj hs
  have hnone : ((Warp.start 0 {0, 1}).result launched callBoth).uncovered launched [] = none := by
    decide
  refine ⟨fun _ => by decide, fun hp => absurd rfl hp.1, fun f hf => ?_⟩
  have hmem : f ∈ ((Warp.start 0 {0, 1}).result launched callBoth).uncovered launched [] := hf
  simp [hnone] at hmem

/-- After the return, the finished thread is active again. -/
theorem not_stack_faithful :
    ¬ ∀ w, Run (fun _ _ => True) w → Faithful (fun _ _ => True) w := by
  intro hall
  have h1 : Run (fun _ _ => True) called :=
    .step callBoth (.start ⟨0, by decide⟩) allowed_called trivial step_called
  have h2 : Run (fun _ _ => True) exited :=
    .step exitFirst h1 (allowed_of_top (t := 0) (by decide) rfl (by decide) (by decide)) trivial
      step_exited
  have h3 : Run (fun _ _ => True) returned :=
    .step returnBoth h2 (allowed_of_top (t := 1) (by decide) rfl (by decide) (by decide)) trivial
      step_returned
  obtain ⟨top, rest, hst, -, htop⟩ := (hall _ h3).top ⟨1, by decide⟩
  obtain ⟨rfl, rfl⟩ := List.cons.inj hst
  exact absurd (htop 0 (by decide)).1 (by decide)

end Warp

end CompressionWork.Simt
