import CompressionWork.Simt.Update

/-!
# The SIMT stack: one instruction of a warp

* `Warp.Allowed`, `Warp.Handled` — the instructions of a run, and those that `update` handles.
* `Warp.Sound` — the entries are in step with their threads.

Each case of `update` keeps the entries in step, so that an instruction does.
-/

namespace CompressionWork.Simt

/-- The entry that becomes the top one when the instruction ends the top entry: all its threads finish, they
reconverge, or they return from a call. -/
def Update.uncovered (u : Update) (top : StackEntry) (rest : List StackEntry) : Option StackEntry :=
  if u.pcs top = ∅ then rest.head?
  else if u.op = .callOps then none
  else if u.op = .retOps ∧ top.type = .call then
    match rest with
    | [] => none
    | f :: d => if u.pcs top = {f.recvgPc} ∧ f.type ≠ .call then d.head? else some f
  else if u.pcs top = {top.recvgPc} ∧ top.type ≠ .call then rest.head?
  else none

namespace Warp

/-- An instruction of a warp with live threads: they go to at most two next PCs. -/
def Allowed (w : Warp) (i : Instr) : Prop :=
  w.live.Nonempty ∧ ∀ top ∈ w.stack.head?,
    ((w.result top i).pcs top).card ≤ 2 ∧ nullPc ∉ (w.result top i).pcs top

/-- The instructions that `update` handles: threads are together at calls and returns from them, no path of
a branch with a reconvergence point of its own is at the one around it, and the entry that an instruction
uncovers has no finished thread, unless all are finished. -/
def Handled (w : Warp) (i : Instr) : Prop :=
  ∀ top rest, w.stack = top :: rest →
    let u := w.result top i
    (u.op = .callOps ∨ u.op = .retOps ∧ top.type = .call → (u.pcs top).card ≤ 1) ∧
    (u.Plain top → (u.pcs top).card = 2 → u.recvgPc ≠ top.recvgPc → top.type ≠ .call →
      top.recvgPc ∉ u.pcs top) ∧
    (∀ f ∈ u.uncovered top rest, w.threads ⊆ u.threadDone ∨ Disjoint f.activeMask u.threadDone)

/-- The entries that are in step with their threads. -/
structure Sound (w : Warp) : Prop where
  inv : Inv w.stack w.live w.pc
  threads : ∀ e ∈ w.stack, e.activeMask ⊆ w.threads
  top : w.live.Nonempty → ∀ top ∈ w.stack.head?, top.activeMask ⊆ w.live

variable {w : Warp} {i : Instr} {top : StackEntry} {rest : List StackEntry}

theorem mem_live {t : ℕ} : t ∈ w.live ↔ t ∈ w.threads ∧ t ∉ w.done := Finset.mem_sdiff

/-- The warp after the instruction, with the stack that `update` leaves. -/
def after (w : Warp) (top : StackEntry) (i : Instr) (stack : List StackEntry) : Warp :=
  { w with stack, done := (w.result top i).threadDone, pc := (w.result top i).nextPc }

theorem mem_live_after {stack : List StackEntry} {t : ℕ} :
    t ∈ (w.after top i stack).live ↔ t ∈ w.live ∧ (t ∈ top.activeMask → t ∉ i.exits) := by
  simp only [Warp.live, Warp.after, Warp.result, Finset.mem_sdiff, Finset.mem_union, Finset.mem_inter]
  tauto

/-- A live thread of the top entry is in the group of its next PC. -/
theorem mem_group_result {t p : ℕ} {stack : List StackEntry} (h : Sound w)
    (hs : w.stack = top :: rest) (hl : w.live.Nonempty) :
    t ∈ (w.result top i).group top p ↔
      t ∈ (w.after top i stack).live ∧ t ∈ top.activeMask ∧ (w.result top i).nextPc t = p := by
  have htop := h.top hl top (by simp [hs])
  rw [Update.mem_group, mem_live_after]
  constructor
  · rintro ⟨hm, hd, hp⟩
    refine ⟨⟨htop hm, fun _ he => hd ?_⟩, hm, hp⟩
    exact Finset.mem_union_right _ (Finset.mem_inter.2 ⟨hm, he⟩)
  · rintro ⟨⟨hlv, he⟩, hm, hp⟩
    refine ⟨hm, fun hd => ?_, hp⟩
    rcases Finset.mem_union.1 hd with hd | hd
    · exact (mem_live.1 hlv).2 hd
    · exact he hm (Finset.mem_inter.1 hd).2

/-- The threads outside the top entry do not move. -/
theorem live_outside {stack : List StackEntry} :
    ∀ t ∈ (w.after top i stack).live, t ∉ top.activeMask →
      t ∈ w.live ∧ (w.result top i).nextPc t = w.pc t := by
  intro t ht hm
  exact ⟨(mem_live_after.1 ht).1, by simp [Warp.result, hm]⟩

theorem nextPc_mem_pcs {t : ℕ} {stack : List StackEntry} (h : Sound w) (hs : w.stack = top :: rest)
    (hl : w.live.Nonempty) (ht : t ∈ (w.after top i stack).live) (hm : t ∈ top.activeMask) :
    (w.result top i).nextPc t ∈ (w.result top i).pcs top :=
  Update.mem_pcs.2 ⟨t, (mem_group_result h hs hl).2 ⟨ht, hm, rfl⟩⟩

/-- The entries after an update are in step, if the invariant holds and the top one has no finished
thread. -/
theorem Sound.after (h : Sound w) {stack : List StackEntry}
    (hinv : Inv stack (w.after top i stack).live (w.result top i).nextPc)
    (hsub : ∀ e ∈ stack, ∃ y ∈ w.stack, e.activeMask ⊆ y.activeMask)
    (htop : ∀ x ∈ stack.head?, x.activeMask ⊆ (w.after top i stack).live ∨
      w.threads ⊆ (w.result top i).threadDone ∨ Disjoint x.activeMask (w.result top i).threadDone) :
    Sound (w.after top i stack) where
  inv := hinv
  threads e he := by
    obtain ⟨y, hy, hm⟩ := hsub e he
    exact hm.trans (h.threads y hy)
  top hl x hx := by
    rcases htop x hx with hlv | hall | hdis
    · exact hlv
    · obtain ⟨t, ht⟩ := hl
      exact absurd (hall (mem_live.1 ht).1) (mem_live.1 ht).2
    · intro t ht
      obtain ⟨y, hy, hm⟩ := hsub x (List.mem_of_mem_head? hx)
      exact mem_live.2 ⟨h.threads y hy (hm ht), Finset.disjoint_left.1 hdis ht⟩

end Warp

/-! ## The changes of the stack -/

variable {stack rest : List StackEntry} {live liveNow : Finset ℕ} {pc pc' : ℕ → ℕ} {top : StackEntry}

/-- No entry of the stack has the top one as its region. -/
theorem Inv.region_ne (h : Inv (top :: rest) live pc) {x : StackEntry} (hx : x ∈ top :: rest) :
    some rest.length ≠ x.region := by
  intro hr
  obtain ⟨a, b, hs⟩ := List.append_of_mem hx
  obtain ⟨c, f, d, hb, hl, -⟩ := h.region a x b hs rest.length hr.symm
  have hlen := congrArg List.length hs
  simp only [hb, List.length_cons, List.length_append] at hlen
  omega

theorem Next.cons {t p : ℕ} {x : StackEntry} (h : Next t p stack) (hx : t ∉ x.activeMask)
    (ht : x.type = .normal) : Next t p (x :: stack) := by
  obtain ⟨c, f, d, rfl, hf, hc, hn, hp⟩ := h
  refine ⟨x :: c, f, d, rfl, hf, ?_, ?_, hp⟩
  · intro y hy
    rcases List.mem_cons.1 hy with rfl | hy
    · exact hx
    · exact hc y hy
  · intro y hy
    rcases List.mem_cons.1 hy with rfl | hy
    · exact ht
    · exact hn y hy

/-- A path of a branch is put on top. -/
theorem Inv.pushPath (h : Inv stack live pc) {r q : ℕ} {m : Finset ℕ} {region : Option ℕ}
    (hne : m.Nonempty) (hlive : ∀ t ∈ liveNow, t ∉ m → t ∈ live ∧ pc' t = pc t)
    (hown : ∀ t ∈ liveNow, t ∈ m → pc' t = q) (hlink : r ≠ nullPc → ∀ t ∈ m, Next t r stack)
    (hdis : ∀ x ∈ stack, region = x.region → Disjoint m x.activeMask)
    (hreg : ∀ p, region = some p → ∃ c f d, stack = c ++ f :: d ∧ d.length = p ∧
      m ⊆ f.activeMask) : Inv (newPath r q m region :: stack) liveNow pc' :=
  h.push hne hlive hown (fun _ => hlink) (fun hc => by simp [newPath] at hc) hdis hreg

namespace Warp

variable {w : Warp} {i : Instr} {rest : List StackEntry}

/-- The place of an instruction in a run. -/
structure At (w : Warp) (i : Instr) (top : StackEntry) (rest : List StackEntry) : Prop where
  sound : Sound w
  stack : w.stack = top :: rest
  live : w.live.Nonempty
  null : nullPc ∉ (w.result top i).pcs top
  handled : Handled w i

theorem At.inv (h : At w i top rest) : Inv (top :: rest) w.live w.pc := h.stack ▸ h.sound.inv

theorem At.mem_group (h : At w i top rest) {stack : List StackEntry} {t p : ℕ} :
    t ∈ (w.result top i).group top p ↔
      t ∈ (w.after top i stack).live ∧ t ∈ top.activeMask ∧ (w.result top i).nextPc t = p :=
  mem_group_result h.sound h.stack h.live

theorem At.mem_pcs (h : At w i top rest) {stack : List StackEntry} {t : ℕ}
    (ht : t ∈ (w.after top i stack).live) (hm : t ∈ top.activeMask) :
    (w.result top i).nextPc t ∈ (w.result top i).pcs top :=
  nextPc_mem_pcs h.sound h.stack h.live ht hm

theorem At.group_subset (p : ℕ) : (w.result top i).group top p ⊆ top.activeMask :=
  fun _ ht => (Update.mem_group.1 ht).1

theorem At.group_disjoint {p q : ℕ} (hpq : p ≠ q) :
    Disjoint ((w.result top i).group top q) ((w.result top i).group top p) := by
  refine Finset.disjoint_left.2 fun t hq hp => hpq ?_
  rw [← (Update.mem_group.1 hp).2.2, ← (Update.mem_group.1 hq).2.2]

/-- The entries below the top one stay. -/
theorem At.inside_rest (h : At w i top rest) : ∀ e ∈ rest, ∃ y ∈ w.stack, e.activeMask ⊆ y.activeMask :=
  fun e he => ⟨e, by simp [h.stack, he], subset_rfl⟩

/-- A new entry has threads of the top one. -/
theorem At.inside_cons (h : At w i top rest) {x : StackEntry} {stack : List StackEntry}
    (hx : x.activeMask ⊆ top.activeMask)
    (hs : ∀ e ∈ stack, ∃ y ∈ w.stack, e.activeMask ⊆ y.activeMask) :
    ∀ e ∈ x :: stack, ∃ y ∈ w.stack, e.activeMask ⊆ y.activeMask := by
  intro e he
  rcases List.mem_cons.1 he with rfl | he
  · exact ⟨top, by simp [h.stack], hx⟩
  · exact hs e he

/-- A call entry has no reconvergence point. -/
theorem At.normal_of_mem (h : At w i top rest) (hr : top.recvgPc ∈ (w.result top i).pcs top) :
    top.type = .normal ∧ top.recvgPc ≠ nullPc := by
  have hne : top.recvgPc ≠ nullPc := fun hn => h.null (hn ▸ hr)
  refine ⟨?_, hne⟩
  cases ht : top.type with
  | normal => rfl
  | call => exact absurd (h.inv.call [] top rest rfl ht).1 hne

/-- The top entry goes. -/
theorem At.step_pop (h : At w i top rest)
    (hpcs : ∀ p ∈ (w.result top i).pcs top, p = top.recvgPc)
    (hu : (w.result top i).uncovered top rest = rest.head?) : Sound (w.after top i rest) := by
  refine h.sound.after ?_ ?_ ?_
  · refine h.inv.pop live_outside fun t ht hm => ?_
    have hmem := h.mem_pcs ht hm
    have hgo := hpcs _ hmem
    rw [hgo] at hmem
    obtain ⟨hn, hne⟩ := h.normal_of_mem hmem
    exact ⟨hn, hne, hgo⟩
  · exact h.inside_rest
  · intro x hx
    exact .inr ((h.handled top rest h.stack).2.2 x (hu ▸ hx))

/-- The top entry is set to a path, and the others reconverge. -/
theorem At.step_set (h : At w i top rest) {p : ℕ} (hp : p ∈ (w.result top i).pcs top)
    (hpcs : ∀ q ∈ (w.result top i).pcs top, q ≠ p → q = top.recvgPc) :
    Sound (w.after top i (top.onPath p ((w.result top i).group top p) :: rest)) := by
  refine h.sound.after ?_ ?_ ?_
  · refine h.inv.set (Update.mem_pcs.1 hp) (At.group_subset p) live_outside ?_ ?_ ?_
    · intro t _ hm
      exact (Update.mem_group.1 hm).2.2
    · intro t ht hm hng
      have hmem := h.mem_pcs ht hm
      have hne : (w.result top i).nextPc t ≠ p := fun hq => hng (h.mem_group.2 ⟨ht, hm, hq⟩)
      have hgo := hpcs _ hmem hne
      rw [hgo] at hmem
      obtain ⟨hn, hnn⟩ := h.normal_of_mem hmem
      exact ⟨hn, hnn, hgo⟩
    · intro hc t ht hm
      by_contra hng
      have hmem := h.mem_pcs ht hm
      have hne : (w.result top i).nextPc t ≠ p := fun hq => hng (h.mem_group.2 ⟨ht, hm, hq⟩)
      rw [hpcs _ hmem hne] at hmem
      simp [(h.normal_of_mem hmem).1] at hc
  · exact h.inside_cons (At.group_subset p) h.inside_rest
  · intro x hx
    obtain rfl := Option.some.inj hx
    exact .inl fun t ht => (h.mem_group.1 ht).1

/-- Two paths of a branch that reconverges with the one around it. -/
theorem At.step_two (h : At w i top rest) {p q : ℕ} (hpq : p ≠ q)
    (hpcs : (w.result top i).pcs top = {p, q}) :
    Sound (w.after top i (newPath top.recvgPc q ((w.result top i).group top q) top.region ::
      top.onPath p ((w.result top i).group top p) :: rest)) := by
  have hp : p ∈ (w.result top i).pcs top := by simp [hpcs]
  have hq : q ∈ (w.result top i).pcs top := by simp [hpcs]
  have hmemp : ∀ t, t ∈ (w.result top i).group top p ↔ t ∈ (w.after top i []).live ∧
      t ∈ top.activeMask ∧ (w.result top i).nextPc t = p := fun t => h.mem_group
  have hmemq : ∀ t, t ∈ (w.result top i).group top q ↔ t ∈ (w.after top i []).live ∧
      t ∈ top.activeMask ∧ (w.result top i).nextPc t = q := fun t => h.mem_group
  have hset : Inv (top.onPath p ((w.result top i).group top p) :: rest)
      ((w.after top i []).live \ (w.result top i).group top q) (w.result top i).nextPc := by
    have hin : ∀ t ∈ (w.after top i []).live \ (w.result top i).group top q,
        t ∈ top.activeMask → t ∈ (w.result top i).group top p := by
      intro t ht hm
      obtain ⟨ht, hng⟩ := Finset.mem_sdiff.1 ht
      have hmem := h.mem_pcs ht hm
      rw [hpcs, Finset.mem_insert, Finset.mem_singleton] at hmem
      rcases hmem with hm' | hm'
      · exact (hmemp t).2 ⟨ht, hm, hm'⟩
      · exact absurd ((hmemq t).2 ⟨ht, hm, hm'⟩) hng
    refine h.inv.set (Update.mem_pcs.1 hp) (At.group_subset p) ?_ ?_ ?_ ?_
    · exact fun t ht => live_outside t (Finset.mem_sdiff.1 ht).1
    · exact fun t _ hm => (Update.mem_group.1 hm).2.2
    · exact fun t ht hm hng => absurd (hin t ht hm) hng
    · exact fun _ t ht hm => hin t ht hm
  refine h.sound.after ?_ ?_ ?_
  · refine hset.pushPath (Update.mem_pcs.1 hq) ?_ ?_ ?_ ?_ ?_
    · exact fun t ht hng => ⟨Finset.mem_sdiff.2 ⟨ht, hng⟩, rfl⟩
    · exact fun t _ hm => (Update.mem_group.1 hm).2.2
    · intro hr t ht
      have hn : top.type = .normal := by
        cases hty : top.type with
        | normal => rfl
        | call => exact absurd (h.inv.call [] top rest rfl hty).1 hr
      have hlink := h.inv.link [] top rest rfl hn hr t (At.group_subset q ht)
      exact hlink.cons (Finset.disjoint_left.1 (At.group_disjoint hpq) ht) hn
    · intro x hx hr
      rcases List.mem_cons.1 hx with rfl | hx
      · exact At.group_disjoint hpq
      · obtain ⟨a, b, hs⟩ := List.append_of_mem hx
        exact (h.inv.disjoint (top :: a) x b (by simp [hs]) top List.mem_cons_self hr).mono_left
          (At.group_subset q)
    · intro r hr
      obtain ⟨c, f, d, hd, hl, hsub⟩ := h.inv.region [] top rest rfl r hr
      exact ⟨top.onPath p ((w.result top i).group top p) :: c, f, d, by simp [hd], hl,
        (At.group_subset q).trans hsub⟩
  · exact h.inside_cons (At.group_subset q) (h.inside_cons (At.group_subset p) h.inside_rest)
  · intro x hx
    obtain rfl := Option.some.inj hx
    exact .inl fun t ht => ((hmemq t).1 ht).1

/-! ## Branches with a reconvergence point of their own -/

/-- The top entry becomes the reconvergence entry, for the threads outside the paths. -/
theorem At.reconverge (h : At w i top rest) {live : Finset ℕ}
    (hsub : live ⊆ (w.after top i []).live)
    (hgo : ∀ t ∈ live, t ∈ top.activeMask → (w.result top i).nextPc t = (w.result top i).recvgPc) :
    Inv (top.onPath (w.result top i).recvgPc top.activeMask :: rest) live
      (w.result top i).nextPc := by
  refine h.inv.set (h.inv.nonempty top List.mem_cons_self) subset_rfl ?_ hgo ?_ ?_
  · exact fun t ht => live_outside t (hsub ht)
  · exact fun t _ hm hn => absurd hm hn
  · exact fun _ t _ hm => hm

/-- A path of the branch is put on top, above the paths that are there. -/
theorem At.pushBranch (h : At w i top rest) (above : List StackEntry) {q : ℕ} {live : Finset ℕ}
    (hq : q ∈ (w.result top i).pcs top)
    (habove : ∀ x ∈ above, x.type = .normal ∧ Disjoint ((w.result top i).group top q) x.activeMask)
    (hinv : Inv (above ++ top.onPath (w.result top i).recvgPc top.activeMask :: rest)
      (live \ (w.result top i).group top q) (w.result top i).nextPc) :
    Inv (newPath (w.result top i).recvgPc q ((w.result top i).group top q) (some rest.length) ::
      (above ++ top.onPath (w.result top i).recvgPc top.activeMask :: rest)) live
      (w.result top i).nextPc := by
  refine hinv.pushPath (Update.mem_pcs.1 hq) ?_ ?_ ?_ ?_ ?_
  · exact fun t ht hng => ⟨Finset.mem_sdiff.2 ⟨ht, hng⟩, rfl⟩
  · exact fun t _ hm => (Update.mem_group.1 hm).2.2
  · intro _ t ht
    exact ⟨above, _, rest, rfl, At.group_subset q ht,
      fun x hx => Finset.disjoint_left.1 (habove x hx).2 ht, fun x hx => (habove x hx).1, rfl⟩
  · intro x hx hr
    rcases List.mem_append.1 hx with hx | hx
    · exact (habove x hx).2
    · rcases List.mem_cons.1 hx with rfl | hx
      · exact absurd hr (h.inv.region_ne (x := top) List.mem_cons_self)
      · exact absurd hr (h.inv.region_ne (List.mem_cons_of_mem top hx))
  · rintro r hr
    obtain rfl := Option.some.inj hr
    exact ⟨above, _, rest, rfl, rfl, At.group_subset q⟩

/-- One path of a branch, and the other is at the reconvergence point. -/
theorem At.step_branch (h : At w i top rest) {q : ℕ} (hq : q ∈ (w.result top i).pcs top)
    (hpcs : ∀ p ∈ (w.result top i).pcs top, p ≠ q → p = (w.result top i).recvgPc) :
    Sound (w.after top i
      (newPath (w.result top i).recvgPc q ((w.result top i).group top q) (some rest.length) ::
        top.onPath (w.result top i).recvgPc top.activeMask :: rest)) := by
  refine h.sound.after (h.pushBranch [] hq (by simp) ?_) ?_ ?_
  · refine h.reconverge (fun t ht => (Finset.mem_sdiff.1 ht).1) fun t ht hm => ?_
    obtain ⟨ht, hng⟩ := Finset.mem_sdiff.1 ht
    exact hpcs _ (h.mem_pcs ht hm) fun hp => hng (h.mem_group.2 ⟨ht, hm, hp⟩)
  · exact h.inside_cons (At.group_subset q) (h.inside_cons subset_rfl h.inside_rest)
  · intro x hx
    obtain rfl := Option.some.inj hx
    exact .inl fun t ht => (h.mem_group.1 ht).1

/-- Two paths of a branch. -/
theorem At.step_branches (h : At w i top rest) {p q : ℕ} (hpq : p ≠ q)
    (hpcs : (w.result top i).pcs top = {p, q}) :
    Sound (w.after top i
      (newPath (w.result top i).recvgPc q ((w.result top i).group top q) (some rest.length) ::
        newPath (w.result top i).recvgPc p ((w.result top i).group top p) (some rest.length) ::
          top.onPath (w.result top i).recvgPc top.activeMask :: rest)) := by
  have hp : p ∈ (w.result top i).pcs top := by simp [hpcs]
  have hq : q ∈ (w.result top i).pcs top := by simp [hpcs]
  refine h.sound.after (h.pushBranch [_] hq ?_ (h.pushBranch [] hp (by simp) ?_))
    ?_ ?_
  · intro x hx
    obtain rfl := List.mem_singleton.1 hx
    exact ⟨rfl, At.group_disjoint hpq⟩
  · refine h.reconverge (fun t ht => (Finset.mem_sdiff.1 (Finset.mem_sdiff.1 ht).1).1)
      fun t ht hm => ?_
    exfalso
    obtain ⟨ht, hnp⟩ := Finset.mem_sdiff.1 ht
    obtain ⟨ht, hnq⟩ := Finset.mem_sdiff.1 ht
    have hmem := h.mem_pcs ht hm
    rw [hpcs, Finset.mem_insert, Finset.mem_singleton] at hmem
    rcases hmem with hm' | hm'
    · exact hnp (h.mem_group.2 ⟨ht, hm, hm'⟩)
    · exact hnq (h.mem_group.2 ⟨ht, hm, hm'⟩)
  · exact h.inside_cons (At.group_subset q) (h.inside_cons (At.group_subset p)
      (h.inside_cons subset_rfl h.inside_rest))
  · intro x hx
    obtain rfl := Option.some.inj hx
    exact .inl fun t ht => (h.mem_group.1 ht).1

/-! ## Calls -/

theorem At.step_call (h : At w i top rest) {p : ℕ} (hpcs : (w.result top i).pcs top = {p}) :
    Sound (w.after top i
      ({ pc := p, activeMask := (w.result top i).group top p, type := .call,
         region := some rest.length } :: top :: rest)) := by
  have hp : p ∈ (w.result top i).pcs top := by simp [hpcs]
  have hall : ∀ t ∈ (w.after top i []).live, t ∈ top.activeMask → t ∈ (w.result top i).group top p := by
    intro t ht hm
    have hmem := h.mem_pcs ht hm
    rw [hpcs, Finset.mem_singleton] at hmem
    exact h.mem_group.2 ⟨ht, hm, hmem⟩
  refine h.sound.after ?_ ?_ ?_
  · refine h.inv.push (Update.mem_pcs.1 hp) ?_ ?_ ?_ ?_ ?_ ?_
    · intro t ht hng
      exact live_outside t ht fun hm => hng (hall t ht hm)
    · exact fun t _ hm => (Update.mem_group.1 hm).2.2
    · exact fun hn => by simp at hn
    · exact fun _ => ⟨rfl, top, rest, rfl, At.group_subset p, hall⟩
    · exact fun x hx hr => absurd hr (h.inv.region_ne hx)
    · rintro r hr
      obtain rfl := Option.some.inj hr
      exact ⟨[], top, rest, rfl, rfl, At.group_subset p⟩
  · exact h.inside_cons (At.group_subset p) (h.inside_cons subset_rfl h.inside_rest)
  · intro x hx
    obtain rfl := Option.some.inj hx
    exact .inl fun t ht => (h.mem_group.1 ht).1

/-- The return from a call. -/
theorem At.step_ret (h : At w i top rest) {p : ℕ} (hpcs : (w.result top i).pcs top = {p})
    (hop : i.op = .retOps) (ht : top.type = .call) :
    ∃ stack, returnTo p rest = some stack ∧ Sound (w.after top i stack) := by
  obtain ⟨-, f, d, rfl, hsub, hall⟩ := h.inv.call [] top rest rfl ht
  have hp : p ≠ nullPc := by
    rintro rfl
    exact h.null (by simp [hpcs])
  have hunc := (h.handled top (f :: d) h.stack).2.2
  -- the live threads of the entry below are those that return
  have hfree : ∀ t ∈ (w.after top i []).live, t ∈ f.activeMask →
      (w.result top i).nextPc t = p := by
    intro t htl hf
    have hm : t ∈ top.activeMask := by
      by_contra hm
      exact hall t (mem_live_after.1 htl).1 hf (by simpa [Free] using hm)
    have hmem := h.mem_pcs htl hm
    rwa [hpcs, Finset.mem_singleton] at hmem
  have hpop : Inv (f :: d) ((w.after top i []).live \ top.activeMask) (w.result top i).nextPc := by
    refine h.inv.pop ?_ ?_
    · exact fun t ht hm => live_outside t (Finset.mem_sdiff.1 ht).1 hm
    · exact fun t ht hm => absurd hm (Finset.mem_sdiff.1 ht).2
  have hlive : ∀ t ∈ (w.after top i []).live, t ∉ f.activeMask →
      t ∈ (w.after top i []).live \ top.activeMask ∧
        (w.result top i).nextPc t = (w.result top i).nextPc t :=
    fun t ht hf => ⟨Finset.mem_sdiff.2 ⟨ht, fun hm => hf (hsub hm)⟩, rfl⟩
  have hplain : (w.result top i).op = .retOps := hop
  simp only [returnTo]
  split
  · next hr =>
    refine ⟨d, rfl, h.sound.after ?_ ?_ ?_⟩
    · refine hpop.pop hlive fun t ht hf => ?_
      have hn : f.type = .normal := by
        cases hty : f.type with
        | normal => rfl
        | call => exact absurd hty hr.2
      exact ⟨hn, hr.1 ▸ hp, (hfree t ht hf).trans hr.1⟩
    · exact fun e he => ⟨e, by simp [h.stack, he], subset_rfl⟩
    · intro x hx
      refine .inr (hunc x ?_)
      simpa [Update.uncovered, hpcs, hplain, ht, hr.1, hr.2] using hx
  · next hr =>
    refine ⟨_, rfl, h.sound.after ?_ ?_ ?_⟩
    · refine hpop.set (hpop.nonempty f List.mem_cons_self) subset_rfl hlive hfree ?_ ?_
      · exact fun t _ hm hn => absurd hm hn
      · exact fun _ t _ hm => hm
    · intro e he
      rcases List.mem_cons.1 he with rfl | he
      · exact ⟨f, by simp [h.stack], subset_rfl⟩
      · exact ⟨e, by simp [h.stack, he], subset_rfl⟩
    · intro x hx
      obtain rfl := Option.some.inj hx
      refine .inr (hunc f ?_)
      simp only [Update.uncovered, hpcs, hplain, ht, Finset.singleton_ne_empty, Finset.singleton_inj, hr]
      simp

/-! ## Steps -/

theorem At.step_plain (h : At w i top rest) (hop : (w.result top i).Plain top)
    (hcard : ((w.result top i).pcs top).card ≤ 2) :
    ∃ stack, update (top :: rest) (w.result top i) = some stack ∧ Sound (w.after top i stack) := by
  have hne := h.inv.nonempty top List.mem_cons_self
  have hpc : top.pc = (w.result top i).pc := rfl
  rcases Update.paths_cases hcard with ⟨hp, hpcs⟩ | ⟨p, hp, hpcs⟩ | ⟨p, q, hp, hpq, hpcs⟩
  · exact ⟨rest, update_nil hpc hne hp, h.step_pop (by simp [hpcs]) (by simp [Update.uncovered, hpcs])⟩
  · refine ⟨_, update_one hpc hne hp hop, ?_⟩
    split
    · next hr =>
      refine h.step_pop (by simp [hpcs, hr.1]) ?_
      simp [Update.uncovered, hpcs, hop.1, hr.1, hr.2]
    · exact h.step_set (by simp [hpcs]) fun q hq hqp => absurd (by simpa [hpcs] using hq) hqp
  · have hcall : top.type = .call → p ≠ top.recvgPc ∧ q ≠ top.recvgPc := by
      intro ht
      have hnull := (h.inv.call [] top rest rfl ht).1
      have hmem := h.null
      simp only [hpcs, Finset.mem_insert, Finset.mem_singleton, not_or] at hmem
      rw [hnull]
      exact ⟨Ne.symm hmem.1, Ne.symm hmem.2⟩
    by_cases hs : (w.result top i).recvgPc = top.recvgPc
    · refine ⟨_, update_two_same hpc hne hp hop hpq hs hcall, ?_⟩
      split
      · next h1 =>
        refine h.step_set (by simp [hpcs]) fun r hr hrq => ?_
        rw [hpcs, Finset.mem_insert, Finset.mem_singleton] at hr
        exact (hr.resolve_right hrq).trans h1
      · split
        · next h2 =>
          refine h.step_set (by simp [hpcs]) fun r hr hrp => ?_
          rw [hpcs, Finset.mem_insert, Finset.mem_singleton] at hr
          exact (hr.resolve_left hrp).trans h2
        · exact h.step_two hpq hpcs
    · have hapart : top.type ≠ .call → p ≠ top.recvgPc ∧ q ≠ top.recvgPc := by
        intro ht
        have hnot := (h.handled top rest h.stack).2.1 hop (by rw [hpcs, Finset.card_pair hpq]) hs ht
        simp only [hpcs, Finset.mem_insert, Finset.mem_singleton, not_or] at hnot
        exact ⟨Ne.symm hnot.1, Ne.symm hnot.2⟩
      refine ⟨_, update_two_new hpc hne hp hop hpq hs hapart, ?_⟩
      split
      · next h1 =>
        refine h.step_branch (by simp [hpcs]) fun r hr hrq => ?_
        rw [hpcs, Finset.mem_insert, Finset.mem_singleton] at hr
        exact (hr.resolve_right hrq).trans h1
      · split
        · next h2 =>
          refine h.step_branch (by simp [hpcs]) fun r hr hrp => ?_
          rw [hpcs, Finset.mem_insert, Finset.mem_singleton] at hr
          exact (hr.resolve_left hrp).trans h2
        · exact h.step_branches hpq hpcs

/-- With the threads together, a call or the return from one. -/
theorem At.step_special (h : At w i top rest) (hop : ¬(w.result top i).Plain top) :
    ∃ stack, update (top :: rest) (w.result top i) = some stack ∧ Sound (w.after top i stack) := by
  have hne := h.inv.nonempty top List.mem_cons_self
  have hpc : top.pc = (w.result top i).pc := rfl
  have hsp : (w.result top i).op = .callOps ∨ (w.result top i).op = .retOps ∧ top.type = .call := by
    simp only [Update.Plain] at hop
    tauto
  have hone := (h.handled top rest h.stack).1 hsp
  rcases Update.paths_cases (hone.trans (by decide)) with ⟨hp, hpcs⟩ | ⟨p, hp, hpcs⟩ | ⟨p, q, -, hpq, hpcs⟩
  · exact ⟨rest, update_nil hpc hne hp, h.step_pop (by simp [hpcs]) (by simp [Update.uncovered, hpcs])⟩
  · rcases hsp with hc | ⟨hr, ht⟩
    · exact ⟨_, update_call hpc hne hp hc, h.step_call hpcs⟩
    · rw [update_ret hpc hne hp hr ht]
      exact h.step_ret hpcs hr ht
  · rw [hpcs, Finset.card_pair hpq] at hone
    omega

theorem Sound.step (h : Sound w) (ha : Allowed w i) (hh : Handled w i) :
    ∃ w', w.step i = some w' ∧ Sound w' := by
  obtain ⟨hl, ha⟩ := ha
  cases hs : w.stack with
  | nil =>
    obtain ⟨t, ht⟩ := hl
    obtain ⟨e, he, -⟩ := h.inv.cover t ht
    simp [hs] at he
  | cons top rest =>
    obtain ⟨hcard, hnull⟩ := ha top (by simp [hs])
    have hat : At w i top rest := ⟨h, hs, hl, hnull, hh⟩
    obtain ⟨stack, hu, hstep⟩ : ∃ stack, update (top :: rest) (w.result top i) = some stack ∧
        Sound (w.after top i stack) := by
      by_cases hop : (w.result top i).Plain top
      · exact hat.step_plain hop hcard
      · exact hat.step_special hop
    refine ⟨_, ?_, hstep⟩
    simp only [Warp.step, hs, hu, Option.map_some]
    rfl

end Warp

end CompressionWork.Simt
