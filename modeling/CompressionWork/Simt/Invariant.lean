import CompressionWork.Simt.Stack

/-!
# The SIMT stack: the invariant

`Inv` relates the entries to the next PCs of the threads.  What an update does to the stack is put together
from three changes, and each keeps the invariant: the top entry goes (`Inv.pop`), the top entry is set to a
path (`Inv.set`), or a path is put on top (`Inv.push`).
-/

namespace CompressionWork.Simt

/-- The thread is in none of the entries. -/
def Free (t : ℕ) (stack : List StackEntry) : Prop := ∀ x ∈ stack, t ∉ x.activeMask

/-- Below an entry, the first one with the thread has the PC, and no call is between them. -/
def Next (t pc : ℕ) (below : List StackEntry) : Prop :=
  ∃ c f d, below = c ++ f :: d ∧ t ∈ f.activeMask ∧ Free t c ∧ (∀ x ∈ c, x.type = .normal) ∧ f.pc = pc

/-- The invariant, over the live threads and their next PCs.  Above each entry are the ones before it. -/
structure Inv (stack : List StackEntry) (live : Finset ℕ) (pc : ℕ → ℕ) : Prop where
  nonempty : ∀ e ∈ stack, e.activeMask.Nonempty
  cover : ∀ t ∈ live, ∃ e ∈ stack, t ∈ e.activeMask
  own : ∀ a e b, stack = a ++ e :: b → ∀ t ∈ live, t ∈ e.activeMask → Free t a → pc t = e.pc
  link : ∀ a e b, stack = a ++ e :: b → e.type = .normal → e.recvgPc ≠ nullPc →
    ∀ t ∈ e.activeMask, Next t e.recvgPc b
  call : ∀ a e b, stack = a ++ e :: b → e.type = .call → e.recvgPc = nullPc ∧ ∃ f d, b = f :: d ∧
    e.activeMask ⊆ f.activeMask ∧ ∀ t ∈ live, t ∈ f.activeMask → ¬ Free t (a ++ [e])
  disjoint : ∀ a e b, stack = a ++ e :: b → ∀ x ∈ a, x.region = e.region →
    Disjoint x.activeMask e.activeMask
  region : ∀ a e b, stack = a ++ e :: b → ∀ p, e.region = some p →
    ∃ c f d, b = c ++ f :: d ∧ d.length = p ∧ e.activeMask ⊆ f.activeMask

variable {stack rest : List StackEntry} {live liveNow : Finset ℕ} {pc pc' : ℕ → ℕ} {e top : StackEntry}

/-- A path is put on top; its threads may become live. -/
theorem Inv.push (h : Inv stack live pc) (hne : e.activeMask.Nonempty)
    (hlive : ∀ t ∈ liveNow, t ∉ e.activeMask → t ∈ live ∧ pc' t = pc t)
    (hown : ∀ t ∈ liveNow, t ∈ e.activeMask → pc' t = e.pc)
    (hlink : e.type = .normal → e.recvgPc ≠ nullPc → ∀ t ∈ e.activeMask, Next t e.recvgPc stack)
    (hcall : e.type = .call → e.recvgPc = nullPc ∧ ∃ f d, stack = f :: d ∧
      e.activeMask ⊆ f.activeMask ∧ ∀ t ∈ liveNow, t ∈ f.activeMask → t ∈ e.activeMask)
    (hdis : ∀ x ∈ stack, e.region = x.region → Disjoint e.activeMask x.activeMask)
    (hreg : ∀ p, e.region = some p → ∃ c f d, stack = c ++ f :: d ∧ d.length = p ∧
      e.activeMask ⊆ f.activeMask) : Inv (e :: stack) liveNow pc' where
  nonempty x hx := by
    rcases List.mem_cons.1 hx with rfl | hx
    · exact hne
    · exact h.nonempty x hx
  cover t ht := by
    by_cases he : t ∈ e.activeMask
    · exact ⟨e, List.mem_cons_self, he⟩
    · obtain ⟨x, hx, hm⟩ := h.cover t (hlive t ht he).1
      exact ⟨x, List.mem_cons_of_mem e hx, hm⟩
  own a x b hs t ht hm hf := by
    cases a with
    | nil =>
      obtain ⟨rfl, rfl⟩ := List.cons.inj hs
      exact hown t ht hm
    | cons y a =>
      obtain ⟨rfl, hs'⟩ := List.cons.inj hs
      obtain ⟨hl, hp⟩ := hlive t ht (hf e List.mem_cons_self)
      rw [hp]
      exact h.own a x b hs' t hl hm fun z hz => hf z (List.mem_cons_of_mem e hz)
  link a x b hs := by
    cases a with
    | nil =>
      obtain ⟨rfl, rfl⟩ := List.cons.inj hs
      exact hlink
    | cons y a => exact h.link a x b (List.cons.inj hs).2
  call a x b hs hx := by
    cases a with
    | nil =>
      obtain ⟨rfl, rfl⟩ := List.cons.inj hs
      obtain ⟨hn, f, d, hd, hsub, hall⟩ := hcall hx
      exact ⟨hn, f, d, hd, hsub, fun t ht hf hfree => hfree e (by simp) (hall t ht hf)⟩
    | cons y a =>
      obtain ⟨rfl, hs'⟩ := List.cons.inj hs
      obtain ⟨hn, f, d, hd, hsub, hall⟩ := h.call a x b hs' hx
      refine ⟨hn, f, d, hd, hsub, fun t ht hf hfree => ?_⟩
      have hte : t ∉ e.activeMask := hfree e (by simp)
      exact hall t (hlive t ht hte).1 hf fun z hz => hfree z (List.mem_cons_of_mem e hz)
  disjoint a x b hs y hy := by
    cases a with
    | nil => simp at hy
    | cons z a =>
      obtain ⟨rfl, hs'⟩ := List.cons.inj hs
      rcases List.mem_cons.1 hy with rfl | hy
      · exact hdis x (by simp [hs'])
      · exact h.disjoint a x b hs' y hy
  region a x b hs := by
    cases a with
    | nil =>
      obtain ⟨rfl, rfl⟩ := List.cons.inj hs
      exact hreg
    | cons y a => exact h.region a x b (List.cons.inj hs).2

/-- The first entry with a thread is the same in two decompositions. -/
theorem Next.eq_of_first {t p : ℕ} {a b : List StackEntry} {x : StackEntry}
    (hn : Next t p (a ++ x :: b)) (hx : t ∈ x.activeMask) (hf : Free t a) : x.pc = p := by
  obtain ⟨c, f, d, hs, hf', hc, -, hp⟩ := hn
  induction a generalizing c with
  | nil =>
    cases c with
    | nil => exact (List.cons.inj hs).1 ▸ hp
    | cons y c =>
      obtain ⟨rfl, -⟩ := List.cons.inj hs
      exact absurd hx (hc _ List.mem_cons_self)
  | cons y a ih =>
    cases c with
    | nil =>
      obtain ⟨rfl, -⟩ := List.cons.inj hs
      exact absurd hf' (hf _ List.mem_cons_self)
    | cons z c =>
      exact ih (fun w hw => hf w (List.mem_cons_of_mem y hw)) c (List.cons.inj hs).2
        (fun w hw => hc w (List.mem_cons_of_mem z hw))

/-- The first entry with a thread is not below a call. -/
theorem Next.not_free {t p : ℕ} {a b : List StackEntry} {x : StackEntry}
    (hn : Next t p (a ++ x :: b)) (hx : x.type = .call) : ¬ Free t (a ++ [x]) := by
  obtain ⟨c, f, d, hs, hf', -, hc, -⟩ := hn
  intro hf
  induction a generalizing c with
  | nil =>
    cases c with
    | nil =>
      obtain ⟨rfl, -⟩ := List.cons.inj hs
      exact hf _ (by simp) hf'
    | cons y c =>
      obtain ⟨rfl, -⟩ := List.cons.inj hs
      simp [hc _ List.mem_cons_self] at hx
  | cons y a ih =>
    cases c with
    | nil =>
      obtain ⟨rfl, -⟩ := List.cons.inj hs
      exact hf _ (by simp) hf'
    | cons z c =>
      exact ih c (List.cons.inj hs).2 (fun w hw => hc w (List.mem_cons_of_mem z hw))
        (fun w hw => hf w (List.mem_cons_of_mem y hw))

/-- The top entry goes; its live threads go to its reconvergence point. -/
theorem Inv.pop (h : Inv (top :: rest) live pc)
    (hlive : ∀ t ∈ liveNow, t ∉ top.activeMask → t ∈ live ∧ pc' t = pc t)
    (hgo : ∀ t ∈ liveNow, t ∈ top.activeMask →
      top.type = .normal ∧ top.recvgPc ≠ nullPc ∧ pc' t = top.recvgPc) : Inv rest liveNow pc' := by
  have hnext : ∀ t ∈ liveNow, t ∈ top.activeMask → Next t (pc' t) rest := by
    intro t ht hm
    obtain ⟨hn, hr, hp⟩ := hgo t ht hm
    rw [hp]
    exact h.link [] top rest rfl hn hr t hm
  exact
    { nonempty := fun x hx => h.nonempty x (List.mem_cons_of_mem top hx)
      cover := by
        intro t ht
        by_cases hm : t ∈ top.activeMask
        · obtain ⟨c, f, d, rfl, hf, -⟩ := hnext t ht hm
          exact ⟨f, by simp, hf⟩
        · obtain ⟨x, hx, hxm⟩ := h.cover t (hlive t ht hm).1
          rcases List.mem_cons.1 hx with rfl | hx
          · exact absurd hxm hm
          · exact ⟨x, hx, hxm⟩
      own := by
        intro a x b hs t ht hx hf
        by_cases hm : t ∈ top.activeMask
        · have hn := hnext t ht hm
          rw [hs] at hn
          exact (hn.eq_of_first hx hf).symm
        · obtain ⟨hl, hp⟩ := hlive t ht hm
          rw [hp]
          refine h.own (top :: a) x b (by simp [hs]) t hl hx ?_
          intro y hy
          rcases List.mem_cons.1 hy with rfl | hy
          · exact hm
          · exact hf y hy
      link := fun a x b hs => h.link (top :: a) x b (by simp [hs])
      call := by
        intro a x b hs hx
        obtain ⟨hn, f, d, hd, hsub, hall⟩ := h.call (top :: a) x b (by simp [hs]) hx
        refine ⟨hn, f, d, hd, hsub, fun t ht hf hfree => ?_⟩
        by_cases hm : t ∈ top.activeMask
        · have hnx := hnext t ht hm
          rw [hs] at hnx
          exact hnx.not_free hx hfree
        · refine hall t (hlive t ht hm).1 hf ?_
          intro y hy
          rcases List.mem_cons.1 hy with rfl | hy
          · exact hm
          · exact hfree y hy
      disjoint := fun a x b hs y hy =>
        h.disjoint (top :: a) x b (by simp [hs]) y (List.mem_cons_of_mem top hy)
      region := fun a x b hs => h.region (top :: a) x b (by simp [hs]) }

/-- The top entry is set to a path; its other live threads go to its reconvergence point. -/
theorem Inv.set (h : Inv (top :: rest) live pc) {m : Finset ℕ} {p : ℕ} (hne : m.Nonempty)
    (hm : m ⊆ top.activeMask)
    (hlive : ∀ t ∈ liveNow, t ∉ top.activeMask → t ∈ live ∧ pc' t = pc t)
    (hown : ∀ t ∈ liveNow, t ∈ m → pc' t = p)
    (hgo : ∀ t ∈ liveNow, t ∈ top.activeMask → t ∉ m →
      top.type = .normal ∧ top.recvgPc ≠ nullPc ∧ pc' t = top.recvgPc)
    (hcall : top.type = .call → ∀ t ∈ liveNow, t ∈ top.activeMask → t ∈ m) :
    Inv ({ top with pc := p, activeMask := m } :: rest) liveNow pc' := by
  -- the threads of the path are put on top again, after the entry is gone
  have hpop : Inv rest (liveNow \ m) pc' := by
    refine h.pop ?_ ?_
    · intro t ht
      exact hlive t (Finset.mem_sdiff.1 ht).1
    · intro t ht htop
      obtain ⟨ht, hnm⟩ := Finset.mem_sdiff.1 ht
      exact hgo t ht htop hnm
  refine hpop.push hne ?_ hown ?_ ?_ ?_ ?_
  · intro t ht hnm
    exact ⟨Finset.mem_sdiff.2 ⟨ht, hnm⟩, rfl⟩
  · intro hn hr t ht
    exact h.link [] top rest rfl hn hr t (hm ht)
  · intro hc
    obtain ⟨hn, f, d, hd, hsub, hall⟩ := h.call [] top rest rfl hc
    refine ⟨hn, f, d, hd, hm.trans hsub, fun t ht hf => ?_⟩
    by_contra hnm
    have htop : t ∉ top.activeMask := fun hx => hnm (hcall hc t ht hx)
    exact hall t (hlive t ht htop).1 hf (by simpa [Free] using htop)
  · intro x hx hr
    obtain ⟨a, b, hs⟩ := List.append_of_mem hx
    exact (h.disjoint (top :: a) x b (by simp [hs]) top List.mem_cons_self hr).mono_left hm
  · intro q hq
    obtain ⟨c, f, d, hd, hl, hsub⟩ := h.region [] top rest rfl q hq
    exact ⟨c, f, d, hd, hl, hm.trans hsub⟩

end CompressionWork.Simt
