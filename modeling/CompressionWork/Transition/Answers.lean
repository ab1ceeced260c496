import Mathlib.Data.List.Zip

/-!
# Runs that answer

A machine that takes one input in every cycle and gives one answer to it.

* `runs` — the answers to a list of inputs, and the state after them.
* `runs_keeps` — cycles that succeed and keep an invariant make a run that succeeds and keeps it.
* `exists_served` — a rank that every cycle takes down which counts and does not serve bounds the wait.
-/

namespace CompressionWork.Transition

variable {σ ε γ : Type*} {cycle : σ → ε → Option (γ × σ)} {s s' t : σ} {c : ε} {g : γ} {cs : List ε} {gs : List γ}

/-- One cycle for each input. -/
def runs (cycle : σ → ε → Option (γ × σ)) (s : σ) : List ε → Option (List γ × σ)
  | [] => some ([], s)
  | c :: cs => (cycle s c).bind fun r => (runs cycle r.2 cs).map fun t => (r.1 :: t.1, t.2)

theorem runs_cons (h : cycle s c = some (g, s')) (hruns : runs cycle s' cs = some (gs, t)) :
    runs cycle s (c :: cs) = some (g :: gs, t) := by
  rw [runs, h, Option.bind_some, hruns, Option.map_some]

/-- **The invariant rule.** -/
theorem runs_keeps (inv : σ → Prop) (good : ε → Prop)
    (hstep : ∀ s c, inv s → good c → ∃ g s', cycle s c = some (g, s') ∧ inv s') (h : inv s)
    (hgood : ∀ c ∈ cs, good c) : ∃ gs s', runs cycle s cs = some (gs, s') ∧ inv s' := by
  induction cs generalizing s with
  | nil => exact ⟨[], s, rfl, h⟩
  | cons c cs ih =>
    obtain ⟨g, s', hcycle, hinv⟩ := hstep s c h (hgood c List.mem_cons_self)
    obtain ⟨gs, t, hruns, hinv'⟩ := ih hinv fun c hc => hgood c (List.mem_cons_of_mem _ hc)
    exact ⟨g :: gs, t, runs_cons hcycle hruns, hinv'⟩

/-- **The waiting rule**: by induction on the inputs, where a cycle that counts serves or takes the rank down. -/
theorem exists_served (inv : σ → Prop) (good : ε → Prop) (counts : ε → Bool) (serves : γ → Prop) (rank : σ → ℕ)
    (hstep : ∀ s c, inv s → good c → ∃ g s', cycle s c = some (g, s') ∧ inv s' ∧
      (counts c = false → rank s' ≤ rank s) ∧ (counts c = true → serves g ∨ rank s' < rank s))
    (h : inv s) (hgood : ∀ c ∈ cs, good c) (hrank : rank s < cs.countP counts) :
    ∃ gs s', runs cycle s cs = some (gs, s') ∧ ∃ p ∈ cs.zip gs, counts p.1 ∧ serves p.2 := by
  have hkeeps : ∀ s c, inv s → good c → ∃ g s', cycle s c = some (g, s') ∧ inv s' := fun s c hs hc => by
    obtain ⟨g, s', hcycle, hinv, -⟩ := hstep s c hs hc
    exact ⟨g, s', hcycle, hinv⟩
  induction cs generalizing s with
  | nil => simp at hrank
  | cons c cs ih =>
    have hrest : ∀ c ∈ cs, good c := fun c hc => hgood c (List.mem_cons_of_mem _ hc)
    obtain ⟨g, s', hcycle, hinv, hskip, hcount⟩ := hstep s c h (hgood c List.mem_cons_self)
    have hlater : rank s' < cs.countP counts → ∃ gs t, runs cycle s (c :: cs) = some (gs, t) ∧
        ∃ p ∈ (c :: cs).zip gs, counts p.1 ∧ serves p.2 := fun hlt => by
      obtain ⟨gs, t, hruns, p, hp, hserved⟩ := ih hinv hrest hlt
      exact ⟨g :: gs, t, runs_cons hcycle hruns, p, List.mem_cons_of_mem _ hp, hserved⟩
    by_cases hc : counts c
    · rw [List.countP_cons_of_pos hc] at hrank
      rcases hcount hc with hserves | hlt
      · obtain ⟨gs, t, hruns, -⟩ := runs_keeps inv good hkeeps hinv hrest
        exact ⟨g :: gs, t, runs_cons hcycle hruns, (c, g), List.mem_cons_self, hc, hserves⟩
      · exact hlater (by omega)
    · rw [List.countP_cons_of_neg hc] at hrank
      exact hlater (lt_of_le_of_lt (hskip (by simpa using hc)) hrank)

end CompressionWork.Transition
