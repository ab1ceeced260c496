import Mathlib.Data.Nat.Notation

/-!
# Counting loops

Invariant rules for the folds that model `for (i = 0; i < n; i++)` and
`for (i = 1; i <= n; i++)`.

* `foldl_range` — every round keeps the invariant.
* `foldlM_range'` — every round succeeds and keeps the invariant, so the loop succeeds.
* `foldlM_keeps` — a fold over any list that succeeds keeps what its rounds keep.
-/

namespace CompressionWork.Transition

variable {σ : Type*}

theorem foldl_range (inv : ℕ → σ → Prop) {f : σ → ℕ → σ} {s : σ} (n : ℕ) (h : inv 0 s)
    (hstep : ∀ i s, i < n → inv i s → inv (i + 1) (f s i)) :
    inv n ((List.range n).foldl f s) := by
  induction n with
  | zero => exact h
  | succ n ih =>
    rw [List.range_succ, List.foldl_append]
    exact hstep n _ n.lt_succ_self (ih fun i s hi => hstep i s (by omega))

theorem foldlM_range' (inv : ℕ → σ → Prop) {f : σ → ℕ → Option σ} {s : σ} (n : ℕ) (h : inv 0 s)
    (hstep : ∀ i s, i < n → inv i s → ∃ s', f s (i + 1) = some s' ∧ inv (i + 1) s') :
    ∃ s', (List.range' 1 n).foldlM f s = some s' ∧ inv n s' := by
  induction n with
  | zero => exact ⟨s, rfl, h⟩
  | succ n ih =>
    obtain ⟨t, ht, hinv⟩ := ih fun i s hi => hstep i s (by omega)
    obtain ⟨s', hs', hinv'⟩ := hstep n t n.lt_succ_self hinv
    refine ⟨s', ?_, hinv'⟩
    rw [List.range'_1_concat, List.foldlM_append, ht]
    simpa [Nat.add_comm] using hs'

theorem foldlM_keeps {ε : Type*} (inv : σ → Prop) {f : σ → ε → Option σ} {events : List ε} {s s' : σ}
    (hrun : events.foldlM f s = some s') (h : inv s)
    (hstep : ∀ s e s', inv s → f s e = some s' → inv s') : inv s' := by
  induction events generalizing s with
  | nil =>
    obtain rfl := Option.some.inj hrun
    exact h
  | cons e events ih =>
    rw [List.foldlM_cons] at hrun
    obtain ⟨t, ht, hrest⟩ := Option.bind_eq_some_iff.1 hrun
    exact ih hrest (hstep s e t h ht)

end CompressionWork.Transition
