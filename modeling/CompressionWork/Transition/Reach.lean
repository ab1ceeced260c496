import Mathlib.Data.List.Induction

/-!
# Runs of a labelled transition system

A run from a starting state, with the list of its events, oldest first.

* `Reach.invariant` — what holds at the start and is kept by every step holds in every state reached.
* `Reach.append` — a run goes on from the state it has reached.
* `Reach.of_prefix` — a run passes through a state for every prefix of its events.
* `Reach.simulation` — a system whose every step is a step, or no step, of another one under a map of
  the states only reaches states the other one reaches.
-/

namespace CompressionWork.Transition

variable {σ τ ε δ : Type*} {start : σ → Prop} {step : σ → ε → σ → Prop}

/-- `Reach start step log s`: a run from a starting state to `s` has the events `log`. -/
inductive Reach (start : σ → Prop) (step : σ → ε → σ → Prop) : List ε → σ → Prop
  | start {s : σ} (h : start s) : Reach start step [] s
  | step {log : List ε} {s s' : σ} {e : ε} (h : Reach start step log s) (hstep : step s e s') :
      Reach start step (log ++ [e]) s'

/-- `Steps step s events s'`: the run from `s` with these events ends in `s'`. -/
inductive Steps (step : σ → ε → σ → Prop) : σ → List ε → σ → Prop
  | nil {s : σ} : Steps step s [] s
  | cons {s t s' : σ} {e : ε} {events : List ε} (hstep : step s e t) (h : Steps step t events s') :
      Steps step s (e :: events) s'

theorem Steps.append {s t s' : σ} {events events' : List ε} (h : Steps step s events t)
    (h' : Steps step t events' s') : Steps step s (events ++ events') s' := by
  induction h with
  | nil => exact h'
  | cons hstep _ ih => exact .cons hstep (ih h')

namespace Reach

/-- A run goes on from the state it has reached. -/
theorem append {log events : List ε} {s s' : σ} (h : Reach start step log s)
    (hsteps : Steps step s events s') : Reach start step (log ++ events) s' := by
  induction hsteps generalizing log with
  | nil => simpa using h
  | cons hstep _ ih => simpa using ih (h.step hstep)

/-- **The induction rule**: the step may use that the state before it is reachable. -/
theorem invariant (inv : List ε → σ → Prop) (hstart : ∀ s, start s → inv [] s)
    (hstep : ∀ log s e s', Reach start step log s → inv log s → step s e s' → inv (log ++ [e]) s')
    {log : List ε} {s : σ} (h : Reach start step log s) : inv log s := by
  induction h with
  | start h => exact hstart _ h
  | step h hs ih => exact hstep _ _ _ _ h ih hs

/-- A run passes through a state after every prefix of its events, and the next event is a step from
there. -/
theorem of_prefix {before after : List ε} {e : ε} {s : σ}
    (h : Reach start step (before ++ e :: after) s) :
    ∃ t t', Reach start step before t ∧ step t e t' := by
  induction after using List.reverseRecOn generalizing s with
  | nil =>
    generalize hlog : before ++ [e] = log at h
    cases h with
    | start h => simp at hlog
    | step h hs =>
      obtain ⟨rfl, rfl⟩ := List.append_singleton_inj.1 hlog
      exact ⟨_, _, h, hs⟩
  | append_singleton after last ih =>
    generalize hlog : before ++ e :: (after ++ [last]) = log at h
    cases h with
    | start h => simp at hlog
    | step h hs =>
      rw [← List.cons_append, ← List.append_assoc] at hlog
      obtain ⟨rfl, rfl⟩ := List.append_singleton_inj.1 hlog
      exact ih h

/-- **Simulation**: the states of one system, mapped by `f`, are reached by the other. -/
theorem simulation {start' : τ → Prop} {step' : τ → δ → τ → Prop} (f : σ → τ)
    (hstart : ∀ s, start s → start' (f s))
    (hstep : ∀ log s e s', Reach start step log s → step s e s' →
      f s' = f s ∨ ∃ d, step' (f s) d (f s'))
    {log : List ε} {s : σ} (h : Reach start step log s) :
    ∃ log', Reach start' step' log' (f s) := by
  induction h with
  | start h => exact ⟨[], .start (hstart _ h)⟩
  | step h hs ih =>
    obtain ⟨log', ih⟩ := ih
    rcases hstep _ _ _ _ h hs with heq | ⟨d, hd⟩
    · exact ⟨log', heq ▸ ih⟩
    · exact ⟨_, ih.step hd⟩

end Reach

end CompressionWork.Transition
