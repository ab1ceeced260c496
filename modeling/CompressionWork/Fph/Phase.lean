import Mathlib.Data.Int.Order.Basic
import Mathlib.Data.List.Basic
import Mathlib.Tactic.Common

/-!
# The phases of FP-H

`hpcl_comp_fph_pl::run` samples below `iter_sam` instructions and encodes between there and
`iter_enc`; the first line it encodes makes it build its tables.  Its comparisons are strict
on both sides of `iter_sam`, and its last branch, where an `assert(0)` is commented out,
assigns nothing.  `hpcl_comp_sc2_pl::run` is the same chain without the gap, and with the
assertion.

* `runPhase`, `runPhaseSc2` — one call of each.
* `runPhases` — the calls of a simulation, one after the other.
* `runPhases_getElem?` — what a call does depends on the counts before it.
* `phases_iff` — when every call is in one phase.
-/

namespace CompressionWork.Fph

/-- What a call decides. -/
structure RunStep where
  /-- The local `state`; `none` when no branch assigns it. -/
  state : Option ℕ
  /-- `write_data_file` and `generic_init` were called. -/
  built : Bool
  deriving DecidableEq, Repr

/-- `run` up to the loop over the stages, with the new `do_sam`; `none` when an assertion
fails. -/
def runPhase (iterSam iterEnc : ℤ) (doSam : Bool) (instCount : ℤ) : Option (RunStep × Bool) :=
  if iterSam < iterEnc then
    if instCount < iterSam then some (⟨some 0, false⟩, doSam)
    else if instCount > iterSam ∧ instCount < iterEnc then some (⟨some 1, !doSam⟩, true)
    else some (⟨none, false⟩, doSam)
  else none

/-- `hpcl_comp_sc2_pl::run` up to the same place. -/
def runPhaseSc2 (iterSam iterEnc : ℤ) (doSam : Bool) (instCount : ℤ) :
    Option (RunStep × Bool) :=
  if iterSam < iterEnc then
    if instCount < iterSam then some (⟨some 0, false⟩, doSam)
    else if instCount ≥ iterSam ∧ instCount < iterEnc then some (⟨some 1, !doSam⟩, true)
    else none
  else none

/-- The calls at these instruction counts. -/
def runPhases (iterSam iterEnc : ℤ) : Bool → List ℤ → Option (List RunStep)
  | _, [] => some []
  | doSam, c :: counts =>
      (runPhase iterSam iterEnc doSam c).bind fun r =>
        (runPhases iterSam iterEnc r.2 counts).map (r.1 :: ·)

/-- The phases of the compressor. -/
inductive Phase where
  | sampling
  | construction
  | encoding
  deriving DecidableEq, Repr

/-- A call is in a phase. -/
def RunStep.In (s : RunStep) : Phase → Prop
  | .sampling => s.state = some 0 ∧ s.built = false
  | .construction => s.state = some 1 ∧ s.built = true
  | .encoding => s.state = some 1 ∧ s.built = false

/-- A call that assigns `state` is in exactly one phase. -/
theorem RunStep.existsUnique_in {s : RunStep} (h : s.state = some 0 ∧ s.built = false ∨
    s.state = some 1) : ∃! p, s.In p := by
  obtain ⟨state, built⟩ := s
  rcases h with ⟨rfl, rfl⟩ | hs
  · refine ⟨.sampling, ⟨rfl, rfl⟩, fun p hp => ?_⟩
    cases p <;> simp_all [RunStep.In]
  · obtain rfl : state = some 1 := hs
    cases built with
    | true =>
        refine ⟨.construction, ⟨rfl, rfl⟩, fun p hp => ?_⟩
        cases p <;> simp_all [RunStep.In]
    | false =>
        refine ⟨.encoding, ⟨rfl, rfl⟩, fun p hp => ?_⟩
        cases p <;> simp_all [RunStep.In]

theorem RunStep.In.assigned {s : RunStep} {p : Phase} (h : s.In p) : s.state ≠ none := by
  cases p <;> simp [RunStep.In] at h <;> simp [h.1]

/-! ## One call -/

section

variable {iterSam iterEnc : ℤ} (hlt : iterSam < iterEnc)

include hlt

theorem runPhase_below {c : ℤ} (h : c < iterSam) (doSam : Bool) :
    runPhase iterSam iterEnc doSam c = some (⟨some 0, false⟩, doSam) := by
  rw [runPhase, if_pos hlt, if_pos h]

theorem runPhase_between {c : ℤ} (h : iterSam < c) (h' : c < iterEnc) (doSam : Bool) :
    runPhase iterSam iterEnc doSam c = some (⟨some 1, !doSam⟩, true) := by
  rw [runPhase, if_pos hlt, if_neg (by omega), if_pos ⟨h, h'⟩]

/-- At the first threshold and from the second one on nothing is assigned. -/
theorem runPhase_gap {c : ℤ} (h : c = iterSam ∨ iterEnc ≤ c) (doSam : Bool) :
    runPhase iterSam iterEnc doSam c = some (⟨none, false⟩, doSam) := by
  rw [runPhase, if_pos hlt, if_neg (by omega), if_neg (by omega)]

/-- The sibling assigns its `comp_state` at every count where it goes on. -/
theorem runPhaseSc2_assigned (doSam : Bool) (c : ℤ) :
    (runPhaseSc2 iterSam iterEnc doSam c = none ↔ iterEnc ≤ c) ∧
      ∀ r, runPhaseSc2 iterSam iterEnc doSam c = some r → ∃! p, r.1.In p := by
  rw [runPhaseSc2, if_pos hlt]
  rcases Int.lt_or_le c iterSam with h | h
  · rw [if_pos h]
    refine ⟨⟨nofun, fun h' => by omega⟩, fun r hr => ?_⟩
    obtain rfl := Option.some.inj hr
    exact RunStep.existsUnique_in (Or.inl ⟨rfl, rfl⟩)
  · rw [if_neg (by omega)]
    rcases Int.lt_or_le c iterEnc with h' | h'
    · rw [if_pos ⟨h, h'⟩]
      refine ⟨⟨nofun, fun h' => by omega⟩, fun r hr => ?_⟩
      obtain rfl := Option.some.inj hr
      exact RunStep.existsUnique_in (Or.inr rfl)
    · rw [if_neg (by omega)]
      exact ⟨⟨fun _ => h', fun _ => rfl⟩, nofun⟩

end

/-! ## A simulation -/

/-- The count is one at which lines are encoded. -/
def Encodes (iterSam iterEnc c : ℤ) : Bool := iterSam < c && c < iterEnc

/-- A call of a simulation: `do_sam` is set when a line was encoded before. -/
theorem runPhases_getElem? {iterSam iterEnc : ℤ} (hlt : iterSam < iterEnc) (counts : List ℤ) :
    ∀ doSam, ∃ steps, runPhases iterSam iterEnc doSam counts = some steps ∧
      steps.length = counts.length ∧
      ∀ i (hi : i < counts.length), ∃ s b, steps[i]? = some s ∧
        runPhase iterSam iterEnc
          (doSam || (counts.take i).any (Encodes iterSam iterEnc)) counts[i] = some (s, b) := by
  induction counts with
  | nil => intro doSam; exact ⟨[], rfl, rfl, fun i hi => absurd hi (by simp)⟩
  | cons c counts ih =>
      intro doSam
      -- the new `do_sam`
      obtain ⟨s, hs⟩ : ∃ s, runPhase iterSam iterEnc doSam c =
          some (s, doSam || Encodes iterSam iterEnc c) := by
        by_cases henc : iterSam < c ∧ c < iterEnc
        · have hset : (doSam || Encodes iterSam iterEnc c) = true := by
            simp [Encodes, henc.1, henc.2]
          exact ⟨_, by rw [runPhase_between hlt henc.1 henc.2, hset]⟩
        · have hkeep : (doSam || Encodes iterSam iterEnc c) = doSam := by
            simp [Encodes, henc]
          rw [hkeep]
          rcases Int.lt_or_le c iterSam with h | h
          · exact ⟨_, runPhase_below hlt h doSam⟩
          · exact ⟨_, runPhase_gap hlt (by omega) doSam⟩
      obtain ⟨steps, hsteps, hlen, hat⟩ := ih (doSam || Encodes iterSam iterEnc c)
      refine ⟨s :: steps, by rw [runPhases, hs, Option.bind_some, hsteps, Option.map_some],
        by rw [List.length_cons, hlen, List.length_cons], fun i hi => ?_⟩
      cases i with
      | zero => exact ⟨s, _, rfl, by simpa using hs⟩
      | succ i =>
          obtain ⟨s', b, hs', hrun⟩ := hat i (Nat.lt_of_succ_lt_succ hi)
          refine ⟨s', b, hs', ?_⟩
          rw [List.take_succ_cons, List.any_cons, ← Bool.or_assoc]
          exact hrun

/-- Every call is in exactly one phase, samples below `iter_sam` only, and builds the tables
when sampling ends: at the first count that is not below `iter_sam`, and at no other. -/
def PhasesDetermined (iterSam : ℤ) (counts : List ℤ) (steps : List RunStep) : Prop :=
  ∀ i (hi : i < counts.length), ∃ s, steps[i]? = some s ∧ (∃! p, s.In p) ∧
    (s.In .sampling ↔ counts[i] < iterSam) ∧
    (s.In .construction ↔ iterSam ≤ counts[i] ∧ ∀ c ∈ counts.take i, c < iterSam)

/-- **When the phases are determined**: no call is made at the first threshold or from the
second one on. -/
theorem phases_iff {iterSam iterEnc : ℤ} (hlt : iterSam < iterEnc) (counts : List ℤ) :
    ∃ steps, runPhases iterSam iterEnc false counts = some steps ∧
      (PhasesDetermined iterSam counts steps ↔
        ∀ c ∈ counts, c ≠ iterSam ∧ c < iterEnc) := by
  obtain ⟨steps, hsteps, -, hat⟩ := runPhases_getElem? hlt counts false
  refine ⟨steps, hsteps, fun h c hc => ?_, fun h i hi => ?_⟩
  · obtain ⟨i, hi, rfl⟩ := List.getElem_of_mem hc
    obtain ⟨s, hs, ⟨p, hp, -⟩, -⟩ := h i hi
    obtain ⟨s', b, hs', hrun⟩ := hat i hi
    obtain rfl : s = s' := Option.some.inj (hs.symm.trans hs')
    by_contra hgap
    rw [runPhase_gap hlt (by omega)] at hrun
    obtain rfl : (⟨none, false⟩ : RunStep) = s := (Prod.mk.inj (Option.some.inj hrun)).1
    exact hp.assigned rfl
  · obtain ⟨s, b, hs, hrun⟩ := hat i hi
    obtain ⟨hne, henc⟩ := h _ (List.getElem_mem hi)
    refine ⟨s, hs, ?_⟩
    -- `do_sam` is set when a count before was not below the threshold
    have hdone : (counts.take i).any (Encodes iterSam iterEnc) = false ↔
        ∀ c ∈ counts.take i, c < iterSam := by
      rw [List.any_eq_false]
      refine forall₂_congr fun c hc => ?_
      have := h c (List.mem_of_mem_take hc)
      simp only [Encodes, Bool.and_eq_true, decide_eq_true_eq]
      omega
    rw [Bool.false_or] at hrun
    rcases Int.lt_or_le counts[i] iterSam with hbelow | hge
    · rw [runPhase_below hlt hbelow] at hrun
      obtain rfl : (⟨some 0, false⟩ : RunStep) = s := (Prod.mk.inj (Option.some.inj hrun)).1
      refine ⟨RunStep.existsUnique_in (Or.inl ⟨rfl, rfl⟩), iff_of_true ⟨rfl, rfl⟩ hbelow,
        iff_of_false (by simp [RunStep.In]) fun h => by omega⟩
    · rw [runPhase_between hlt (by omega) henc] at hrun
      obtain rfl := (Prod.mk.inj (Option.some.inj hrun)).1
      refine ⟨RunStep.existsUnique_in (Or.inr rfl),
        iff_of_false (by simp [RunStep.In]) (by omega), ?_⟩
      rw [← hdone]
      simp [RunStep.In, hge]

theorem phases_iff_two : (100 : ℤ) < 200 ∧
    ∃ steps, runPhases 100 200 false [99, 101, 102] = some steps ∧
      (PhasesDetermined 100 [99, 101, 102] steps ↔
        ∀ c ∈ [(99 : ℤ), 101, 102], c ≠ 100 ∧ c < 200) :=
  have hlt : (100 : ℤ) < 200 := by decide
  ⟨hlt, phases_iff hlt [99, 101, 102]⟩

/-- A call at exactly `iter_sam` instructions uses `state` without an assignment. -/
theorem not_phases_at_threshold : ¬ ∀ (iterSam iterEnc : ℤ) (counts : List ℤ),
    iterSam < iterEnc → ∃ steps, runPhases iterSam iterEnc false counts = some steps ∧
      PhasesDetermined iterSam counts steps := by
  intro h
  obtain ⟨steps, hsteps, hdet⟩ := h 100 200 [100] (by decide)
  obtain rfl : [⟨none, false⟩] = steps := Option.some.inj hsteps
  obtain ⟨s, hs, ⟨p, hp, -⟩, -⟩ := hdet 0 (by decide)
  obtain rfl : (⟨none, false⟩ : RunStep) = s := Option.some.inj hs
  exact hp.assigned rfl

end CompressionWork.Fph
