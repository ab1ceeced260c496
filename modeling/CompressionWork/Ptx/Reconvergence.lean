/-
# Reconvergence at the immediate postdominators

`Exact` holds of what `find_postdominators` returns, and pruning leaves the immediate postdominators.
-/
import CompressionWork.Ptx.Dataflow

namespace CompressionWork
namespace Ptx

open CompressionWork.Graph

namespace FlowGraph

variable {g : FlowGraph} {pd : Sets} {b c d : ℕ}

/-! ## Immediate postdominators -/

/-- The sets are the postdominators. -/
structure Exact (g : FlowGraph) (pd : Sets) : Prop where
  reach : ∀ b < g.size, Reaches g.Edge g.exit b
  mem_iff : ∀ b < g.size, ∀ c, c ∈ pd b ↔ g.Postdom c b

theorem findPostdominators_spec (hreach : ∀ b < g.size, Reaches g.Edge g.exit b) :
    ∃ fuel₀, ∀ fuel ≥ fuel₀, ∃ pd, g.findPostdominators fuel = some pd ∧ g.Exact pd := by
  refine ⟨g.weight g.initial + 1, fun fuel hfuel => ?_⟩
  obtain ⟨pd, hsome, ha, hfix⟩ := rounds_spec (approx_initial hreach) hfuel
  exact ⟨pd, hsome, hreach, fun b hb c => ha.exact hfix hb⟩

theorem Exact.settled (he : g.Exact pd) (hb : b < g.size) : g.Settled g.exit pd b where
  root_lt := g.exit_lt
  reach := he.reach b hb
  mem_iff a ha := he.mem_iff a (postdom_lt (he.reach b hb) ha)

theorem Exact.exists_immediate (he : g.Exact pd) (hb : b < g.exit) :
    ∃ d, Immediate g.Edge g.exit d b :=
  (he.settled (Nat.lt_trans hb g.exit_lt)).exists_immediate (Nat.ne_of_lt hb)

theorem Exact.unique (he : g.Exact pd) (hb : b < g.size) (h : Immediate g.Edge g.exit c b)
    (h' : Immediate g.Edge g.exit d b) : c = d :=
  (he.settled hb).unique h h'

theorem Exact.tmpIds_eq (he : g.Exact pd) (hb : b < g.exit) (hd : Immediate g.Edge g.exit d b) :
    g.tmpIds pd b = {d} := by
  rw [tmpIds, if_neg (Nat.ne_of_lt hb)]
  exact (he.settled (Nat.lt_trans hb g.exit_lt)).prune_eq hd

theorem Exact.tmpIds_exit (he : g.Exact pd) : g.tmpIds pd g.exit = ∅ := by
  rw [tmpIds, if_pos rfl, Finset.eq_empty_iff_forall_notMem]
  intro c hc
  obtain ⟨hne, hc⟩ := Finset.mem_erase.1 hc
  exact hne (postdominates_exit_iff.1 ((he.mem_iff _ g.exit_lt c).1 hc))

theorem Exact.card_tmpIds_le (he : g.Exact pd) (hb : b < g.size) : (g.tmpIds pd b).card ≤ 1 := by
  by_cases hne : b = g.exit
  · rw [hne, he.tmpIds_exit]
    exact Nat.zero_le _
  · obtain ⟨d, hd⟩ := he.exists_immediate (lt_exit hb hne)
    rw [he.tmpIds_eq (lt_exit hb hne) hd]
    exact Nat.le_refl _

theorem Exact.length_filter (he : g.Exact pd) :
    ((List.range g.size).filter fun b => g.tmpIds pd b ≠ ∅).length = g.size - 1 := by
  have hsize : g.size = g.exit + 1 := by
    have := g.two_le
    unfold exit
    omega
  have hall : ∀ b ∈ List.range g.exit, decide (g.tmpIds pd b ≠ ∅) = true := by
    intro b hb
    obtain ⟨d, hd⟩ := he.exists_immediate (List.mem_range.1 hb)
    rw [he.tmpIds_eq (List.mem_range.1 hb) hd]
    exact decide_eq_true (Finset.singleton_ne_empty d)
  rw [hsize, List.range_succ, List.filter_append, List.filter_eq_self.2 hall]
  simp [he.tmpIds_exit]

theorem findIpostdominators_spec (he : g.Exact pd) :
    ∃ ip, g.findIpostdominators pd = some ip ∧
      ∀ b < g.exit, ∃ d, ip b = some d ∧ Immediate g.Edge g.exit d b := by
  refine ⟨fun b => g.first? (g.tmpIds pd b), ?_, fun b hb => ?_⟩
  · rw [findIpostdominators, if_pos fun b hb => he.card_tmpIds_le hb, if_pos he.length_filter]
  · have hsize := Nat.lt_trans hb g.exit_lt
    obtain ⟨d, hd⟩ := he.exists_immediate hb
    refine ⟨d, ?_, hd⟩
    show g.first? (g.tmpIds pd b) = some d
    rw [he.tmpIds_eq hb hd]
    exact first?_singleton (postdom_lt (he.reach b hsize) hd.postdominates)

/-! ## Reconvergence pairs -/

theorem reconvergencePairs_spec {ip : ℕ → Option ℕ}
    (hip : ∀ b < g.exit, ∃ d, ip b = some d ∧ Immediate g.Edge g.exit d b) (insts : g.Insts)
    (hlt : ∀ b d, b < g.exit → Immediate g.Edge g.exit d b → d < g.size) :
    ∃ pairs, g.reconvergencePairs insts ip = some pairs ∧
      List.Forall₂ (fun b p => p.1 = (insts.block b).endPC ∧ g.Reconverges insts b p.2)
        ((List.range g.exit).filter fun b => (insts.block b).isBra) pairs := by
  have hmem : ∀ b ∈ (List.range g.exit).filter fun b => (insts.block b).isBra, b < g.exit :=
    fun b hb => List.mem_range.1 (List.mem_filter.1 hb).1
  unfold reconvergencePairs
  generalize (List.range g.exit).filter (fun b => (insts.block b).isBra) = l at hmem ⊢
  induction l with
  | nil => exact ⟨[], rfl, .nil⟩
  | cons b l ih =>
    obtain ⟨pairs, hsome, hall⟩ := ih fun c hc => hmem c (List.mem_cons_of_mem b hc)
    have hb := hmem b List.mem_cons_self
    obtain ⟨d, hipb, hd⟩ := hip b hb
    rw [List.mapM_cons, hipb, hsome]
    refine ⟨_, rfl, List.Forall₂.cons ⟨rfl, d, hd, ?_⟩ hall⟩
    dsimp only
    cases hbegin : (insts.block d).beginPC with
    | none => exact Or.inl ⟨(insts.begins d (hlt b d hb hd)).1 hbegin, rfl⟩
    | some pc => exact Or.inr ⟨pc, rfl, rfl⟩

end FlowGraph

open FlowGraph

/-- When every block reaches the exit, the postdominators are found after finitely many rounds, every
block but the exit gets its immediate postdominator, and every branch reconverges there. -/
theorem reconvergence_exact (g : FlowGraph) (hreach : ∀ b < g.size, Reaches g.Edge g.exit b) :
    ∃ fuel₀, ∀ fuel ≥ fuel₀, ∃ pd, g.findPostdominators fuel = some pd ∧
      (∀ b < g.size, ∀ c, c ∈ pd b ↔ g.Postdom c b) ∧
      ∃ ip, g.findIpostdominators pd = some ip ∧
        (∀ b < g.exit, ∃ d, ip b = some d ∧ Immediate g.Edge g.exit d b ∧
          ∀ d', Immediate g.Edge g.exit d' b → d' = d) ∧
        ∀ insts : g.Insts, ∃ pairs, g.reconvergencePairs insts ip = some pairs ∧
          List.Forall₂ (fun b p => p.1 = (insts.block b).endPC ∧ g.Reconverges insts b p.2)
            ((List.range g.exit).filter fun b => (insts.block b).isBra) pairs := by
  obtain ⟨fuel₀, hfuel⟩ := findPostdominators_spec hreach
  refine ⟨fuel₀, fun fuel hge => ?_⟩
  obtain ⟨pd, hpd, he⟩ := hfuel fuel hge
  obtain ⟨ip, hip, hspec⟩ := findIpostdominators_spec he
  refine ⟨pd, hpd, he.mem_iff, ip, hip, fun b hb => ?_, fun insts => ?_⟩
  · obtain ⟨d, hd, himm⟩ := hspec b hb
    exact ⟨d, hd, himm, fun d' hd' => he.unique (Nat.lt_trans hb g.exit_lt) hd' himm⟩
  · apply reconvergencePairs_spec hspec insts
    intro b d hb hd
    exact postdom_lt (hreach b (Nat.lt_trans hb g.exit_lt)) hd.postdominates

/-- A branch around one block: 0 goes to 1 and 2, 1 to 2, 2 to the exit. -/
def hammock : FlowGraph where
  size := 4
  succ b := if b = 0 then [1, 2] else if b = 3 then [] else [b + 1]
  two_le := by decide
  succ_lt := by decide

theorem hammock_reaches : ∀ b < hammock.size, Reaches hammock.Edge hammock.exit b := by
  have h3 : PathTo hammock.Edge hammock.exit 3 [3] := .exit
  have h2 : PathTo hammock.Edge hammock.exit 2 [2, 3] := .step (s := 3) ⟨by decide, by decide⟩ h3
  have h1 : PathTo hammock.Edge hammock.exit 1 [1, 2, 3] := .step (s := 2) ⟨by decide, by decide⟩ h2
  have h0 : PathTo hammock.Edge hammock.exit 0 [0, 2, 3] := .step (s := 2) ⟨by decide, by decide⟩ h2
  intro b hb
  match b, hb with
  | 0, _ => exact ⟨_, h0⟩
  | 1, _ => exact ⟨_, h1⟩
  | 2, _ => exact ⟨_, h2⟩
  | 3, _ => exact ⟨_, h3⟩

theorem reconvergence_exact_hammock :
    ∃ fuel₀, ∀ fuel ≥ fuel₀, ∃ pd, hammock.findPostdominators fuel = some pd ∧
      ∃ ip, hammock.findIpostdominators pd = some ip ∧
        ∀ b < hammock.exit, ∃ d, ip b = some d ∧ Immediate hammock.Edge hammock.exit d b := by
  obtain ⟨fuel₀, h⟩ := reconvergence_exact hammock hammock_reaches
  refine ⟨fuel₀, fun fuel hge => ?_⟩
  obtain ⟨pd, hpd, -, ip, hip, hspec, -⟩ := h fuel hge
  refine ⟨pd, hpd, ip, hip, fun b hb => ?_⟩
  obtain ⟨d, hd, himm, -⟩ := hspec b hb
  exact ⟨d, hd, himm⟩

end Ptx
end CompressionWork
