/-
# The dataflow equations

`Approx` holds of the sets between the visits. A round that changes something makes the sets smaller, so
the rounds end, at a solution of the equations: the postdominators.
-/
import CompressionWork.Ptx.Meet

namespace CompressionWork
namespace Ptx

open CompressionWork.Graph

namespace FlowGraph

variable {g : FlowGraph} {pd pd' : Sets} {b c d h : ℕ}

/-! ## The equations -/

theorem exit_lt (g : FlowGraph) : g.exit < g.size := by
  have := g.two_le
  unfold exit
  omega

theorem lt_exit (hb : b < g.size) (hne : b ≠ g.exit) : b < g.exit := by
  unfold exit at *
  omega

theorem path_lt {p : List ℕ} (hp : PathTo g.Edge g.exit b p) : ∀ v ∈ p, v < g.size :=
  root_path_lt g.exit_lt hp

/-! ## Postdominators -/

/-- What every round keeps: the sets hold the postdominators, and a visit can only make them smaller. -/
structure Approx (g : FlowGraph) (pd : Sets) : Prop where
  reach : ∀ b < g.size, Reaches g.Edge g.exit b
  exit : pd g.exit = {g.exit}
  above : ∀ b < g.size, ∀ c, g.Postdom c b → c ∈ pd b
  shrinks : ∀ h < g.exit, g.transfer pd h ⊆ pd h

theorem postdom_lt (hreach : Reaches g.Edge g.exit b) (h : g.Postdom c b) : c < g.size := by
  obtain ⟨p, hp⟩ := hreach
  exact path_lt hp c (h p hp)

theorem Approx.toward (ha : g.Approx pd) : g.Toward g.exit pd where
  root_eq := ha.exit
  above b hb c _ := ha.above b hb c
  shrinks h hh hne := ha.shrinks h (lt_exit hh hne)

theorem approx_of_toward (hreach : ∀ b < g.size, Reaches g.Edge g.exit b) (ht : g.Toward g.exit pd) :
    g.Approx pd where
  reach := hreach
  exit := ht.root_eq
  above b hb c hc := ht.above b hb c (postdom_lt (hreach b hb) hc) hc
  shrinks h hh := ht.shrinks h (Nat.lt_trans hh g.exit_lt) (Nat.ne_of_lt hh)

theorem approx_initial (hreach : ∀ b < g.size, Reaches g.Edge g.exit b) : g.Approx g.initial :=
  approx_of_toward hreach (toward_full (if_pos rfl) fun _ _ hne => if_neg hne)

/-- The rounds end, as every round but the last one makes the sets smaller. -/
theorem rounds_spec {fuel : ℕ} (ha : g.Approx pd) (hfuel : g.weight pd < fuel) :
    ∃ pd', g.rounds fuel pd = some pd' ∧ g.Approx pd' ∧ ∀ h < g.exit, g.transfer pd' h = pd' h := by
  induction fuel generalizing pd with
  | zero => exact absurd hfuel (Nat.not_lt_zero _)
  | succ fuel ih =>
    have hl : ∀ h ∈ (List.range g.exit).reverse, h < g.size ∧ h ≠ g.exit := by
      intro h hm
      have hlt := List.mem_range.1 (List.mem_reverse.1 hm)
      exact ⟨Nat.lt_trans hlt g.exit_lt, Nat.ne_of_lt hlt⟩
    obtain ⟨ht, -, hr⟩ := foldl_toward (s := (pd, false)) hl ha.toward
    rw [rounds]
    rcases hr with ⟨hs, hall⟩ | ⟨hflag, hlt⟩
    · have hround : g.round pd = (pd, false) := hs
      rw [hround, if_neg Bool.false_ne_true]
      exact ⟨pd, rfl, ha, fun h hh => hall h (List.mem_reverse.2 (List.mem_range.2 hh))⟩
    · rw [if_pos (show (g.round pd).2 = true from hflag)]
      apply ih (approx_of_toward ha.reach ht)
      exact Nat.lt_of_lt_of_le hlt (Nat.le_of_lt_succ hfuel)

/-- Sets that meet the equations hold just the postdominators. -/
theorem Approx.exact (ha : g.Approx pd) (hfix : ∀ h < g.exit, g.transfer pd h = pd h)
    (hb : b < g.size) : c ∈ pd b ↔ g.Postdom c b := by
  refine ⟨fun hc => ?_, ha.above b hb c⟩
  exact ha.toward.sound (fun h hh hne => hfix h (lt_exit hh hne)) hb hc

end FlowGraph

end Ptx
end CompressionWork
