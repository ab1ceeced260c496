/-
# The dataflow equations for any root

The loops over the blocks that `find_dominators` and `find_postdominators` share, and the loop that
prunes `Tmp_ids`, for the paths to a root that need not be the exit.

* `Toward` — what every visit keeps; `foldl_toward` is one round;
* `Toward.sound` — sets that meet the equations hold only blocks on all paths to the root;
* `Settled.prune_eq` — pruning leaves the immediate one.
-/
import CompressionWork.Ptx.FlowGraph
import Mathlib.Data.Finset.Range
import Mathlib.Data.List.Range
import Mathlib.Algebra.BigOperators.Group.Finset.Basic
import Mathlib.Algebra.Order.BigOperators.Group.Finset

namespace CompressionWork
namespace Ptx

open CompressionWork.Graph

namespace FlowGraph

variable {g : FlowGraph} {root : ℕ} {pd pd' : Sets} {b c d h : ℕ}

theorem root_path_lt (hroot : root < g.size) {p : List ℕ} (hp : PathTo g.Edge root b p) :
    ∀ v ∈ p, v < g.size := by
  induction hp with
  | exit =>
    intro v hv
    rw [List.mem_singleton.1 hv]
    exact hroot
  | step hs _ ih =>
    intro v hv
    rcases List.mem_cons.1 hv with rfl | hv
    · exact hs.1
    · exact ih v hv

theorem mem_transfer : c ∈ g.transfer pd h ↔ c = h ∨ (c < g.size ∧ ∀ s ∈ g.succ h, c ∈ pd s) := by
  have hfold : ∀ (l : List ℕ) (T : Finset ℕ),
      c ∈ l.foldl (fun T s => T ∩ pd s) T ↔ c ∈ T ∧ ∀ s ∈ l, c ∈ pd s := by
    intro l
    induction l with
    | nil => simp
    | cons s l ih =>
      intro T
      rw [List.foldl_cons, ih]
      simp [and_assoc]
  rw [transfer, Finset.mem_insert, hfold, Finset.mem_range]

theorem transfer_mono (hle : ∀ b, pd' b ⊆ pd b) (h : ℕ) : g.transfer pd' h ⊆ g.transfer pd h := by
  intro c hc
  rw [mem_transfer] at hc ⊢
  exact hc.imp_right fun ⟨hlt, hall⟩ => ⟨hlt, fun s hs => hle s (hall s hs)⟩

/-! ## Rounds -/

/-- The number of elements of the sets. -/
def weight (g : FlowGraph) (pd : Sets) : ℕ := ∑ b ∈ Finset.range g.size, (pd b).card

theorem weight_lt (hle : ∀ b, pd' b ⊆ pd b) (hh : h < g.size) (hlt : pd' h ⊂ pd h) :
    g.weight pd' < g.weight pd :=
  Finset.sum_lt_sum (fun b _ => Finset.card_le_card (hle b))
    ⟨h, Finset.mem_range.2 hh, Finset.card_lt_card hlt⟩

/-- What every visit keeps: the sets hold the blocks on all paths to the root, and a visit can only make
them smaller. -/
structure Toward (g : FlowGraph) (root : ℕ) (pd : Sets) : Prop where
  root_eq : pd root = {root}
  above : ∀ b < g.size, ∀ c < g.size, Postdominates g.Edge root c b → c ∈ pd b
  shrinks : ∀ h < g.size, h ≠ root → g.transfer pd h ⊆ pd h

theorem toward_full (hr : pd root = {root})
    (hfull : ∀ b < g.size, b ≠ root → pd b = Finset.range g.size) : g.Toward root pd := by
  refine ⟨hr, fun b hb c hc hpost => ?_, fun h hh hne c hc => ?_⟩
  · by_cases hbr : b = root
    · subst hbr
      rw [hr]
      exact Finset.mem_singleton.2 (postdominates_exit_iff.1 hpost)
    · rw [hfull b hb hbr]
      exact Finset.mem_range.2 hc
  · rw [hfull h hh hne, Finset.mem_range]
    rcases mem_transfer.1 hc with rfl | ⟨hlt, -⟩
    · exact hh
    · exact hlt

/-- One visit changes nothing, or makes a set smaller. -/
theorem visit_toward {s : Sets × Bool} (ha : g.Toward root s.1) (hh : h < g.size) (hne : h ≠ root) :
    g.Toward root (g.visit s h).1 ∧ (∀ b, (g.visit s h).1 b ⊆ s.1 b) ∧
      ((g.visit s h = s ∧ g.transfer s.1 h = s.1 h) ∨
        ((g.visit s h).2 = true ∧ g.weight (g.visit s h).1 < g.weight s.1)) := by
  unfold visit
  by_cases heq : g.transfer s.1 h = s.1 h
  · rw [if_pos heq]
    exact ⟨ha, fun _ => Finset.Subset.refl _, Or.inl ⟨rfl, heq⟩⟩
  rw [if_neg heq]
  have hle : ∀ b, (if b = h then g.transfer s.1 h else s.1 b) ⊆ s.1 b := by
    intro b
    split
    case isTrue hb => exact hb ▸ ha.shrinks h hh hne
    case isFalse => exact Finset.Subset.refl _
  refine ⟨⟨?_, fun b hb c hc hpost => ?_, fun k hk hkr => ?_⟩, hle, Or.inr ⟨rfl, weight_lt hle hh ?_⟩⟩
  · exact (if_neg hne.symm).trans ha.root_eq
  · show c ∈ if b = h then g.transfer s.1 h else s.1 b
    split
    case isTrue hbh =>
      subst hbh
      rw [mem_transfer]
      rcases (postdominates_iff hne).1 hpost with hcb | hall
      · exact Or.inl hcb
      · exact Or.inr ⟨hc, fun s hs => ha.above s (g.succ_lt b hb s hs) c hc (hall s ⟨hb, hs⟩)⟩
    case isFalse => exact ha.above b hb c hc hpost
  · show g.transfer _ k ⊆ if k = h then g.transfer s.1 h else s.1 k
    have hmono := transfer_mono (g := g) hle k
    split
    case isTrue hkh => exact hkh ▸ hmono
    case isFalse => exact hmono.trans (ha.shrinks k hk hkr)
  · show (if h = h then g.transfer s.1 h else s.1 h) ⊂ s.1 h
    rw [if_pos rfl]
    exact lt_of_le_of_ne (ha.shrinks h hh hne) heq

/-- One round changes nothing and every block meets its equation, or the sets get smaller. -/
theorem foldl_toward {l : List ℕ} (hl : ∀ h ∈ l, h < g.size ∧ h ≠ root) {s : Sets × Bool}
    (ha : g.Toward root s.1) :
    g.Toward root (l.foldl g.visit s).1 ∧ (∀ b, (l.foldl g.visit s).1 b ⊆ s.1 b) ∧
      ((l.foldl g.visit s = s ∧ ∀ h ∈ l, g.transfer s.1 h = s.1 h) ∨
        ((l.foldl g.visit s).2 = true ∧ g.weight (l.foldl g.visit s).1 < g.weight s.1)) := by
  induction l generalizing s with
  | nil => exact ⟨ha, fun _ => Finset.Subset.refl _, Or.inl ⟨rfl, fun _ hm => absurd hm List.not_mem_nil⟩⟩
  | cons h l ih =>
    obtain ⟨hh, hne⟩ := hl h List.mem_cons_self
    obtain ⟨ha', hle, hv⟩ := visit_toward ha hh hne
    obtain ⟨ha'', hle', hf⟩ := ih (fun k hk => hl k (List.mem_cons_of_mem h hk)) ha'
    rw [List.foldl_cons]
    refine ⟨ha'', fun b => (hle' b).trans (hle b), ?_⟩
    rcases hv with ⟨hv, heq⟩ | ⟨hflag, hlt⟩
    · rw [hv] at hf ⊢
      exact hf.imp_left fun ⟨hs, hall⟩ => ⟨hs, List.forall_mem_cons.2 ⟨heq, hall⟩⟩
    · right
      rcases hf with ⟨hs, -⟩ | ⟨hflag', hlt'⟩
      · rw [hs]
        exact ⟨hflag, hlt⟩
      · exact ⟨hflag', Nat.lt_trans hlt' hlt⟩

/-- Sets that meet the equations hold only blocks on all paths to the root. -/
theorem Toward.sound (ha : g.Toward root pd) (hfix : ∀ h < g.size, h ≠ root → g.transfer pd h = pd h)
    (hb : b < g.size) (hc : c ∈ pd b) : Postdominates g.Edge root c b := by
  apply postdominates_of_closed (S := fun c b => b < g.size ∧ c ∈ pd b) _ _ ⟨hb, hc⟩
  · rintro c ⟨-, hc⟩
    rw [ha.root_eq] at hc
    exact Finset.mem_singleton.1 hc
  · rintro b c hne ⟨hb, hc⟩
    rw [← hfix b hb hne, mem_transfer] at hc
    exact hc.imp_right fun ⟨_, hall⟩ s hs => ⟨g.succ_lt b hb s hs.2, hall s hs.2⟩

/-! ## Pruning -/

/-- The body of the loop over `s`. -/
def pruneStep (pd : Sets) (tmp : Finset ℕ) (s : ℕ) : Finset ℕ :=
  if s ∈ tmp then tmp.filter fun t => ¬ (s ≠ t ∧ t ∈ pd s) else tmp

theorem pruneStep_subset (pd : Sets) (tmp : Finset ℕ) (s : ℕ) : pruneStep pd tmp s ⊆ tmp := by
  unfold pruneStep
  split
  · exact Finset.filter_subset _ _
  · exact Finset.Subset.refl _

theorem first?_singleton (hd : d < g.size) : g.first? {d} = some d := by
  rw [first?, List.find?_range_eq_some]
  refine ⟨decide_eq_true (Finset.mem_singleton_self d), List.mem_range.2 hd, fun j hj => ?_⟩
  simp [Nat.ne_of_lt hj]

/-- The sets of `b` and of the blocks on all its paths to the root are exact. -/
structure Settled (g : FlowGraph) (root : ℕ) (pd : Sets) (b : ℕ) : Prop where
  root_lt : root < g.size
  reach : Reaches g.Edge root b
  mem_iff : ∀ a, Postdominates g.Edge root a b → ∀ c, c ∈ pd a ↔ Postdominates g.Edge root c a

namespace Settled

theorem lt (hs : g.Settled root pd b) (hc : Postdominates g.Edge root c b) : c < g.size := by
  obtain ⟨p, hp⟩ := hs.reach
  exact root_path_lt hs.root_lt hp c (hc p hp)

theorem self (hs : g.Settled root pd b) : c ∈ pd b ↔ Postdominates g.Edge root c b :=
  hs.mem_iff b (.refl _ _ _) c

theorem reach_of (hs : g.Settled root pd b) (hc : Postdominates g.Edge root c b) :
    Reaches g.Edge root c := by
  obtain ⟨p, hp⟩ := hs.reach
  obtain ⟨q, hq, -⟩ := hp.suffix (hc p hp)
  exact ⟨q, hq⟩

theorem exists_immediate (hs : g.Settled root pd b) (hb : b ≠ root) :
    ∃ d, Immediate g.Edge root d b := by
  apply Graph.exists_immediate hs.reach hb (S := (pd b).erase b)
  intro c
  rw [Finset.mem_erase, hs.self]

theorem unique (hs : g.Settled root pd b) (h : Immediate g.Edge root c b)
    (h' : Immediate g.Edge root d b) : c = d :=
  Immediate.unique (fun _ ha => hs.reach_of ha) h h'

/-- The immediate one is never erased: nothing else in the set has it on all its paths. -/
theorem mem_pruneStep (hs : g.Settled root pd b) (hd : Immediate g.Edge root d b) {tmp : Finset ℕ}
    (htmp : tmp ⊆ (pd b).erase b) (hmem : d ∈ tmp) (s : ℕ) : d ∈ pruneStep pd tmp s := by
  unfold pruneStep
  split
  case isTrue hmems =>
    refine Finset.mem_filter.2 ⟨hmem, fun ⟨hne, hds⟩ => ?_⟩
    obtain ⟨hsb, hspd⟩ := Finset.mem_erase.1 (htmp hmems)
    have hsdom := hs.self.1 hspd
    have hsd := hd.above s hsb hsdom
    exact hne (hsd.antisymm (hs.reach_of hd.postdominates) ((hs.mem_iff s hsdom d).1 hds))
  case isFalse => exact hmem

/-- When the loop comes to the immediate one, it erases all the others. -/
theorem pruneStep_self (hs : g.Settled root pd b) (hd : Immediate g.Edge root d b) {tmp : Finset ℕ}
    (htmp : tmp ⊆ (pd b).erase b) (hmem : d ∈ tmp) : pruneStep pd tmp d = {d} := by
  rw [pruneStep, if_pos hmem]
  ext t
  rw [Finset.mem_filter, Finset.mem_singleton]
  constructor
  · rintro ⟨ht, hkeep⟩
    by_contra hne
    obtain ⟨htb, htpd⟩ := Finset.mem_erase.1 (htmp ht)
    have habove := hd.above t htb (hs.self.1 htpd)
    exact hkeep ⟨fun h => hne h.symm, (hs.mem_iff d hd.postdominates t).2 habove⟩
  · rintro rfl
    exact ⟨hmem, fun h => h.1 rfl⟩

theorem foldl_pruneStep (hs : g.Settled root pd b) (hd : Immediate g.Edge root d b) {l : List ℕ}
    {tmp : Finset ℕ} (htmp : tmp ⊆ (pd b).erase b) (hmem : d ∈ tmp) (hl : d ∈ l ∨ tmp = {d}) :
    l.foldl (pruneStep pd) tmp = {d} := by
  induction l generalizing tmp with
  | nil => exact hl.resolve_left List.not_mem_nil
  | cons s l ih =>
    rw [List.foldl_cons]
    apply ih ((pruneStep_subset pd tmp s).trans htmp) (hs.mem_pruneStep hd htmp hmem s)
    rcases hl with hl | hone
    · rcases List.mem_cons.1 hl with rfl | hl
      · exact Or.inr (hs.pruneStep_self hd htmp hmem)
      · exact Or.inl hl
    · right
      apply Finset.Subset.antisymm
      · exact hone ▸ pruneStep_subset pd tmp s
      · exact Finset.singleton_subset_iff.2 (hs.mem_pruneStep hd htmp hmem s)

theorem prune_eq (hs : g.Settled root pd b) (hd : Immediate g.Edge root d b) :
    g.prune pd ((pd b).erase b) = {d} :=
  hs.foldl_pruneStep hd (Finset.Subset.refl _)
    (Finset.mem_erase.2 ⟨hd.ne, hs.self.2 hd.postdominates⟩)
    (Or.inl (List.mem_range.2 (hs.lt hd.postdominates)))

end Settled

end FlowGraph

end Ptx
end CompressionWork
