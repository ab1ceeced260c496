/-
# Dominators

`find_dominators` iterates over the predecessors what `find_postdominators` iterates over the successors,
and `find_idominators` prunes the sets to the immediate dominators. Both run again after
`connect_break_targets` redirected an edge, on the sets of the run before.

* `findDominators`, `findIdominators`, `runDominators` — the translation;
* `Reached` — the states between the runs;
* `dominatorsExact_iff` — a run is exact and does not abort iff no edge goes to the entry.
-/
import CompressionWork.Ptx.Meet

namespace CompressionWork
namespace Ptx

open CompressionWork.Graph

/-- `dominator_ids` and `immediatedominator_id` of the blocks; `none` stands for -1. -/
structure DomState where
  dominatorIds : FlowGraph.Sets
  immediateDominatorId : ℕ → Option ℕ

namespace FlowGraph

variable (g : FlowGraph)

/-- `predecessor_ids`, which go along with the `successor_ids`. -/
def predecessorIds (b : ℕ) : List ℕ := (List.range g.size).filter fun p => b ∈ g.succ p

/-- The graph with its edges turned round. -/
def reversed : FlowGraph where
  size := g.size
  succ := g.predecessorIds
  two_le := g.two_le
  succ_lt _ _ _ hs := List.mem_range.1 (List.mem_filter.1 hs).1

/-- The sets before the first round: block ids are inserted into the sets of the last run. -/
def initialDominators (old : Sets) : Sets := fun b =>
  if b = 0 then insert 0 (old 0) else old b ∪ Finset.range g.size

/-- One round of the loop: all blocks but the entry, the first one first. -/
def dominatorRound (D : Sets) : Sets × Bool :=
  (List.range' 1 (g.size - 1)).foldl g.reversed.visit (D, false)

/-- `find_dominators`, the outer loop: rounds until one changes nothing. -/
def dominatorRounds : ℕ → Sets → Option Sets
  | 0, _ => none
  | fuel + 1, D =>
      if (g.dominatorRound D).2 = true then dominatorRounds fuel (g.dominatorRound D).1
      else some (g.dominatorRound D).1

/-- A block without predecessors has no dominators, except for the entry. -/
def clean (D : Sets) : Sets := fun b => if b ≠ 0 ∧ g.predecessorIds b = [] then ∅ else D b

/-- `find_dominators` -/
def findDominators (fuel : ℕ) (old : Sets) : Option Sets :=
  (g.dominatorRounds fuel (g.initialDominators old)).map g.clean

/-- `Tmp_ids` of `find_idominators`, whose loop visits every block. -/
def idomTmp (D : Sets) (b : ℕ) : Finset ℕ := g.prune D ((D b).erase b)

/-- `find_idominators`; `none` stands for the failed assertion on `num_idoms` and `num_nopred`. -/
def findIdominators (D : Sets) (idom : ℕ → Option ℕ) : Option (ℕ → Option ℕ) :=
  let numIdoms := ((List.range g.size).filter fun b => g.idomTmp D b ≠ ∅).length
  let numNopred := ((List.range g.size).filter fun b => g.idomTmp D b = ∅ ∧ g.predecessorIds b = []).length
  if numIdoms = g.size - numNopred then
    some fun b => if g.idomTmp D b ≠ ∅ then g.first? (g.idomTmp D b) else idom b
  else none

/-- `find_dominators` and `find_idominators` in the loop of `ptx_assemble`. -/
def runDominators (fuel : ℕ) (st : DomState) : Option DomState :=
  (g.findDominators fuel st.dominatorIds).bind fun D =>
    (g.findIdominators D st.immediateDominatorId).map fun idom => ⟨D, idom⟩

/-! ## What dominators are for -/

/-- Every path from the entry to `b`, read backwards, passes through `c`. -/
def Dominates (c b : ℕ) : Prop := Postdominates (flip g.Edge) 0 c b

/-- The last block that dominates another one, among those other than itself. -/
def ImmediatelyDominates (d b : ℕ) : Prop := Immediate (flip g.Edge) 0 d b

/-- Block `b` is reachable from the entry. -/
def FromEntry (b : ℕ) : Prop := Reaches (flip g.Edge) 0 b

end FlowGraph

open FlowGraph

/-- The states of the loop of `ptx_assemble`: `connect_break_targets` may have redirected any edges between
two runs. -/
inductive Reached (size : ℕ) : DomState → Prop
  | fresh : Reached size ⟨fun _ => ∅, fun _ => none⟩
  | run {st st' : DomState} (g : FlowGraph) (fuel : ℕ) : Reached size st → g.size = size →
      g.runDominators fuel st = some st' → Reached size st'

/-- The run ends with the dominators and the immediate dominators of all blocks. -/
def DominatorsExact (g : FlowGraph) (st : DomState) : Prop :=
  ∃ fuel₀, ∀ fuel ≥ fuel₀, ∃ st', g.runDominators fuel st = some st' ∧
    (∀ b < g.size, ∀ c, c ∈ st'.dominatorIds b ↔ g.Dominates c b) ∧
    (∀ b < g.size, b ≠ 0 → ∃ d, st'.immediateDominatorId b = some d ∧ g.ImmediatelyDominates d b ∧
      ∀ d', g.ImmediatelyDominates d' b → d' = d) ∧
    st'.immediateDominatorId 0 = none

namespace FlowGraph

variable {g : FlowGraph} {D D' old : Sets} {st st' : DomState} {b c d p fuel : ℕ}

/-! ## Predecessors -/

theorem mem_predecessorIds : p ∈ g.predecessorIds b ↔ g.Edge p b := by
  rw [predecessorIds, List.mem_filter, List.mem_range, decide_eq_true_eq]
  rfl

theorem edge_reversed : g.reversed.Edge = flip g.Edge := by
  funext b p
  apply propext
  show b < g.size ∧ p ∈ g.predecessorIds b ↔ g.Edge p b
  rw [mem_predecessorIds]
  exact ⟨And.right, fun h => ⟨g.succ_lt p h.1 b h.2, h⟩⟩

theorem entry_lt (g : FlowGraph) : 0 < g.size := Nat.lt_of_lt_of_le Nat.two_pos g.two_le

theorem FromEntry.lt (hb : g.FromEntry b) : b < g.size := by
  obtain ⟨p, hp⟩ := hb
  rw [← edge_reversed] at hp
  exact root_path_lt g.reversed.entry_lt hp b hp.head_mem

/-- A block that is reached from the entry has a predecessor. -/
theorem FromEntry.predecessorIds_ne (hb : g.FromEntry b) (hne : b ≠ 0) : g.predecessorIds b ≠ [] := by
  obtain ⟨p, hp⟩ := hb
  cases hp with
  | exit => exact absurd rfl hne
  | step hs _ => exact List.ne_nil_of_mem (mem_predecessorIds.2 hs)

/-! ## Rounds -/

/-- What the sets of the last run may be. -/
structure Stale (size : ℕ) (D : Sets) : Prop where
  entry : D 0 ⊆ {0}
  bound : ∀ b < size, D b ⊆ Finset.range size

theorem toward_initialDominators (hold : Stale g.size old) :
    g.reversed.Toward 0 (g.initialDominators old) := by
  apply toward_full
  · rw [initialDominators, if_pos rfl]
    exact Finset.Subset.antisymm (Finset.insert_subset (Finset.mem_singleton_self 0) hold.entry)
      (Finset.singleton_subset_iff.2 (Finset.mem_insert_self 0 _))
  · intro b hb hne
    rw [initialDominators, if_neg hne]
    exact Finset.union_eq_right.2 (hold.bound b hb)

/-- The rounds keep `Toward`, and stop where the equations are met, as every other round makes the sets
smaller. -/
theorem dominatorRounds_spec (ha : g.reversed.Toward 0 D) :
    (∀ D', g.dominatorRounds fuel D = some D' →
      g.reversed.Toward 0 D' ∧ (∀ b, D' b ⊆ D b) ∧
        ∀ h < g.size, h ≠ 0 → g.reversed.transfer D' h = D' h) ∧
      (g.reversed.weight D < fuel → ∃ D', g.dominatorRounds fuel D = some D') := by
  induction fuel generalizing D with
  | zero => exact ⟨fun _ h => absurd h nofun, fun h => absurd h (Nat.not_lt_zero _)⟩
  | succ fuel ih =>
    have hl : ∀ h ∈ List.range' 1 (g.size - 1), h < g.reversed.size ∧ h ≠ 0 := by
      intro h hm
      show h < g.size ∧ h ≠ 0
      rw [List.mem_range'_1] at hm
      omega
    obtain ⟨ha', hle, hr⟩ := foldl_toward (s := (D, false)) hl ha
    rw [dominatorRounds]
    rcases hr with ⟨hs, hall⟩ | ⟨hflag, hlt⟩
    · have hround : g.dominatorRound D = (D, false) := hs
      rw [hround, if_neg Bool.false_ne_true]
      refine ⟨fun D' h => ?_, fun _ => ⟨D, rfl⟩⟩
      obtain rfl := Option.some.inj h
      refine ⟨ha, fun _ => Finset.Subset.refl _, fun h hh hne => hall h ?_⟩
      rw [List.mem_range'_1]
      omega
    · rw [if_pos (show (g.dominatorRound D).2 = true from hflag)]
      obtain ⟨hkeep, hend⟩ := ih (D := (g.dominatorRound D).1) ha'
      refine ⟨fun D' hD' => ?_, fun h => hend (Nat.lt_of_lt_of_le hlt (Nat.le_of_lt_succ h))⟩
      obtain ⟨ht, hsub, hfix⟩ := hkeep D' hD'
      exact ⟨ht, fun b => (hsub b).trans (hle b), hfix⟩

/-- What `find_dominators` returns. -/
structure Found (g : FlowGraph) (D : Sets) : Prop where
  stale : Stale g.size D
  settled : ∀ b, g.FromEntry b → g.reversed.Settled 0 D b

theorem clean_of_fromEntry (hb : g.FromEntry b) : g.clean D b = D b := by
  rw [clean, if_neg]
  exact fun h => hb.predecessorIds_ne h.1 h.2

theorem initialDominators_bound (hold : Stale g.size old) (hb : b < g.size) :
    g.initialDominators old b ⊆ Finset.range g.size := by
  unfold initialDominators
  split
  case isTrue h0 =>
    subst h0
    exact Finset.insert_subset (Finset.mem_range.2 g.entry_lt) (hold.bound 0 g.entry_lt)
  case isFalse => exact Finset.union_subset (hold.bound b hb) (Finset.Subset.refl _)

theorem found_of_some (hold : Stale g.size old) (h : g.findDominators fuel old = some D) : g.Found D := by
  obtain ⟨D', hD', rfl⟩ := Option.map_eq_some_iff.1 h
  obtain ⟨ha, hsub, hfix⟩ := (dominatorRounds_spec (toward_initialDominators hold)).1 D' hD'
  refine ⟨⟨?_, fun b hb => ?_⟩, fun b hb => ⟨g.entry_lt, by rwa [edge_reversed], fun a hab c => ?_⟩⟩
  · rw [clean, if_neg (fun h => h.1 rfl), ha.root_eq]
  · unfold clean
    split
    · exact Finset.empty_subset _
    · exact (hsub b).trans (initialDominators_bound hold hb)
  · have hafrom : g.FromEntry a := by
      rw [edge_reversed] at hab
      obtain ⟨p, hp⟩ := hb
      obtain ⟨q, hq, -⟩ := hp.suffix (hab p hp)
      exact ⟨q, hq⟩
    rw [clean_of_fromEntry hafrom]
    refine ⟨ha.sound hfix hafrom.lt, fun hc => ?_⟩
    obtain ⟨p, hp⟩ := hafrom
    rw [← edge_reversed] at hp
    have hlt := root_path_lt g.reversed.entry_lt hp
    exact ha.above a (hlt a hp.head_mem) c (hlt c (hc p hp)) hc

theorem findDominators_total (hold : Stale g.size old) :
    ∃ fuel₀, ∀ fuel ≥ fuel₀, ∃ D, g.findDominators fuel old = some D := by
  refine ⟨g.reversed.weight (g.initialDominators old) + 1, fun fuel hfuel => ?_⟩
  obtain ⟨D', hD'⟩ := (dominatorRounds_spec (toward_initialDominators hold)).2 hfuel
  exact ⟨g.clean D', by rw [findDominators, hD', Option.map_some]⟩

/-! ## Immediate dominators -/

theorem idomTmp_entry (hstale : Stale g.size D) : g.idomTmp D 0 = ∅ := by
  have hempty : (D 0).erase 0 = ∅ := by
    rw [Finset.erase_eq_empty_iff]
    exact Finset.subset_singleton_iff.1 hstale.entry
  have hfold : ∀ l : List ℕ, l.foldl (pruneStep D) ∅ = ∅ := by
    intro l
    induction l with
    | nil => rfl
    | cons s l ih => exact ih
  rw [idomTmp, hempty]
  exact hfold _

theorem Found.exists_immediate (hf : g.Found D) (hb : g.FromEntry b) (hne : b ≠ 0) :
    ∃ d, g.ImmediatelyDominates d b ∧ g.idomTmp D b = {d} ∧ d < g.size := by
  have hs := hf.settled b hb
  obtain ⟨d, hd⟩ := hs.exists_immediate hne
  refine ⟨d, ?_, hs.prune_eq hd, hs.lt hd.postdominates⟩
  rwa [edge_reversed] at hd

theorem Found.unique (hf : g.Found D) (hb : g.FromEntry b) (h : g.ImmediatelyDominates c b)
    (h' : g.ImmediatelyDominates d b) : c = d := by
  unfold ImmediatelyDominates at h h'
  rw [← edge_reversed] at h h'
  exact (hf.settled b hb).unique h h'

theorem length_filter_ne_zero (n : ℕ) : ((List.range (n + 1)).filter fun b => b ≠ 0).length = n := by
  rw [List.range_succ_eq_map]
  simp [List.filter_map, Function.comp_def]

theorem length_filter_zero (n : ℕ) (q : Prop) [Decidable q] :
    ((List.range (n + 1)).filter fun b => b = 0 ∧ q).length = if q then 1 else 0 := by
  rw [List.range_succ_eq_map]
  split <;> simp [*]

/-- The count of `num_nopred` takes the entry for a block without predecessors. -/
theorem findIdominators_spec (hreach : ∀ b < g.size, g.FromEntry b) (hf : g.Found D)
    (idom : ℕ → Option ℕ) :
    g.findIdominators D idom =
      if g.predecessorIds 0 = [] then
        some fun b => if g.idomTmp D b ≠ ∅ then g.first? (g.idomTmp D b) else idom b
      else none := by
  have htmp : ∀ b < g.size, (g.idomTmp D b = ∅ ↔ b = 0) := by
    intro b hb
    constructor
    · intro hempty
      by_contra hne
      obtain ⟨d, -, hd, -⟩ := hf.exists_immediate (hreach b hb) hne
      exact Finset.singleton_ne_empty d (hd.symm.trans hempty)
    · rintro rfl
      exact idomTmp_entry hf.stale
  have hidoms : ((List.range g.size).filter fun b => g.idomTmp D b ≠ ∅) =
      (List.range g.size).filter fun b => b ≠ 0 := by
    apply List.filter_congr
    intro b hb
    exact decide_eq_decide.2 (not_congr (htmp b (List.mem_range.1 hb)))
  have hnopred : ((List.range g.size).filter fun b => g.idomTmp D b = ∅ ∧ g.predecessorIds b = []) =
      (List.range g.size).filter fun b => b = 0 ∧ g.predecessorIds 0 = [] := by
    apply List.filter_congr
    intro b hb
    refine decide_eq_decide.2 ?_
    rw [htmp b (List.mem_range.1 hb)]
    exact and_congr_right fun h => h ▸ Iff.rfl
  obtain ⟨n, hn⟩ : ∃ n, g.size = n + 1 := ⟨g.size - 1, by have := g.two_le; omega⟩
  have hpos := g.two_le
  unfold findIdominators
  dsimp only
  rw [hidoms, hnopred, hn, length_filter_ne_zero, length_filter_zero]
  split_ifs <;> first | rfl | omega

/-! ## Runs -/

theorem stale_of_reached {size : ℕ} (h : Reached size st) :
    Stale size st.dominatorIds ∧ st.immediateDominatorId 0 = none := by
  induction h with
  | fresh => exact ⟨⟨Finset.empty_subset _, fun _ _ => Finset.empty_subset _⟩, rfl⟩
  | run g fuel _ hsize hrun ih =>
    subst hsize
    obtain ⟨D, hD, hrun⟩ := Option.bind_eq_some_iff.1 hrun
    obtain ⟨idom, hidom, rfl⟩ := Option.map_eq_some_iff.1 hrun
    have hstale := (found_of_some ih.1 hD).stale
    refine ⟨hstale, ?_⟩
    unfold findIdominators at hidom
    dsimp only at hidom
    split at hidom
    case isTrue =>
      obtain rfl := Option.some.inj hidom
      dsimp only
      rw [if_neg (not_not_intro (idomTmp_entry hstale))]
      exact ih.2
    case isFalse => exact absurd hidom nofun

/-- With an edge to the entry, the assertion fails. -/
theorem runDominators_none (hreach : ∀ b < g.size, g.FromEntry b) (hst : Reached g.size st)
    (hedge : g.Edge p 0) : g.runDominators fuel st = none := by
  unfold runDominators
  cases hD : g.findDominators fuel st.dominatorIds with
  | none => rfl
  | some D =>
    have hne : g.predecessorIds 0 ≠ [] := List.ne_nil_of_mem (mem_predecessorIds.2 hedge)
    rw [Option.bind_some, findIdominators_spec hreach (found_of_some (stale_of_reached hst).1 hD), if_neg hne]
    rfl

theorem runDominators_some (hreach : ∀ b < g.size, g.FromEntry b) (hst : Reached g.size st)
    (hnone : g.predecessorIds 0 = []) : DominatorsExact g st := by
  obtain ⟨hstale, hentry⟩ := stale_of_reached hst
  obtain ⟨fuel₀, htotal⟩ := findDominators_total hstale
  refine ⟨fuel₀, fun fuel hfuel => ?_⟩
  obtain ⟨D, hD⟩ := htotal fuel hfuel
  have hf := found_of_some hstale hD
  have hidom := findIdominators_spec hreach hf st.immediateDominatorId
  rw [if_pos hnone] at hidom
  refine ⟨⟨D, _⟩, by rw [runDominators, hD, Option.bind_some, hidom, Option.map_some], fun b hb c => ?_,
    fun b hb hne => ?_, ?_⟩
  · rw [(hf.settled b (hreach b hb)).self, edge_reversed]
    rfl
  · obtain ⟨d, hd, htmp, hlt⟩ := hf.exists_immediate (hreach b hb) hne
    refine ⟨d, ?_, hd, fun d' hd' => hf.unique (hreach b hb) hd' hd⟩
    dsimp only
    rw [htmp, if_pos (Finset.singleton_ne_empty d), first?_singleton hlt]
  · dsimp only
    rw [if_neg (not_not_intro (idomTmp_entry hf.stale)), hentry]

end FlowGraph

/-- When every block is reachable from the entry, a run is exact and does not abort iff no edge goes to the
entry. -/
theorem dominatorsExact_iff (g : FlowGraph) (hreach : ∀ b < g.size, g.FromEntry b) (st : DomState)
    (hst : Reached g.size st) : DominatorsExact g st ↔ ∀ p, ¬g.Edge p 0 := by
  constructor
  · rintro ⟨fuel₀, h⟩ p hedge
    obtain ⟨st', hsome, -⟩ := h fuel₀ (Nat.le_refl _)
    rw [runDominators_none hreach hst hedge] at hsome
    exact absurd hsome nofun
  · intro hedge
    apply runDominators_some hreach hst
    apply List.eq_nil_iff_forall_not_mem.2
    exact fun p hp => hedge p (mem_predecessorIds.1 hp)

/-- A function that starts with a loop: 0 goes to itself and to 1. -/
def entryLoop : FlowGraph where
  size := 2
  succ b := if b = 0 then [0, 1] else []
  two_le := by decide
  succ_lt := by decide

theorem entryLoop_fromEntry : ∀ b < entryLoop.size, entryLoop.FromEntry b := by
  have h0 : PathTo (flip entryLoop.Edge) 0 0 [0] := .exit
  have h1 : PathTo (flip entryLoop.Edge) 0 1 [1, 0] := .step (s := 0) ⟨by decide, by decide⟩ h0
  intro b hb
  match b, hb with
  | 0, _ => exact ⟨_, h0⟩
  | 1, _ => exact ⟨_, h1⟩

theorem dominatorsExact_iff_entryLoop :
    DominatorsExact entryLoop ⟨fun _ => ∅, fun _ => none⟩ ↔ ∀ p, ¬entryLoop.Edge p 0 :=
  dominatorsExact_iff entryLoop entryLoop_fromEntry _ .fresh

theorem entryLoop_aborts :
    ¬∀ g : FlowGraph, (∀ b < g.size, g.FromEntry b) → ∀ st, Reached g.size st → DominatorsExact g st := by
  intro h
  obtain ⟨fuel₀, hrun⟩ := h entryLoop entryLoop_fromEntry _ .fresh
  obtain ⟨st', hsome, -⟩ := hrun fuel₀ (Nat.le_refl _)
  have hedge : entryLoop.Edge 0 0 := ⟨by decide, by decide⟩
  rw [runDominators_none entryLoop_fromEntry .fresh hedge] at hsome
  exact absurd hsome nofun

end Ptx
end CompressionWork
