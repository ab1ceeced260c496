/-
# Break targets

`find_break_target` goes up the immediate dominators of a `break` and searches every block backwards for a
`breakaddr`. Its loop ends at the entry, which has no immediate dominator, without a search there.

* `scan`, `findBreakTarget` — the two loops;
* `NearestOn` — the last `breakaddr` on a chain of dominators;
* `findBreakTarget_iff` — from a block that the entry reaches, it is found iff it is not in the entry block.
-/
import CompressionWork.Ptx.Dataflow
import CompressionWork.Ptx.Dominators
import Mathlib.Tactic.IntervalCases

namespace CompressionWork
namespace Ptx

open CompressionWork.Graph FlowGraph

/-- The instructions that the search tells apart; `dst` names the label of a `breakaddr`. -/
inductive Insn where
  | breakaddr (dst : String)
  | other
  deriving DecidableEq

/-- A function after `create_basic_blocks`: `m_instr_mem`, where `none` stands for `NULL`, and the
`m_instr_mem_index` of `ptx_begin` and `ptx_end`, which all blocks but the exit have. -/
structure Assembled where
  graph : FlowGraph
  instrMem : List (Option Insn)
  ptxBegin : ℕ → ℕ
  ptxEnd : ℕ → ℕ
  begin_le : ∀ b < graph.exit, ptxBegin b ≤ ptxEnd b
  end_lt : ∀ b < graph.exit, ptxEnd b < instrMem.length
  ordered : ∀ b, b + 1 < graph.exit → ptxEnd b < ptxBegin (b + 1)
  succ_exit : graph.succ graph.exit = []

/-- What a search ends with: a target, a block without one, or an index outside `m_instr_mem`. -/
inductive Scan where
  | found (dst : String)
  | exhausted
  | outside
  deriving DecidableEq

/-- What `find_break_target` ends with: a target, `assert(0)`, or an index outside `m_instr_mem`. -/
inductive Outcome where
  | target (dst : String)
  | assertFails
  | outside
  deriving DecidableEq

namespace Assembled

variable (P : Assembled)

/-- The search from `insn_addr` down to `ptx_begin`. Below index 0 the unsigned `insn_addr` wraps around,
so that a block at index 0 is searched on outside the memory. -/
def scan (first : ℕ) : ℕ → Scan
  | 0 =>
      if first ≤ 0 then
        match P.instrMem[0]? with
        | some (some (Insn.breakaddr dst)) => .found dst
        | _ => .outside
      else .exhausted
  | addr + 1 =>
      if first ≤ addr + 1 then
        match P.instrMem[addr + 1]? with
        | none => .outside
        | some (some (Insn.breakaddr dst)) => .found dst
        | some _ => scan first addr
      else .exhausted

/-- The loop over the immediate dominators, in at most `fuel` rounds. -/
def findBreakTarget (idom : ℕ → Option ℕ) : ℕ → ℕ → Option Outcome
  | 0, _ => none
  | fuel + 1, bb =>
      match idom bb with
      | none => some .assertFails
      | some d =>
          match P.scan (P.ptxBegin bb) (P.ptxEnd bb) with
          | .found dst => some (.target dst)
          | .outside => some .outside
          | .exhausted => findBreakTarget idom fuel d

/-! ## What a break target is -/

/-- The instruction at `i` is a `breakaddr` for `dst`. -/
def BreakaddrAt (i : ℕ) (dst : String) : Prop := P.instrMem[i]? = some (some (.breakaddr dst))

/-- There is no `breakaddr` at the indices from `lo` to `hi`. -/
def NoneIn (lo hi : ℕ) : Prop := ∀ i, lo ≤ i → i ≤ hi → ∀ dst, ¬P.BreakaddrAt i dst

/-- The last `breakaddr` at the indices from `lo` to `hi` is one for `dst`. -/
def LastIn (lo hi : ℕ) (dst : String) : Prop :=
  ∃ i, lo ≤ i ∧ i ≤ hi ∧ P.BreakaddrAt i dst ∧ P.NoneIn (i + 1) hi

/-- The dominator chain of a block that is reached from the entry: the block, its immediate dominator and
so on, up to the entry. -/
inductive Chain (g : FlowGraph) : ℕ → List ℕ → Prop
  | entry : Chain g 0 [0]
  | up {b d : ℕ} {l : List ℕ} : g.FromEntry b → g.ImmediatelyDominates d b → Chain g d l →
      Chain g b (b :: l)

/-- The last `breakaddr` of the first block on a chain that has one is in block `c` and is one for
`dst`. -/
inductive NearestOn (c : ℕ) (dst : String) : List ℕ → Prop
  | here {l : List ℕ} : P.LastIn (P.ptxBegin c) (P.ptxEnd c) dst → NearestOn c dst (c :: l)
  | there {b : ℕ} {l : List ℕ} : P.NoneIn (P.ptxBegin b) (P.ptxEnd b) → NearestOn c dst l →
      NearestOn c dst (b :: l)

variable {P} {b c d first addr fuel : ℕ} {dst : String} {l : List ℕ} {idom : ℕ → Option ℕ}

/-! ## The search in a block -/

theorem ptxBegin_pos (hb : b < P.graph.exit) (hne : b ≠ 0) : 0 < P.ptxBegin b := by
  obtain ⟨n, rfl⟩ := Nat.exists_eq_succ_of_ne_zero hne
  exact Nat.zero_lt_of_lt (P.ordered n hb)

/-- An instruction that is not a `breakaddr` is passed over. -/
theorem scan_skip (hle : first ≤ addr + 1) (haddr : addr + 1 < P.instrMem.length)
    (hnot : ∀ dst, ¬P.BreakaddrAt (addr + 1) dst) : P.scan first (addr + 1) = P.scan first addr := by
  unfold BreakaddrAt at hnot
  rw [List.getElem?_eq_getElem haddr] at hnot
  rw [scan, if_pos hle, List.getElem?_eq_getElem haddr]
  split
  · rename_i h
    exact absurd h nofun
  · rename_i dst h
    exact absurd h (hnot dst)
  · rfl

theorem NoneIn.of_succ (h : P.NoneIn first (addr + 1)) : P.NoneIn first addr :=
  fun i hi hi' => h i hi (Nat.le_succ_of_le hi')

theorem scan_exhausted (hfirst : 0 < first) (haddr : addr < P.instrMem.length)
    (hnone : P.NoneIn first addr) : P.scan first addr = .exhausted := by
  induction addr with
  | zero => rw [scan, if_neg (Nat.not_le_of_lt hfirst)]
  | succ addr ih =>
    by_cases hle : first ≤ addr + 1
    · rw [scan_skip hle haddr (hnone (addr + 1) hle (Nat.le_refl _))]
      exact ih (Nat.lt_of_succ_lt haddr) hnone.of_succ
    · rw [scan, if_neg hle]

theorem scan_found (haddr : addr < P.instrMem.length) (hlast : P.LastIn first addr dst) :
    P.scan first addr = .found dst := by
  obtain ⟨i, hi, hle, hat, hnone⟩ := hlast
  induction addr with
  | zero =>
    obtain rfl := Nat.le_zero.1 hle
    unfold BreakaddrAt at hat
    rw [scan, if_pos hi, hat]
  | succ addr ih =>
    by_cases heq : i = addr + 1
    · subst heq
      unfold BreakaddrAt at hat
      rw [scan, if_pos hi, hat]
    · have hlt : i ≤ addr := by omega
      rw [scan_skip (Nat.le_trans hi hle) haddr (hnone (addr + 1) (by omega) (Nat.le_refl _))]
      exact ih (Nat.lt_of_succ_lt haddr) hlt hnone.of_succ

/-! ## The chain -/

/-- The immediate dominators that the search goes up. -/
structure IdomsExact (g : FlowGraph) (idom : ℕ → Option ℕ) : Prop where
  entry : idom 0 = none
  immediate : ∀ b d, g.FromEntry b → g.ImmediatelyDominates d b → idom b = some d

theorem immediate_ne_zero {g : FlowGraph} (hd : g.ImmediatelyDominates d b) : b ≠ 0 := by
  rintro rfl
  exact hd.ne (postdominates_exit_iff.1 hd.postdominates)

/-- A run that did not abort has set the immediate dominators of the blocks that are reached from the
entry. -/
theorem idomsExact_of_run {g : FlowGraph} {st st' : DomState} (hst : Reached g.size st)
    (hrun : g.runDominators fuel st = some st') : IdomsExact g st'.immediateDominatorId := by
  refine ⟨(stale_of_reached (.run g fuel hst rfl hrun)).2, fun b d hb hd => ?_⟩
  obtain ⟨D, hD, hrun⟩ := Option.bind_eq_some_iff.1 hrun
  obtain ⟨idom, hidom, rfl⟩ := Option.map_eq_some_iff.1 hrun
  have hf := found_of_some (stale_of_reached hst).1 hD
  obtain ⟨d', hd', htmp, hlt⟩ := hf.exists_immediate hb (immediate_ne_zero hd)
  obtain rfl := hf.unique hb hd hd'
  unfold findIdominators at hidom
  dsimp only at hidom
  split at hidom
  case isTrue =>
    obtain rfl := Option.some.inj hidom
    dsimp only
    rw [htmp, if_pos (Finset.singleton_ne_empty d), first?_singleton hlt]
  case isFalse => exact absurd hidom nofun

/-- Only the last block of a path from the entry can be the exit, which has no successors. -/
theorem exit_not_mem {p : List ℕ} (hp : PathTo (flip P.graph.Edge) 0 b p) (hb : b ≠ P.graph.exit) :
    P.graph.exit ∉ p := by
  induction hp with
  | exit => exact fun h => hb (List.mem_singleton.1 h).symm
  | step hs hp ih =>
    rename_i b a p
    have hedge : b ∈ P.graph.succ a := hs.2
    have ha : a ≠ P.graph.exit := by
      rintro rfl
      rw [P.succ_exit] at hedge
      exact List.not_mem_nil hedge
    exact List.not_mem_cons_of_ne_of_not_mem hb.symm (ih ha)

theorem immediate_lt_exit (hb : P.graph.FromEntry b) (hne : b ≠ P.graph.exit)
    (hd : P.graph.ImmediatelyDominates d b) : d < P.graph.exit := by
  obtain ⟨p, hp⟩ := hb
  have hmem := hd.postdominates p hp
  obtain ⟨q, hq, -⟩ := hp.suffix hmem
  apply lt_exit (FromEntry.lt ⟨q, hq⟩)
  rintro rfl
  exact exit_not_mem hp hne hmem

/-- The search goes up the chain to the nearest `breakaddr`, or to the entry and fails. -/
theorem findBreakTarget_chain (hi : IdomsExact P.graph idom) (hchain : Chain P.graph b l)
    (hb : b < P.graph.exit) (hnear : P.NearestOn c dst l) :
    ∃ fuel₀, ∀ fuel ≥ fuel₀, P.findBreakTarget idom fuel b =
      some (if c = 0 then .assertFails else .target dst) := by
  induction hchain with
  | entry =>
    refine ⟨1, fun fuel hfuel => ?_⟩
    obtain ⟨n, rfl⟩ := Nat.exists_eq_add_of_le' hfuel
    have hc : c = 0 := by
      cases hnear with
      | here => rfl
      | there _ h => exact absurd h nofun
    rw [findBreakTarget, hi.entry, if_pos hc]
  | up hfrom hd hchain ih =>
    rename_i b d l
    have hne := immediate_ne_zero hd
    have hidom := hi.immediate b d hfrom hd
    cases hnear with
    | here hlast =>
      refine ⟨1, fun fuel hfuel => ?_⟩
      obtain ⟨n, rfl⟩ := Nat.exists_eq_add_of_le' hfuel
      rw [findBreakTarget, hidom, if_neg hne]
      dsimp only
      rw [scan_found (P.end_lt _ hb) hlast]
    | there hnone hnear =>
      obtain ⟨fuel₀, hrest⟩ := ih (immediate_lt_exit hfrom (Nat.ne_of_lt hb) hd) hnear
      refine ⟨fuel₀ + 1, fun fuel hfuel => ?_⟩
      obtain ⟨n, rfl⟩ := Nat.exists_eq_add_of_le' (Nat.le_of_add_left_le hfuel)
      rw [findBreakTarget, hidom]
      dsimp only
      rw [scan_exhausted (ptxBegin_pos hb hne) (P.end_lt b hb) hnone]
      exact hrest n (by omega)

end Assembled

open Assembled

/-- After a run of the dominators, the search finds the nearest `breakaddr` on the chain of a block iff it
is not in the entry block. A block has a chain when it is reached from the entry. -/
theorem findBreakTarget_iff (P : Assembled) {st st' : DomState} {fuel b c : ℕ} {l : List ℕ} {dst : String}
    (hst : Reached P.graph.size st) (hrun : P.graph.runDominators fuel st = some st')
    (hb : b < P.graph.exit) (hchain : Chain P.graph b l) (hnear : P.NearestOn c dst l) :
    (∃ fuel₀, ∀ fuel ≥ fuel₀,
      P.findBreakTarget st'.immediateDominatorId fuel b = some (.target dst)) ↔ c ≠ 0 := by
  obtain ⟨fuel₀, hfind⟩ := findBreakTarget_chain (idomsExact_of_run hst hrun) hchain hb hnear
  constructor
  · rintro ⟨fuel₁, htarget⟩ hc
    have h := (hfind (max fuel₀ fuel₁) (Nat.le_max_left _ _)).symm.trans
      (htarget (max fuel₀ fuel₁) (Nat.le_max_right _ _))
    rw [if_pos hc] at h
    exact absurd (Option.some.inj h) nofun
  · intro hc
    rw [if_neg hc] at hfind
    exact ⟨fuel₀, hfind⟩

/-- The entry sets the break address, and the block after it breaks. -/
def entryBreakaddr : Assembled where
  graph := { size := 3, succ := fun b => if b < 2 then [b + 1] else [], two_le := by decide,
             succ_lt := by decide }
  instrMem := [some (.breakaddr "Lexit"), some .other, none, some .other]
  ptxBegin b := 3 * b
  ptxEnd b := b + 2
  begin_le := by decide
  end_lt := by decide
  ordered b hb := by
    have : b + 1 < 2 := hb
    omega
  succ_exit := rfl

theorem entryBreakaddr_fromEntry : ∀ b < entryBreakaddr.graph.size, entryBreakaddr.graph.FromEntry b := by
  have h0 : PathTo (flip entryBreakaddr.graph.Edge) 0 0 [0] := .exit
  have h1 : PathTo (flip entryBreakaddr.graph.Edge) 0 1 [1, 0] :=
    .step (s := 0) ⟨by decide, by decide⟩ h0
  have h2 : PathTo (flip entryBreakaddr.graph.Edge) 0 2 [2, 1, 0] :=
    .step (s := 1) ⟨by decide, by decide⟩ h1
  intro b hb
  match b, hb with
  | 0, _ => exact ⟨_, h0⟩
  | 1, _ => exact ⟨_, h1⟩
  | 2, _ => exact ⟨_, h2⟩

theorem entryBreakaddr_chain : Chain entryBreakaddr.graph 1 [1, 0] := by
  have h1 : PathTo (flip entryBreakaddr.graph.Edge) 0 1 [1, 0] :=
    .step (s := 0) ⟨by decide, by decide⟩ .exit
  refine .up ⟨_, h1⟩ ⟨by decide, exit_postdominates _ _ _, fun c hne hc => ?_⟩ .entry
  have hmem := hc _ h1
  obtain rfl : c = 0 := by simpa [hne] using hmem
  exact .refl _ _ _

theorem entryBreakaddr_nearest : entryBreakaddr.NearestOn 0 "Lexit" [1, 0] := by
  refine .there (fun i hlo hhi dst => ?_) (.here ⟨0, Nat.zero_le _, Nat.zero_le _, rfl,
    fun i hlo hhi dst => ?_⟩)
  · obtain rfl : i = 3 := Nat.le_antisymm hhi hlo
    exact nofun
  · have hhi' : i ≤ 2 := hhi
    interval_cases i <;> exact nofun

theorem entryBreakaddr_run : ∃ fuel st', entryBreakaddr.graph.runDominators fuel
    ⟨fun _ => ∅, fun _ => none⟩ = some st' := by
  obtain ⟨fuel₀, h⟩ := runDominators_some entryBreakaddr_fromEntry .fresh (by decide)
  obtain ⟨st', hrun, -⟩ := h fuel₀ (Nat.le_refl _)
  exact ⟨fuel₀, st', hrun⟩

theorem findBreakTarget_iff_entryBreakaddr :
    ∃ fuel st', entryBreakaddr.graph.runDominators fuel ⟨fun _ => ∅, fun _ => none⟩ = some st' ∧
      ((∃ fuel₀, ∀ fuel ≥ fuel₀,
        entryBreakaddr.findBreakTarget st'.immediateDominatorId fuel 1 = some (.target "Lexit")) ↔
          (0 : ℕ) ≠ 0) := by
  obtain ⟨fuel, st', hrun⟩ := entryBreakaddr_run
  exact ⟨fuel, st', hrun, findBreakTarget_iff entryBreakaddr .fresh hrun (by decide) entryBreakaddr_chain
    entryBreakaddr_nearest⟩

theorem entryBreakaddr_unfound :
    ¬∀ (P : Assembled) (st st' : DomState) (fuel b c : ℕ) (l : List ℕ) (dst : String),
      Reached P.graph.size st → P.graph.runDominators fuel st = some st' → b < P.graph.exit →
        Chain P.graph b l → P.NearestOn c dst l → ∃ fuel₀, ∀ fuel ≥ fuel₀,
          P.findBreakTarget st'.immediateDominatorId fuel b = some (.target dst) := by
  intro h
  obtain ⟨fuel, st', hrun⟩ := entryBreakaddr_run
  obtain ⟨fuel₀, hclaim⟩ := h entryBreakaddr _ st' fuel 1 0 [1, 0] "Lexit" .fresh hrun (by decide)
    entryBreakaddr_chain entryBreakaddr_nearest
  obtain ⟨fuel₁, hfind⟩ := findBreakTarget_chain (idomsExact_of_run .fresh hrun) entryBreakaddr_chain
    (by decide) entryBreakaddr_nearest
  have hboth := (hfind (max fuel₀ fuel₁) (Nat.le_max_right _ _)).symm.trans
    (hclaim (max fuel₀ fuel₁) (Nat.le_max_left _ _))
  exact absurd (Option.some.inj hboth) nofun

end Ptx
end CompressionWork
