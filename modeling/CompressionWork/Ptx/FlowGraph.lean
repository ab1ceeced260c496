/-
# Reconvergence points

`find_postdominators` iterates the dataflow equations from the full sets, `find_ipostdominators` prunes
the sets to the immediate postdominators, and `get_reconvergence_pairs` looks them up for the branches.

* `FlowGraph` — the basic blocks; the last one is the exit;
* `findPostdominators`, `findIpostdominators`, `reconvergencePairs` — the translation.
-/
import CompressionWork.Graph.Postdominance
import Mathlib.Data.Finset.Card
import Mathlib.Data.Finset.Range

namespace CompressionWork
namespace Ptx

open CompressionWork.Graph

/-- `m_basic_blocks` with their `successor_ids`. -/
structure FlowGraph where
  size : ℕ
  succ : ℕ → List ℕ
  two_le : 2 ≤ size
  succ_lt : ∀ b < size, ∀ s ∈ succ b, s < size

namespace FlowGraph

variable (g : FlowGraph)

/-- The exit block is the last one. -/
def exit : ℕ := g.size - 1

/-- A block of the graph and one of its successors. -/
def Edge (b s : ℕ) : Prop := b < g.size ∧ s ∈ g.succ b

/-- The `postdominator_ids` or `Tmp_ids` of the blocks. -/
abbrev Sets := ℕ → Finset ℕ

/-! ## Postdominators -/

/-- `T` in the loop over the blocks: the intersection over the successors, and the block itself. -/
def transfer (pd : Sets) (h : ℕ) : Finset ℕ :=
  insert h ((g.succ h).foldl (fun T s => T ∩ pd s) (Finset.range g.size))

/-- The body of the loop over the blocks; the flag is `change`. -/
def visit (s : Sets × Bool) (h : ℕ) : Sets × Bool :=
  let T := g.transfer s.1 h
  if T = s.1 h then s else (fun b => if b = h then T else s.1 b, true)

/-- One round of the loop: all blocks but the exit, the last one first. -/
def round (pd : Sets) : Sets × Bool := (List.range g.exit).reverse.foldl g.visit (pd, false)

/-- The sets before the first round: the exit by itself, all blocks for the others. -/
def initial : Sets := fun b => if b = g.exit then {g.exit} else Finset.range g.size

/-- The rounds until nothing changes, of which there are at most `fuel`. -/
def rounds : ℕ → Sets → Option Sets
  | 0, _ => none
  | fuel + 1, pd => if (g.round pd).2 = true then rounds fuel (g.round pd).1 else some (g.round pd).1

/-- `find_postdominators` -/
def findPostdominators (fuel : ℕ) : Option Sets := g.rounds fuel g.initial

/-! ## Immediate postdominators -/

/-- The loop over `s` in `Tmp_ids`: an element `t ≠ s` that postdominates `s` is erased. The iterator of `s`
goes up and passes over what is erased. -/
def prune (pd : Sets) (tmp : Finset ℕ) : Finset ℕ :=
  (List.range g.size).foldl
    (fun tmp s => if s ∈ tmp then tmp.filter fun t => ¬ (s ≠ t ∧ t ∈ pd s) else tmp) tmp

/-- `Tmp_ids` at the end; the loop does not visit the exit. -/
def tmpIds (pd : Sets) (b : ℕ) : Finset ℕ :=
  if b = g.exit then (pd b).erase b else g.prune pd ((pd b).erase b)

/-- `*Tmp_ids.begin()` -/
def first? (tmp : Finset ℕ) : Option ℕ := (List.range g.size).find? fun t => t ∈ tmp

/-- `find_ipostdominators`: the `immediatepostdominator_id` of the blocks. `none` stands for a failed
assertion. -/
def findIpostdominators (pd : Sets) : Option (ℕ → Option ℕ) :=
  if ∀ b < g.size, (g.tmpIds pd b).card ≤ 1 then
    if ((List.range g.size).filter fun b => g.tmpIds pd b ≠ ∅).length = g.size - 1 then
      some fun b => g.first? (g.tmpIds pd b)
    else none
  else none

/-! ## Reconvergence pairs -/

/-- The PCs of `ptx_begin` and `ptx_end`, and whether `ptx_end` is a `bra`; the exit has no
`ptx_begin`. -/
structure BlockInsts where
  beginPC : Option ℕ
  endPC : ℕ
  isBra : Bool

/-- The instructions of the blocks: all of them but the exit have some. -/
structure Insts where
  block : ℕ → BlockInsts
  begins : ∀ b < g.size, (block b).beginPC = none ↔ b = g.exit

/-- `target_pc`; `functionReturn` is -2. -/
inductive Target where
  | pc (pc : ℕ)
  | functionReturn
  deriving DecidableEq, Repr

/-- `get_reconvergence_pairs`: source and target PCs. `none` stands for an access with a block id that is
not set. -/
def reconvergencePairs (insts : g.Insts) (ipdom : ℕ → Option ℕ) : Option (List (ℕ × Target)) :=
  ((List.range g.exit).filter fun b => (insts.block b).isBra).mapM fun b =>
    (ipdom b).map fun d => ((insts.block b).endPC,
      match (insts.block d).beginPC with
      | some pc => .pc pc
      | none => .functionReturn)

/-! ## What reconvergence points are for -/

/-- Every path from `b` to the exit passes through `c`. -/
def Postdom (c b : ℕ) : Prop := Postdominates g.Edge g.exit c b

/-- A branch reconverges at the start of its immediate postdominator. -/
def Reconverges (insts : g.Insts) (b : ℕ) (t : Target) : Prop :=
  ∃ d, Immediate g.Edge g.exit d b ∧
    ((d = g.exit ∧ t = .functionReturn) ∨ ∃ pc, (insts.block d).beginPC = some pc ∧ t = .pc pc)

end FlowGraph

end Ptx
end CompressionWork
