/-
# Basic blocks of a PTX function

`ptx_assemble` lays the instructions of a function out in instruction memory, `create_basic_blocks`
splits them into basic blocks and `connect_basic_blocks` links the blocks.

* `createBasicBlocks`, `successors`, `connectBasicBlocks` — the translation;
* `ExactGraph` — what a control-flow graph of the function has to satisfy.
-/
import Mathlib.Data.List.Basic

namespace CompressionWork
namespace Ptx

/-! ## Instructions -/

/-- The opcodes that `create_basic_blocks` and `connect_basic_blocks` tell apart. -/
inductive Opcode where
  | bra | ret | exit | retp | brk | call | callp | other
  deriving DecidableEq, Repr

/-- An instruction that is not a label: its opcode, `has_pred`, `HALF_OPTION` and the name of its
first operand. -/
structure Real where
  opcode : Opcode
  hasPred : Bool
  half : Bool
  target : String
  deriving DecidableEq, Repr

/-- An element of `m_instructions`; it is identified by its position. -/
inductive Inst where
  | label (name : String)
  | real (r : Real)
  deriving DecidableEq, Repr

/-- `is_label`. -/
def Inst.isLabel : Inst → Bool
  | .label _ => true
  | .real _ => false

namespace Real

/-- `inst_size`. -/
def instSize (r : Real) : ℕ := if r.half then 4 else 8

/-- The instructions after which `create_basic_blocks` puts a leader. -/
def endsBlock (r : Real) : Bool :=
  match r.opcode with
  | .bra | .ret | .exit | .retp | .brk => true
  | .call | .callp => r.hasPred
  | .other => false

/-- The instruction may leave the function. -/
def isReturn (r : Real) : Bool :=
  r.opcode = .retp || r.opcode = .ret || r.opcode = .exit

/-- The instruction may go elsewhere than to the next one. -/
def isTransfer (r : Real) : Bool := r.isReturn || r.opcode = .bra

theorem instSize_pos (r : Real) : 1 < r.instSize := by
  unfold instSize
  split <;> omega

theorem endsBlock_of_isTransfer {r : Real} (h : r.isTransfer = true) : r.endsBlock = true := by
  unfold isTransfer isReturn at h
  unfold endsBlock
  cases hop : r.opcode <;> simp_all

end Real

/-! ## Splitting into blocks -/

/-- `find_next_real_instruction` from the element at `k`, given the elements from there on. -/
def findNextReal (k : ℕ) : List Inst → Option ℕ
  | [] => none
  | .label _ :: is => findNextReal (k + 1) is
  | .real _ :: _ => some k

/-- The loop of `create_basic_blocks` that collects leaders. `skip` says that the loop is inside a
call of `find_next_real_instruction`, which passes over labels. -/
def scanLeaders (k : ℕ) (skip : Bool) : List Inst → List ℕ
  | [] => []
  | .label _ :: is => if skip then scanLeaders (k + 1) true is else k :: scanLeaders (k + 1) true is
  | .real r :: is =>
      if r.endsBlock then (if is = [] then [] else [k + 1]) ++ scanLeaders (k + 1) true is
      else scanLeaders (k + 1) false is

/-- A block of `m_basic_blocks`; its `bb_id` is its position. -/
structure Block where
  ptxBegin : ℕ
  ptxEnd : ℕ
  deriving DecidableEq, Repr

/-- The state of the second loop: the blocks before `m_basic_blocks.back()`, the `ptx_begin` of
that one, `last_real_inst`, and the block of every element visited so far. -/
structure Walk where
  closed : List Block
  ptxBegin : ℕ
  lastReal : ℕ
  bbs : List ℕ

namespace Walk

/-- The blocks when the walk is over: those that are closed and the last one. -/
def all (w : Walk) : List Block := w.closed ++ [⟨w.ptxBegin, w.lastReal⟩]

/-- At a leader the last block ends and, unless only labels follow, a new one starts. An end that is
written before trailing labels is written once more, with the same value, after the loop. -/
def startBlock (w : Walk) : Option ℕ → Walk
  | none => w
  | some b => { w with closed := w.all, ptxBegin := b, lastReal := b }

/-- `assign_bb`, and `last_real_inst` when the element is not a label. -/
def assignBb (w : Walk) (k : ℕ) (i : Inst) : Walk :=
  { w with
    bbs := w.bbs ++ [w.closed.length]
    lastReal := if i.isLabel then w.lastReal else k }

end Walk

/-- `create_basic_blocks`, the loop over the instructions: a block starts at each leader. -/
def walk (k : ℕ) : List Inst → List ℕ → Walk → Walk
  | [], _, w => w
  | i :: is, leaders, w =>
      if leaders.head? = some k then
        walk (k + 1) is leaders.tail ((w.startBlock (findNextReal k (i :: is))).assignBb k i)
      else walk (k + 1) is leaders (w.assignBb k i)

/-- The blocks of a function without the exit block, and the block of every element. -/
structure Blocks where
  blocks : List Block
  bbs : List ℕ

/-- The exit block comes last. -/
def Blocks.exitId (g : Blocks) : ℕ := g.blocks.length

/-- `create_basic_blocks`. It reads `*m_instructions.begin()` and the first real instruction without
a test; `none` stands for the read past the end. The first leader is the first element. -/
def createBasicBlocks : List Inst → Option Blocks
  | [] => none
  | i :: is => do
      let b ← findNextReal 0 (i :: is)
      let w := walk 0 (i :: is) (scanLeaders 1 false is) ⟨[], b, 0, []⟩
      return ⟨w.all, w.bbs⟩

/-! ## Instruction memory -/

/-- `m_instr_mem` as `ptx_assemble` writes it: an instruction at its first byte, `NULL` at the
others. The slots behind are never written. -/
def memFrom (k : ℕ) : List Inst → List (Option ℕ)
  | [] => []
  | .label _ :: is => memFrom (k + 1) is
  | .real r :: is => some k :: List.replicate (r.instSize - 1) none ++ memFrom (k + 1) is

/-- `m_instr_mem` of the whole function. -/
def instrMem (insts : List Inst) : List (Option ℕ) := memFrom 0 insts

/-- `m_instr_mem_index` of the instruction at `q`. -/
def instrMemIndex (insts : List Inst) (q : ℕ) : ℕ := (memFrom 0 (insts.take q)).length

/-- `m_instr_mem_size`, with `MAX_INST_SIZE` 8. -/
def instrMemSize (insts : List Inst) : ℕ := 8 * (insts.length + 1)

/-- `labels[name]` after `ptx_assemble` has gone over the elements from offset `n` on; a later label
of the same name overwrites an earlier one. -/
def labelAddr (name : String) (n : ℕ) : List Inst → Option ℕ
  | [] => none
  | .label l :: is => (labelAddr name n is).or (if l = name then some n else none)
  | .real r :: is => labelAddr name (n + r.instSize) is

/-! ## Linking the blocks -/

/-- `m_instr_mem[addr]->get_bb()->bb_id`; `none` for a slot that is `NULL` or was never written. -/
def bbAt (insts : List Inst) (g : Blocks) (addr : ℕ) : Option ℕ := do
  let q ← (← (instrMem insts)[addr]?)
  g.bbs[q]?

/-- The block of the target of a branch. -/
def takenBlock (insts : List Inst) (g : Blocks) (r : Real) : Option (List ℕ) :=
  if r.opcode = .bra then ((labelAddr r.target 0 insts).bind (bbAt insts g)).map fun c => [c]
  else some []

/-- The next block, unless the branch is not predicated. -/
def fallThrough (insts : List Inst) (g : Blocks) (r : Real) (index : ℕ) : Option (List ℕ) :=
  if r.opcode = .bra ∧ r.hasPred = false then some []
  else (bbAt insts g (index + r.instSize)).map fun c => [c]

/-- The blocks that `connect_basic_blocks` links to a block, in order. A label has no
`m_instr_mem_index`, so a block that ends with one has none. -/
def successors (insts : List Inst) (g : Blocks) (blk : Block) : Option (List ℕ) :=
  match insts[blk.ptxEnd]? with
  | some (.real r) =>
      let index := instrMemIndex insts blk.ptxEnd
      if r.isReturn then
        if r.hasPred then
          -- the next slot, not the next instruction
          let nextAddr := index + 1
          if nextAddr < instrMemSize insts then
            match (instrMem insts)[nextAddr]? with
            | none => none
            | some none => some [g.exitId]
            | some (some _) => (bbAt insts g nextAddr).map fun c => [g.exitId, c]
          else some [g.exitId]
        else some [g.exitId]
      else do
        let taken ← takenBlock insts g r
        let next ← fallThrough insts g r index
        return taken ++ next
  | _ => none

/-- The `successor_ids` and `predecessor_ids` of all blocks, as pairs of a block and a member. -/
structure Links where
  successorIds : List (ℕ × ℕ)
  predecessorIds : List (ℕ × ℕ)

/-- `c` becomes a successor of `b`, and `b` a predecessor of `c`. -/
def Links.link (l : Links) (b c : ℕ) : Links :=
  { successorIds := (b, c) :: l.successorIds, predecessorIds := (c, b) :: l.predecessorIds }

/-- The loop of `connect_basic_blocks` over the blocks, from the block `b` on. -/
def connectFrom (insts : List Inst) (g : Blocks) (b : ℕ) : List Block → Links → Option Links
  | [], l => some l
  | blk :: blks, l => do
      let cs ← successors insts g blk
      connectFrom insts g (b + 1) blks (cs.foldl (fun l c => l.link b c) l)

/-- `connect_basic_blocks`. -/
def connectBasicBlocks (insts : List Inst) (g : Blocks) : Option Links :=
  connectFrom insts g 0 g.blocks ⟨[], []⟩

/-! ## What the graph is for -/

/-- The element is an instruction and not a label. -/
def IsReal (insts : List Inst) (q : ℕ) : Prop := ∃ r, insts[q]? = some (.real r)

/-- The next real instruction after the element at `q` is at `t`. -/
structure NextReal (insts : List Inst) (q t : ℕ) : Prop where
  after : q < t
  real : IsReal insts t
  labels : ∀ j, q < j → j < t → ¬ IsReal insts j

/-- A branch to `name` goes to the instruction at `t`: the first one after the label. -/
def BranchTarget (insts : List Inst) (name : String) (t : ℕ) : Prop :=
  ∃ k, insts[k]? = some (.label name) ∧ (∀ j, k < j → insts[j]? ≠ some (.label name)) ∧
    NextReal insts k t

/-- Control can pass from the instruction at `e` to the block `c`: to the target of a branch, to the
next instruction when there is no transfer or a predicated one, to the exit block from a return. A
break counts as no transfer here: `connect_break_targets` replaces its links once the dominators are
known. -/
def Passes (insts : List Inst) (g : Blocks) (e c : ℕ) : Prop :=
  ∃ r, insts[e]? = some (.real r) ∧
    ((r.isReturn = true ∧ c = g.exitId) ∨
      (r.opcode = .bra ∧ ∃ t, BranchTarget insts r.target t ∧ g.bbs[t]? = some c) ∨
      ((r.isTransfer = false ∨ r.hasPred = true) ∧ ∃ t, NextReal insts e t ∧ g.bbs[t]? = some c))

/-- The instruction at `q` is the first of its block. -/
def FirstOf (g : Blocks) (q : ℕ) : Prop :=
  ∃ b blk, g.bbs[q]? = some b ∧ g.blocks[b]? = some blk ∧ blk.ptxBegin = q

/-- The instruction at `q` is the last of its block. -/
def LastOf (g : Blocks) (q : ℕ) : Prop :=
  ∃ b blk, g.bbs[q]? = some b ∧ g.blocks[b]? = some blk ∧ blk.ptxEnd = q

/-- The blocks split the real instructions: each block runs from a real instruction to a real
instruction, they follow each other, and every real instruction lies in the block it is given. -/
structure Splits (insts : List Inst) (g : Blocks) : Prop where
  ends : ∀ blk ∈ g.blocks, IsReal insts blk.ptxBegin ∧ IsReal insts blk.ptxEnd ∧
    blk.ptxBegin ≤ blk.ptxEnd
  ordered : g.blocks.Pairwise fun a b => a.ptxEnd < b.ptxBegin
  placed : ∀ q, IsReal insts q → ∃ b blk, g.bbs[q]? = some b ∧ g.blocks[b]? = some blk ∧
    blk.ptxBegin ≤ q ∧ q ≤ blk.ptxEnd

/-- The blocks split the function at its labels and transfers, and the links are those of its paths. -/
structure Exact (insts : List Inst) (g : Blocks) (l : Links) : Prop where
  splits : Splits insts g
  transferLast : ∀ (q : ℕ) (r : Real), insts[q]? = some (.real r) → r.isTransfer = true → LastOf g q
  targetFirst : ∀ (q : ℕ) (r : Real) (t : ℕ), insts[q]? = some (.real r) → r.opcode = .bra →
    BranchTarget insts r.target t → FirstOf g t
  afterFirst : ∀ (q : ℕ) (r : Real) (t : ℕ), insts[q]? = some (.real r) → r.isTransfer = true → NextReal insts q t →
    FirstOf g t
  successor : ∀ b c, (b, c) ∈ l.successorIds ↔
    ∃ blk, g.blocks[b]? = some blk ∧ Passes insts g blk.ptxEnd c
  predecessor : ∀ b c, (c, b) ∈ l.predecessorIds ↔ (b, c) ∈ l.successorIds

/-- `create_basic_blocks` and `connect_basic_blocks` build an exact control-flow graph. -/
def ExactGraph (insts : List Inst) : Prop :=
  ∃ g l, createBasicBlocks insts = some g ∧ connectBasicBlocks insts g = some l ∧ Exact insts g l

end Ptx
end CompressionWork
