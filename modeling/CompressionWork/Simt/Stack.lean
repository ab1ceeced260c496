import Mathlib.Data.Finset.Sort
import Mathlib.Data.Finset.Lattice.Fold

/-!
# The SIMT stack: the model

The model of `simt_stack` and of the program that drives it.

* `StackEntry`, `launch`, `update` — the stack, its top first.
* `Warp`, `Warp.step` — the threads of a warp, each with its own next PC; an instruction is executed for the
  active threads, and `updateSIMTStack` passes on where they go.

The masks are sets of threads.  Statistics and call depths are left out; nothing here reads them.
-/

namespace CompressionWork.Simt

/-- `(address_type)-1`. -/
def nullPc : ℕ := 2 ^ 32 - 1

/-- The operations that `update` tells apart. -/
inductive OpType
  | callOps
  | retOps
  | other
  deriving DecidableEq

/-- `stack_entry_type`. -/
inductive StackEntryType
  | normal
  | call
  deriving DecidableEq

/-- `simt_stack_entry`.  `region` is no part of the code: it is the place, from the bottom, of the entry in
which the threads of this entry come together again, and the same for entries that diverged from one
branch. -/
structure StackEntry where
  pc : ℕ := nullPc
  recvgPc : ℕ := nullPc
  activeMask : Finset ℕ := ∅
  type : StackEntryType := .normal
  region : Option ℕ := none
  deriving DecidableEq

/-- `simt_stack::launch`. -/
def launch (startPc : ℕ) (activeMask : Finset ℕ) : List StackEntry := [{ pc := startPc, activeMask }]

/-- What `updateSIMTStack` passes to `update`: the finished threads, the next PCs, and the instruction. -/
structure Update where
  threadDone : Finset ℕ
  nextPc : ℕ → ℕ
  recvgPc : ℕ
  op : OpType
  size : ℕ
  pc : ℕ

/-- The active threads of the entry that are not finished. -/
def Update.liveMask (u : Update) (top : StackEntry) : Finset ℕ := top.activeMask \ u.threadDone

/-- The threads of the entry with a next PC. -/
def Update.group (u : Update) (top : StackEntry) (pc : ℕ) : Finset ℕ :=
  (u.liveMask top).filter fun t => u.nextPc t = pc

/-- The keys of `divergent_paths`: the loop takes out one group of threads with the same next PC after
another. -/
def Update.pcs (u : Update) (top : StackEntry) : Finset ℕ := (u.liveMask top).image u.nextPc

/-- `divergent_paths` in the order of the loop: the path of the next instruction, and then the order of the
map. -/
def Update.paths (u : Update) (top : StackEntry) : List ℕ :=
  let pcs := (u.pcs top).sort (· ≤ ·)
  let notTakenPc := u.pc + u.size
  if notTakenPc ∈ pcs then notTakenPc :: pcs.erase notTakenPc else pcs

/-- The state of the loop over the paths. -/
structure LoopState where
  stack : List StackEntry
  warpDiverged : Bool := false
  newRecvgPc : ℕ := nullPc

/-- An update of `m_stack.back()`. -/
def modifyTop (f : StackEntry → StackEntry) : List StackEntry → List StackEntry
  | [] => []
  | top :: rest => f top :: rest

/-- `m_stack.push_back(simt_stack_entry())`. -/
def pushBlank (region : Option ℕ) (stack : List StackEntry) : List StackEntry :=
  { region := region } :: stack

/-- The modification of the top entry into a reconvergence entry. -/
def diverge (top : StackEntry) (recvgPc : ℕ) (s : LoopState) : LoopState :=
  if recvgPc ≠ top.recvgPc then
    { stack := pushBlank (some (s.stack.length - 1)) (modifyTop (fun e => { e with pc := recvgPc }) s.stack)
      warpDiverged := true, newRecvgPc := recvgPc }
  else { s with warpDiverged := true, newRecvgPc := recvgPc }

/-- The update of the top entry for a path, and the next entry. -/
def setPath (u : Update) (top : StackEntry) (pc : ℕ) (s : LoopState) : LoopState :=
  { s with
    stack := pushBlank (s.stack.head?.bind (·.region)) (modifyTop (fun e =>
      { e with
        pc := pc, activeMask := u.group top pc
        recvgPc := if s.warpDiverged then s.newRecvgPc else top.recvgPc }) s.stack) }

/-- The loop over the paths after the special cases; `n` is `num_divergent_paths`. -/
def pathStep (u : Update) (top : StackEntry) (n : ℕ) (s : LoopState) (pc : ℕ) : LoopState :=
  if pc = top.recvgPc ∧ top.type ≠ .call then s
  else
    let s := if 1 < n ∧ s.warpDiverged = false then diverge top u.recvgPc s else s
    if s.warpDiverged = true ∧ pc = s.newRecvgPc then s else setPath u top pc s

/-- The return from a call, after `pop_back`. -/
def returnTo (pc : ℕ) : List StackEntry → Option (List StackEntry)
  | [] => none
  | top :: rest =>
      if pc = top.recvgPc ∧ top.type ≠ .call then some rest else some ({ top with pc := pc } :: rest)

/-- `update`; `none` is a failed assertion. -/
def update (stack : List StackEntry) (u : Update) : Option (List StackEntry) :=
  match stack with
  | [] => none
  | top :: rest =>
      let paths := u.paths top
      if top.pc ≠ u.pc ∨ top.activeMask = ∅ ∨ 2 < paths.length then none
      else
        match paths with
        | [] => some rest
        | pc :: others =>
            if u.op = .callOps then
              if others ≠ [] then none
              else
                some ({ pc := pc, activeMask := u.group top pc, type := .call,
                        region := some rest.length } :: top :: rest)
            else if u.op = .retOps ∧ top.type = .call then
              if others ≠ [] then none else returnTo pc rest
            else
              some (paths.foldl (pathStep u top paths.length) { stack := top :: rest }).stack.tail

/-! ## Warps -/

/-- A warp: its launched threads, the finished ones, and the next PC of each. -/
structure Warp where
  stack : List StackEntry
  threads : Finset ℕ
  done : Finset ℕ := ∅
  pc : ℕ → ℕ

/-- A warp whose threads all start at `startPc`. -/
def Warp.start (startPc : ℕ) (threads : Finset ℕ) : Warp :=
  { stack := launch startPc threads, threads, pc := fun _ => startPc }

/-- An instruction of the active threads: which of them finish, and where the others go. -/
structure Instr where
  op : OpType
  size : ℕ
  recvgPc : ℕ
  exits : Finset ℕ
  nextPc : ℕ → ℕ

/-- The threads that are not finished. -/
def Warp.live (w : Warp) : Finset ℕ := w.threads \ w.done

/-- What `updateSIMTStack` passes on after the active threads executed the instruction. -/
def Warp.result (w : Warp) (top : StackEntry) (i : Instr) : Update where
  threadDone := w.done ∪ (top.activeMask ∩ i.exits)
  nextPc t := if t ∈ top.activeMask then i.nextPc t else w.pc t
  recvgPc := i.recvgPc
  op := i.op
  size := i.size
  pc := top.pc

/-- `execute_warp_inst_t` and `updateSIMTStack`. -/
def Warp.step (w : Warp) (i : Instr) : Option Warp :=
  match w.stack with
  | [] => none
  | top :: _ =>
      let u := w.result top i
      (update w.stack u).map fun stack => { w with stack, done := u.threadDone, pc := u.nextPc }

end CompressionWork.Simt
