import CompressionWork.Cache.TagArray

/-!
# The load/store unit: the model

The model of `ldst_unit` and of the `Scoreboard`, as far as loads wait for their accesses.

* `Scoreboard` — the registers that are reserved.
* `issue`, `processCacheAccess`, `writeback`, `cycle` — what changes `m_pending_writes`.
* `LdstRun`, `next` — the unit with the instructions on the way to it and the accesses on the way to
  memory, in any order of issue, response and cycle.

The counts are integers here, so that one below zero would show.  The caches, the interconnect and the
operand collector answer as they like.  Statistics, the long-operation registers and the acknowledgements
of stores are left out; nothing here reads them.
-/

namespace CompressionWork.Ldst

open Cache (CacheRequestStatus)

/-! ## Instructions -/

/-- The memory spaces that the unit tells apart. -/
inductive MemSpace
  | shared
  | const
  | paramKernel
  | tex
  | global
  | local
  | paramLocal
  deriving DecidableEq

/-- `warp_inst_t`: its registers, 0 for none, and how many accesses its queue has before the first one
leaves.  `inputs` are `in`, `pred`, `ar1` and `ar2`; `bypassL1D` is what `memory_cycle` finds out from the
cache operator and the configuration. -/
structure WarpInst where
  uid : ℕ
  warpId : ℕ
  out : List ℕ
  inputs : List ℕ
  isLoad : Bool
  space : MemSpace
  activeCount : ℕ
  accessqCount : ℕ
  bypassL1D : Bool
  deriving DecidableEq

/-- The registers of the loops over `out[0]` to `out[3]`, which skip 0. -/
def WarpInst.regs (inst : WarpInst) : List ℕ := inst.out.filter fun r => 0 < r

/-- A load whose accesses are counted. -/
def WarpInst.counted (inst : WarpInst) : Bool := inst.isLoad && inst.space != .shared

/-! ## The scoreboard -/

/-- `reg_table`: the reserved registers of each warp. -/
abbrev RegTable := ℕ → ℕ → Bool

namespace Scoreboard

/-- `reserveRegister` aborts when the register is reserved. -/
def reserveRegister (t : RegTable) (wid regnum : ℕ) : Option RegTable :=
  if t wid regnum then none
  else some fun w r => if w = wid ∧ r = regnum then true else t w r

/-- `releaseRegister`. -/
def releaseRegister (t : RegTable) (wid regnum : ℕ) : RegTable :=
  fun w r => if w = wid ∧ r = regnum then false else t w r

/-- `reserveRegisters`. -/
def reserveRegisters (t : RegTable) (inst : WarpInst) : Option RegTable :=
  inst.regs.foldlM (fun t r => reserveRegister t inst.warpId r) t

/-- `releaseRegisters`. -/
def releaseRegisters (t : RegTable) (inst : WarpInst) : RegTable :=
  inst.regs.foldl (fun t r => releaseRegister t inst.warpId r) t

/-- `checkCollision`: the instruction uses a reserved register. -/
def checkCollision (t : RegTable) (inst : WarpInst) : Bool :=
  (inst.out ++ inst.inputs).any fun r => 0 < r && t inst.warpId r

end Scoreboard

/-! ## The unit -/

/-- `m_pending_writes`: a map for each warp. -/
abbrev PendingWrites := ℕ → ℕ → Option ℤ

/-- `m_pending_writes[warp][reg] += n`; a missing entry starts as 0. -/
def addPending (m : PendingWrites) (warp : ℕ) (n : ℤ) (reg : ℕ) : PendingWrites :=
  fun w r => if w = warp ∧ r = reg then some ((m w r).getD 0 + n) else m w r

/-- `m_pending_writes[warp].erase(reg)`. -/
def erasePending (m : PendingWrites) (warp reg : ℕ) : PendingWrites :=
  fun w r => if w = warp ∧ r = reg then none else m w r

/-- The clients of the writeback, in the order of their numbers. -/
inductive Client
  | shared
  | tex
  | const
  | global
  | l1d
  deriving DecidableEq

/-- The writeback clients by their number. -/
def clientOf : ℕ → Client
  | 0 => .shared
  | 1 => .tex
  | 2 => .const
  | 3 => .global
  | _ => .l1d

/-- `m_num_writeback_clients`. -/
def numWritebackClients : ℕ := 5

/-- `ldst_unit` with its scoreboard: `accessq` is how many accesses are left in the queue of the instruction
in `m_dispatch_reg`, the only one whose queue changes; `ready` are the responses that a cache can hand out,
and `m_next_global`; `completed` are the instructions given to `warp_inst_complete`. -/
structure LdstUnit where
  regTable : RegTable := fun _ _ => false
  pendingWrites : PendingWrites := fun _ _ => none
  dispatchReg : Option WarpInst := none
  accessq : ℕ := 0
  pipelineReg0 : Option WarpInst := none
  pipelineReg1 : Option WarpInst := none
  pipelineReg2 : Option WarpInst := none
  nextWb : Option WarpInst := none
  writebackArb : ℕ := 0
  ready : Client → List WarpInst := fun _ => []
  completed : List WarpInst := []

/-- `issue`: the accesses of a load are counted for each of its registers. -/
def issue (u : LdstUnit) (inst : WarpInst) : LdstUnit :=
  { u with
    pendingWrites :=
      if inst.counted then inst.regs.foldl (fun m r => addPending m inst.warpId inst.accessqCount r)
        u.pendingWrites
      else u.pendingWrites
    dispatchReg := some inst, accessq := inst.accessqCount }

/-! ## The writeback -/

/-- One register of the instruction that is written back. -/
def writebackReg (inst : WarpInst) (s : PendingWrites × RegTable × Bool) (r : ℕ) :
    Option (PendingWrites × RegTable × Bool) :=
  if inst.space ≠ .shared then
    if 0 < (s.1 inst.warpId r).getD 0 then
      let m := addPending s.1 inst.warpId (-1) r
      if (m inst.warpId r).getD 0 = 0 then
        some (erasePending m inst.warpId r, Scoreboard.releaseRegister s.2.1 inst.warpId r, true)
      else some (m, s.2)
    else none
  else some (s.1, Scoreboard.releaseRegister s.2.1 inst.warpId r, true)

/-- The first part of `writeback`: the operand collector takes the next instruction, or not. -/
def writeNext (u : LdstUnit) (collector : Bool) : Option LdstUnit :=
  match u.nextWb with
  | none => some u
  | some inst =>
      if collector then
        (inst.regs.foldlM (writebackReg inst) (u.pendingWrites, u.regTable, false)).map fun s =>
          { u with
            pendingWrites := s.1, regTable := s.2.1, nextWb := none
            completed := if s.2.2 then u.completed ++ [inst] else u.completed }
      else some u

/-- What a client hands out; the pipeline register for shared memory becomes empty. -/
def takeClient (u : LdstUnit) : Client → Option LdstUnit
  | .shared =>
      u.pipelineReg0.map fun inst => { u with nextWb := some inst, pipelineReg0 := none }
  | client =>
      match u.ready client with
      | [] => none
      | inst :: rest =>
          some { u with nextWb := some inst, ready := Function.update u.ready client rest }

/-- The second part of `writeback`: the clients in turn, until one hands something out. -/
def arbitrate (u : LdstUnit) : ℕ → ℕ → LdstUnit
  | 0, _ => u
  | n + 1, c =>
      let nextClient := (c + u.writebackArb) % numWritebackClients
      match takeClient u (clientOf nextClient) with
      | some u => { u with writebackArb := (nextClient + 1) % numWritebackClients }
      | none => arbitrate u n (c + 1)

/-- `ldst_unit::writeback`. -/
def writeback (u : LdstUnit) (collector : Bool) : Option LdstUnit :=
  (writeNext u collector).map fun u =>
    if u.nextWb = none then arbitrate u numWritebackClients 0 else u

/-! ## The stages -/

/-- What the caches, the interconnect and the operand collector answer in a cycle.  A stall of the
decompressor is `none`. -/
structure CycleInput where
  collector : Bool
  dispatchDelay : Bool
  dataPortFree : Bool
  icntFull : Bool
  status : Option CacheRequestStatus

/-- What a stage leaves: the counts, the accesses in the queue, and the client to which one was sent. -/
structure Stage where
  pendingWrites : PendingWrites
  accessq : ℕ
  sent : Option Client

/-- `process_cache_access`: a hit is served in place. -/
def processCacheAccess (m : PendingWrites) (client : Client) (inst : WarpInst) (accessq : ℕ)
    (status : CacheRequestStatus) : Stage :=
  match status with
  | .hit =>
      { pendingWrites :=
          if inst.isLoad then inst.regs.foldl (fun m r => addPending m inst.warpId (-1) r) m else m
        accessq := accessq - 1, sent := none }
  | .reservationFail => ⟨m, accessq, none⟩
  | .miss | .hitReserved => ⟨m, accessq - 1, some client⟩

/-- `process_memory_access_queue`. -/
def processMemoryAccessQueue (m : PendingWrites) (client : Client) (inst : WarpInst) (accessq : ℕ)
    (input : CycleInput) : Stage :=
  if accessq = 0 ∨ input.dataPortFree = false then ⟨m, accessq, none⟩
  else
    match input.status with
    | some status => processCacheAccess m client inst accessq status
    | none => ⟨m, accessq, none⟩

/-- `memory_cycle`, for an instruction of its spaces with active threads. -/
def memoryCycle (m : PendingWrites) (inst : WarpInst) (accessq : ℕ) (input : CycleInput) :
    Option Stage :=
  if accessq = 0 then none
  else if inst.bypassL1D then
    if input.icntFull then some ⟨m, accessq, none⟩
    else if inst.isLoad ∧ ∃ r ∈ inst.regs, (m inst.warpId r).getD 0 ≤ 0 then none
    else some ⟨m, accessq - 1, some .global⟩
  else some (processMemoryAccessQueue m .l1d inst accessq input)

/-- `shared_cycle`, `constant_cycle`, `texture_cycle` and `memory_cycle`: each leaves the instructions of
other spaces alone, and those without active threads.  The result says whether all are done. -/
def stages (m : PendingWrites) (inst : WarpInst) (accessq : ℕ) (input : CycleInput) :
    Option (Bool × Stage) :=
  match inst.space with
  | .shared => some (!input.dispatchDelay, ⟨m, accessq, none⟩)
  | .const | .paramKernel =>
      if inst.activeCount = 0 then some (true, ⟨m, accessq, none⟩)
      else
        let s := processMemoryAccessQueue m .const inst accessq input
        some (s.accessq == 0, s)
  | .tex =>
      if inst.activeCount = 0 then some (true, ⟨m, accessq, none⟩)
      else
        let s := processMemoryAccessQueue m .tex inst accessq input
        some (s.accessq == 0, s)
  | .global | .local | .paramLocal =>
      if inst.activeCount = 0 then some (true, ⟨m, accessq, none⟩)
      else (memoryCycle m inst accessq input).map fun s => (s.accessq == 0, s)

/-! ## The cycle -/

/-- The loop over the registers at the end of `cycle`: a count above zero ends it, and one of zero is
erased. -/
def pendingRequests (m : PendingWrites) (warp : ℕ) : List ℕ → PendingWrites × Bool
  | [] => (m, false)
  | r :: rest =>
      match m warp r with
      | some n => if 0 < n then (m, true) else pendingRequests (erasePending m warp r) warp rest
      | none => pendingRequests m warp rest

/-- The end of `cycle` for an instruction whose stages are done. -/
def retire (u : LdstUnit) (inst : WarpInst) : LdstUnit :=
  if inst.isLoad then
    if inst.space = .shared then
      if u.pipelineReg2 = none then { u with pipelineReg2 := some inst, dispatchReg := none } else u
    else
      let p := pendingRequests u.pendingWrites inst.warpId inst.regs
      if p.2 then { u with pendingWrites := p.1, dispatchReg := none }
      else
        { u with
          pendingWrites := p.1, dispatchReg := none, completed := u.completed ++ [inst]
          regTable := Scoreboard.releaseRegisters u.regTable inst }
  else { u with dispatchReg := none, completed := u.completed ++ [inst] }

/-- The pipeline for shared memory moves on, as far as there is room. -/
def shiftPipeline (u : LdstUnit) : LdstUnit :=
  let u := if u.pipelineReg0 = none then
      { u with pipelineReg0 := u.pipelineReg1, pipelineReg1 := none } else u
  if u.pipelineReg1 = none then
    { u with pipelineReg1 := u.pipelineReg2, pipelineReg2 := none } else u

/-- The stages and the end of `cycle`, with the access that was sent. -/
def dispatch (u : LdstUnit) (input : CycleInput) : Option (LdstUnit × Option (Client × WarpInst)) :=
  match u.dispatchReg with
  | none => some (u, none)
  | some inst =>
      (stages u.pendingWrites inst u.accessq input).map fun r =>
        let u := { u with pendingWrites := r.2.pendingWrites, accessq := r.2.accessq }
        (if r.1 then retire u inst else u, r.2.sent.map fun client => (client, inst))

/-- `cycle`. -/
def cycle (u : LdstUnit) (input : CycleInput) : Option (LdstUnit × Option (Client × WarpInst)) := do
  let u ← writeback u input.collector
  dispatch (shiftPipeline u) input

/-! ## Runs -/

/-- The unit, the instructions that are issued and have not reached it, the accesses of loads for which a
response comes, and all instructions that were issued. -/
structure LdstRun where
  unit : LdstUnit := {}
  waiting : List WarpInst := []
  inFlight : List (Client × WarpInst) := []
  issued : List WarpInst := []

/-- What happens: a warp issues an instruction, the operand collector passes one on, a response comes, or a
cycle. -/
inductive LdstOp
  | issueWarp (inst : WarpInst)
  | issue (inst : WarpInst)
  | respond (client : Client) (inst : WarpInst)
  | cycle (input : CycleInput)

/-- The unit after an event; `none` when an assertion fails. -/
def next (s : LdstRun) : LdstOp → Option LdstRun
  | .issueWarp inst =>
      (Scoreboard.reserveRegisters s.unit.regTable inst).map fun regTable =>
        { s with
          unit := { s.unit with regTable }, waiting := s.waiting ++ [inst]
          issued := s.issued ++ [inst] }
  | .issue inst =>
      some { s with unit := Ldst.issue s.unit inst, waiting := s.waiting.erase inst }
  | .respond client inst =>
      some { s with
        unit := { s.unit with
          ready := Function.update s.unit.ready client (s.unit.ready client ++ [inst]) }
        inFlight := s.inFlight.erase (client, inst) }
  | .cycle input =>
      (Ldst.cycle s.unit input).map fun r =>
        { s with
          unit := r.1
          inFlight := s.inFlight ++ (r.2.toList.filter fun access => access.2.isLoad) }

/-- A new instruction has distinct destination registers, of which a store has none and a load of shared
memory has one, no register that is reserved, and accesses exactly if threads are active; the unit takes
one when its register is empty; and a response is for an access that was sent, with one place for those
that bypass the cache. -/
def Allowed (s : LdstRun) : LdstOp → Prop
  | .issueWarp inst =>
      inst ∉ s.issued ∧ inst.regs.Nodup ∧ (inst.isLoad = false → inst.regs = []) ∧
        (inst.isLoad = true → inst.space = .shared → inst.regs ≠ []) ∧
        (inst.space ≠ .shared → (inst.accessqCount = 0 ↔ inst.activeCount = 0)) ∧
        Scoreboard.checkCollision s.unit.regTable inst = false
  | .issue inst => inst ∈ s.waiting ∧ s.unit.dispatchReg = none
  | .respond client inst =>
      (client, inst) ∈ s.inFlight ∧ (client = .global → s.unit.ready .global = [])
  | .cycle _ => True

end CompressionWork.Ldst
