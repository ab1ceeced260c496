import CompressionWork.Dram.Fifo
import CompressionWork.Dram.Scheduler
import Mathlib.Data.UInt

/-!
# A DRAM channel: the model

The model of `dram_t` with its banks, bank groups and queues, and of the timing parameters of
`memory_config`.

* `MemoryConfig`, `accepted` — the parameters, those that `init` derives, and what it asks for.
* `DramT`, `cycle` — the channel and one cycle of it: returned requests, the scheduler, one command, and
  the counters.
-/

namespace CompressionWork.Dram

/-! ## Parameters -/

/-- `dram_ctrl_t`. -/
inductive DramCtrl
  | fifo
  | frfcfs
  deriving DecidableEq

/-- The parameters that `memory_config::init` reads from its options. -/
structure MemoryConfig where
  nbk : UInt32
  nbkgrp : UInt32
  tCCD : UInt32
  tRRD : UInt32
  tRCD : UInt32
  tRAS : UInt32
  tRP : UInt32
  tRC : UInt32
  tCCDL : UInt32
  tRTPL : UInt32
  tCDLR : UInt32
  tWR : UInt32
  cl : UInt32
  wl : UInt32
  bl : UInt32
  busW : UInt32
  nMemPerCtrlr : UInt32
  dataCommandFreqRatio : UInt32
  schedulerType : DramCtrl
  frfcfsDramSchedQueueSize : UInt32
  dramReturnQueueSize : UInt32
  nSubPartitionPerMemoryChannel : UInt32

namespace MemoryConfig

variable (cfg : MemoryConfig)

/-- The banks of a group. -/
def banksPerGroup : ℕ := cfg.nbk.toNat / cfg.nbkgrp.toNat

/-- The loop of `init` that shifts `nbkt` to zero. -/
def tagLength : ℕ → ℕ → ℕ
  | 0, _ => 0
  | fuel + 1, nbkt => if 0 < nbkt then tagLength fuel (nbkt / 2) + 1 else 0

/-- `bk_tag_length`; `nbkt` is an `int`, which 32 rounds shift to zero. -/
def bkTagLength : ℕ := if cfg.banksPerGroup < 2 ^ 31 then tagLength 32 cfg.banksPerGroup else 0

/-- `tRCDWR`. -/
def tRCDWR : UInt32 := cfg.tRCD - (cfg.wl + 1)

/-- `tRTW`. -/
def tRTW : UInt32 := cfg.cl + cfg.bl / cfg.dataCommandFreqRatio + 2 - cfg.wl

/-- `tWTR`. -/
def tWTR : UInt32 := cfg.wl + cfg.bl / cfg.dataCommandFreqRatio + cfg.tCDLR

/-- `tWTP`. -/
def tWTP : UInt32 := cfg.wl + cfg.bl / cfg.dataCommandFreqRatio + cfg.tWR

/-- `tRTP`. -/
def tRTP : UInt32 := cfg.bl / cfg.dataCommandFreqRatio

/-- `dram_atom_size`. -/
def dramAtomSize : UInt32 := cfg.bl * cfg.busW * cfg.nMemPerCtrlr

/-- What `init` and the constructor of the channel need: no division by zero, and banks that the
sub-partitions share evenly. -/
def Accepted : Prop :=
  0 < cfg.nbkgrp ∧ 0 < cfg.banksPerGroup ∧ 0 < cfg.dataCommandFreqRatio ∧
    0 < cfg.nSubPartitionPerMemoryChannel ∧ cfg.nbk % cfg.nSubPartitionPerMemoryChannel = 0

/-- `bkgrpindex`. -/
def bkgrpindex (j : ℕ) : ℕ := j / cfg.banksPerGroup

/-- The group whose counters a bank uses. -/
def grp (j : ℕ) : ℕ := j >>> cfg.bkTagLength

end MemoryConfig

/-! ## The channel -/

/-- `bank_t`; a request is kept with the bytes it has sent. -/
structure Bank where
  rcdc : ℕ := 0
  rcdwrc : ℕ := 0
  rasc : ℕ := 0
  rpc : ℕ := 0
  rcc : ℕ := 0
  wtpc : ℕ := 0
  rtpc : ℕ := 0
  active : Bool := false
  currRow : ℕ := 0
  mrq : Option (DramReq × ℕ) := none

/-- `bankgrp_t`. -/
structure BankGroup where
  ccdlc : ℕ := 0
  rtplc : ℕ := 0

/-- `dram_t`; `dqbytes` are the bytes returned for each request. -/
structure DramT where
  bk : ℕ → Bank := fun _ => {}
  bkgrp : ℕ → BankGroup := fun _ => {}
  prio : ℕ := 0
  rrdc : ℕ := 0
  ccdc : ℕ := 0
  rtwc : ℕ := 0
  wtrc : ℕ := 0
  rw : Rw := .read
  rwq : Fifo DramReq
  mrqq : Fifo DramReq
  returnq : Fifo MemFetch
  sched : Scheduler := {}
  dqbytes : ℕ → ℕ := fun _ => 0

/-- The commands of a channel. -/
inductive CommandKind
  | rd
  | wr
  | act
  | pre
  deriving DecidableEq

/-- A command to a bank, with the row of the request it is for. -/
structure Command where
  kind : CommandKind
  bank : ℕ
  row : ℕ
  deriving DecidableEq

namespace DramT

variable (cfg : MemoryConfig)

/-- The constructor. -/
def new : DramT where
  rwq := .new cfg.cl.toNat (cfg.cl.toNat + 1)
  mrqq := .new 0 2
  returnq := .new 0 (if cfg.dramReturnQueueSize = 0 then 1024 else cfg.dramReturnQueueSize.toNat)

/-- `full`. -/
def full (d : DramT) : Bool :=
  match cfg.schedulerType with
  | .frfcfs =>
      cfg.frfcfsDramSchedQueueSize != 0 && cfg.frfcfsDramSchedQueueSize.toNat ≤ d.sched.numPending
  | .fifo => d.mrqq.full

/-- `push`. -/
def push (d : DramT) (data : MemFetch) : DramT := { d with mrqq := d.mrqq.push (some (.new data)) }

/-- The first part of `cycle`: the data of one burst arrives.  Also returns a write-back that is done. -/
def returnData (d : DramT) : Option MemFetch × DramT :=
  if d.returnq.full then (none, d)
  else
    match d.rwq.pop with
    | (none, rwq) => (none, { d with rwq })
    | (some cmd, rwq) =>
        let dqbytes := d.dqbytes cmd.data.requestUid + cfg.dramAtomSize.toNat
        if cmd.nbytes ≤ dqbytes then
          -- the request is deleted
          let d := { d with rwq, dqbytes := Function.update d.dqbytes cmd.data.requestUid 0 }
          if cmd.data.isWrbk then (some cmd.data, d)
          else (none, { d with returnq := d.returnq.push (some cmd.data) })
        else (none, { d with rwq, dqbytes := Function.update d.dqbytes cmd.data.requestUid dqbytes })

/-- `scheduler_fifo`. -/
def schedulerFifo (d : DramT) : DramT :=
  match d.mrqq.top with
  | none => d
  | some head =>
      if (d.bk head.bk).mrq.isSome then d
      else
        { d with
          bk := Function.update d.bk head.bk { d.bk head.bk with mrq := some (head, 0) }
          mrqq := d.mrqq.pop.2 }

/-- The first loop of `scheduler_frfcfs`: requests move to the scheduler while it has room. -/
def drain : ℕ → DramT → Option DramT
  | 0, d => some d
  | fuel + 1, d =>
      if !d.mrqq.isEmpty && (cfg.frfcfsDramSchedQueueSize == 0 ||
          d.sched.numPending < cfg.frfcfsDramSchedQueueSize.toNat) then
        match d.mrqq.pop with
        | (some req, mrqq) => drain fuel { d with mrqq, sched := d.sched.addReq req }
        | (none, _) => none
      else some d

/-- The second loop: the first bank without a request that has one waiting. -/
def assign (d : DramT) : List ℕ → Option DramT
  | [] => some d
  | i :: rest =>
      let b := (i + d.prio) % cfg.nbk.toNat
      if (d.bk b).mrq.isSome then assign d rest
      else
        match d.sched.schedule b (d.bk b).currRow with
        | none => none
        | some (none, sched) => assign { d with sched } rest
        | some (some node, sched) =>
            some { d with
              sched
              prio := (d.prio + 1) % cfg.nbk.toNat
              bk := Function.update d.bk b { d.bk b with mrq := some (node.req, 0) } }

/-- `scheduler_frfcfs`. -/
def schedulerFrfcfs (d : DramT) : Option DramT := do
  let d ← d.drain cfg (d.mrqq.cells.length)
  d.assign cfg (List.range cfg.nbk.toNat)

/-- The scheduler that the configuration names. -/
def scheduler (d : DramT) : Option DramT :=
  match cfg.schedulerType with
  | .fifo => some d.schedulerFifo
  | .frfcfs => d.schedulerFrfcfs cfg

/-- The command that bank `j` is ready for. -/
def ready (d : DramT) (j : ℕ) : Option Command :=
  let bank := d.bk j
  let group := d.bkgrp (cfg.grp j)
  match bank.mrq with
  | none => none
  | some (mrq, _) =>
      if d.ccdc = 0 ∧ bank.rcdc = 0 ∧ group.ccdlc = 0 ∧ bank.currRow = mrq.row ∧ mrq.rw = .read ∧
          d.wtrc = 0 ∧ bank.active = true ∧ d.rwq.full = false then
        some ⟨.rd, j, mrq.row⟩
      else if d.ccdc = 0 ∧ bank.rcdwrc = 0 ∧ group.ccdlc = 0 ∧ bank.currRow = mrq.row ∧
          mrq.rw = .write ∧ d.rtwc = 0 ∧ bank.active = true ∧ d.rwq.full = false then
        some ⟨.wr, j, mrq.row⟩
      else if d.rrdc = 0 ∧ bank.active = false ∧ bank.rpc = 0 ∧ bank.rcc = 0 then
        some ⟨.act, j, mrq.row⟩
      else if bank.currRow ≠ mrq.row ∧ bank.active = true ∧ bank.rasc = 0 ∧ bank.wtpc = 0 ∧
          bank.rtpc = 0 ∧ group.rtplc = 0 then
        some ⟨.pre, j, mrq.row⟩
      else none

/-- A read or a write: the burst is queued, and the request leaves its bank with the last one. -/
def transfer (d : DramT) (j : ℕ) (rw : Rw) (len : UInt32) : DramT :=
  match (d.bk j).mrq with
  | none => d
  | some (mrq, txbytes) =>
      let txbytes := txbytes + cfg.dramAtomSize.toNat
      let rwq := if d.rw = rw then d.rwq else d.rwq.setMinLength len.toNat
      { d with
        rw
        rwq := rwq.push (some mrq)
        bk := Function.update d.bk j
          { d.bk j with mrq := if txbytes < mrq.nbytes then some (mrq, txbytes) else none } }

/-- Issue a command. -/
def issue (d : DramT) (c : Command) : DramT :=
  let j := c.bank
  let g := cfg.grp j
  match c.kind with
  | .rd =>
      let d := d.transfer cfg j .read cfg.cl
      { d with
        ccdc := cfg.tCCD.toNat
        rtwc := cfg.tRTW.toNat
        bk := Function.update d.bk j { d.bk j with rtpc := cfg.tRTP.toNat }
        bkgrp := Function.update d.bkgrp g ⟨cfg.tCCDL.toNat, cfg.tRTPL.toNat⟩ }
  | .wr =>
      let d := d.transfer cfg j .write cfg.wl
      { d with
        ccdc := cfg.tCCD.toNat
        wtrc := cfg.tWTR.toNat
        bk := Function.update d.bk j { d.bk j with wtpc := cfg.tWTP.toNat }
        bkgrp := Function.update d.bkgrp g { d.bkgrp g with ccdlc := cfg.tCCDL.toNat } }
  | .act =>
      { d with
        rrdc := cfg.tRRD.toNat
        prio := (j + 1) % cfg.nbk.toNat
        bk := Function.update d.bk j { d.bk j with
          currRow := c.row
          active := true
          rcdc := cfg.tRCD.toNat
          rcdwrc := cfg.tRCDWR.toNat
          rasc := cfg.tRAS.toNat
          rcc := cfg.tRC.toNat } }
  | .pre =>
      { d with
        prio := (j + 1) % cfg.nbk.toNat
        bk := Function.update d.bk j { d.bk j with active := false, rpc := cfg.tRP.toNat } }

/-- The loop over the banks: the first one that is ready gets its command.  (After that `prio` may have
changed, but nothing more is issued.) -/
def select (d : DramT) : Option Command :=
  (List.range cfg.nbk.toNat).findSome? fun i => d.ready cfg ((i + d.prio) % cfg.nbk.toNat)

/-- The counters at the end of `cycle`. -/
def tick (d : DramT) : DramT :=
  { d with
    rrdc := d.rrdc - 1
    ccdc := d.ccdc - 1
    rtwc := d.rtwc - 1
    wtrc := d.wtrc - 1
    bk := fun j => { d.bk j with
      rcdc := (d.bk j).rcdc - 1
      rasc := (d.bk j).rasc - 1
      rcc := (d.bk j).rcc - 1
      rpc := (d.bk j).rpc - 1
      rcdwrc := (d.bk j).rcdwrc - 1
      wtpc := (d.bk j).wtpc - 1
      rtpc := (d.bk j).rtpc - 1 }
    bkgrp := fun g => ⟨(d.bkgrp g).ccdlc - 1, (d.bkgrp g).rtplc - 1⟩ }

/-- The command of a cycle, if there is one, takes effect. -/
def issueOpt (d : DramT) : Option Command → DramT
  | none => d
  | some c => d.issue cfg c

/-- What a cycle has done. -/
structure Done where
  command : Option Command
  writeBack : Option MemFetch

/-- `cycle`; `none` where the scheduler aborts. -/
def cycle (d : DramT) : Option (Done × DramT) := do
  let (writeBack, d) := d.returnData cfg
  let d ← d.scheduler cfg
  let command := d.select cfg
  pure (⟨command, writeBack⟩, (d.issueOpt cfg command).tick)

end DramT

/-- A cycle, part by part. -/
theorem cycle_spec {cfg : MemoryConfig} {d d' : DramT} {done : DramT.Done}
    (h : d.cycle cfg = some (done, d')) :
    ∃ d₂, (d.returnData cfg).2.scheduler cfg = some d₂ ∧
      done = ⟨d₂.select cfg, (d.returnData cfg).1⟩ ∧ d' = (d₂.issueOpt cfg (d₂.select cfg)).tick := by
  obtain ⟨d₂, hsched, hd'⟩ := Option.bind_eq_some_iff.1 h
  obtain ⟨hdone, hd'⟩ := Prod.mk.inj (Option.some.inj hd')
  exact ⟨d₂, hsched, hdone.symm, hd'.symm⟩

end CompressionWork.Dram
