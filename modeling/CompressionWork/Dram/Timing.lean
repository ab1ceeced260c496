import CompressionWork.Dram.Channel
import CompressionWork.Transition.Loop
import Mathlib.Data.Nat.Bits

/-!
# The commands of a channel keep their distances

* `Timed`, `run` — the channel with a clock and the log of its commands, newest first.
* `Counter`, `sets`, `awaits` — each counter, the commands that set it, and those that wait for it.
* `Kept` — a counter that has not run out still covers the distance to every command that set it.
* `run_respects` — every run keeps the distances, when the banks of a group use the same counters.
* `not_respects` — twelve banks in two groups.
-/

namespace CompressionWork.Dram

open Transition

/-! ## Runs -/

/-- What happens to a channel: a request is pushed, a return is taken, or the clock ticks. -/
inductive Event
  | push (data : MemFetch)
  | returnQueuePop
  | cycle

/-- A channel with the time and the commands it has issued, the latest first. -/
structure Timed where
  dram : DramT
  now : ℕ := 0
  log : List (ℕ × Command) := []

namespace Timed

variable (cfg : MemoryConfig)

/-- The channel after an event. -/
def exec (s : Timed) : Event → Option Timed
  | .push data => some { s with dram := s.dram.push data }
  | .returnQueuePop => some { s with dram := { s.dram with returnq := s.dram.returnq.pop.2 } }
  | .cycle => do
      let (done, dram) ← s.dram.cycle cfg
      pure ⟨dram, s.now + 1, (done.command.toList.map fun c => (s.now, c)) ++ s.log⟩

/-- The channel after a run of events. -/
def run (events : List Event) : Option Timed := events.foldlM (exec cfg) { dram := .new cfg }

end Timed

/-! ## What is asked for -/

/-- Commands so related are at least `gap` cycles apart. -/
def Apart (log : List (ℕ × Command)) (gap : UInt32) (related : Command → Command → Prop) : Prop :=
  log.Pairwise fun later earlier => related earlier.2 later.2 → earlier.1 + gap.toNat ≤ later.1

/-- A read or a write. -/
def Command.IsColumn (c : Command) : Prop := c.kind = .rd ∨ c.kind = .wr

/-- The open row of a bank, told from its commands. -/
def openRow (j : ℕ) : List (ℕ × Command) → Option ℕ
  | [] => none
  | (_, c) :: log =>
      if c.bank = j then
        match c.kind with
        | .act => some c.row
        | .pre => none
        | .rd => openRow j log
        | .wr => openRow j log
      else openRow j log

/-- Reads and writes go to the open row of their bank. -/
def RowsOpen : List (ℕ × Command) → Prop
  | [] => True
  | (_, c) :: log => (c.IsColumn → openRow c.bank log = some c.row) ∧ RowsOpen log

/-- The commands keep every distance that the timing parameters ask for. -/
structure Respects (cfg : MemoryConfig) (log : List (ℕ × Command)) : Prop where
  onePerCycle : log.Pairwise fun later earlier => earlier.1 < later.1
  rrd : Apart log cfg.tRRD fun e l => e.kind = .act ∧ l.kind = .act
  rc : Apart log cfg.tRC fun e l => e.kind = .act ∧ l.kind = .act ∧ e.bank = l.bank
  rcd : Apart log cfg.tRCD fun e l => e.kind = .act ∧ l.kind = .rd ∧ e.bank = l.bank
  rcdwr : Apart log cfg.tRCDWR fun e l => e.kind = .act ∧ l.kind = .wr ∧ e.bank = l.bank
  ccd : Apart log cfg.tCCD fun e l => e.IsColumn ∧ l.IsColumn
  ccdl : Apart log cfg.tCCDL fun e l =>
    e.IsColumn ∧ l.IsColumn ∧ cfg.bkgrpindex e.bank = cfg.bkgrpindex l.bank
  rtw : Apart log cfg.tRTW fun e l => e.kind = .rd ∧ l.kind = .wr
  wtr : Apart log cfg.tWTR fun e l => e.kind = .wr ∧ l.kind = .rd
  ras : Apart log cfg.tRAS fun e l => e.kind = .act ∧ l.kind = .pre ∧ e.bank = l.bank
  wtp : Apart log cfg.tWTP fun e l => e.kind = .wr ∧ l.kind = .pre ∧ e.bank = l.bank
  rp : Apart log cfg.tRP fun e l => e.kind = .pre ∧ l.kind = .act ∧ e.bank = l.bank
  rows : RowsOpen log

/-- The banks of one group use the counters of one group. -/
def MemoryConfig.TagsAgree (cfg : MemoryConfig) : Prop :=
  ∀ i < cfg.nbk.toNat, ∀ j < cfg.nbk.toNat, cfg.bkgrpindex i = cfg.bkgrpindex j → cfg.grp i = cfg.grp j

/-! ## Counters -/

/-- The counters that a cycle lowers. -/
inductive Counter
  | rrd
  | ccd
  | rtw
  | wtr
  | rcd (j : ℕ)
  | rcdwr (j : ℕ)
  | ras (j : ℕ)
  | rc (j : ℕ)
  | rp (j : ℕ)
  | wtp (j : ℕ)
  | rtp (j : ℕ)
  | ccdl (g : ℕ)
  | rtpl (g : ℕ)

/-- The value of a counter. -/
def DramT.counter (d : DramT) : Counter → ℕ
  | .rrd => d.rrdc
  | .ccd => d.ccdc
  | .rtw => d.rtwc
  | .wtr => d.wtrc
  | .rcd j => (d.bk j).rcdc
  | .rcdwr j => (d.bk j).rcdwrc
  | .ras j => (d.bk j).rasc
  | .rc j => (d.bk j).rcc
  | .rp j => (d.bk j).rpc
  | .wtp j => (d.bk j).wtpc
  | .rtp j => (d.bk j).rtpc
  | .ccdl g => (d.bkgrp g).ccdlc
  | .rtpl g => (d.bkgrp g).rtplc

namespace Counter

variable (cfg : MemoryConfig)

/-- The distance that a counter keeps. -/
def gap : Counter → UInt32
  | .rrd => cfg.tRRD
  | .ccd => cfg.tCCD
  | .rtw => cfg.tRTW
  | .wtr => cfg.tWTR
  | .rcd _ => cfg.tRCD
  | .rcdwr _ => cfg.tRCDWR
  | .ras _ => cfg.tRAS
  | .rc _ => cfg.tRC
  | .rp _ => cfg.tRP
  | .wtp _ => cfg.tWTP
  | .rtp _ => cfg.tRTP
  | .ccdl _ => cfg.tCCDL
  | .rtpl _ => cfg.tRTPL

/-- The commands that set a counter. -/
def Sets (c : Command) : Counter → Prop
  | .rrd => c.kind = .act
  | .ccd => c.IsColumn
  | .rtw => c.kind = .rd
  | .wtr => c.kind = .wr
  | .rcd j | .rcdwr j | .ras j | .rc j => c.kind = .act ∧ c.bank = j
  | .rp j => c.kind = .pre ∧ c.bank = j
  | .wtp j => c.kind = .wr ∧ c.bank = j
  | .rtp j => c.kind = .rd ∧ c.bank = j
  | .ccdl g => c.IsColumn ∧ cfg.grp c.bank = g
  | .rtpl g => c.kind = .rd ∧ cfg.grp c.bank = g

/-- The commands that wait for a counter. -/
def Awaits (c : Command) : Counter → Prop
  | .rrd => c.kind = .act
  | .ccd => c.IsColumn
  | .rtw => c.kind = .wr
  | .wtr => c.kind = .rd
  | .rcd j => c.kind = .rd ∧ c.bank = j
  | .rcdwr j => c.kind = .wr ∧ c.bank = j
  | .rc j | .rp j => c.kind = .act ∧ c.bank = j
  | .ras j | .wtp j | .rtp j => c.kind = .pre ∧ c.bank = j
  | .ccdl g => c.IsColumn ∧ cfg.grp c.bank = g
  | .rtpl g => c.kind = .pre ∧ cfg.grp c.bank = g

end Counter

variable {cfg : MemoryConfig} {d d' : DramT} {c : Command}

/-- The counters and the open rows stay. -/
structure SameTiming (d d' : DramT) : Prop where
  counter : ∀ k, d'.counter k = d.counter k
  active : ∀ j, (d'.bk j).active = (d.bk j).active
  currRow : ∀ j, (d'.bk j).currRow = (d.bk j).currRow

theorem SameTiming.refl (d : DramT) : SameTiming d d := ⟨fun _ => rfl, fun _ => rfl, fun _ => rfl⟩

theorem SameTiming.trans {d'' : DramT} (h : SameTiming d d') (h' : SameTiming d' d'') :
    SameTiming d d'' :=
  ⟨fun k => (h'.counter k).trans (h.counter k), fun j => (h'.active j).trans (h.active j),
    fun j => (h'.currRow j).trans (h.currRow j)⟩

/-- Only the request of a bank changes. -/
theorem sameTiming_mrq (d : DramT) (j : ℕ) (mrq : Option (DramReq × ℕ)) :
    SameTiming d { d with bk := Function.update d.bk j { d.bk j with mrq } } := by
  refine ⟨fun k => ?_, fun i => ?_, fun i => ?_⟩
  · cases k with
    | rcd i | rcdwr i | ras i | rc i | rp i | wtp i | rtp i =>
      by_cases hi : i = j
      · subst hi
        simp [DramT.counter]
      · simp [DramT.counter, Function.update_of_ne hi]
    | _ => rfl
  · by_cases hi : i = j
    · subst hi
      simp
    · simp [Function.update_of_ne hi]
  · by_cases hi : i = j
    · subst hi
      simp
    · simp [Function.update_of_ne hi]

/-- A channel with the same banks and counters. -/
theorem sameTiming_of_eq (hbk : d'.bk = d.bk) (hgrp : d'.bkgrp = d.bkgrp) (hrrd : d'.rrdc = d.rrdc)
    (hccd : d'.ccdc = d.ccdc) (hrtw : d'.rtwc = d.rtwc) (hwtr : d'.wtrc = d.wtrc) : SameTiming d d' := by
  refine ⟨fun k => ?_, fun j => by rw [hbk], fun j => by rw [hbk]⟩
  cases k <;> simp [DramT.counter, hbk, hgrp, hrrd, hccd, hrtw, hwtr]

/-! ## The parts of a cycle -/

theorem sameTiming_returnData (d : DramT) : SameTiming d (d.returnData cfg).2 := by
  unfold DramT.returnData
  split_ifs
  · exact .refl d
  · split
    · exact sameTiming_of_eq rfl rfl rfl rfl rfl rfl
    · dsimp only
      split_ifs <;> exact sameTiming_of_eq rfl rfl rfl rfl rfl rfl

theorem sameTiming_drain {fuel : ℕ} (h : d.drain cfg fuel = some d') : SameTiming d d' := by
  induction fuel generalizing d with
  | zero =>
    obtain rfl := Option.some.inj h
    exact .refl d
  | succ fuel ih =>
    unfold DramT.drain at h
    split_ifs at h
    · split at h
      · refine SameTiming.trans ?_ (ih h)
        exact sameTiming_of_eq rfl rfl rfl rfl rfl rfl
      · exact absurd h nofun
    · obtain rfl := Option.some.inj h
      exact .refl d

theorem sameTiming_assign {banks : List ℕ} (h : d.assign cfg banks = some d') : SameTiming d d' := by
  induction banks generalizing d with
  | nil =>
    obtain rfl := Option.some.inj h
    exact .refl d
  | cons i rest ih =>
    unfold DramT.assign at h
    dsimp only at h
    split_ifs at h
    · exact ih h
    · split at h
      · exact absurd h nofun
      · refine SameTiming.trans ?_ (ih h)
        exact sameTiming_of_eq rfl rfl rfl rfl rfl rfl
      · obtain rfl := Option.some.inj h
        exact (sameTiming_mrq d _ _).trans (sameTiming_of_eq rfl rfl rfl rfl rfl rfl)

theorem sameTiming_scheduler (h : d.scheduler cfg = some d') : SameTiming d d' := by
  unfold DramT.scheduler at h
  split at h
  · obtain rfl := Option.some.inj h
    unfold DramT.schedulerFifo
    split
    · exact .refl d
    · split_ifs
      · exact .refl d
      · exact (sameTiming_mrq d _ _).trans (sameTiming_of_eq rfl rfl rfl rfl rfl rfl)
  · unfold DramT.schedulerFrfcfs at h
    obtain ⟨d₁, hdrain, hassign⟩ := Option.bind_eq_some_iff.1 h
    exact (sameTiming_drain hdrain).trans (sameTiming_assign hassign)

theorem sameTiming_transfer (d : DramT) (j : ℕ) (rw : Rw) (len : UInt32) :
    SameTiming d (d.transfer cfg j rw len) := by
  unfold DramT.transfer
  split
  · exact .refl d
  · exact (sameTiming_mrq d j _).trans (sameTiming_of_eq rfl rfl rfl rfl rfl rfl)

/-- A read sets its counters and leaves the others. -/
theorem counter_issue_rd (d : DramT) (j row : ℕ) (k : Counter) :
    (k.Sets cfg ⟨.rd, j, row⟩ ∧ (d.issue cfg ⟨.rd, j, row⟩).counter k = (k.gap cfg).toNat) ∨
      (¬ k.Sets cfg ⟨.rd, j, row⟩ ∧ (d.issue cfg ⟨.rd, j, row⟩).counter k = d.counter k) := by
  -- the counters are those after the transfer, which may be any channel
  rw [← (sameTiming_transfer d j .read cfg.cl).counter k]
  dsimp only [DramT.issue]
  generalize d.transfer cfg j .read cfg.cl = d₁
  cases k with
  | rcd i | rcdwr i | ras i | rc i | rp i | wtp i | rtp i =>
    by_cases hi : i = j
    · subst hi
      simp [Counter.Sets, DramT.counter, Counter.gap]
    · simp [Counter.Sets, DramT.counter, Function.update_of_ne hi, Ne.symm hi]
  | ccdl g | rtpl g =>
    by_cases hg : g = cfg.grp j
    · subst hg
      simp [Counter.Sets, Command.IsColumn, DramT.counter, Counter.gap]
    · simp [Counter.Sets, Command.IsColumn, DramT.counter, Function.update_of_ne hg, Ne.symm hg]
  | _ => simp [Counter.Sets, Command.IsColumn, DramT.counter, Counter.gap]

/-- A write sets its counters and leaves the others. -/
theorem counter_issue_wr (d : DramT) (j row : ℕ) (k : Counter) :
    (k.Sets cfg ⟨.wr, j, row⟩ ∧ (d.issue cfg ⟨.wr, j, row⟩).counter k = (k.gap cfg).toNat) ∨
      (¬ k.Sets cfg ⟨.wr, j, row⟩ ∧ (d.issue cfg ⟨.wr, j, row⟩).counter k = d.counter k) := by
  rw [← (sameTiming_transfer d j .write cfg.wl).counter k]
  dsimp only [DramT.issue]
  generalize d.transfer cfg j .write cfg.wl = d₁
  cases k with
  | rcd i | rcdwr i | ras i | rc i | rp i | wtp i | rtp i =>
    by_cases hi : i = j
    · subst hi
      simp [Counter.Sets, DramT.counter, Counter.gap]
    · simp [Counter.Sets, DramT.counter, Function.update_of_ne hi, Ne.symm hi]
  | ccdl g | rtpl g =>
    by_cases hg : g = cfg.grp j
    · subst hg
      simp [Counter.Sets, Command.IsColumn, DramT.counter, Counter.gap]
    · simp [Counter.Sets, Command.IsColumn, DramT.counter, Function.update_of_ne hg, Ne.symm hg]
  | _ => simp [Counter.Sets, Command.IsColumn, DramT.counter, Counter.gap]

/-- An activation sets its counters and leaves the others. -/
theorem counter_issue_act (d : DramT) (j row : ℕ) (k : Counter) :
    (k.Sets cfg ⟨.act, j, row⟩ ∧ (d.issue cfg ⟨.act, j, row⟩).counter k = (k.gap cfg).toNat) ∨
      (¬ k.Sets cfg ⟨.act, j, row⟩ ∧ (d.issue cfg ⟨.act, j, row⟩).counter k = d.counter k) := by
  cases k with
  | rcd i | rcdwr i | ras i | rc i | rp i | wtp i | rtp i =>
    by_cases hi : i = j
    · subst hi
      simp [Counter.Sets, DramT.issue, DramT.counter, Counter.gap]
    · simp [Counter.Sets, DramT.issue, DramT.counter, Function.update_of_ne hi, Ne.symm hi]
  | _ => simp [Counter.Sets, Command.IsColumn, DramT.issue, DramT.counter, Counter.gap]

/-- A precharge sets its counters and leaves the others. -/
theorem counter_issue_pre (d : DramT) (j row : ℕ) (k : Counter) :
    (k.Sets cfg ⟨.pre, j, row⟩ ∧ (d.issue cfg ⟨.pre, j, row⟩).counter k = (k.gap cfg).toNat) ∨
      (¬ k.Sets cfg ⟨.pre, j, row⟩ ∧ (d.issue cfg ⟨.pre, j, row⟩).counter k = d.counter k) := by
  cases k with
  | rcd i | rcdwr i | ras i | rc i | rp i | wtp i | rtp i =>
    by_cases hi : i = j
    · subst hi
      simp [Counter.Sets, DramT.issue, DramT.counter, Counter.gap]
    · simp [Counter.Sets, DramT.issue, DramT.counter, Function.update_of_ne hi, Ne.symm hi]
  | _ => simp [Counter.Sets, Command.IsColumn, DramT.issue, DramT.counter]

/-- **A command** sets its counters and leaves the others. -/
theorem counter_issue (d : DramT) (c : Command) (k : Counter) :
    (k.Sets cfg c ∧ (d.issue cfg c).counter k = (k.gap cfg).toNat) ∨
      (¬ k.Sets cfg c ∧ (d.issue cfg c).counter k = d.counter k) := by
  obtain ⟨kind, j, row⟩ := c
  cases kind with
  | rd => exact counter_issue_rd d j row k
  | wr => exact counter_issue_wr d j row k
  | act => exact counter_issue_act d j row k
  | pre => exact counter_issue_pre d j row k

theorem counter_tick (d : DramT) (k : Counter) : d.tick.counter k = d.counter k - 1 := by
  cases k <;> rfl

/-! ## The command of a cycle -/

/-- A command is ready when the counters it waits for have run out. -/
theorem ready_spec {j : ℕ} (h : d.ready cfg j = some c) :
    c.bank = j ∧ (∀ k : Counter, k.Awaits cfg c → d.counter k = 0) ∧
      (c.IsColumn → (d.bk j).active = true ∧ (d.bk j).currRow = c.row) := by
  unfold DramT.ready at h
  dsimp only at h
  split at h
  · exact absurd h nofun
  · split_ifs at h with hrd hwr hact hpre
    all_goals
      obtain rfl := Option.some.inj h
      refine ⟨rfl, fun k hk => ?_, fun hcol => ?_⟩
    · cases k <;> simp_all [Counter.Awaits, DramT.counter]
    · exact ⟨hrd.2.2.2.2.2.2.1, hrd.2.2.2.1⟩
    · cases k <;> simp_all [Counter.Awaits, DramT.counter]
    · exact ⟨hwr.2.2.2.2.2.2.1, hwr.2.2.2.1⟩
    · cases k <;> simp_all [Counter.Awaits, Command.IsColumn, DramT.counter]
    · exact absurd hcol (by simp [Command.IsColumn])
    · cases k <;> simp_all [Counter.Awaits, Command.IsColumn, DramT.counter]
    · exact absurd hcol (by simp [Command.IsColumn])

theorem select_spec (h : d.select cfg = some c) :
    c.bank < cfg.nbk.toNat ∧ (∀ k : Counter, k.Awaits cfg c → d.counter k = 0) ∧
      (c.IsColumn → (d.bk c.bank).active = true ∧ (d.bk c.bank).currRow = c.row) := by
  obtain ⟨i, hi, hready⟩ := List.exists_of_findSome?_eq_some h
  obtain ⟨hbank, hawaits, hrow⟩ := ready_spec hready
  have hpos : 0 < cfg.nbk.toNat := Nat.zero_lt_of_lt (List.mem_range.1 hi)
  refine ⟨?_, hawaits, ?_⟩
  · rw [hbank]
    exact Nat.mod_lt _ hpos
  · rw [hbank]
    exact hrow

/-- The open row of a bank. -/
def DramT.openNow (d : DramT) (j : ℕ) : Option ℕ :=
  if (d.bk j).active then some (d.bk j).currRow else none

theorem SameTiming.openNow (h : SameTiming d d') (j : ℕ) : d'.openNow j = d.openNow j := by
  rw [DramT.openNow, h.active, h.currRow]
  rfl

theorem openNow_tick (d : DramT) (j : ℕ) : d.tick.openNow j = d.openNow j := rfl

/-- Reads and writes leave the rows open. -/
theorem openNow_issue_column (d : DramT) (hcol : c.IsColumn) (j : ℕ) :
    (d.issue cfg c).openNow j = d.openNow j := by
  obtain ⟨kind, i, row⟩ := c
  rcases hcol with hkind | hkind
  · obtain rfl : kind = .rd := hkind
    have hsame : (d.transfer cfg i .read cfg.cl).openNow j = d.openNow j :=
      (sameTiming_transfer d i .read cfg.cl).openNow j
    rw [← hsame]
    by_cases hji : j = i
    · subst hji
      simp [DramT.issue, DramT.openNow]
    · simp [DramT.issue, DramT.openNow, Function.update_of_ne hji]
  · obtain rfl : kind = .wr := hkind
    have hsame : (d.transfer cfg i .write cfg.wl).openNow j = d.openNow j :=
      (sameTiming_transfer d i .write cfg.wl).openNow j
    rw [← hsame]
    by_cases hji : j = i
    · subst hji
      simp [DramT.issue, DramT.openNow]
    · simp [DramT.issue, DramT.openNow, Function.update_of_ne hji]

/-- The log and the bank agree on what a command opens and closes. -/
theorem openRow_issue {log : List (ℕ × Command)} (h : ∀ j, openRow j log = d.openNow j) (t j : ℕ) :
    openRow j ((t, c) :: log) = (d.issue cfg c).openNow j := by
  by_cases hcol : c.IsColumn
  · rw [openNow_issue_column d hcol, ← h, openRow]
    rcases hcol with hkind | hkind <;> rw [hkind] <;> simp
  · obtain ⟨kind, i, row⟩ := c
    by_cases hij : i = j
    · subst hij
      cases kind with
      | rd => exact absurd (Or.inl rfl) hcol
      | wr => exact absurd (Or.inr rfl) hcol
      | act => simp [openRow, DramT.issue, DramT.openNow]
      | pre => simp [openRow, DramT.issue, DramT.openNow]
    · have hji : j ≠ i := Ne.symm hij
      rw [openRow, if_neg hij, h]
      cases kind with
      | rd => exact absurd (Or.inl rfl) hcol
      | wr => exact absurd (Or.inr rfl) hcol
      | act => simp [DramT.issue, DramT.openNow, Function.update_of_ne hji]
      | pre => simp [DramT.issue, DramT.openNow, Function.update_of_ne hji]

/-! ## Every run -/

/-- What every cycle keeps. -/
structure Kept (cfg : MemoryConfig) (s : Timed) : Prop where
  /-- A counter covers the distance to every command that set it. -/
  waits : ∀ e ∈ s.log, ∀ k : Counter, k.Sets cfg e.2 → e.1 + (k.gap cfg).toNat ≤ s.now + s.dram.counter k
  past : ∀ e ∈ s.log, e.1 < s.now
  inBanks : ∀ e ∈ s.log, e.2.bank < cfg.nbk.toNat
  openRow : ∀ j, openRow j s.log = s.dram.openNow j
  rowsOpen : RowsOpen s.log
  spaced : s.log.Pairwise fun later earlier => earlier.1 < later.1 ∧
    ∀ k : Counter, k.Sets cfg earlier.2 → k.Awaits cfg later.2 → earlier.1 + (k.gap cfg).toNat ≤ later.1

theorem Kept.of_sameTiming {s : Timed} (h : Kept cfg s) (hsame : SameTiming s.dram d) :
    Kept cfg { s with dram := d } where
  waits e he k hk := by
    rw [hsame.counter]
    exact h.waits e he k hk
  past := h.past
  inBanks := h.inBanks
  openRow j := by
    rw [hsame.openNow]
    exact h.openRow j
  rowsOpen := h.rowsOpen
  spaced := h.spaced

theorem kept_idle {s : Timed} (h : Kept cfg s) : Kept cfg ⟨s.dram.tick, s.now + 1, s.log⟩ where
  waits e he k hk := by
    have hwaits := h.waits e he k hk
    dsimp only
    rw [counter_tick]
    omega
  past e he := Nat.lt_succ_of_lt (h.past e he)
  inBanks := h.inBanks
  openRow j := by
    rw [openNow_tick]
    exact h.openRow j
  rowsOpen := h.rowsOpen
  spaced := h.spaced

theorem kept_issue {s : Timed} (h : Kept cfg s) (hselect : s.dram.select cfg = some c) :
    Kept cfg ⟨(s.dram.issue cfg c).tick, s.now + 1, (s.now, c) :: s.log⟩ := by
  obtain ⟨hbank, hawaits, hrow⟩ := select_spec hselect
  constructor
  · intro e he k hk
    dsimp only
    rw [counter_tick]
    rcases List.mem_cons.1 he with rfl | he
    · rcases counter_issue s.dram c k with ⟨-, hset⟩ | ⟨hnot, -⟩
      · rw [hset]
        dsimp only
        omega
      · exact absurd hk hnot
    · have hwaits := h.waits e he k hk
      rcases counter_issue s.dram c k with ⟨-, hset⟩ | ⟨-, hkeep⟩
      · -- the command sets the counter again
        have hpast := h.past e he
        rw [hset]
        omega
      · rw [hkeep]
        omega
  · intro e he
    rcases List.mem_cons.1 he with rfl | he
    · exact Nat.lt_succ_self _
    · exact Nat.lt_succ_of_lt (h.past e he)
  · intro e he
    rcases List.mem_cons.1 he with rfl | he
    · exact hbank
    · exact h.inBanks e he
  · intro j
    rw [openNow_tick]
    exact openRow_issue h.openRow s.now j
  · refine ⟨fun hcol => ?_, h.rowsOpen⟩
    obtain ⟨hactive, hcurr⟩ := hrow hcol
    rw [h.openRow, DramT.openNow, if_pos hactive, hcurr]
  · refine List.pairwise_cons.2 ⟨fun e he => ⟨h.past e he, fun k hsets hk => ?_⟩, h.spaced⟩
    have hwaits := h.waits e he k hsets
    rw [hawaits k hk] at hwaits
    exact hwaits

theorem kept_exec {s s' : Timed} {e : Event} (h : Kept cfg s) (hexec : s.exec cfg e = some s') :
    Kept cfg s' := by
  cases e with
  | push data =>
    obtain rfl := Option.some.inj hexec
    exact h.of_sameTiming (sameTiming_of_eq rfl rfl rfl rfl rfl rfl)
  | returnQueuePop =>
    obtain rfl := Option.some.inj hexec
    exact h.of_sameTiming (sameTiming_of_eq rfl rfl rfl rfl rfl rfl)
  | cycle =>
    obtain ⟨⟨done, d⟩, hcycle, hs'⟩ := Option.bind_eq_some_iff.1 hexec
    obtain rfl := Option.some.inj hs'
    obtain ⟨d₁, hsched, rfl, rfl⟩ := cycle_spec hcycle
    have hsame : SameTiming s.dram d₁ := (sameTiming_returnData s.dram).trans (sameTiming_scheduler hsched)
    have h₁ := h.of_sameTiming hsame
    dsimp only
    cases hselect : d₁.select cfg with
    | none => exact kept_idle h₁
    | some c => exact kept_issue h₁ hselect

theorem kept_new : Kept cfg { dram := .new cfg } where
  waits _ he := absurd he List.not_mem_nil
  past _ he := absurd he List.not_mem_nil
  inBanks _ he := absurd he List.not_mem_nil
  openRow _ := rfl
  rowsOpen := trivial
  spaced := List.Pairwise.nil

theorem Kept.apart {s : Timed} {related : Command → Command → Prop} (h : Kept cfg s)
    (k : Command → Counter) {gap : UInt32} (hgap : ∀ c, (k c).gap cfg = gap)
    (hk : ∀ e l, e.bank < cfg.nbk.toNat → l.bank < cfg.nbk.toNat → related e l →
      (k l).Sets cfg e ∧ (k l).Awaits cfg l) :
    Apart s.log gap related := by
  refine h.spaced.imp_of_mem fun {l e} hl he hspaced hrel => ?_
  obtain ⟨hsets, hawaits⟩ := hk e.2 l.2 (h.inBanks e he) (h.inBanks l hl) hrel
  rw [← hgap l.2]
  exact hspaced.2 _ hsets hawaits

/-- Twelve banks in two groups. -/
def twelveBanks : MemoryConfig where
  nbk := 12
  nbkgrp := 2
  tCCD := 1
  tRRD := 1
  tRCD := 4
  tRAS := 8
  tRP := 4
  tRC := 12
  tCCDL := 10
  tRTPL := 1
  tCDLR := 1
  tWR := 2
  cl := 2
  wl := 1
  bl := 4
  busW := 4
  nMemPerCtrlr := 1
  dataCommandFreqRatio := 2
  schedulerType := .fifo
  frfcfsDramSchedQueueSize := 0
  dramReturnQueueSize := 0
  nSubPartitionPerMemoryChannel := 2

theorem tagLength_pow {n fuel : ℕ} (h : n < fuel) : MemoryConfig.tagLength fuel (2 ^ n) = n + 1 := by
  induction n generalizing fuel with
  | zero =>
    obtain ⟨fuel, rfl⟩ := Nat.exists_eq_add_one_of_ne_zero (Nat.ne_zero_of_lt h)
    cases fuel <;> rfl
  | succ n ih =>
    obtain ⟨fuel, rfl⟩ := Nat.exists_eq_add_one_of_ne_zero (Nat.ne_zero_of_lt h)
    have hhalf : 2 ^ (n + 1) / 2 = 2 ^ n := by rw [pow_succ, Nat.mul_div_cancel _ Nat.two_pos]
    rw [MemoryConfig.tagLength, if_pos (Nat.two_pow_pos _), hhalf, ih (Nat.lt_of_succ_lt_succ h)]

/-- Groups of a power of two banks agree. -/
theorem tagsAgree_of_pow {n : ℕ} (hn : n < 31) (h : cfg.banksPerGroup = 2 ^ n) : cfg.TagsAgree := by
  have hlt : 2 ^ n < 2 ^ 31 := Nat.pow_lt_pow_right Nat.one_lt_two hn
  have hlen : cfg.bkTagLength = n + 1 := by
    rw [MemoryConfig.bkTagLength, h, if_pos hlt, tagLength_pow (hn.trans (Nat.lt_succ_self 31))]
  intro i _ j _ hij
  rw [MemoryConfig.bkgrpindex, MemoryConfig.bkgrpindex, h] at hij
  rw [MemoryConfig.grp, MemoryConfig.grp, hlen, Nat.shiftRight_eq_div_pow, Nat.shiftRight_eq_div_pow,
    pow_succ, ← Nat.div_div_eq_div_mul, ← Nat.div_div_eq_div_mul, hij]

/-- **Every run** keeps the distances, when the banks of a group use the same counters. -/
theorem run_respects {events : List Event} {s : Timed} (hagree : cfg.TagsAgree)
    (h : Timed.run cfg events = some s) : Respects cfg s.log := by
  have hkept : Kept cfg s := foldlM_keeps (Kept cfg) h kept_new fun _ _ _ => kept_exec
  exact {
    onePerCycle := hkept.spaced.imp And.left
    rrd := hkept.apart (fun _ => .rrd) (fun _ => rfl) fun _ _ _ _ h => h
    rc := hkept.apart (fun c => .rc c.bank) (fun _ => rfl) fun _ _ _ _ h => ⟨⟨h.1, h.2.2⟩, h.2.1, rfl⟩
    rcd := hkept.apart (fun c => .rcd c.bank) (fun _ => rfl) fun _ _ _ _ h => ⟨⟨h.1, h.2.2⟩, h.2.1, rfl⟩
    rcdwr := hkept.apart (fun c => .rcdwr c.bank) (fun _ => rfl) fun _ _ _ _ h =>
      ⟨⟨h.1, h.2.2⟩, h.2.1, rfl⟩
    ccd := hkept.apart (fun _ => .ccd) (fun _ => rfl) fun _ _ _ _ h => h
    ccdl := hkept.apart (fun c => .ccdl (cfg.grp c.bank)) (fun _ => rfl) fun _ _ he hl h =>
      ⟨⟨h.1, hagree _ he _ hl h.2.2⟩, h.2.1, rfl⟩
    rtw := hkept.apart (fun _ => .rtw) (fun _ => rfl) fun _ _ _ _ h => h
    wtr := hkept.apart (fun _ => .wtr) (fun _ => rfl) fun _ _ _ _ h => h
    ras := hkept.apart (fun c => .ras c.bank) (fun _ => rfl) fun _ _ _ _ h => ⟨⟨h.1, h.2.2⟩, h.2.1, rfl⟩
    wtp := hkept.apart (fun c => .wtp c.bank) (fun _ => rfl) fun _ _ _ _ h => ⟨⟨h.1, h.2.2⟩, h.2.1, rfl⟩
    rp := hkept.apart (fun c => .rp c.bank) (fun _ => rfl) fun _ _ _ _ h => ⟨⟨h.1, h.2.2⟩, h.2.1, rfl⟩
    rows := hkept.rowsOpen }

/-- A read and a write of two banks of one group, and a read of another row of the first bank. -/
def rowConflict : List Event :=
  [.push ⟨0, false, .globalAccR, 16, 0, 0, 0⟩, .push ⟨1, true, .globalAccW, 16, 1, 0, 0⟩,
    .push ⟨2, false, .globalAccR, 16, 0, 1, 0⟩] ++ List.replicate 24 .cycle

/-- In a channel with groups of two banks. -/
theorem run_respects_rowConflict : ∃ s, Timed.run { twelveBanks with nbk := 4 } rowConflict = some s ∧
    s.log = [(23, ⟨.rd, 0, 1⟩), (19, ⟨.act, 0, 1⟩), (15, ⟨.pre, 0, 1⟩), (13, ⟨.rd, 0, 0⟩), (3, ⟨.wr, 1, 0⟩),
      (1, ⟨.act, 1, 0⟩), (0, ⟨.act, 0, 0⟩)] ∧ Respects { twelveBanks with nbk := 4 } s.log := by
  have hlog : (Timed.run { twelveBanks with nbk := 4 } rowConflict).map (·.log) =
      some [(23, ⟨.rd, 0, 1⟩), (19, ⟨.act, 0, 1⟩), (15, ⟨.pre, 0, 1⟩), (13, ⟨.rd, 0, 0⟩), (3, ⟨.wr, 1, 0⟩),
        (1, ⟨.act, 1, 0⟩), (0, ⟨.act, 0, 0⟩)] := by decide +kernel
  obtain ⟨s, hs, hcommands⟩ := Option.map_eq_some_iff.1 hlog
  refine ⟨s, hs, hcommands, run_respects ?_ hs⟩
  exact tagsAgree_of_pow (n := 1) (by decide) (by decide)

/-- Reads of banks 7 and 8. -/
def twoReads : List Event :=
  [.push ⟨0, false, .globalAccR, 16, 7, 0, 0⟩, .push ⟨1, false, .globalAccR, 16, 8, 0, 1⟩,
    .cycle, .cycle, .cycle, .cycle, .cycle, .cycle, .cycle]

theorem log_twoReads : (Timed.run twelveBanks twoReads).map (·.log) =
    some [(5, ⟨.rd, 8, 0⟩), (4, ⟨.rd, 7, 0⟩), (1, ⟨.act, 8, 0⟩), (0, ⟨.act, 7, 0⟩)] := by
  decide +kernel

/-- Banks 7 and 8 are in one group, and they are read one cycle apart. -/
theorem not_respects : twelveBanks.Accepted ∧ ∃ s, Timed.run twelveBanks twoReads = some s ∧
    ¬ Respects twelveBanks s.log := by
  refine ⟨by unfold MemoryConfig.Accepted; decide, ?_⟩
  obtain ⟨s, hs, hlog⟩ := Option.map_eq_some_iff.1 log_twoReads
  refine ⟨s, hs, fun h => ?_⟩
  have hccdl := h.ccdl
  rw [hlog, Apart, List.pairwise_cons] at hccdl
  have hgap := hccdl.1 (4, ⟨.rd, 7, 0⟩) List.mem_cons_self ⟨Or.inl rfl, Or.inl rfl, by decide⟩
  exact absurd hgap (by decide)

end CompressionWork.Dram
