import CompressionWork.Dram.Credits

/-!
# The credit limit of a memory partition

* `AtMost` — the shared credits in use keep to their limit, as every cycle does.
* `outstanding_le` — a limit that is not taken for "no limit" bounds the requests in flight.
* `hasCredits_of_idle` — a sub-partition without a request in flight has a credit of its own.
-/

namespace CompressionWork.Dram

open Transition

variable {cfg : PartitionConfig} {s s' : Partition} {a a' : Arbitration} {spid : ℕ} {limit : ℤ}

/-- A sequence of two parts that did not abort. -/
theorem except_bind_ok {ε β γ : Type} {x : Except ε β} {f : β → Except ε γ} {c : γ}
    (h : (x >>= f) = .ok c) : ∃ b, x = .ok b ∧ f b = .ok c := by
  cases x with
  | error e => exact absurd h nofun
  | ok b => exact ⟨b, rfl, h⟩

/-! ## Shared credits -/

/-- No more than `limit` shared credits are in use. -/
def AtMost (limit : ℤ) (a : Arbitration) : Prop := a.sharedCredit ≤ limit

theorem atMost_borrow (hpos : 0 < Arbitration.sharedCreditLimit cfg)
    (h : AtMost (Arbitration.sharedCreditLimit cfg) a) (hborrow : a.borrowCredit cfg spid = .ok a') :
    AtMost (Arbitration.sharedCreditLimit cfg) a' := by
  unfold Arbitration.borrowCredit at hborrow
  split_ifs at hborrow with hprivate hshared
  · obtain rfl := Except.ok.inj hborrow
    exact h
  · obtain rfl := Except.ok.inj hborrow
    have hlt := hshared.resolve_left (ne_of_gt hpos)
    unfold AtMost
    dsimp only
    omega

theorem atMost_return (h : AtMost limit a) (hreturn : a.returnCredit spid = .ok a') : AtMost limit a' := by
  unfold Arbitration.returnCredit at hreturn
  unfold AtMost at *
  dsimp only at hreturn
  split_ifs at hreturn with hprivate
  all_goals
    obtain rfl := Except.ok.inj hreturn
    dsimp only
    omega

theorem atMost_setDone {mf : MemFetch} (h : AtMost limit s.arbitration) (hok : s.setDone cfg mf = .ok s') :
    AtMost limit s'.arbitration := by
  unfold Partition.setDone at hok
  obtain ⟨i, -, hok⟩ := except_bind_ok hok
  dsimp only at hok
  split_ifs at hok
  · obtain ⟨a', ha', hok⟩ := except_bind_ok hok
    obtain rfl := Except.ok.inj hok
    exact atMost_return h ha'
  · obtain rfl := Except.ok.inj hok
    exact h

theorem atMost_returnTop (h : AtMost limit s.arbitration) (hok : s.returnTop cfg = .ok s') :
    AtMost limit s'.arbitration := by
  unfold Partition.returnTop at hok
  dsimp only at hok
  split at hok
  · obtain rfl := Except.ok.inj hok
    exact h
  · obtain ⟨i, -, hok⟩ := except_bind_ok hok
    split_ifs at hok
    · obtain rfl := Except.ok.inj hok
      exact h
    · obtain rfl := Except.ok.inj hok
      exact h
    · obtain ⟨a', ha', hok⟩ := except_bind_ok hok
      obtain rfl := Except.ok.inj hok
      exact atMost_return h ha'

/-- The device's own cycle comes last and keeps the credits. -/
theorem atMost_deviceCycle {t : Partition} (h : AtMost limit t.arbitration)
    (hok : (match s.dram.cycle cfg.toMemoryConfig with
      | none => throw .scheduler
      | some (_, dram) => pure { t with dram } : Except Abort Partition) = .ok s') :
    AtMost limit s'.arbitration := by
  split at hok
  · cases hok
  · obtain rfl := Except.ok.inj hok
    exact h

theorem atMost_cycleDram (h : AtMost limit s.arbitration) (hok : s.cycleDram cfg = .ok s') :
    AtMost limit s'.arbitration := by
  unfold Partition.cycleDram at hok
  dsimp only at hok
  split at hok
  · exact atMost_deviceCycle h hok
  · obtain ⟨t, ht, hok⟩ := except_bind_ok hok
    exact atMost_deviceCycle (atMost_setDone h ht) hok

theorem atMost_issueToDram {now : ℕ} (hpos : 0 < Arbitration.sharedCreditLimit cfg)
    (h : AtMost (Arbitration.sharedCreditLimit cfg) s.arbitration) (hok : s.issueToDram cfg now = .ok s') :
    AtMost (Arbitration.sharedCreditLimit cfg) s'.arbitration := by
  unfold Partition.issueToDram at hok
  dsimp only at hok
  split_ifs at hok
  · obtain rfl := Except.ok.inj hok
    exact h
  · split at hok
    · obtain rfl := Except.ok.inj hok
      exact h
    · split at hok
      · cases hok
      · obtain ⟨a', ha', hok⟩ := except_bind_ok hok
        obtain rfl := Except.ok.inj hok
        exact atMost_borrow hpos h ha'

theorem arbitration_leaveLatencyQueue (now : ℕ) :
    (s.leaveLatencyQueue cfg now).arbitration = s.arbitration := by
  unfold Partition.leaveLatencyQueue
  split
  · rfl
  · split_ifs <;> rfl

theorem atMost_dramCycle {now : ℕ} (hpos : 0 < Arbitration.sharedCreditLimit cfg)
    (h : AtMost (Arbitration.sharedCreditLimit cfg) s.arbitration) (hok : s.dramCycle cfg now = .ok s') :
    AtMost (Arbitration.sharedCreditLimit cfg) s'.arbitration := by
  unfold Partition.dramCycle at hok
  obtain ⟨s₁, hs₁, hok⟩ := except_bind_ok hok
  obtain ⟨s₂, hs₂, hok⟩ := except_bind_ok hok
  obtain ⟨s₃, hs₃, hok⟩ := except_bind_ok hok
  obtain rfl := Except.ok.inj hok
  rw [arbitration_leaveLatencyQueue]
  exact atMost_issueToDram hpos (atMost_cycleDram (atMost_returnTop h hs₁) hs₂) hs₃

/-- The shared credits keep to a limit that is not zero. -/
theorem reach_atMost {log : List Partition.Event} (hpos : 0 < Arbitration.sharedCreditLimit cfg)
    (h : Reach (fun s => s = Partition.new cfg) (Partition.step cfg) log s) :
    AtMost (Arbitration.sharedCreditLimit cfg) s.arbitration := by
  refine h.invariant (fun _ s => AtMost (Arbitration.sharedCreditLimit cfg) s.arbitration) ?_ ?_
  · rintro s rfl
    exact Int.le_of_lt hpos
  · rintro - s e s' - hinv hstep
    cases e with
    | l2DramPush spid mf =>
      obtain ⟨-, -, -, rfl⟩ := hstep
      exact hinv
    | dramL2Pop spid =>
      obtain rfl := hstep
      exact hinv
    | dramCycle now => exact atMost_dramCycle hpos hinv hstep

/-! ## Requests in flight -/

/-- The limit is the room in the queues of the channel less the credits of all but one sub-partition,
unless that is a multiple of `2 ^ 32`. -/
theorem sharedCreditLimit_spec (hqueue : cfg.frfcfsDramSchedQueueSize ≠ 0) (hreturn : cfg.dramReturnQueueSize ≠ 0)
    (haccepted : 0 ≤ Arbitration.sharedCreditLimit cfg)
    (hle : cfg.subPartitions ≤ cfg.frfcfsDramSchedQueueSize.toNat + cfg.dramReturnQueueSize.toNat)
    (hne : cfg.frfcfsDramSchedQueueSize.toNat + cfg.dramReturnQueueSize.toNat + 1 ≠ cfg.subPartitions + 2 ^ 32) :
    0 < Arbitration.sharedCreditLimit cfg ∧ cfg.subPartitions + Arbitration.sharedCreditLimit cfg ≤
      cfg.frfcfsDramSchedQueueSize.toNat + cfg.dramReturnQueueSize.toNat + 1 := by
  unfold Arbitration.sharedCreditLimit PartitionConfig.subPartitions at *
  rw [if_neg (not_or.2 ⟨hqueue, hreturn⟩)] at haccepted ⊢
  generalize cfg.frfcfsDramSchedQueueSize = queue at *
  generalize cfg.dramReturnQueueSize = return_ at *
  generalize cfg.nSubPartitionPerMemoryChannel = n at *
  have hqueueLt := queue.toNat_lt
  have hreturnLt := return_.toNat_lt
  have hnLt := n.toNat_lt
  have hvalue : (queue + return_ - (n - 1)).toNat = (2 ^ 32 - (2 ^ 32 - 1 + n.toNat) % 2 ^ 32 +
      (queue.toNat + return_.toNat) % 2 ^ 32) % 2 ^ 32 := by
    rw [UInt32.toNat_sub, UInt32.toNat_sub, UInt32.toNat_add]
    rfl
  have hint : (queue + return_ - (n - 1)).toInt32.toInt =
      (queue + return_ - (n - 1)).toBitVec.toInt := rfl
  rw [hint, BitVec.toInt_eq_toNat_cond, UInt32.toNat_toBitVec, hvalue] at haccepted ⊢
  split_ifs at haccepted ⊢
  · omega
  · omega

/-- A sub-partition without a request in flight has a credit of its own. -/
theorem hasCredits_of_idle {w : List Node} {r : List DramReq} (h : Accounted cfg s w r)
    (hspid : spid < cfg.subPartitions) (hidle : ∀ mf ∈ s.onTheWay w r, ¬ cfg.Owns spid mf) :
    s.arbitration.hasCredits cfg spid = true := by
  have hload : cfg.load (s.onTheWay w r) spid = 0 := by
    rw [PartitionConfig.load, List.countP_eq_zero.2 fun mf hmf heq => hidle mf hmf ⟨hspid, by simpa using heq⟩]
    rfl
  have hprivate : s.arbitration.privateCredit spid < Arbitration.privateCreditLimit := by
    have := (h.balanced.range spid hspid).2.2
    rw [hload] at this
    exact Int.lt_of_le_of_lt this Int.one_pos
  rw [Arbitration.hasCredits, decide_eq_true hprivate, Bool.true_or, Bool.true_or]

/-- Cycles after a run. -/
theorem reach_cycles {log : List Partition.Event} {n : ℕ}
    (h : Reach (fun s => s = Partition.new cfg) (Partition.step cfg) log s)
    (hok : (List.range n).foldlM (fun s now => s.dramCycle cfg now) s = .ok s') :
    Reach (fun s => s = Partition.new cfg) (Partition.step cfg)
      (log ++ (List.range n).map .dramCycle) s' := by
  generalize List.range n = nows at hok ⊢
  induction nows generalizing log s with
  | nil =>
    obtain rfl := Except.ok.inj hok
    simpa using h
  | cons now nows ih =>
    rw [List.foldlM_cons] at hok
    obtain ⟨t, ht, hok⟩ := except_bind_ok hok
    have hstep : Partition.step cfg s (.dramCycle now) t := ht
    simpa using ih (h.step hstep) hok

/-- A request has entered the queue of a sub-partition. -/
def Partition.pushed (s : Partition) (spid : ℕ) (mf : MemFetch) : Partition :=
  { s with
    l2Dram := Function.update s.l2Dram spid ((s.l2Dram spid).push (some mf))
    sent := s.sent ++ [mf] }

theorem reach_pushed {log : List Partition.Event} {mf : MemFetch}
    (h : Reach (fun s => s = Partition.new cfg) (Partition.step cfg) log s) (howns : cfg.Owns spid mf)
    (hnew : ∀ mf' ∈ s.sent, mf'.requestUid ≠ mf.requestUid) :
    Reach (fun s => s = Partition.new cfg) (Partition.step cfg) (log ++ [.l2DramPush spid mf])
      (s.pushed spid mf) :=
  have hstep : Partition.step cfg s (.l2DramPush spid mf) (s.pushed spid mf) :=
    ⟨howns.1, howns.2, hnew, rfl⟩
  h.step hstep

/-- **The credit limit bounds the requests in flight**, unless it comes out as zero. -/
theorem outstanding_le {log : List Partition.Event}
    (hqueue : cfg.frfcfsDramSchedQueueSize ≠ 0) (hreturn : cfg.dramReturnQueueSize ≠ 0)
    (haccepted : 0 ≤ Arbitration.sharedCreditLimit cfg)
    (hle : cfg.subPartitions ≤ cfg.frfcfsDramSchedQueueSize.toNat + cfg.dramReturnQueueSize.toNat)
    (hne : cfg.frfcfsDramSchedQueueSize.toNat + cfg.dramReturnQueueSize.toNat + 1 ≠ cfg.subPartitions + 2 ^ 32)
    (h : Reach (fun s => s = Partition.new cfg) (Partition.step cfg) log s) :
    s.outstanding.length ≤ cfg.frfcfsDramSchedQueueSize.toNat + cfg.dramReturnQueueSize.toNat + 1 ∧
      ∀ spid < cfg.subPartitions, (∀ mf ∈ s.outstanding, ¬ cfg.Owns spid mf) →
        s.arbitration.hasCredits cfg spid = true ∧ s.canIssueToDram cfg spid = !(s.dramL2 spid).full := by
  obtain ⟨w, r, haccounted⟩ := reach_accounted h
  obtain ⟨hpos, hlimit⟩ := sharedCreditLimit_spec hqueue hreturn haccepted hle hne
  have hperm := outstanding_perm haccounted
  refine ⟨?_, fun spid hspid hidle => ?_⟩
  · have hshared : s.arbitration.sharedCredit ≤ Arbitration.sharedCreditLimit cfg := reach_atMost hpos h
    have hprivate : ∑ i ∈ Finset.range cfg.subPartitions, s.arbitration.privateCredit i ≤
        ∑ _i ∈ Finset.range cfg.subPartitions, (1 : ℤ) :=
      Finset.sum_le_sum fun i hi => (haccounted.balanced.range i (Finset.mem_range.1 hi)).2.1
    rw [Finset.sum_const, Finset.card_range, nsmul_eq_mul, mul_one] at hprivate
    have hinUse := (credits_conserved h).1
    rw [Partition.creditsInUse] at hinUse
    omega
  · have hcredits := hasCredits_of_idle haccounted hspid fun mf hmf => hidle mf (hperm.mem_iff.2 hmf)
    exact ⟨hcredits, by rw [Partition.canIssueToDram, hcredits, Bool.true_and]⟩

/-- Room for two requests in each queue of the channel. -/
def roomForTwo : PartitionConfig :=
  { twoSubPartitions with
    frfcfsDramSchedQueueSize := 2
    dramReturnQueueSize := 2 }

/-- Three reads wait in the queue of the second sub-partition. -/
def threeWaiting : Partition :=
  (((Partition.new roomForTwo).pushed 1 ⟨0, false, .globalAccR, 16, 5, 1, 7⟩).pushed 1
    ⟨1, false, .globalAccR, 16, 5, 1, 7⟩).pushed 1 ⟨2, false, .globalAccR, 16, 5, 1, 7⟩

theorem reach_threeWaiting : ∃ log, Reach (fun s => s = Partition.new roomForTwo)
    (Partition.step roomForTwo) log threeWaiting := by
  have howns : ∀ uid, roomForTwo.Owns 1 ⟨uid, false, .globalAccR, 16, 5, 1, 7⟩ := fun _ => ⟨by decide, rfl⟩
  have hnew : Reach (fun s => s = Partition.new roomForTwo) (Partition.step roomForTwo) []
      (Partition.new roomForTwo) := .start rfl
  have hone := reach_pushed hnew (howns 0) nofun
  have htwo := reach_pushed hone (howns 1) (by decide)
  exact ⟨_, reach_pushed htwo (howns 2) (by decide)⟩

/-- Three reads are in flight, and the first sub-partition may send. -/
theorem outstanding_le_three : ∃ log s,
    Reach (fun s => s = Partition.new roomForTwo) (Partition.step roomForTwo) log s ∧
      s.outstanding.length = 3 ∧ s.outstanding.length ≤ 2 + 2 + 1 ∧
      s.arbitration.hasCredits roomForTwo 0 = true ∧ s.canIssueToDram roomForTwo 0 = !(s.dramL2 0).full := by
  have hrun : ((List.range 3).foldlM (fun (s : Partition) now => s.dramCycle roomForTwo now)
      threeWaiting).toOption.map (fun s => (s.outstanding.length, s.outstanding.map (·.subPartitionId))) =
      some (3, [7, 7, 7]) := by decide +kernel
  obtain ⟨s, hs, hout⟩ := Option.map_eq_some_iff.1 hrun
  obtain ⟨hlength, howner⟩ := Prod.mk.inj hout
  obtain ⟨log, hwaiting⟩ := reach_threeWaiting
  have hreach := reach_cycles hwaiting (ok_of_toOption hs)
  obtain ⟨hle, hother⟩ := outstanding_le (by decide) (by decide) (by decide) (by decide) (by decide) hreach
  refine ⟨_, s, hreach, hlength, hle, hother 0 (by decide) fun mf hmf howns => ?_⟩
  have hid : mf.subPartitionId ∈ [7, 7, 7] := howner ▸ List.mem_map_of_mem hmf
  rw [howns.2] at hid
  exact absurd hid (by decide)

/-! ## A limit of zero -/

/-- Room for one request in each queue of the channel, and three sub-partitions. -/
def threeSubPartitions : PartitionConfig where
  toMemoryConfig := { twelveBanks with
    schedulerType := .frfcfs
    frfcfsDramSchedQueueSize := 1
    dramReturnQueueSize := 1
    nSubPartitionPerMemoryChannel := 3 }
  id := 0
  dramLatency := 100
  l2Dram := 8
  dramL2 := 8

/-- A read of the first sub-partition. -/
def readOf (uid : ℕ) : MemFetch := ⟨uid, false, .globalAccR, 16, 0, 0, 0⟩

/-- Four reads wait in the queue of the first sub-partition. -/
def fourWaiting : Partition :=
  ((((Partition.new threeSubPartitions).pushed 0 (readOf 0)).pushed 0 (readOf 1)).pushed 0
    (readOf 2)).pushed 0 (readOf 3)

theorem reach_fourWaiting : Reach (fun s => s = Partition.new threeSubPartitions)
    (Partition.step threeSubPartitions)
    [.l2DramPush 0 (readOf 0), .l2DramPush 0 (readOf 1), .l2DramPush 0 (readOf 2), .l2DramPush 0 (readOf 3)]
    fourWaiting := by
  have howns : ∀ uid, threeSubPartitions.Owns 0 (readOf uid) := fun _ => ⟨by decide, rfl⟩
  have hstart : Reach (fun s => s = Partition.new threeSubPartitions) (Partition.step threeSubPartitions) []
      (Partition.new threeSubPartitions) := .start rfl
  have hone := reach_pushed hstart (howns 0) nofun
  have htwo := reach_pushed hone (howns 1) (by decide)
  have hthree := reach_pushed htwo (howns 2) (by decide)
  exact reach_pushed hthree (howns 3) (by decide)

/-- The limit for three sub-partitions comes out as zero, and four requests are issued. -/
theorem not_outstanding_le : Arbitration.sharedCreditLimit threeSubPartitions = 0 ∧ ∃ log s,
    Reach (fun s => s = Partition.new threeSubPartitions) (Partition.step threeSubPartitions) log s ∧
      1 + 1 + 1 < s.outstanding.length := by
  refine ⟨by decide, ?_⟩
  have hrun : ((List.range 4).foldlM (fun (s : Partition) now => s.dramCycle threeSubPartitions now)
      fourWaiting).toOption.map (·.outstanding.length) = some 4 := by decide +kernel
  obtain ⟨s, hs, hlength⟩ := Option.map_eq_some_iff.1 hrun
  exact ⟨_, s, reach_cycles reach_fourWaiting (ok_of_toOption hs), by rw [hlength]; decide⟩

end CompressionWork.Dram
