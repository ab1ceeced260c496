import CompressionWork.Dram.Partition
import CompressionWork.Dram.Requests
import CompressionWork.Dram.Timing
import Mathlib.Algebra.Order.BigOperators.Group.Finset

/-!
# The credits of a memory partition

* `Balanced` — the credits in use are those of the requests on their way.
* `Accounted` — the requests on their way are in the latency queue or in the channel, and the credits balance.
* `credits_conserved` — so it is in every reachable state, and no assertion about credits fails.
-/

namespace CompressionWork.Dram

open Transition

variable {cfg : PartitionConfig} {s s' : Partition} {a a' : Arbitration} {flight flight' : List MemFetch}
  {mf : MemFetch} {spid : ℕ}

/-! ## Credits -/

/-- A request of sub-partition `spid`. -/
def PartitionConfig.Owns (cfg : PartitionConfig) (spid : ℕ) (mf : MemFetch) : Prop :=
  spid < cfg.subPartitions ∧ mf.subPartitionId = cfg.id * cfg.subPartitions + spid

/-- The requests of a sub-partition that are on their way. -/
def PartitionConfig.load (cfg : PartitionConfig) (flight : List MemFetch) (spid : ℕ) : ℤ :=
  flight.countP (·.subPartitionId = cfg.id * cfg.subPartitions + spid)

/-- Each credit that is lent belongs to a request in flight of its sub-partition. -/
structure Balanced (cfg : PartitionConfig) (a : Arbitration) (flight : List MemFetch) : Prop where
  range : ∀ i < cfg.subPartitions, 0 ≤ a.privateCredit i ∧
    a.privateCredit i ≤ Arbitration.privateCreditLimit ∧ a.privateCredit i ≤ cfg.load flight i
  shared : a.sharedCredit = ∑ i ∈ Finset.range cfg.subPartitions, (cfg.load flight i - a.privateCredit i)

theorem Balanced.perm (h : Balanced cfg a flight) (hperm : flight.Perm flight') : Balanced cfg a flight' := by
  have hload : cfg.load flight' = cfg.load flight := by
    funext i
    rw [PartitionConfig.load, PartitionConfig.load, hperm.countP_eq]
  exact ⟨by rw [hload]; exact h.range, by rw [hload]; exact h.shared⟩

theorem load_cons_self (h : cfg.Owns spid mf) (flight : List MemFetch) :
    cfg.load (mf :: flight) spid = cfg.load flight spid + 1 := by
  simp [PartitionConfig.load, h.2]

theorem load_cons_of_ne (h : cfg.Owns spid mf) (flight : List MemFetch) {i : ℕ} (hne : i ≠ spid) :
    cfg.load (mf :: flight) i = cfg.load flight i := by
  simp [PartitionConfig.load, h.2, Ne.symm hne]

/-- A sum in which one term changes. -/
theorem sum_change {f g : ℕ → ℤ} {n i : ℕ} (hi : i < n) (hne : ∀ j, j ≠ i → g j = f j) :
    ∑ j ∈ Finset.range n, g j = ∑ j ∈ Finset.range n, f j + (g i - f i) := by
  have hmem : i ∈ Finset.range n := Finset.mem_range.2 hi
  have hrest : ∑ j ∈ (Finset.range n).erase i, g j = ∑ j ∈ (Finset.range n).erase i, f j :=
    Finset.sum_congr rfl fun j hj => hne j (Finset.ne_of_mem_erase hj)
  rw [← Finset.add_sum_erase _ g hmem, ← Finset.add_sum_erase _ f hmem, hrest]
  omega

/-- One more request of a sub-partition, and a change of its own credits. -/
theorem shared_change {p q : ℕ → ℤ} (howns : cfg.Owns spid mf) (flight : List MemFetch)
    (hne : ∀ i, i ≠ spid → q i = p i) :
    ∑ i ∈ Finset.range cfg.subPartitions, (cfg.load (mf :: flight) i - q i) =
      ∑ i ∈ Finset.range cfg.subPartitions, (cfg.load flight i - p i) + 1 - (q spid - p spid) := by
  have hsum := sum_change (f := fun i => cfg.load flight i - p i)
    (g := fun i => cfg.load (mf :: flight) i - q i) howns.1 fun i hi => by
      rw [hne i hi, load_cons_of_ne howns flight hi]
  rw [hsum, load_cons_self howns]
  omega

theorem balanced_borrow (h : Balanced cfg a flight) (howns : cfg.Owns spid mf)
    (hcredits : a.hasCredits cfg spid = true) :
    ∃ a', a.borrowCredit cfg spid = .ok a' ∧ Balanced cfg a' (mf :: flight) := by
  obtain ⟨hzero, hlimit, hload⟩ := h.range spid howns.1
  have hself := load_cons_self howns flight
  unfold Arbitration.borrowCredit
  split_ifs with hprivate hshared
  · refine ⟨_, rfl, fun i hi => ?_, ?_⟩
    · by_cases heq : i = spid
      · subst heq
        dsimp only
        rw [Function.update_self, hself]
        exact ⟨by omega, by omega, by omega⟩
      · dsimp only
        rw [Function.update_of_ne heq, load_cons_of_ne howns flight heq]
        exact h.range i hi
    · dsimp only
      rw [shared_change howns flight fun i hi => Function.update_of_ne hi _ a.privateCredit, ← h.shared,
        Function.update_self]
      omega
  · refine ⟨_, rfl, fun i hi => ?_, ?_⟩
    · by_cases heq : i = spid
      · subst heq
        rw [hself]
        exact ⟨hzero, hlimit, by dsimp only; omega⟩
      · rw [load_cons_of_ne howns flight heq]
        exact h.range i hi
    · dsimp only
      rw [shared_change howns flight fun _ _ => rfl, ← h.shared]
      omega
  · simp only [Arbitration.hasCredits, Bool.or_eq_true, decide_eq_true_eq, beq_iff_eq] at hcredits
    rcases hcredits with (hp | hzero) | hlt
    · exact absurd hp hprivate
    · exact absurd (Or.inl hzero) hshared
    · exact absurd (Or.inr hlt) hshared

theorem balanced_return (h : Balanced cfg a (mf :: flight)) (howns : cfg.Owns spid mf) :
    ∃ a', a.returnCredit spid = .ok a' ∧ Balanced cfg a' flight := by
  obtain ⟨hzero, hlimit, hload⟩ := h.range spid howns.1
  have hself := load_cons_self howns flight
  have hnonneg : ∀ i ∈ Finset.range cfg.subPartitions,
      0 ≤ cfg.load (mf :: flight) i - a.privateCredit i := fun i hi => by
    have := (h.range i (Finset.mem_range.1 hi)).2.2
    omega
  unfold Arbitration.returnCredit
  by_cases hprivate : 0 < a.privateCredit spid
  · have hshared : 0 ≤ a.sharedCredit := by
      rw [h.shared]
      exact Finset.sum_nonneg hnonneg
    simp only [if_pos hprivate, if_pos hshared]
    refine ⟨_, rfl, fun i hi => ?_, ?_⟩
    · by_cases heq : i = spid
      · subst heq
        dsimp only
        rw [Function.update_self]
        exact ⟨by omega, by omega, by omega⟩
      · dsimp only
        rw [Function.update_of_ne heq, ← load_cons_of_ne howns flight heq]
        exact h.range i hi
    · have hne : ∀ i, i ≠ spid → a.privateCredit i =
          Function.update a.privateCredit spid (a.privateCredit spid - 1) i :=
        fun i hi => (Function.update_of_ne hi _ _).symm
      dsimp only
      rw [h.shared, shared_change howns flight hne, Function.update_self]
      omega
  · -- all the credits of the sub-partition in use are shared ones
    have hone : 1 ≤ a.sharedCredit := by
      have hterm := Finset.single_le_sum hnonneg (Finset.mem_range.2 howns.1)
      rw [← h.shared, hself] at hterm
      have : 0 ≤ cfg.load flight spid := Int.natCast_nonneg _
      omega
    have hshared : 0 ≤ a.sharedCredit - 1 := by omega
    simp only [if_neg hprivate, if_pos hshared]
    refine ⟨_, rfl, fun i hi => ?_, ?_⟩
    · by_cases heq : i = spid
      · subst heq
        have : 0 ≤ cfg.load flight i := Int.natCast_nonneg _
        exact ⟨hzero, hlimit, by dsimp only; omega⟩
      · rw [← load_cons_of_ne howns flight heq]
        exact h.range i hi
    · dsimp only
      rw [h.shared, shared_change howns flight fun _ _ => rfl]
      omega

theorem load_sum (h : ∀ mf ∈ flight, ∃ i, cfg.Owns i mf) :
    ∑ i ∈ Finset.range cfg.subPartitions, cfg.load flight i = flight.length := by
  induction flight with
  | nil => simp [PartitionConfig.load]
  | cons mf flight ih =>
    obtain ⟨i, howns⟩ := h mf List.mem_cons_self
    rw [sum_change howns.1 fun j hj => load_cons_of_ne howns flight hj,
      ih fun mf' hmf' => h mf' (List.mem_cons_of_mem _ hmf'), load_cons_self howns, List.length_cons]
    push_cast
    omega

/-! ## The requests on their way -/

/-- No cell of the line is empty. -/
def Fifo.Solid {α : Type*} (q : Fifo α) : Prop := q.minLen = 0 ∧ ∀ cell ∈ q.cells, cell.isSome

theorem Fifo.Solid.push {α : Type*} {q : Fifo α} (h : q.Solid) (x : α) : (q.push (some x)).Solid := by
  refine ⟨h.1, fun cell hcell => ?_⟩
  simp only [Fifo.push, Fifo.pushCells] at hcell
  split at hcell
  · obtain rfl := List.mem_singleton.1 hcell
    rfl
  · split_ifs at hcell
    all_goals
      rcases List.mem_append.1 hcell with hcell | hcell
      · exact h.2 cell (by first | exact hcell | exact List.mem_of_mem_dropLast hcell)
      · obtain rfl := List.mem_singleton.1 hcell
        rfl

theorem Fifo.Solid.pop {α : Type*} {q : Fifo α} (h : q.Solid) : q.pop.2.Solid := by
  obtain ⟨cells, minLen, maxLen⟩ := q
  obtain rfl : minLen = 0 := h.1
  cases cells with
  | nil => exact h
  | cons cell rest =>
    refine ⟨rfl, fun c hc => h.2 c (List.mem_cons_of_mem _ ?_)⟩
    simpa [Fifo.pop] using hc

theorem Fifo.Solid.top {α : Type*} {q : Fifo α} (h : q.Solid) (hne : q.isEmpty = false) :
    ∃ x, q.top = some x := by
  obtain ⟨cells, minLen, maxLen⟩ := q
  cases cells with
  | nil => exact absurd hne nofun
  | cons cell rest =>
    obtain ⟨x, rfl⟩ := Option.isSome_iff_exists.1 (h.2 cell List.mem_cons_self)
    exact ⟨x, rfl⟩

/-- The requests in the latency queue and in the channel. -/
def Partition.onTheWay (s : Partition) (w : List Node) (a : List DramReq) : List MemFetch :=
  s.latencyQueue.map Prod.snd ++ s.dram.contents w a

/-- What every step keeps. -/
structure Accounted (cfg : PartitionConfig) (s : Partition) (w : List Node) (r : List DramReq) : Prop where
  carries : Carries cfg.toMemoryConfig s.dram w r
  issued : s.issued.Perm (s.onTheWay w r ++ (s.returned ++ s.retired))
  balanced : Balanced cfg s.arbitration (s.onTheWay w r)
  issuedOwner : ∀ mf ∈ s.issued, mf ∈ s.sent ∧ ∃ i, cfg.Owns i mf
  queueOwner : ∀ i, ∀ mf ∈ (s.l2Dram i).items, mf ∈ s.sent ∧ cfg.Owns i mf
  once : ∀ i, ((s.l2Dram i).items ++ s.issued).Nodup
  distinct : (s.sent.map (·.requestUid)).Nodup
  solid : ∀ i, (s.l2Dram i).Solid
  noWrbk : ∀ mf ∈ s.dram.returnq.items, mf.isWrbk = false

variable {w : List Node} {r : List DramReq}

theorem accounted_new : Accounted cfg (.new cfg) [] [] := by
  have hcontents : (DramT.new cfg.toMemoryConfig).contents [] [] = [] := by
    simp [DramT.contents, DramT.new]
  constructor
  · exact ⟨⟨fun _ => .refl _, fun q hq => absurd hq List.not_mem_nil, List.nodup_nil⟩, active_new, by
      rw [Partition.new, hcontents]
      exact List.nodup_nil⟩
  · simp [Partition.new, Partition.onTheWay, hcontents]
  · refine ⟨fun i _ => ⟨Int.le_refl _, Int.zero_le_ofNat 1, ?_⟩, ?_⟩
    · exact Int.natCast_nonneg _
    · simp [Partition.new, Arbitration.new, Partition.onTheWay, hcontents, PartitionConfig.load]
  · exact fun mf hmf => absurd hmf List.not_mem_nil
  · intro i mf hmf
    simp [Partition.new] at hmf
  · intro i
    simp [Partition.new]
  · exact List.nodup_nil
  · exact fun i => ⟨rfl, fun cell hcell => by simp [Partition.new, Fifo.new] at hcell⟩
  · intro mf hmf
    simp [Partition.new, DramT.new] at hmf

theorem Accounted.issued_nodup (h : Accounted cfg s w r) : s.issued.Nodup :=
  (List.nodup_append.1 (h.once 0)).2.1

theorem Accounted.flight_uids (h : Accounted cfg s w r) : ((s.onTheWay w r).map (·.requestUid)).Nodup := by
  have hissued : (s.issued.map (·.requestUid)).Nodup :=
    h.issued_nodup.map_on fun x hx y hy =>
      List.inj_on_of_nodup_map h.distinct (h.issuedOwner x hx).1 (h.issuedOwner y hy).1
  have hperm := (h.issued.map (·.requestUid)).nodup_iff.1 hissued
  rw [List.map_append] at hperm
  exact (List.nodup_append.1 hperm).1

theorem Accounted.flight_owner (h : Accounted cfg s w r) (hmf : mf ∈ s.onTheWay w r) : ∃ i, cfg.Owns i mf :=
  (h.issuedOwner mf (h.issued.mem_iff.2 (List.mem_append_left _ hmf))).2

theorem localId_of_owns (h : cfg.Owns spid mf) : Partition.localId cfg mf = .ok spid := by
  obtain ⟨hlt, hid⟩ := h
  rw [Partition.localId, if_pos ⟨by omega, by omega⟩, hid, Nat.add_sub_cancel_left]
  rfl

/-! ## Steps -/

theorem accounted_l2DramPush (h : Accounted cfg s w r) (howns : cfg.Owns spid mf)
    (hnew : ∀ mf' ∈ s.sent, mf'.requestUid ≠ mf.requestUid) :
    Accounted cfg { s with
      l2Dram := Function.update s.l2Dram spid ((s.l2Dram spid).push (some mf))
      sent := s.sent ++ [mf] } w r := by
  have hmf : mf ∉ s.sent := fun hmem => hnew mf hmem rfl
  refine { h with
    issuedOwner := fun x hx => (h.issuedOwner x hx).imp_left (List.mem_append_left _)
    queueOwner := fun i x hx => ?_
    once := fun i => ?_
    distinct := ?_
    solid := fun i => ?_ }
  · by_cases hi : i = spid
    · subst hi
      dsimp only at hx
      rw [Function.update_self, Fifo.items_push] at hx
      rcases List.mem_append.1 hx with hx | hx
      · exact (h.queueOwner i x hx).imp_left (List.mem_append_left _)
      · obtain rfl := List.mem_singleton.1 hx
        exact ⟨List.mem_append_right _ List.mem_cons_self, howns⟩
    · dsimp only at hx
      rw [Function.update_of_ne hi] at hx
      exact (h.queueOwner i x hx).imp_left (List.mem_append_left _)
  · by_cases hi : i = spid
    · subst hi
      dsimp only
      rw [Function.update_self, Fifo.items_push]
      have hperm : ((s.l2Dram i).items ++ [mf] ++ s.issued).Perm
          (mf :: ((s.l2Dram i).items ++ s.issued)) := by
        rw [List.append_assoc]
        exact List.perm_middle
      refine hperm.nodup_iff.2 (List.nodup_cons.2 ⟨fun hmem => hmf ?_, h.once i⟩)
      rcases List.mem_append.1 hmem with hmem | hmem
      · exact (h.queueOwner i mf hmem).1
      · exact (h.issuedOwner mf hmem).1
    · dsimp only
      rw [Function.update_of_ne hi]
      exact h.once i
  · dsimp only
    rw [List.map_append]
    refine List.nodup_append.2 ⟨h.distinct, List.nodup_singleton _, ?_⟩
    intro x hx y hy heq
    obtain ⟨mf', hmf', rfl⟩ := List.mem_map.1 hx
    obtain rfl := List.mem_singleton.1 hy
    exact hnew mf' hmf' heq
  · by_cases hi : i = spid
    · subst hi
      dsimp only
      rw [Function.update_self]
      exact (h.solid i).push mf
    · dsimp only
      rw [Function.update_of_ne hi]
      exact h.solid i

theorem carries_returnq {mcfg : MemoryConfig} {d : DramT} {q : Fifo MemFetch} (h : Carries mcfg d w r)
    (hitems : q.items.Sublist d.returnq.items) : Carries mcfg { d with returnq := q } w r where
  inScheduler := h.inScheduler
  inBanks := h.inBanks.congr rfl rfl fun _ => rfl
  distinct := h.distinct.sublist (((List.Sublist.refl _).append hitems).map _)

theorem accounted_returnTop (h : Accounted cfg s w r) :
    ∃ s', s.returnTop cfg = .ok s' ∧ Accounted cfg s' w r := by
  unfold Partition.returnTop
  dsimp only
  split
  · rename_i htop
    have hitems : s.dram.returnq.items = s.dram.returnq.pop.2.items := by
      rw [Fifo.items_pop s.dram.returnq, Fifo.pop_fst, htop]
      rfl
    have hcontents : ({ s.dram with returnq := s.dram.returnq.pop.2 } : DramT).contents w r =
        s.dram.contents w r := by
      rw [DramT.contents, DramT.contents, hitems]
    refine ⟨_, rfl, { h with
      carries := carries_returnq h.carries (by rw [hitems])
      issued := ?_
      balanced := ?_
      noWrbk := fun mf hmf => h.noWrbk mf (by rw [hitems]; exact hmf) }⟩
    · rw [Partition.onTheWay, hcontents]
      exact h.issued
    · rw [Partition.onTheWay, hcontents]
      exact h.balanced
  · rename_i mf htop
    have hitems := Fifo.items_of_top htop
    have hmem : mf ∈ s.dram.returnq.items := by
      rw [hitems]
      exact List.mem_cons_self
    have hflight : mf ∈ s.onTheWay w r := List.mem_append_right _ (List.mem_append_right _ hmem)
    obtain ⟨i, howns⟩ := h.flight_owner hflight
    have hl1 : mf.accessType ≠ .l1WrbkAcc := fun hl1 => by
      have := h.noWrbk mf hmem
      simp [MemFetch.isWrbk, hl1] at this
    rw [localId_of_owns howns]
    by_cases hfull : (s.dramL2 i).full = true
    · exact ⟨s, by simp [Bind.bind, Except.bind, hfull]; rfl, h⟩
    · let dram : DramT := { s.dram with returnq := s.dram.returnq.pop.2 }
      have hperm : (s.onTheWay w r).Perm (mf :: (s.latencyQueue.map Prod.snd ++ dram.contents w r)) := by
        simp only [Partition.onTheWay, DramT.contents, hitems, dram, ← List.append_assoc]
        exact List.perm_middle
      obtain ⟨a', ha', hbalanced⟩ := balanced_return (h.balanced.perm hperm) howns
      refine ⟨{ s with
        dram
        arbitration := a'
        dramL2 := Function.update s.dramL2 i ((s.dramL2 i).push (some mf))
        returned := s.returned ++ [mf] }, ?_, { h with
          carries := carries_returnq h.carries (by rw [hitems]; exact List.sublist_cons_self _ _)
          issued := ?_
          balanced := hbalanced
          noWrbk := fun mf hmf => h.noWrbk mf (by rw [hitems]; exact List.mem_cons_of_mem _ hmf) }⟩
      · simp [Bind.bind, Except.bind, hfull, hl1, ha']
        rfl
      · refine h.issued.trans ((hperm.append_right _).trans ?_)
        refine List.perm_middle.symm.trans (List.Perm.append_left _ ?_)
        rw [List.append_assoc]
        exact List.perm_middle.symm

theorem setDone_eq (h : Accounted cfg s w r) (hmf : mf ∈ s.onTheWay w r) (hwrbk : mf.isWrbk = true) :
    ∃ a', s.setDone cfg mf = .ok { s with arbitration := a', retired := s.retired ++ [mf] } ∧
      ∀ fl, (s.onTheWay w r).Perm (mf :: fl) → Balanced cfg a' fl := by
  obtain ⟨i, howns⟩ := h.flight_owner hmf
  have hperm := List.perm_cons_erase hmf
  obtain ⟨a', ha', hbalanced⟩ := balanced_return (h.balanced.perm hperm) howns
  refine ⟨a', ?_, fun fl hfl => hbalanced.perm (List.Perm.cons_inv (hperm.symm.trans hfl))⟩
  rw [Partition.setDone, localId_of_owns howns]
  simp [Bind.bind, Except.bind, hwrbk, ha']
  rfl

/-- The cycle of the channel: only the scheduler may abort. -/
theorem accounted_cycleDram (h : Accounted cfg s w r) : s.cycleDram cfg = .error .scheduler ∨
    ∃ s' w' r', s.cycleDram cfg = .ok s' ∧ Accounted cfg s' w' r' := by
  -- a write-back that is done is on its way
  have hdone : ∀ m, (s.dram.returnData cfg.toMemoryConfig).1 = some m →
      m ∈ s.onTheWay w r ∧ m.isWrbk = true := by
    intro m hm
    obtain ⟨active', -, hperm, hwrbk, -⟩ := h.carries.inBanks.returnData
    refine ⟨List.mem_append_right _ ?_, hwrbk m hm⟩
    rw [DramT.contents, List.append_assoc]
    refine List.mem_append_right _ (hperm.mem_iff.2 (List.mem_append_right _ ?_))
    rw [hm]
    exact List.mem_cons_self
  cases hcycle : s.dram.cycle cfg.toMemoryConfig with
  | none =>
    left
    unfold Partition.cycleDram
    cases hret : (s.dram.returnData cfg.toMemoryConfig).1 with
    | none => simp only [hcycle]; rfl
    | some m =>
      obtain ⟨hmem, hwrbk⟩ := hdone m hret
      obtain ⟨a', ha', -⟩ := setDone_eq h hmem hwrbk
      simp only [hcycle, ha']
      rfl
  | some out =>
    right
    obtain ⟨done, d'⟩ := out
    obtain ⟨w', r', hcarries, hperm, hwrbk, hreturnq⟩ := cycle_perm h.carries hcycle
    obtain ⟨d₂, -, hdone', -⟩ := cycle_spec hcycle
    have hflight : (s.onTheWay w r).Perm
        ((s.latencyQueue.map Prod.snd ++ d'.contents w' r') ++ done.writeBack.toList) := by
      rw [List.append_assoc]
      exact hperm.append_left _
    have hnoWrbk : ∀ mf ∈ d'.returnq.items, mf.isWrbk = false := fun mf hmf =>
      (hreturnq mf hmf).elim (h.noWrbk mf) id
    unfold Partition.cycleDram
    cases hret : (s.dram.returnData cfg.toMemoryConfig).1 with
    | none =>
      rw [hdone', hret, Option.toList_none, List.append_nil] at hflight
      refine ⟨{ s with dram := d' }, w', r', by simp only [hcycle]; rfl, { h with
        carries := hcarries
        issued := h.issued.trans (hflight.append_right _)
        balanced := h.balanced.perm hflight
        noWrbk := hnoWrbk }⟩
    | some m =>
      obtain ⟨hmem, hwrbk⟩ := hdone m hret
      obtain ⟨a', ha', hbalanced⟩ := setDone_eq h hmem hwrbk
      rw [hdone', hret, Option.toList_some] at hflight
      refine ⟨{ s with dram := d', arbitration := a', retired := s.retired ++ [m] }, w', r',
        by simp only [hcycle, ha']; rfl, { h with
          carries := hcarries
          issued := ?_
          balanced := hbalanced _ (hflight.trans (List.perm_append_singleton _ _))
          noWrbk := hnoWrbk }⟩
      refine h.issued.trans ((hflight.append_right _).trans ?_)
      rw [List.append_assoc]
      refine List.Perm.append_left _ ?_
      dsimp only
      rw [← List.append_assoc s.returned]
      exact List.perm_append_comm

theorem accounted_issueToDram (h : Accounted cfg s w r) (now : ℕ) :
    ∃ s', s.issueToDram cfg now = .ok s' ∧ Accounted cfg s' w r := by
  unfold Partition.issueToDram
  dsimp only
  split_ifs
  · exact ⟨s, rfl, h⟩
  · split
    · exact ⟨s, rfl, h⟩
    · rename_i spid hfind
      have hcan := List.find?_some hfind
      rw [Bool.and_eq_true, Bool.not_eq_true'] at hcan
      obtain ⟨hempty, hcan⟩ := hcan
      obtain ⟨mf, htop⟩ := (h.solid spid).top hempty
      have hitems := Fifo.items_of_top htop
      have hmem : mf ∈ (s.l2Dram spid).items := by
        rw [hitems]
        exact List.mem_cons_self
      obtain ⟨hsent, howns⟩ := h.queueOwner spid mf hmem
      rw [Partition.canIssueToDram, Bool.and_eq_true] at hcan
      obtain ⟨a', ha', hbalanced⟩ := balanced_borrow h.balanced howns hcan.1
      have hperm : (mf :: s.onTheWay w r).Perm
          ((s.latencyQueue ++ [(now + cfg.dramLatency, mf)]).map Prod.snd ++ s.dram.contents w r) := by
        rw [List.map_append, List.append_assoc]
        exact List.perm_middle.symm
      refine ⟨{ s with
        arbitration := a'
        l2Dram := Function.update s.l2Dram spid (s.l2Dram spid).pop.2
        latencyQueue := s.latencyQueue ++ [(now + cfg.dramLatency, mf)]
        issued := s.issued ++ [mf] }, ?_, { h with
          issued := ?_
          balanced := hbalanced.perm hperm
          issuedOwner := fun x hx => ?_
          queueOwner := fun i x hx => ?_
          once := fun i => ?_
          solid := fun i => ?_ }⟩
      · rw [htop]
        simp [Bind.bind, Except.bind, ha']
        rfl
      · refine (List.perm_append_singleton _ _).trans ((h.issued.cons mf).trans ?_)
        exact hperm.append_right _
      · rcases List.mem_append.1 hx with hx | hx
        · exact h.issuedOwner x hx
        · obtain rfl := List.mem_singleton.1 hx
          exact ⟨hsent, spid, howns⟩
      · by_cases hi : i = spid
        · subst hi
          dsimp only at hx
          rw [Function.update_self] at hx
          exact h.queueOwner i x (by rw [hitems]; exact List.mem_cons_of_mem _ hx)
        · dsimp only at hx
          rw [Function.update_of_ne hi] at hx
          exact h.queueOwner i x hx
      · have honce := h.once spid
        rw [hitems] at honce
        have hissued : mf ∉ s.issued := fun hmem' =>
          (List.nodup_append.1 honce).2.2 mf List.mem_cons_self mf hmem' rfl
        dsimp only
        by_cases hi : i = spid
        · subst hi
          rw [Function.update_self, ← List.append_assoc]
          exact (List.perm_append_singleton _ _).nodup_iff.2 honce
        · rw [Function.update_of_ne hi, ← List.append_assoc]
          refine (List.perm_append_singleton _ _).nodup_iff.2 (List.nodup_cons.2 ⟨fun hmem' => ?_, h.once i⟩)
          rcases List.mem_append.1 hmem' with hmem' | hmem'
          · -- the queue of another sub-partition
            have hid := (h.queueOwner i mf hmem').2.2
            rw [howns.2] at hid
            exact hi (Nat.add_left_cancel hid).symm
          · exact hissued hmem'
      · dsimp only
        by_cases hi : i = spid
        · subst hi
          rw [Function.update_self]
          exact (h.solid i).pop
        · rw [Function.update_of_ne hi]
          exact h.solid i

theorem accounted_leaveLatencyQueue (h : Accounted cfg s w r) (now : ℕ) :
    Accounted cfg (s.leaveLatencyQueue cfg now) w r := by
  unfold Partition.leaveLatencyQueue
  split
  · exact h
  · rename_i readyCycle req rest hqueue
    split_ifs
    · have hcontents : ((s.dram.push req).contents w r).Perm (req :: s.dram.contents w r) := by
        simp only [DramT.contents, DramT.push, Fifo.items_push, List.map_append, Option.toList_some,
          List.map_singleton, List.append_assoc]
        exact List.perm_middle
      have hflight : (s.onTheWay w r).Perm (rest.map Prod.snd ++ (s.dram.push req).contents w r) := by
        rw [Partition.onTheWay, hqueue]
        exact List.perm_middle.symm.trans (hcontents.symm.append_left _)
      have huids := (hflight.map (·.requestUid)).nodup_iff.1 h.flight_uids
      rw [List.map_append] at huids
      exact { h with
        carries := ⟨h.carries.inScheduler, h.carries.inBanks.congr rfl rfl fun _ => rfl,
          (List.nodup_append.1 huids).2.1⟩
        issued := h.issued.trans (hflight.append_right _)
        balanced := h.balanced.perm hflight }
    · exact h

/-- **A cycle** keeps the balance, and no assertion about credits fails. -/
theorem accounted_dramCycle (h : Accounted cfg s w r) (now : ℕ) : s.dramCycle cfg now = .error .scheduler ∨
    ∃ s' w' r', s.dramCycle cfg now = .ok s' ∧ Accounted cfg s' w' r' := by
  obtain ⟨s₁, hs₁, h₁⟩ := accounted_returnTop h
  unfold Partition.dramCycle
  rw [hs₁]
  rcases accounted_cycleDram h₁ with hs₂ | ⟨s₂, w', r', hs₂, h₂⟩
  · left
    simp only [Bind.bind, Except.bind, hs₂]
  · right
    obtain ⟨s₃, hs₃, h₃⟩ := accounted_issueToDram h₂ now
    refine ⟨_, w', r', ?_, accounted_leaveLatencyQueue h₃ now⟩
    simp only [Bind.bind, Except.bind, hs₂, hs₃]
    rfl

/-! ## Every run -/

/-- Every reachable state keeps the balance. -/
theorem reach_accounted {log : List Partition.Event}
    (h : Reach (fun s => s = Partition.new cfg) (Partition.step cfg) log s) : ∃ w r, Accounted cfg s w r := by
  refine h.invariant (fun _ s => ∃ w r, Accounted cfg s w r) ?_ ?_
  · rintro s rfl
    exact ⟨[], [], accounted_new⟩
  · rintro - s e s' - ⟨w, r, haccounted⟩ hstep
    cases e with
    | l2DramPush spid mf =>
      obtain ⟨hlt, hid, hnew, rfl⟩ := hstep
      exact ⟨w, r, accounted_l2DramPush haccounted ⟨hlt, hid⟩ hnew⟩
    | dramL2Pop spid =>
      obtain rfl := hstep
      exact ⟨w, r, { haccounted with }⟩
    | dramCycle now =>
      have hok : s.dramCycle cfg now = .ok s' := hstep
      rcases accounted_dramCycle haccounted now with herror | ⟨t, w', r', ht, haccounted'⟩
      · rw [herror] at hok
        exact absurd hok nofun
      · rw [ht] at hok
        obtain rfl := Except.ok.inj hok
        exact ⟨w', r', haccounted'⟩

theorem outstanding_perm (h : Accounted cfg s w r) : s.outstanding.Perm (s.onTheWay w r) := by
  have hnodup := h.issued.nodup_iff.1 h.issued_nodup
  obtain ⟨-, -, hdisjoint⟩ := List.nodup_append.1 hnodup
  refine (h.issued.filter _).trans ?_
  rw [List.filter_append]
  have hleft : (s.onTheWay w r).filter (fun mf => mf ∉ s.returned ∧ mf ∉ s.retired) = s.onTheWay w r := by
    refine List.filter_eq_self.2 fun mf hmf => ?_
    have hnot : mf ∉ s.returned ++ s.retired := fun hmem => hdisjoint mf hmf mf hmem rfl
    simpa using hnot
  have hright : (s.returned ++ s.retired).filter (fun mf => mf ∉ s.returned ∧ mf ∉ s.retired) = [] := by
    refine List.filter_eq_nil_iff.2 fun mf hmf => ?_
    rcases List.mem_append.1 hmf with hmf | hmf <;> simp [hmf]
  rw [hleft, hright, List.append_nil]

theorem ok_of_toOption {ε α : Type} {x : Except ε α} {a : α} (h : x.toOption = some a) : x = .ok a := by
  cases x with
  | error e => exact absurd h nofun
  | ok b => exact congrArg _ (Option.some.inj h)

/-- **Credits are conserved** in every reachable state: those in use are those of the outstanding requests,
no sub-partition has more of its own than the limit, and no cycle fails an assertion about them. -/
theorem credits_conserved {log : List Partition.Event}
    (h : Reach (fun s => s = Partition.new cfg) (Partition.step cfg) log s) :
    s.creditsInUse cfg = s.outstanding.length ∧
      (∀ spid < cfg.subPartitions, s.arbitration.privateCredit spid ≤ Arbitration.privateCreditLimit) ∧
      ∀ now e, s.dramCycle cfg now = .error e → e = .scheduler := by
  obtain ⟨w, r, haccounted⟩ := reach_accounted h
  refine ⟨?_, fun spid hspid => (haccounted.balanced.range spid hspid).2.1, fun now e he => ?_⟩
  · rw [(outstanding_perm haccounted).length_eq, ← load_sum fun mf => haccounted.flight_owner,
      Partition.creditsInUse, haccounted.balanced.shared, ← Finset.sum_add_distrib]
    exact Finset.sum_congr rfl fun i _ => by omega
  · rcases accounted_dramCycle haccounted now with herror | ⟨t, w', r', ht, -⟩
    · rw [herror] at he
      exact (Except.error.inj he).symm
    · rw [ht] at he
      exact absurd he nofun

def twoSubPartitions : PartitionConfig where
  toMemoryConfig := twelveBanks
  id := 3
  dramLatency := 0
  l2Dram := 8
  dramL2 := 8

/-- A write-back of the second of two sub-partitions. -/
def writeBack : MemFetch := ⟨0, true, .l2WrbkAcc, 16, 5, 1, 7⟩

/-- The write-back is issued, and it uses one credit. -/
theorem credits_conserved_one : ∃ s,
    Reach (fun s => s = Partition.new twoSubPartitions) (Partition.step twoSubPartitions)
      [.l2DramPush 1 writeBack, .dramCycle 0] s ∧
    s.issued = [writeBack] ∧ s.creditsInUse twoSubPartitions = 1 := by
  let s₁ : Partition := { Partition.new twoSubPartitions with
    l2Dram := Function.update (Partition.new twoSubPartitions).l2Dram 1
      (((Partition.new twoSubPartitions).l2Dram 1).push (some writeBack))
    sent := [writeBack] }
  have hcycle : (s₁.dramCycle twoSubPartitions 0).toOption.map (fun s => (s.issued, s.outstanding.length)) =
      some ([writeBack], 1) := by decide +kernel
  obtain ⟨s, hs, hout⟩ := Option.map_eq_some_iff.1 hcycle
  obtain ⟨hissued, hlength⟩ := Prod.mk.inj hout
  have hok : s₁.dramCycle twoSubPartitions 0 = .ok s := ok_of_toOption hs
  have hreach : Reach (fun s => s = Partition.new twoSubPartitions) (Partition.step twoSubPartitions)
      [.l2DramPush 1 writeBack, .dramCycle 0] s := by
    have hstart : Reach (fun s => s = Partition.new twoSubPartitions) (Partition.step twoSubPartitions) []
        (Partition.new twoSubPartitions) := .start rfl
    have hpush : Partition.step twoSubPartitions (Partition.new twoSubPartitions)
        (.l2DramPush 1 writeBack) s₁ := ⟨by decide, by decide, nofun, rfl⟩
    exact (hstart.step hpush).step hok
  exact ⟨s, hreach, hissued, by rw [(credits_conserved hreach).1, hlength]; rfl⟩

end CompressionWork.Dram
