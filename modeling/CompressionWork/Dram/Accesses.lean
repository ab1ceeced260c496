import CompressionWork.Dram.Requests
import CompressionWork.Dram.Timing

/-!
# The column accesses of a request

A channel with the history of its requests: which were pushed, which accesses were issued and left the
data queue, and which requests are complete.

* `Traced`, `run` — the channel with its history.
* `accesses` — how many accesses a request gets.
* `Tracks` — where each request is, and how many of its accesses have left the data queue.
* `completes_once` — a request is complete exactly when the last of its accesses leaves.
-/

namespace CompressionWork.Dram

open Transition

/-! ## Runs -/

/-- A channel with its history, oldest first: the requests pushed, one entry of `issued` for each column
access, one of `left` for each access that left the data queue, and the requests returned or retired. -/
structure Traced where
  dram : DramT
  pushed : List MemFetch := []
  issued : List DramReq := []
  left : List DramReq := []
  completed : List MemFetch := []

namespace DramT

/-- The access that leaves the data queue in the next cycle. -/
def leaving (d : DramT) : Option DramReq := if d.returnq.full then none else d.rwq.pop.1

/-- The requests whose data a cycle returns or retires: what is new in the return queue, and a write-back
that is done. -/
def completing (cfg : MemoryConfig) (d : DramT) : List MemFetch :=
  (d.returnData cfg).1.toList ++ (d.returnData cfg).2.returnq.items.drop d.returnq.items.length

/-- The request of a column command. -/
def accessed (d : DramT) : Option Command → Option DramReq
  | some ⟨.rd, j, _⟩ => (d.bk j).mrq.map Prod.fst
  | some ⟨.wr, j, _⟩ => (d.bk j).mrq.map Prod.fst
  | _ => none

end DramT

namespace Traced

variable (cfg : MemoryConfig)

/-- The channel after an event, with what was pushed, accessed and completed. -/
def exec (s : Traced) : Event → Option Traced
  | .push data => some { s with dram := s.dram.push data, pushed := s.pushed ++ [data] }
  | .returnQueuePop => some { s with dram := { s.dram with returnq := s.dram.returnq.pop.2 } }
  | .cycle => do
      let (done, dram) ← s.dram.cycle cfg
      -- the state in which the command is issued
      let scheduled ← (s.dram.returnData cfg).2.scheduler cfg
      pure { s with
        dram
        issued := s.issued ++ (scheduled.accessed done.command).toList
        left := s.left ++ s.dram.leaving.toList
        completed := s.completed ++ s.dram.completing cfg }

/-- The channel after a run of events, with its record. -/
def run (events : List Event) : Option Traced := events.foldlM (exec cfg) { dram := .new cfg }

end Traced

/-- The requests that a run pushes. -/
def pushes : List Event → List MemFetch
  | [] => []
  | .push data :: rest => data :: pushes rest
  | _ :: rest => pushes rest

/-! ## Accesses -/

variable {cfg : MemoryConfig} {d d' : DramT} {s s' : Traced} {w w' : List Node} {a a' : List DramReq}
  {r : DramReq} {mf : MemFetch} {n : ℕ}

/-- `ceil(size / atom)` accesses, but at least one. -/
def accesses (cfg : MemoryConfig) (mf : MemFetch) : ℕ :=
  max 1 ((mf.dataSize + cfg.dramAtomSize.toNat - 1) / cfg.dramAtomSize.toNat)

theorem sending_iff (hatom : 0 < cfg.dramAtomSize.toNat) :
    Sending cfg.dramAtomSize.toNat mf.dataSize n ↔ n < accesses cfg mf := by
  have hceil : n < (mf.dataSize + cfg.dramAtomSize.toNat - 1) / cfg.dramAtomSize.toNat ↔
      n * cfg.dramAtomSize.toNat < mf.dataSize := by
    rw [Nat.lt_iff_add_one_le, Nat.le_div_iff_mul_le hatom, Nat.add_one_mul]
    omega
  rw [Sending, accesses, lt_max_iff, hceil, Nat.lt_one_iff]

theorem accesses_pos (cfg : MemoryConfig) (mf : MemFetch) : 0 < accesses cfg mf :=
  Nat.lt_of_lt_of_le Nat.one_pos (Nat.le_max_left _ _)

/-- The last access of a request. -/
theorem accesses_eq (hatom : 0 < cfg.dramAtomSize.toNat)
    (hsending : Sending cfg.dramAtomSize.toNat mf.dataSize n)
    (hdone : mf.dataSize ≤ (n + 1) * cfg.dramAtomSize.toNat) : n + 1 = accesses cfg mf := by
  have hlt := (sending_iff hatom).1 hsending
  have hnot : ¬n + 1 < accesses cfg mf := by
    rw [← sending_iff hatom, Sending]
    omega
  omega

/-- The bytes of all accesses: `txbytes` and `dqbytes` do not wrap while this fits in 32 bits. -/
theorem accesses_mul_lt (hatom : 0 < cfg.dramAtomSize.toNat) :
    accesses cfg mf * cfg.dramAtomSize.toNat < max 1 mf.dataSize + cfg.dramAtomSize.toNat := by
  obtain ⟨k, hk⟩ := Nat.exists_eq_succ_of_ne_zero (accesses_pos cfg mf).ne'
  have hsending : Sending cfg.dramAtomSize.toNat mf.dataSize k :=
    (sending_iff hatom).2 (hk ▸ Nat.lt_succ_self k)
  rw [hk, Nat.succ_mul]
  rcases hsending with rfl | hlt
  · omega
  · omega

/-! ## Where the requests are -/

/-- The requests of a run, those that wait (`w`), those that a bank has taken (`a`), and those that are
complete; and the accesses that have left the data queue. -/
structure Tracks (cfg : MemoryConfig) (s : Traced) (w : List Node) (a : List DramReq) : Prop where
  inScheduler : Waiting s.dram.sched w
  inBanks : Active cfg s.dram a
  order : s.issued = s.left ++ s.dram.rwq.items
  perm : (s.pushed.map DramReq.new).Perm (s.dram.requests w a ++ s.completed.map DramReq.new)
  leftIn : ∀ r ∈ s.left, r ∈ a ∨ r ∈ s.completed.map DramReq.new
  returned : ∀ r ∈ a, s.dram.dqbytes r.data.requestUid = s.left.count r * cfg.dramAtomSize.toNat
  more : ∀ r ∈ a, Sending cfg.dramAtomSize.toNat r.nbytes (s.left.count r)
  done : ∀ mf ∈ s.completed, s.left.count (.new mf) = accesses cfg mf

/-- No two requests of the run have one uid. -/
def Traced.Distinct (s : Traced) : Prop := (s.pushed.map (·.requestUid)).Nodup

theorem Tracks.nodup (h : Tracks cfg s w a) (hs : s.Distinct) :
    ((s.dram.requests w a ++ s.completed.map DramReq.new).map DramReq.uid).Nodup := by
  refine (h.perm.map DramReq.uid).nodup_iff.1 ?_
  rw [List.map_map]
  exact hs

theorem Tracks.made (h : Tracks cfg s w a) (hr : r ∈ a) : r = .new r.data := by
  have hmem : r ∈ s.pushed.map DramReq.new :=
    h.perm.mem_iff.2 (List.mem_append_left _ (List.mem_append_right _ hr))
  obtain ⟨mf, -, rfl⟩ := List.mem_map.1 hmem
  rfl

/-- A request that a bank has taken is not complete. -/
theorem Tracks.not_completed (h : Tracks cfg s w a) (hs : s.Distinct) (hr : r ∈ s.dram.requests w a) :
    r ∉ s.completed.map DramReq.new := by
  have hdisjoint := List.nodup_append.1 (List.map_append ▸ h.nodup hs)
  intro hmem
  exact hdisjoint.2.2 _ (List.mem_map_of_mem hr) _ (List.mem_map_of_mem hmem) rfl

/-! ## A cycle -/

/-- Requests that a bank takes have no access yet. -/
theorem Tracks.shift (h : Tracks cfg s w a) (hs : s.Distinct) (hshift : Shifts cfg s.dram d') :
    ∃ w' a', Tracks cfg { s with dram := d' } w' a' := by
  have hnodup := h.nodup hs
  rw [List.map_append] at hnodup
  obtain ⟨w', a', hw', ha', hperm, hsub⟩ :=
    hshift.requests w a h.inScheduler h.inBanks (List.nodup_append.1 hnodup).1
  have hnew : ∀ r ∈ a', r ∉ a → s.left.count r = 0 ∧ s.dram.dqbytes r.data.requestUid = 0 := by
    intro r hr hra
    constructor
    · refine List.count_eq_zero.2 fun hleft => (h.leftIn r hleft).elim hra (h.not_completed hs ?_)
      exact hperm.mem_iff.2 (List.mem_append_right _ hr)
    · apply h.inBanks.fresh
      intro hmem
      obtain ⟨r', hr', huid⟩ := List.mem_map.1 hmem
      exact hra (List.inj_on_of_nodup_map ha'.distinct (hsub r' hr') hr huid ▸ hr')
  refine ⟨w', a', hw', ha', ?_, h.perm.trans (hperm.append_right _), fun r hr => ?_, fun r hr => ?_,
    fun r hr => ?_, h.done⟩
  · dsimp only
    rw [hshift.rwq]
    exact h.order
  · exact (h.leftIn r hr).imp_left (hsub r)
  · dsimp only
    rw [hshift.dqbytes]
    by_cases hra : r ∈ a
    · exact h.returned r hra
    · obtain ⟨hcount, hdq⟩ := hnew r hr hra
      rw [hcount, hdq, Nat.zero_mul]
  · by_cases hra : r ∈ a
    · exact h.more r hra
    · exact Or.inl (hnew r hr hra).1

theorem count_concat_self (l : List DramReq) (r : DramReq) : (l ++ [r]).count r = l.count r + 1 := by
  rw [List.count_append, List.count_singleton_self]

theorem count_concat_of_ne (l : List DramReq) {r r' : DramReq} (hne : r ≠ r') :
    (l ++ [r']).count r = l.count r := by
  rw [List.count_append, List.count_singleton, if_neg (by simpa using hne.symm), Nat.add_zero]

section

variable {cmd : DramReq} {rwq : Fifo DramReq}

theorem Tracks.inRwq (h : Tracks cfg s w a) (hitems : s.dram.rwq.items = cmd :: rwq.items) : cmd ∈ a :=
  h.inBanks.inRwq cmd (hitems ▸ List.mem_cons_self)

theorem Tracks.order_pop (h : Tracks cfg s w a) (hitems : s.dram.rwq.items = cmd :: rwq.items) :
    s.issued = (s.left ++ [cmd]) ++ rwq.items := by
  rw [h.order, hitems, List.append_assoc]
  rfl

theorem Tracks.done_pop (h : Tracks cfg s w a) (hs : s.Distinct) (hcmd : cmd ∈ a) :
    ∀ mf ∈ s.completed, (s.left ++ [cmd]).count (.new mf) = accesses cfg mf := by
  intro mf hmf
  rw [count_concat_of_ne, h.done mf hmf]
  rintro rfl
  exact h.not_completed hs (List.mem_append_right _ hcmd) (List.mem_map_of_mem hmf)

/-- An access leaves the data queue that is not the last one. -/
theorem Tracks.back (h : Tracks cfg s w a) (hs : s.Distinct)
    (hitems : s.dram.rwq.items = cmd :: rwq.items)
    (hmore : ¬cmd.nbytes ≤ s.dram.dqbytes cmd.data.requestUid + cfg.dramAtomSize.toNat) :
    Tracks cfg { s with
      dram := { s.dram with
        rwq
        dqbytes := Function.update s.dram.dqbytes cmd.data.requestUid
          (s.dram.dqbytes cmd.data.requestUid + cfg.dramAtomSize.toNat) }
      left := s.left ++ [cmd] } w a := by
  have hcmd := h.inRwq hitems
  have hback := h.returned cmd hcmd
  refine ⟨h.inScheduler, h.inBanks.back hitems, h.order_pop hitems, h.perm, fun r hr => ?_,
    fun r hr => ?_, fun r hr => ?_, h.done_pop hs hcmd⟩
  · rcases List.mem_append.1 hr with hr | hr
    · exact h.leftIn r hr
    · exact Or.inl (List.mem_singleton.1 hr ▸ hcmd)
  · dsimp only
    by_cases heq : r = cmd
    · rw [heq, Function.update_self, count_concat_self, Nat.add_one_mul, hback]
    · rw [Function.update_of_ne (h.inBanks.uid_ne hcmd hr heq), count_concat_of_ne _ heq]
      exact h.returned r hr
  · dsimp only
    by_cases heq : r = cmd
    · rw [heq, count_concat_self]
      right
      rw [Nat.add_one_mul, ← hback]
      exact Nat.lt_of_not_le hmore
    · rw [count_concat_of_ne _ heq]
      exact h.more r hr

/-- The last access of a request leaves the data queue, and the request is complete. -/
theorem Tracks.finish (h : Tracks cfg s w a) (hs : s.Distinct) (hatom : 0 < cfg.dramAtomSize.toNat)
    (hitems : s.dram.rwq.items = cmd :: rwq.items)
    (hlast : cmd.nbytes ≤ s.dram.dqbytes cmd.data.requestUid + cfg.dramAtomSize.toNat)
    (returnq : Fifo MemFetch) :
    Tracks cfg { s with
      dram := { s.dram with rwq, dqbytes := Function.update s.dram.dqbytes cmd.data.requestUid 0, returnq }
      left := s.left ++ [cmd]
      completed := s.completed ++ [cmd.data] } w (a.erase cmd) := by
  have hcmd := h.inRwq hitems
  have hmade := h.made hcmd
  have hnodup : a.Nodup := h.inBanks.distinct.of_map
  have hcount : (s.left ++ [cmd]).count cmd = accesses cfg cmd.data := by
    have hsize : cmd.nbytes = cmd.data.dataSize := by rw [hmade]; rfl
    rw [h.returned cmd hcmd, ← Nat.add_one_mul, hsize] at hlast
    rw [count_concat_self]
    exact accesses_eq hatom (hsize ▸ h.more cmd hcmd) hlast
  refine ⟨h.inScheduler, (h.inBanks.finish hitems hlast).congr rfl rfl fun _ => rfl, h.order_pop hitems,
    h.perm.trans ?_, fun r hr => ?_, fun r hr => ?_, fun r hr => ?_, fun mf hmf => ?_⟩
  · refine List.perm_iff_count.2 fun m => ?_
    have herase := (List.perm_cons_erase hcmd).count_eq m
    rw [List.count_cons] at herase
    simp only [DramT.requests, List.map_append, List.map_cons, List.map_nil, ← hmade, List.count_append,
      List.count_singleton]
    omega
  · rw [List.map_append]
    by_cases heq : r = cmd
    · exact Or.inr (List.mem_append_right _ (List.mem_singleton.2 (heq.trans hmade)))
    · rcases List.mem_append.1 hr with hr | hr
      · exact (h.leftIn r hr).imp (hnodup.mem_erase_iff.2 ⟨heq, ·⟩) (List.mem_append_left _)
      · exact absurd (List.mem_singleton.1 hr) heq
  · obtain ⟨hne, hr⟩ := hnodup.mem_erase_iff.1 hr
    dsimp only
    rw [Function.update_of_ne (h.inBanks.uid_ne hcmd hr hne), count_concat_of_ne _ hne]
    exact h.returned r hr
  · obtain ⟨hne, hr⟩ := hnodup.mem_erase_iff.1 hr
    dsimp only
    rw [count_concat_of_ne _ hne]
    exact h.more r hr
  · rcases List.mem_append.1 hmf with hmf | hmf
    · exact h.done_pop hs hcmd mf hmf
    · obtain rfl := List.mem_singleton.1 hmf
      rw [← hmade]
      exact hcount

end

/-- The data of a cycle: nothing leaves the data queue, or an access does. -/
theorem Tracks.returnData (h : Tracks cfg s w a) (hs : s.Distinct) (hatom : 0 < cfg.dramAtomSize.toNat) :
    ∃ a', Tracks cfg { s with
      dram := (s.dram.returnData cfg).2
      left := s.left ++ s.dram.leaving.toList
      completed := s.completed ++ s.dram.completing cfg } w a' := by
  have hitems := Fifo.items_pop s.dram.rwq
  unfold DramT.completing DramT.leaving DramT.returnData
  split_ifs
  · exact ⟨a, by simpa using h⟩
  split
  · rename_i rwq hpop
    rw [hpop] at hitems
    refine ⟨a, ?_⟩
    have hframe : Tracks cfg { s with dram := { s.dram with rwq } } w a :=
      ⟨h.inScheduler, h.inBanks.congr rfl hitems.symm fun _ => rfl, h.order.trans (by rw [hitems]; rfl),
        h.perm, h.leftIn, h.returned, h.more, h.done⟩
    simpa [hpop] using hframe
  · rename_i cmd rwq hpop
    rw [hpop] at hitems
    dsimp only
    split_ifs with hlast hwrbk
    · refine ⟨a.erase cmd, ?_⟩
      simpa [hpop] using h.finish hs hatom hitems hlast s.dram.returnq
    · refine ⟨a.erase cmd, ?_⟩
      simpa [hpop, Fifo.items_push] using
        h.finish hs hatom hitems hlast (s.dram.returnq.push (some cmd.data))
    · refine ⟨a, ?_⟩
      simpa [hpop] using h.back hs hitems hlast

/-- What does not touch a request leaves it where it is. -/
theorem Tracks.frame (h : Tracks cfg s w a) (hsched : d'.sched = s.dram.sched)
    (hdq : d'.dqbytes = s.dram.dqbytes) (hrwq : d'.rwq = s.dram.rwq) (hmrqq : d'.mrqq = s.dram.mrqq)
    (hmrq : ∀ b, (d'.bk b).mrq = (s.dram.bk b).mrq) : Tracks cfg { s with dram := d' } w a := by
  refine ⟨?_, h.inBanks.congr hdq (by rw [hrwq]) hmrq, ?_, ?_, h.leftIn, ?_, h.more, h.done⟩
  · rw [hsched]
    exact h.inScheduler
  · dsimp only
    rw [hrwq]
    exact h.order
  · dsimp only
    rw [DramT.requests, hmrqq]
    exact h.perm
  · dsimp only
    rw [hdq]
    exact h.returned

theorem Tracks.transfer (h : Tracks cfg s w a) (j : ℕ) (rw : Rw) (len : UInt32) :
    Tracks cfg { s with
      dram := s.dram.transfer cfg j rw len
      issued := s.issued ++ ((s.dram.bk j).mrq.map Prod.fst).toList } w a := by
  obtain ⟨hsched, hmrqq, -, hdq, hrwq⟩ := transfer_frame cfg s.dram j rw len
  refine ⟨?_, h.inBanks.transfer j rw len, ?_, ?_, h.leftIn, ?_, h.more, h.done⟩
  · rw [hsched]
    exact h.inScheduler
  · dsimp only
    rw [hrwq, h.order, List.append_assoc]
  · dsimp only
    rw [DramT.requests, hmrqq]
    exact h.perm
  · dsimp only
    rw [hdq]
    exact h.returned

theorem Tracks.issueOpt (h : Tracks cfg s w a) (c : Option Command) :
    Tracks cfg { s with
      dram := s.dram.issueOpt cfg c
      issued := s.issued ++ (s.dram.accessed c).toList } w a := by
  cases c with
  | none => simpa [DramT.issueOpt, DramT.accessed] using h
  | some c =>
    obtain ⟨kind, j, row⟩ := c
    cases kind with
    | rd => exact (h.transfer j .read cfg.cl).frame rfl rfl rfl rfl (mrq_update rfl)
    | wr => exact (h.transfer j .write cfg.wl).frame rfl rfl rfl rfl (mrq_update rfl)
    | act =>
      have hframe : Tracks cfg { s with dram := s.dram.issue cfg ⟨.act, j, row⟩ } w a :=
        h.frame rfl rfl rfl rfl (mrq_update rfl)
      simpa [DramT.issueOpt, DramT.accessed] using hframe
    | pre =>
      have hframe : Tracks cfg { s with dram := s.dram.issue cfg ⟨.pre, j, row⟩ } w a :=
        h.frame rfl rfl rfl rfl (mrq_update rfl)
      simpa [DramT.issueOpt, DramT.accessed] using hframe

/-! ## Every run -/

/-- A step keeps track of the requests. -/
theorem tracks_exec {e : Event} (hatom : 0 < cfg.dramAtomSize.toNat) (hs : s.Distinct)
    (h : Tracks cfg s w a) (hexec : s.exec cfg e = some s') : ∃ w' a', Tracks cfg s' w' a' := by
  cases e with
  | push data =>
    obtain rfl := Option.some.inj hexec
    refine ⟨w, a, h.inScheduler, h.inBanks.congr rfl rfl fun _ => rfl, h.order, ?_, h.leftIn, h.returned,
      h.more, h.done⟩
    refine List.perm_iff_count.2 fun m => ?_
    have hcount := h.perm.count_eq m
    simp only [DramT.requests, DramT.push, Fifo.items_push, Option.toList_some, List.map_append,
      List.map_cons, List.map_nil, List.count_append] at hcount ⊢
    omega
  | returnQueuePop =>
    obtain rfl := Option.some.inj hexec
    exact ⟨w, a, h.frame rfl rfl rfl rfl fun _ => rfl⟩
  | cycle =>
    obtain ⟨⟨done, dram⟩, hcycle, hexec⟩ := Option.bind_eq_some_iff.1 hexec
    obtain ⟨scheduled, hscheduled, hexec⟩ := Option.bind_eq_some_iff.1 hexec
    obtain rfl := Option.some.inj hexec
    obtain ⟨d₂, hsched, rfl, rfl⟩ := cycle_spec hcycle
    obtain rfl := Option.some.inj (hscheduled.symm.trans hsched)
    obtain ⟨a₁, h₁⟩ := h.returnData hs hatom
    obtain ⟨w₂, a₂, h₂⟩ := h₁.shift hs (shifts_scheduler hsched)
    exact ⟨w₂, a₂, (h₂.issueOpt _).frame rfl rfl rfl rfl fun _ => rfl⟩

theorem exec_pushed {e : Event} (hexec : s.exec cfg e = some s') : s'.pushed = s.pushed ++ pushes [e] := by
  cases e with
  | push data =>
    obtain rfl := Option.some.inj hexec
    rfl
  | returnQueuePop =>
    obtain rfl := Option.some.inj hexec
    exact (List.append_nil _).symm
  | cycle =>
    obtain ⟨_, _, hexec⟩ := Option.bind_eq_some_iff.1 hexec
    obtain ⟨_, _, hexec⟩ := Option.bind_eq_some_iff.1 hexec
    obtain rfl := Option.some.inj hexec
    exact (List.append_nil _).symm

theorem pushes_cons (e : Event) (events : List Event) : pushes (e :: events) = pushes [e] ++ pushes events := by
  cases e <;> rfl

theorem tracks_run {events : List Event} (hatom : 0 < cfg.dramAtomSize.toNat) (h : Tracks cfg s w a)
    (hdistinct : ((s.pushed ++ pushes events).map (·.requestUid)).Nodup)
    (hrun : events.foldlM (Traced.exec cfg) s = some s') :
    s'.pushed = s.pushed ++ pushes events ∧ ∃ w' a', Tracks cfg s' w' a' := by
  induction events generalizing s w a with
  | nil =>
    obtain rfl := Option.some.inj hrun
    exact ⟨(List.append_nil _).symm, w, a, h⟩
  | cons e events ih =>
    rw [List.foldlM_cons] at hrun
    obtain ⟨t, ht, hrest⟩ := Option.bind_eq_some_iff.1 hrun
    have hs : s.Distinct := by
      rw [List.map_append] at hdistinct
      exact (List.nodup_append.1 hdistinct).1
    obtain ⟨w₁, a₁, h₁⟩ := tracks_exec hatom hs h ht
    have hpushed := exec_pushed ht
    rw [pushes_cons, ← List.append_assoc, ← hpushed] at hdistinct ⊢
    exact ih h₁ hdistinct hrest

theorem tracks_new : Tracks cfg { dram := .new cfg } [] [] where
  inScheduler := ⟨fun _ => .refl _, fun _ hn => absurd hn List.not_mem_nil, List.nodup_nil⟩
  inBanks := active_new
  order := by simp [DramT.new]
  perm := by simp [DramT.requests, DramT.new]
  leftIn _ hr := absurd hr List.not_mem_nil
  returned _ hr := absurd hr List.not_mem_nil
  more _ hr := absurd hr List.not_mem_nil
  done _ hmf := absurd hmf List.not_mem_nil

/-! ## Complete requests -/

/-- The request waits in a queue or is in its bank: it gets another access. -/
def Traced.Pending (s : Traced) (mf : MemFetch) : Prop :=
  .new mf ∈ s.dram.mrqq.items ∨ (∃ node ∈ s.dram.sched.queue mf.bk, node.req = .new mf) ∨
    ∃ tx, (s.dram.bk mf.bk).mrq = some (.new mf, tx)

/-- What holds of a request that was pushed: it never gets more than its accesses, it waits for another one
as long as it has not got all of them, and it is complete, once, just when all of them have left the data
queue. -/
structure CompletesOnce (cfg : MemoryConfig) (s : Traced) (mf : MemFetch) : Prop where
  issued_le : s.issued.count (.new mf) ≤ accesses cfg mf
  pending_iff : s.Pending mf ↔ s.issued.count (.new mf) < accesses cfg mf
  completed : s.completed.count mf = if s.left.count (.new mf) = accesses cfg mf then 1 else 0

theorem Tracks.issued_count (h : Tracks cfg s w a) (r : DramReq) :
    s.issued.count r = s.left.count r + s.dram.rwq.items.count r := by
  rw [h.order, List.count_append]

theorem Tracks.mem_of_pending (h : Tracks cfg s w a) (hp : s.Pending mf) : .new mf ∈ s.dram.requests w a := by
  rcases hp with hq | ⟨node, hnode, hreq⟩ | ⟨tx, hbank⟩
  · exact List.mem_append_left _ (List.mem_append_left _ hq)
  · have hw : node ∈ w := (List.mem_filter.1 ((h.inScheduler.queue mf.bk).mem_iff.1 hnode)).1
    exact List.mem_append_left _ (List.mem_append_right _ (hreq ▸ List.mem_map_of_mem hw))
  · exact List.mem_append_right _ (h.inBanks.inBank mf.bk _ tx hbank).1

theorem new_mem_completed : .new mf ∈ s.completed.map DramReq.new ↔ mf ∈ s.completed := by
  rw [List.mem_map]
  constructor
  · rintro ⟨mf', hmf', heq⟩
    have hdata : mf' = mf := congrArg DramReq.data heq
    exact hdata ▸ hmf'
  · exact fun hmf => ⟨mf, hmf, rfl⟩

/-- A request that no bank has taken has no access. -/
theorem Tracks.waiting_spec (h : Tracks cfg s w a) (hs : s.Distinct)
    (hr : .new mf ∈ s.dram.mrqq.items ++ w.map (·.req)) : CompletesOnce cfg s mf := by
  have hreq : .new mf ∈ s.dram.requests w a := List.mem_append_left _ hr
  have hcompleted := h.not_completed hs hreq
  have hnodup := h.nodup hs
  rw [List.map_append] at hnodup
  have ha : .new mf ∉ a := fun ha =>
    uid_not_active (List.nodup_append.1 hnodup).1 hr (List.mem_map_of_mem (f := (·.data.requestUid)) ha)
  have hleft : s.left.count (.new mf) = 0 :=
    List.count_eq_zero.2 fun hmem => (h.leftIn _ hmem).elim ha hcompleted
  have hrwq : s.dram.rwq.items.count (.new mf) = 0 :=
    List.count_eq_zero.2 fun hmem => ha (h.inBanks.inRwq _ hmem)
  have hissued : s.issued.count (.new mf) = 0 := by rw [h.issued_count, hleft, hrwq]
  have hpos := accesses_pos cfg mf
  refine ⟨by omega, ⟨fun _ => by omega, fun _ => ?_⟩, ?_⟩
  · rcases List.mem_append.1 hr with hq | hw
    · exact Or.inl hq
    · obtain ⟨node, hnode, hnew⟩ := List.mem_map.1 hw
      refine Or.inr (Or.inl ⟨node, (h.inScheduler.queue mf.bk).mem_iff.2 ?_, hnew⟩)
      exact List.mem_filter.2 ⟨hnode, by simp [hnew, DramReq.new]⟩
  · rw [if_neg (by omega), List.count_eq_zero]
    exact fun hmem => hcompleted (new_mem_completed.2 hmem)

/-- A request that a bank has taken is in its bank until its last access is issued. -/
theorem Tracks.active_spec (h : Tracks cfg s w a) (hs : s.Distinct) (hatom : 0 < cfg.dramAtomSize.toNat)
    (hr : .new mf ∈ a) : CompletesOnce cfg s mf := by
  have hreq : .new mf ∈ s.dram.requests w a := List.mem_append_right _ hr
  have hcompleted := h.not_completed hs hreq
  have hnodup := h.nodup hs
  rw [List.map_append] at hnodup
  have hwaiting : .new mf ∉ s.dram.mrqq.items ++ w.map (·.req) := fun hw =>
    uid_not_active (List.nodup_append.1 hnodup).1 hw (List.mem_map_of_mem (f := (·.data.requestUid)) hr)
  have hmore : s.left.count (.new mf) < accesses cfg mf := (sending_iff hatom).1 (h.more _ hr)
  have hcount : s.completed.count mf = if s.left.count (.new mf) = accesses cfg mf then 1 else 0 := by
    rw [if_neg hmore.ne, List.count_eq_zero]
    exact fun hmem => hcompleted (new_mem_completed.2 hmem)
  obtain ⟨k, hk, hcase⟩ := h.inBanks.progress _ hr
  have hkleft : k = s.left.count (.new mf) :=
    Nat.eq_of_mul_eq_mul_right hatom (hk.symm.trans (h.returned _ hr))
  rw [hkleft, ← h.issued_count] at hcase
  rcases hcase with ⟨hbank, hsending⟩ | ⟨hgone, m, hm, hdone, hsending⟩
  · have hlt := (sending_iff hatom).1 hsending
    exact ⟨hlt.le, ⟨fun _ => hlt, fun _ => Or.inr (Or.inr ⟨_, hbank⟩)⟩, hcount⟩
  · have hall : s.issued.count (.new mf) = accesses cfg mf := hm.trans (accesses_eq hatom hsending hdone)
    refine ⟨hall.le, ⟨fun hp => ?_, fun hlt => absurd hlt (by omega)⟩, hcount⟩
    rcases hp with hq | ⟨node, hnode, hnew⟩ | ⟨tx, hbank⟩
    · exact absurd (List.mem_append_left _ hq) hwaiting
    · have hw : node ∈ w := (List.mem_filter.1 ((h.inScheduler.queue mf.bk).mem_iff.1 hnode)).1
      exact absurd (List.mem_append_right _ (hnew ▸ List.mem_map_of_mem hw)) hwaiting
    · exact absurd hbank (hgone tx)

/-- A complete request is nowhere else. -/
theorem Tracks.completed_spec (h : Tracks cfg s w a) (hs : s.Distinct) (hmf : mf ∈ s.completed) :
    CompletesOnce cfg s mf := by
  have hmem : .new mf ∈ s.completed.map DramReq.new := new_mem_completed.2 hmf
  have hreq : .new mf ∉ s.dram.requests w a := fun hr => h.not_completed hs hr hmem
  have hleft := h.done mf hmf
  have hrwq : s.dram.rwq.items.count (.new mf) = 0 :=
    List.count_eq_zero.2 fun hq => hreq (List.mem_append_right _ (h.inBanks.inRwq _ hq))
  have hissued : s.issued.count (.new mf) = accesses cfg mf := by rw [h.issued_count, hleft, hrwq]; rfl
  have hnodup := h.nodup hs
  rw [List.map_append] at hnodup
  have hcompleted : s.completed.Nodup := (List.nodup_append.1 hnodup).2.1.of_map.of_map
  refine ⟨hissued.le, ⟨fun hp => absurd (h.mem_of_pending hp) hreq, fun hlt => absurd hlt (by omega)⟩, ?_⟩
  rw [if_pos hleft]
  exact List.count_eq_one_of_mem hcompleted hmf

theorem Tracks.spec (h : Tracks cfg s w a) (hs : s.Distinct) (hatom : 0 < cfg.dramAtomSize.toNat)
    (hmf : mf ∈ s.pushed) : CompletesOnce cfg s mf := by
  have hmem := h.perm.mem_iff.1 (List.mem_map_of_mem (f := DramReq.new) hmf)
  rcases List.mem_append.1 hmem with hreq | hcompleted
  · rcases List.mem_append.1 hreq with hwaiting | hactive
    · exact h.waiting_spec hs hwaiting
    · exact h.active_spec hs hatom hactive
  · exact h.completed_spec hs (new_mem_completed.1 hcompleted)

/-- The bytes of the accesses of a request whose size leaves room for one more access in 32 bits. -/
theorem CompletesOnce.bytes_lt (h : CompletesOnce cfg s mf) (hatom : 0 < cfg.dramAtomSize.toNat)
    (hsize : mf.dataSize + cfg.dramAtomSize.toNat ≤ 2 ^ 32) :
    s.issued.count (.new mf) * cfg.dramAtomSize.toNat < 2 ^ 32 := by
  have hword := UInt32.toNat_lt cfg.dramAtomSize
  have hbytes : accesses cfg mf * cfg.dramAtomSize.toNat < max 1 mf.dataSize + cfg.dramAtomSize.toNat :=
    accesses_mul_lt hatom
  have hle := Nat.mul_le_mul_right cfg.dramAtomSize.toNat h.issued_le
  omega

/-- In every run every request gets its accesses and completes once, when the last of them leaves the data
queue; its counters of bytes stay within 32 bits when its size is one access below that; the accesses
leave the queue in the order in which they were issued; and a bank that is free does not stay idle while a
request waits for it, unless another bank takes one. -/
theorem completes_once {events : List Event} {s : Traced} (hatom : 0 < cfg.dramAtomSize.toNat)
    (hdistinct : ((pushes events).map (·.requestUid)).Nodup) (hrun : Traced.run cfg events = some s) :
    s.issued = s.left ++ s.dram.rwq.items ∧ (∀ mf ∈ s.completed, mf ∈ pushes events) ∧
      (∀ mf ∈ pushes events, CompletesOnce cfg s mf ∧ (mf.dataSize + cfg.dramAtomSize.toNat ≤ 2 ^ 32 →
        s.issued.count (.new mf) * cfg.dramAtomSize.toNat < 2 ^ 32)) ∧
      ∀ b d, s.dram.Offers cfg b → (s.dram.bk b).mrq = none → s.dram.scheduler cfg = some d →
        Takes s.dram d := by
  obtain ⟨hpushed, w, a, h⟩ := tracks_run hatom tracks_new hdistinct hrun
  have heq : s.pushed = pushes events := hpushed
  have hs : s.Distinct := by
    rw [Traced.Distinct, heq]
    exact hdistinct
  have hspec : ∀ mf ∈ pushes events, CompletesOnce cfg s mf := fun mf hmf => h.spec hs hatom (heq ▸ hmf)
  refine ⟨h.order, fun mf hmf => ?_, fun mf hmf => ⟨hspec mf hmf, (hspec mf hmf).bytes_lt hatom⟩,
    fun b d hoffers hfree hsched => scheduler_takes hsched hoffers hfree⟩
  have hmem := h.perm.mem_iff.2 (List.mem_append_right _ (new_mem_completed.2 hmf))
  obtain ⟨mf', hmf', hnew⟩ := List.mem_map.1 hmem
  have hdata : mf' = mf := congrArg DramReq.data hnew
  rw [← heq, ← hdata]
  exact hmf'

/-- A read of 17 bytes, in bursts of 16. -/
def twoBursts : List Event := .push ⟨0, false, .globalAccR, 17, 7, 0, 0⟩ :: List.replicate 18 .cycle

theorem completes_once_two : ∃ s, Traced.run twelveBanks twoBursts = some s ∧
    ∀ mf ∈ pushes twoBursts, CompletesOnce twelveBanks s mf ∧ s.issued.count (.new mf) * 16 < 2 ^ 32 := by
  have hrun : (Traced.run twelveBanks twoBursts).isSome := by decide +kernel
  obtain ⟨s, hs⟩ := Option.isSome_iff_exists.1 hrun
  refine ⟨s, hs, fun mf hmf => ?_⟩
  obtain ⟨honce, hbytes⟩ := (completes_once (by decide) (by decide) hs).2.2.1 mf hmf
  obtain rfl := List.mem_singleton.1 (hmf : mf ∈ [_])
  exact ⟨honce, hbytes (by decide)⟩

/-- A request without bytes. -/
def emptyRead : MemFetch := ⟨0, false, .globalAccR, 0, 7, 0, 0⟩

/-- It gets an access all the same. -/
theorem emptyRead_accessed :
    ¬∀ (cfg : MemoryConfig) (events : List Event) (s : Traced), 0 < cfg.dramAtomSize.toNat →
      ((pushes events).map (·.requestUid)).Nodup → Traced.run cfg events = some s →
        ∀ mf ∈ s.completed, s.issued.count (.new mf) =
          (mf.dataSize + cfg.dramAtomSize.toNat - 1) / cfg.dramAtomSize.toNat := by
  intro h
  have hrun : (Traced.run twelveBanks (.push emptyRead :: List.replicate 7 .cycle)).map
      (fun s => (s.completed, s.issued.count (.new emptyRead))) = some ([emptyRead], 1) := by
    decide +kernel
  obtain ⟨s, hs, heq⟩ := Option.map_eq_some_iff.1 hrun
  obtain ⟨hcompleted, hissued⟩ := Prod.mk.inj heq
  have hceil := h twelveBanks _ s (by decide) (by decide) hs emptyRead
    (hcompleted ▸ List.mem_singleton_self _)
  rw [hissued] at hceil
  exact absurd hceil (by decide)

end CompressionWork.Dram
