import CompressionWork.Dram.Channel

/-!
# The requests in a channel

No request is lost or doubled between `push` and the return queue.

* `Active` — the requests that a bank has taken: each is in its bank until its last burst is sent, and
  leaves with the last burst that comes back.
* `Waiting` — the requests in the queues of the scheduler.
* `Shifts` — a part of a cycle that only moves requests towards the banks.
* `cycle_perm` — a cycle only moves requests on.
-/

namespace CompressionWork.Dram

variable {cfg : MemoryConfig} {d d' : DramT} {active : List DramReq} {waiting : List Node} {r : DramReq}

/-! ## Requests that a bank has taken -/

/-- A request of `nbytes` bytes is not done after `n` bursts. -/
def Sending (atom nbytes n : ℕ) : Prop := n = 0 ∨ n * atom < nbytes

/-- `k` bursts of the request have come back and the others are on their way; the request is in its bank as
long as there are bursts to send. -/
def Progress (cfg : MemoryConfig) (d : DramT) (r : DramReq) : Prop :=
  ∃ k, d.dqbytes r.data.requestUid = k * cfg.dramAtomSize.toNat ∧
    ((d.bk r.bk).mrq = some (r, (k + d.rwq.items.count r) * cfg.dramAtomSize.toNat) ∧
        Sending cfg.dramAtomSize.toNat r.nbytes (k + d.rwq.items.count r) ∨
      (∀ tx, (d.bk r.bk).mrq ≠ some (r, tx)) ∧ ∃ m, k + d.rwq.items.count r = m + 1 ∧
        r.nbytes ≤ (m + 1) * cfg.dramAtomSize.toNat ∧ Sending cfg.dramAtomSize.toNat r.nbytes m)

/-- The requests that were scheduled and are not complete, each in its bank, in the queue, or in both. -/
structure Active (cfg : MemoryConfig) (d : DramT) (active : List DramReq) : Prop where
  distinct : (active.map (·.data.requestUid)).Nodup
  inRwq : ∀ r ∈ d.rwq.items, r ∈ active
  inBank : ∀ b r tx, (d.bk b).mrq = some (r, tx) → r ∈ active ∧ r.bk = b
  progress : ∀ r ∈ active, Progress cfg d r
  fresh : ∀ uid, uid ∉ active.map (·.data.requestUid) → d.dqbytes uid = 0

/-- What does not touch a request leaves it where it is. -/
theorem Progress.frame (h : Progress cfg d r)
    (hdq : d'.dqbytes r.data.requestUid = d.dqbytes r.data.requestUid)
    (hcount : d'.rwq.items.count r = d.rwq.items.count r)
    (hmrq : ∀ tx, (d'.bk r.bk).mrq = some (r, tx) ↔ (d.bk r.bk).mrq = some (r, tx)) : Progress cfg d' r := by
  obtain ⟨k, hk, hcase⟩ := h
  refine ⟨k, hdq.trans hk, ?_⟩
  simp only [hcount, ne_eq, hmrq]
  exact hcase

theorem Active.uid_ne (h : Active cfg d active) {r' : DramReq} (hr : r ∈ active) (hr' : r' ∈ active)
    (hne : r' ≠ r) : r'.data.requestUid ≠ r.data.requestUid :=
  fun heq => hne (List.inj_on_of_nodup_map h.distinct hr' hr heq)

theorem Active.congr (h : Active cfg d active) (hdq : d'.dqbytes = d.dqbytes)
    (hrwq : d'.rwq.items = d.rwq.items) (hmrq : ∀ b, (d'.bk b).mrq = (d.bk b).mrq) :
    Active cfg d' active where
  distinct := h.distinct
  inRwq := by
    rw [hrwq]
    exact h.inRwq
  inBank b r tx hb := by
    rw [hmrq] at hb
    exact h.inBank b r tx hb
  progress r hr := by
    rw [Progress, hdq, hrwq, hmrq]
    exact h.progress r hr
  fresh := by
    rw [hdq]
    exact h.fresh

theorem active_new : Active cfg (.new cfg) [] where
  distinct := List.nodup_nil
  inRwq r hr := by simp [DramT.new] at hr
  inBank b r tx hb := by simp [DramT.new] at hb
  progress r hr := absurd hr List.not_mem_nil
  fresh _ _ := rfl

/-- A bank takes a request. -/
theorem Active.start (h : Active cfg d active) (hidle : (d.bk r.bk).mrq = none)
    (hnew : r.data.requestUid ∉ active.map (·.data.requestUid)) :
    Active cfg { d with bk := Function.update d.bk r.bk { d.bk r.bk with mrq := some (r, 0) } }
      (r :: active) := by
  have hr : r ∉ active := fun hr => hnew (List.mem_map_of_mem hr)
  constructor
  · exact List.nodup_cons.2 ⟨hnew, h.distinct⟩
  · exact fun r' hr' => List.mem_cons_of_mem _ (h.inRwq r' hr')
  · intro b r' tx hb
    by_cases hbank : b = r.bk
    · subst hbank
      simp only [Function.update_self, Option.some.injEq, Prod.mk.injEq] at hb
      obtain ⟨rfl, -⟩ := hb
      exact ⟨List.mem_cons_self, rfl⟩
    · simp only [Function.update_of_ne hbank] at hb
      exact (h.inBank b r' tx hb).imp_left (List.mem_cons_of_mem _)
  · intro r' hr'
    rcases List.mem_cons.1 hr' with rfl | hr'
    · have hcount : d.rwq.items.count r' = 0 := List.count_eq_zero.2 fun hmem => hr (h.inRwq r' hmem)
      refine ⟨0, by rw [h.fresh _ hnew, Nat.zero_mul], Or.inl ?_⟩
      dsimp only
      rw [hcount, Function.update_self, Nat.zero_mul]
      exact ⟨rfl, Or.inl rfl⟩
    · refine (h.progress r' hr').frame rfl rfl fun tx => ?_
      by_cases hbank : r'.bk = r.bk
      · have hne : r ≠ r' := by
          rintro rfl
          exact hr hr'
        simp [hbank, hidle, hne]
      · simp only [Function.update_of_ne hbank]
  · intro uid huid
    rw [List.map_cons, List.mem_cons, not_or] at huid
    exact h.fresh uid huid.2

/-- A burst is sent. -/
theorem Active.transfer (h : Active cfg d active) (j : ℕ) (rw : Rw) (len : UInt32) :
    Active cfg (d.transfer cfg j rw len) active := by
  unfold DramT.transfer
  split
  · exact h
  · rename_i r tx hmrq
    obtain ⟨hr, rfl⟩ := h.inBank j r tx hmrq
    have hitems : ((if d.rw = rw then d.rwq else d.rwq.setMinLength len.toNat).push (some r)).items =
        d.rwq.items ++ [r] := by
      rw [Fifo.items_push]
      split_ifs
      · rfl
      · rw [Fifo.items_setMinLength]
        rfl
    constructor
    · exact h.distinct
    · intro r' hr'
      dsimp only at hr'
      rw [hitems] at hr'
      rcases List.mem_append.1 hr' with hr' | hr'
      · exact h.inRwq r' hr'
      · obtain rfl := List.mem_singleton.1 hr'
        exact hr
    · intro b r' tx' hb
      by_cases hbank : b = r.bk
      · subst hbank
        simp only [Function.update_self] at hb
        split_ifs at hb
        simp only [Option.some.injEq, Prod.mk.injEq] at hb
        obtain ⟨rfl, -⟩ := hb
        exact ⟨hr, rfl⟩
      · simp only [Function.update_of_ne hbank] at hb
        exact h.inBank b r' tx' hb
    · intro r' hr'
      by_cases heq : r' = r
      · subst heq
        obtain ⟨k, hk, ⟨htx, hsending⟩ | ⟨hgone, -⟩⟩ := h.progress r' hr'
        · rw [hmrq] at htx
          obtain ⟨-, rfl⟩ := Prod.mk.inj (Option.some.inj htx)
          refine ⟨k, hk, ?_⟩
          dsimp only
          rw [hitems, List.count_append, List.count_singleton_self, ← Nat.add_assoc, Function.update_self,
            Nat.add_one_mul]
          split_ifs with hmore
          · exact Or.inl ⟨rfl, Or.inr (by rwa [Nat.add_one_mul])⟩
          · refine Or.inr ⟨nofun, k + d.rwq.items.count r', rfl, ?_, hsending⟩
            rw [Nat.add_one_mul]
            exact Nat.le_of_not_lt hmore
        · exact absurd hmrq (hgone tx)
      · refine (h.progress r' hr').frame rfl ?_ fun tx' => ?_
        · dsimp only
          rw [hitems, List.count_append, List.count_singleton]
          simp [Ne.symm heq]
        · by_cases hbank : r'.bk = r.bk
          · simp only [hbank, Function.update_self, hmrq]
            split_ifs <;> simp [Ne.symm heq]
          · simp only [Function.update_of_ne hbank]
    · exact h.fresh

/-- A burst comes back that is not the last one. -/
theorem Active.back (h : Active cfg d active) {rwq : Fifo DramReq} (hitems : d.rwq.items = r :: rwq.items) :
    Active cfg { d with
      rwq
      dqbytes := Function.update d.dqbytes r.data.requestUid
        (d.dqbytes r.data.requestUid + cfg.dramAtomSize.toNat) } active := by
  have hr : r ∈ active := h.inRwq r (hitems ▸ List.mem_cons_self)
  constructor
  · exact h.distinct
  · exact fun r' hr' => h.inRwq r' (hitems ▸ List.mem_cons_of_mem _ hr')
  · exact h.inBank
  · intro r' hr'
    by_cases heq : r' = r
    · subst heq
      obtain ⟨k, hk, hcase⟩ := h.progress r' hr'
      refine ⟨k + 1, ?_, ?_⟩
      · dsimp only
        rw [Function.update_self, hk, Nat.add_one_mul]
      · rw [hitems, List.count_cons_self] at hcase
        dsimp only
        rw [Nat.add_right_comm]
        exact hcase
    · refine (h.progress r' hr').frame ?_ ?_ fun _ => Iff.rfl
      · exact Function.update_of_ne (h.uid_ne hr hr' heq) _ _
      · rw [hitems, List.count_cons_of_ne (Ne.symm heq)]
  · intro uid huid
    have hne : uid ≠ r.data.requestUid := by
      rintro rfl
      exact huid (List.mem_map_of_mem hr)
    dsimp only
    rw [Function.update_of_ne hne]
    exact h.fresh uid huid

/-- The last burst comes back: the request is nowhere else. -/
theorem Active.last (h : Active cfg d active) {rwq : Fifo DramReq} (hitems : d.rwq.items = r :: rwq.items)
    (hdone : r.nbytes ≤ d.dqbytes r.data.requestUid + cfg.dramAtomSize.toNat) :
    rwq.items.count r = 0 ∧ ∀ tx, (d.bk r.bk).mrq ≠ some (r, tx) := by
  obtain ⟨k, hk, hcase⟩ := h.progress r (h.inRwq r (hitems ▸ List.mem_cons_self))
  rw [hitems, List.count_cons_self] at hcase
  rw [hk, ← Nat.add_one_mul] at hdone
  rcases hcase with ⟨-, hzero | hmore⟩ | ⟨hgone, m, hm, -, hzero | hmore⟩
  · exact absurd hzero (by omega)
  · have hle : (k + 1) * cfg.dramAtomSize.toNat ≤ (k + (rwq.items.count r + 1)) * cfg.dramAtomSize.toNat :=
      Nat.mul_le_mul_right _ (by omega)
    exact absurd (hmore.trans_le hdone) (Nat.not_lt.2 hle)
  · exact ⟨by omega, hgone⟩
  · have hlt : m < k + 1 := Nat.lt_of_mul_lt_mul_right (hmore.trans_le hdone)
    exact ⟨by omega, hgone⟩

theorem Active.finish (h : Active cfg d active) {rwq : Fifo DramReq}
    (hitems : d.rwq.items = r :: rwq.items)
    (hdone : r.nbytes ≤ d.dqbytes r.data.requestUid + cfg.dramAtomSize.toNat) :
    Active cfg { d with rwq, dqbytes := Function.update d.dqbytes r.data.requestUid 0 } (active.erase r) := by
  have hr : r ∈ active := h.inRwq r (hitems ▸ List.mem_cons_self)
  have hnodup : active.Nodup := h.distinct.of_map
  obtain ⟨hcount, hgone⟩ := h.last hitems hdone
  constructor
  · exact h.distinct.sublist (List.erase_sublist.map _)
  · intro r' hr'
    refine hnodup.mem_erase_iff.2 ⟨?_, h.inRwq r' (hitems ▸ List.mem_cons_of_mem _ hr')⟩
    rintro rfl
    exact List.count_eq_zero.1 hcount hr'
  · intro b r' tx hb
    obtain ⟨hr', hbank⟩ := h.inBank b r' tx hb
    refine ⟨hnodup.mem_erase_iff.2 ⟨?_, hr'⟩, hbank⟩
    rintro rfl
    subst hbank
    exact hgone tx hb
  · intro r' hr'
    obtain ⟨hne, hr'⟩ := hnodup.mem_erase_iff.1 hr'
    refine (h.progress r' hr').frame ?_ ?_ fun _ => Iff.rfl
    · exact Function.update_of_ne (h.uid_ne hr hr' hne) _ _
    · rw [hitems, List.count_cons_of_ne (Ne.symm hne)]
  · intro uid huid
    dsimp only
    by_cases heq : uid = r.data.requestUid
    · rw [heq, Function.update_self]
    · rw [Function.update_of_ne heq]
      refine h.fresh uid fun hmem => huid ?_
      obtain ⟨r', hr', rfl⟩ := List.mem_map.1 hmem
      refine List.mem_map_of_mem (hnodup.mem_erase_iff.2 ⟨?_, hr'⟩)
      rintro rfl
      exact heq rfl

/-- The data of a burst only moves requests from the channel to the return queue, or out as a write-back. -/
theorem Active.returnData (h : Active cfg d active) :
    ∃ active', Active cfg (d.returnData cfg).2 active' ∧
      (active.map (·.data) ++ d.returnq.items).Perm
        (active'.map (·.data) ++ (d.returnData cfg).2.returnq.items ++ (d.returnData cfg).1.toList) ∧
      (∀ m, (d.returnData cfg).1 = some m → m.isWrbk = true) ∧
      ∀ m ∈ (d.returnData cfg).2.returnq.items, m ∈ d.returnq.items ∨ m.isWrbk = false := by
  unfold DramT.returnData
  split_ifs
  · exact ⟨active, h, by simp, nofun, fun m => Or.inl⟩
  · have hitems := Fifo.items_pop d.rwq
    split
    · rename_i rwq hpop
      rw [hpop] at hitems
      exact ⟨active, h.congr rfl hitems.symm fun _ => rfl, by simp, nofun, fun m => Or.inl⟩
    · rename_i cmd rwq hpop
      rw [hpop] at hitems
      have hcmd : cmd ∈ active := h.inRwq cmd (hitems ▸ List.mem_cons_self)
      have hperm : (active.map (·.data)).Perm (cmd.data :: (active.erase cmd).map (·.data)) :=
        (List.perm_cons_erase hcmd).map _
      dsimp only
      split_ifs with hdone hwrbk
      · refine ⟨active.erase cmd, h.finish hitems hdone, ?_, fun m hm => ?_, fun m => Or.inl⟩
        · refine (hperm.append_right _).trans ?_
          exact (List.perm_append_singleton _ _).symm
        · obtain rfl := Option.some.inj hm
          exact hwrbk
      · refine ⟨active.erase cmd, (h.finish hitems hdone).congr rfl rfl fun _ => rfl, ?_, nofun, ?_⟩
        · dsimp only
          rw [Fifo.items_push, ← List.append_assoc]
          refine (hperm.append_right _).trans ?_
          rw [Option.toList_none, List.append_nil]
          exact (List.perm_append_singleton _ _).symm
        · intro m hm
          dsimp only at hm
          rw [Fifo.items_push] at hm
          rcases List.mem_append.1 hm with hm | hm
          · exact Or.inl hm
          · obtain rfl := List.mem_singleton.1 hm
            exact Or.inr (by simpa using hwrbk)
      · exact ⟨active, h.back hitems, by simp, nofun, fun m => Or.inl⟩

/-! ## Requests in the scheduler -/

/-- `waiting` are the requests in the queues of all banks. -/
structure Waiting (s : Scheduler) (waiting : List Node) : Prop where
  queue : ∀ b, (s.queue b).Perm (waiting.filter (·.req.bk = b))
  ids : ∀ n ∈ waiting, n.id < s.nextId
  distinct : (waiting.map (·.id)).Nodup

variable {s s' : Scheduler} {node : Node} {bank row : ℕ}

theorem Waiting.add (h : Waiting s waiting) (req : DramReq) :
    Waiting (s.addReq req) (⟨s.nextId, req⟩ :: waiting) where
  queue b := by
    by_cases hb : b = req.bk
    · subst hb
      simpa [Scheduler.addReq] using h.queue req.bk
    · simpa [Scheduler.addReq, Function.update_of_ne hb, Ne.symm hb] using h.queue b
  ids n hn := by
    rcases List.mem_cons.1 hn with rfl | hn
    · exact Nat.lt_succ_self _
    · exact Nat.lt_succ_of_lt (h.ids n hn)
  distinct := by
    refine List.nodup_cons.2 ⟨fun hmem => ?_, h.distinct⟩
    obtain ⟨n, hn, hid⟩ := List.mem_map.1 hmem
    exact absurd (h.ids n hn) (by rw [hid]; exact Nat.lt_irrefl _)

theorem take_spec (h : s.take bank row = some (node, s')) :
    node ∈ s.queue bank ∧ s'.nextId = s.nextId ∧
      s'.queue = Function.update s.queue bank ((s.queue bank).filter (·.id ≠ node.id)) := by
  unfold Scheduler.take at h
  obtain ⟨bin, -, h⟩ := Option.bind_eq_some_iff.1 h
  obtain ⟨next, -, h⟩ := Option.bind_eq_some_iff.1 h
  obtain ⟨n, hn, h⟩ := Option.bind_eq_some_iff.1 h
  obtain ⟨-, -, h⟩ := Option.bind_eq_some_iff.1 h
  have hid : n.id = next := by simpa using List.find?_some hn
  split_ifs at h
  all_goals
    obtain ⟨rfl, rfl⟩ := Prod.mk.inj (Option.some.inj h)
    exact ⟨List.mem_of_find?_eq_some hn, rfl, by rw [hid]⟩

theorem schedule_some (h : s.schedule bank row = some (some node, s')) :
    ∃ r, s.take bank r = some (node, s') := by
  unfold Scheduler.schedule at h
  split at h
  · exact absurd (Prod.mk.inj (Option.some.inj h)).1 nofun
  · obtain ⟨⟨n, t⟩, ht, heq⟩ := Option.map_eq_some_iff.1 h
    obtain ⟨hn, rfl⟩ := Prod.mk.inj heq
    obtain rfl := Option.some.inj hn
    exact ⟨_, ht⟩
  · obtain ⟨r, -, h⟩ := Option.bind_eq_some_iff.1 h
    obtain ⟨⟨n, t⟩, ht, heq⟩ := Option.map_eq_some_iff.1 h
    obtain ⟨hn, rfl⟩ := Prod.mk.inj heq
    obtain rfl := Option.some.inj hn
    exact ⟨_, ht⟩

theorem schedule_none (h : s.schedule bank row = some (none, s')) : s' = s := by
  unfold Scheduler.schedule at h
  split at h
  · exact (Prod.mk.inj (Option.some.inj h)).2.symm
  · obtain ⟨_, -, heq⟩ := Option.map_eq_some_iff.1 h
    exact absurd (Prod.mk.inj heq).1 nofun
  · obtain ⟨_, -, h⟩ := Option.bind_eq_some_iff.1 h
    obtain ⟨_, -, heq⟩ := Option.map_eq_some_iff.1 h
    exact absurd (Prod.mk.inj heq).1 nofun

theorem Waiting.schedule (h : Waiting s waiting) (hs : s.schedule bank row = some (some node, s')) :
    node ∈ waiting ∧ node.req.bk = bank ∧ Waiting s' (waiting.erase node) := by
  obtain ⟨r, htake⟩ := schedule_some hs
  obtain ⟨hmem, hnext, hqueue⟩ := take_spec htake
  obtain ⟨hnode, hbank⟩ : node ∈ waiting ∧ node.req.bk = bank := by
    simpa using (h.queue bank).mem_iff.1 hmem
  have hinj : ∀ n ∈ waiting, n.id = node.id → n = node := fun n hn =>
    List.inj_on_of_nodup_map h.distinct hn hnode
  have herase : waiting.erase node = waiting.filter (·.id ≠ node.id) := by
    rw [h.distinct.of_map.erase_eq_filter]
    refine List.filter_congr fun n hn => ?_
    rw [Bool.eq_iff_iff, bne_iff_ne, decide_eq_true_iff]
    exact not_congr ⟨congrArg _, hinj n hn⟩
  refine ⟨hnode, hbank, fun b => ?_, fun n hn => ?_, ?_⟩
  · rw [hqueue, herase]
    by_cases hb : b = bank
    · subst hb
      rw [Function.update_self, List.filter_filter]
      have hperm := (h.queue b).filter (·.id ≠ node.id)
      rwa [List.filter_filter, funext fun n => Bool.and_comm _ _] at hperm
    · rw [Function.update_of_ne hb, List.filter_filter]
      refine (h.queue b).trans (List.Perm.of_eq (List.filter_congr fun n hn => ?_))
      by_cases hn' : n.req.bk = b
      · have hid : n.id ≠ node.id := fun hid => hb (by rw [← hn', hinj n hn hid, hbank])
        simp [hn', hid]
      · simp [hn']
  · rw [hnext]
    exact h.ids n (List.mem_of_mem_erase hn)
  · exact h.distinct.sublist (List.erase_sublist.map _)

/-! ## On the way to the banks -/

variable {w : List Node} {a : List DramReq}

/-- The requests in the channel that are not complete. -/
def DramT.requests (d : DramT) (w : List Node) (a : List DramReq) : List DramReq :=
  d.mrqq.items ++ w.map (·.req) ++ a

/-- The id of the request's packet. -/
def DramReq.uid (r : DramReq) : ℕ := r.data.requestUid

/-- A part of a cycle that only moves requests towards the banks. -/
structure Shifts (cfg : MemoryConfig) (d d' : DramT) : Prop where
  rwq : d'.rwq.items = d.rwq.items
  dqbytes : d'.dqbytes = d.dqbytes
  returnq : d'.returnq = d.returnq
  requests : ∀ w a, Waiting d.sched w → Active cfg d a → ((d.requests w a).map DramReq.uid).Nodup →
    ∃ w' a', Waiting d'.sched w' ∧ Active cfg d' a' ∧ (d.requests w a).Perm (d'.requests w' a') ∧
      ∀ r ∈ a, r ∈ a'

theorem Shifts.trans {d'' : DramT} (h : Shifts cfg d d') (h' : Shifts cfg d' d'') : Shifts cfg d d'' := by
  refine ⟨h'.rwq.trans h.rwq, h'.dqbytes.trans h.dqbytes, h'.returnq.trans h.returnq, fun w a hw ha hnodup => ?_⟩
  obtain ⟨w₁, a₁, hw₁, ha₁, hperm₁, hsub₁⟩ := h.requests w a hw ha hnodup
  obtain ⟨w₂, a₂, hw₂, ha₂, hperm₂, hsub₂⟩ :=
    h'.requests w₁ a₁ hw₁ ha₁ ((hperm₁.map _).nodup_iff.1 hnodup)
  exact ⟨w₂, a₂, hw₂, ha₂, hperm₁.trans hperm₂, fun r hr => hsub₂ r (hsub₁ r hr)⟩

theorem shifts_frame (hsched : d'.sched = d.sched) (hdq : d'.dqbytes = d.dqbytes) (hrwq : d'.rwq = d.rwq)
    (hmrqq : d'.mrqq = d.mrqq) (hreturnq : d'.returnq = d.returnq)
    (hmrq : ∀ b, (d'.bk b).mrq = (d.bk b).mrq) : Shifts cfg d d' := by
  refine ⟨by rw [hrwq], hdq, hreturnq, fun w a hw ha _ => ⟨w, a, ?_, ha.congr hdq (by rw [hrwq]) hmrq, ?_,
    fun _ hr => hr⟩⟩
  · rw [hsched]
    exact hw
  · rw [DramT.requests, DramT.requests, hmrqq]

theorem Shifts.refl (d : DramT) : Shifts cfg d d := shifts_frame rfl rfl rfl rfl rfl fun _ => rfl

/-- A request that waits is none of those that a bank has taken. -/
theorem uid_not_active (hnodup : ((d.requests w a).map DramReq.uid).Nodup)
    (hr : r ∈ d.mrqq.items ++ w.map (·.req)) : r.data.requestUid ∉ a.map (·.data.requestUid) := by
  rw [DramT.requests, List.map_append] at hnodup
  intro hmem
  exact (List.nodup_append.1 hnodup).2.2 _ (List.mem_map_of_mem (f := DramReq.uid) hr) _ hmem rfl

theorem shifts_schedulerFifo (d : DramT) : Shifts cfg d d.schedulerFifo := by
  unfold DramT.schedulerFifo
  split
  · exact .refl d
  · rename_i head htop
    have hitems := Fifo.items_of_top htop
    split_ifs with hbusy
    · exact .refl d
    · refine ⟨rfl, rfl, rfl, fun w a hw ha hnodup => ⟨w, head :: a, hw, ?_, ?_, fun r hr =>
        List.mem_cons_of_mem _ hr⟩⟩
      · have hnew := uid_not_active (r := head) hnodup (by rw [hitems]; simp)
        exact (ha.start (by simpa using hbusy) hnew).congr rfl rfl fun _ => rfl
      · refine List.perm_iff_count.2 fun m => ?_
        simp only [DramT.requests, hitems, List.count_append, List.count_cons]
        omega

theorem shifts_drain {fuel : ℕ} (h : d.drain cfg fuel = some d') : Shifts cfg d d' := by
  induction fuel generalizing d with
  | zero =>
    obtain rfl := Option.some.inj h
    exact .refl d
  | succ fuel ih =>
    unfold DramT.drain at h
    split_ifs at h
    · split at h
      · rename_i req mrqq hpop
        have hitems := Fifo.items_pop d.mrqq
        rw [hpop] at hitems
        have hfirst : Shifts cfg d { d with mrqq, sched := d.sched.addReq req } := by
          refine ⟨rfl, rfl, rfl, fun w a hw ha _ => ⟨_, a, hw.add req, ha.congr rfl rfl fun _ => rfl, ?_,
            fun _ hr => hr⟩⟩
          refine List.perm_iff_count.2 fun m => ?_
          simp only [DramT.requests, hitems, Option.toList_some, List.singleton_append, List.map_cons,
            List.count_append, List.count_cons]
          omega
        exact hfirst.trans (ih h)
      · exact absurd h nofun
    · obtain rfl := Option.some.inj h
      exact .refl d

theorem shifts_assign {banks : List ℕ} (h : d.assign cfg banks = some d') : Shifts cfg d d' := by
  induction banks generalizing d with
  | nil =>
    obtain rfl := Option.some.inj h
    exact .refl d
  | cons i rest ih =>
    unfold DramT.assign at h
    dsimp only at h
    split_ifs at h with hbusy
    · exact ih h
    · split at h
      · exact absurd h nofun
      · rename_i sched hs
        rw [schedule_none hs] at h
        exact ih h
      · rename_i node sched hs
        obtain rfl := Option.some.inj h
        refine ⟨rfl, rfl, rfl, fun w a hw ha hnodup => ?_⟩
        obtain ⟨hnode, hbank, hw'⟩ := hw.schedule hs
        have hnew := uid_not_active (r := node.req) hnodup
          (List.mem_append_right _ (List.mem_map_of_mem hnode))
        rw [← hbank] at hbusy ⊢
        refine ⟨_, node.req :: a, hw', ?_, ?_, fun r hr => List.mem_cons_of_mem _ hr⟩
        · exact (ha.start (by simpa using hbusy) hnew).congr rfl rfl fun _ => rfl
        · refine List.perm_iff_count.2 fun m => ?_
          have hcount := ((List.perm_cons_erase hnode).map (·.req)).count_eq m
          simp only [DramT.requests, List.map_cons, List.count_append, List.count_cons] at hcount ⊢
          omega

theorem shifts_scheduler (h : d.scheduler cfg = some d') : Shifts cfg d d' := by
  unfold DramT.scheduler at h
  split at h
  · obtain rfl := Option.some.inj h
    exact shifts_schedulerFifo d
  · unfold DramT.schedulerFrfcfs at h
    obtain ⟨d₁, hdrain, hassign⟩ := Option.bind_eq_some_iff.1 h
    exact (shifts_drain hdrain).trans (shifts_assign hassign)

/-! ## A request for a free bank -/

theorem queue_of_schedule_none (h : s.schedule bank row = some (none, s')) : s.queue bank = [] := by
  unfold Scheduler.schedule at h
  split at h
  case h_1 hlast => exact List.getLast?_eq_none_iff.1 hlast
  case h_2 =>
    obtain ⟨_, -, heq⟩ := Option.map_eq_some_iff.1 h
    exact absurd (Prod.mk.inj heq).1 nofun
  case h_3 =>
    obtain ⟨_, -, h⟩ := Option.bind_eq_some_iff.1 h
    obtain ⟨_, -, heq⟩ := Option.map_eq_some_iff.1 h
    exact absurd (Prod.mk.inj heq).1 nofun

/-- A bank takes a request. -/
def Takes (d d' : DramT) : Prop := ∃ b, (d.bk b).mrq = none ∧ ∃ req, (d'.bk b).mrq = some (req, 0)

/-- The bank that the scheduler could serve next has a request waiting. -/
def DramT.Offers (cfg : MemoryConfig) (d : DramT) (b : ℕ) : Prop :=
  match cfg.schedulerType with
  | .fifo => ∃ head, d.mrqq.top = some head ∧ head.bk = b
  | .frfcfs => b < cfg.nbk.toNat ∧ d.sched.queue b ≠ []

theorem assign_takes {banks : List ℕ} {i : ℕ} (h : d.assign cfg banks = some d') (hi : i ∈ banks)
    (hfree : (d.bk ((i + d.prio) % cfg.nbk.toNat)).mrq = none)
    (hqueue : d.sched.queue ((i + d.prio) % cfg.nbk.toNat) ≠ []) : Takes d d' := by
  induction banks generalizing d with
  | nil => exact absurd hi List.not_mem_nil
  | cons j rest ih =>
    unfold DramT.assign at h
    dsimp only at h
    split_ifs at h with hbusy
    · refine ih h ((List.mem_cons.1 hi).resolve_left ?_) hfree hqueue
      rintro rfl
      rw [hfree] at hbusy
      exact Bool.false_ne_true hbusy
    · split at h
      · exact absurd h nofun
      · rename_i sched hs
        rw [schedule_none hs] at h
        refine ih h ((List.mem_cons.1 hi).resolve_left ?_) hfree hqueue
        rintro rfl
        exact hqueue (queue_of_schedule_none hs)
      · rename_i node sched hs
        obtain rfl := Option.some.inj h
        exact ⟨_, by simpa using hbusy, node.req, by simp⟩

theorem drain_keeps {fuel : ℕ} (h : d.drain cfg fuel = some d') :
    d'.bk = d.bk ∧ d'.prio = d.prio ∧ ∀ b, d.sched.queue b ≠ [] → d'.sched.queue b ≠ [] := by
  induction fuel generalizing d with
  | zero =>
    obtain rfl := Option.some.inj h
    exact ⟨rfl, rfl, fun _ => id⟩
  | succ fuel ih =>
    unfold DramT.drain at h
    split_ifs at h
    · split at h
      · rename_i req mrqq hpop
        obtain ⟨hbk, hprio, hqueue⟩ := ih h
        refine ⟨hbk, hprio, fun b hb => hqueue b ?_⟩
        by_cases heq : b = req.bk
        · subst heq
          simp [Scheduler.addReq]
        · simpa [Scheduler.addReq, heq] using hb
      · exact absurd h nofun
    · obtain rfl := Option.some.inj h
      exact ⟨rfl, rfl, fun _ => id⟩

/-- **A free bank with a request does not stay idle**, unless another one is served first. -/
theorem scheduler_takes {b : ℕ} (h : d.scheduler cfg = some d') (hoffers : d.Offers cfg b)
    (hfree : (d.bk b).mrq = none) : Takes d d' := by
  unfold DramT.Offers at hoffers
  unfold DramT.scheduler at h
  cases htype : cfg.schedulerType with
  | fifo =>
    rw [htype] at h hoffers
    obtain ⟨head, htop, rfl⟩ := hoffers
    obtain rfl := Option.some.inj h
    refine ⟨head.bk, hfree, head, ?_⟩
    unfold DramT.schedulerFifo
    rw [htop]
    simp [hfree]
  | frfcfs =>
    rw [htype] at h hoffers
    obtain ⟨hb, hqueue⟩ := hoffers
    obtain ⟨d₁, hdrain, hassign⟩ := Option.bind_eq_some_iff.1 h
    obtain ⟨hbk, hprio, hkeeps⟩ := drain_keeps hdrain
    -- the turn of the bank in the loop, which starts at `prio`
    have hturn : ((b + (cfg.nbk.toNat - d₁.prio % cfg.nbk.toNat)) % cfg.nbk.toNat + d₁.prio) %
        cfg.nbk.toNat = b := by
      have hmod := Nat.mod_lt d₁.prio (Nat.zero_lt_of_lt hb)
      have hsplit := Nat.mod_add_div d₁.prio cfg.nbk.toNat
      have hsum : b + (cfg.nbk.toNat - d₁.prio % cfg.nbk.toNat) + d₁.prio =
          b + cfg.nbk.toNat * (d₁.prio / cfg.nbk.toNat + 1) := by
        rw [Nat.mul_add, Nat.mul_one]
        omega
      rw [Nat.mod_add_mod, hsum, Nat.add_mul_mod_self_left, Nat.mod_eq_of_lt hb]
    obtain ⟨b', hb', htaken⟩ := assign_takes hassign
      (List.mem_range.2 (Nat.mod_lt _ (Nat.zero_lt_of_lt hb))) (by rw [hturn, hbk]; exact hfree)
      (by rw [hturn]; exact hkeeps b hqueue)
    exact ⟨b', hbk ▸ hb', htaken⟩

/-! ## A channel -/

/-- What is in the channel. -/
def DramT.contents (d : DramT) (waiting : List Node) (active : List DramReq) : List MemFetch :=
  d.mrqq.items.map (·.data) ++ waiting.map (·.req.data) ++ active.map (·.data) ++ d.returnq.items

/-- Every request in the channel waits in the scheduler or is active. -/
structure Carries (cfg : MemoryConfig) (d : DramT) (waiting : List Node) (active : List DramReq) : Prop where
  inScheduler : Waiting d.sched waiting
  inBanks : Active cfg d active
  distinct : ((d.contents waiting active).map (·.requestUid)).Nodup

/-- A part of a cycle that only moves requests on, and leaves the return queue alone. -/
def Moves (cfg : MemoryConfig) (d d' : DramT) : Prop :=
  d'.returnq = d.returnq ∧ ∀ w a, Carries cfg d w a → ∃ w' a', Carries cfg d' w' a' ∧
    (d.contents w a).Perm (d'.contents w' a')

theorem Moves.refl (d : DramT) : Moves cfg d d := ⟨rfl, fun w a h => ⟨w, a, h, .refl _⟩⟩

theorem Moves.trans {d'' : DramT} (h : Moves cfg d d') (h' : Moves cfg d' d'') : Moves cfg d d'' := by
  refine ⟨h'.1.trans h.1, fun w a hd => ?_⟩
  obtain ⟨w₁, a₁, hd₁, hperm₁⟩ := h.2 w a hd
  obtain ⟨w₂, a₂, hd₂, hperm₂⟩ := h'.2 w₁ a₁ hd₁
  exact ⟨w₂, a₂, hd₂, hperm₁.trans hperm₂⟩

theorem moves_of (hreturnq : d'.returnq = d.returnq)
    (h : ∀ w a, Carries cfg d w a → ∃ w' a', Waiting d'.sched w' ∧ Active cfg d' a' ∧
      (d.contents w a).Perm (d'.contents w' a')) : Moves cfg d d' := by
  refine ⟨hreturnq, fun w a hd => ?_⟩
  obtain ⟨w', a', hw, ha, hperm⟩ := h w a hd
  exact ⟨w', a', ⟨hw, ha, (hperm.map _).nodup_iff.1 hd.distinct⟩, hperm⟩

theorem contents_eq (d : DramT) (w : List Node) (a : List DramReq) :
    d.contents w a = (d.requests w a).map (·.data) ++ d.returnq.items := by
  simp [DramT.contents, DramT.requests]

theorem Shifts.moves (h : Shifts cfg d d') : Moves cfg d d' := by
  refine moves_of h.returnq fun w a hd => ?_
  have hdistinct := hd.distinct
  rw [contents_eq, List.map_append, List.map_map] at hdistinct
  obtain ⟨w', a', hw', ha', hperm, -⟩ :=
    h.requests w a hd.inScheduler hd.inBanks (List.nodup_append.1 hdistinct).1
  refine ⟨w', a', hw', ha', ?_⟩
  rw [contents_eq, contents_eq, h.returnq]
  exact (hperm.map _).append_right _

theorem moves_frame (hsched : d'.sched = d.sched) (hdq : d'.dqbytes = d.dqbytes) (hrwq : d'.rwq = d.rwq)
    (hmrqq : d'.mrqq = d.mrqq) (hreturnq : d'.returnq = d.returnq)
    (hmrq : ∀ b, (d'.bk b).mrq = (d.bk b).mrq) : Moves cfg d d' :=
  (shifts_frame hsched hdq hrwq hmrqq hreturnq hmrq).moves

/-- A column command puts one access on the data queue. -/
theorem transfer_frame (cfg : MemoryConfig) (d : DramT) (j : ℕ) (rw : Rw) (len : UInt32) :
    (d.transfer cfg j rw len).sched = d.sched ∧ (d.transfer cfg j rw len).mrqq = d.mrqq ∧
      (d.transfer cfg j rw len).returnq = d.returnq ∧ (d.transfer cfg j rw len).dqbytes = d.dqbytes ∧
      (d.transfer cfg j rw len).rwq.items = d.rwq.items ++ ((d.bk j).mrq.map Prod.fst).toList := by
  unfold DramT.transfer
  split
  · rename_i hmrq
    rw [hmrq]
    exact ⟨rfl, rfl, rfl, rfl, (List.append_nil _).symm⟩
  · rename_i r tx hmrq
    refine ⟨rfl, rfl, rfl, rfl, ?_⟩
    dsimp only
    rw [Fifo.items_push, hmrq]
    split_ifs
    · rfl
    · rw [Fifo.items_setMinLength]
      rfl

theorem moves_transfer (d : DramT) (j : ℕ) (rw : Rw) (len : UInt32) :
    Moves cfg d (d.transfer cfg j rw len) := by
  obtain ⟨hsched, hmrqq, hreturnq, -, -⟩ := transfer_frame cfg d j rw len
  refine moves_of hreturnq fun w a h => ⟨w, a, ?_, h.inBanks.transfer j rw len, ?_⟩
  · rw [hsched]
    exact h.inScheduler
  · rw [DramT.contents, DramT.contents, hmrqq, hreturnq]

/-- A change of a bank that keeps its request. -/
theorem mrq_update {bk : ℕ → Bank} {j : ℕ} {bank : Bank} (h : bank.mrq = (bk j).mrq) (b : ℕ) :
    (Function.update bk j bank b).mrq = (bk b).mrq := by
  by_cases hb : b = j
  · rw [hb, Function.update_self, h]
  · rw [Function.update_of_ne hb]

theorem moves_issue (d : DramT) (c : Command) : Moves cfg d (d.issue cfg c) := by
  obtain ⟨kind, j, row⟩ := c
  cases kind with
  | rd =>
    refine (moves_transfer d j .read cfg.cl).trans ?_
    exact moves_frame rfl rfl rfl rfl rfl (mrq_update rfl)
  | wr =>
    refine (moves_transfer d j .write cfg.wl).trans ?_
    exact moves_frame rfl rfl rfl rfl rfl (mrq_update rfl)
  | act => exact moves_frame rfl rfl rfl rfl rfl (mrq_update rfl)
  | pre => exact moves_frame rfl rfl rfl rfl rfl (mrq_update rfl)

theorem moves_tick (d : DramT) : Moves cfg d d.tick := moves_frame rfl rfl rfl rfl rfl fun _ => rfl

/-- **A cycle** only moves requests on: what was in the channel is still in it, or is a write-back that is
done; and no write-back gets into the return queue. -/
theorem cycle_perm {done : DramT.Done} (h : Carries cfg d waiting active)
    (hcycle : d.cycle cfg = some (done, d')) :
    ∃ w' a', Carries cfg d' w' a' ∧
      (d.contents waiting active).Perm (d'.contents w' a' ++ done.writeBack.toList) ∧
      (∀ m, done.writeBack = some m → m.isWrbk = true) ∧
      ∀ m ∈ d'.returnq.items, m ∈ d.returnq.items ∨ m.isWrbk = false := by
  obtain ⟨d₂, hsched, rfl, rfl⟩ := cycle_spec hcycle
  obtain ⟨a₁, ha₁, hperm, hwrbk, hreturnq⟩ := h.inBanks.returnData
  have hframe : (d.returnData cfg).2.sched = d.sched ∧ (d.returnData cfg).2.mrqq = d.mrqq := by
    unfold DramT.returnData
    split_ifs
    · exact ⟨rfl, rfl⟩
    · split
      · exact ⟨rfl, rfl⟩
      · dsimp only
        split_ifs <;> exact ⟨rfl, rfl⟩
  have hcontents : (d.contents waiting active).Perm
      ((d.returnData cfg).2.contents waiting a₁ ++ (d.returnData cfg).1.toList) := by
    simp only [DramT.contents, hframe.2, List.append_assoc] at hperm ⊢
    exact (hperm.append_left _).append_left _
  have hdistinct := (hcontents.map (·.requestUid)).nodup_iff.1 h.distinct
  rw [List.map_append] at hdistinct
  have h₁ : Carries cfg (d.returnData cfg).2 waiting a₁ :=
    ⟨by rw [hframe.1]; exact h.inScheduler, ha₁, (List.nodup_append.1 hdistinct).1⟩
  have hmoves : Moves cfg (d.returnData cfg).2 (d₂.issueOpt cfg (d₂.select cfg)).tick := by
    refine (shifts_scheduler hsched).moves.trans (Moves.trans ?_ (moves_tick _))
    cases d₂.select cfg with
    | none => exact .refl d₂
    | some c => exact moves_issue d₂ c
  obtain ⟨w', a', h', hperm'⟩ := hmoves.2 waiting a₁ h₁
  refine ⟨w', a', h', hcontents.trans (hperm'.append_right _), hwrbk, ?_⟩
  rw [hmoves.1]
  exact hreturnq

end CompressionWork.Dram
