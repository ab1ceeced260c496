import CompressionWork.Dram.Scheduler

/-!
# The scheduler does what it is for

* `binOf` — the bin of a row, told from the pending requests of the bank.
* `Refines` — the queues, the bins and the pointer to the current bin stand for an abstract scheduler.
* `refines_addReq`, `refines_schedule` — each call keeps that, returns the same and does not abort.
* `run_faithful` — so does every legal run.
-/

namespace CompressionWork.Dram

variable {s : Scheduler} {σ : Spec} {pending t : List Node} {row bank : ℕ} {node n : Node}

/-- The bin of a row: the pending requests for it, newest first. -/
def binOf (pending : List Node) (row : ℕ) : Option (List ℕ) :=
  if pending.filter (·.req.row = row) = [] then none
  else some ((pending.filter (·.req.row = row)).map (·.id)).reverse

/-- The queues, bins and counters are those of the abstract scheduler. -/
structure Refines (s : Scheduler) (σ : Spec) : Prop where
  exactly : σ.Exact
  queue : ∀ b, s.queue b = (σ.pending b).reverse
  bins : ∀ b row, s.bins b row = binOf (σ.pending b) row
  lastRow : ∀ b row, s.lastRow b = some row → σ.openRow b = some row ∧ binOf (σ.pending b) row ≠ none
  nextId : s.nextId = σ.added.length
  numPending : s.numPending + σ.returned.length = σ.added.length

theorem refines_empty : Refines {} {} :=
  ⟨⟨fun i h => absurd h (Nat.not_lt_zero i), fun _ => .nil, fun _ _ h => absurd h List.not_mem_nil,
    List.nodup_nil, fun _ => by simp, fun _ => by simp⟩, fun _ => rfl, fun _ _ => rfl,
    fun _ _ h => absurd h nofun, rfl, rfl⟩

/-! ## Bins -/

theorem binOf_of_filter (h : pending.filter (·.req.row = row) = n :: t) :
    binOf pending row = some ((n :: t).map (·.id)).reverse := by
  rw [binOf, h, if_neg (List.cons_ne_nil _ _)]

theorem exists_of_binOf (h : binOf pending row ≠ none) :
    ∃ n t, pending.filter (·.req.row = row) = n :: t := by
  unfold binOf at h
  split_ifs at h with hnil
  · exact absurd rfl h
  · exact List.exists_cons_of_ne_nil hnil

/-- A new request goes to the front of its bin. -/
theorem binOf_concat_self (pending : List Node) (n : Node) :
    binOf (pending ++ [n]) n.req.row = some (n.id :: (binOf pending n.req.row).getD []) := by
  have hfilter : (pending ++ [n]).filter (·.req.row = n.req.row) =
      pending.filter (·.req.row = n.req.row) ++ [n] := by
    rw [List.filter_append]
    simp
  unfold binOf
  rw [hfilter, if_neg (by simp)]
  split_ifs with hnil
  · rw [hnil]
    rfl
  · simp

theorem binOf_concat_of_ne (pending : List Node) (h : n.req.row ≠ row) :
    binOf (pending ++ [n]) row = binOf pending row := by
  unfold binOf
  rw [List.filter_append]
  simp [h]

/-- The first request for a row is the one that is chosen for it. -/
theorem choose_of_filter (h : pending.filter (·.req.row = row) = n :: t) :
    Spec.choose pending row = some n := by
  rw [Spec.choose, ← List.head?_filter, h]
  rfl

/-- The requests for a row after the first of them has left. -/
theorem filter_filter_ne (hord : pending.Pairwise (·.id < ·.id))
    (h : pending.filter (·.req.row = row) = n :: t) :
    (pending.filter (·.id ≠ n.id)).filter (·.req.row = row) = t := by
  have hcons : (n :: t).Pairwise (·.id < ·.id) := h ▸ hord.filter _
  rw [List.filter_comm, h, List.filter_cons_of_neg (by simp), List.filter_eq_self]
  intro n' hn'
  have hlt := (List.pairwise_cons.1 hcons).1 n' hn'
  exact decide_eq_true (by omega)

theorem filter_filter_of_ne (h : n.req.row ≠ row) (hmem : ∀ n' ∈ pending, n'.id = n.id → n' = n) :
    (pending.filter (·.id ≠ n.id)).filter (·.req.row = row) = pending.filter (·.req.row = row) := by
  rw [List.filter_filter]
  refine List.filter_congr fun n' hn' => ?_
  by_cases hrow : n'.req.row = row
  · have hid : n'.id ≠ n.id := by
      intro hid
      rw [hmem n' hn' hid] at hrow
      exact h hrow
    simp [hrow, hid]
  · simp [hrow]

/-- The bin of a request after it has left as the oldest one: gone with the last of its requests. -/
theorem binOf_drop_self (hord : pending.Pairwise (·.id < ·.id))
    (h : pending.filter (·.req.row = row) = n :: t) :
    binOf (pending.filter (·.id ≠ n.id)) row = if t = [] then none else some (t.map (·.id)).reverse := by
  rw [binOf, filter_filter_ne hord h]

theorem binOf_drop_of_ne (h : n.req.row ≠ row) (hmem : ∀ n' ∈ pending, n'.id = n.id → n' = n) :
    binOf (pending.filter (·.id ≠ n.id)) row = binOf pending row := by
  rw [binOf, binOf, filter_filter_of_ne h hmem]

/-! ## The calls -/

/-- **A request arrives.** -/
theorem refines_addReq (h : Refines s σ) (req : DramReq) : Refines (s.addReq req) (σ.addReq req) := by
  refine ⟨Spec.exact_addReq h.exactly req, fun b => ?_, fun b row => ?_, fun b row hlast => ?_, ?_, ?_⟩
  · simp only [Scheduler.addReq, Spec.addReq, h.nextId]
    by_cases hb : b = req.bk
    · subst hb
      rw [Function.update_self, Function.update_self, h.queue, List.reverse_append]
      rfl
    · rw [Function.update_of_ne hb, Function.update_of_ne hb, h.queue]
  · simp only [Scheduler.addReq, Spec.addReq, h.nextId]
    by_cases hb : b = req.bk
    · subst hb
      rw [Function.update_self, Function.update_self]
      by_cases hrow : row = req.row
      · subst hrow
        rw [Function.update_self, h.bins]
        exact (binOf_concat_self _ ⟨σ.added.length, req⟩).symm
      · rw [Function.update_of_ne hrow, h.bins]
        exact (binOf_concat_of_ne _ (Ne.symm hrow)).symm
    · rw [Function.update_of_ne hb, Function.update_of_ne hb, h.bins]
  · obtain ⟨hopen, hbin⟩ := h.lastRow b row hlast
    refine ⟨hopen, ?_⟩
    simp only [Spec.addReq]
    by_cases hb : b = req.bk
    · subst hb
      rw [Function.update_self]
      by_cases hrow : row = req.row
      · subst hrow
        have hself := binOf_concat_self (σ.pending req.bk) ⟨σ.added.length, req⟩
        exact fun hnone => absurd (hself.symm.trans hnone) (by simp)
      · rw [binOf_concat_of_ne _ (Ne.symm hrow)]
        exact hbin
    · rw [Function.update_of_ne hb]
      exact hbin
  · simp [Scheduler.addReq, Spec.addReq, h.nextId]
  · have := h.numPending
    simp only [Scheduler.addReq, Spec.addReq, List.length_append, List.length_singleton]
    omega

/-- While a request is pending, the count is not zero. -/
theorem numPending_ne_zero (h : Refines s σ) (hmem : node ∈ σ.pending bank) : s.numPending ≠ 0 := by
  obtain ⟨hbank, hadded⟩ := h.exactly.bank bank node hmem
  have hnew : node ∉ σ.returned := fun hret =>
    h.exactly.apart node ⟨by rw [hbank]; exact hmem, hret⟩
  have hnodup : (node :: σ.returned).Nodup := List.nodup_cons.2 ⟨hnew, h.exactly.once⟩
  have hsub : node :: σ.returned ⊆ σ.added := by
    intro n hn
    rcases List.mem_cons.1 hn with rfl | hn
    · exact hadded
    · exact (h.exactly.accounted n).2 (Or.inr hn)
  have hlen := (List.subperm_of_subset hnodup hsub).length_le
  have := h.numPending
  rw [List.length_cons] at hlen
  omega

/-- The ids of the pending requests differ. -/
theorem Refines.eq_of_id (h : Refines s σ) (hmem : n ∈ σ.pending bank) :
    ∀ n' ∈ σ.pending bank, n'.id = n.id → n' = n := fun n' hn' hid =>
  Spec.eq_of_id h.exactly (h.exactly.bank bank n' hn').2 (h.exactly.bank bank n hmem).2 hid

/-- The queue of the bank holds the request that the bin names. -/
theorem Refines.find_queue (h : Refines s σ) (hmem : n ∈ σ.pending bank) :
    (s.queue bank).find? (·.id = n.id) = some n := by
  rw [h.queue]
  cases hf : (σ.pending bank).reverse.find? (·.id = n.id) with
  | none =>
    have := List.find?_eq_none.1 hf n (List.mem_reverse.2 hmem)
    simp at this
  | some n' =>
    have hid := List.find?_some hf
    exact congrArg some (h.eq_of_id hmem n' (List.mem_reverse.1 (List.mem_of_find?_eq_some hf))
      (of_decide_eq_true hid))

theorem Refines.queue_drop (h : Refines s σ) (n : Node) (b : ℕ) :
    Function.update s.queue bank ((s.queue bank).filter (·.id ≠ n.id)) b =
      (Function.update σ.pending bank ((σ.pending bank).filter (·.id ≠ n.id)) b).reverse := by
  by_cases hb : b = bank
  · subst hb
    rw [Function.update_self, Function.update_self, h.queue, List.filter_reverse]
  · rw [Function.update_of_ne hb, Function.update_of_ne hb, h.queue]

/-- The bins after a request has left its own. -/
theorem Refines.bins_drop (h : Refines s σ) (hmem : n ∈ σ.pending bank) {bin : Option (List ℕ)}
    (hbin : binOf ((σ.pending bank).filter (·.id ≠ n.id)) n.req.row = bin) (b row' : ℕ) :
    Function.update s.bins bank (Function.update (s.bins bank) n.req.row bin) b row' =
      binOf (Function.update σ.pending bank ((σ.pending bank).filter (·.id ≠ n.id)) b) row' := by
  by_cases hb : b = bank
  · subst hb
    rw [Function.update_self, Function.update_self]
    by_cases hr : row' = n.req.row
    · subst hr
      rw [Function.update_self, hbin]
    · rw [Function.update_of_ne hr, binOf_drop_of_ne (Ne.symm hr) (h.eq_of_id hmem), h.bins]
  · rw [Function.update_of_ne hb, Function.update_of_ne hb, h.bins]

/-- The pointers of the other banks still stand at bins with requests. -/
theorem Refines.lastRow_drop (h : Refines s σ) (n : Node) {b row' : ℕ} (hb : b ≠ bank)
    (hlast : s.lastRow b = some row') :
    Function.update σ.openRow bank (some n.req.row) b = some row' ∧
      binOf (Function.update σ.pending bank ((σ.pending bank).filter (·.id ≠ n.id)) b) row' ≠ none := by
  rw [Function.update_of_ne hb, Function.update_of_ne hb]
  exact h.lastRow b row' hlast

/-- **The oldest request of a bin leaves.** -/
theorem refines_take (h : Refines s σ) (hfilter : (σ.pending bank).filter (·.req.row = row) = n :: t) :
    ∃ s', s.take bank row = some (n, s') ∧ Refines s' (σ.take bank n) := by
  have hmemFilter : n ∈ (σ.pending bank).filter (·.req.row = row) := by
    rw [hfilter]
    exact List.mem_cons_self
  obtain ⟨hmem, hrow⟩ := List.mem_filter.1 hmemFilter
  obtain rfl : n.req.row = row := of_decide_eq_true hrow
  have hbin : s.bins bank n.req.row = some ((n :: t).map (·.id)).reverse := by
    rw [h.bins, binOf_of_filter hfilter]
  have hlast : ((n :: t).map (·.id)).reverse.getLast? = some n.id := by simp
  have hdrop : ((n :: t).map (·.id)).reverse.dropLast = (t.map (·.id)).reverse := by simp
  have hpos := numPending_ne_zero h hmem
  have hexact := Spec.exact_take h.exactly hmem
  have hbinRow := binOf_drop_self (h.exactly.ordered bank) hfilter
  have hnum : s.numPending - 1 + (σ.returned ++ [n]).length = σ.added.length := by
    have := h.numPending
    rw [List.length_append, List.length_singleton]
    omega
  unfold Scheduler.take
  simp only [hbin, hlast, h.find_queue hmem, hdrop, Option.bind_eq_bind, Option.bind_some, hpos, ne_eq,
    not_false_eq_true, guard, if_true, Option.pure_def]
  by_cases ht : t = []
  · -- the bin is gone, and with it the pointer to it
    subst ht
    rw [if_pos rfl] at hbinRow
    refine ⟨_, rfl, hexact, h.queue_drop n, h.bins_drop hmem hbinRow, ?_, h.nextId, hnum⟩
    intro b row' hlast'
    by_cases hb : b = bank
    · subst hb
      simp at hlast'
    · simp only [Function.update_of_ne hb] at hlast'
      exact h.lastRow_drop n hb hlast'
  · rw [if_neg ht] at hbinRow
    rw [if_neg (by simpa using ht)]
    refine ⟨_, rfl, hexact, h.queue_drop n, h.bins_drop hmem hbinRow, ?_, h.nextId, hnum⟩
    intro b row' hlast'
    by_cases hb : b = bank
    · subst hb
      simp only [Function.update_self, Option.some.injEq] at hlast'
      subst hlast'
      simp only [Spec.take, Function.update_self]
      exact ⟨trivial, by rw [hbinRow]; exact nofun⟩
    · simp only [Function.update_of_ne hb] at hlast'
      exact h.lastRow_drop n hb hlast'

/-- **A request is scheduled.** -/
theorem refines_schedule (h : Refines s σ) (hlegal : σ.Legal (.schedule bank row)) :
    ∃ s', s.schedule bank row = some ((σ.schedule bank row).1, s') ∧
      Refines s' (σ.schedule bank row).2 := by
  have hgo : ∀ row' n t, (σ.pending bank).filter (·.req.row = row') = n :: t →
      Spec.choose (σ.pending bank) row = some n →
      ∃ s', (s.take bank row').map (fun r => (some r.1, r.2)) = some ((σ.schedule bank row).1, s') ∧
        Refines s' (σ.schedule bank row).2 := by
    intro row' n t hfilter hchoose
    obtain ⟨s', hs', href⟩ := refines_take h hfilter
    rw [Spec.schedule, hchoose, hs']
    exact ⟨s', rfl, href⟩
  unfold Scheduler.schedule
  cases hlast : s.lastRow bank with
  | some row' =>
    -- the pointer is to the bin of the open row
    obtain ⟨hopen, hbin⟩ := h.lastRow bank row' hlast
    obtain rfl : row' = row := hlegal row' hopen
    obtain ⟨n, t, hfilter⟩ := exists_of_binOf hbin
    exact hgo row' n t hfilter (choose_of_filter hfilter)
  | none =>
    rw [h.queue, List.getLast?_reverse]
    cases hpending : σ.pending bank with
    | nil =>
      refine ⟨s, ?_, ?_⟩
      · simp [Spec.schedule, Spec.choose, hpending]
      · simpa [Spec.schedule, Spec.choose, hpending] using h
    | cons o rest =>
      simp only [List.head?_cons, Scheduler.selectRow, hlast, h.bins, Option.bind_eq_bind]
      cases hbin : binOf (σ.pending bank) row with
      | some bin =>
        obtain ⟨n, t, hfilter⟩ := exists_of_binOf (by rw [hbin]; exact nofun)
        exact hgo row n t hfilter (choose_of_filter hfilter)
      | none =>
        have hnil : (σ.pending bank).filter (·.req.row = row) = [] := by
          by_contra hne
          rw [binOf, if_neg hne] at hbin
          exact absurd hbin nofun
        have hfilter : ∃ t, (σ.pending bank).filter (·.req.row = o.req.row) = o :: t := by
          rw [hpending, List.filter_cons_of_pos (by simp)]
          exact ⟨_, rfl⟩
        obtain ⟨t, hfilter⟩ := hfilter
        rw [binOf_of_filter hfilter]
        refine hgo o.req.row o t hfilter ?_
        rw [Spec.choose, ← List.head?_filter, hnil, hpending]
        rfl

/-- **Every legal run** returns what the abstract scheduler returns, without aborting; every added request
is pending or has been returned, once, and the count is that of the pending ones. -/
theorem run_faithful (calls : List Call) (hlegal : ({} : Spec).LegalRun calls) :
    ∃ s', ({} : Scheduler).run calls = some ((({} : Spec).run calls).1, s') ∧
      (({} : Spec).run calls).2.Exact ∧
      s'.numPending + (({} : Spec).run calls).2.returned.length =
        (({} : Spec).run calls).2.added.length := by
  have hrun : ∀ (calls : List Call) (s : Scheduler) (σ : Spec), Refines s σ → σ.LegalRun calls →
      ∃ s', s.run calls = some ((σ.run calls).1, s') ∧ Refines s' (σ.run calls).2 := by
    intro calls
    induction calls with
    | nil => exact fun s σ h _ => ⟨s, rfl, h⟩
    | cons c calls ih =>
      rintro s σ h ⟨hc, hrest⟩
      obtain ⟨s₁, hs₁, href⟩ : ∃ s₁, s.call c = some ((σ.call c).1, s₁) ∧ Refines s₁ (σ.call c).2 := by
        cases c with
        | add req => exact ⟨_, rfl, refines_addReq h req⟩
        | schedule bank row => exact refines_schedule h hc
      obtain ⟨s', hs', href'⟩ := ih s₁ _ href hrest
      refine ⟨s', ?_, href'⟩
      simp [Scheduler.run, Spec.run, hs₁, hs']
  obtain ⟨s', hs', href⟩ := hrun calls {} {} refines_empty hlegal
  exact ⟨s', hs', href.exactly, href.numPending⟩

/-- A read of row 1 and a read of row 2 of bank 0, scheduled one after the other. -/
theorem run_faithful_two : ∃ s', ({} : Scheduler).run
    [.add (.new ⟨0, false, .globalAccR, 32, 0, 1, 0⟩), .add (.new ⟨1, false, .globalAccR, 32, 0, 2, 0⟩),
      .schedule 0 7, .schedule 0 1] =
    some ([none, none, some ⟨0, .new ⟨0, false, .globalAccR, 32, 0, 1, 0⟩⟩,
      some ⟨1, .new ⟨1, false, .globalAccR, 32, 0, 2, 0⟩⟩], s') := by
  obtain ⟨s', hs', -⟩ := run_faithful
    [.add (.new ⟨0, false, .globalAccR, 32, 0, 1, 0⟩), .add (.new ⟨1, false, .globalAccR, 32, 0, 2, 0⟩),
      .schedule 0 7, .schedule 0 1] ⟨trivial, trivial, fun r h => absurd h nofun, fun r h => by
        have h' : some 1 = some r := h
        exact (Option.some.inj h').symm, trivial⟩
  exact ⟨s', hs'⟩

end CompressionWork.Dram
