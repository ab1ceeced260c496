import CompressionWork.Cache.Mshr
import CompressionWork.Transition.Reach
import Mathlib.Data.Multiset.UnionInter

/-!
# Delivery of the requests in an MSHR table

The table as its owner uses it: a request is added when the table is not full for its block, and a
read request goes out when the block had no entry; memory answers a read request once, and the block
is marked ready; the next access is taken while one is ready.

* `Inv` — the ready queue and the unanswered read requests are the blocks with an entry, each once.
* `mshr_delivery` — every request comes out once, after its block was marked ready, in the order of its
  block; the last one takes the entry; the queue holds no block twice.
-/

namespace CompressionWork.Cache

open Transition

namespace MshrTable

variable {m m' : MshrTable} {b b' : NewAddrType} {mf : MemFetch}

/-! ## The operations -/

/-- The requests that wait for a block. -/
def pending (m : MshrTable) (b : NewAddrType) : List MemFetch :=
  ((m.data.lookup b).map MshrEntry.list).getD []

theorem pending_of_lookup {entry : MshrEntry} (h : m.data.lookup b = some entry) :
    m.pending b = entry.list := by
  simp [pending, h]

theorem pending_of_lookup_none (h : m.data.lookup b = none) : m.pending b = [] := by
  simp [pending, h]

theorem probe_iff : m.probe b = true ↔ b ∈ m.data.keys := by
  rw [probe, AList.lookup_isSome, AList.mem_keys]

theorem list_getD_lookup : ((m.data.lookup b).getD {}).list = m.pending b := by
  cases hl : m.data.lookup b <;> simp [pending, hl]

/-- What `add` does: the request goes to the end of the entry of its block. -/
theorem add_cases (h : m.add b mf = some m') :
    ∃ hasAtomic, m' = { m with data := m.data.insert b ⟨m.pending b ++ [mf], hasAtomic⟩ } := by
  simp only [add, list_getD_lookup] at h
  split_ifs at h
  exact ⟨_, (Option.some.inj h).symm⟩

/-- What `mark_ready` does: the block goes to the end of the queue. -/
theorem markReady_cases {hasAtomic : Bool} (h : m.markReady b = some (m', hasAtomic)) :
    m' = { m with currentResponse := m.currentResponse ++ [b] } := by
  simp only [markReady, Option.bind_eq_bind, Option.bind_eq_some_iff, Option.pure_def,
    Option.some.injEq, Prod.mk.injEq] at h
  obtain ⟨_, -, _, -, rfl, -⟩ := h
  rfl

/-- What `next_access` does: the first request of the first block leaves, and the entry with it when
there is no other. -/
theorem nextAccess_cases (h : m.nextAccess = some (mf, m')) :
    ∃ b rest hasAtomic list, m.currentResponse = b :: rest ∧
      m.data.lookup b = some ⟨mf :: list, hasAtomic⟩ ∧
      ((list = [] ∧ m' = { m with data := m.data.erase b, currentResponse := rest }) ∨
        (list ≠ [] ∧ m' = { m with data := m.data.insert b ⟨list, hasAtomic⟩ })) := by
  unfold nextAccess at h
  split at h
  · simp at h
  · rename_i b rest hqueue
    split at h
    · rename_i result hasAtomic hl
      obtain ⟨rfl, rfl⟩ := Prod.mk.inj (Option.some.inj h)
      exact ⟨b, rest, hasAtomic, [], hqueue, hl, Or.inl ⟨rfl, rfl⟩⟩
    · rename_i result list hasAtomic hne hl
      obtain ⟨rfl, rfl⟩ := Prod.mk.inj (Option.some.inj h)
      refine ⟨b, rest, hasAtomic, list, hqueue, hl, Or.inr ⟨?_, rfl⟩⟩
      rintro rfl
      exact hne rfl
    · simp at h

theorem pending_insert {entry : MshrEntry} (q : List NewAddrType) :
    ({ m with data := m.data.insert b entry, currentResponse := q } : MshrTable).pending b' =
      if b' = b then entry.list else m.pending b' := by
  split_ifs with hb
  · subst hb
    simp [pending]
  · simp [pending, AList.lookup_insert_ne hb]

theorem pending_erase (q : List NewAddrType) :
    ({ m with data := m.data.erase b, currentResponse := q } : MshrTable).pending b' =
      if b' = b then [] else m.pending b' := by
  split_ifs with hb
  · subst hb
    simp [pending]
  · simp [pending, AList.lookup_erase_ne hb]

theorem length_entries (data : AList fun _ : NewAddrType => MshrEntry) :
    data.entries.length = data.keys.length := by
  rw [AList.keys, List.keys, List.length_map]

theorem length_insert_of_mem (entry : MshrEntry) (h : b ∈ m.data.keys) :
    (m.data.insert b entry).entries.length = m.data.entries.length := by
  have hpos := List.length_pos_of_mem h
  rw [length_entries, length_entries, AList.keys_insert, List.length_cons, List.length_erase_of_mem h]
  omega

/-- **A table with room takes the request.** -/
theorem add_of_not_full (hroom : m.full b = false) (hsize : m.data.entries.length ≤ m.numEntries)
    (hmerge : 0 < m.maxMerged) (mf : MemFetch) : ∃ m', m.add b mf = some m' := by
  simp only [add, list_getD_lookup]
  unfold full at hroom
  cases hl : m.data.lookup b with
  | none =>
    rw [hl] at hroom
    have hlt : m.data.entries.length < m.numEntries := Nat.lt_of_not_le (of_decide_eq_false hroom)
    have hnot : b ∉ m.data := fun hmem => by
      rw [← AList.lookup_isSome, hl] at hmem
      exact Bool.false_ne_true hmem
    rw [AList.entries_insert_of_notMem hnot, pending_of_lookup_none hl, if_pos ⟨hlt, hmerge⟩]
    exact ⟨_, rfl⟩
  | some entry =>
    rw [hl] at hroom
    have hlt : entry.list.length < m.maxMerged := Nat.lt_of_not_le (of_decide_eq_false hroom)
    have hmem : b ∈ m.data.keys := probe_iff.1 (by rw [probe, hl]; rfl)
    rw [length_insert_of_mem _ hmem, pending_of_lookup hl, List.length_append, if_pos ⟨hsize, hlt⟩]
    exact ⟨_, rfl⟩

end MshrTable

/-! ## The protocol -/

/-- The table, and the blocks whose read request memory has not answered. -/
structure Delivery where
  table : MshrTable
  outstanding : Multiset NewAddrType

namespace Delivery

/-- What happened: a request was added, a block was marked ready, a request was returned (`last` when
the entry went with it). -/
inductive Event
  | added (b : NewAddrType) (mf : MemFetch)
  | ready (b : NewAddrType)
  | returned (b : NewAddrType) (mf : MemFetch) (last : Bool)
  deriving DecidableEq

/-- A table without entries, and no request sent. -/
def Start (numEntries maxMerged : ℕ) (s : Delivery) : Prop :=
  s = ⟨{ numEntries, maxMerged }, 0⟩

/-- One operation on the table, under the guards of its owner. -/
inductive Step : Delivery → Event → Delivery → Prop
  /-- `send_read_request` adds when there is room, and sends a read request when `probe` failed. -/
  | add {s : Delivery} {table : MshrTable} {b : NewAddrType} {mf : MemFetch}
      (hroom : s.table.full b = false) (hadd : s.table.add b mf = some table) :
      Step s (.added b mf)
        ⟨table, if s.table.probe b then s.outstanding else b ::ₘ s.outstanding⟩
  /-- `fill` marks the block of a request that it finds, and forgets the request. -/
  | markReady {s : Delivery} {table : MshrTable} {b : NewAddrType} {hasAtomic : Bool}
      (hsent : b ∈ s.outstanding) (hready : s.table.markReady b = some (table, hasAtomic)) :
      Step s (.ready b) ⟨table, s.outstanding.erase b⟩
  /-- `next_access` is called after `access_ready`. -/
  | nextAccess {s : Delivery} {table : MshrTable} {b : NewAddrType} {mf : MemFetch}
      (hready : s.table.accessReady = true) (hfront : s.table.currentResponse.head? = some b)
      (hnext : s.table.nextAccess = some (mf, table)) :
      Step s (.returned b mf !(table.probe b)) ⟨table, s.outstanding⟩

/-- The requests of a block that were added, oldest first. -/
def addedTo (b : NewAddrType) : List Event → List MemFetch :=
  List.filterMap fun
    | .added b' mf => if b' = b then some mf else none
    | _ => none

/-- The requests of a block that were returned, oldest first. -/
def returnedOf (b : NewAddrType) : List Event → List MemFetch :=
  List.filterMap fun
    | .returned b' mf _ => if b' = b then some mf else none
    | _ => none

/-- The block was marked ready, and its entry has not been taken since. -/
def MarkedReady (b : NewAddrType) (log : List Event) : Prop :=
  ∃ before after, log = before ++ .ready b :: after ∧ ∀ mf, .returned b mf true ∉ after

/-! ## The invariant -/

/-- The queue, the entries and the requests sent agree with one another and with what happened. -/
structure Inv (log : List Event) (s : Delivery) : Prop where
  /-- A block with an entry waits for memory or is in the queue. -/
  tracked : (s.table.currentResponse : Multiset NewAddrType) + s.outstanding = s.table.data.keys
  nonempty : ∀ b ∈ s.table.data.keys, s.table.pending b ≠ []
  inOrder : ∀ b, addedTo b log = returnedOf b log ++ s.table.pending b
  marked : ∀ b ∈ s.table.currentResponse, MarkedReady b log

variable {log : List Event} {s s' : Delivery} {e : Event} {b : NewAddrType} {mf : MemFetch}

theorem MarkedReady.append (h : MarkedReady b log) (he : ∀ mf, e ≠ .returned b mf true) :
    MarkedReady b (log ++ [e]) := by
  obtain ⟨before, after, rfl, hafter⟩ := h
  refine ⟨before, after ++ [e], by simp, fun mf => ?_⟩
  rw [List.mem_append, List.mem_singleton, not_or]
  exact ⟨hafter mf, (he mf).symm⟩

theorem markedReady_ready : MarkedReady b (log ++ [.ready b]) :=
  ⟨log, [], rfl, by simp⟩

/-- The queue holds no block twice, and no block that memory still has to answer. -/
theorem Inv.nodup (h : Inv log s) : s.table.currentResponse.Nodup ∧
    ∀ b ∈ s.table.currentResponse, b ∉ s.outstanding := by
  have hkeys : ((s.table.currentResponse : Multiset NewAddrType) + s.outstanding).Nodup := by
    rw [h.tracked]
    exact Multiset.coe_nodup.2 s.table.data.keys_nodup
  rw [Multiset.nodup_add] at hkeys
  exact ⟨Multiset.coe_nodup.1 hkeys.1, fun b hb hout => Multiset.disjoint_left.1 hkeys.2.2 hb hout⟩

theorem keys_insert (m : MshrTable) (b : NewAddrType) (entry : MshrEntry) :
    ((m.data.insert b entry).keys : Multiset NewAddrType) =
      if m.probe b then (m.data.keys : Multiset NewAddrType) else b ::ₘ m.data.keys := by
  rw [AList.keys_insert]
  split_ifs with hb
  · exact Multiset.coe_eq_coe.2 (List.perm_cons_erase (MshrTable.probe_iff.1 hb)).symm
  · rw [List.erase_of_not_mem (fun hk => hb (MshrTable.probe_iff.2 hk)), Multiset.cons_coe]

theorem Inv.start {numEntries maxMerged : ℕ} (h : Start numEntries maxMerged s) : Inv [] s := by
  subst h
  exact ⟨rfl, by simp, fun b => rfl, by simp⟩

/-- A request that is added joins the end of its block. -/
theorem Inv.add {table : MshrTable} (h : Inv log s) (hadd : s.table.add b mf = some table) :
    Inv (log ++ [.added b mf])
      ⟨table, if s.table.probe b then s.outstanding else b ::ₘ s.outstanding⟩ := by
  obtain ⟨hasAtomic, rfl⟩ := MshrTable.add_cases hadd
  refine ⟨?_, fun b' hb' => ?_, fun b' => ?_, fun b' hb' => ?_⟩
  · rw [keys_insert]
    split_ifs with hb
    · exact h.tracked
    · rw [Multiset.add_cons, h.tracked]
  · rw [MshrTable.pending_insert]
    split_ifs with hb
    · simp
    · rw [AList.keys_insert, List.mem_cons] at hb'
      exact h.nonempty b' (List.mem_of_mem_erase (hb'.resolve_left hb))
  · rw [MshrTable.pending_insert]
    have hb' := h.inOrder b'
    split_ifs with hb
    · subst hb
      simp [addedTo, returnedOf, ← List.append_assoc] at hb' ⊢
      exact hb'
    · simpa [addedTo, returnedOf, Ne.symm hb] using hb'
  · exact (h.marked b' hb').append (by simp)

/-- A block that is marked ready leaves the requests sent for the queue. -/
theorem Inv.markReady {table : MshrTable} {hasAtomic : Bool} (h : Inv log s)
    (hsent : b ∈ s.outstanding) (hready : s.table.markReady b = some (table, hasAtomic)) :
    Inv (log ++ [.ready b]) ⟨table, s.outstanding.erase b⟩ := by
  obtain rfl := MshrTable.markReady_cases hready
  refine ⟨?_, h.nonempty, fun b' => ?_, fun b' hb' => ?_⟩
  · rw [← h.tracked, ← Multiset.coe_add, Multiset.add_assoc, Multiset.coe_singleton,
      Multiset.singleton_add, Multiset.cons_erase hsent]
  · simpa [addedTo, returnedOf, MshrTable.pending] using h.inOrder b'
  · rcases List.mem_append.1 hb' with hb' | hb'
    · exact (h.marked b' hb').append (by simp)
    · obtain rfl := List.mem_singleton.1 hb'
      exact markedReady_ready

/-- A request that is returned leaves the front of its block. -/
theorem Inv.nextAccess {table : MshrTable} (h : Inv log s)
    (hfront : s.table.currentResponse.head? = some b)
    (hnext : s.table.nextAccess = some (mf, table)) :
    Inv (log ++ [.returned b mf !(table.probe b)]) ⟨table, s.outstanding⟩ := by
  obtain ⟨b₀, rest, hasAtomic, list, hqueue, hl, htable⟩ := MshrTable.nextAccess_cases hnext
  obtain rfl : b₀ = b := by simpa [hqueue] using hfront
  have hpending := MshrTable.pending_of_lookup hl
  have hmem : b₀ ∈ s.table.data.keys :=
    AList.mem_keys.1 (AList.lookup_isSome.1 (by rw [hl]; rfl))
  have hrest : b₀ ∉ rest := by
    have hnodup := h.nodup.1
    rw [hqueue, List.nodup_cons] at hnodup
    exact hnodup.1
  have htracked := h.tracked
  rw [hqueue, ← Multiset.cons_coe, Multiset.cons_add] at htracked
  rcases htable with ⟨rfl, rfl⟩ | ⟨hne, rfl⟩
  · -- the last request takes the entry
    refine ⟨?_, fun b' hb' => ?_, fun b' => ?_, fun b' hb' => ?_⟩
    · rw [AList.keys_erase, ← Multiset.coe_erase, ← htracked, Multiset.erase_cons_head]
    · rw [AList.keys_erase] at hb'
      have hb : b' ≠ b₀ := ((s.table.data.keys_nodup.mem_erase_iff).1 hb').1
      rw [MshrTable.pending_erase, if_neg hb]
      exact h.nonempty b' (List.mem_of_mem_erase hb')
    · have hb' := h.inOrder b'
      rw [MshrTable.pending_erase]
      split_ifs with hb
      · subst hb
        simpa [addedTo, returnedOf, hpending] using hb'
      · simpa [addedTo, returnedOf, Ne.symm hb] using hb'
    · have hb : b' ≠ b₀ := fun hb => hrest (hb ▸ hb')
      exact (h.marked b' (by rw [hqueue]; exact List.mem_cons_of_mem _ hb')).append
        (by simp [hb.symm])
  · -- the entry and the queue keep the block
    have hprobe : ({ s.table with data := s.table.data.insert b₀ ⟨list, hasAtomic⟩ } :
        MshrTable).probe b₀ = true := by
      simp [MshrTable.probe]
    refine ⟨?_, fun b' hb' => ?_, fun b' => ?_, fun b' hb' => ?_⟩
    · rw [keys_insert, if_pos (MshrTable.probe_iff.2 hmem)]
      exact h.tracked
    · rw [MshrTable.pending_insert]
      split_ifs with hb
      · exact hne
      · rw [AList.keys_insert, List.mem_cons] at hb'
        exact h.nonempty b' (List.mem_of_mem_erase (hb'.resolve_left hb))
    · have hb' := h.inOrder b'
      rw [MshrTable.pending_insert]
      split_ifs with hb
      · subst hb
        simpa [addedTo, returnedOf, hpending] using hb'
      · simpa [addedTo, returnedOf, Ne.symm hb] using hb'
    · exact (h.marked b' hb').append (by simp [hprobe])

theorem Inv.step (h : Inv log s) (hstep : Step s e s') : Inv (log ++ [e]) s' := by
  cases hstep with
  | add _ hadd => exact h.add hadd
  | markReady hsent hready => exact h.markReady hsent hready
  | nextAccess _ hfront hnext => exact h.nextAccess hfront hnext

/-! ## Consequences -/

/-- A step moves requests between what was added, what waits and what was returned. -/
theorem Inv.conserved (h : Inv log s) (hstep : Step s e s') (b : NewAddrType) :
    s.table.pending b ++ addedTo b [e] = returnedOf b [e] ++ s'.table.pending b := by
  have hafter := (h.step hstep).inOrder b
  rw [addedTo, returnedOf, List.filterMap_append, List.filterMap_append] at hafter
  change addedTo b log ++ addedTo b [e] = returnedOf b log ++ returnedOf b [e] ++ _ at hafter
  rw [h.inOrder b, List.append_assoc, List.append_assoc] at hafter
  exact List.append_cancel_left hafter

theorem Inv.probe_iff (h : Inv log s) : s.table.probe b = true ↔ s.table.pending b ≠ [] := by
  refine ⟨fun hb => h.nonempty b (MshrTable.probe_iff.1 hb), fun hb => ?_⟩
  unfold MshrTable.probe
  cases hl : s.table.data.lookup b with
  | none => exact absurd (MshrTable.pending_of_lookup_none hl) hb
  | some entry => rfl

/-- **An entry disappears exactly when its last request is returned.** -/
theorem Inv.taken_iff (h : Inv log s) (hstep : Step s e s') (b : NewAddrType) :
    (s.table.probe b = true ∧ s'.table.probe b = false) ↔
      ∃ mf last, e = .returned b mf last ∧ s.table.pending b = [mf] := by
  have hmoved := h.conserved hstep b
  rw [h.probe_iff, ← Bool.not_eq_true, (h.step hstep).probe_iff, not_not]
  constructor
  · rintro ⟨hbefore, hafter⟩
    rw [hafter, List.append_nil] at hmoved
    cases e with
    | added b' mf => simp [returnedOf, hbefore] at hmoved
    | ready b' => simp [returnedOf, addedTo, hbefore] at hmoved
    | returned b' mf last =>
      by_cases hb : b' = b
      · subst hb
        exact ⟨mf, last, rfl, by simpa [returnedOf, addedTo] using hmoved⟩
      · simp [returnedOf, addedTo, hb, hbefore] at hmoved
  · rintro ⟨mf, last, rfl, hpending⟩
    rw [hpending] at hmoved ⊢
    refine ⟨by simp, ?_⟩
    simpa [returnedOf, addedTo] using hmoved

/-- The assertions of `mark_ready` hold for a block that memory has to answer. -/
theorem Inv.markReady_succeeds (h : Inv log s) (hsent : b ∈ s.outstanding) :
    ∃ table hasAtomic, s.table.markReady b = some (table, hasAtomic) := by
  have hkeys : b ∈ s.table.data.keys := by
    rw [← Multiset.mem_coe, ← h.tracked, Multiset.mem_add]
    exact Or.inr hsent
  have hcard := congrArg Multiset.card h.tracked
  rw [Multiset.card_add, Multiset.coe_card, Multiset.coe_card, AList.keys, List.keys,
    List.length_map] at hcard
  have hpos : 0 < Multiset.card s.outstanding := Multiset.card_pos_iff_exists_mem.2 ⟨b, hsent⟩
  have hroom : (s.table.currentResponse ++ [b]).length ≤ s.table.data.entries.length := by
    rw [List.length_append, List.length_singleton]
    omega
  obtain ⟨entry, hentry⟩ := Option.isSome_iff_exists.1 (AList.lookup_isSome.2 (AList.mem_keys.2 hkeys))
  refine ⟨{ s.table with currentResponse := s.table.currentResponse ++ [b] }, entry.hasAtomic, ?_⟩
  rw [MshrTable.markReady, hentry]
  simp only [Option.bind_eq_bind, Option.bind_some, guard, hroom, if_true]
  rfl

/-- The assertion of `next_access` holds for the front of the queue. -/
theorem Inv.nextAccess_succeeds {rest : List NewAddrType} (h : Inv log s)
    (hqueue : s.table.currentResponse = b :: rest) :
    ∃ mf table, s.table.nextAccess = some (mf, table) := by
  have hkeys : b ∈ s.table.data.keys := by
    rw [← Multiset.mem_coe, ← h.tracked, Multiset.mem_add, hqueue]
    exact Or.inl (List.mem_cons_self ..)
  obtain ⟨⟨list, hasAtomic⟩, hentry⟩ :=
    Option.isSome_iff_exists.1 (AList.lookup_isSome.2 (AList.mem_keys.2 hkeys))
  have hne := h.nonempty b hkeys
  rw [MshrTable.pending_of_lookup hentry] at hne
  unfold MshrTable.nextAccess
  rw [hqueue]
  simp only [hentry]
  rcases list with _ | ⟨mf, _ | ⟨mf', list⟩⟩
  · exact absurd rfl hne
  · exact ⟨mf, _, rfl⟩
  · exact ⟨mf, _, rfl⟩

/-! ## The rest of a run -/

/-- No request is added. -/
def NoAdds (events : List Event) : Prop := ∀ b mf, .added b mf ∉ events

theorem addedTo_of_noAdds {events : List Event} (h : NoAdds events) (b : NewAddrType) :
    addedTo b events = [] := by
  rw [addedTo, List.filterMap_eq_nil_iff]
  intro e he
  cases e with
  | added b' mf => exact absurd he (h b' mf)
  | ready | returned => rfl

theorem NoAdds.append {events events' : List Event} (h : NoAdds events) (h' : NoAdds events') :
    NoAdds (events ++ events') := by
  intro b mf hmem
  exact (List.mem_append.1 hmem).elim (h b mf) (h' b mf)

/-- Memory can answer all it was asked. -/
theorem Inv.answerAll (h : Inv log s) :
    ∃ events s', Steps Step s events s' ∧ NoAdds events ∧ s'.outstanding = 0 := by
  generalize hn : Multiset.card s.outstanding = n
  induction n generalizing log s with
  | zero => exact ⟨[], s, .nil, by simp [NoAdds], Multiset.card_eq_zero.1 hn⟩
  | succ n ih =>
    have hpos : 0 < Multiset.card s.outstanding := by omega
    obtain ⟨b, hsent⟩ := Multiset.card_pos_iff_exists_mem.1 hpos
    obtain ⟨table, hasAtomic, hready⟩ := h.markReady_succeeds hsent
    have hcard : Multiset.card (s.outstanding.erase b) = n := by
      rw [Multiset.card_erase_of_mem hsent, hn, Nat.pred_succ]
    obtain ⟨events, s', hsteps, hadds, hdone⟩ := ih (h.markReady hsent hready) hcard
    exact ⟨_, s', .cons (.markReady hsent hready) hsteps, by simpa [NoAdds] using hadds, hdone⟩

/-- The requests of the front block can all be taken. -/
theorem Inv.takeFront {rest : List NewAddrType} (h : Inv log s)
    (hqueue : s.table.currentResponse = b :: rest) :
    ∃ log' events s', Steps Step s events s' ∧ NoAdds events ∧ Inv log' s' ∧
      s'.outstanding = s.outstanding ∧ s'.table.currentResponse = rest := by
  generalize hn : (s.table.pending b).length = n
  induction n generalizing log s with
  | zero =>
    have hb : b ∈ s.table.data.keys := by
      rw [← Multiset.mem_coe, ← h.tracked, Multiset.mem_add, hqueue]
      exact Or.inl (List.mem_cons_self ..)
    exact absurd (List.length_eq_zero_iff.1 hn) (h.nonempty b hb)
  | succ n ih =>
    obtain ⟨mf, table, hnext⟩ := h.nextAccess_succeeds hqueue
    have hfront : s.table.currentResponse.head? = some b := by rw [hqueue]; rfl
    have hready : s.table.accessReady = true := by rw [MshrTable.accessReady, hqueue]; rfl
    have hstep := Step.nextAccess hready hfront hnext
    have hinv := h.step hstep
    obtain ⟨b₀, rest₀, hasAtomic, list, hqueue', hl, htable⟩ := MshrTable.nextAccess_cases hnext
    obtain ⟨rfl, rfl⟩ := List.cons.inj (hqueue.symm.trans hqueue')
    rcases htable with ⟨-, rfl⟩ | ⟨-, rfl⟩
    · exact ⟨_, _, _, .cons hstep .nil, by simp [NoAdds], hinv, rfl, rfl⟩
    · have hlength : list.length = n := by
        rw [MshrTable.pending_of_lookup hl] at hn
        exact Nat.succ.inj hn
      obtain ⟨log', events, s', hsteps, hadds, hinv', hout, hrest⟩ :=
        ih hinv hqueue (by rw [MshrTable.pending_insert, if_pos rfl]; exact hlength)
      exact ⟨log', _, s', .cons hstep hsteps, by simpa [NoAdds] using hadds, hinv', hout, hrest⟩

/-- The queue can be emptied. -/
theorem Inv.takeAll (h : Inv log s) (hdone : s.outstanding = 0) :
    ∃ events s', Steps Step s events s' ∧ NoAdds events ∧ s'.table.data.keys = [] := by
  generalize hqueue : s.table.currentResponse = queue
  induction queue generalizing log s with
  | nil =>
    have hkeys := h.tracked
    rw [hqueue, hdone] at hkeys
    exact ⟨[], s, .nil, by simp [NoAdds], (Multiset.coe_eq_zero _).1 hkeys.symm⟩
  | cons b rest ih =>
    obtain ⟨log', events, t, hsteps, hadds, hinv, hout, hrest⟩ := h.takeFront hqueue
    obtain ⟨events', s', hsteps', hadds', hkeys⟩ := ih hinv (hout.trans hdone) hrest
    exact ⟨_, s', hsteps.append hsteps', hadds.append hadds', hkeys⟩

section Runs

variable {numEntries maxMerged : ℕ}

theorem reach_inv (h : Reach (Start numEntries maxMerged) Step log s) : Inv log s :=
  h.invariant Inv (fun _ => Inv.start) fun _ _ _ _ _ hinv hstep => hinv.step hstep

/-- A run can go on, without further requests, until every request has been returned. -/
theorem drains (h : Reach (Start numEntries maxMerged) Step log s) :
    ∃ events s', Steps Step s events s' ∧ NoAdds events ∧
      ∀ b, returnedOf b (log ++ events) = addedTo b log := by
  obtain ⟨events, t, hsteps, hadds, hdone⟩ := (reach_inv h).answerAll
  obtain ⟨events', s', hsteps', hadds', hkeys⟩ := (reach_inv (h.append hsteps)).takeAll hdone
  refine ⟨_, s', hsteps.append hsteps', hadds.append hadds', fun b => ?_⟩
  have hinv := reach_inv (h.append (hsteps.append hsteps'))
  have hb := hinv.inOrder b
  have hpending : s'.table.pending b = [] := by
    by_contra hne
    rw [← Ne, ← hinv.probe_iff, MshrTable.probe_iff, hkeys] at hne
    exact absurd hne List.not_mem_nil
  rw [hpending, List.append_nil, addedTo, List.filterMap_append] at hb
  change addedTo b log ++ addedTo b (events ++ events') = _ at hb
  rw [addedTo_of_noAdds (hadds.append hadds'), List.append_nil] at hb
  exact hb.symm

/-- A request is returned after its block was marked ready. -/
theorem markedReady_of_returned {before after : List Event} {last : Bool}
    (h : Reach (Start numEntries maxMerged) Step (before ++ .returned b mf last :: after) s) :
    MarkedReady b before := by
  obtain ⟨t, t', hbefore, hstep⟩ := h.of_prefix
  generalize he : Event.returned b mf last = e at hstep
  cases hstep with
  | add | markReady => exact absurd he (by simp)
  | nextAccess _ hfront =>
    obtain ⟨rfl, -, -⟩ := Event.returned.inj he
    exact (reach_inv hbefore).marked b (List.mem_of_mem_head? hfront)

/-- The table keeps its sizes, and has at most as many entries as it is made for. -/
theorem reach_size (h : Reach (Start numEntries maxMerged) Step log s) :
    s.table.numEntries = numEntries ∧ s.table.maxMerged = maxMerged ∧
      s.table.data.entries.length ≤ numEntries := by
  apply h.invariant (fun _ s => s.table.numEntries = numEntries ∧ s.table.maxMerged = maxMerged ∧
    s.table.data.entries.length ≤ numEntries)
  · rintro s rfl
    exact ⟨rfl, rfl, Nat.zero_le _⟩
  · rintro log s e s' - ⟨hnum, hmax, hle⟩ hstep
    cases hstep with
    | @add table _ _ _ hadd =>
      have hguard : table.data.entries.length ≤ s.table.numEntries := by
        unfold MshrTable.add at hadd
        dsimp only at hadd
        split_ifs at hadd with hsize
        obtain rfl := Option.some.inj hadd
        exact hsize.1
      obtain ⟨hasAtomic, rfl⟩ := MshrTable.add_cases hadd
      exact ⟨hnum, hmax, hnum ▸ hguard⟩
    | markReady _ hready =>
      obtain rfl := MshrTable.markReady_cases hready
      exact ⟨hnum, hmax, hle⟩
    | nextAccess _ _ hnext =>
      obtain ⟨b, rest, hasAtomic, list, -, hl, ⟨-, rfl⟩ | ⟨-, rfl⟩⟩ := MshrTable.nextAccess_cases hnext
      · refine ⟨hnum, hmax, Nat.le_trans ?_ hle⟩
        rw [MshrTable.length_entries, MshrTable.length_entries, AList.keys_erase]
        exact List.length_erase_le
      · refine ⟨hnum, hmax, Nat.le_trans (Nat.le_of_eq ?_) hle⟩
        exact MshrTable.length_insert_of_mem _ (MshrTable.probe_iff.1 (by rw [MshrTable.probe, hl]; rfl))

/-- A request for which the table is not full is added. -/
theorem exists_added (h : Reach (Start numEntries maxMerged) Step log s) (hmerge : 0 < maxMerged)
    (hroom : s.table.full b = false) (mf : MemFetch) : ∃ s', Step s (.added b mf) s' := by
  obtain ⟨hnum, hmax, hle⟩ := reach_size h
  obtain ⟨table, htable⟩ := MshrTable.add_of_not_full hroom (hnum.symm ▸ hle) (hmax.symm ▸ hmerge) mf
  exact ⟨_, .add hroom htable⟩

/-- **Delivery.**  After every run:

* the requests of a block that were added are those that were returned and those that wait, in this
  order, and the run can go on until all have been returned;
* a request is returned after its block was marked ready, and no entry of the block was taken since;
* the next step takes the entry of a block exactly when it returns the only request that waits;
* the queue holds no block twice;
* a request for which the table is not full is added. -/
theorem mshr_delivery (h : Reach (Start numEntries maxMerged) Step log s) :
    (∀ b, addedTo b log = returnedOf b log ++ s.table.pending b) ∧
      (∃ events s', Steps Step s events s' ∧ NoAdds events ∧
        ∀ b, returnedOf b (log ++ events) = addedTo b log) ∧
      (∀ before b mf last after, log = before ++ .returned b mf last :: after →
        MarkedReady b before) ∧
      (∀ e s' b, Step s e s' → ((s.table.probe b = true ∧ s'.table.probe b = false) ↔
        ∃ mf last, e = .returned b mf last ∧ s.table.pending b = [mf])) ∧
      s.table.currentResponse.Nodup ∧
      (0 < maxMerged → ∀ b mf, s.table.full b = false → ∃ s', Step s (.added b mf) s') := by
  have hinv := reach_inv h
  refine ⟨hinv.inOrder, drains h, ?_, fun e s' b hstep => hinv.taken_iff hstep b, hinv.nodup.1,
    fun hmerge b mf hroom => exists_added h hmerge hroom mf⟩
  rintro before b mf last after rfl
  exact markedReady_of_returned h

end Runs

/-- A read of the block at 0. -/
def read (uid : ℕ) : MemFetch :=
  { requestUid := uid, accessType := .globalAccR, isWrite := false, isAtomic := false, addr := 0,
    dataSize := 32 }

/-- Two reads are merged, and a third one joins when the first has been returned. -/
theorem mshr_delivery_merged : ∃ s,
    Reach (Start 1 2) Step
      [.added 0 (read 1), .added 0 (read 2), .ready 0, .returned 0 (read 1) false,
        .added 0 (read 3), .returned 0 (read 2) false, .returned 0 (read 3) true] s ∧
      s.table.currentResponse.Nodup ∧ ∃ s', Step s (.added 0 (read 4)) s' := by
  have h : Reach (Start 1 2) Step [] ⟨{ numEntries := 1, maxMerged := 2 }, 0⟩ := .start rfl
  have h := h.step (@Step.add _ _ 0 (read 1) rfl rfl)
  have h := h.step (@Step.add _ _ 0 (read 2) rfl rfl)
  have h := h.step (.markReady (b := 0) (by decide) rfl)
  have h := h.step (.nextAccess rfl rfl rfl)
  have h := h.step (@Step.add _ _ 0 (read 3) rfl rfl)
  have h := h.step (.nextAccess rfl rfl rfl)
  have h := h.step (.nextAccess rfl rfl rfl)
  obtain ⟨-, -, -, -, hnodup, hadded⟩ := mshr_delivery h
  exact ⟨_, h, hnodup, hadded (by decide) 0 (read 4) rfl⟩

end Delivery

end CompressionWork.Cache
