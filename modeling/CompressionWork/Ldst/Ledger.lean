import CompressionWork.Ldst.Unit
import Mathlib.Algebra.Order.Ring.Int
import Mathlib.Data.Multiset.Count
import Mathlib.Data.Multiset.AddSub
import Mathlib.Data.Multiset.Filter
import Mathlib.Tactic.Ring

/-!
# The load/store unit: the instructions on their way

A ledger of what the unit and the scoreboard owe to each instruction, without the order in which they
serve it.

* `Ledger` — where the issued instructions are, and the accesses that are under way.
* `Ledger.Inv` — the counts are the accesses that are not served, and the reserved registers are those of
  the instructions that are not complete.

Each way in which an instruction moves keeps the invariant.
-/

namespace CompressionWork.Ldst

/-- The register `r` of the warp `w` is a destination. -/
def WarpInst.Writes (inst : WarpInst) (w r : ℕ) : Prop := inst.warpId = w ∧ r ∈ inst.regs

instance (inst : WarpInst) (w r : ℕ) : Decidable (inst.Writes w r) :=
  inferInstanceAs (Decidable (_ ∧ _))

theorem WarpInst.Writes.regs_ne {i : WarpInst} {w r : ℕ} (h : i.Writes w r) : i.regs ≠ [] :=
  List.ne_nil_of_mem h.2

/-- `queued` are the instructions before and after `m_dispatch_reg`, `accesses` those that were sent and
have a register to write. -/
structure Ledger where
  pending : ℕ → ℕ → ℤ
  table : RegTable
  completed : List WarpInst
  issued : List WarpInst
  queued : Multiset WarpInst
  dispatch : Option WarpInst
  left : ℕ
  accesses : Multiset WarpInst

namespace Ledger

/-- An instruction that is issued and not complete. -/
def Live (l : Ledger) (i : WarpInst) : Prop := i ∈ l.issued ∧ i ∉ l.completed

/-- The accesses of the dispatched load that are still in its queue. -/
def queue (l : Ledger) (w r : ℕ) : ℕ :=
  if ∃ d ∈ l.dispatch, d.counted ∧ d.Writes w r then l.left else 0

/-- The accesses to a register that are not served. -/
def unserved (l : Ledger) (w r : ℕ) : ℕ := l.accesses.countP (·.Writes w r) + l.queue w r

/-- Every instruction is in exactly one place until it is complete, and its registers are its own. -/
structure Inv (l : Ledger) : Prop where
  nodup : l.completed.Nodup
  completed : ∀ i ∈ l.completed, i ∈ l.issued
  queuedNodup : l.queued.Nodup
  queued : ∀ i ∈ l.queued, l.Live i ∧ i ∉ l.accesses
  dispatch : ∀ d ∈ l.dispatch, l.Live d ∧ d ∉ l.queued
  accesses : ∀ t ∈ l.accesses, l.Live t ∧ t.counted ∧ t.regs ≠ [] ∧ t.activeCount ≠ 0
  covered : ∀ i, l.Live i → i ∈ l.queued ∨ i ∈ l.dispatch ∨ i ∈ l.accesses
  disjoint : ∀ i j, l.Live i → l.Live j → ∀ w r, i.Writes w r → j.Writes w r → i = j
  table : ∀ w r, l.table w r = true ↔ ∃ i, l.Live i ∧ i.Writes w r
  count : ∀ w r, l.pending w r = l.unserved w r

variable {l : Ledger}

/-! ## Issue -/

/-- A warp issues the instruction. -/
def reserve (l : Ledger) (i : WarpInst) : Ledger :=
  { l with
    table := fun w r => if i.Writes w r then true else l.table w r
    issued := l.issued ++ [i], queued := i ::ₘ l.queued }

theorem Inv.reserve (h : l.Inv) {i : WarpInst} (hi : i ∉ l.issued)
    (hf : ∀ r ∈ i.regs, l.table i.warpId r = false) : (l.reserve i).Inv := by
  have hc : i ∉ l.completed := fun hm => hi (h.completed i hm)
  have hlive : ∀ j, (l.reserve i).Live j ↔ l.Live j ∨ j = i := by
    intro j
    simp only [Live, Ledger.reserve, List.mem_append, List.mem_singleton]
    constructor
    · rintro ⟨hj | rfl, hn⟩
      · exact .inl ⟨hj, hn⟩
      · exact .inr rfl
    · rintro (⟨hj, hn⟩ | rfl)
      · exact ⟨.inl hj, hn⟩
      · exact ⟨.inr rfl, hc⟩
  have hnew : ∀ j w r, l.Live j → j.Writes w r → ¬ i.Writes w r := by
    rintro j w r hj hw ⟨rfl, hr⟩
    have ht := (h.table i.warpId r).2 ⟨j, hj, hw⟩
    simp [hf r hr] at ht
  exact
    { nodup := h.nodup
      completed := fun j hj => List.mem_append_left _ (h.completed j hj)
      queuedNodup := Multiset.nodup_cons.2 ⟨fun hm => hi (h.queued i hm).1.1, h.queuedNodup⟩
      queued := by
        intro j hj
        rcases Multiset.mem_cons.1 hj with rfl | hj
        · exact ⟨(hlive j).2 (.inr rfl), fun hm => hi (h.accesses j hm).1.1⟩
        · exact ⟨(hlive j).2 (.inl (h.queued j hj).1), (h.queued j hj).2⟩
      dispatch := by
        intro d hd
        obtain ⟨hl, hq⟩ := h.dispatch d hd
        refine ⟨(hlive d).2 (.inl hl), fun hm => ?_⟩
        rcases Multiset.mem_cons.1 hm with rfl | hm
        · exact hi hl.1
        · exact hq hm
      accesses := fun t ht => ⟨(hlive t).2 (.inl (h.accesses t ht).1), (h.accesses t ht).2⟩
      covered := by
        intro j hj
        rcases (hlive j).1 hj with hj | rfl
        · rcases h.covered j hj with hq | hd
          · exact .inl (Multiset.mem_cons_of_mem hq)
          · exact .inr hd
        · exact .inl (Multiset.mem_cons_self _ _)
      disjoint := by
        intro j k hj hk w r hwj hwk
        rcases (hlive j).1 hj with hlj | hji <;> rcases (hlive k).1 hk with hlk | hki
        · exact h.disjoint j k hlj hlk w r hwj hwk
        · exact absurd (hki ▸ hwk) (hnew j w r hlj hwj)
        · exact absurd (hji ▸ hwj) (hnew k w r hlk hwk)
        · rw [hji, hki]
      table := by
        intro w r
        simp only [Ledger.reserve]
        by_cases hw : i.Writes w r
        · simpa [hw] using ⟨i, (hlive i).2 (.inr rfl), hw⟩
        · rw [if_neg hw, h.table]
          constructor
          · rintro ⟨j, hj, hwj⟩
            exact ⟨j, (hlive j).2 (.inl hj), hwj⟩
          · rintro ⟨j, hj, hwj⟩
            rcases (hlive j).1 hj with hj | rfl
            · exact ⟨j, hj, hwj⟩
            · exact absurd hwj hw
      count := h.count }

/-- The unit takes the instruction. -/
def issue (l : Ledger) (i : WarpInst) : Ledger :=
  { l with
    pending := fun w r =>
      l.pending w r + if i.counted ∧ i.Writes w r then (i.accessqCount : ℤ) else 0
    queued := l.queued.erase i, dispatch := some i, left := i.accessqCount }

theorem Inv.issue (h : l.Inv) {i : WarpInst} (hi : i ∈ l.queued) (hd : l.dispatch = none) :
    (l.issue i).Inv where
  nodup := h.nodup
  completed := h.completed
  queuedNodup := h.queuedNodup.erase _
  queued j hj := h.queued j (Multiset.mem_of_mem_erase hj)
  dispatch := by
    rintro d ⟨⟩
    exact ⟨(h.queued i hi).1, h.queuedNodup.notMem_erase⟩
  accesses := h.accesses
  covered := by
    intro j hj
    by_cases hji : j = i
    · exact .inr (.inl (by simp [Ledger.issue, hji]))
    · rcases h.covered j hj with hq | hc | ha
      · exact .inl ((Multiset.mem_erase_of_ne hji).2 hq)
      · simp [hd] at hc
      · exact .inr (.inr ha)
  disjoint := h.disjoint
  table := h.table
  count := by
    intro w r
    have hc := h.count w r
    simp only [unserved, queue, hd, Option.mem_def, reduceCtorEq, false_and, exists_false,
      if_false] at hc
    simp only [Ledger.issue, unserved, queue, Option.mem_def, Option.some.injEq, exists_eq_left', hc]
    split <;> simp

/-! ## The stages -/

/-- An access leaves the queue: it is served in place. -/
def hit (l : Ledger) (d : WarpInst) : Ledger :=
  { l with
    pending := fun w r => l.pending w r - if d.counted ∧ d.Writes w r then 1 else 0
    left := l.left - 1 }

theorem Inv.hit (h : l.Inv) {d : WarpInst} (hd : l.dispatch = some d) (hl : l.left ≠ 0) :
    (l.hit d).Inv where
  nodup := h.nodup
  completed := h.completed
  queuedNodup := h.queuedNodup
  queued := h.queued
  dispatch := h.dispatch
  accesses := h.accesses
  covered := h.covered
  disjoint := h.disjoint
  table := h.table
  count := by
    intro w r
    have hc := h.count w r
    simp only [unserved, queue, hd, Option.mem_def, Option.some.injEq, exists_eq_left'] at hc
    simp only [Ledger.hit, unserved, queue, hd, Option.mem_def, Option.some.injEq, exists_eq_left', hc]
    split <;> omega

/-- An access leaves the queue: it is sent, and waits for its response if it is a load's. -/
def send (l : Ledger) (d : WarpInst) : Ledger :=
  { l with
    left := l.left - 1
    accesses := if d.isLoad = true ∧ d.regs ≠ [] then d ::ₘ l.accesses else l.accesses }

theorem Inv.send (h : l.Inv) {d : WarpInst} (hd : l.dispatch = some d) (hl : l.left ≠ 0)
    (hs : d.space ≠ .shared) (ha : d.activeCount ≠ 0) : (l.send d).Inv := by
  have hmem : ∀ t, t ∈ (l.send d).accesses → t ∈ l.accesses ∨ (t = d ∧ d.isLoad = true ∧ d.regs ≠ []) := by
    intro t ht
    simp only [Ledger.send] at ht
    split at ht
    · rcases Multiset.mem_cons.1 ht with rfl | ht
      · exact .inr ⟨rfl, ‹_›⟩
      · exact .inl ht
    · exact .inl ht
  obtain ⟨hdl, hdq⟩ := h.dispatch d hd
  exact
    { nodup := h.nodup
      completed := h.completed
      queuedNodup := h.queuedNodup
      queued := by
        intro j hj
        refine ⟨(h.queued j hj).1, fun hm => ?_⟩
        rcases hmem j hm with hm | ⟨rfl, -⟩
        · exact (h.queued j hj).2 hm
        · exact hdq hj
      dispatch := h.dispatch
      accesses := by
        intro t ht
        rcases hmem t ht with ht | ⟨rfl, hload, hr⟩
        · exact h.accesses t ht
        · exact ⟨hdl, by simp [WarpInst.counted, hload, hs], hr, ha⟩
      covered := by
        intro j hj
        rcases h.covered j hj with hq | hc | hc
        · exact .inl hq
        · exact .inr (.inl hc)
        · refine .inr (.inr ?_)
          simp only [Ledger.send]
          split
          · exact Multiset.mem_cons_of_mem hc
          · exact hc
      disjoint := h.disjoint
      table := h.table
      count := by
        intro w r
        have hc := h.count w r
        simp only [unserved, queue, hd, Option.mem_def, Option.some.injEq, exists_eq_left'] at hc
        simp only [Ledger.send, unserved, queue, hd, Option.mem_def, Option.some.injEq,
          exists_eq_left', hc]
        by_cases hw : d.Writes w r
        · by_cases hload : d.isLoad = true
          · have hcd : d.counted := by simp [WarpInst.counted, hload, hs]
            simp [hload, hw.regs_ne, hw, hcd]
            omega
          · simp [WarpInst.counted, hload]
        · simp only [hw, and_false, if_false]
          split <;> simp [hw] }

/-! ## The way out of `m_dispatch_reg` -/

/-- The instruction has no accesses under way and goes on. -/
def forward (l : Ledger) (d : WarpInst) : Ledger :=
  { l with queued := d ::ₘ l.queued, dispatch := none }

theorem Inv.forward (h : l.Inv) {d : WarpInst} (hd : l.dispatch = some d) (hna : d ∉ l.accesses)
    (hl : d.counted = true → l.left = 0) : (l.forward d).Inv where
  nodup := h.nodup
  completed := h.completed
  queuedNodup := Multiset.nodup_cons.2 ⟨(h.dispatch d hd).2, h.queuedNodup⟩
  queued := by
    intro j hj
    rcases Multiset.mem_cons.1 hj with rfl | hj
    · exact ⟨(h.dispatch j hd).1, hna⟩
    · exact h.queued j hj
  dispatch := by simp [Ledger.forward]
  accesses := h.accesses
  covered := by
    intro j hj
    rcases h.covered j hj with hq | hc | hc
    · exact .inl (Multiset.mem_cons_of_mem hq)
    · obtain rfl : d = j := by simpa [hd] using hc
      exact .inl (Multiset.mem_cons_self _ _)
    · exact .inr (.inr hc)
  disjoint := h.disjoint
  table := h.table
  count := by
    intro w r
    have hc := h.count w r
    simp only [unserved, queue, hd, Option.mem_def, Option.some.injEq, exists_eq_left'] at hc
    simp only [Ledger.forward, unserved, queue, Option.mem_def, reduceCtorEq, false_and,
      exists_false, if_false, hc]
    split
    · next hs => simp [hl hs.1]
    · rfl

/-- The instruction leaves, and its accesses are under way. -/
def leave (l : Ledger) : Ledger := { l with dispatch := none }

theorem Inv.leave (h : l.Inv) {d : WarpInst} (hd : l.dispatch = some d) (ha : d ∈ l.accesses)
    (hl : l.left = 0) : l.leave.Inv where
  nodup := h.nodup
  completed := h.completed
  queuedNodup := h.queuedNodup
  queued := h.queued
  dispatch := by simp [Ledger.leave]
  accesses := h.accesses
  covered := by
    intro j hj
    rcases h.covered j hj with hq | hc | hc
    · exact .inl hq
    · obtain rfl : d = j := by simpa [hd] using hc
      exact .inr (.inr ha)
    · exact .inr (.inr hc)
  disjoint := h.disjoint
  table := h.table
  count := by
    intro w r
    have hc := h.count w r
    simpa [unserved, queue, Ledger.leave, hl] using hc

/-! ## The way out of the unit -/

/-- The instruction is complete, and its registers are released. -/
def complete (l : Ledger) (i : WarpInst) : Ledger :=
  { l with
    table := fun w r => if i.Writes w r then false else l.table w r
    completed := l.completed ++ [i], queued := l.queued.erase i }

theorem Inv.complete (h : l.Inv) {i : WarpInst} (hi : i ∈ l.queued) : (l.complete i).Inv := by
  obtain ⟨hli, hna⟩ := h.queued i hi
  have hlive : ∀ j, (l.complete i).Live j ↔ l.Live j ∧ j ≠ i := by
    intro j
    simp [Live, Ledger.complete, and_assoc]
  exact
    { nodup := by
        simp only [Ledger.complete, List.nodup_append, List.nodup_singleton, List.mem_singleton]
        exact ⟨h.nodup, trivial, fun j hj k hk hjk => hli.2 (by rwa [← hk, ← hjk])⟩
      completed := by
        intro j hj
        rcases List.mem_append.1 hj with hj | hj
        · exact h.completed j hj
        · rw [List.mem_singleton.1 hj]
          exact hli.1
      queuedNodup := h.queuedNodup.erase _
      queued := by
        intro j hj
        obtain ⟨hne, hjq⟩ := (Multiset.Nodup.mem_erase_iff h.queuedNodup).1 hj
        exact ⟨(hlive j).2 ⟨(h.queued j hjq).1, hne⟩, (h.queued j hjq).2⟩
      dispatch := by
        intro d hd
        obtain ⟨hld, hq⟩ := h.dispatch d hd
        refine ⟨(hlive d).2 ⟨hld, ?_⟩, fun hm => hq (Multiset.mem_of_mem_erase hm)⟩
        rintro rfl
        exact hq hi
      accesses := by
        intro t ht
        refine ⟨(hlive t).2 ⟨(h.accesses t ht).1, ?_⟩, (h.accesses t ht).2⟩
        rintro rfl
        exact hna ht
      covered := by
        intro j hj
        obtain ⟨hlj, hne⟩ := (hlive j).1 hj
        rcases h.covered j hlj with hq | hc
        · exact .inl ((Multiset.mem_erase_of_ne hne).2 hq)
        · exact .inr hc
      disjoint := fun j k hj hk => h.disjoint j k ((hlive j).1 hj).1 ((hlive k).1 hk).1
      table := by
        intro w r
        simp only [Ledger.complete]
        split
        · next hw =>
          simp only [Bool.false_eq_true, false_iff]
          rintro ⟨j, hj, hwj⟩
          obtain ⟨hlj, hne⟩ := (hlive j).1 hj
          exact hne (h.disjoint j i hlj hli w r hwj hw)
        · next hw =>
          rw [h.table]
          constructor
          · rintro ⟨j, hj, hwj⟩
            refine ⟨j, (hlive j).2 ⟨hj, ?_⟩, hwj⟩
            rintro rfl
            exact hw hwj
          · rintro ⟨j, hj, hwj⟩
            exact ⟨j, ((hlive j).1 hj).1, hwj⟩
      count := h.count }

/-- An access is served. -/
def serve (l : Ledger) (t : WarpInst) : Ledger :=
  { l with
    pending := fun w r => l.pending w r - if t.Writes w r then 1 else 0
    accesses := l.accesses.erase t }

theorem unserved_serve {t : WarpInst} (ht : t ∈ l.accesses) (w r : ℕ) :
    (l.unserved w r : ℤ) = (l.serve t).unserved w r + if t.Writes w r then 1 else 0 := by
  have hcount : l.accesses.countP (·.Writes w r) =
      (l.accesses.erase t).countP (·.Writes w r) + if t.Writes w r then 1 else 0 := by
    conv_lhs => rw [← Multiset.cons_erase ht, Multiset.countP_cons]
  have hserve : (l.serve t).unserved w r =
      (l.accesses.erase t).countP (·.Writes w r) + l.queue w r := rfl
  rw [hserve, unserved, hcount]
  split <;> push_cast <;> ring

/-- An access is served and the instruction has more of them. -/
theorem Inv.serve (h : l.Inv) {t : WarpInst} (ht : t ∈ l.accesses)
    (hm : t ∈ l.dispatch ∨ t ∈ l.accesses.erase t) : (l.serve t).Inv where
  nodup := h.nodup
  completed := h.completed
  queuedNodup := h.queuedNodup
  queued j hj := ⟨(h.queued j hj).1, fun hm => (h.queued j hj).2 (Multiset.mem_of_mem_erase hm)⟩
  dispatch := h.dispatch
  accesses s hs := h.accesses s (Multiset.mem_of_mem_erase hs)
  covered := by
    intro j hj
    by_cases hjt : j = t
    · exact .inr (hjt ▸ hm)
    · rcases h.covered j hj with hq | hc | hc
      · exact .inl hq
      · exact .inr (.inl hc)
      · exact .inr (.inr ((Multiset.mem_erase_of_ne hjt).2 hc))
  disjoint := h.disjoint
  table := h.table
  count := by
    intro w r
    simp [Ledger.serve, h.count, unserved_serve ht w r]

/-- The last access is served. -/
theorem Inv.serve_last (h : l.Inv) {t : WarpInst} (ht : t ∈ l.accesses) (hd : t ∉ l.dispatch)
    (hm : t ∉ l.accesses.erase t) :
    { l.serve t with queued := t ::ₘ l.queued }.Inv where
  nodup := h.nodup
  completed := h.completed
  queuedNodup := Multiset.nodup_cons.2 ⟨fun hq => (h.queued t hq).2 ht, h.queuedNodup⟩
  queued := by
    intro j hj
    rcases Multiset.mem_cons.1 hj with rfl | hj
    · exact ⟨(h.accesses j ht).1, hm⟩
    · exact ⟨(h.queued j hj).1, fun hm => (h.queued j hj).2 (Multiset.mem_of_mem_erase hm)⟩
  dispatch := by
    intro d hdd
    refine ⟨(h.dispatch d hdd).1, fun hq => ?_⟩
    rcases Multiset.mem_cons.1 hq with rfl | hq
    · exact hd hdd
    · exact (h.dispatch d hdd).2 hq
  accesses s hs := h.accesses s (Multiset.mem_of_mem_erase hs)
  covered := by
    intro j hj
    by_cases hjt : j = t
    · exact .inl (hjt ▸ Multiset.mem_cons_self _ _)
    · rcases h.covered j hj with hq | hc | hc
      · exact .inl (Multiset.mem_cons_of_mem hq)
      · exact .inr (.inl hc)
      · exact .inr (.inr ((Multiset.mem_erase_of_ne hjt).2 hc))
  disjoint := h.disjoint
  table := h.table
  count := by
    intro w r
    have hserve : ({ l.serve t with queued := t ::ₘ l.queued } : Ledger).unserved w r =
        (l.serve t).unserved w r := rfl
    rw [hserve]
    simp [Ledger.serve, h.count, unserved_serve ht w r]

end Ledger

end CompressionWork.Ldst
