import Mathlib.Data.List.Basic
import Mathlib.Data.List.Perm.Subperm
import Mathlib.Data.Nat.Notation
import Mathlib.Logic.Function.Basic

/-!
# The first-ready scheduler of a DRAM channel

The model of `frfcfs_scheduler`: for each bank a queue of the requests, newest first, and for each row of
the bank a bin of iterators into that queue.  An iterator is the number of its list node.

* `addReq`, `schedule` — the two calls.
* `Spec`, `Spec.schedule` — the requests of each bank in the order of arrival; the oldest one for the open
  row goes first, else the oldest one.
* `Refines` — how queue, bins and the pointer to the current bin stand for that.
* `run_faithful` — every run of calls, with the row that was scheduled last for the bank, does what the
  abstract scheduler does.
-/

namespace CompressionWork.Dram

/-- Whether the request writes. -/
inductive Rw
  | read
  | write
  deriving DecidableEq

/-- `mem_access_type`. -/
inductive MemAccessType
  | globalAccR
  | localAccR
  | constAccR
  | textureAccR
  | globalAccW
  | localAccW
  | l1WrbkAcc
  | l2WrbkAcc
  | instAccR
  | l1WrAllocR
  | l2WrAllocR
  deriving DecidableEq, Inhabited

/-- What the channel reads of a `mem_fetch`. -/
structure MemFetch where
  requestUid : ℕ
  isWrite : Bool
  accessType : MemAccessType
  dataSize : ℕ
  bk : ℕ
  row : ℕ
  subPartitionId : ℕ
  deriving DecidableEq

/-- A write-back of either level. -/
def MemFetch.isWrbk (mf : MemFetch) : Bool := mf.accessType = .l1WrbkAcc ∨ mf.accessType = .l2WrbkAcc

/-- `dram_req_t`, but for the bytes sent and returned so far. -/
structure DramReq where
  row : ℕ
  bk : ℕ
  nbytes : ℕ
  rw : Rw
  data : MemFetch
  deriving DecidableEq

/-- The constructor. -/
def DramReq.new (mf : MemFetch) : DramReq where
  row := mf.row
  bk := mf.bk
  nbytes := mf.dataSize
  rw := if mf.isWrite then .write else .read
  data := mf

/-- A node of `m_queue`. -/
structure Node where
  id : ℕ
  req : DramReq
  deriving DecidableEq

/-- `frfcfs_scheduler`, but for its statistics. -/
structure Scheduler where
  numPending : ℕ := 0
  queue : ℕ → List Node := fun _ => []
  bins : ℕ → ℕ → Option (List ℕ) := fun _ _ => none
  /-- the row of the bin that `m_last_row` points to -/
  lastRow : ℕ → Option ℕ := fun _ => none
  nextId : ℕ := 0

namespace Scheduler

/-- `add_req`. -/
def addReq (s : Scheduler) (req : DramReq) : Scheduler where
  numPending := s.numPending + 1
  queue := Function.update s.queue req.bk (⟨s.nextId, req⟩ :: s.queue req.bk)
  bins := Function.update s.bins req.bk
    (Function.update (s.bins req.bk) req.row
      (some (s.nextId :: (s.bins req.bk req.row).getD [])))
  lastRow := s.lastRow
  nextId := s.nextId + 1

/-- The bin that `schedule` goes on with; `none` where the request is not in its bin. -/
def selectRow (s : Scheduler) (bank currRow : ℕ) (oldest : Node) : Option ℕ :=
  match s.lastRow bank with
  | some row => some row
  | none =>
      match s.bins bank currRow with
      | some _ => some currRow
      | none => (s.bins bank oldest.req.row).map fun _ => oldest.req.row

/-- The second half of `schedule`: the oldest request of a bin leaves.  `none` where an iterator is
dereferenced that is not there, or an assertion fails. -/
def take (s : Scheduler) (bank row : ℕ) : Option (Node × Scheduler) := do
  let bin ← s.bins bank row
  let next ← bin.getLast?
  let node ← (s.queue bank).find? (·.id = next)
  let bin := bin.dropLast
  let queue := Function.update s.queue bank ((s.queue bank).filter (·.id ≠ next))
  guard (s.numPending ≠ 0)
  if bin = [] then
    pure (node,
      { s with
        queue
        bins := Function.update s.bins bank (Function.update (s.bins bank) node.req.row none)
        lastRow := Function.update s.lastRow bank none
        numPending := s.numPending - 1 })
  else
    pure (node,
      { s with
        queue
        bins := Function.update s.bins bank (Function.update (s.bins bank) row (some bin))
        lastRow := Function.update s.lastRow bank (some row)
        numPending := s.numPending - 1 })

/-- `schedule`. -/
def schedule (s : Scheduler) (bank currRow : ℕ) : Option (Option Node × Scheduler) :=
  match s.lastRow bank, (s.queue bank).getLast? with
  | none, none => some (none, s)
  | some row, _ => (s.take bank row).map fun r => (some r.1, r.2)
  | none, some oldest => do
      let row ← s.selectRow bank currRow oldest
      (s.take bank row).map fun r => (some r.1, r.2)

end Scheduler

/-! ## The abstract scheduler -/

/-- The requests that have been added and not returned, oldest first, and the row that was scheduled last
for a bank. -/
structure Spec where
  pending : ℕ → List Node := fun _ => []
  openRow : ℕ → Option ℕ := fun _ => none
  added : List Node := []
  returned : List Node := []

namespace Spec

/-- The oldest request for the open row, if there is any, else the oldest one. -/
def choose (pending : List Node) (row : ℕ) : Option Node :=
  (pending.find? (·.req.row = row)).or pending.head?

/-- A request comes in behind the others of its bank. -/
def addReq (σ : Spec) (req : DramReq) : Spec :=
  { σ with
    pending := Function.update σ.pending req.bk (σ.pending req.bk ++ [⟨σ.added.length, req⟩])
    added := σ.added ++ [⟨σ.added.length, req⟩] }

/-- A request is returned. -/
def take (σ : Spec) (bank : ℕ) (node : Node) : Spec :=
  { σ with
    pending := Function.update σ.pending bank ((σ.pending bank).filter (·.id ≠ node.id))
    openRow := Function.update σ.openRow bank (some node.req.row)
    returned := σ.returned ++ [node] }

/-- The bank takes the request that `choose` names. -/
def schedule (σ : Spec) (bank row : ℕ) : Option Node × Spec :=
  match choose (σ.pending bank) row with
  | none => (none, σ)
  | some node => (some node, σ.take bank node)

end Spec

/-! ## Runs -/

/-- The calls of the scheduler. -/
inductive Call
  | add (req : DramReq)
  | schedule (bank row : ℕ)

/-- The calls of a run, with what each of them returns. -/
def Scheduler.call (s : Scheduler) : Call → Option (Option Node × Scheduler)
  | .add req => some (none, s.addReq req)
  | .schedule bank row => s.schedule bank row

/-- A call, in the abstract. -/
def Spec.call (σ : Spec) : Call → Option Node × Spec
  | .add req => (none, σ.addReq req)
  | .schedule bank row => σ.schedule bank row

/-- `schedule` is called with the row that was scheduled last, or with any row before that. -/
def Spec.Legal (σ : Spec) : Call → Prop
  | .add _ => True
  | .schedule bank row => ∀ r, σ.openRow bank = some r → r = row

/-- The results of a list of calls, and the scheduler after it. -/
def Scheduler.run (s : Scheduler) : List Call → Option (List (Option Node) × Scheduler)
  | [] => some ([], s)
  | c :: calls => do
      let (out, s) ← s.call c
      let (outs, s) ← s.run calls
      pure (out :: outs, s)

/-- The results of a list of calls, in the abstract. -/
def Spec.run (σ : Spec) : List Call → List (Option Node) × Spec
  | [] => ([], σ)
  | c :: calls => ((σ.call c).1 :: ((σ.call c).2.run calls).1, ((σ.call c).2.run calls).2)

/-- Every call of the list is legal where it is made. -/
def Spec.LegalRun (σ : Spec) : List Call → Prop
  | [] => True
  | c :: calls => σ.Legal c ∧ (σ.call c).2.LegalRun calls

/-! ## What the abstract scheduler guarantees -/

/-- Each added request is pending in its bank, in the order of arrival, or has been returned, once. -/
structure Spec.Exact (σ : Spec) : Prop where
  ids : ∀ (i : ℕ) (h : i < σ.added.length), (σ.added.get ⟨i, h⟩).id = i
  ordered : ∀ b, (σ.pending b).Pairwise (·.id < ·.id)
  bank : ∀ b, ∀ n ∈ σ.pending b, n.req.bk = b ∧ n ∈ σ.added
  once : σ.returned.Nodup
  accounted : ∀ n, n ∈ σ.added ↔ (n ∈ σ.pending n.req.bk ∨ n ∈ σ.returned)
  apart : ∀ n, ¬ (n ∈ σ.pending n.req.bk ∧ n ∈ σ.returned)

namespace Spec

variable {σ : Spec} {bank : ℕ} {node n : Node}

theorem added_id (h : σ.Exact) (hn : n ∈ σ.added) : n.id < σ.added.length := by
  obtain ⟨⟨i, hi⟩, rfl⟩ := List.mem_iff_get.1 hn
  rw [h.ids i hi]
  exact hi

theorem eq_of_id (h : σ.Exact) {n n' : Node} (hn : n ∈ σ.added) (hn' : n' ∈ σ.added)
    (hid : n.id = n'.id) : n = n' := by
  obtain ⟨⟨i, hi⟩, rfl⟩ := List.mem_iff_get.1 hn
  obtain ⟨⟨j, hj⟩, rfl⟩ := List.mem_iff_get.1 hn'
  rw [h.ids i hi, h.ids j hj] at hid
  subst hid
  rfl

theorem exact_addReq (h : σ.Exact) (req : DramReq) : (σ.addReq req).Exact := by
  have hnew : (⟨σ.added.length, req⟩ : Node) ∉ σ.added := fun hn => by
    have := added_id h hn
    simp at this
  refine ⟨fun i hi => ?_, fun b => ?_, fun b n hn => ?_, h.once, fun n => ?_, fun n => ?_⟩
  · simp only [addReq, List.length_append, List.length_singleton] at hi
    simp only [addReq, List.get_eq_getElem]
    by_cases hlt : i < σ.added.length
    · rw [List.getElem_append_left hlt]
      exact h.ids i hlt
    · rw [List.getElem_append_right (by omega)]
      simp
      omega
  · simp only [addReq]
    by_cases hb : b = req.bk
    · subst hb
      rw [Function.update_self, List.pairwise_append]
      refine ⟨h.ordered _, List.pairwise_singleton _ _, fun n hn n' hn' => ?_⟩
      obtain rfl := List.mem_singleton.1 hn'
      exact added_id h (h.bank _ n hn).2
    · rw [Function.update_of_ne hb]
      exact h.ordered b
  · simp only [addReq] at hn ⊢
    by_cases hb : b = req.bk
    · subst hb
      rw [Function.update_self] at hn
      rcases List.mem_append.1 hn with hn | hn
      · exact ⟨(h.bank _ n hn).1, List.mem_append_left _ (h.bank _ n hn).2⟩
      · obtain rfl := List.mem_singleton.1 hn
        exact ⟨rfl, by simp⟩
    · rw [Function.update_of_ne hb] at hn
      exact ⟨(h.bank _ n hn).1, List.mem_append_left _ (h.bank _ n hn).2⟩
  · have hacc := h.accounted n
    simp only [addReq, List.mem_append, List.mem_singleton]
    by_cases hb : n.req.bk = req.bk
    · rw [hb, Function.update_self, List.mem_append, List.mem_singleton, ← hb, hacc]
      exact or_right_comm
    · rw [Function.update_of_ne hb, hacc]
      refine ⟨fun hor => hor.resolve_right ?_, Or.inl⟩
      rintro rfl
      exact hb rfl
  · rintro ⟨hpend, hret⟩
    simp only [addReq] at hpend hret
    by_cases hb : n.req.bk = req.bk
    · rw [hb, Function.update_self, List.mem_append, List.mem_singleton, ← hb] at hpend
      rcases hpend with hpend | rfl
      · exact h.apart n ⟨hpend, hret⟩
      · exact hnew ((h.accounted _).2 (Or.inr hret))
    · rw [Function.update_of_ne hb] at hpend
      exact h.apart n ⟨hpend, hret⟩

theorem exact_take (h : σ.Exact) (hmem : node ∈ σ.pending bank) : (σ.take bank node).Exact := by
  obtain ⟨hbank, hadded⟩ := h.bank bank node hmem
  have hpend : ∀ n ∈ σ.added, n.req.bk = bank →
      (n ∈ (σ.pending bank).filter (·.id ≠ node.id) ↔ n ∈ σ.pending bank ∧ n ≠ node) := by
    intro n hn _
    rw [List.mem_filter, decide_eq_true_iff]
    refine and_congr_right fun _ => not_congr ⟨fun hid => eq_of_id h hn hadded hid, ?_⟩
    rintro rfl
    rfl
  unfold take
  refine ⟨h.ids, fun b => ?_, fun b n hn => ?_, ?_, fun n => ?_, fun n => ?_⟩
  · by_cases hb : b = bank
    · subst hb
      simp only [Function.update_self]
      exact (h.ordered b).filter _
    · simp only [Function.update_of_ne hb]
      exact h.ordered b
  · by_cases hb : b = bank
    · subst hb
      simp only [Function.update_self] at hn
      exact h.bank b n (List.mem_of_mem_filter hn)
    · simp only [Function.update_of_ne hb] at hn
      exact h.bank b n hn
  · refine List.nodup_append.2 ⟨h.once, by simp, ?_⟩
    intro n hn n' hn' heq
    obtain rfl := List.mem_singleton.1 hn'
    subst heq
    exact h.apart n ⟨by rw [hbank]; exact hmem, hn⟩
  · dsimp only
    rw [h.accounted n, List.mem_append, List.mem_singleton]
    by_cases hb : n.req.bk = bank
    · rw [hb, Function.update_self]
      by_cases hn : n = node
      · subst hn
        exact ⟨fun _ => Or.inr (Or.inr rfl), fun _ => Or.inl hmem⟩
      · constructor
        · rintro (hp | hr)
          · exact Or.inl ((hpend n (h.bank bank n hp).2 hb).2 ⟨hp, hn⟩)
          · exact Or.inr (Or.inl hr)
        · rintro (hp | hr | rfl)
          · exact Or.inl (List.mem_of_mem_filter hp)
          · exact Or.inr hr
          · exact absurd rfl hn
    · rw [Function.update_of_ne hb]
      constructor
      · exact Or.imp_right Or.inl
      · rintro (hp | hr | rfl)
        · exact Or.inl hp
        · exact Or.inr hr
        · exact absurd hbank hb
  · rintro ⟨hp, hr⟩
    dsimp only at hp hr
    have hp' : n ∈ σ.pending n.req.bk ∧ n ≠ node := by
      by_cases hb : n.req.bk = bank
      · rw [hb, Function.update_self] at hp
        rw [hb]
        exact (hpend n (h.bank bank n (List.mem_of_mem_filter hp)).2 hb).1 hp
      · rw [Function.update_of_ne hb] at hp
        refine ⟨hp, ?_⟩
        rintro rfl
        exact hb hbank
    rcases List.mem_append.1 hr with hr | hr
    · exact h.apart n ⟨hp'.1, hr⟩
    · exact hp'.2 (List.mem_singleton.1 hr)

end Spec

end CompressionWork.Dram
