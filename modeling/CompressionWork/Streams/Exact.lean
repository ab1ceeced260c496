/-
# Streams lose no operation

`Inv` holds between the calls. The only way for an operation to get lost is `do_operation` of a kernel
without a free slot: the stream stays busy, and no kernel will end that makes it free.
-/
import CompressionWork.Streams.Manager
import Mathlib.Data.List.Nodup
import Mathlib.Data.List.Range
import Mathlib.Tactic.Common

namespace CompressionWork
namespace Streams

variable {count limit i j : ℕ} {m m' : Manager} {op : Op} {rest : List Op} {serve : Bool}

/-! ## The invariant -/

/-- A stream is busy when its front kernel runs or is about to be registered, and these kernels are fronts
of busy streams. While stream zero is served the others are not busy. -/
structure Inv (count : ℕ) (m : Manager) : Prop where
  pushed : ∀ i, (m.stream i).pushed = (m.stream i).finished ++ (m.stream i).ops
  performed : ∀ i, (m.stream i).performed = (m.stream i).finished ++ (m.stream i).started
  busy : ∀ i, (m.stream i).pending = true → ∃ op rest, (m.stream i).ops = op :: rest ∧
    op.uid ∈ m.running ++ m.finishedKernel ∧ m.gridIdToStream op.uid = some i
  owned : ∀ u ∈ m.running ++ m.finishedKernel, ∃ i op rest, (m.stream i).pending = true ∧
    (m.stream i).ops = op :: rest ∧ op.uid = u
  nodup : (m.running ++ m.finishedKernel).Nodup
  zero : (m.stream 0).pending = true → m.serviceStreamZero = true
  others : m.serviceStreamZero = true → ∀ i, 0 < i → i ≤ count → (m.stream i).pending = false
  fresh : ∀ i, ∀ op ∈ (m.stream i).ops, op.uid < m.nextUid
  apart : ∀ i j, ∀ op ∈ (m.stream i).ops, ∀ op' ∈ (m.stream j).ops, op.uid = op'.uid → i = j

theorem stream_setStream_self (m : Manager) (i : ℕ) (x : Stream) : (m.setStream i x).stream i = x :=
  if_pos rfl

theorem stream_setStream_of_ne (m : Manager) (x : Stream) (h : j ≠ i) :
    (m.setStream i x).stream j = m.stream j := if_neg h

/-- What holds of every stream holds after one was set, when it holds of the new one. -/
theorem forall_setStream {P : Stream → Prop} {x : Stream} (hx : P x) (h : ∀ j, P (m.stream j)) (j : ℕ) :
    P ((m.setStream i x).stream j) := by
  by_cases hj : j = i
  · subst hj
    rwa [stream_setStream_self]
  · rw [stream_setStream_of_ne m x hj]
    exact h j

namespace Inv

theorem init : Inv count Manager.init :=
  ⟨fun _ => rfl, fun _ => rfl, nofun, nofun, List.nodup_nil, nofun, fun _ _ _ _ => rfl, nofun, nofun⟩

theorem exact (h : Inv count m) : m.Exact count := by
  refine ⟨fun i _ => h.pushed i, fun i _ => h.performed i, fun i _ hpend => ?_, fun hzero => ?_⟩
  · obtain ⟨op, rest, hops, hmem, -⟩ := h.busy i hpend
    refine ⟨op, ?_, List.mem_append.1 hmem⟩
    simp [Stream.started, hpend, hops]
  · exact h.others (h.zero hzero)

/-- The streams of an operation that is pushed. -/
theorem push (h : Inv count m) (i : ℕ) (kind : Kind) : Inv count (m.push i kind) := by
  have hother : ∀ j, j ≠ i → (m.push i kind).stream j = m.stream j := fun j hj => if_neg hj
  have hself : (m.push i kind).stream i = { m.stream i with
      ops := (m.stream i).ops ++ [⟨m.nextUid, kind⟩]
      pushed := (m.stream i).pushed ++ [⟨m.nextUid, kind⟩] } := if_pos rfl
  have hops : ∀ j, ∀ op ∈ ((m.push i kind).stream j).ops,
      op ∈ (m.stream j).ops ∨ (j = i ∧ op.uid = m.nextUid) := by
    intro j op hop
    by_cases hj : j = i
    · subst hj
      rw [hself] at hop
      rcases List.mem_append.1 hop with hop | hop
      · exact Or.inl hop
      · exact Or.inr ⟨rfl, by rw [List.mem_singleton.1 hop]⟩
    · rw [hother j hj] at hop
      exact Or.inl hop
  have hpend : ∀ j, ((m.push i kind).stream j).pending = (m.stream j).pending := by
    intro j
    by_cases hj : j = i
    · subst hj
      rw [hself]
    · rw [hother j hj]
  have hfront : ∀ j op rest, (m.stream j).ops = op :: rest →
      ∃ rest', ((m.push i kind).stream j).ops = op :: rest' := by
    intro j op rest hrest
    by_cases hj : j = i
    · subst hj
      rw [hself]
      exact ⟨_, by rw [hrest]; rfl⟩
    · rw [hother j hj]
      exact ⟨rest, hrest⟩
  refine ⟨fun j => ?_, fun j => ?_, fun j hj => ?_, fun u hu => ?_, h.nodup, fun hz => ?_,
    fun hs j hpos hle => ?_, fun j op hop => ?_, fun j k op hop op' hop' heq => ?_⟩
  · refine forall_setStream (P := fun x => x.pushed = x.finished ++ x.ops) ?_ h.pushed j
    simp only [h.pushed, List.append_assoc]
  · refine forall_setStream (P := fun x => x.performed = x.finished ++ x.started) ?_ h.performed j
    simp only [h.performed, Stream.started]
    cases hp : (m.stream i).pending with
    | false => rfl
    | true =>
      obtain ⟨op, rest, hrest, -⟩ := h.busy i hp
      simp [hrest]
  · rw [hpend] at hj
    obtain ⟨op, rest, hrest, hmem, hgrid⟩ := h.busy j hj
    obtain ⟨rest', hrest'⟩ := hfront j op rest hrest
    exact ⟨op, rest', hrest', hmem, hgrid⟩
  · obtain ⟨j, op, rest, hj, hrest, huid⟩ := h.owned u hu
    obtain ⟨rest', hrest'⟩ := hfront j op rest hrest
    exact ⟨j, op, rest', by rwa [hpend], hrest', huid⟩
  · rw [hpend] at hz
    exact h.zero hz
  · rw [hpend]
    exact h.others hs j hpos hle
  · rcases hops j op hop with hop | ⟨-, huid⟩
    · exact Nat.lt_succ_of_lt (h.fresh j op hop)
    · exact huid ▸ Nat.lt_succ_self _
  · rcases hops j op hop with hold | ⟨hj, huid⟩
    · rcases hops k op' hop' with hold' | ⟨hk, huid'⟩
      · exact h.apart j k op hold op' hold' heq
      · have := h.fresh j op hold
        omega
    · rcases hops k op' hop' with hold' | ⟨hk, huid'⟩
      · have := h.fresh k op' hold'
        omega
      · rw [hj, hk]

theorem kernelDone (h : Inv count m) {uid : ℕ} (hrun : uid ∈ m.running) :
    Inv count { m with
      running := m.running.erase uid, finishedKernel := m.finishedKernel ++ [uid] } := by
  have hperm : (m.running.erase uid ++ (m.finishedKernel ++ [uid])).Perm
      (m.running ++ m.finishedKernel) := by
    rw [← List.append_assoc]
    refine (List.perm_append_comm).trans ?_
    exact (((List.perm_cons_erase hrun).symm).append_right m.finishedKernel)
  refine ⟨h.pushed, h.performed, fun i hi => ?_, fun u hu => h.owned u (hperm.mem_iff.1 hu),
    hperm.nodup_iff.2 h.nodup, h.zero, h.others, h.fresh, h.apart⟩
  obtain ⟨op, rest, hops, hmem, hgrid⟩ := h.busy i hi
  exact ⟨op, rest, hops, hperm.mem_iff.2 hmem, hgrid⟩

/-- A change of the mode that no busy stream speaks against. -/
theorem setService (h : Inv count m) (hzero : serve = false → (m.stream 0).pending = false)
    (hothers : serve = true → ∀ i, 0 < i → i ≤ count → (m.stream i).pending = false) :
    Inv count { m with serviceStreamZero := serve } :=
  ⟨h.pushed, h.performed, h.busy, h.owned, h.nodup, fun hz => by
    cases serve with
    | true => rfl
    | false => exact absurd (hz.symm.trans (hzero rfl)) nofun, hothers, h.fresh, h.apart⟩

theorem not_pending (h : Inv count m) (hops : (m.stream i).ops = []) :
    (m.stream i).pending = false := by
  apply Bool.eq_false_iff.2
  intro hpend
  obtain ⟨op, rest, hrest, -⟩ := h.busy i hpend
  rw [hops] at hrest
  cases hrest

end Inv

/-! ## Selected operations -/

/-- The stream may start its front operation. -/
structure Ready (count : ℕ) (m : Manager) (i : ℕ) (op : Op) (rest : List Op) : Prop where
  idle : (m.stream i).pending = false
  front : (m.stream i).ops = op :: rest
  mode : (i = 0 ∧ m.serviceStreamZero = true) ∨ (0 < i ∧ i ≤ count ∧ m.serviceStreamZero = false)

namespace Inv

/-- No kernel in progress has the uid of an operation that may start. -/
theorem uid_ne (h : Inv count m) (hready : Ready count m i op rest) {u : ℕ}
    (hu : u ∈ m.running ++ m.finishedKernel) : u ≠ op.uid := by
  rintro rfl
  obtain ⟨j, op', rest', hj, hops', huid⟩ := h.owned _ hu
  have hij : j = i := h.apart j i op' (by rw [hops']; exact List.mem_cons_self) op
    (by rw [hready.front]; exact List.mem_cons_self) huid
  subst hij
  exact absurd (hj.symm.trans hready.idle) nofun

/-- The front operation of stream `i` leaves the stream; `grid` forgets at most its uid. -/
theorem leave (h : Inv count m) {x : Stream} {run fin : List ℕ} {grid : ℕ → Option ℕ}
    (hfront : (m.stream i).ops = op :: rest)
    (hx : x = ⟨rest, false, (m.stream i).pushed, (m.stream i).finished ++ [op],
      (m.stream i).finished ++ [op]⟩)
    (hmem : ∀ u, u ∈ run ++ fin ↔ u ∈ m.running ++ m.finishedKernel ∧ u ≠ op.uid)
    (hnodup : (run ++ fin).Nodup) (hgrid : ∀ u, u ≠ op.uid → grid u = m.gridIdToStream u) :
    Inv count { m.setStream i x with running := run, finishedKernel := fin, gridIdToStream := grid } := by
  have hother : ∀ j, j ≠ i → (m.setStream i x).stream j = m.stream j := fun j hj =>
    stream_setStream_of_ne m x hj
  have hself : (m.setStream i x).stream i = x := stream_setStream_self m i x
  have hsub : ∀ j, ∀ op ∈ ((m.setStream i x).stream j).ops, op ∈ (m.stream j).ops := by
    intro j op' hop'
    by_cases hj : j = i
    · subst hj
      rw [hself, hx] at hop'
      rw [hfront]
      exact List.mem_cons_of_mem _ hop'
    · rwa [hother j hj] at hop'
  have hpend : ∀ j, ((m.setStream i x).stream j).pending = true → j ≠ i ∧ (m.stream j).pending = true := by
    intro j hj
    by_cases hji : j = i
    · subst hji
      rw [hself, hx] at hj
      cases hj
    · rw [hother j hji] at hj
      exact ⟨hji, hj⟩
  refine ⟨fun j => ?_, fun j => ?_, fun j hj => ?_, fun u hu => ?_, hnodup,
    fun hz => h.zero (hpend 0 hz).2, fun hs j hpos hle => ?_,
    fun j op' hop' => h.fresh j op' (hsub j op' hop'),
    fun j k op' hop' op'' hop'' => h.apart j k op' (hsub j op' hop') op'' (hsub k op'' hop'')⟩
  · refine forall_setStream (P := fun x => x.pushed = x.finished ++ x.ops) ?_ h.pushed j
    simp only [hx, h.pushed, hfront, List.append_assoc, List.singleton_append]
  · refine forall_setStream (P := fun x => x.performed = x.finished ++ x.started) ?_ h.performed j
    simp [hx, Stream.started]
  · obtain ⟨hji, hj'⟩ := hpend j hj
    obtain ⟨op', rest', hops', hmem', hgrid'⟩ := h.busy j hj'
    have hne : op'.uid ≠ op.uid := fun heq => hji
      (h.apart j i op' (by rw [hops']; exact List.mem_cons_self) op
        (by rw [hfront]; exact List.mem_cons_self) heq)
    refine ⟨op', rest', ?_, (hmem _).2 ⟨hmem', hne⟩, (hgrid _ hne).trans hgrid'⟩
    show ((m.setStream i x).stream j).ops = _
    rwa [hother j hji]
  · obtain ⟨hu, hne⟩ := (hmem u).1 hu
    obtain ⟨j, op', rest', hj, hops', huid⟩ := h.owned u hu
    have hji : j ≠ i := by
      rintro rfl
      rw [hfront] at hops'
      cases hops'
      exact hne huid.symm
    exact ⟨j, op', rest', by show ((m.setStream i x).stream j).pending = _; rwa [hother j hji],
      by show ((m.setStream i x).stream j).ops = _; rwa [hother j hji], huid⟩
  · cases hp : ((m.setStream i x).stream j).pending with
    | false => rfl
    | true => exact absurd ((h.others hs j hpos hle).symm.trans (hpend j hp).2) (by simp)

/-- The front operation of stream `i` is a kernel that starts to run. -/
theorem launch (h : Inv count m) (hready : Ready count m i op rest) {x : Stream} {grid : ℕ → Option ℕ}
    (hx : x = { m.stream i with pending := true, performed := (m.stream i).performed ++ [op] })
    (hgrid : grid = fun u => if u = op.uid then some i else m.gridIdToStream u) :
    Inv count { m.setStream i x with running := m.running ++ [op.uid], gridIdToStream := grid } := by
  have hother : ∀ j, j ≠ i → (m.setStream i x).stream j = m.stream j := fun j hj =>
    stream_setStream_of_ne m x hj
  have hself : (m.setStream i x).stream i = x := stream_setStream_self m i x
  have hops : ∀ j, ((m.setStream i x).stream j).ops = (m.stream j).ops := by
    intro j
    by_cases hj : j = i
    · subst hj
      rw [hself, hx]
    · rw [hother j hj]
  have hperm : (m.running ++ [op.uid] ++ m.finishedKernel).Perm
      (op.uid :: (m.running ++ m.finishedKernel)) := by
    rw [List.append_assoc]
    exact List.perm_middle
  have hnew : op.uid ∉ m.running ++ m.finishedKernel := fun hu => h.uid_ne hready hu rfl
  refine ⟨fun j => ?_, fun j => ?_, fun j hj => ?_, fun u hu => ?_, ?_, fun hz => ?_,
    fun hs j hpos hle => ?_, fun j op' hop' => h.fresh j op' (hops j ▸ hop'),
    fun j k op' hop' op'' hop'' => h.apart j k op' (hops j ▸ hop') op'' (hops k ▸ hop'')⟩
  · refine forall_setStream (P := fun x => x.pushed = x.finished ++ x.ops) ?_ h.pushed j
    rw [hx]
    exact h.pushed i
  · refine forall_setStream (P := fun x => x.performed = x.finished ++ x.started) ?_ h.performed j
    simp [hx, h.performed, Stream.started, hready.idle, hready.front]
  · by_cases hji : j = i
    · subst hji
      exact ⟨op, rest, (hops j).trans hready.front, hperm.mem_iff.2 List.mem_cons_self,
        by rw [hgrid]; exact if_pos rfl⟩
    · change ((m.setStream i x).stream j).pending = true at hj
      rw [hother j hji] at hj
      obtain ⟨op', rest', hops', hmem', hgrid'⟩ := h.busy j hj
      refine ⟨op', rest', (hops j).trans hops', hperm.mem_iff.2 (List.mem_cons_of_mem _ hmem'), ?_⟩
      show grid op'.uid = some j
      rw [hgrid, ← hgrid']
      exact if_neg (h.uid_ne hready hmem')
  · rcases List.mem_cons.1 (hperm.mem_iff.1 hu) with rfl | hu
    · refine ⟨i, op, rest, ?_, (hops i).trans hready.front, rfl⟩
      show ((m.setStream i x).stream i).pending = true
      rw [hself, hx]
    · obtain ⟨j, op', rest', hj, hops', huid⟩ := h.owned u hu
      refine ⟨j, op', rest', ?_, (hops j).trans hops', huid⟩
      show ((m.setStream i x).stream j).pending = true
      by_cases hji : j = i
      · subst hji
        rw [hself, hx]
      · rwa [hother j hji]
  · exact hperm.nodup_iff.2 (List.nodup_cons.2 ⟨hnew, h.nodup⟩)
  · rcases hready.mode with ⟨-, hs⟩ | ⟨hpos, -, -⟩
    · exact hs
    · change ((m.setStream i x).stream 0).pending = true at hz
      rw [hother 0 (Nat.ne_of_lt hpos)] at hz
      exact h.zero hz
  · rcases hready.mode with ⟨rfl, -⟩ | ⟨-, -, hs'⟩
    · show ((m.setStream 0 x).stream j).pending = false
      rw [hother j (Nat.ne_of_gt hpos)]
      exact h.others hs j hpos hle
    · exact absurd (hs.symm.trans hs') nofun

end Inv

/-! ## Steps -/

theorem setStream_setStream (m : Manager) (i : ℕ) (x y : Stream) :
    (m.setStream i x).setStream i y = m.setStream i y := by
  simp only [Manager.setStream]
  congr 1
  funext j
  split <;> rfl

theorem setStream_self (m : Manager) (i : ℕ) : m.setStream i (m.stream i) = m := by
  have hstream : (fun j => if j = i then m.stream i else m.stream j) = m.stream := by
    funext j
    split
    case isTrue hj => rw [hj]
    case isFalse => rfl
  show { m with stream := _ } = m
  rw [hstream]

/-- `record_next_done` of the front operation. -/
theorem recordNextDone_eq (hpend : (m.stream i).pending = true) (hops : (m.stream i).ops = op :: rest) :
    m.recordNextDone i = some (m.setStream i
      { m.stream i with
        ops := rest, pending := false, finished := (m.stream i).finished ++ [op] }) := by
  simp [Manager.recordNextDone, hpend, hops]

theorem registerFinishedKernel_eq (hgrid : m.gridIdToStream op.uid = some i)
    (hpend : (m.stream i).pending = true) (hops : (m.stream i).ops = op :: rest) :
    m.registerFinishedKernel op.uid = some
      { m.setStream i { m.stream i with
          ops := rest, pending := false, finished := (m.stream i).finished ++ [op] } with
        gridIdToStream := fun u => if u = op.uid then none else m.gridIdToStream u } := by
  simp only [Manager.registerFinishedKernel, hgrid, hops, recordNextDone_eq hpend hops]
  rw [if_pos trivial]
  rfl

namespace Inv

theorem checkFinishedKernel (h : Inv count m) :
    ∃ m', m.checkFinishedKernel = some m' ∧ Inv count m' := by
  unfold Manager.checkFinishedKernel
  cases hfin : m.finishedKernel with
  | nil => exact ⟨m, rfl, h⟩
  | cons uid fin =>
    obtain ⟨i, op, rest, hpend, hops, rfl⟩ := h.owned uid (by simp [hfin])
    obtain ⟨op', rest', hops', -, hgrid⟩ := h.busy i hpend
    obtain ⟨rfl, rfl⟩ := List.cons.inj (hops.symm.trans hops')
    have hperf : (m.stream i).performed = (m.stream i).finished ++ [op] := by
      rw [h.performed i, Stream.started, if_pos hpend, hops]
      rfl
    have hnodup := h.nodup
    rw [hfin] at hnodup
    have hperm : (m.running ++ op.uid :: fin).Perm (op.uid :: (m.running ++ fin)) := List.perm_middle
    obtain ⟨hnot, hnodup'⟩ := List.nodup_cons.1 (hperm.nodup_iff.1 hnodup)
    refine ⟨_, registerFinishedKernel_eq hgrid hpend hops, ?_⟩
    refine h.leave hops (by rw [← hperf]) (fun u => ?_) hnodup' fun u hu => if_neg hu
    rw [hfin, hperm.mem_iff, List.mem_cons]
    constructor
    · intro hu
      exact ⟨Or.inr hu, fun heq => hnot (heq ▸ hu)⟩
    · rintro ⟨hu | hu, hne⟩
      · exact absurd hu hne
      · exact hu

/-- `front` selects nothing, or an operation that may start. -/
theorem front (h : Inv count m) : ∃ serve, Inv count { m with serviceStreamZero := serve } ∧
    (m.front count = ({ m with serviceStreamZero := serve }, none) ∨
      ∃ i op rest, Ready count { m with serviceStreamZero := serve } i op rest ∧
        m.front count = (({ m with serviceStreamZero := serve } : Manager).take i op, some (i, op))) := by
  obtain ⟨s, hs, h'⟩ : ∃ s, (if m.concurrentStreamsEmpty count then
      { m with serviceStreamZero := true } else m) = { m with serviceStreamZero := s } ∧
      Inv count { m with serviceStreamZero := s } := by
    cases hempty : m.concurrentStreamsEmpty count with
    | false => exact ⟨m.serviceStreamZero, rfl, h⟩
    | true =>
      refine ⟨true, rfl, h.setService nofun fun _ i hpos hle => h.not_pending ?_⟩
      rw [Manager.concurrentStreamsEmpty, List.all_eq_true] at hempty
      exact List.isEmpty_iff.1 (hempty i (List.mem_range'_1.2 ⟨hpos, by omega⟩))
  simp only [Manager.front, hs]
  cases s with
  | true =>
    rw [if_pos rfl]
    cases hops : (m.stream 0).ops with
    | nil =>
      refine ⟨false, ?_, Or.inl rfl⟩
      exact h.setService (fun _ => h.not_pending hops) nofun
    | cons op rest =>
      refine ⟨true, h', ?_⟩
      cases hpend : (m.stream 0).pending with
      | true => exact Or.inl rfl
      | false => exact Or.inr ⟨0, op, rest, ⟨hpend, hops, Or.inl ⟨rfl, rfl⟩⟩, rfl⟩
  | false =>
    refine ⟨false, h', ?_⟩
    rw [if_neg (by simp)]
    cases hready : ({ m with serviceStreamZero := false } : Manager).ready? count with
    | none => exact Or.inl rfl
    | some i =>
      have hfound := List.find?_some hready
      have hmem := List.mem_range'_1.1 (List.mem_of_find?_eq_some hready)
      simp only [Bool.and_eq_true, Bool.not_eq_true'] at hfound
      cases hops : (m.stream i).ops with
      | nil => exact absurd hfound.2 (by simp [hops])
      | cons op rest =>
        exact Or.inr ⟨i, op, rest, ⟨hfound.1, hops, Or.inr ⟨by omega, by omega, rfl⟩⟩,
          by simp only [hops]⟩

/-- The selected operation starts; a kernel needs a slot. -/
theorem doOperation (h : Inv count m) (hready : Ready count m i op rest)
    (hslot : op.isKernel = true → m.running.length < limit) :
    ∃ m', (m.take i op).doOperation limit i op = some m' ∧ Inv count m' ∧
      (m'.stream i).performed = (m.stream i).performed ++ [op] := by
  have hperf : (m.stream i).performed = (m.stream i).finished := by
    rw [h.performed i, Stream.started, if_neg (by simp [hready.idle]), List.append_nil]
  have hself : ((m.take i op).perform i op).stream i =
      { m.stream i with pending := true, performed := (m.stream i).performed ++ [op] } := by
    simp [Manager.take, Manager.perform, Manager.setStream]
  have hset : ∀ x, ((m.take i op).perform i op).setStream i x = (m.take i op).setStream i x := fun x =>
    setStream_setStream (m.take i op) i _ x
  have htake : ∀ x, (m.take i op).setStream i x =
      { m.setStream i x with gridIdToStream := (m.take i op).gridIdToStream } := by
    intro x
    simp only [Manager.take, Manager.setStream]
    congr 1
    funext j
    split <;> rfl
  have hmem : ∀ u, u ∈ m.running ++ m.finishedKernel ↔
      u ∈ m.running ++ m.finishedKernel ∧ u ≠ op.uid := fun u =>
    ⟨fun hu => ⟨hu, h.uid_ne hready hu⟩, And.left⟩
  have hpend : (((m.take i op).perform i op).stream i).pending = true := by rw [hself]
  have hops : (((m.take i op).perform i op).stream i).ops = op :: rest := by
    rw [hself]
    exact hready.front
  have hdone : op.isKernel = false →
      ∃ m', ((m.take i op).perform i op).recordNextDone i = some m' ∧ Inv count m' ∧
        (m'.stream i).performed = (m.stream i).performed ++ [op] := by
    intro hkernel
    refine ⟨_, recordNextDone_eq hpend hops, ?_, ?_⟩
    · rw [hset, htake]
      refine h.leave hready.front ?_ hmem h.nodup fun u _ => ?_
      · rw [hself, hperf]
      · simp [Manager.take, hkernel]
    · rw [stream_setStream_self, hself]
  unfold Manager.doOperation
  cases hkind : op.kind with
  | memcpy => exact hdone (by simp [Op.isKernel, hkind])
  | event => exact hdone (by simp [Op.isKernel, hkind])
  | kernel simMode =>
    have hkernel : op.isKernel = true := by simp [Op.isKernel, hkind]
    have hgrid : (m.take i op).gridIdToStream =
        fun u => if u = op.uid then some i else m.gridIdToStream u := by
      funext u
      simp [Manager.take, hkernel, Manager.setStream]
    dsimp only
    rw [if_pos (show (m.take i op).running.length < limit from hslot hkernel)]
    cases simMode with
    | true =>
      rw [if_pos rfl]
      have hgrid' : ((m.take i op).perform i op).gridIdToStream op.uid = some i := by
        show (m.take i op).gridIdToStream op.uid = some i
        rw [hgrid]
        exact if_pos rfl
      refine ⟨_, registerFinishedKernel_eq hgrid' hpend hops, ?_, ?_⟩
      · rw [hset, htake]
        refine h.leave hready.front ?_ hmem h.nodup fun u hu => ?_
        · rw [hself, hperf]
        · show (if u = op.uid then none else (m.take i op).gridIdToStream u) = m.gridIdToStream u
          rw [if_neg hu, hgrid]
          exact if_neg hu
      · show ((((m.take i op).perform i op).setStream i _).stream i).performed = _
        rw [stream_setStream_self, hself]
    | false =>
      rw [if_neg (by simp)]
      refine ⟨_, rfl, ?_, ?_⟩
      · have hperform : (m.take i op).perform i op = { m.setStream i
            { m.stream i with pending := true, performed := (m.stream i).performed ++ [op] } with
            gridIdToStream := (m.take i op).gridIdToStream } := by
          rw [← hself, ← htake, ← hset]
          exact (setStream_self _ i).symm
        rw [hperform]
        exact h.launch hready rfl hgrid
      · show (((m.take i op).perform i op).stream i).performed = _
        rw [hself]

end Inv

/-! ## Runs -/

/-- When `operation` selects a kernel, a slot is free. -/
def Manager.HasSlot (count limit : ℕ) (m : Manager) : Prop :=
  ∀ m', m.checkFinishedKernel = some m' → ∀ i op, (m'.front count).2 = some (i, op) →
    op.isKernel = true → m'.running.length < limit

/-- A call of `operation` finds a place for the kernel it would launch. -/
def Event.HasSlot (count limit : ℕ) (m : Manager) : Event → Prop
  | .operation => m.HasSlot count limit
  | _ => True

/-- Every step of the run meets the condition. -/
def RunHasSlot (count limit : ℕ) : Manager → List Event → Prop
  | _, [] => True
  | m, ev :: evs => ev.HasSlot count limit m ∧
      ∀ m', m.next count limit ev = some m' → RunHasSlot count limit m' evs

/-- One of the next two calls of `operation` performs an operation. -/
def Manager.Serves (count limit : ℕ) (m : Manager) : Prop :=
  ∃ m', (m.operation count limit = some m' ∨
      ∃ m₁, m.operation count limit = some m₁ ∧ m₁.operation count limit = some m') ∧
    ∃ i op, (m'.stream i).performed = (m.stream i).performed ++ [op]

namespace Inv

theorem operation (h : Inv count m) (hslot : m.HasSlot count limit) :
    ∃ m', m.operation count limit = some m' ∧ Inv count m' := by
  obtain ⟨t, ht, hinv⟩ := h.checkFinishedKernel
  rw [Manager.operation, ht, Option.bind_some]
  obtain ⟨serve, hserve, hfront | ⟨i, op, rest, hready, hfront⟩⟩ := hinv.front
  · exact ⟨_, by rw [hfront], hserve⟩
  · obtain ⟨m', hm', hinv', -⟩ := hserve.doOperation hready fun hkernel =>
      hslot t ht i op (by rw [hfront]) hkernel
    exact ⟨m', by rw [hfront]; exact hm', hinv'⟩

theorem next (h : Inv count m) {ev : Event} (hslot : ev.HasSlot count limit m) :
    ∃ m', m.next count limit ev = some m' ∧ Inv count m' := by
  cases ev with
  | push i kind =>
    refine ⟨_, rfl, ?_⟩
    split
    · exact h.push i kind
    · exact h
  | operation => exact h.operation hslot
  | kernelDone uid =>
    refine ⟨_, rfl, ?_⟩
    split
    case isTrue hrun => exact h.kernelDone hrun
    case isFalse => exact h

theorem run (h : Inv count m) {evs : List Event} (hslot : RunHasSlot count limit m evs) :
    ∃ m', m.run count limit evs = some m' ∧ Inv count m' := by
  induction evs generalizing m with
  | nil => exact ⟨m, rfl, h⟩
  | cons ev evs ih =>
    obtain ⟨t, ht, hinv⟩ := h.next hslot.1
    obtain ⟨m', hm', hinv'⟩ := ih hinv (hslot.2 t ht)
    refine ⟨m', ?_, hinv'⟩
    rw [Manager.run, List.foldlM_cons, ht]
    exact hm'

/-- A manager that waits for no kernel serves what is left. -/
theorem selects (h : Inv count m) (hrun : m.running = []) (hfin : m.finishedKernel = [])
    (hlimit : 0 < limit) (hsome : (m.front count).2 ≠ none) :
    ∃ m', m.operation count limit = some m' ∧
      ∃ i op, (m'.stream i).performed = (m.stream i).performed ++ [op] := by
  have hcheck : m.checkFinishedKernel = some m := by rw [Manager.checkFinishedKernel, hfin]
  rw [Manager.operation, hcheck, Option.bind_some]
  obtain ⟨serve, hserve, hfront | ⟨i, op, rest, hready, hfront⟩⟩ := h.front
  · rw [hfront] at hsome
    exact absurd rfl hsome
  · obtain ⟨m', hm', -, hperf⟩ := hserve.doOperation hready fun _ => by
      rw [show ({ m with serviceStreamZero := serve } : Manager).running = [] from hrun]
      exact hlimit
    exact ⟨m', by rw [hfront]; exact hm', i, op, hperf⟩

theorem front_ne_none (hidle : ∀ i, (m.stream i).pending = false)
    (hconc : m.concurrentStreamsEmpty count = false) (hserve : m.serviceStreamZero = false) :
    (m.front count).2 ≠ none := by
  have hready : (m.ready? count).isSome := by
    rw [Manager.ready?, List.find?_isSome]
    have hall : ¬ ∀ i ∈ List.range' 1 count, (m.stream i).ops.isEmpty = true := fun hall =>
      absurd (hconc.symm.trans (List.all_eq_true.2 hall)) (by simp)
    push Not at hall
    obtain ⟨i, hi, hne⟩ := hall
    exact ⟨i, hi, by simp [hidle i, hne]⟩
  obtain ⟨i, hi⟩ := Option.isSome_iff_exists.1 hready
  have hne := List.find?_some hi
  simp only [Bool.and_eq_true, Bool.not_eq_true'] at hne
  simp only [Manager.front, hconc, hserve, hi, Bool.false_eq_true, if_false]
  cases hops : (m.stream i).ops with
  | nil => exact absurd hne.2 (by simp [hops])
  | cons op rest => simp

/-- Nothing is selected while a stream has operations only when the service of stream zero ends. -/
theorem front_none (hidle : ∀ i, (m.stream i).pending = false)
    (hops : ∃ i ≤ count, (m.stream i).ops ≠ []) (hnone : (m.front count).2 = none) :
    m.front count = ({ m with serviceStreamZero := false }, none) ∧
      m.concurrentStreamsEmpty count = false ∧ m.serviceStreamZero = true := by
  obtain ⟨i, hi, hne⟩ := hops
  have hempty : (m.stream 0).ops = [] → m.concurrentStreamsEmpty count = false := by
    intro hzero
    apply Bool.eq_false_iff.2
    intro hall
    rw [Manager.concurrentStreamsEmpty, List.all_eq_true] at hall
    rcases Nat.eq_zero_or_pos i with rfl | hpos
    · exact hne hzero
    · exact hne (List.isEmpty_iff.1 (hall i (List.mem_range'_1.2 ⟨hpos, by omega⟩)))
  cases hzero : (m.stream 0).ops with
  | cons op rest =>
    cases hconc : m.concurrentStreamsEmpty count <;> cases hs : m.serviceStreamZero
    case false.false => exact absurd hnone (front_ne_none hidle hconc hs)
    all_goals simp [Manager.front, hconc, hs, hzero, hidle 0] at hnone
  | nil =>
    have hconc := hempty hzero
    cases hs : m.serviceStreamZero with
    | true => exact ⟨by simp [Manager.front, hconc, hs, hzero], hconc, rfl⟩
    | false => exact absurd hnone (front_ne_none hidle hconc hs)

theorem serves (h : Inv count m) (hrun : m.running = []) (hfin : m.finishedKernel = [])
    (hlimit : 0 < limit) (hops : ∃ i ≤ count, (m.stream i).ops ≠ []) : m.Serves count limit := by
  have hidle : ∀ i, (m.stream i).pending = false := by
    intro i
    apply Bool.eq_false_iff.2
    intro hpend
    obtain ⟨op, rest, -, hmem, -⟩ := h.busy i hpend
    rw [hrun, hfin] at hmem
    cases hmem
  by_cases hnone : (m.front count).2 = none
  · obtain ⟨hfront, hconc, -⟩ := front_none hidle hops hnone
    have hcheck : m.checkFinishedKernel = some m := by rw [Manager.checkFinishedKernel, hfin]
    have hfirst : m.operation count limit = some { m with serviceStreamZero := false } := by
      rw [Manager.operation, hcheck, Option.bind_some, hfront]
    have hinv : Inv count { m with serviceStreamZero := false } := h.setService (fun _ => hidle 0) nofun
    obtain ⟨m', hm', hperf⟩ := hinv.selects hrun hfin hlimit (front_ne_none hidle hconc rfl)
    exact ⟨m', Or.inr ⟨_, hfirst, hm'⟩, hperf⟩
  · obtain ⟨m', hm', hperf⟩ := h.selects hrun hfin hlimit hnone
    exact ⟨m', Or.inl hm', hperf⟩

end Inv

/-- **In a run in which every selected kernel finds a slot, no assertion fails, the operations are performed
exactly in every state, and what is left is served when no kernel is in progress.** -/
theorem run_exact (count limit : ℕ) (evs : List Event) (hslot : RunHasSlot count limit Manager.init evs) :
    ∃ m, Manager.init.run count limit evs = some m ∧ m.Exact count ∧
      (m.running = [] → m.finishedKernel = [] → 0 < limit →
        (∃ i ≤ count, (m.stream i).ops ≠ []) → m.Serves count limit) := by
  obtain ⟨m, hm, h⟩ := Inv.init.run hslot
  exact ⟨m, hm, h.exact, h.serves⟩

/-- Kernels of two streams, of which the second one waits until the first one is done. -/
def kernelRun : List Event :=
  [.push 1 (.kernel false), .operation, .kernelDone 1, .push 2 (.kernel false), .operation]

theorem run_exact_kernel : ∃ m, Manager.init.run 2 1 kernelRun = some m ∧ m.Exact 2 ∧
    (m.running = [] → m.finishedKernel = [] → 0 < 1 →
      (∃ i ≤ 2, (m.stream i).ops ≠ []) → m.Serves 2 1) :=
  run_exact 2 1 kernelRun (by
    refine ⟨trivial, fun m₁ h₁ => ⟨fun m hm _ _ _ _ => ?_, fun m₂ h₂ => ⟨trivial, fun m₃ h₃ =>
      ⟨trivial, fun m₄ h₄ => ⟨fun m hm _ _ _ _ => ?_, fun _ _ => trivial⟩⟩⟩⟩⟩
    · obtain rfl := Option.some.inj h₁
      obtain rfl := Option.some.inj hm
      decide
    · obtain rfl := Option.some.inj h₁
      obtain rfl := Option.some.inj h₂
      obtain rfl := Option.some.inj h₃
      obtain rfl := Option.some.inj h₄
      obtain rfl := Option.some.inj hm
      decide)

/-- One slot and kernels of two streams: the second one is selected while the first one runs, is not
launched, and keeps its stream busy; no later call launches it. -/
theorem not_exact :
    (Manager.init.run 2 1 [.push 1 (.kernel false), .push 2 (.kernel false), .operation, .operation,
      .kernelDone 1, .operation, .operation]).map (fun m =>
        ((m.stream 2).pending, (m.stream 2).ops.map (·.uid), (m.stream 2).performed, m.running,
          m.finishedKernel)) =
    some (true, [2], [], [], []) := by
  decide +kernel

end Streams
end CompressionWork
