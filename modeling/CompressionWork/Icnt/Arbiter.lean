import CompressionWork.Icnt.Allocator
import CompressionWork.Transition.Answers
import Mathlib

/-!
# Arbiters

An arbiter picks one of the inputs that request something in a cycle (`arbiter.cpp`): one of the highest
priority, and among those by an order of the inputs that the grants change.  `matrix_arb.cpp` keeps the order
as a matrix of bits, `roundrobin_arb.cpp` as a pointer.

* `Picks` — the input that is picked, for any order; it is the only one.
* `Arbitrates` — what the two arbiters have in common: the order stays total, the pick is granted, and a grant
  brings every input that the granted one was ahead of closer to its turn.
* `Arbitrates.picks`, `Arbitrates.served` — what follows for whole runs: the grants, and that no input starves.
* `MatrixArbiter.arbitrates`, `RoundRobinArbiter.arbitrates` — each arbiter is one of these.

A failed assertion is `none`, as is -1 for an input.
-/

namespace CompressionWork.Icnt

open Function Transition

/-- `entry_t`, where it is valid. -/
structure Entry where
  id : ℤ
  pri : ℤ

/-- The arguments of `AddRequest`. -/
structure ArbRequest where
  input : ℕ
  id : ℤ
  pri : ℤ
  deriving DecidableEq

/-- The requests of a cycle, and whether the caller updates the state after it. -/
structure ArbCycle where
  reqs : List ArbRequest
  commit : Bool
  deriving DecidableEq

/-- `Arbiter`. -/
structure Arbiter where
  size : ℕ
  request : ℕ → Option Entry := fun _ => none
  selected : Option ℕ := none
  highestPri : ℤ := -2147483648
  bestInput : Option ℕ := none
  numReqs : ℕ := 0

namespace Arbiter

/-- `Arbiter::AddRequest` -/
def addRequest (a : Arbiter) (r : ArbRequest) : Option Arbiter :=
  if r.input < a.size ∧ (a.request r.input).isNone then
    some { a with
      numReqs := a.numReqs + 1
      request := update a.request r.input (some ⟨r.id, r.pri⟩) }
  else none

/-- The assertion of `Arbiter::Arbitrate`. -/
def arbitrated (a : Arbiter) : Bool := a.selected ≠ none ∨ a.numReqs = 0

/-- `Arbiter::Clear` -/
def clear (a : Arbiter) : Arbiter :=
  if 0 < a.numReqs then { a with request := fun _ => none, numReqs := 0, selected := none } else a

end Arbiter

/-- `MatrixArbiter`; the bit of a row and a column says that the row is ahead of the column. -/
structure MatrixArbiter extends Arbiter where
  matrix : ℕ → ℕ → Bool
  lastReq : Option ℕ := none

namespace MatrixArbiter

/-- `AddRequest`. -/
def addRequest (a : MatrixArbiter) (r : ArbRequest) : Option MatrixArbiter :=
  (a.toArbiter.addRequest r).map fun b => { a with toArbiter := b, lastReq := some r.input }

/-- The loop that decides on the grant of an input. -/
def grants (a : MatrixArbiter) (input : ℕ) : Bool :=
  match a.request input with
  | none => false
  | some e => (List.range a.size).all fun i =>
    match a.request i with
    | none => true
    | some e' => !((e'.pri = e.pri && a.matrix i input) || e.pri < e'.pri)

/-- `Arbitrate` -/
def arbitrate (a : MatrixArbiter) : MatrixArbiter :=
  { a with selected := if a.numReqs < 2 then a.lastReq else (List.range a.size).find? a.grants }

/-- `UpdateState` -/
def updateState (a : MatrixArbiter) : MatrixArbiter :=
  match a.selected with
  | none => a
  | some w => { a with
      matrix := fun i j =>
        if i = w ∧ j < a.size ∧ j ≠ w then false else if j = w ∧ i < a.size ∧ i ≠ w then true else a.matrix i j }

/-- `Clear`. -/
def clear (a : MatrixArbiter) : MatrixArbiter := { a with toArbiter := a.toArbiter.clear, lastReq := none }

/-- A cycle: the requests, the grant, the update, and `Clear` before the next one. -/
def cycle (a : MatrixArbiter) (c : ArbCycle) : Option (Option ℕ × MatrixArbiter) :=
  (c.reqs.foldlM addRequest a).bind fun a =>
    if a.arbitrate.arbitrated then
      some (a.arbitrate.selected, (if c.commit then a.arbitrate.updateState else a.arbitrate).clear)
    else none

/-- The constructor. -/
def new (size : ℕ) : MatrixArbiter := { size, matrix := fun i j => i < size ∧ j < i }

end MatrixArbiter

/-- `RoundRobinArbiter`. -/
structure RoundRobinArbiter extends Arbiter where
  pointer : ℕ := 0

namespace RoundRobinArbiter

/-- How far an input is from the pointer. -/
def slot (input offset size : ℕ) : ℕ := (input + size - offset) % size

/-- `Supersedes`. -/
def supersedes (input1 : ℕ) (pri1 : ℤ) (input2 : ℕ) (pri2 : ℤ) (offset size : ℕ) : Bool :=
  pri2 < pri1 ∨ (pri1 = pri2 ∧ slot input1 offset size < slot input2 offset size)

/-- `AddRequest`; the outer test lets every request through that the assertion allows. -/
def addRequest (a : RoundRobinArbiter) (r : ArbRequest) : Option RoundRobinArbiter :=
  let better := (a.request r.input).all (fun e => e.pri < r.pri) && (a.numReqs = 0 ||
    a.bestInput.any fun best => supersedes r.input r.pri best a.highestPri a.pointer a.size)
  (a.toArbiter.addRequest r).map fun b =>
    { a with toArbiter := if better then { b with highestPri := r.pri, bestInput := some r.input } else b }

/-- `Arbitrate` -/
def arbitrate (a : RoundRobinArbiter) : RoundRobinArbiter := { a with selected := a.bestInput }

/-- `UpdateState` -/
def updateState (a : RoundRobinArbiter) : RoundRobinArbiter :=
  match a.selected with
  | none => a
  | some w => { a with pointer := (w + 1) % a.size }

/-- `Clear`. -/
def clear (a : RoundRobinArbiter) : RoundRobinArbiter :=
  { a with toArbiter := Arbiter.clear { a.toArbiter with highestPri := -2147483648, bestInput := none } }

/-- A cycle, as for the other arbiter. -/
def cycle (a : RoundRobinArbiter) (c : ArbCycle) : Option (Option ℕ × RoundRobinArbiter) :=
  (c.reqs.foldlM addRequest a).bind fun a =>
    if a.arbitrate.arbitrated then
      some (a.arbitrate.selected, (if c.commit then a.arbitrate.updateState else a.arbitrate).clear)
    else none

/-- The constructor. -/
def new (size : ℕ) : RoundRobinArbiter := { size }

end RoundRobinArbiter

/-! ## The pick -/

/-- The requests that the assertions of `AddRequest` allow. -/
def Acceptable (size : ℕ) (reqs : List ArbRequest) : Prop :=
  (∀ r ∈ reqs, r.input < size) ∧ (reqs.map ArbRequest.input).Nodup

instance (size : ℕ) (reqs : List ArbRequest) : Decidable (Acceptable size reqs) :=
  inferInstanceAs (Decidable (_ ∧ _))

/-- An order of the inputs. -/
structure TotalOn (order : ℕ → ℕ → Prop) (size : ℕ) : Prop where
  asymm : ∀ i < size, ∀ j < size, order i j → ¬ order j i
  total : ∀ i < size, ∀ j < size, i ≠ j → order i j ∨ order j i
  trans : ∀ i < size, ∀ j < size, ∀ k < size, order i j → order j k → order i k

/-- A request wins against another one. -/
def Beats (order : ℕ → ℕ → Prop) (r r' : ArbRequest) : Prop :=
  r'.pri < r.pri ∨ (r'.pri = r.pri ∧ order r.input r'.input)

/-- A request that wins against all others. -/
structure Best (order : ℕ → ℕ → Prop) (reqs : List ArbRequest) (r : ArbRequest) : Prop where
  mem : r ∈ reqs
  beats : ∀ r' ∈ reqs, r'.input ≠ r.input → Beats order r r'

/-- **The pick**: the input of the best request. -/
def Picks (order : ℕ → ℕ → Prop) (reqs : List ArbRequest) (w : ℕ) : Prop := ∃ r, Best order reqs r ∧ r.input = w

variable {order : ℕ → ℕ → Prop} {size w i : ℕ} {reqs : List ArbRequest} {r r' best : ArbRequest}

theorem Acceptable.eq_of_input (h : Acceptable size reqs) (hr : r ∈ reqs) (hr' : r' ∈ reqs)
    (heq : r.input = r'.input) : r = r' := List.inj_on_of_nodup_map h.2 hr hr' heq

theorem Acceptable.of_concat (h : Acceptable size (reqs ++ [r])) :
    Acceptable size reqs ∧ r.input < size ∧ ∀ r' ∈ reqs, r'.input ≠ r.input := by
  obtain ⟨hlt, hnodup⟩ := h
  rw [List.map_append, List.nodup_append] at hnodup
  exact ⟨⟨fun r' hr' => hlt r' (List.mem_append_left _ hr'), hnodup.1⟩,
    hlt r (List.mem_append_right _ List.mem_cons_self), fun r' hr' =>
      hnodup.2.2 _ (List.mem_map_of_mem hr') _ (List.mem_map_of_mem List.mem_cons_self)⟩

/-- **There is one pick.** -/
theorem Picks.unique (ht : TotalOn order size) (hreqs : Acceptable size reqs) (h : Picks order reqs w)
    {w' : ℕ} (h' : Picks order reqs w') : w = w' := by
  obtain ⟨r, hr, rfl⟩ := h
  obtain ⟨r', hr', rfl⟩ := h'
  by_contra hne
  have hasymm := ht.asymm r.input (hreqs.1 r hr.mem) r'.input (hreqs.1 r' hr'.mem)
  rcases hr.beats r' hr'.mem (Ne.symm hne) with hlt | ⟨heq, ha⟩
  · rcases hr'.beats r hr.mem hne with hlt' | ⟨heq', -⟩ <;> omega
  · rcases hr'.beats r hr.mem hne with hlt' | ⟨-, ha'⟩
    · omega
    · exact hasymm ha ha'

/-- A new request wins against the best one so far, and then against all; or the best one stays. -/
theorem Best.concat (ht : TotalOn order size) (hreqs : Acceptable size (reqs ++ [r])) (h : Best order reqs best) :
    (Beats order r best → Best order (reqs ++ [r]) r) ∧ (¬ Beats order r best → Best order (reqs ++ [r]) best) := by
  obtain ⟨hold, hr, hnew⟩ := hreqs.of_concat
  have hb := hold.1 best h.mem
  refine ⟨fun hwins => ⟨List.mem_append_right _ List.mem_cons_self, fun r' hr' hne => ?_⟩,
    fun hloses => ⟨List.mem_append_left _ h.mem, fun r' hr' hne => ?_⟩⟩
  · rcases List.mem_append.1 hr' with hr' | hr'
    · by_cases heq : r'.input = best.input
      · rwa [hold.eq_of_input hr' h.mem heq]
      · rcases hwins with hlt₁ | ⟨heq₁, ha₁⟩ <;> rcases h.beats r' hr' heq with hlt₂ | ⟨heq₂, ha₂⟩
        · exact .inl (by omega)
        · exact .inl (by omega)
        · exact .inl (by omega)
        · exact .inr ⟨by omega, ht.trans _ hr _ hb _ (hold.1 r' hr') ha₁ ha₂⟩
    · exact absurd (by rw [List.mem_singleton.1 hr']) hne
  · rcases List.mem_append.1 hr' with hr' | hr'
    · exact h.beats r' hr' hne
    · rw [List.mem_singleton.1 hr']
      simp only [Beats, not_or, not_and] at hloses
      rcases lt_trichotomy r.pri best.pri with hlt | heq | hgt
      · exact .inl hlt
      · exact .inr ⟨heq, (ht.total _ hb _ hr (hnew best h.mem)).resolve_right (hloses.2 heq.symm)⟩
      · exact absurd hgt hloses.1

theorem best_singleton : Best order [r] r :=
  ⟨List.mem_cons_self, fun r' hr' hne => absurd (by rw [List.mem_singleton.1 hr']) hne⟩

theorem exists_best (ht : TotalOn order size) (hreqs : Acceptable size reqs) (hne : reqs ≠ []) :
    ∃ best, Best order reqs best := by
  induction reqs using List.reverseRecOn with
  | nil => exact absurd rfl hne
  | append_singleton reqs r ih =>
    by_cases hnil : reqs = []
    · exact ⟨r, by simpa [hnil] using best_singleton⟩
    · obtain ⟨best, hbest⟩ := ih hreqs.of_concat.1 hnil
      obtain ⟨hwins, hloses⟩ := hbest.concat ht hreqs
      by_cases hb : Beats order r best
      · exact ⟨r, hwins hb⟩
      · exact ⟨best, hloses hb⟩

/-- A request of the highest priority is picked, or the pick is ahead of it. -/
theorem Picks.self_or_order (h : Picks order reqs w) (hr : r ∈ reqs) (htop : ∀ r' ∈ reqs, r'.pri ≤ r.pri) :
    w = r.input ∨ order w r.input := by
  obtain ⟨best, hbest, rfl⟩ := h
  by_cases heq : r.input = best.input
  · exact .inl heq.symm
  · rcases hbest.beats r hr heq with hlt | ⟨-, ha⟩
    · exact absurd (htop best hbest.mem) (by omega)
    · exact .inr ha

/-! ## What the arbiters have in common -/

/-- An arbiter with an order of the inputs, and the number of grants until an input's turn at the latest. -/
structure Arbitrates {σ : Type} (cycle : σ → ArbCycle → Option (Option ℕ × σ)) (size : ℕ) (idle : σ → Prop)
    (order : σ → ℕ → ℕ → Prop) (rank : σ → ℕ → ℕ) : Prop where
  total : ∀ s, idle s → TotalOn (order s) size
  lt : ∀ s i, idle s → i < size → rank s i < size
  grants : ∀ s c, idle s → Acceptable size c.reqs → ∃ g s', cycle s c = some (g, s') ∧ idle s' ∧
    (g = none ↔ c.reqs = []) ∧ (∀ w, g = some w → Picks (order s) c.reqs w) ∧
    (c.commit = false → ∀ i, rank s' i = rank s i) ∧
    (c.commit = true → ∀ w i, g = some w → i < size → order s w i → rank s' i < rank s i)

namespace Arbitrates

variable {σ : Type} {cycle : σ → ArbCycle → Option (Option ℕ × σ)} {idle : σ → Prop}
  {order : σ → ℕ → ℕ → Prop} {rank : σ → ℕ → ℕ} {s : σ} {before window : List ArbCycle}

theorem reaches (h : Arbitrates cycle size idle order rank) (hs : idle s)
    (hbefore : ∀ c ∈ before, Acceptable size c.reqs) : ∃ gs s', runs cycle s before = some (gs, s') ∧ idle s' :=
  runs_keeps idle (fun c => Acceptable size c.reqs) (fun s c hs hc => by
    obtain ⟨g, s', hcycle, hidle, -⟩ := h.grants s c hs hc
    exact ⟨g, s', hcycle, hidle⟩) hs hbefore

/-- After any run, a cycle grants the pick of its requests. -/
theorem picks (h : Arbitrates cycle size idle order rank) (hs : idle s) {c : ArbCycle}
    (hreqs : ∀ c' ∈ before ++ [c], Acceptable size c'.reqs) :
    ∃ gs t g t', runs cycle s before = some (gs, t) ∧ TotalOn (order t) size ∧ cycle t c = some (g, t') ∧
      (g = none ↔ c.reqs = []) ∧ ∀ w, g = some w ↔ Picks (order t) c.reqs w := by
  obtain ⟨gs, t, hruns, ht⟩ := h.reaches hs fun c' hc' => hreqs c' (List.mem_append_left _ hc')
  have hc := hreqs c (List.mem_append_right _ List.mem_cons_self)
  obtain ⟨g, t', hcycle, -, hnone, hpick, -⟩ := h.grants t c ht hc
  refine ⟨gs, t, g, t', hruns, h.total t ht, hcycle, hnone, fun w => ⟨hpick w, fun hw => ?_⟩⟩
  obtain ⟨r, hr, -⟩ := id hw
  have hr := hr.mem
  cases hg : g with
  | none => simp [hnone.1 hg] at hr
  | some w' => rw [(hpick w' hg).unique (h.total t ht) hc hw]

/-- **No input starves**: after any run, an input that keeps requesting at the highest priority is granted
within as many committed cycles as there are inputs. -/
theorem served (h : Arbitrates cycle size idle order rank) (hs : idle s) (hi : i < size)
    (hreqs : ∀ c ∈ before ++ window, Acceptable size c.reqs)
    (hasks : ∀ c ∈ window, ∃ r ∈ c.reqs, r.input = i ∧ ∀ r' ∈ c.reqs, r'.pri ≤ r.pri)
    (hlong : size ≤ window.countP (·.commit)) :
    ∃ gs t gs' t', runs cycle s before = some (gs, t) ∧ runs cycle t window = some (gs', t') ∧
      ∃ p ∈ window.zip gs', p.1.commit ∧ p.2 = some i := by
  obtain ⟨gs, t, hruns, ht⟩ := h.reaches hs fun c hc => hreqs c (List.mem_append_left _ hc)
  have hwait : ∃ gs' t', runs cycle t window = some (gs', t') ∧
      ∃ p ∈ window.zip gs', p.1.commit = true ∧ p.2 = some i := exists_served idle
    (fun c => Acceptable size c.reqs ∧ ∃ r ∈ c.reqs, r.input = i ∧ ∀ r' ∈ c.reqs, r'.pri ≤ r.pri)
    ArbCycle.commit (· = some i) (rank · i) (fun s c hs hc => by
      obtain ⟨hc, r, hr, rfl, htop⟩ := hc
      obtain ⟨g, s', hcycle, hidle, hnone, hpick, hskip, hcount⟩ := h.grants s c hs hc
      refine ⟨g, s', hcycle, hidle, fun hno => (hskip hno _).le, fun hyes => ?_⟩
      cases hg : g with
      | none => simp [hnone.1 hg] at hr
      | some w =>
        rcases (hpick w hg).self_or_order hr htop with rfl | ha
        · exact .inl rfl
        · exact .inr (hcount hyes w _ hg (hc.1 r hr) ha))
    ht (fun c hc => ⟨hreqs c (List.mem_append_right _ hc), hasks c hc⟩) (lt_of_lt_of_le (h.lt t i ht hi) hlong)
  obtain ⟨gs', t', hruns', hserved⟩ := hwait
  exact ⟨gs, t, gs', t', hruns, hruns', hserved⟩

end Arbitrates

/-! ## Requests -/

/-- The arbiter has these requests. -/
structure Arbiter.Loaded (a : Arbiter) (reqs : List ArbRequest) : Prop where
  count : a.numReqs = reqs.length
  asked : ∀ r ∈ reqs, a.request r.input = some ⟨r.id, r.pri⟩
  only : ∀ i e, a.request i = some e → ∃ r ∈ reqs, r.input = i ∧ e = ⟨r.id, r.pri⟩

theorem Arbiter.addRequest_spec {a : Arbiter} (h : a.Loaded reqs) (hreqs : Acceptable a.size (reqs ++ [r])) :
    ∃ b, a.addRequest r = some b ∧ b.Loaded (reqs ++ [r]) ∧ b = { a with
      numReqs := b.numReqs, request := b.request } := by
  obtain ⟨-, hlt, hnew⟩ := hreqs.of_concat
  have hfree : (a.request r.input).isNone := by
    rw [Option.isNone_iff_eq_none, Option.eq_none_iff_forall_ne_some]
    intro e he
    obtain ⟨r', hr', heq, -⟩ := h.only _ e he
    exact hnew r' hr' heq
  refine ⟨_, if_pos ⟨hlt, hfree⟩, ⟨?_, fun r' hr' => ?_, fun i e he => ?_⟩, rfl⟩
  · rw [List.length_append, ← h.count]
    rfl
  · rcases List.mem_append.1 hr' with hr' | hr'
    · simp only [update_of_ne (hnew r' hr')]
      exact h.asked r' hr'
    · rw [List.mem_singleton.1 hr']
      exact update_self ..
  · by_cases heq : i = r.input
    · subst heq
      simp only [update_self, Option.some.injEq] at he
      exact ⟨r, List.mem_append_right _ List.mem_cons_self, rfl, he.symm⟩
    · simp only [update_of_ne heq] at he
      obtain ⟨r', hr', hri, hre⟩ := h.only i e he
      exact ⟨r', List.mem_append_left _ hr', hri, hre⟩

theorem Arbiter.clear_spec {a : Arbiter} (h : a.Loaded reqs) :
    (a.clear.request = fun _ => none) ∧ a.clear.numReqs = 0 ∧ a.clear.size = a.size := by
  unfold clear
  split_ifs with hpos
  · exact ⟨rfl, rfl, rfl⟩
  · have hnil : reqs = [] := List.length_eq_zero_iff.1 (by rw [← h.count]; omega)
    refine ⟨funext fun i => Option.eq_none_iff_forall_ne_some.2 fun e he => ?_, by omega, rfl⟩
    obtain ⟨r, hr, -⟩ := h.only i e he
    simp [hnil] at hr

theorem Arbiter.loaded_nil {a : Arbiter} (hrequest : a.request = fun _ => none) (hnum : a.numReqs = 0) :
    a.Loaded [] :=
  ⟨hnum, fun r hr => by simp at hr, fun i e he => by simp [hrequest] at he⟩

/-- Two of three inputs request something. -/
def twoAsk : ArbCycle := ⟨[⟨2, 8, 1⟩, ⟨0, 7, 1⟩], true⟩

/-- All three inputs do, and the first one has less priority. -/
def allAsk : ArbCycle := ⟨[⟨1, 5, 4⟩, ⟨0, 3, 2⟩, ⟨2, 9, 4⟩], true⟩

/-! ## The matrix arbiter -/

namespace MatrixArbiter

variable {a a' : MatrixArbiter}

/-- The matrix puts `i` before `j`. -/
def ahead (a : MatrixArbiter) (i j : ℕ) : Prop := a.matrix i j = true

/-- The inputs that are ahead of one. -/
def rank (a : MatrixArbiter) (i : ℕ) : ℕ := ((Finset.range a.size).filter fun j => a.matrix j i).card

/-- Between two cycles. -/
structure Idle (size : ℕ) (a : MatrixArbiter) : Prop where
  size_eq : a.size = size
  request : a.request = fun _ => none
  numReqs : a.numReqs = 0
  lastReq : a.lastReq = none
  total : TotalOn a.ahead size

theorem addAll_spec (h : Idle size a) (hreqs : Acceptable size reqs) :
    ∃ a', reqs.foldlM addRequest a = some a' ∧ a'.toArbiter.Loaded reqs ∧ a'.matrix = a.matrix ∧
      a'.size = size ∧ a'.lastReq = reqs.getLast?.map ArbRequest.input := by
  induction reqs using List.reverseRecOn with
  | nil => exact ⟨a, rfl, Arbiter.loaded_nil h.request h.numReqs, rfl, h.size_eq, h.lastReq⟩
  | append_singleton reqs r ih =>
    obtain ⟨a', ha', hloaded, hmatrix, hsize, -⟩ := ih hreqs.of_concat.1
    obtain ⟨b, hb, hbloaded, hframe⟩ := Arbiter.addRequest_spec hloaded (by rwa [hsize])
    refine ⟨{ a' with toArbiter := b, lastReq := some r.input }, ?_, hbloaded, hmatrix, ?_, by simp⟩
    · rw [foldlM_concat, ha', Option.bind_some, addRequest, hb, Option.map_some]
    · show b.size = size
      rw [hframe]
      exact hsize

/-- The loop grants the pick and nothing else. -/
theorem grants_iff (hl : a.toArbiter.Loaded reqs) (ht : TotalOn a.ahead a.size) (hreqs : Acceptable a.size reqs) :
    a.grants w = true ↔ Picks a.ahead reqs w := by
  unfold grants
  cases he : a.request w with
  | none =>
    refine ⟨fun h => by simp at h, fun h => ?_⟩
    obtain ⟨r, hr, rfl⟩ := h
    simp [hl.asked r hr.mem] at he
  | some e =>
    obtain ⟨r, hr, rfl, rfl⟩ := hl.only w e he
    simp only [List.all_eq_true, List.mem_range]
    constructor
    · refine fun hall => ⟨r, ⟨hr, fun r' hr' hne => ?_⟩, rfl⟩
      have hcheck := hall r'.input (hreqs.1 r' hr')
      rw [hl.asked r' hr'] at hcheck
      simp only [Bool.not_eq_true', Bool.or_eq_false_iff, Bool.and_eq_false_iff, decide_eq_false_iff_not,
        not_lt] at hcheck
      obtain ⟨htie, hle⟩ := hcheck
      rcases lt_or_eq_of_le hle with hlt | heq
      · exact .inl hlt
      · have hnot : ¬ a.ahead r'.input r.input := by simpa [ahead] using htie.resolve_left (not_not.2 heq)
        exact .inr ⟨heq, (ht.total _ (hreqs.1 r hr) _ (hreqs.1 r' hr') (Ne.symm hne)).resolve_right hnot⟩
    · rintro ⟨best, hbest, heq⟩ i -
      obtain rfl := hreqs.eq_of_input hbest.mem hr heq
      cases hi : a.request i with
      | none => rfl
      | some e' =>
        obtain ⟨r', hr', rfl, rfl⟩ := hl.only i e' hi
        have hlt := hreqs.1 best hr
        have hnot : r'.pri = best.pri → ¬ a.ahead r'.input best.input := fun hpri => by
          by_cases hself : r'.input = best.input
          · rw [hself]
            exact fun hirr => ht.asymm _ hlt _ hlt hirr hirr
          · rcases hbest.beats r' hr' hself with hless | ⟨-, ha⟩
            · omega
            · exact ht.asymm _ hlt _ (hreqs.1 r' hr') ha
        have hle : r'.pri ≤ best.pri := by
          by_cases hself : r'.input = best.input
          · rw [hreqs.eq_of_input hr' hr hself]
          · rcases hbest.beats r' hr' hself with hless | ⟨heq, -⟩ <;> omega
        simp only [ahead, Bool.not_eq_true] at hnot
        simp only [Bool.not_eq_true', Bool.or_eq_false_iff, Bool.and_eq_false_iff, decide_eq_false_iff_not, not_lt]
        refine ⟨?_, hle⟩
        by_cases hpri : r'.pri = best.pri
        · exact .inr (hnot hpri)
        · exact .inl hpri

/-- With one request, the last request is granted without a look at the matrix. -/
theorem arbitrate_spec (hl : a.toArbiter.Loaded reqs) (ht : TotalOn a.ahead a.size)
    (hreqs : Acceptable a.size reqs) (hlast : a.lastReq = reqs.getLast?.map ArbRequest.input) :
    (a.arbitrate.selected = none ↔ reqs = []) ∧ ∀ w, a.arbitrate.selected = some w → Picks a.ahead reqs w := by
  by_cases hfew : a.numReqs < 2
  · have hselected : a.arbitrate.selected = reqs.getLast?.map ArbRequest.input := by
      rw [← hlast]
      exact if_pos hfew
    rw [hselected]
    rw [hl.count] at hfew
    cases hcase : reqs with
    | nil => simp
    | cons r rest =>
      have hrest : rest = [] := List.length_eq_zero_iff.1 (by
        rw [hcase, List.length_cons] at hfew
        omega)
      subst hrest
      refine ⟨by simp, fun w hw => ⟨r, best_singleton, by simpa using hw⟩⟩
  · have hselected : a.arbitrate.selected = (List.range a.size).find? a.grants := if_neg hfew
    have hne : reqs ≠ [] := fun hnil => hfew (by simp [hl.count, hnil])
    obtain ⟨best, hbest⟩ := exists_best ht hreqs hne
    rw [hselected]
    refine ⟨⟨fun hnone => ?_, fun hnil => absurd hnil hne⟩, fun w hw => ?_⟩
    · have hno := List.find?_eq_none.1 hnone best.input (List.mem_range.2 (hreqs.1 best hbest.mem))
      exact absurd ((grants_iff hl ht hreqs).2 ⟨best, hbest, rfl⟩) hno
    · exact (grants_iff hl ht hreqs).1 (List.find?_some hw)

theorem updateState_size : a.updateState.size = a.size := by
  unfold updateState
  split <;> rfl

/-- The granted input goes behind all others, whose order stays. -/
theorem ahead_updateState (hsel : a.selected = some w) (hi : i < a.size) {j : ℕ} (hj : j < a.size) :
    a.updateState.ahead i j ↔ (i = w → j = w) ∧ (j = w ∧ i ≠ w ∨ a.ahead i j) := by
  unfold updateState ahead
  rw [hsel]
  by_cases hiw : i = w <;> by_cases hjw : j = w <;> simp [hiw, hjw, hi, hj]

theorem updateState_total (hsel : a.selected = some w) (ht : TotalOn a.ahead a.size) :
    TotalOn a.updateState.ahead a.size where
  asymm i hi j hj := by
    rw [ahead_updateState hsel hi hj, ahead_updateState hsel hj hi]
    have := ht.asymm i hi j hj
    have := ht.asymm i hi i hi
    grind
  total i hi j hj hne := by
    rw [ahead_updateState hsel hi hj, ahead_updateState hsel hj hi]
    have := ht.total i hi j hj hne
    grind
  trans i hi j hj k hk := by
    rw [ahead_updateState hsel hi hj, ahead_updateState hsel hj hk, ahead_updateState hsel hi hk]
    have := ht.trans i hi j hj k hk
    have := ht.asymm j hj j hj
    grind

theorem rank_updateState (hsel : a.selected = some w) (hw : w < a.size) (hi : i < a.size)
    (ht : TotalOn a.ahead a.size) (ha : a.ahead w i) : a.updateState.rank i < a.rank i := by
  have hne : i ≠ w := fun heq => ht.asymm w hw i hi ha (by rwa [heq] at ha ⊢)
  refine Finset.card_lt_card (Finset.ssubset_iff_of_subset (fun j hj => ?_) |>.2 ⟨w, ?_, fun hmem => ?_⟩)
  · rw [Finset.mem_filter, Finset.mem_range, updateState_size] at hj
    have hafter := (ahead_updateState hsel hj.1 hi).1 hj.2
    exact Finset.mem_filter.2 ⟨Finset.mem_range.2 hj.1, hafter.2.resolve_left fun h => hne h.1⟩
  · exact Finset.mem_filter.2 ⟨Finset.mem_range.2 hw, ha⟩
  · exact hne (((ahead_updateState hsel hw hi).1 (Finset.mem_filter.1 hmem).2).1 rfl)

theorem rank_lt (h : Idle size a) (hi : i < size) : a.rank i < size := by
  calc a.rank i < (Finset.range a.size).card := by
        refine Finset.card_lt_card (Finset.filter_ssubset.2 ⟨i, Finset.mem_range.2 (by rwa [h.size_eq]), ?_⟩)
        exact fun hirr => h.total.asymm i hi i hi hirr hirr
    _ = size := by rw [Finset.card_range, h.size_eq]

theorem new_idle (size : ℕ) : Idle size (new size) where
  size_eq := rfl
  request := rfl
  numReqs := rfl
  lastReq := rfl
  total := by
    refine ⟨fun i hi j hj h => ?_, fun i hi j hj hne => ?_, fun i hi j hj k hk h h' => ?_⟩ <;>
      simp only [ahead, new, decide_eq_true_eq] at * <;> omega

theorem updateState_toArbiter : a.updateState.toArbiter = a.toArbiter := by
  unfold updateState
  split <;> rfl

theorem rank_clear (hl : a.toArbiter.Loaded reqs) (i : ℕ) : a.clear.rank i = a.rank i := by
  obtain ⟨-, -, hsize⟩ := Arbiter.clear_spec hl
  simp only [rank, clear, hsize]

theorem clear_idle (hl : a.toArbiter.Loaded reqs) (hsize : a.size = size) (ht : TotalOn a.ahead size) :
    Idle size a.clear := by
  obtain ⟨hrequest, hnum, hcsize⟩ := Arbiter.clear_spec hl
  exact ⟨hcsize.trans hsize, hrequest, hnum, rfl, ht⟩

/-- **The matrix arbiter**: its bits stay a total order, and a granted input goes to the end of it. -/
theorem arbitrates (size : ℕ) : Arbitrates cycle size (Idle size) ahead rank where
  total _ h := h.total
  lt _ _ h hi := rank_lt h hi
  grants s c h hc := by
    obtain ⟨b, hb, hl, hmatrix, hsize, hlast⟩ := addAll_spec h hc
    have hsame : b.ahead = s.ahead := by
      funext i j
      rw [ahead, hmatrix, ahead]
    have ht : TotalOn b.ahead b.size := by
      rw [hsame, hsize]
      exact h.total
    obtain ⟨hnone, hpick⟩ := arbitrate_spec hl ht (by rwa [hsize]) hlast
    have hasserted : b.arbitrate.arbitrated = true := decide_eq_true (by
      by_cases hsel : b.arbitrate.selected = none
      · exact .inr (hl.count.trans (by rw [hnone.1 hsel]; rfl))
      · exact .inl hsel)
    have hgranted : b.arbitrate.toArbiter.Loaded c.reqs := ⟨hl.count, hl.asked, hl.only⟩
    have hupdated : b.arbitrate.updateState.toArbiter.Loaded c.reqs := by
      rw [updateState_toArbiter]
      exact hgranted
    have hrank : ∀ i, b.arbitrate.rank i = s.rank i := fun i => by
      show ((Finset.range b.size).filter fun j => b.matrix j i).card = _
      rw [hmatrix, hsize, rank, h.size_eq]
    refine ⟨b.arbitrate.selected, _, by rw [cycle, hb, Option.bind_some, if_pos hasserted], ?_, hnone,
      fun w hw => by rw [← hsame]; exact hpick w hw, fun hno i => ?_, fun hyes w i hw hi ha => ?_⟩
    · by_cases hcommit : c.commit
      · rw [if_pos hcommit]
        refine clear_idle hupdated (updateState_size.trans hsize) ?_
        cases hsel : b.arbitrate.selected with
        | none =>
          rw [updateState, hsel, ← hsize]
          exact ht
        | some w =>
          rw [← hsize]
          exact updateState_total hsel ht
      · rw [if_neg hcommit]
        refine clear_idle hgranted hsize ?_
        rw [← hsize]
        exact ht
    · rw [hno, if_neg Bool.false_ne_true, rank_clear hgranted, hrank]
    · obtain ⟨r, hr, hrw⟩ := hpick w hw
      have hlt : w < b.size := by
        rw [← hrw, hsize]
        exact hc.1 r hr.mem
      rw [if_pos hyes, rank_clear hupdated, ← hrank]
      have hi' : i < b.size := by rwa [hsize]
      refine rank_updateState hw hlt hi' ht ?_
      show b.ahead w i
      rwa [hsame]

/-- **The matrix arbiter**: in every run the assertion holds, the bits are a total order of the inputs, and a
cycle grants the one request of the highest priority that is first in this order. -/
theorem matrix_picks (size : ℕ) (before : List ArbCycle) (c : ArbCycle)
    (hreqs : ∀ c' ∈ before ++ [c], Acceptable size c'.reqs) :
    ∃ gs t g t', runs cycle (new size) before = some (gs, t) ∧ TotalOn t.ahead size ∧ t.cycle c = some (g, t') ∧
      (g = none ↔ c.reqs = []) ∧ ∀ w, g = some w ↔ Picks t.ahead c.reqs w :=
  (arbitrates size).picks (new_idle size) hreqs

theorem matrix_picks_allAsk : ∃ gs t g t', runs cycle (new 3) [twoAsk, allAsk] = some (gs, t) ∧ TotalOn t.ahead 3 ∧
    t.cycle allAsk = some (g, t') ∧ (g = none ↔ allAsk.reqs = []) ∧
    ∀ w, g = some w ↔ Picks t.ahead allAsk.reqs w :=
  matrix_picks 3 [twoAsk, allAsk] allAsk (by decide)

/-- **No input starves.** -/
theorem matrix_served {size i : ℕ} (hi : i < size) (before window : List ArbCycle)
    (hreqs : ∀ c ∈ before ++ window, Acceptable size c.reqs)
    (hasks : ∀ c ∈ window, ∃ r ∈ c.reqs, r.input = i ∧ ∀ r' ∈ c.reqs, r'.pri ≤ r.pri)
    (hlong : size ≤ window.countP (·.commit)) :
    ∃ gs t gs' t', runs cycle (new size) before = some (gs, t) ∧ runs cycle t window = some (gs', t') ∧
      ∃ p ∈ window.zip gs', p.1.commit ∧ p.2 = some i :=
  (arbitrates size).served (new_idle size) hi hreqs hasks hlong

theorem matrix_served_allAsk : ∃ gs t gs' t', runs cycle (new 3) [twoAsk] = some (gs, t) ∧
    runs cycle t [allAsk, allAsk, allAsk] = some (gs', t') ∧
    ∃ p ∈ [allAsk, allAsk, allAsk].zip gs', p.1.commit ∧ p.2 = some 1 :=
  matrix_served (by decide) [twoAsk] [allAsk, allAsk, allAsk] (by decide) (by decide) (by decide)

end MatrixArbiter

/-! ## The round-robin arbiter -/

namespace RoundRobinArbiter

variable {a a' : RoundRobinArbiter} {p : ℕ}

theorem slot_eq (hp : p < size) (hi : i < size) : slot i p size = if p ≤ i then i - p else i + size - p := by
  unfold slot
  split_ifs with hle
  · rw [show i + size - p = i - p + size by omega, Nat.add_mod_right, Nat.mod_eq_of_lt (by omega)]
  · exact Nat.mod_eq_of_lt (by omega)

/-- The inputs from the pointer on, and round. -/
def ahead (a : RoundRobinArbiter) (i j : ℕ) : Prop := slot i a.pointer a.size < slot j a.pointer a.size

/-- The place of an input in the turn that starts at the pointer. -/
def rank (a : RoundRobinArbiter) (i : ℕ) : ℕ := slot i a.pointer a.size

/-- Between two cycles. -/
structure Idle (size : ℕ) (a : RoundRobinArbiter) : Prop where
  size_eq : a.size = size
  request : a.request = fun _ => none
  numReqs : a.numReqs = 0
  bestInput : a.bestInput = none
  pointer : a.pointer < size

theorem ahead_total (h : a.pointer < a.size) : TotalOn a.ahead a.size where
  asymm i hi j hj := by
    unfold ahead
    omega
  total i hi j hj hne := by
    unfold ahead
    rw [slot_eq h hi, slot_eq h hj]
    split_ifs <;> omega
  trans i hi j hj k hk := by
    unfold ahead
    omega

theorem supersedes_iff {r best : ArbRequest} :
    supersedes r.input r.pri best.input best.pri a.pointer a.size = true ↔ Beats a.ahead r best := by
  unfold supersedes Beats ahead
  rw [decide_eq_true_eq, eq_comm]

/-- What the requests of a cycle leave: the best of them so far. -/
theorem addAll_spec (h : Idle size a) (hreqs : Acceptable size reqs) :
    ∃ a', reqs.foldlM addRequest a = some a' ∧ a'.toArbiter.Loaded reqs ∧ a'.pointer = a.pointer ∧
      a'.size = size ∧ (reqs = [] → a'.bestInput = none) ∧
      (reqs ≠ [] → ∃ best, Best a.ahead reqs best ∧ a'.bestInput = some best.input ∧ a'.highestPri = best.pri) := by
  have ht : TotalOn a.ahead size := by
    have := ahead_total (a := a) (by rw [h.size_eq]; exact h.pointer)
    rwa [h.size_eq] at this
  induction reqs using List.reverseRecOn with
  | nil =>
    exact ⟨a, rfl, Arbiter.loaded_nil h.request h.numReqs, rfl, h.size_eq, fun _ => h.bestInput,
      fun hne => absurd rfl hne⟩
  | append_singleton reqs r ih =>
    obtain ⟨hold, hlt, hnew⟩ := hreqs.of_concat
    obtain ⟨a', ha', hloaded, hpointer, hsize, hempty, hbest⟩ := ih hold
    obtain ⟨b, hb, hbloaded, hframe⟩ := Arbiter.addRequest_spec hloaded (by rwa [hsize])
    have hfree : a'.request r.input = none := Option.eq_none_iff_forall_ne_some.2 fun e he => by
      obtain ⟨r', hr', heq, -⟩ := hloaded.only _ e he
      exact hnew r' hr' heq
    have hbsize : b.size = size := by
      rw [hframe]
      exact hsize
    have hfold : (reqs ++ [r]).foldlM addRequest a = addRequest a' r := by
      rw [foldlM_concat, ha', Option.bind_some]
    rw [hfold]
    unfold addRequest
    rw [hb, Option.map_some, hfree, Option.all_none, Bool.true_and]
    by_cases hnil : reqs = []
    · have hzero : a'.numReqs = 0 := by rw [hloaded.count, hnil]; rfl
      refine ⟨_, rfl, ?_, hpointer, ?_, fun hne => absurd hne (by simp), fun _ => ⟨r, ?_, ?_, ?_⟩⟩
      · simp only [hzero]
        exact ⟨hbloaded.count, hbloaded.asked, hbloaded.only⟩
      · simp only [hzero]
        exact hbsize
      · rw [hnil]
        exact best_singleton
      · simp [hzero]
      · simp [hzero]
    · obtain ⟨best, hbest, hinput, hpri⟩ := hbest hnil
      have hsome : a'.numReqs ≠ 0 := by
        rw [hloaded.count]
        exact fun hlen => hnil (List.length_eq_zero_iff.1 hlen)
      obtain ⟨hwins, hloses⟩ := hbest.concat ht hreqs
      have htest : (a'.numReqs = 0 || a'.bestInput.any fun best => supersedes r.input r.pri best a'.highestPri
          a'.pointer a'.size) = supersedes r.input r.pri best.input best.pri a.pointer a.size := by
        rw [hinput, hpri, hpointer, hsize, h.size_eq]
        simp [hsome]
      rw [htest]
      by_cases hb' : Beats a.ahead r best
      · rw [supersedes_iff.2 hb']
        exact ⟨_, rfl, ⟨hbloaded.count, hbloaded.asked, hbloaded.only⟩, hpointer, hbsize,
          fun hne => absurd hne (by simp), fun _ => ⟨r, hwins hb', rfl, rfl⟩⟩
      · have hno : supersedes r.input r.pri best.input best.pri a.pointer a.size = false := by
          rw [← Bool.not_eq_true, supersedes_iff]
          exact hb'
        rw [hno]
        refine ⟨_, rfl, hbloaded, hpointer, hbsize, fun hne => absurd hne (by simp),
          fun _ => ⟨best, hloses hb', ?_, ?_⟩⟩
        · show b.bestInput = _
          rw [hframe]
          exact hinput
        · show b.highestPri = _
          rw [hframe]
          exact hpri

/-- The pointer goes past the granted input, and the inputs after that one move up. -/
theorem slot_updateState (hp : p < size) (hw : w < size) (hi : i < size)
    (ha : slot w p size < slot i p size) : slot i ((w + 1) % size) size < slot i p size := by
  by_cases hwrap : w + 1 = size
  · rw [hwrap, Nat.mod_self, slot_eq (by omega) hi, slot_eq hp hi, if_pos (Nat.zero_le _)]
    rw [slot_eq hp hw, slot_eq hp hi] at ha
    split_ifs at ha ⊢ <;> omega
  · rw [Nat.mod_eq_of_lt (by omega : w + 1 < size), slot_eq (by omega) hi, slot_eq hp hi]
    rw [slot_eq hp hw, slot_eq hp hi] at ha
    split_ifs at ha ⊢ <;> omega

theorem clear_idle (hl : a.toArbiter.Loaded reqs) (hsize : a.size = size) (hp : a.pointer < size) :
    Idle size a.clear := by
  obtain ⟨hrequest, hnum, hcsize⟩ := Arbiter.clear_spec
    (a := { a.toArbiter with highestPri := -2147483648, bestInput := none }) ⟨hl.count, hl.asked, hl.only⟩
  refine ⟨hcsize.trans hsize, hrequest, hnum, ?_, hp⟩
  unfold clear Arbiter.clear
  split_ifs <;> rfl

theorem clear_size : a.clear.size = a.size := by
  unfold clear Arbiter.clear
  split_ifs <;> rfl

theorem new_idle (h : 0 < size) : Idle size (new size) := ⟨rfl, rfl, rfl, rfl, h⟩

/-- **The round-robin arbiter**: the order starts at the pointer, behind the input that was granted last. -/
theorem arbitrates (size : ℕ) : Arbitrates cycle size (Idle size) ahead rank where
  total s h := by
    have := ahead_total (a := s) (by rw [h.size_eq]; exact h.pointer)
    rwa [h.size_eq] at this
  lt s i h hi := by
    rw [rank, h.size_eq, slot_eq h.pointer hi]
    have := h.pointer
    split_ifs <;> omega
  grants s c h hc := by
    obtain ⟨b, hb, hl, hpointer, hsize, hempty, hbest⟩ := addAll_spec h hc
    have hnone : b.arbitrate.selected = none ↔ c.reqs = [] := by
      refine ⟨fun hsel => ?_, hempty⟩
      by_contra hne
      obtain ⟨best, -, hinput, -⟩ := hbest hne
      rw [show b.arbitrate.selected = b.bestInput from rfl, hinput] at hsel
      cases hsel
    have hpick : ∀ w, b.arbitrate.selected = some w → Picks s.ahead c.reqs w := fun w hw => by
      have hne : c.reqs ≠ [] := fun hnil => by simp [hnone.2 hnil] at hw
      obtain ⟨best, hbest, hinput, -⟩ := hbest hne
      exact ⟨best, hbest, Option.some.inj (hinput.symm.trans hw)⟩
    have hasserted : b.arbitrate.arbitrated = true := decide_eq_true (by
      by_cases hsel : b.arbitrate.selected = none
      · exact .inr (hl.count.trans (by rw [hnone.1 hsel]; rfl))
      · exact .inl hsel)
    have hgranted : b.arbitrate.toArbiter.Loaded c.reqs := ⟨hl.count, hl.asked, hl.only⟩
    have hlt : ∀ w, b.arbitrate.selected = some w → w < size := fun w hw => by
      obtain ⟨r, hr, rfl⟩ := hpick w hw
      exact hc.1 r hr.mem
    refine ⟨b.arbitrate.selected, _, by rw [cycle, hb, Option.bind_some, if_pos hasserted], ?_, hnone, hpick,
      fun hno i => ?_, fun hyes w i hw hi ha => ?_⟩
    · by_cases hcommit : c.commit
      · rw [if_pos hcommit, updateState]
        cases hsel : b.arbitrate.selected with
        | none =>
          refine clear_idle hgranted hsize ?_
          show b.pointer < size
          rw [hpointer]
          exact h.pointer
        | some w =>
          refine clear_idle ⟨hl.count, hl.asked, hl.only⟩ hsize ?_
          show (w + 1) % b.size < size
          rw [hsize]
          exact Nat.mod_lt _ (Nat.lt_of_le_of_lt (Nat.zero_le _) (hlt w hsel))
      · rw [if_neg hcommit]
        refine clear_idle hgranted hsize ?_
        show b.pointer < size
        rw [hpointer]
        exact h.pointer
    · rw [hno, if_neg Bool.false_ne_true, rank, rank, clear_size]
      show slot i b.pointer b.size = _
      rw [hpointer, hsize, h.size_eq]
    · rw [if_pos hyes, updateState, hw, rank, rank, clear_size]
      show slot i ((w + 1) % b.size) b.size < _
      rw [ahead, h.size_eq] at ha
      rw [hsize, h.size_eq]
      exact slot_updateState h.pointer (hlt w hw) hi ha

/-- **The round-robin arbiter**: in every run the assertion holds, and a cycle grants the one request of the
highest priority that comes first from the pointer on, whatever the order in which the requests were added. -/
theorem roundRobin_picks {size : ℕ} (hpos : 0 < size) (before : List ArbCycle) (c : ArbCycle)
    (hreqs : ∀ c' ∈ before ++ [c], Acceptable size c'.reqs) :
    ∃ gs t g t', runs cycle (new size) before = some (gs, t) ∧ TotalOn t.ahead size ∧ t.cycle c = some (g, t') ∧
      (g = none ↔ c.reqs = []) ∧ ∀ w, g = some w ↔ Picks t.ahead c.reqs w :=
  (arbitrates size).picks (new_idle hpos) hreqs

theorem roundRobin_picks_allAsk : ∃ gs t g t', runs cycle (new 3) [twoAsk, allAsk] = some (gs, t) ∧ TotalOn t.ahead 3 ∧
    t.cycle allAsk = some (g, t') ∧ (g = none ↔ allAsk.reqs = []) ∧
    ∀ w, g = some w ↔ Picks t.ahead allAsk.reqs w :=
  roundRobin_picks (by decide) [twoAsk, allAsk] allAsk (by decide)

/-- **No input starves.** -/
theorem roundRobin_served {size i : ℕ} (hi : i < size) (before window : List ArbCycle)
    (hreqs : ∀ c ∈ before ++ window, Acceptable size c.reqs)
    (hasks : ∀ c ∈ window, ∃ r ∈ c.reqs, r.input = i ∧ ∀ r' ∈ c.reqs, r'.pri ≤ r.pri)
    (hlong : size ≤ window.countP (·.commit)) :
    ∃ gs t gs' t', runs cycle (new size) before = some (gs, t) ∧ runs cycle t window = some (gs', t') ∧
      ∃ p ∈ window.zip gs', p.1.commit ∧ p.2 = some i :=
  (arbitrates size).served (new_idle (Nat.lt_of_le_of_lt (Nat.zero_le _) hi)) hi hreqs hasks hlong

theorem roundRobin_served_allAsk : ∃ gs t gs' t', runs cycle (new 3) [twoAsk] = some (gs, t) ∧
    runs cycle t [allAsk, allAsk, allAsk] = some (gs', t') ∧
    ∃ p ∈ [allAsk, allAsk, allAsk].zip gs', p.1.commit ∧ p.2 = some 1 :=
  roundRobin_served (by decide) [twoAsk] [allAsk, allAsk, allAsk] (by decide) (by decide) (by decide)

end RoundRobinArbiter

end CompressionWork.Icnt
