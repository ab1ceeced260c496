import CompressionWork.Graph.Matching

/-!
# The allocators of a router

An allocator pairs inputs with outputs that they request (`allocator.cpp`). It is cleared, gets the requests
of a cycle, and allocates.

* `DenseAllocator` — the matrix of requests and the two sides of the matching.
* `addRequests_request`, `addRequests_frame` — what a round of requests does to the matrix.

A failed assertion is `none`; -1 is `none` in a matching and in the matrix.
-/

namespace CompressionWork.Icnt

open Function

/-- `sRequest`, of which the port is the other end. -/
structure SRequest where
  label : ℕ
  inPri : ℤ
  outPri : ℤ
  deriving DecidableEq, Repr

/-- The arguments of `AddRequest`. -/
structure RequestArgs where
  input : ℕ
  output : ℕ
  label : ℕ
  inPri : ℤ
  outPri : ℤ

/-- `DenseAllocator` -/
structure DenseAllocator where
  inputs : ℕ
  outputs : ℕ
  request : ℕ → ℕ → Option SRequest := fun _ _ => none
  inmatch : ℕ → Option ℕ := fun _ => none
  outmatch : ℕ → Option ℕ := fun _ => none
  dirty : Bool := false

/-- The last round of a loop that may fail. -/
theorem foldlM_concat {σ ε : Type*} (f : σ → ε → Option σ) (s : σ) (l : List ε) (e : ε) :
    (l ++ [e]).foldlM f s = (l.foldlM f s).bind fun t => f t e := by
  rw [List.foldlM_append]
  simp

namespace DenseAllocator

/-- `Clear` -/
def clear (a : DenseAllocator) : DenseAllocator :=
  if a.dirty then
    { a with request := fun _ _ => none, inmatch := fun _ => none, outmatch := fun _ => none, dirty := false }
  else { a with request := fun _ _ => none }

/-- `AddRequest` -/
def addRequest (a : DenseAllocator) (r : RequestArgs) : Option DenseAllocator :=
  if r.input < a.inputs ∧ r.output < a.outputs ∧ a.request r.input r.output = none then
    some { a with
      request := update a.request r.input
        (update (a.request r.input) r.output (some ⟨r.label, r.inPri, r.outPri⟩))
      dirty := true }
  else none

/-- The requests of a cycle. -/
def addRequests (a : DenseAllocator) (reqs : List RequestArgs) : Option DenseAllocator :=
  reqs.foldlM addRequest a

/-- The input requests the output. -/
def Requests (a : DenseAllocator) (input output : ℕ) : Prop := a.request input output ≠ none

/-- Nothing is matched unless the allocator is dirty. -/
def Clean (a : DenseAllocator) : Prop :=
  a.dirty = false → a.inmatch = (fun _ => none) ∧ a.outmatch = fun _ => none

/-- The requests are in the matrix. -/
def Inside (a : DenseAllocator) : Prop :=
  ∀ i j, a.Requests i j → i < a.inputs ∧ j < a.outputs

variable {a a' : DenseAllocator} {r : RequestArgs} {reqs : List RequestArgs}

@[simp] theorem clear_inputs : a.clear.inputs = a.inputs := by unfold clear; split <;> rfl

@[simp] theorem clear_outputs : a.clear.outputs = a.outputs := by unfold clear; split <;> rfl

@[simp] theorem clear_request : a.clear.request = fun _ _ => none := by unfold clear; split <;> rfl

theorem Clean.clear (h : a.Clean) :
    a.clear.inmatch = (fun _ => none) ∧ a.clear.outmatch = fun _ => none := by
  unfold DenseAllocator.clear
  split
  · exact ⟨rfl, rfl⟩
  · exact h (by simp_all)

theorem addRequest_eq (h : a.addRequest r = some a') :
    (r.input < a.inputs ∧ r.output < a.outputs ∧ a.request r.input r.output = none) ∧
      a' = { a with
        request := update a.request r.input
          (update (a.request r.input) r.output (some ⟨r.label, r.inPri, r.outPri⟩))
        dirty := true } := by
  unfold addRequest at h
  split at h
  · exact ⟨‹_›, (Option.some.inj h).symm⟩
  · cases h

/-- A round of requests leaves the sizes and the matching alone. -/
theorem addRequests_frame (h : a.addRequests reqs = some a') :
    a'.inputs = a.inputs ∧ a'.outputs = a.outputs ∧ a'.inmatch = a.inmatch ∧ a'.outmatch = a.outmatch := by
  induction reqs generalizing a with
  | nil =>
      obtain rfl := Option.some.inj h
      exact ⟨rfl, rfl, rfl, rfl⟩
  | cons r reqs ih =>
      rw [addRequests, List.foldlM_cons] at h
      obtain ⟨b, hb, hrest⟩ := Option.bind_eq_some_iff.1 h
      obtain ⟨-, rfl⟩ := addRequest_eq hb
      have hframe := ih hrest
      exact hframe

theorem addRequests_inside (hinside : a.Inside) (h : a.addRequests reqs = some a') : a'.Inside := by
  induction reqs generalizing a with
  | nil =>
      obtain rfl := Option.some.inj h
      exact hinside
  | cons r reqs ih =>
      rw [addRequests, List.foldlM_cons] at h
      obtain ⟨b, hb, hrest⟩ := Option.bind_eq_some_iff.1 h
      obtain ⟨⟨hi, hj, -⟩, rfl⟩ := addRequest_eq hb
      refine ih (fun i j hij => ?_) hrest
      unfold Requests at hij
      dsimp only at hij
      by_cases heq : i = r.input
      · subst heq
        by_cases hout : j = r.output
        · exact ⟨hi, hout ▸ hj⟩
        · rw [update_self, update_of_ne hout] at hij
          exact hinside _ j hij
      · rw [update_of_ne heq] at hij
        exact hinside i j hij

/-- The matrix holds what was asked for in the round. -/
theorem addRequests_request (hempty : a.request = fun _ _ => none) (h : a.addRequests reqs = some a')
    (i j : ℕ) (q : SRequest) :
    a'.request i j = some q ↔ ⟨i, j, q.label, q.inPri, q.outPri⟩ ∈ reqs := by
  have hgen : ∀ {b : DenseAllocator}, b.addRequests reqs = some a' →
      (a'.request i j = some q ↔ b.request i j = some q ∨ ⟨i, j, q.label, q.inPri, q.outPri⟩ ∈ reqs) := by
    clear h
    induction reqs with
    | nil =>
        intro b hb
        obtain rfl := Option.some.inj hb
        simp
    | cons r reqs ih =>
        intro b hb
        rw [addRequests, List.foldlM_cons] at hb
        obtain ⟨c, hc, hrest⟩ := Option.bind_eq_some_iff.1 hb
        obtain ⟨⟨-, -, hnone⟩, rfl⟩ := addRequest_eq hc
        rw [ih hrest, List.mem_cons]
        obtain ⟨input, output, label, inPri, outPri⟩ := r
        obtain ⟨label', inPri', outPri'⟩ := q
        dsimp only at hnone ⊢
        by_cases heq : i = input
        · subst heq
          by_cases hout : j = output
          · subst hout
            simp [hnone, eq_comm]
          · simp [hout]
        · simp [heq]
  rw [hgen h, hempty]
  simp

/-- Some request of the round is for this cell. -/
def Asked (reqs : List RequestArgs) (i j : ℕ) : Prop := ∃ r ∈ reqs, r.input = i ∧ r.output = j

/-- The requests that the assertions of `AddRequest` allow in one round. -/
def Accepted (inputs outputs : ℕ) (reqs : List RequestArgs) : Prop :=
  (∀ r ∈ reqs, r.input < inputs ∧ r.output < outputs) ∧
    (reqs.map fun r => (r.input, r.output)).Nodup

instance (inputs outputs : ℕ) (reqs : List RequestArgs) : Decidable (Accepted inputs outputs reqs) :=
  inferInstanceAs (Decidable (_ ∧ _))

theorem addRequests_asked (hempty : a.request = fun _ _ => none) (h : a.addRequests reqs = some a')
    (i j : ℕ) : a'.request i j ≠ none ↔ Asked reqs i j := by
  rw [Option.ne_none_iff_exists']
  constructor
  · rintro ⟨q, hq⟩
    exact ⟨_, (addRequests_request hempty h i j q).1 hq, rfl, rfl⟩
  · rintro ⟨⟨i, j, label, inPri, outPri⟩, hr, rfl, rfl⟩
    exact ⟨⟨label, inPri, outPri⟩, (addRequests_request hempty h _ _ _).2 hr⟩

/-- No assertion fails. -/
theorem addRequests_isSome (hreqs : Accepted a.inputs a.outputs reqs) (hempty : a.request = fun _ _ => none) :
    ∃ a', a.addRequests reqs = some a' := by
  have hgen : ∀ {b : DenseAllocator}, b.inputs = a.inputs → b.outputs = a.outputs →
      (∀ r ∈ reqs, b.request r.input r.output = none) → ∃ a', b.addRequests reqs = some a' := by
    clear hempty
    induction reqs with
    | nil => exact fun _ _ _ => ⟨_, rfl⟩
    | cons r reqs ih =>
        intro b hin hout hnone
        obtain ⟨hlt, hnodup⟩ := hreqs
        rw [List.map_cons, List.nodup_cons] at hnodup
        have hr := hlt r List.mem_cons_self
        have hstep : b.addRequest r = some { b with
            request := update b.request r.input
              (update (b.request r.input) r.output (some ⟨r.label, r.inPri, r.outPri⟩))
            dirty := true } :=
          if_pos ⟨hin ▸ hr.1, hout ▸ hr.2, hnone r List.mem_cons_self⟩
        rw [addRequests, List.foldlM_cons, hstep]
        refine ih ⟨fun r' hr' => hlt r' (List.mem_cons_of_mem _ hr'), hnodup.2⟩ hin hout fun r' hr' => ?_
        have hold := hnone r' (List.mem_cons_of_mem _ hr')
        have hne : (r'.input, r'.output) ≠ (r.input, r.output) := fun heq =>
          hnodup.1 (by
            rw [← heq]
            exact List.mem_map.2 ⟨r', hr', rfl⟩)
        dsimp only
        by_cases heq : r'.input = r.input
        · have hother : r'.output ≠ r.output := fun h => hne (Prod.ext heq h)
          rw [heq, update_self, update_of_ne hother]
          exact heq ▸ hold
        · rwa [update_of_ne heq]
  exact hgen rfl rfl fun r _ => by rw [hempty]

/-- A round that asked for something leaves a trace. -/
theorem addRequests_dirty (h : a.addRequests reqs = some a') (hnil : reqs ≠ []) : a'.dirty = true := by
  induction reqs generalizing a with
  | nil => exact absurd rfl hnil
  | cons r reqs ih =>
      rw [addRequests, List.foldlM_cons] at h
      obtain ⟨b, hb, hrest⟩ := Option.bind_eq_some_iff.1 h
      obtain ⟨-, rfl⟩ := addRequest_eq hb
      cases reqs with
      | nil =>
          obtain rfl := Option.some.inj hrest
          rfl
      | cons r' reqs => exact ih hrest (by simp)

end DenseAllocator

end CompressionWork.Icnt
