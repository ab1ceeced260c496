import CompressionWork.Icnt.Allocator
import CompressionWork.Transition.Loop
import Mathlib

/-!
# The iSLIP allocator

`islip.cpp` matches inputs and outputs in a number of iterations.  In each of them every free output grants
one free input that requests it, and every input accepts one of its grants; both go round from a pointer.

* `SparseAllocator` — the requests by input and by output, each sorted by the other port.
* `IslipSparse` — the pointers, an iteration, the loop over the iterations.
* `iteration_spec` — an iteration keeps the matching, and adds to it unless no request can be added.
* `run_islip` — **the grants are a matching**, and with as many iterations as there are ports on the smaller
  side no request can be added to it.
-/

namespace CompressionWork.Icnt

open Function CompressionWork.Graph DenseAllocator Transition

/-- `SparseAllocator`; each map is a list in the order of its keys, which are the ports. -/
structure SparseAllocator where
  inputs : ℕ
  outputs : ℕ
  inReq : ℕ → List (ℕ × SRequest) := fun _ => []
  outReq : ℕ → List (ℕ × SRequest) := fun _ => []
  inOcc : Finset ℕ := ∅
  outOcc : Finset ℕ := ∅
  inmatch : ℕ → Option ℕ := fun _ => none
  outmatch : ℕ → Option ℕ := fun _ => none
  dirty : Bool := false

/-- A new key of a map. -/
def insertPort (port : ℕ) (req : SRequest) : List (ℕ × SRequest) → List (ℕ × SRequest)
  | [] => [(port, req)]
  | e :: l => if port < e.1 then (port, req) :: e :: l else e :: insertPort port req l

namespace SparseAllocator

/-- `Clear` -/
def clear (a : SparseAllocator) : SparseAllocator :=
  let b := { a with inReq := fun _ => [], outReq := fun _ => [], inOcc := ∅, outOcc := ∅ }
  if a.dirty then { b with inmatch := fun _ => none, outmatch := fun _ => none, dirty := false } else b

/-- `AddRequest` -/
def addRequest (a : SparseAllocator) (r : RequestArgs) : Option SparseAllocator :=
  if r.input < a.inputs ∧ r.output < a.outputs ∧ r.output ∉ (a.inReq r.input).map Prod.fst ∧
      r.input ∉ (a.outReq r.output).map Prod.fst then
    let req : SRequest := ⟨r.label, r.inPri, r.outPri⟩
    some { a with
      inReq := update a.inReq r.input (insertPort r.output req (a.inReq r.input))
      outReq := update a.outReq r.output (insertPort r.input req (a.outReq r.output))
      inOcc := insert r.input a.inOcc
      outOcc := insert r.output a.outOcc
      dirty := true }
  else none

end SparseAllocator

/-- `iSLIP_Sparse` -/
structure IslipSparse extends SparseAllocator where
  iters : ℕ
  gptrs : ℕ → ℕ := fun _ => 0
  aptrs : ℕ → ℕ := fun _ => 0

namespace IslipSparse

/-- The order in which the loops look at the ports: from the offset on, then from the first one.  The first
one is looked at again even if it is not below the offset. -/
def around (ports : List ℕ) (offset : ℕ) : List ℕ :=
  ports.dropWhile (· < offset) ++ (ports.take 1 ++ (ports.drop 1).takeWhile (· < offset))

/-- The grant phase. -/
def grants (a : IslipSparse) (output : ℕ) : Option ℕ :=
  if a.outputs ≤ output ∨ a.outReq output = [] ∨ a.outmatch output ≠ none then none
  else (around ((a.outReq output).map Prod.fst) (a.gptrs output)).find? fun input => a.inmatch input = none

/-- One round of the accept phase. -/
def accept (grants : ℕ → Option ℕ) (iter : ℕ) (a : IslipSparse) (input : ℕ) : IslipSparse :=
  if a.inReq input = [] then a
  else
    match (around ((a.inReq input).map Prod.fst) (a.aptrs input)).find? fun output => grants output = some input with
    | none => a
    | some output =>
      let b := { a with
        inmatch := update a.inmatch input (some output)
        outmatch := update a.outmatch output (some input) }
      if iter = 0 then
        { b with
          gptrs := update a.gptrs output ((input + 1) % a.inputs)
          aptrs := update a.aptrs input ((output + 1) % a.outputs) }
      else b

/-- One iteration: the inputs accept among the grants of the outputs. -/
def iteration (a : IslipSparse) (iter : ℕ) : IslipSparse :=
  (List.range a.inputs).foldl (accept a.grants iter) a

/-- `Allocate` -/
def allocate (a : IslipSparse) : IslipSparse := (List.range a.iters).foldl iteration a

/-- A cycle of the router: `Clear`, the requests, `Allocate`. -/
def round (a : IslipSparse) (reqs : List RequestArgs) : Option IslipSparse :=
  (reqs.foldlM SparseAllocator.addRequest a.toSparseAllocator.clear).map fun b =>
    allocate { a with toSparseAllocator := b }

/-- The constructor. -/
def new (inputs outputs iters : ℕ) : IslipSparse := { inputs, outputs, iters }

end IslipSparse

/-! ## The requests -/

variable {reqs : List RequestArgs} {r : RequestArgs} {i j : ℕ}

namespace SparseAllocator

variable {a b : SparseAllocator}

/-- The maps have the requests of the cycle, under both ports. -/
structure Loaded (a : SparseAllocator) (reqs : List RequestArgs) : Prop where
  inReq : ∀ i j, j ∈ (a.inReq i).map Prod.fst ↔ Asked reqs i j
  outReq : ∀ i j, i ∈ (a.outReq j).map Prod.fst ↔ Asked reqs i j

/-- Nothing is matched unless the allocator is dirty. -/
def Clean (a : SparseAllocator) : Prop := a.dirty = false → a.inmatch = (fun _ => none) ∧ a.outmatch = fun _ => none

theorem mem_insertPort (port : ℕ) (req : SRequest) (l : List (ℕ × SRequest)) (p : ℕ) :
    p ∈ (insertPort port req l).map Prod.fst ↔ p = port ∨ p ∈ l.map Prod.fst := by
  induction l with
  | nil => simp [insertPort]
  | cons e l ih =>
    rw [insertPort]
    split_ifs
    · simp
    · rw [List.map_cons, List.mem_cons, ih, List.map_cons, List.mem_cons]
      tauto

theorem asked_concat : Asked (reqs ++ [r]) i j ↔ Asked reqs i j ∨ r.input = i ∧ r.output = j := by
  simp only [Asked, List.mem_append, List.mem_singleton]
  constructor
  · rintro ⟨r', hr' | rfl, h⟩
    · exact .inl ⟨r', hr', h⟩
    · exact .inr h
  · rintro (⟨r', hr', h⟩ | h)
    · exact ⟨r', .inl hr', h⟩
    · exact ⟨r, .inr rfl, h⟩

theorem clear_spec (h : a.Clean) : a.clear.inputs = a.inputs ∧ a.clear.outputs = a.outputs ∧
    a.clear.Loaded [] ∧ a.clear.inmatch = (fun _ => none) ∧ a.clear.outmatch = (fun _ => none) := by
  unfold clear
  dsimp only
  split_ifs with hdirty
  · exact ⟨rfl, rfl, ⟨fun i j => by simp [Asked], fun i j => by simp [Asked]⟩, rfl, rfl⟩
  · obtain ⟨hin, hout⟩ := h (by simpa using hdirty)
    exact ⟨rfl, rfl, ⟨fun i j => by simp [Asked], fun i j => by simp [Asked]⟩, hin, hout⟩

/-- By induction on the requests. -/
theorem addAll_spec (ha : a.Loaded []) (hreqs : Accepted a.inputs a.outputs reqs) :
    ∃ b, reqs.foldlM addRequest a = some b ∧ b.Loaded reqs ∧ b.inputs = a.inputs ∧ b.outputs = a.outputs ∧
      b.inmatch = a.inmatch ∧ b.outmatch = a.outmatch ∧ (reqs ≠ [] → b.dirty = true) := by
  induction reqs using List.reverseRecOn with
  | nil => exact ⟨a, rfl, ha, rfl, rfl, rfl, rfl, fun h => absurd rfl h⟩
  | append_singleton reqs r ih =>
    obtain ⟨hinside, hnodup⟩ := hreqs
    rw [List.map_append, List.nodup_append] at hnodup
    obtain ⟨b, hb, hl, hinputs, houtputs, hin, hout, -⟩ :=
      ih ⟨fun r' hr' => hinside r' (List.mem_append_left _ hr'), hnodup.1⟩
    have hr := hinside r (List.mem_append_right _ List.mem_cons_self)
    have hnew : ¬ Asked reqs r.input r.output := by
      rintro ⟨r', hr', heq, heq'⟩
      exact hnodup.2.2 _ (List.mem_map_of_mem hr') _ (List.mem_map_of_mem List.mem_cons_self)
        (by rw [heq, heq'])
    have hfold : (reqs ++ [r]).foldlM addRequest a = some { b with
        inReq := update b.inReq r.input (insertPort r.output ⟨r.label, r.inPri, r.outPri⟩ (b.inReq r.input))
        outReq := update b.outReq r.output (insertPort r.input ⟨r.label, r.inPri, r.outPri⟩ (b.outReq r.output))
        inOcc := insert r.input b.inOcc
        outOcc := insert r.output b.outOcc
        dirty := true } := by
      rw [foldlM_concat, hb, Option.bind_some]
      exact if_pos ⟨by omega, by omega, fun h => hnew ((hl.inReq _ _).1 h), fun h => hnew ((hl.outReq _ _).1 h)⟩
    refine ⟨_, hfold, ⟨fun i j => ?_, fun i j => ?_⟩, hinputs, houtputs, hin, hout, fun _ => rfl⟩
    · rw [asked_concat, ← hl.inReq]
      by_cases heq : i = r.input
      · subst heq
        simp only [update_self, mem_insertPort, true_and, eq_comm, or_comm]
      · simp only [update_of_ne heq, Ne.symm heq, false_and, or_false]
    · rw [asked_concat, ← hl.outReq]
      by_cases heq : j = r.output
      · subst heq
        simp only [update_self, mem_insertPort, and_true, eq_comm, or_comm]
      · simp only [update_of_ne heq, Ne.symm heq, and_false, or_false]

end SparseAllocator

/-! ## An iteration -/

namespace IslipSparse

variable {a a' : IslipSparse} {iter : ℕ}

theorem mem_around (ports : List ℕ) (offset p : ℕ) : p ∈ around ports offset ↔ p ∈ ports := by
  rw [around, List.mem_append, List.mem_append]
  constructor
  · rintro (h | h | h)
    · exact (List.dropWhile_sublist _).subset h
    · exact List.mem_of_mem_take h
    · exact List.mem_of_mem_drop ((List.takeWhile_sublist _).subset h)
  · intro h
    cases ports with
    | nil => simp at h
    | cons q ports =>
      rcases List.mem_cons.1 h with rfl | h
      · exact .inr (.inl (by simp))
      · rw [← List.takeWhile_append_dropWhile (p := (· < offset)) (l := ports), List.mem_append] at h
        rcases h with h | h
        · exact .inr (.inr h)
        · refine .inl ?_
          rw [List.dropWhile_cons]
          split_ifs
          · exact h
          · exact List.mem_cons_of_mem _ ((List.dropWhile_sublist _).subset h)

/-- A grant is for a free input that requests the free output. -/
theorem grants_spec (hl : a.Loaded reqs) (h : a.grants j = some i) :
    Asked reqs i j ∧ a.inmatch i = none ∧ a.outmatch j = none := by
  unfold grants at h
  split_ifs at h with hskip
  rw [not_or, not_or, not_not] at hskip
  have hmem := List.mem_of_find?_eq_some h
  rw [mem_around, hl.outReq] at hmem
  exact ⟨hmem, by simpa using List.find?_some h, hskip.2.2⟩

/-- A free output that a free input requests grants something. -/
theorem exists_grant (hl : a.Loaded reqs) (hj : j < a.outputs) (h : Asked reqs i j) (hin : a.inmatch i = none)
    (hout : a.outmatch j = none) : ∃ i', a.grants j = some i' := by
  have hmem : i ∈ (a.outReq j).map Prod.fst := (hl.outReq i j).2 h
  have hne : a.outReq j ≠ [] := fun hnil => by simp [hnil] at hmem
  rw [← Option.isSome_iff_exists, grants, if_neg (by
    rw [not_or, not_or, not_not]
    exact ⟨by omega, hne, hout⟩), List.find?_isSome]
  exact ⟨i, (mem_around _ _ _).2 hmem, by simpa using hin⟩

/-- What the loops leave alone. -/
structure Same (a b : IslipSparse) : Prop where
  inputs : b.inputs = a.inputs
  outputs : b.outputs = a.outputs
  inReq : b.inReq = a.inReq
  outReq : b.outReq = a.outReq
  iters : b.iters = a.iters
  dirty : b.dirty = a.dirty

theorem Same.loaded (h : Same a a') (hl : a.Loaded reqs) : a'.Loaded reqs :=
  ⟨fun i j => by rw [h.inReq, hl.inReq], fun i j => by rw [h.outReq, hl.outReq]⟩

theorem Same.trans {b : IslipSparse} (h : Same a a') (h' : Same a' b) : Same a b :=
  ⟨h'.inputs.trans h.inputs, h'.outputs.trans h.outputs, h'.inReq.trans h.inReq, h'.outReq.trans h.outReq,
    h'.iters.trans h.iters, h'.dirty.trans h.dirty⟩

/-- The accept phase after `c` inputs, from the state `a` with these grants. -/
structure Accepting (a : IslipSparse) (reqs : List RequestArgs) (c : ℕ) (b : IslipSparse) : Prop where
  same : Same a b
  matching : IsMatching (Asked reqs) b.inmatch b.outmatch
  keeps : ∀ i j, a.inmatch i = some j → b.inmatch i = some j
  later : ∀ i, c ≤ i → b.inmatch i = a.inmatch i
  taken : ∀ j, b.outmatch j = a.outmatch j ∨ ∃ i < c, a.grants j = some i
  served : ∀ i < c, (∃ j, a.grants j = some i) → b.inmatch i ≠ none

/-- **One accept**: an input that has a grant takes one. -/
theorem accept_spec (hl : a.Loaded reqs) {b : IslipSparse} (h : Accepting a reqs i b) :
    Accepting a reqs (i + 1) (accept a.grants iter b i) := by
  have hbl := h.same.loaded hl
  have hrest : (∀ j, a.grants j ≠ some i) → Accepting a reqs (i + 1) b := fun hno =>
    ⟨h.same, h.matching, h.keeps, fun i' hi' => h.later i' (by omega),
      fun j => (h.taken j).imp id (Exists.imp fun i' hg => ⟨by omega, hg.2⟩), fun i' hi' hg => by
        rcases Nat.lt_succ_iff_lt_or_eq.1 hi' with hlt | rfl
        · exact h.served i' hlt hg
        · obtain ⟨j, hj⟩ := hg
          exact absurd hj (hno j)⟩
  unfold accept
  by_cases hnil : b.inReq i = []
  · rw [if_pos hnil]
    refine hrest fun j hj => ?_
    have hmem := (hbl.inReq i j).2 (grants_spec hl hj).1
    simp [hnil] at hmem
  · rw [if_neg hnil]
    cases hfind : (around ((b.inReq i).map Prod.fst) (b.aptrs i)).find? fun output => a.grants output = some i with
    | none =>
      refine hrest fun j hj => ?_
      have hno := List.find?_eq_none.1 hfind j ((mem_around _ _ _).2 ((hbl.inReq i j).2 (grants_spec hl hj).1))
      simp [hj] at hno
    | some j =>
      have hgrant : a.grants j = some i := by simpa using List.find?_some hfind
      obtain ⟨hasked, hin, hout⟩ := grants_spec hl hgrant
      have hfree : b.inmatch i = none := (h.later i le_rfl).trans hin
      have hopen : b.outmatch j = none := by
        rcases h.taken j with heq | ⟨i', hi', hg⟩
        · rw [heq, hout]
        · rw [hgrant, Option.some.injEq] at hg
          omega
      have hmatching : IsMatching (Asked reqs) (update b.inmatch i (some j)) (update b.outmatch j (some i)) :=
        IsMatching.add (by rw [← hopen, update_eq_self]; exact h.matching) hasked hfree
      have hdone : ∀ c : IslipSparse, Same b c → c.inmatch = update b.inmatch i (some j) →
          c.outmatch = update b.outmatch j (some i) → Accepting a reqs (i + 1) c := fun c hsame hcin hcout => by
        refine ⟨h.same.trans hsame, by rw [hcin, hcout]; exact hmatching, fun i' j' hold => ?_, fun i' hi' => ?_,
          fun j' => ?_, fun i' hi' hg => ?_⟩
        · rw [hcin, update_of_ne (by
            rintro rfl
            simp [hin] at hold)]
          exact h.keeps i' j' hold
        · rw [hcin, update_of_ne (by omega)]
          exact h.later i' (by omega)
        · by_cases heq : j' = j
          · exact .inr ⟨i, by omega, by rw [heq, hgrant]⟩
          · rw [hcout, update_of_ne heq]
            exact (h.taken j').imp id (Exists.imp fun i' hg => ⟨by omega, hg.2⟩)
        · rw [hcin]
          by_cases heq : i' = i
          · simp [heq]
          · rw [update_of_ne heq]
            exact h.served i' (by omega) hg
      dsimp only
      split_ifs
      · exact hdone _ ⟨rfl, rfl, rfl, rfl, rfl, rfl⟩ rfl rfl
      · exact hdone _ ⟨rfl, rfl, rfl, rfl, rfl, rfl⟩ rfl rfl

/-- No request can be added to the matching. -/
def Maximal (a : IslipSparse) (reqs : List RequestArgs) : Prop :=
  ∀ i j, Asked reqs i j → a.inmatch i ≠ none ∨ a.outmatch j ≠ none

variable (iter) in
/-- **An iteration** keeps the grants there are, and adds one unless no request can be added. -/
theorem iteration_spec (hreqs : Accepted a.inputs a.outputs reqs) (hl : a.Loaded reqs)
    (hm : IsMatching (Asked reqs) a.inmatch a.outmatch) :
    Same a (iteration a iter) ∧ IsMatching (Asked reqs) (iteration a iter).inmatch (iteration a iter).outmatch ∧
      (∀ i j, a.inmatch i = some j → (iteration a iter).inmatch i = some j) ∧
      (¬ a.Maximal reqs → size (Finset.range a.inputs) a.inmatch <
        size (Finset.range a.inputs) (iteration a iter).inmatch) := by
  have hend : Accepting a reqs a.inputs (iteration a iter) :=
    foldl_range (Accepting a reqs) a.inputs
      ⟨⟨rfl, rfl, rfl, rfl, rfl, rfl⟩, hm, fun _ _ h => h, fun _ _ => rfl, fun _ => .inl rfl, fun i hi => by omega⟩
      fun i b _ hb => accept_spec hl hb
  refine ⟨hend.same, hend.matching, hend.keeps, fun hmore => ?_⟩
  simp only [Maximal, not_forall, not_or, not_not] at hmore
  obtain ⟨i, j, hasked, hin, hout⟩ := hmore
  have hinside : ∀ {i j}, Asked reqs i j → i < a.inputs ∧ j < a.outputs := fun h => by
    obtain ⟨r, hr, rfl, rfl⟩ := h
    exact hreqs.1 r hr
  obtain ⟨i', hgrant⟩ := exists_grant hl (hinside hasked).2 hasked hin hout
  obtain ⟨hasked', hin', -⟩ := grants_spec hl hgrant
  have hi' := (hinside hasked').1
  have hserved := hend.served i' hi' ⟨j, hgrant⟩
  refine Finset.card_lt_card (Finset.ssubset_iff_of_subset (fun x hx => ?_) |>.2 ⟨i', ?_, ?_⟩)
  · obtain ⟨hmem, hsome⟩ := Finset.mem_filter.1 hx
    obtain ⟨y, hy⟩ := Option.isSome_iff_exists.1 hsome
    exact Finset.mem_filter.2 ⟨hmem, by rw [hend.keeps x y hy]; rfl⟩
  · exact Finset.mem_filter.2 ⟨Finset.mem_range.2 hi', Option.isSome_iff_ne_none.2 hserved⟩
  · simp [hin']

/-! ## The loop over the iterations -/

/-- By induction on the iterations: each of them adds a grant until none can be added. -/
theorem iterations_spec (n : ℕ) (hreqs : Accepted a.inputs a.outputs reqs) (hl : a.Loaded reqs)
    (hm : IsMatching (Asked reqs) a.inmatch a.outmatch) :
    ∃ b, (List.range n).foldl iteration a = b ∧ Same a b ∧ IsMatching (Asked reqs) b.inmatch b.outmatch ∧
      (b.Maximal reqs ∨ n ≤ size (Finset.range a.inputs) b.inmatch) := by
  induction n with
  | zero => exact ⟨a, rfl, ⟨rfl, rfl, rfl, rfl, rfl, rfl⟩, hm, .inr (Nat.zero_le _)⟩
  | succ n ih =>
    obtain ⟨b, hb, hsame, hbm, hprogress⟩ := ih
    obtain ⟨hsame', hbm', hkeeps, hadds⟩ := iteration_spec n (by rwa [hsame.inputs, hsame.outputs])
      (hsame.loaded hl) hbm
    refine ⟨iteration b n, by rw [List.range_succ, List.foldl_append, hb]; rfl, hsame.trans hsame', hbm', ?_⟩
    by_cases hmax : b.Maximal reqs
    · refine .inl fun i j hij => ?_
      rcases hmax i j hij with hi | hj
      · obtain ⟨y, hy⟩ := Option.ne_none_iff_exists'.1 hi
        exact .inl (by simp [hkeeps i y hy])
      · obtain ⟨x, hx⟩ := Option.ne_none_iff_exists'.1 hj
        exact .inr (by simp [(hbm'.granted x j (hkeeps x j (hbm.matched x j hx))).2])
    · have hmore := hadds hmax
      rw [hsame.inputs] at hmore
      exact .inr (by have := hprogress.resolve_left hmax; omega)

/-- A cycle with requests that the assertions allow. -/
theorem round_spec (hclean : a.toSparseAllocator.Clean) (hreqs : Accepted a.inputs a.outputs reqs) :
    ∃ b, a.round reqs = some b ∧ b.toSparseAllocator.Clean ∧ b.inputs = a.inputs ∧ b.outputs = a.outputs ∧
      b.iters = a.iters ∧ IsMatching (Asked reqs) b.inmatch b.outmatch ∧
      (b.Maximal reqs ∨ a.iters ≤ size (Finset.range a.inputs) b.inmatch) := by
  obtain ⟨hinputs, houtputs, hnil, hin, hout⟩ := SparseAllocator.clear_spec hclean
  obtain ⟨c, hc, hl, hcinputs, hcoutputs, hcin, hcout, hdirty⟩ :=
    SparseAllocator.addAll_spec hnil (by rwa [hinputs, houtputs])
  have hstart : IsMatching (Asked reqs) c.inmatch c.outmatch := by
    rw [hcin, hcout, hin, hout]
    exact .empty
  have hsizes : Accepted c.inputs c.outputs reqs := by rwa [hcinputs, hcoutputs, hinputs, houtputs]
  obtain ⟨b, hb, hsame, hm, hprogress⟩ :=
    iterations_spec (a := { a with toSparseAllocator := c }) a.iters hsizes hl hstart
  refine ⟨b, ?_, fun hfalse => ?_, hsame.inputs.trans (hcinputs.trans hinputs),
    hsame.outputs.trans (hcoutputs.trans houtputs), hsame.iters, hm, ?_⟩
  · rw [round, hc, Option.map_some]
    exact congrArg some hb
  · -- without a request there is nothing to match
    have hempty : reqs = [] := by
      by_contra hne
      rw [hsame.dirty, hdirty hne] at hfalse
      cases hfalse
    have hnone : ∀ i, b.inmatch i = none := fun i => Option.eq_none_iff_forall_ne_some.2 fun j hij => by
      obtain ⟨⟨r, hr, -⟩, -⟩ := hm.granted i j hij
      simp [hempty] at hr
    refine ⟨funext hnone, funext fun j => Option.eq_none_iff_forall_ne_some.2 fun i hij => ?_⟩
    have hback := hm.matched i j hij
    rw [hnone i] at hback
    cases hback
  · rw [show c.inputs = a.inputs from hcinputs.trans hinputs] at hprogress
    exact hprogress

/-- **The iSLIP allocator**: in every run of cycles whose requests the assertions allow, the grants of the last
cycle are a matching of its requests, of at least as many grants as there are iterations unless no request can
be added to it; with as many iterations as ports on the smaller side none can, and no matching of the requests
has more than twice the size. -/
theorem run_islip (inputs outputs iters : ℕ) (before : List (List RequestArgs)) (reqs : List RequestArgs)
    (hreqs : ∀ reqs' ∈ before ++ [reqs], Accepted inputs outputs reqs') :
    ∃ a, (before ++ [reqs]).foldlM round (new inputs outputs iters) = some a ∧
      IsMatching (Asked reqs) a.inmatch a.outmatch ∧
      (a.Maximal reqs ∨ iters ≤ size (Finset.range inputs) a.inmatch) ∧
      (min inputs outputs ≤ iters → a.Maximal reqs ∧ ∀ inmatch outmatch,
        IsMatching (Asked reqs) inmatch outmatch →
          size (Finset.range inputs) inmatch ≤ 2 * size (Finset.range inputs) a.inmatch) := by
  have hrun : ∀ rounds : List (List RequestArgs), (∀ reqs' ∈ rounds, Accepted inputs outputs reqs') →
      ∃ a, rounds.foldlM round (new inputs outputs iters) = some a ∧ a.toSparseAllocator.Clean ∧
        a.inputs = inputs ∧ a.outputs = outputs ∧ a.iters = iters := by
    intro rounds
    induction rounds using List.reverseRecOn with
    | nil => exact fun _ => ⟨_, rfl, fun _ => ⟨rfl, rfl⟩, rfl, rfl, rfl⟩
    | append_singleton rounds last ih =>
      intro hall
      obtain ⟨a, ha, hclean, hin, hout, hiters⟩ := ih fun r hr => hall r (List.mem_append_left _ hr)
      have hlast := hall last (List.mem_append_right _ List.mem_cons_self)
      obtain ⟨b, hb, hclean', hin', hout', hiters', -⟩ := round_spec hclean (by rwa [hin, hout])
      exact ⟨b, by rw [foldlM_concat, ha, Option.bind_some, hb], hclean', by omega, by omega, by omega⟩
  obtain ⟨a, ha, hclean, hin, hout, hiters⟩ := hrun before fun r hr => hreqs r (List.mem_append_left _ hr)
  have hlast := hreqs reqs (List.mem_append_right _ List.mem_cons_self)
  obtain ⟨b, hb, -, hbin, hbout, -, hm, hprogress⟩ := round_spec hclean (by rwa [hin, hout])
  rw [hin, hiters] at hprogress
  have hinside : ∀ i j, Asked reqs i j → i ∈ Finset.range inputs ∧ j ∈ Finset.range outputs := fun i j h => by
    obtain ⟨r, hr, rfl, rfl⟩ := h
    exact ⟨Finset.mem_range.2 (hlast.1 r hr).1, Finset.mem_range.2 (hlast.1 r hr).2⟩
  refine ⟨b, by rw [foldlM_concat, ha, Option.bind_some, hb], hm, hprogress, fun henough => ?_⟩
  have hmax : b.Maximal reqs := by
    by_contra hmore
    have hle := hprogress.resolve_left hmore
    simp only [Maximal, not_forall, not_or, not_not] at hmore
    obtain ⟨i, j, hasked, hfree, hopen⟩ := hmore
    obtain ⟨hi, hj⟩ := hinside i j hasked
    -- the free ports are missing on either side
    have hinputs : size (Finset.range inputs) b.inmatch ≤ ((Finset.range inputs).erase i).card := by
      refine Finset.card_le_card fun x hx => ?_
      obtain ⟨hmem, hsome⟩ := Finset.mem_filter.1 hx
      refine Finset.mem_erase.2 ⟨?_, hmem⟩
      rintro rfl
      simp [hfree] at hsome
    have houtputs : size (Finset.range inputs) b.inmatch ≤ ((Finset.range outputs).erase j).card := by
      refine hm.card_le_of_partners fun x hx => ?_
      obtain ⟨y, hy⟩ := Option.isSome_iff_exists.1 (Finset.mem_filter.1 hx).2
      obtain ⟨hxy, hyx⟩ := hm.granted x y hy
      refine ⟨y, Finset.mem_erase.2 ⟨?_, (hinside x y hxy).2⟩, hy⟩
      rintro rfl
      simp [hopen] at hyx
    rw [Finset.card_erase_of_mem hi, Finset.card_range] at hinputs
    rw [Finset.card_erase_of_mem hj, Finset.card_range] at houtputs
    have := Finset.mem_range.1 hi
    have := Finset.mem_range.1 hj
    omega
  refine ⟨hmax, fun inmatch outmatch h' => hm.size_le_of_maximal (fun i _ j hij => hmax i j hij)
    (fun i j hij => (hinside i j hij).1) h'⟩

/-- Two inputs request the same output, and one of them another one, too. -/
def shared : List RequestArgs := [⟨0, 1, 0, 0, 0⟩, ⟨1, 1, 0, 0, 2⟩, ⟨1, 0, 0, 0, 1⟩]

theorem run_islip_shared : ∃ a, ([[], shared] ++ [shared]).foldlM round (new 2 3 2) = some a ∧
    IsMatching (Asked shared) a.inmatch a.outmatch ∧
    (a.Maximal shared ∨ 2 ≤ size (Finset.range 2) a.inmatch) ∧
    (min 2 3 ≤ 2 → a.Maximal shared ∧ ∀ inmatch outmatch, IsMatching (Asked shared) inmatch outmatch →
      size (Finset.range 2) inmatch ≤ 2 * size (Finset.range 2) a.inmatch) :=
  run_islip 2 3 2 [[], shared] shared (by decide)

end IslipSparse

end CompressionWork.Icnt
