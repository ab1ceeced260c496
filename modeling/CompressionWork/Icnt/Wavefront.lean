import CompressionWork.Icnt.Allocator
import Mathlib.Data.List.Sort
import Mathlib.Data.Prod.Lex

/-!
# The wavefront allocator

`wavefront.cpp` looks at the cells of the request matrix diagonal by diagonal, once for each pair of
priorities, the highest first, and grants what it can.

* `Wavefront.allocate` — the function, with its shortcut for a single request; `none` is a failed assertion.
* `mem_cells` — every cell is on some diagonal.
* `Granted` — the invariant: what was granted has at least the priority of the round.
* `run_wavefront` — **in every run of cycles** a request that is not granted loses to one that is, of at least
  its priority, and at least half as many requests are granted as could be.
-/

namespace CompressionWork.Icnt

open Function CompressionWork.Graph DenseAllocator

/-- `make_pair(out_pri, in_pri)` -/
def SRequest.pair (q : SRequest) : ℤ ×ₗ ℤ := toLex (q.outPri, q.inPri)

/-- The priorities of a request, the output's first. -/
def RequestArgs.pair (r : RequestArgs) : ℤ ×ₗ ℤ := toLex (r.outPri, r.inPri)

/-- The matching during an allocation, and `first_diag`. -/
structure Grants where
  inmatch : ℕ → Option ℕ
  outmatch : ℕ → Option ℕ
  firstDiag : Option ℕ := none

/-- `Wavefront`; the set of priorities is a list, the greatest first. -/
structure Wavefront extends DenseAllocator where
  skipDiags : Bool
  lastIn : Option ℕ := none
  lastOut : Option ℕ := none
  pri : ℕ := 0
  numRequests : ℕ := 0
  priorities : List (ℤ ×ₗ ℤ) := []

namespace Wavefront

/-! ## The source -/

/-- `_square` -/
def square (a : Wavefront) : ℕ := max a.inputs a.outputs

/-- `set::insert` -/
def insertPriority (p : ℤ ×ₗ ℤ) (ps : List (ℤ ×ₗ ℤ)) : List (ℤ ×ₗ ℤ) :=
  if p ∈ ps then ps else ps.orderedInsert (· ≥ ·) p

/-- `AddRequest` -/
def addRequest (a : Wavefront) (r : RequestArgs) : Option Wavefront :=
  (a.toDenseAllocator.addRequest r).map fun d =>
    { a with
      toDenseAllocator := d
      numRequests := a.numRequests + 1
      lastIn := some r.input
      lastOut := some r.output
      priorities := insertPriority r.pair a.priorities }

/-- The cells in the order of the two loops over diagonals and outputs. -/
def cells (a : Wavefront) : List (ℕ × ℕ) :=
  (List.range a.square).flatMap fun p => (List.range a.square).map fun output =>
    (((a.pri + p) + (a.square - output)) % a.square, output)

/-- A cell is granted when its ends are free and its request has the priority of the round. -/
def grant (a : DenseAllocator) (p : ℤ ×ₗ ℤ) (m : Grants) (c : ℕ × ℕ) : Grants :=
  if c.1 < a.inputs ∧ c.2 < a.outputs ∧ m.inmatch c.1 = none ∧ m.outmatch c.2 = none ∧
      (a.request c.1 c.2).map SRequest.pair = some p then
    { inmatch := update m.inmatch c.1 (some c.2)
      outmatch := update m.outmatch c.2 (some c.1)
      firstDiag := m.firstDiag.or (some (c.1 + c.2)) }
  else m

/-- The end of `Allocate`, with its assertion. -/
def finish (a : Wavefront) (m : Grants) : Option Wavefront :=
  m.firstDiag.map fun firstDiag =>
    { a with
      inmatch := m.inmatch
      outmatch := m.outmatch
      numRequests := 0
      lastIn := none
      lastOut := none
      priorities := []
      pri := ((if a.skipDiags then firstDiag else a.pri) + 1) % a.square }

/-- `Allocate` -/
def allocate (a : Wavefront) : Option Wavefront :=
  if a.numRequests = 0 then some a
  else if a.numRequests = 1 then
    a.lastIn.bind fun i => a.lastOut.bind fun j =>
      a.finish ⟨update a.inmatch i (some j), update a.outmatch j (some i), some (i + j)⟩
  else
    a.finish (a.priorities.foldl (fun m p => a.cells.foldl (grant a.toDenseAllocator p) m)
      ⟨a.inmatch, a.outmatch, none⟩)

/-- The requests of a cycle. -/
def addAll (a : Wavefront) (reqs : List RequestArgs) : Option Wavefront := reqs.foldlM addRequest a

/-- A cycle of the router: the allocator is cleared, gets requests, and allocates. -/
def round (a : Wavefront) (reqs : List RequestArgs) : Option Wavefront :=
  (addAll { a with toDenseAllocator := a.toDenseAllocator.clear } reqs).bind allocate

/-- A new allocator. -/
def new (inputs outputs : ℕ) (skipDiags : Bool) : Wavefront := { inputs, outputs, skipDiags }

/-! ## The priorities -/

section Priorities

variable {p q : ℤ ×ₗ ℤ} {ps : List (ℤ ×ₗ ℤ)}

theorem mem_insertPriority : q ∈ insertPriority p ps ↔ q = p ∨ q ∈ ps := by
  unfold insertPriority
  split
  · refine ⟨Or.inr, ?_⟩
    rintro (rfl | h)
    · assumption
    · exact h
  · exact List.mem_orderedInsert ..

theorem sorted_insertPriority (h : ps.Pairwise (· ≥ ·)) : (insertPriority p ps).Pairwise (· ≥ ·) := by
  unfold insertPriority
  split
  · exact h
  · exact h.orderedInsert p ps

end Priorities

/-! ## The diagonals -/

variable {a a' : Wavefront}

theorem mem_cells (hpri : a.pri < a.square) {i j : ℕ} (hi : i < a.inputs) (hj : j < a.outputs) :
    (i, j) ∈ a.cells := by
  have hi' : i < a.square := Nat.lt_of_lt_of_le hi (Nat.le_max_left ..)
  have hj' : j < a.square := Nat.lt_of_lt_of_le hj (Nat.le_max_right ..)
  unfold cells
  generalize a.square = sq at *
  refine List.mem_flatMap.2 ⟨(i + j + (sq - a.pri)) % sq, List.mem_range.2 (Nat.mod_lt _ (by omega)),
    List.mem_map.2 ⟨j, List.mem_range.2 hj', Prod.ext ?_ rfl⟩⟩
  dsimp only
  calc (a.pri + (i + j + (sq - a.pri)) % sq + (sq - j)) % sq
      = (a.pri + (i + j + (sq - a.pri)) + (sq - j)) % sq := by
        rw [Nat.add_right_comm, Nat.add_mod_mod, Nat.add_right_comm]
    _ = (i + sq + sq) % sq := by congr 1; omega
    _ = i := by rw [Nat.add_mod_right, Nat.add_mod_right, Nat.mod_eq_of_lt hi']

/-! ## The grants -/

section Grants

variable {d : DenseAllocator} {p : ℤ ×ₗ ℤ} {m m' : Grants} {cs : List (ℕ × ℕ)}

/-- What holds of the grants while requests of priority `p` are looked at. -/
structure Granted (d : DenseAllocator) (p : ℤ ×ₗ ℤ) (m : Grants) : Prop where
  matching : IsMatching d.Requests m.inmatch m.outmatch
  above : ∀ i j, m.inmatch i = some j → ∃ q, d.request i j = some q ∧ p ≤ q.pair
  noted : m.firstDiag = none → ∀ i, m.inmatch i = none

/-- Nothing is taken back. -/
def Keeps (m m' : Grants) : Prop :=
  (∀ i, m.inmatch i ≠ none → m'.inmatch i = m.inmatch i) ∧
    ∀ j, m.outmatch j ≠ none → m'.outmatch j = m.outmatch j

theorem Keeps.trans {m'' : Grants} (h : Keeps m m') (h' : Keeps m' m'') : Keeps m m'' :=
  ⟨fun i hi => (h'.1 i (by rwa [h.1 i hi])).trans (h.1 i hi),
    fun j hj => (h'.2 j (by rwa [h.2 j hj])).trans (h.2 j hj)⟩

/-- An end of the cell is taken. -/
def Taken (m : Grants) (c : ℕ × ℕ) : Prop := m.inmatch c.1 ≠ none ∨ m.outmatch c.2 ≠ none

theorem Keeps.taken (h : Keeps m m') {c : ℕ × ℕ} (hc : Taken m c) : Taken m' c :=
  hc.imp (fun hi => by rwa [h.1 _ hi]) fun hj => by rwa [h.2 _ hj]

/-- **One cell.** -/
theorem grant_spec (h : Granted d p m) (c : ℕ × ℕ) :
    Granted d p (grant d p m c) ∧ Keeps m (grant d p m c) ∧
      (c.1 < d.inputs → c.2 < d.outputs → (d.request c.1 c.2).map SRequest.pair = some p →
        Taken (grant d p m c) c) := by
  unfold grant
  split
  case isTrue hfree =>
    obtain ⟨-, -, hin, hout, hreq⟩ := hfree
    obtain ⟨q, hq, hpair⟩ := Option.map_eq_some_iff.1 hreq
    have hedge : d.Requests c.1 c.2 := by
      unfold Requests
      rw [hq]
      simp
    have hm : IsMatching d.Requests m.inmatch (update m.outmatch c.2 none) := by
      rw [← hout, update_eq_self]
      exact h.matching
    refine ⟨⟨hm.add hedge hin, fun i j hij => ?_, fun hnone => by cases hd : m.firstDiag <;> simp [hd] at hnone⟩,
      ⟨fun i hi => ?_, fun j hj => ?_⟩, fun _ _ _ => Or.inl ?_⟩
    · dsimp only at hij
      by_cases hic : i = c.1
      · subst hic
        rw [update_self, Option.some.injEq] at hij
        exact ⟨q, hij ▸ hq, hpair.ge⟩
      · rw [update_of_ne hic] at hij
        exact h.above i j hij
    · have hne : i ≠ c.1 := fun heq => hi (heq ▸ hin)
      exact update_of_ne hne ..
    · have hne : j ≠ c.2 := fun heq => hj (heq ▸ hout)
      exact update_of_ne hne ..
    · dsimp only
      rw [update_self]
      simp
  case isFalse hfree =>
    refine ⟨h, ⟨fun _ _ => rfl, fun _ _ => rfl⟩, fun hi hj hreq => ?_⟩
    by_contra hnot
    unfold Taken at hnot
    push Not at hnot
    exact hfree ⟨hi, hj, hnot.1, hnot.2, hreq⟩

/-- **One priority.** -/
theorem foldl_grant_spec (cs : List (ℕ × ℕ)) (h : Granted d p m) :
    Granted d p (cs.foldl (grant d p) m) ∧ Keeps m (cs.foldl (grant d p) m) ∧
      ∀ c ∈ cs, c.1 < d.inputs → c.2 < d.outputs → (d.request c.1 c.2).map SRequest.pair = some p →
        Taken (cs.foldl (grant d p) m) c := by
  induction cs generalizing m with
  | nil => exact ⟨h, ⟨fun _ _ => rfl, fun _ _ => rfl⟩, by simp⟩
  | cons c cs ih =>
      obtain ⟨hgranted, hkeeps, htaken⟩ := grant_spec h c
      obtain ⟨hgranted', hkeeps', htaken'⟩ := ih hgranted
      refine ⟨hgranted', hkeeps.trans hkeeps', fun x hx hi hj hreq => ?_⟩
      rcases List.mem_cons.1 hx with rfl | hx
      · exact hkeeps'.taken (htaken hi hj hreq)
      · exact htaken' x hx hi hj hreq

/-- A request of the cell `(i, j)` is granted, or loses to one that is granted. -/
def Settled (d : DenseAllocator) (m : Grants) (i j : ℕ) (p : ℤ ×ₗ ℤ) : Prop :=
  ∃ i' j' q, m.inmatch i' = some j' ∧ d.request i' j' = some q ∧ (i' = i ∨ j' = j) ∧ p ≤ q.pair

theorem Settled.keeps {i j : ℕ} (hkeeps : Keeps m m') (h : Settled d m i j p) : Settled d m' i j p := by
  obtain ⟨i', j', q, hin, hq, hshare, hle⟩ := h
  exact ⟨i', j', q, (hkeeps.1 i' (by simp [hin])).trans hin, hq, hshare, hle⟩

theorem Granted.settled (h : Granted d p m) {i j : ℕ} (htaken : Taken m (i, j)) : Settled d m i j p := by
  rcases htaken with hin | hout
  · obtain ⟨j', hj'⟩ := Option.ne_none_iff_exists'.1 hin
    obtain ⟨q, hq, hle⟩ := h.above i j' hj'
    exact ⟨i, j', q, hj', hq, Or.inl rfl, hle⟩
  · obtain ⟨i', hi'⟩ := Option.ne_none_iff_exists'.1 hout
    have hin := h.matching.matched i' j hi'
    obtain ⟨q, hq, hle⟩ := h.above i' j hin
    exact ⟨i', j, q, hin, hq, Or.inr rfl, hle⟩

/-- **All priorities**, by induction on the list of them. -/
theorem foldl_priorities (hinside : d.Inside) (hcells : ∀ i < d.inputs, ∀ j < d.outputs, (i, j) ∈ cs)
    {ps : List (ℤ ×ₗ ℤ)} (hsorted : ps.Pairwise (· ≥ ·)) (h : ∀ p ∈ ps, Granted d p m)
    (hm : IsMatching d.Requests m.inmatch m.outmatch) :
    IsMatching d.Requests (ps.foldl (fun m p => cs.foldl (grant d p) m) m).inmatch
        (ps.foldl (fun m p => cs.foldl (grant d p) m) m).outmatch ∧
      Keeps m (ps.foldl (fun m p => cs.foldl (grant d p) m) m) ∧
      ((m.firstDiag = none → ∀ i, m.inmatch i = none) →
        (ps.foldl (fun m p => cs.foldl (grant d p) m) m).firstDiag = none →
          ∀ i, (ps.foldl (fun m p => cs.foldl (grant d p) m) m).inmatch i = none) ∧
      ∀ i j q, d.request i j = some q → q.pair ∈ ps →
        Settled d (ps.foldl (fun m p => cs.foldl (grant d p) m) m) i j q.pair := by
  induction ps generalizing m with
  | nil => exact ⟨hm, ⟨fun _ _ => rfl, fun _ _ => rfl⟩, fun h => h, by simp⟩
  | cons p ps ih =>
      obtain ⟨hge, hsorted⟩ := List.pairwise_cons.1 hsorted
      obtain ⟨hgranted, hkeeps, htaken⟩ := foldl_grant_spec cs (h p List.mem_cons_self)
      have hrest : ∀ p' ∈ ps, Granted d p' (cs.foldl (grant d p) m) := by
        intro p' hp'
        refine ⟨hgranted.matching, fun i j hij => ?_, hgranted.noted⟩
        obtain ⟨q, hq, hle⟩ := hgranted.above i j hij
        exact ⟨q, hq, (hge p' hp').le.trans hle⟩
      obtain ⟨hmatching, hkeeps', hnoted, hsettled⟩ := ih hsorted hrest hgranted.matching
      refine ⟨hmatching, hkeeps.trans hkeeps', fun _ => hnoted hgranted.noted, fun i j q hq hmem => ?_⟩
      rcases List.mem_cons.1 hmem with heq | hmem
      · obtain ⟨hi, hj⟩ := hinside i j (by unfold Requests; rw [hq]; simp)
        have hcell := htaken (i, j) (hcells i hi j hj) hi hj (by rw [hq, Option.map_some, heq])
        exact Settled.keeps hkeeps' (heq ▸ hgranted.settled hcell)
      · exact hsettled i j q hq hmem

end Grants

/-! ## A cycle -/

/-- What holds between two cycles. -/
structure Idle (a : Wavefront) : Prop where
  pri : a.pri < a.square
  numRequests : a.numRequests = 0
  priorities : a.priorities = []
  clean : a.Clean

/-- What the requests of a cycle leave behind. -/
structure Loaded (a : Wavefront) (reqs : List RequestArgs) : Prop where
  count : a.numRequests = reqs.length
  last : ∀ r, reqs = [r] → a.lastIn = some r.input ∧ a.lastOut = some r.output
  sorted : a.priorities.Pairwise (· ≥ ·)
  priorities : ∀ r ∈ reqs, r.pair ∈ a.priorities

theorem Loaded.add {reqs : List RequestArgs} {r : RequestArgs} (h : Loaded a reqs)
    (ha : a.addRequest r = some a') : Loaded a' (reqs ++ [r]) := by
  obtain ⟨d, -, rfl⟩ := Option.map_eq_some_iff.1 ha
  refine ⟨?_, fun r' hr' => ?_, sorted_insertPriority h.sorted, fun r' hr' => ?_⟩
  · show a.numRequests + 1 = _
    rw [h.count, List.length_append, List.length_singleton]
  · obtain rfl : r = r' := by simpa using congrArg List.getLast? hr'
    exact ⟨rfl, rfl⟩
  · rw [List.mem_append, List.mem_singleton] at hr'
    exact mem_insertPriority.2 (hr'.symm.imp (fun heq => by rw [heq]) (h.priorities r'))

/-- The requests of a cycle, on the allocator and on the matrix alone. -/
theorem addAll_spec {d : DenseAllocator} {reqs : List RequestArgs}
    (hd : a.toDenseAllocator.addRequests reqs = some d) (hload : Loaded a []) :
    ∃ a', a.addAll reqs = some a' ∧ a'.toDenseAllocator = d ∧ a'.pri = a.pri ∧
      a'.skipDiags = a.skipDiags ∧ Loaded a' reqs := by
  induction reqs using List.reverseRecOn generalizing d with
  | nil =>
      obtain rfl := Option.some.inj hd
      exact ⟨a, rfl, rfl, rfl, rfl, hload⟩
  | append_singleton reqs r ih =>
      rw [addRequests, foldlM_concat] at hd
      obtain ⟨d', hd', hlast⟩ := Option.bind_eq_some_iff.1 hd
      obtain ⟨b, hb, rfl, hpri, hskip, hloaded⟩ := ih hd'
      have hstep : b.addRequest r = some { b with
          toDenseAllocator := d
          numRequests := b.numRequests + 1
          lastIn := some r.input
          lastOut := some r.output
          priorities := insertPriority r.pair b.priorities } := by
        rw [addRequest, hlast, Option.map_some]
      have hb' : reqs.foldlM addRequest a = some b := hb
      exact ⟨{ b with
          toDenseAllocator := d
          numRequests := b.numRequests + 1
          lastIn := some r.input
          lastOut := some r.output
          priorities := insertPriority r.pair b.priorities },
        by rw [addAll, foldlM_concat, hb', Option.bind_some, hstep], rfl, hpri, hskip, hloaded.add hstep⟩

/-- A request loses to a granted one, of at least its priority, at its input or its output. -/
def Answered (reqs : List RequestArgs) (inmatch : ℕ → Option ℕ) (r : RequestArgs) : Prop :=
  ∃ g ∈ reqs, inmatch g.input = some g.output ∧ (g.input = r.input ∨ g.output = r.output) ∧
    r.pair ≤ g.pair

/-- The result of an allocation. -/
structure Allocated (a a' : Wavefront) (reqs : List RequestArgs) : Prop where
  inputs : a'.inputs = a.inputs
  outputs : a'.outputs = a.outputs
  dirty : a'.dirty = a.dirty
  pri : a'.pri < a.square
  numRequests : a'.numRequests = 0
  priorities : a'.priorities = []
  matching : IsMatching (Asked reqs) a'.inmatch a'.outmatch
  answered : ∀ r ∈ reqs, Answered reqs a'.inmatch r

section Allocation

variable {reqs : List RequestArgs}

/-- The matrix holds the requests of the cycle. -/
def Holds (a : Wavefront) (reqs : List RequestArgs) : Prop :=
  ∀ i j q, a.request i j = some q ↔ ⟨i, j, q.label, q.inPri, q.outPri⟩ ∈ reqs

theorem Holds.request (h : Holds a reqs) {r : RequestArgs} (hr : r ∈ reqs) :
    a.request r.input r.output = some ⟨r.label, r.inPri, r.outPri⟩ := (h ..).2 hr

theorem Holds.requests (h : Holds a reqs) : a.Requests = Asked reqs := by
  funext i j
  refine propext ⟨fun hij => ?_, ?_⟩
  · obtain ⟨q, hq⟩ := Option.ne_none_iff_exists'.1 hij
    exact ⟨_, (h i j q).1 hq, rfl, rfl⟩
  · rintro ⟨r, hr, rfl, rfl⟩
    unfold Requests
    rw [h.request hr]
    simp

/-- A single request is granted at once. -/
theorem allocate_one {r : RequestArgs} (hpri : a.pri < a.square) (hload : Loaded a [r]) (hholds : Holds a [r])
    (hin : a.inmatch = fun _ => none) (hout : a.outmatch = fun _ => none) :
    ∃ a', a.allocate = some a' ∧ Allocated a a' [r] := by
  obtain ⟨hlastIn, hlastOut⟩ := hload.last r rfl
  have hm : IsMatching (Asked [r]) a.inmatch (update a.outmatch r.output none) := by
    rw [hin, hout, show update (fun _ => none : ℕ → Option ℕ) r.output none = fun _ => none from
      update_eq_self ..]
    exact .empty
  unfold allocate
  rw [if_neg (by rw [hload.count]; simp), if_pos (by rw [hload.count]; rfl), hlastIn, hlastOut]
  refine ⟨_, rfl, rfl, rfl, rfl, Nat.mod_lt _ (by omega), rfl, rfl, ?_, fun r' hr' => ?_⟩
  · exact hm.add ⟨r, List.mem_cons_self, rfl, rfl⟩ (by rw [hin])
  · obtain rfl := List.mem_singleton.1 hr'
    exact ⟨r', List.mem_cons_self, update_self .., Or.inl rfl, le_refl _⟩

/-- Several requests go through the diagonals. -/
theorem allocate_many (hpri : a.pri < a.square) (hload : Loaded a reqs) (htwo : 2 ≤ reqs.length)
    (hholds : Holds a reqs) (hinside : a.Inside) (hin : a.inmatch = fun _ => none)
    (hout : a.outmatch = fun _ => none) : ∃ a', a.allocate = some a' ∧ Allocated a a' reqs := by
  have hempty : IsMatching a.Requests a.inmatch a.outmatch := by
    rw [hin, hout]
    exact .empty
  have hstart : ∀ p ∈ a.priorities, Granted a.toDenseAllocator p ⟨a.inmatch, a.outmatch, none⟩ :=
    fun p _ => ⟨hempty, fun i j hij => by simp [hin] at hij, fun _ i => by simp [hin]⟩
  obtain ⟨hmatching, -, hnoted, hsettled⟩ := foldl_priorities hinside
    (show ∀ i < a.inputs, ∀ j < a.outputs, (i, j) ∈ a.cells from fun i hi j hj => mem_cells hpri hi hj)
    hload.sorted hstart hempty
  generalize hm : a.priorities.foldl (fun m p => a.cells.foldl (grant a.toDenseAllocator p) m)
    ⟨a.inmatch, a.outmatch, none⟩ = m at hmatching hnoted hsettled
  have hanswered : ∀ r ∈ reqs, Answered reqs m.inmatch r := by
    intro r hr
    obtain ⟨i', j', q, hg, hq, hshare, hle⟩ := hsettled r.input r.output ⟨r.label, r.inPri, r.outPri⟩
      (hholds.request hr) (hload.priorities r hr)
    exact ⟨_, (hholds i' j' q).1 hq, hg, hshare, hle⟩
  obtain ⟨firstDiag, hdiag⟩ : ∃ firstDiag, m.firstDiag = some firstDiag := by
    refine Option.ne_none_iff_exists'.1 fun hnone => ?_
    obtain ⟨r, hr⟩ := List.exists_mem_of_length_pos (l := reqs) (by omega)
    obtain ⟨g, -, hg, -⟩ := hanswered r hr
    rw [hnoted (fun _ i => by simp [hin]) hnone] at hg
    cases hg
  unfold allocate
  rw [if_neg (by rw [hload.count]; omega), if_neg (by rw [hload.count]; omega), hm, finish, hdiag]
  refine ⟨_, rfl, rfl, rfl, rfl, Nat.mod_lt _ (by omega), rfl, rfl, ?_, hanswered⟩
  rwa [← hholds.requests]

end Allocation

/-! ## Runs -/

theorem allocate_none (hpri : a.pri < a.square) (hload : Loaded a []) (hpriorities : a.priorities = [])
    (hin : a.inmatch = fun _ => none) (hout : a.outmatch = fun _ => none) :
    a.allocate = some a ∧ Allocated a a [] := by
  refine ⟨if_pos hload.count, rfl, rfl, rfl, hpri, hload.count, hpriorities, ?_, by simp⟩
  rw [hin, hout]
  exact .empty

/-- **A cycle** with requests that the assertions allow. -/
theorem round_spec (h : a.Idle) {reqs : List RequestArgs} (hreqs : Accepted a.inputs a.outputs reqs) :
    ∃ a', a.round reqs = some a' ∧ a'.Idle ∧ a'.inputs = a.inputs ∧ a'.outputs = a.outputs ∧
      IsMatching (Asked reqs) a'.inmatch a'.outmatch ∧ ∀ r ∈ reqs, Answered reqs a'.inmatch r := by
  obtain ⟨d, hd⟩ := addRequests_isSome (a := a.toDenseAllocator.clear)
    (show Accepted _ _ reqs by rwa [clear_inputs, clear_outputs]) (by simp)
  obtain ⟨hin, hout, hmin, hmout⟩ := addRequests_frame hd
  obtain ⟨hcin, hcout⟩ := h.clean.clear
  rw [clear_inputs] at hin
  rw [clear_outputs] at hout
  have hload : Loaded { a with toDenseAllocator := a.toDenseAllocator.clear } [] :=
    ⟨h.numRequests, fun r hr => by simp at hr, by simp [h.priorities], by simp⟩
  obtain ⟨b, hb, hbd, hpri, -, hloaded⟩ := addAll_spec (d := d) hd hload
  have hsquare : b.square = a.square := by
    show max b.toDenseAllocator.inputs b.toDenseAllocator.outputs = _
    rw [hbd, hin, hout]
    rfl
  have hbpri : b.pri < b.square := by
    rw [hsquare, hpri]
    exact h.pri
  have hbin : b.inmatch = fun _ => none := by rw [hbd, hmin, hcin]
  have hbout : b.outmatch = fun _ => none := by rw [hbd, hmout, hcout]
  have hholds : Holds b reqs := by
    unfold Holds
    rw [hbd]
    exact addRequests_request (by simp) hd
  have hinside : b.Inside := by
    rw [hbd]
    exact addRequests_inside (fun i j hij => by simp [Requests] at hij) hd
  have hround : a.round reqs = b.allocate := by rw [round, hb, Option.bind_some]
  have hdone : ∀ {a'}, Allocated b a' reqs → (a'.dirty = false → a'.inmatch = (fun _ => none) ∧
      a'.outmatch = fun _ => none) → a'.Idle ∧ a'.inputs = a.inputs ∧ a'.outputs = a.outputs ∧
      IsMatching (Asked reqs) a'.inmatch a'.outmatch ∧ ∀ r ∈ reqs, Answered reqs a'.inmatch r := by
    intro a' hall hclean
    have hsq : a'.square = b.square := by
      unfold square
      rw [hall.inputs, hall.outputs]
    refine ⟨⟨?_, hall.numRequests, hall.priorities, hclean⟩, ?_, ?_, hall.matching, hall.answered⟩
    · rw [hsq]
      exact hall.pri
    · rw [hall.inputs, hbd, hin]
    · rw [hall.outputs, hbd, hout]
  rw [hround]
  by_cases hnil : reqs = []
  · subst hnil
    have hbpriorities : b.priorities = [] := by
      obtain rfl := Option.some.inj hb
      exact h.priorities
    obtain ⟨hallocate, hall⟩ := allocate_none hbpri hloaded hbpriorities hbin hbout
    exact ⟨b, hallocate, hdone hall fun _ => ⟨hbin, hbout⟩⟩
  · have hdirty : b.dirty = true := by
      rw [hbd]
      exact addRequests_dirty hd hnil
    have hsome : ∃ a', b.allocate = some a' ∧ Allocated b a' reqs := by
      cases reqs with
      | nil => exact absurd rfl hnil
      | cons r rest =>
          cases rest with
          | nil => exact allocate_one hbpri hloaded hholds hbin hbout
          | cons r' rest => exact allocate_many hbpri hloaded (by simp) hholds hinside hbin hbout
    obtain ⟨a', ha', hall⟩ := hsome
    refine ⟨a', ha', hdone hall fun hfalse => ?_⟩
    rw [hall.dirty, hdirty] at hfalse
    cases hfalse

/-- **The wavefront allocator**: in every run of cycles whose requests the assertions allow, the grants of the
last cycle are a matching of its requests, every request is granted or loses to a granted one of at least its
priority, and no matching of the requests has more than twice the size. -/
theorem run_wavefront {inputs outputs : ℕ} (skipDiags : Bool) (hpos : 0 < max inputs outputs)
    (before : List (List RequestArgs)) (reqs : List RequestArgs)
    (hreqs : ∀ reqs' ∈ before ++ [reqs], Accepted inputs outputs reqs') :
    ∃ a, (before ++ [reqs]).foldlM round (new inputs outputs skipDiags) = some a ∧
      IsMatching (Asked reqs) a.inmatch a.outmatch ∧ (∀ r ∈ reqs, Answered reqs a.inmatch r) ∧
      ∀ inmatch outmatch, IsMatching (Asked reqs) inmatch outmatch →
        size (Finset.range inputs) inmatch ≤ 2 * size (Finset.range inputs) a.inmatch := by
  have hrun : ∀ rounds : List (List RequestArgs), (∀ reqs' ∈ rounds, Accepted inputs outputs reqs') →
      ∃ a, rounds.foldlM round (new inputs outputs skipDiags) = some a ∧ a.Idle ∧ a.inputs = inputs ∧
        a.outputs = outputs := by
    intro rounds
    induction rounds using List.reverseRecOn with
    | nil => exact fun _ => ⟨_, rfl, ⟨hpos, rfl, rfl, fun _ => ⟨rfl, rfl⟩⟩, rfl, rfl⟩
    | append_singleton rounds last ih =>
        intro hall
        obtain ⟨a, ha, hidle, hin, hout⟩ := ih fun r hr => hall r (List.mem_append_left _ hr)
        have hlast := hall last (List.mem_append_right _ List.mem_cons_self)
        obtain ⟨a', ha', hidle', hin', hout', -⟩ := round_spec hidle (show Accepted _ _ last by rwa [hin, hout])
        exact ⟨a', by rw [foldlM_concat, ha, Option.bind_some, ha'], hidle', by omega, by omega⟩
  obtain ⟨a, ha, hidle, hin, hout⟩ := hrun before fun r hr => hreqs r (List.mem_append_left _ hr)
  have hlast := hreqs reqs (List.mem_append_right _ List.mem_cons_self)
  obtain ⟨a', ha', -, -, -, hm, hanswered⟩ := round_spec hidle (show Accepted _ _ reqs by rwa [hin, hout])
  refine ⟨a', by rw [foldlM_concat, ha, Option.bind_some, ha'], hm, hanswered, fun inmatch outmatch h' => ?_⟩
  refine hm.size_le_of_maximal (fun i _ j hij => ?_) (fun i j hij => ?_) h'
  · obtain ⟨r, hr, rfl, rfl⟩ := hij
    obtain ⟨g, -, hg, hshare, -⟩ := hanswered r hr
    rcases hshare with heq | heq
    · exact Or.inl (by rw [← heq, hg]; simp)
    · exact Or.inr (by rw [← heq, (hm.granted _ _ hg).2]; simp)
  · obtain ⟨r, hr, rfl, rfl⟩ := hij
    exact Finset.mem_range.2 (hlast.1 r hr).1

/-- Two inputs want the same output, one of them with a higher priority. -/
def contention : List RequestArgs := [⟨0, 1, 0, 0, 0⟩, ⟨1, 1, 0, 0, 2⟩, ⟨1, 0, 0, 0, 1⟩]

theorem run_wavefront_contention : ∃ a, ([[], contention] ++ [contention]).foldlM round (new 2 3 true) = some a ∧
    IsMatching (Asked contention) a.inmatch a.outmatch ∧ (∀ r ∈ contention, Answered contention a.inmatch r) ∧
    ∀ inmatch outmatch, IsMatching (Asked contention) inmatch outmatch →
      size (Finset.range 2) inmatch ≤ 2 * size (Finset.range 2) a.inmatch :=
  run_wavefront true (by decide) [[], contention] contention (by decide)

end Wavefront

end CompressionWork.Icnt
