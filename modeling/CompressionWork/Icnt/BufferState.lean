import Mathlib

/-!
# Buffer states of a router

What a router knows of the input buffer at the other end of a channel (`buffer_state.cpp`), for the policies
`private`, `shared`, `limited` and `dynamic`.  A virtual channel is taken for a packet, flits are sent on it,
credits come back.

* `BufferConfig`, `BufferState` — the configuration and the counters.
* `Charged` — the slots of the private and shared pools, and the virtual channels that they are charged to.
* `Coherent` — the counters agree with each other.
* `takeBuffer_coherent`, `sendingFlit_coherent`, `processCredit_coherent` — **no operation fails** where its
  caller keeps the rules, and all of them keep the counters coherent.

`Error` and a failed assertion are `none`, as is -1 in `_in_use_by`.  Multicast is off.
-/

namespace CompressionWork.Icnt

open Function

/-- A flit, as far as buffers look at it. -/
structure Flit where
  id : ℕ
  pid : ℕ
  vc : ℕ
  tail : Bool
  deriving DecidableEq, Repr

/-- `buffer_policy` -/
inductive BufferPolicy
  | privateBuffer
  | sharedBuffer
  | limitedSharedBuffer
  | dynamicLimitedSharedBuffer
  deriving DecidableEq, Repr

/-- What the buffer policies read of the configuration. -/
structure BufferConfig where
  numVcs : ℕ
  bufSize : ℤ
  vcBufSize : ℤ
  waitForTailCredit : Bool
  policy : BufferPolicy
  privateBufs : ℕ
  privateBufSize : ℕ → ℤ
  privateBufVcMap : ℕ → ℕ
  maxHeldSlots : ℤ

namespace BufferConfig

/-- `_size` -/
def size (cfg : BufferConfig) : ℤ :=
  if cfg.bufSize < 0 then cfg.numVcs * cfg.vcBufSize else cfg.bufSize

/-- `_vc_buf_size` of the private policy. -/
def vcSize (cfg : BufferConfig) : ℤ :=
  if cfg.bufSize ≤ 0 then cfg.vcBufSize else cfg.bufSize.tdiv cfg.numVcs

/-- `_shared_buf_size`: what the private buffers leave. -/
def sharedBufSize (cfg : BufferConfig) : ℤ :=
  cfg.size - ∑ i ∈ Finset.range cfg.privateBufs, cfg.privateBufSize i

/-- `_max_held_slots` after the constructors. -/
def heldSlots (cfg : BufferConfig) : ℤ :=
  if cfg.policy = .dynamicLimitedSharedBuffer ∨ cfg.maxHeldSlots < 0 then cfg.size else cfg.maxHeldSlots

/-- The policies that count the virtual channels in use. -/
def limits (cfg : BufferConfig) : Bool :=
  cfg.policy = .limitedSharedBuffer ∨ cfg.policy = .dynamicLimitedSharedBuffer

end BufferConfig

/-- `BufferState`, with the fields of its buffer policy. -/
structure BufferState where
  occupancy : ℤ := 0
  vcOccupancy : ℕ → ℤ := fun _ => 0
  inUseBy : ℕ → Option ℕ := fun _ => none
  tailSent : ℕ → Bool := fun _ => false
  privateBufOccupancy : ℕ → ℤ := fun _ => 0
  sharedBufOccupancy : ℤ := 0
  reservedSlots : ℕ → ℕ := fun _ => 0
  activeVcs : ℤ := 0
  maxHeldSlots : ℤ

namespace BufferState

variable (cfg : BufferConfig)

/-- `IsAvailableFor`. -/
def isAvailableFor (s : BufferState) (vc : ℕ) : Bool := s.inUseBy vc = none

/-- `IsEmptyFor`. -/
def isEmptyFor (s : BufferState) (vc : ℕ) : Bool := s.vcOccupancy vc = 0

/-- `SharedBufferPolicy::IsFullFor` -/
def sharedFull (s : BufferState) (vc : ℕ) : Bool :=
  s.reservedSlots vc = 0 ∧
    cfg.privateBufSize (cfg.privateBufVcMap vc) ≤ s.privateBufOccupancy (cfg.privateBufVcMap vc) ∧
    cfg.sharedBufSize ≤ s.sharedBufOccupancy

/-- `IsFullFor` -/
def isFullFor (s : BufferState) (vc : ℕ) : Bool :=
  match cfg.policy with
  | .privateBuffer => cfg.vcSize ≤ s.vcOccupancy vc
  | .sharedBuffer => s.sharedFull cfg vc
  | .limitedSharedBuffer => s.sharedFull cfg vc || s.maxHeldSlots ≤ s.vcOccupancy vc
  | .dynamicLimitedSharedBuffer => s.sharedFull cfg vc || s.maxHeldSlots ≤ s.vcOccupancy vc

/-! ## The policies -/

/-- `SharedBufferPolicy::ProcessFreeSlot` -/
def processFreeSlot (s : BufferState) (vc : ℕ) : Option BufferState :=
  let i := cfg.privateBufVcMap vc
  let s := { s with privateBufOccupancy := update s.privateBufOccupancy i (s.privateBufOccupancy i - 1) }
  if s.privateBufOccupancy i < 0 then none
  else if cfg.privateBufSize i ≤ s.privateBufOccupancy i then
    if s.sharedBufOccupancy - 1 < 0 then none
    else some { s with sharedBufOccupancy := s.sharedBufOccupancy - 1 }
  else some s

/-- The slot of a flit in `SharedBufferPolicy::SendingFlit`. -/
def occupySlot (s : BufferState) (vc : ℕ) : Option BufferState :=
  let i := cfg.privateBufVcMap vc
  if 0 < s.reservedSlots vc then
    some { s with reservedSlots := update s.reservedSlots vc (s.reservedSlots vc - 1) }
  else
    let s := { s with privateBufOccupancy := update s.privateBufOccupancy i (s.privateBufOccupancy i + 1) }
    if cfg.privateBufSize i < s.privateBufOccupancy i then
      if cfg.sharedBufSize < s.sharedBufOccupancy + 1 then none
      else some { s with sharedBufOccupancy := s.sharedBufOccupancy + 1 }
    else some s

/-- The loop that a tail flit runs on the reserved slots. -/
def releaseSlots (vc : ℕ) : ℕ → BufferState → Option BufferState
  | 0, s => some s
  | n + 1, s =>
    (processFreeSlot cfg { s with reservedSlots := update s.reservedSlots vc n } vc).bind (releaseSlots vc n)

/-- `SharedBufferPolicy::SendingFlit` -/
def sharedSendingFlit (s : BufferState) (f : Flit) : Option BufferState :=
  (occupySlot cfg s f.vc).bind fun s =>
    if f.tail then releaseSlots cfg f.vc (s.reservedSlots f.vc) s else some s

/-- `LimitedSharedBufferPolicy::SendingFlit` -/
def limitedSendingFlit (s : BufferState) (f : Flit) : Option BufferState :=
  (sharedSendingFlit cfg s f).bind fun s =>
    if f.tail then
      if s.activeVcs - 1 < 0 then none else some { s with activeVcs := s.activeVcs - 1 }
    else some s

/-- `BufferPolicy::SendingFlit` -/
def policySendingFlit (s : BufferState) (f : Flit) : Option BufferState :=
  match cfg.policy with
  | .privateBuffer => if cfg.vcSize < s.vcOccupancy f.vc then none else some s
  | .sharedBuffer => sharedSendingFlit cfg s f
  | .limitedSharedBuffer => limitedSendingFlit cfg s f
  | .dynamicLimitedSharedBuffer => (limitedSendingFlit cfg s f).bind fun s =>
    let s := if f.tail ∧ s.activeVcs ≠ 0 then { s with maxHeldSlots := cfg.size.tdiv s.activeVcs } else s
    if 0 < s.maxHeldSlots then some s else none

/-- `LimitedSharedBufferPolicy::TakeBuffer` -/
def limitedTakeBuffer (s : BufferState) : Option BufferState :=
  if (cfg.numVcs : ℤ) < s.activeVcs + 1 then none else some { s with activeVcs := s.activeVcs + 1 }

/-- `BufferPolicy::TakeBuffer` -/
def policyTakeBuffer (s : BufferState) : Option BufferState :=
  match cfg.policy with
  | .privateBuffer => some s
  | .sharedBuffer => some s
  | .limitedSharedBuffer => limitedTakeBuffer cfg s
  | .dynamicLimitedSharedBuffer => (limitedTakeBuffer cfg s).bind fun s =>
    if 0 < s.activeVcs ∧ 0 < cfg.size.tdiv s.activeVcs then
      some { s with maxHeldSlots := cfg.size.tdiv s.activeVcs }
    else none

/-- `BufferPolicy::FreeSlotFor` -/
def freeSlotFor (s : BufferState) (vc : ℕ) : Option BufferState :=
  if cfg.policy = .privateBuffer then some s
  else if ¬ s.isAvailableFor vc ∧ s.isEmptyFor vc then
    some { s with reservedSlots := update s.reservedSlots vc (s.reservedSlots vc + 1) }
  else processFreeSlot cfg s vc

/-! ## The buffer state -/

/-- `TakeBuffer` -/
def takeBuffer (s : BufferState) (vc tag : ℕ) : Option BufferState :=
  if vc < cfg.numVcs ∧ s.inUseBy vc = none then
    policyTakeBuffer cfg
      { s with inUseBy := update s.inUseBy vc (some tag), tailSent := update s.tailSent vc false }
  else none

/-- What `SendingFlit` does with a tail. -/
def noteTail (s : BufferState) (f : Flit) : Option BufferState :=
  if f.tail then
    let s := { s with tailSent := update s.tailSent f.vc true }
    if cfg.waitForTailCredit then some s
    else if s.inUseBy f.vc = none then none
    else some { s with inUseBy := update s.inUseBy f.vc none }
  else some s

/-- `SendingFlit` -/
def sendingFlit (s : BufferState) (f : Flit) : Option BufferState :=
  if f.vc < cfg.numVcs ∧ s.occupancy + 1 ≤ cfg.size then
    (policySendingFlit cfg { s with
      occupancy := s.occupancy + 1
      vcOccupancy := update s.vcOccupancy f.vc (s.vcOccupancy f.vc + 1) } f).bind fun s => noteTail cfg s f
  else none

/-- The end of a packet whose last credit has come back. -/
def clearUse (s : BufferState) (vc : ℕ) : BufferState :=
  if cfg.waitForTailCredit ∧ s.vcOccupancy vc = 0 ∧ s.tailSent vc then
    { s with inUseBy := update s.inUseBy vc none }
  else s

/-- One round of the loop of `ProcessCredit`. -/
def creditVc (s : BufferState) (vc : ℕ) : Option BufferState :=
  if vc < cfg.numVcs ∧ ¬ (cfg.waitForTailCredit ∧ s.inUseBy vc = none) ∧
      0 ≤ s.occupancy - 1 ∧ 0 ≤ s.vcOccupancy vc - 1 then
    freeSlotFor cfg (clearUse cfg { s with
      occupancy := s.occupancy - 1
      vcOccupancy := update s.vcOccupancy vc (s.vcOccupancy vc - 1) } vc) vc
  else none

/-- `ProcessCredit` -/
def processCredit (s : BufferState) (c : List ℕ) : Option BufferState := c.foldlM (creditVc cfg) s

/-- The constructor. -/
def new : BufferState := { maxHeldSlots := cfg.heldSlots }

/-! ## The slots -/

variable {cfg}
variable {s : BufferState} {use use' : ℕ → ℤ} {p : ℕ → ℤ} {q : ℤ} {vc n : ℕ} {f : Flit}

/-- A sum of which one term changes. -/
theorem sum_term {g g' : ℕ → ℤ} (hvc : vc < n) (h : ∀ v, v ≠ vc → g' v = g v) :
    ∑ v ∈ Finset.range n, g' v = ∑ v ∈ Finset.range n, g v + (g' vc - g vc) := by
  have hmem := Finset.mem_range.2 hvc
  have hrest : ∑ v ∈ (Finset.range n).erase vc, g' v = ∑ v ∈ (Finset.range n).erase vc, g v :=
    Finset.sum_congr rfl fun v hv => h v (Finset.ne_of_mem_erase hv)
  rw [← Finset.add_sum_erase _ g' hmem, ← Finset.add_sum_erase _ g hmem, hrest]
  omega

/-- What the assertions of the constructors check, and what they rely on. -/
structure Valid (cfg : BufferConfig) : Prop where
  vcSize : cfg.policy = .privateBuffer → cfg.bufSize ≠ 0 ∧ 0 < cfg.vcSize
  privateSize : cfg.policy ≠ .privateBuffer → ∀ i < cfg.privateBufs, 0 ≤ cfg.privateBufSize i
  sharedSize : cfg.policy ≠ .privateBuffer → 0 ≤ cfg.sharedBufSize
  mapped : cfg.policy ≠ .privateBuffer → ∀ v < cfg.numVcs, cfg.privateBufVcMap v < cfg.privateBufs
  slots : cfg.policy = .dynamicLimitedSharedBuffer → 0 < cfg.size ∧ (cfg.numVcs : ℤ) ≤ cfg.size

/-- `use v` slots are charged to virtual channel `v`; the private buffers hold what they can of it and the
shared buffer holds the rest. -/
structure Charged (cfg : BufferConfig) (use p : ℕ → ℤ) (q : ℤ) : Prop where
  nonneg : ∀ v, 0 ≤ use v
  own : ∀ i < cfg.privateBufs,
    p i = ∑ v ∈ Finset.range cfg.numVcs, if cfg.privateBufVcMap v = i then use v else 0
  rest : q = ∑ i ∈ Finset.range cfg.privateBufs, max (p i - cfg.privateBufSize i) 0
  le : q ≤ cfg.sharedBufSize

/-- **No more slots are charged than there are.** -/
theorem Charged.sum_le (hv : Valid cfg) (hp : cfg.policy ≠ .privateBuffer) (h : Charged cfg use p q) :
    ∑ v ∈ Finset.range cfg.numVcs, use v ≤ cfg.size := by
  have hmaps : ∀ v ∈ Finset.range cfg.numVcs, cfg.privateBufVcMap v ∈ Finset.range cfg.privateBufs :=
    fun v hmem => Finset.mem_range.2 (hv.mapped hp v (Finset.mem_range.1 hmem))
  have hle := h.le
  rw [h.rest, BufferConfig.sharedBufSize] at hle
  calc ∑ v ∈ Finset.range cfg.numVcs, use v
      = ∑ i ∈ Finset.range cfg.privateBufs, p i := by
        rw [← Finset.sum_fiberwise_of_maps_to hmaps]
        refine Finset.sum_congr rfl fun i hi => ?_
        rw [h.own i (Finset.mem_range.1 hi), Finset.sum_filter]
    _ ≤ ∑ i ∈ Finset.range cfg.privateBufs, (max (p i - cfg.privateBufSize i) 0 + cfg.privateBufSize i) :=
        Finset.sum_le_sum fun i _ => by omega
    _ ≤ cfg.size := by
        rw [Finset.sum_add_distrib]
        omega

/-- The private buffers after a change of one charge. -/
theorem Charged.own_update (h : Charged cfg use p q) (hvc : vc < cfg.numVcs) (d : ℤ) {i : ℕ}
    (hi : i < cfg.privateBufs) :
    update p (cfg.privateBufVcMap vc) (p (cfg.privateBufVcMap vc) + d) i =
      ∑ v ∈ Finset.range cfg.numVcs,
        if cfg.privateBufVcMap v = i then update use vc (use vc + d) v else 0 := by
  rw [sum_term (g := fun v => if cfg.privateBufVcMap v = i then use v else 0) hvc fun v hne => by
    rw [update_of_ne hne], ← h.own i hi]
  by_cases heq : cfg.privateBufVcMap vc = i
  · subst heq
    simp
  · simp [heq, Ne.symm heq]

/-- The shared buffer after a change of one private buffer. -/
theorem Charged.rest_update (h : Charged cfg use p q) {i : ℕ} (hi : i < cfg.privateBufs) (x : ℤ) :
    ∑ j ∈ Finset.range cfg.privateBufs, max (update p i x j - cfg.privateBufSize j) 0 =
      q + (max (x - cfg.privateBufSize i) 0 - max (p i - cfg.privateBufSize i) 0) := by
  rw [sum_term (g := fun j => max (p j - cfg.privateBufSize j) 0) hi fun j hne => by
    rw [update_of_ne hne], ← h.rest, update_self]

theorem Charged.use_le (h : Charged cfg use p q) (hvc : vc < cfg.numVcs)
    (hi : cfg.privateBufVcMap vc < cfg.privateBufs) : use vc ≤ p (cfg.privateBufVcMap vc) := by
  have hle : (if cfg.privateBufVcMap vc = cfg.privateBufVcMap vc then use vc else 0) ≤
      ∑ v ∈ Finset.range cfg.numVcs, if cfg.privateBufVcMap v = cfg.privateBufVcMap vc then use v else 0 :=
    Finset.single_le_sum (f := fun v => if cfg.privateBufVcMap v = cfg.privateBufVcMap vc then use v else 0)
      (fun v _ => by
        split_ifs
        · exact h.nonneg v
        · exact le_rfl) (Finset.mem_range.2 hvc)
  rw [h.own _ hi]
  rwa [if_pos rfl] at hle

theorem Charged.congr (h : Charged cfg use p q) (heq : ∀ v, use' v = use v) : Charged cfg use' p q := by
  rwa [funext heq]

theorem nonneg_update (h : ∀ v, 0 ≤ use v) {x : ℤ} (hx : 0 ≤ x) (v : ℕ) : 0 ≤ update use vc x v := by
  by_cases heq : v = vc
  · rw [heq, update_self]
    exact hx
  · rw [update_of_ne heq]
    exact h v

theorem processFreeSlot_spec (h : Charged cfg use s.privateBufOccupancy s.sharedBufOccupancy)
    (hvc : vc < cfg.numVcs) (hi : cfg.privateBufVcMap vc < cfg.privateBufs) (hpos : 0 < use vc) :
    ∃ p q, processFreeSlot cfg s vc = some { s with privateBufOccupancy := p, sharedBufOccupancy := q } ∧
      Charged cfg (update use vc (use vc - 1)) p q := by
  have hle := h.use_le hvc hi
  have hrest := h.rest_update hi (s.privateBufOccupancy (cfg.privateBufVcMap vc) + -1)
  have hown := fun i hi => h.own_update hvc (-1) (i := i) hi
  have hnonneg : ∀ j ∈ Finset.range cfg.privateBufs, (0 : ℤ) ≤ max (update s.privateBufOccupancy
      (cfg.privateBufVcMap vc) (s.privateBufOccupancy (cfg.privateBufVcMap vc) + -1) j -
        cfg.privateBufSize j) 0 := fun j _ => le_max_right _ _
  have hsum := Finset.sum_nonneg hnonneg
  have hbound := h.le
  simp only [processFreeSlot, update_self]
  rw [if_neg (by omega)]
  split_ifs with hover hneg
  · rw [hrest] at hsum
    omega
  · exact ⟨_, _, rfl, nonneg_update h.nonneg (by omega), hown, by
      rw [← Int.sub_eq_add_neg] at hrest
      rw [hrest]
      omega, by omega⟩
  · refine ⟨_, _, rfl, nonneg_update h.nonneg (by omega), hown, ?_, h.le⟩
    rw [← Int.sub_eq_add_neg] at hrest
    rw [hrest]
    omega

theorem occupySlot_spec (h : Charged cfg use s.privateBufOccupancy s.sharedBufOccupancy)
    (hvc : vc < cfg.numVcs) (hi : cfg.privateBufVcMap vc < cfg.privateBufs)
    (hreserved : s.reservedSlots vc = 0) (hfull : s.sharedFull cfg vc = false) :
    ∃ p q, occupySlot cfg s vc = some { s with privateBufOccupancy := p, sharedBufOccupancy := q } ∧
      Charged cfg (update use vc (use vc + 1)) p q := by
  have hrest := h.rest_update hi (s.privateBufOccupancy (cfg.privateBufVcMap vc) + 1)
  have hown := fun i hi => h.own_update hvc 1 (i := i) hi
  have hpos := h.nonneg vc
  have hbound := h.le
  simp only [sharedFull, decide_eq_false_iff_not, not_and, not_le] at hfull
  have hfull := hfull hreserved
  simp only [occupySlot, update_self]
  rw [if_neg (by omega)]
  split_ifs with hover hfail
  · have := hfull (by omega)
    omega
  · exact ⟨_, _, rfl, nonneg_update h.nonneg (by omega), hown, by
      rw [hrest]
      omega, by omega⟩
  · refine ⟨_, _, rfl, nonneg_update h.nonneg (by omega), hown, ?_, h.le⟩
    rw [hrest]
    omega

/-- By induction on the reserved slots, each of which is charged. -/
theorem releaseSlots_spec (h : Charged cfg use s.privateBufOccupancy s.sharedBufOccupancy)
    (hvc : vc < cfg.numVcs) (hi : cfg.privateBufVcMap vc < cfg.privateBufs)
    (hreserved : s.reservedSlots vc = n) (hle : (n : ℤ) ≤ use vc) :
    ∃ p q, releaseSlots cfg vc n s = some { s with
        privateBufOccupancy := p, sharedBufOccupancy := q, reservedSlots := update s.reservedSlots vc 0 } ∧
      Charged cfg (update use vc (use vc - n)) p q := by
  induction n generalizing s use with
  | zero =>
    refine ⟨_, _, ?_, by simpa using h⟩
    rw [releaseSlots, ← hreserved, update_eq_self]
  | succ n ih =>
    obtain ⟨p, q, hfree, hcharged⟩ := processFreeSlot_spec
      (s := { s with reservedSlots := update s.reservedSlots vc n }) h hvc hi (by omega)
    obtain ⟨p', q', hrelease, hcharged'⟩ := ih (s := { s with
      privateBufOccupancy := p, sharedBufOccupancy := q, reservedSlots := update s.reservedSlots vc n })
      hcharged (by simp) (by
        rw [update_self]
        omega)
    refine ⟨p', q', ?_, ?_⟩
    · rw [releaseSlots, hfree, Option.bind_some, hrelease]
      simp only [update_idem]
    · rw [update_idem, update_self] at hcharged'
      refine hcharged'.congr fun v => ?_
      congr 1
      push_cast
      omega

theorem occupySlot_charged {occ : ℕ → ℤ}
    (h : Charged cfg (fun v => occ v + s.reservedSlots v) s.privateBufOccupancy s.sharedBufOccupancy)
    (hvc : vc < cfg.numVcs) (hi : cfg.privateBufVcMap vc < cfg.privateBufs)
    (hfull : s.sharedFull cfg vc = false) :
    ∃ p q r, occupySlot cfg s vc = some { s with
        privateBufOccupancy := p, sharedBufOccupancy := q, reservedSlots := r } ∧
      Charged cfg (fun v => update occ vc (occ vc + 1) v + r v) p q ∧
      ∀ v, v ≠ vc → r v = s.reservedSlots v := by
  by_cases hreserved : s.reservedSlots vc = 0
  · obtain ⟨p, q, hoccupy, hcharged⟩ := occupySlot_spec h hvc hi hreserved hfull
    refine ⟨p, q, s.reservedSlots, hoccupy, hcharged.congr fun v => ?_, fun _ _ => rfl⟩
    by_cases heq : v = vc
    · subst heq
      simp only [update_self]
      omega
    · simp only [update_of_ne heq]
  · refine ⟨_, _, _, by rw [occupySlot, if_pos (Nat.pos_of_ne_zero hreserved)], h.congr fun v => ?_,
      fun v hne => update_of_ne hne _ _⟩
    by_cases heq : v = vc
    · subst heq
      simp only [update_self]
      omega
    · simp only [update_of_ne heq]

theorem sharedSendingFlit_spec {occ : ℕ → ℤ} (hocc : ∀ v, 0 ≤ occ v)
    (h : Charged cfg (fun v => occ v + s.reservedSlots v) s.privateBufOccupancy s.sharedBufOccupancy)
    (hvc : f.vc < cfg.numVcs) (hi : cfg.privateBufVcMap f.vc < cfg.privateBufs)
    (hfull : s.sharedFull cfg f.vc = false) :
    ∃ p q r, sharedSendingFlit cfg s f = some { s with
        privateBufOccupancy := p, sharedBufOccupancy := q, reservedSlots := r } ∧
      Charged cfg (fun v => update occ f.vc (occ f.vc + 1) v + r v) p q ∧
      (∀ v, v ≠ f.vc → r v = s.reservedSlots v) ∧ (f.tail → r f.vc = 0) := by
  obtain ⟨p, q, r, hoccupy, hcharged, hne⟩ := occupySlot_charged h hvc hi hfull
  by_cases htail : f.tail
  · have hpos := hocc f.vc
    obtain ⟨p', q', hrelease, hcharged'⟩ := releaseSlots_spec
      (s := { s with privateBufOccupancy := p, sharedBufOccupancy := q, reservedSlots := r })
      hcharged hvc hi rfl (by
        simp only [update_self]
        omega)
    refine ⟨p', q', update r f.vc 0, ?_, hcharged'.congr fun v => ?_, fun v hv => ?_, fun _ => update_self ..⟩
    · rw [sharedSendingFlit, hoccupy, Option.bind_some, if_pos htail]
      exact hrelease
    · by_cases heq : v = f.vc
      · subst heq
        simp only [update_self]
        omega
      · simp only [update_of_ne heq]
    · rw [update_of_ne hv, hne v hv]
  · exact ⟨p, q, r, by rw [sharedSendingFlit, hoccupy, Option.bind_some, if_neg htail], hcharged, hne,
      fun ht => absurd ht htail⟩

/-! ## Coherence -/

/-- A packet holds the virtual channel and its tail has not been sent. -/
def isSending (s : BufferState) (vc : ℕ) : Bool := s.inUseBy vc ≠ none ∧ s.tailSent vc = false

/-- The virtual channels that packets hold. -/
def sending (cfg : BufferConfig) (sends : ℕ → Bool) : ℤ :=
  ∑ v ∈ Finset.range cfg.numVcs, if sends v then 1 else 0

/-- The counters of a buffer state agree with the occupancy of its channels. -/
structure Coherent (cfg : BufferConfig) (s : BufferState) : Prop where
  sum : s.occupancy = ∑ v ∈ Finset.range cfg.numVcs, s.vcOccupancy v
  nonneg : ∀ v, 0 ≤ s.vcOccupancy v
  idle : cfg.waitForTailCredit → ∀ v, s.inUseBy v = none → s.vcOccupancy v = 0
  unsent : cfg.waitForTailCredit = false → ∀ v, s.inUseBy v ≠ none → s.tailSent v = false
  waiting : cfg.waitForTailCredit → ∀ v, s.inUseBy v ≠ none → s.tailSent v → 0 < s.vcOccupancy v
  within : cfg.policy = .privateBuffer → ∀ v < cfg.numVcs, s.vcOccupancy v ≤ cfg.vcSize
  charged : cfg.policy ≠ .privateBuffer →
    Charged cfg (fun v => s.vcOccupancy v + s.reservedSlots v) s.privateBufOccupancy s.sharedBufOccupancy
  unreserved : cfg.policy = .privateBuffer → ∀ v, s.reservedSlots v = 0
  reserved : ∀ v, s.reservedSlots v ≠ 0 → s.isSending v
  active : cfg.limits → s.activeVcs = sending cfg s.isSending
  held : cfg.policy = .dynamicLimitedSharedBuffer → 0 < s.maxHeldSlots

/-- **The flits sent and not credited fit the buffer.** -/
theorem vcSum_le (hv : Valid cfg) {occ : ℕ → ℤ} {r : ℕ → ℕ}
    (hwithin : cfg.policy = .privateBuffer → ∀ v < cfg.numVcs, occ v ≤ cfg.vcSize)
    (hcharged : cfg.policy ≠ .privateBuffer → Charged cfg (fun v => occ v + r v) p q) :
    ∑ v ∈ Finset.range cfg.numVcs, occ v ≤ cfg.size := by
  by_cases hp : cfg.policy = .privateBuffer
  · obtain ⟨hsize, hlimit⟩ := hv.vcSize hp
    calc ∑ v ∈ Finset.range cfg.numVcs, occ v
        ≤ ∑ v ∈ Finset.range cfg.numVcs, cfg.vcSize :=
          Finset.sum_le_sum fun v hmem => hwithin hp v (Finset.mem_range.1 hmem)
      _ = cfg.numVcs * cfg.vcSize := by rw [Finset.sum_const, Finset.card_range, nsmul_eq_mul]
      _ ≤ cfg.size := by
          unfold BufferConfig.vcSize BufferConfig.size
          split_ifs with hle hlt
          · exact le_rfl
          · omega
          · omega
          · rw [Int.tdiv_eq_ediv_of_nonneg (by omega)]
            by_cases hzero : (cfg.numVcs : ℤ) = 0
            · rw [hzero]
              omega
            · exact Int.mul_ediv_self_le hzero
  · refine le_trans (Finset.sum_le_sum fun v _ => ?_) ((hcharged hp).sum_le hv hp)
    omega

theorem sending_le (sends : ℕ → Bool) : sending cfg sends ≤ cfg.numVcs := by
  calc sending cfg sends ≤ ∑ v ∈ Finset.range cfg.numVcs, 1 :=
        Finset.sum_le_sum fun v _ => by split_ifs <;> omega
    _ = cfg.numVcs := by simp

theorem sending_nonneg (sends : ℕ → Bool) : 0 ≤ sending cfg sends :=
  Finset.sum_nonneg fun v _ => by split_ifs <;> omega

theorem sending_update (sends : ℕ → Bool) (hvc : vc < cfg.numVcs) (b : Bool) :
    sending cfg (update sends vc b) = sending cfg sends + ((if b then 1 else 0) - if sends vc then 1 else 0) := by
  rw [sending, sum_term (g := fun v => if sends v then 1 else 0) hvc fun v hne => by rw [update_of_ne hne],
    update_self]
  rfl

theorem held_pos (hv : Valid cfg) (hp : cfg.policy = .dynamicLimitedSharedBuffer) {a : ℤ} (ha : 0 < a)
    (hle : a ≤ cfg.numVcs) : 0 < cfg.size.tdiv a := by
  obtain ⟨-, hslots⟩ := hv.slots hp
  rw [Int.tdiv_eq_ediv_of_nonneg (by omega)]
  exact (Int.le_ediv_iff_mul_le ha).2 (by omega)

theorem new_coherent (hv : Valid cfg) : Coherent cfg (new cfg) where
  sum := by simp [new]
  nonneg _ := le_rfl
  idle _ _ _ := rfl
  unsent _ _ h := absurd rfl h
  waiting _ _ h := absurd rfl h
  within hp v _ := (hv.vcSize hp).2.le
  charged hp := {
    nonneg := fun _ => le_rfl
    own := fun i _ => by simp [new]
    rest := by
      symm
      exact Finset.sum_eq_zero fun i hi => by
        have := hv.privateSize hp i (Finset.mem_range.1 hi)
        simp only [new]
        omega
    le := hv.sharedSize hp }
  unreserved _ _ := rfl
  reserved _ h := absurd rfl h
  active _ := by simp [new, sending, isSending]
  held hp := by
    simp only [new, BufferConfig.heldSlots, hp, true_or, if_true]
    exact (hv.slots hp).1

theorem sharedFull_of_isFullFor (hp : cfg.policy ≠ .privateBuffer) (hfull : s.isFullFor cfg vc = false) :
    s.sharedFull cfg vc = false := by
  unfold isFullFor at hfull
  split at hfull
  · contradiction
  · exact hfull
  · exact (Bool.or_eq_false_iff.1 hfull).1
  · exact (Bool.or_eq_false_iff.1 hfull).1

theorem limits_iff :
    cfg.limits ↔ cfg.policy = .limitedSharedBuffer ∨ cfg.policy = .dynamicLimitedSharedBuffer := by
  simp [BufferConfig.limits]

/-- The counter that the last flit of a packet takes down. -/
theorem limitedSendingFlit_spec {occ : ℕ → ℤ} (hocc : ∀ v, 0 ≤ occ v)
    (h : Charged cfg (fun v => occ v + s.reservedSlots v) s.privateBufOccupancy s.sharedBufOccupancy)
    (hvc : f.vc < cfg.numVcs) (hi : cfg.privateBufVcMap f.vc < cfg.privateBufs)
    (hfull : s.sharedFull cfg f.vc = false) (hactive : 0 < s.activeVcs) :
    ∃ p q r, limitedSendingFlit cfg s f = some { s with
        privateBufOccupancy := p, sharedBufOccupancy := q, reservedSlots := r
        activeVcs := s.activeVcs - if f.tail then 1 else 0 } ∧
      Charged cfg (fun v => update occ f.vc (occ f.vc + 1) v + r v) p q ∧
      (∀ v, v ≠ f.vc → r v = s.reservedSlots v) ∧ (f.tail → r f.vc = 0) := by
  obtain ⟨p, q, r, hsend, hrest⟩ := sharedSendingFlit_spec hocc h hvc hi hfull
  refine ⟨p, q, r, ?_, hrest⟩
  rw [limitedSendingFlit, hsend, Option.bind_some]
  by_cases htail : f.tail
  · rw [if_pos htail, if_neg (by
      dsimp only
      omega), if_pos htail]
  · rw [if_neg htail, if_neg htail, Int.sub_zero]

/-- What a policy does with a flit, one case a policy. -/
theorem policySendingFlit_spec {occ : ℕ → ℤ} (hv : Valid cfg) (hocc : ∀ v, 0 ≤ occ v)
    (h : cfg.policy ≠ .privateBuffer →
      Charged cfg (fun v => occ v + s.reservedSlots v) s.privateBufOccupancy s.sharedBufOccupancy)
    (hvc : f.vc < cfg.numVcs) (hwithin : cfg.policy = .privateBuffer → s.vcOccupancy f.vc ≤ cfg.vcSize)
    (hfull : cfg.policy ≠ .privateBuffer → s.sharedFull cfg f.vc = false)
    (hactive : cfg.limits → 0 < s.activeVcs ∧ s.activeVcs ≤ cfg.numVcs)
    (hheld : cfg.policy = .dynamicLimitedSharedBuffer → 0 < s.maxHeldSlots)
    (hreserved : cfg.policy = .privateBuffer → s.reservedSlots f.vc = 0) :
    ∃ p q r a m, policySendingFlit cfg s f = some { s with
        privateBufOccupancy := p, sharedBufOccupancy := q, reservedSlots := r
        activeVcs := a, maxHeldSlots := m } ∧
      (cfg.policy ≠ .privateBuffer → Charged cfg (fun v => update occ f.vc (occ f.vc + 1) v + r v) p q) ∧
      (∀ v, v ≠ f.vc → r v = s.reservedSlots v) ∧ (f.tail ∨ cfg.policy = .privateBuffer → r f.vc = 0) ∧
      (cfg.limits → a = s.activeVcs - if f.tail then 1 else 0) ∧
      (cfg.policy = .dynamicLimitedSharedBuffer → 0 < m) := by
  cases hp : cfg.policy with
  | privateBuffer =>
    refine ⟨s.privateBufOccupancy, s.sharedBufOccupancy, s.reservedSlots, s.activeVcs, s.maxHeldSlots, ?_,
      fun hne => absurd rfl hne, fun _ _ => rfl, fun _ => hreserved hp,
      fun hl => by simp [limits_iff, hp] at hl, fun hd => by cases hd⟩
    simp only [policySendingFlit, hp]
    rw [if_neg (Int.not_lt.2 (hwithin hp))]
  | sharedBuffer =>
    have hne : cfg.policy ≠ .privateBuffer := by simp [hp]
    obtain ⟨p, q, r, hsend, hcharged, hother, htail⟩ :=
      sharedSendingFlit_spec hocc (h hne) hvc (hv.mapped hne f.vc hvc) (hfull hne)
    refine ⟨p, q, r, s.activeVcs, s.maxHeldSlots, ?_, fun _ => hcharged, hother,
      fun ht => htail (ht.resolve_right (by simp)), fun hl => by simp [limits_iff, hp] at hl, fun hd => by cases hd⟩
    simp only [policySendingFlit, hp]
    exact hsend
  | limitedSharedBuffer =>
    have hne : cfg.policy ≠ .privateBuffer := by simp [hp]
    obtain ⟨p, q, r, hsend, hcharged, hother, htail⟩ := limitedSendingFlit_spec hocc (h hne) hvc
      (hv.mapped hne f.vc hvc) (hfull hne) (hactive (limits_iff.2 (.inl hp))).1
    refine ⟨p, q, r, _, s.maxHeldSlots, ?_, fun _ => hcharged, hother,
      fun ht => htail (ht.resolve_right (by simp)), fun _ => rfl, fun hd => by cases hd⟩
    simp only [policySendingFlit, hp]
    exact hsend
  | dynamicLimitedSharedBuffer =>
    have hne : cfg.policy ≠ .privateBuffer := by simp [hp]
    obtain ⟨hpos, hle⟩ := hactive (limits_iff.2 (.inr hp))
    obtain ⟨p, q, r, hsend, hcharged, hother, htail⟩ :=
      limitedSendingFlit_spec hocc (h hne) hvc (hv.mapped hne f.vc hvc) (hfull hne) hpos
    have hm := hheld hp
    simp only [policySendingFlit, hp, hsend, Option.bind_some]
    by_cases hlast : f.tail = true ∧ s.activeVcs - (if f.tail then 1 else 0) ≠ 0
    · have hnew := held_pos hv hp (a := s.activeVcs - if f.tail then 1 else 0)
        (by rw [if_pos hlast.1] at hlast ⊢; omega) (by rw [if_pos hlast.1]; omega)
      rw [if_pos hlast, if_pos hnew]
      exact ⟨p, q, r, _, _, rfl, fun _ => hcharged, hother,
        fun ht => htail (ht.resolve_right (by simp)), fun _ => rfl, fun _ => hnew⟩
    · rw [if_neg hlast, if_pos hm]
      exact ⟨p, q, r, _, _, rfl, fun _ => hcharged, hother,
        fun ht => htail (ht.resolve_right (by simp)), fun _ => rfl, fun _ => hm⟩

/-! ## The operations -/

theorem isSending_iff : s.isSending vc ↔ s.inUseBy vc ≠ none ∧ s.tailSent vc = false := by
  simp [isSending]

/-- Taking a virtual channel that is available. -/
theorem takeBuffer_coherent (hv : Valid cfg) (h : Coherent cfg s) (hvc : vc < cfg.numVcs)
    (havailable : s.isAvailableFor vc) (tag : ℕ) :
    ∃ s', takeBuffer cfg s vc tag = some s' ∧ Coherent cfg s' ∧ s'.vcOccupancy = s.vcOccupancy ∧
      s'.isSending = update s.isSending vc true := by
  have hidle : s.inUseBy vc = none := of_decide_eq_true havailable
  -- the packet holds the channel from here on
  have hsending : isSending { s with
      inUseBy := update s.inUseBy vc (some tag), tailSent := update s.tailSent vc false } =
      update s.isSending vc true := by
    funext v
    by_cases heq : v = vc
    · subst heq
      simp [isSending]
    · simp [isSending, update_of_ne heq]
  have hcount : sending cfg (update s.isSending vc true) = sending cfg s.isSending + 1 := by
    have hnot : s.isSending vc = false := by simp [isSending, hidle]
    rw [sending_update _ hvc, if_pos rfl, hnot]
    simp
  have hle : sending cfg (update s.isSending vc true) ≤ cfg.numVcs := sending_le _
  have hnonneg : 0 ≤ sending cfg s.isSending := sending_nonneg _
  obtain ⟨a, m, hpolicy, hactive, hheld⟩ : ∃ a m, policyTakeBuffer cfg { s with
        inUseBy := update s.inUseBy vc (some tag), tailSent := update s.tailSent vc false } = some { s with
          inUseBy := update s.inUseBy vc (some tag), tailSent := update s.tailSent vc false
          activeVcs := a, maxHeldSlots := m } ∧
      (cfg.limits → a = sending cfg (update s.isSending vc true)) ∧
      (cfg.policy = .dynamicLimitedSharedBuffer → 0 < m) := by
    cases hp : cfg.policy with
    | privateBuffer =>
      refine ⟨s.activeVcs, s.maxHeldSlots, by simp only [policyTakeBuffer, hp],
        fun hl => by simp [limits_iff, hp] at hl, fun hd => by cases hd⟩
    | sharedBuffer =>
      refine ⟨s.activeVcs, s.maxHeldSlots, by simp only [policyTakeBuffer, hp],
        fun hl => by simp [limits_iff, hp] at hl, fun hd => by cases hd⟩
    | limitedSharedBuffer =>
      have hnow := h.active (limits_iff.2 (.inl hp))
      refine ⟨s.activeVcs + 1, s.maxHeldSlots, ?_, fun _ => by rw [hcount, hnow], fun hd => by cases hd⟩
      simp only [policyTakeBuffer, hp, limitedTakeBuffer]
      rw [if_neg (by omega)]
    | dynamicLimitedSharedBuffer =>
      have hnow := h.active (limits_iff.2 (.inr hp))
      have hpos := held_pos hv hp (a := s.activeVcs + 1) (by omega) (by omega)
      refine ⟨s.activeVcs + 1, cfg.size.tdiv (s.activeVcs + 1), ?_, fun _ => by rw [hcount, hnow], fun _ => hpos⟩
      simp only [policyTakeBuffer, hp, limitedTakeBuffer]
      rw [if_neg (by omega), Option.bind_some]
      exact if_pos ⟨by
        dsimp only
        omega, hpos⟩
  refine ⟨_, (if_pos ⟨hvc, hidle⟩).trans hpolicy, ?_, rfl, hsending⟩
  exact {
    sum := h.sum
    nonneg := h.nonneg
    idle := fun hw v hnone => by
      by_cases heq : v = vc
      · subst heq
        simp at hnone
      · exact h.idle hw v (by simpa [update_of_ne heq] using hnone)
    unsent := fun hw v hnone => by
      by_cases heq : v = vc
      · subst heq
        exact update_self ..
      · simp only [update_of_ne heq] at hnone ⊢
        exact h.unsent hw v hnone
    waiting := fun hw v hu hsent => by
      by_cases heq : v = vc
      · subst heq
        simp at hsent
      · simp only [update_of_ne heq] at hu hsent
        exact h.waiting hw v hu hsent
    within := h.within
    charged := h.charged
    unreserved := h.unreserved
    reserved := fun v hne => by
      have hold := h.reserved v hne
      show isSending { s with
        inUseBy := update s.inUseBy vc (some tag), tailSent := update s.tailSent vc false } v
      rw [hsending]
      by_cases heq : v = vc
      · rw [heq, update_self]
      · rwa [update_of_ne heq]
    active := fun hl => by
      rw [hactive hl, ← hsending]
      rfl
    held := hheld }

theorem Coherent.active_pos (h : Coherent cfg s) (hl : cfg.limits) (hvc : vc < cfg.numVcs)
    (hsend : s.isSending vc) : 0 < s.activeVcs ∧ s.activeVcs ≤ cfg.numVcs := by
  have hwithout := sending_update s.isSending hvc false
  have hnonneg : 0 ≤ sending cfg (update s.isSending vc false) := sending_nonneg _
  rw [hwithout, if_pos hsend] at hnonneg
  rw [h.active hl]
  exact ⟨by
    simp only [Bool.false_eq_true, if_false] at hnonneg
    omega, sending_le _⟩

/-- What the tail of a packet does to the marks of its virtual channel. -/
theorem noteTail_spec (hsend : s.isSending f.vc) (hunsent : cfg.waitForTailCredit = false →
      ∀ v, s.inUseBy v ≠ none → s.tailSent v = false) :
    ∃ u t, noteTail cfg s f = some { s with inUseBy := u, tailSent := t } ∧
      (∀ v, v ≠ f.vc → u v = s.inUseBy v ∧ t v = s.tailSent v) ∧
      (cfg.waitForTailCredit → u = s.inUseBy) ∧
      (cfg.waitForTailCredit = false → ∀ v, u v ≠ none → t v = false) ∧
      ∀ v, (u v ≠ none ∧ t v = false) ↔ update s.isSending f.vc (!f.tail) v := by
  obtain ⟨hheld, hnot⟩ := isSending_iff.1 hsend
  by_cases htail : f.tail
  · have hiff : ∀ (u : ℕ → Option ℕ), (∀ v, v ≠ f.vc → u v = s.inUseBy v) → ∀ v,
        (u v ≠ none ∧ update s.tailSent f.vc true v = false) ↔ update s.isSending f.vc (!f.tail) v := by
      intro u hu v
      by_cases heq : v = f.vc
      · subst heq
        simp [htail]
      · rw [update_of_ne heq, update_of_ne heq, isSending_iff, hu v heq]
    by_cases hw : cfg.waitForTailCredit
    · refine ⟨s.inUseBy, update s.tailSent f.vc true, by rw [noteTail, if_pos htail, if_pos hw], fun v hne =>
        ⟨rfl, update_of_ne hne _ _⟩, fun _ => rfl, fun hw' => absurd hw (by simp [hw']), hiff _ fun _ _ => rfl⟩
    · refine ⟨update s.inUseBy f.vc none, update s.tailSent f.vc true, ?_, fun v hne =>
        ⟨update_of_ne hne _ _, update_of_ne hne _ _⟩, fun hw' => absurd hw' hw, fun hw' v hu => ?_,
        hiff _ fun v hne => update_of_ne hne _ _⟩
      · rw [noteTail, if_pos htail, if_neg hw]
        exact if_neg hheld
      · by_cases heq : v = f.vc
        · subst heq
          simp at hu
        · rw [update_of_ne heq] at hu ⊢
          exact hunsent hw' v hu
  · refine ⟨s.inUseBy, s.tailSent, by rw [noteTail, if_neg htail], fun _ _ => ⟨rfl, rfl⟩, fun _ => rfl, hunsent,
      fun v => ?_⟩
    rw [← isSending_iff]
    by_cases heq : v = f.vc
    · subst heq
      simp [htail, hsend]
    · rw [update_of_ne heq]

/-- Sending a flit of the packet that holds the virtual channel, where there is room for it. -/
theorem sendingFlit_coherent (hv : Valid cfg) (h : Coherent cfg s) (hvc : f.vc < cfg.numVcs)
    (hsend : s.isSending f.vc) (hfull : s.isFullFor cfg f.vc = false) :
    ∃ s', sendingFlit cfg s f = some s' ∧ Coherent cfg s' ∧
      s'.vcOccupancy = update s.vcOccupancy f.vc (s.vcOccupancy f.vc + 1) ∧
      s'.isSending = update s.isSending f.vc (!f.tail) := by
  have hwithin : cfg.policy = .privateBuffer → s.vcOccupancy f.vc + 1 ≤ cfg.vcSize := fun hp => by
    simp only [isFullFor, hp, decide_eq_false_iff_not, not_le] at hfull
    omega
  obtain ⟨p, q, r, a, m, hpolicy, hcharged, hother, htail, hactive, hheld⟩ := policySendingFlit_spec (f := f)
    (s := { s with
      occupancy := s.occupancy + 1
      vcOccupancy := update s.vcOccupancy f.vc (s.vcOccupancy f.vc + 1) })
    hv h.nonneg h.charged hvc (by simpa using hwithin) (fun hp => sharedFull_of_isFullFor (s := s) hp hfull)
    (fun hl => h.active_pos hl hvc hsend) h.held fun hp => h.unreserved hp f.vc
  obtain ⟨u, t, hnote, hmarks, hwait, hunsent, hsending⟩ := noteTail_spec (f := f) (s := { s with
      occupancy := s.occupancy + 1
      vcOccupancy := update s.vcOccupancy f.vc (s.vcOccupancy f.vc + 1)
      privateBufOccupancy := p, sharedBufOccupancy := q, reservedSlots := r
      activeVcs := a, maxHeldSlots := m }) hsend h.unsent
  have hwithin' : cfg.policy = .privateBuffer → ∀ v < cfg.numVcs,
      update s.vcOccupancy f.vc (s.vcOccupancy f.vc + 1) v ≤ cfg.vcSize := fun hp v hlt => by
    by_cases heq : v = f.vc
    · rw [heq, update_self]
      exact hwithin hp
    · rw [update_of_ne heq]
      exact h.within hp v hlt
  have hsum : s.occupancy + 1 =
      ∑ v ∈ Finset.range cfg.numVcs, update s.vcOccupancy f.vc (s.vcOccupancy f.vc + 1) v := by
    rw [sum_term (g := s.vcOccupancy) hvc fun v hne => update_of_ne hne _ _, ← h.sum, update_self]
    omega
  have hroom : s.occupancy + 1 ≤ cfg.size := by
    rw [hsum]
    exact vcSum_le hv hwithin' hcharged
  have hmarked : isSending { s with
      occupancy := s.occupancy + 1
      vcOccupancy := update s.vcOccupancy f.vc (s.vcOccupancy f.vc + 1)
      inUseBy := u, tailSent := t, privateBufOccupancy := p, sharedBufOccupancy := q, reservedSlots := r
      activeVcs := a, maxHeldSlots := m } = update s.isSending f.vc (!f.tail) := by
    funext v
    rw [Bool.eq_iff_iff, isSending_iff]
    exact hsending v
  refine ⟨_, (if_pos ⟨hvc, hroom⟩).trans ((congrArg (·.bind fun s => noteTail cfg s f) hpolicy).trans hnote), ?_,
    rfl, hmarked⟩
  exact {
    sum := hsum
    nonneg := nonneg_update h.nonneg (by
      have := h.nonneg f.vc
      omega)
    idle := fun hw v hnone => by
      have hnone : s.inUseBy v = none := by rwa [← hwait hw]
      by_cases heq : v = f.vc
      · subst heq
        exact absurd hnone (isSending_iff.1 hsend).1
      · simp only [update_of_ne heq]
        exact h.idle hw v hnone
    unsent := hunsent
    waiting := fun hw v hu hsent => by
      by_cases heq : v = f.vc
      · have := h.nonneg f.vc
        subst heq
        simp only [update_self]
        omega
      · simp only [update_of_ne heq, hwait hw, (hmarks v heq).2] at hu hsent ⊢
        exact h.waiting hw v hu hsent
    within := hwithin'
    charged := hcharged
    unreserved := fun hp v => by
      by_cases heq : v = f.vc
      · rw [heq]
        exact htail (.inr hp)
      · exact (hother v heq).trans (h.unreserved hp v)
    reserved := fun v hne => by
      rw [hmarked]
      by_cases heq : v = f.vc
      · subst heq
        rw [update_self]
        by_cases ht : f.tail
        · exact absurd (htail (.inl ht)) hne
        · simp [ht]
      · rw [update_of_ne heq]
        exact h.reserved v (by rwa [← hother v heq])
    active := fun hl => by
      rw [hmarked, sending_update _ hvc, if_pos hsend]
      have hnow := h.active hl
      have hthen := hactive hl
      simp only at hthen ⊢
      rw [hthen, hnow]
      by_cases ht : f.tail
      · simp only [ht, if_true, Bool.not_true, Bool.false_eq_true, if_false]
        omega
      · simp [ht]
    held := hheld }

/-- The end of a packet gives its virtual channel back; the channel of a packet that still sends is kept. -/
theorem clearUse_spec (vc : ℕ)
    (hunsent : cfg.waitForTailCredit = false → ∀ v, s.inUseBy v ≠ none → s.tailSent v = false) :
    ∃ u, clearUse cfg s vc = { s with inUseBy := u } ∧ (∀ v, v ≠ vc → u v = s.inUseBy v) ∧
      (∀ v, u v ≠ none → s.inUseBy v ≠ none) ∧
      (u vc = none → s.inUseBy vc ≠ none → s.vcOccupancy vc = 0) ∧
      (u vc ≠ none → s.vcOccupancy vc = 0 → s.isSending vc) ∧
      isSending { s with inUseBy := u } = s.isSending := by
  unfold clearUse
  split_ifs with hclear
  · obtain ⟨hw, hempty, hsent⟩ := hclear
    refine ⟨_, rfl, fun v hne => update_of_ne hne _ _, fun v hu => ?_, fun _ _ => hempty,
      fun hu => absurd (update_self ..) hu, ?_⟩
    · by_cases heq : v = vc
      · exact absurd (by rw [heq, update_self]) hu
      · rwa [update_of_ne heq] at hu
    · funext v
      by_cases heq : v = vc
      · subst heq
        simp [isSending, hsent]
      · simp [isSending, update_of_ne heq]
  · refine ⟨s.inUseBy, rfl, fun _ _ => rfl, fun _ hu => hu, fun hnone hu => absurd hnone hu, fun hu hempty => ?_,
      rfl⟩
    refine isSending_iff.2 ⟨hu, ?_⟩
    by_cases hw : cfg.waitForTailCredit
    · by_contra hsent
      exact hclear ⟨hw, hempty, by simpa using hsent⟩
    · exact hunsent (by simpa using hw) vc hu

/-- The slot of a credit stays with a packet that still sends and has no flit left in the buffer; else it is
given back. -/
theorem freeSlotFor_spec {occ : ℕ → ℤ}
    (h : cfg.policy ≠ .privateBuffer →
      Charged cfg (fun v => occ v + s.reservedSlots v) s.privateBufOccupancy s.sharedBufOccupancy)
    (hvc : vc < cfg.numVcs) (hi : cfg.policy ≠ .privateBuffer → cfg.privateBufVcMap vc < cfg.privateBufs)
    (hpos : 0 < occ vc) (hsend : s.inUseBy vc ≠ none → s.vcOccupancy vc = 0 → s.isSending vc) :
    ∃ p q r, freeSlotFor cfg s vc = some { s with
        privateBufOccupancy := p, sharedBufOccupancy := q, reservedSlots := r } ∧
      (cfg.policy ≠ .privateBuffer → Charged cfg (fun v => update occ vc (occ vc - 1) v + r v) p q) ∧
      (cfg.policy = .privateBuffer → r = s.reservedSlots) ∧
      ∀ v, r v ≠ 0 → s.reservedSlots v ≠ 0 ∨ v = vc ∧ s.isSending vc := by
  unfold freeSlotFor
  split_ifs with hp hkeep
  · exact ⟨_, _, s.reservedSlots, rfl, fun hne => absurd hp hne, fun _ => rfl, fun v hne => .inl hne⟩
  · refine ⟨s.privateBufOccupancy, s.sharedBufOccupancy, _, rfl, fun hne => (h hne).congr fun v => ?_,
      fun hp' => absurd hp' hp, fun v hne => ?_⟩
    · by_cases heq : v = vc
      · subst heq
        simp only [update_self]
        push_cast
        omega
      · simp only [update_of_ne heq]
    · by_cases heq : v = vc
      · exact .inr ⟨heq, hsend (by simpa [isAvailableFor] using hkeep.1) (by simpa [isEmptyFor] using hkeep.2)⟩
      · rw [update_of_ne heq] at hne
        exact .inl hne
  · obtain ⟨p, q, hfree, hcharged⟩ := processFreeSlot_spec (h hp) hvc (hi hp) (by omega)
    refine ⟨p, q, s.reservedSlots, hfree, fun _ => hcharged.congr fun v => ?_, fun _ => rfl, fun v hne => .inl hne⟩
    by_cases heq : v = vc
    · subst heq
      simp only [update_self]
      omega
    · simp only [update_of_ne heq]

theorem creditVc_coherent (hv : Valid cfg) (h : Coherent cfg s) (hvc : vc < cfg.numVcs)
    (hpos : 0 < s.vcOccupancy vc) :
    ∃ s', creditVc cfg s vc = some s' ∧ Coherent cfg s' ∧
      s'.vcOccupancy = update s.vcOccupancy vc (s.vcOccupancy vc - 1) ∧ s'.isSending = s.isSending := by
  obtain ⟨u, hclear, hother, hkept, hgone, hstays, hsame⟩ := clearUse_spec vc (s := { s with
    occupancy := s.occupancy - 1
    vcOccupancy := update s.vcOccupancy vc (s.vcOccupancy vc - 1) }) h.unsent
  obtain ⟨p, q, r, hfree, hcharged, hprivate, hreserved⟩ := freeSlotFor_spec (s := { s with
    occupancy := s.occupancy - 1
    vcOccupancy := update s.vcOccupancy vc (s.vcOccupancy vc - 1), inUseBy := u })
    h.charged hvc (fun hp => hv.mapped hp vc hvc) hpos fun hu hempty => by
      have hsend := hstays hu hempty
      rwa [← hsame] at hsend
  have hsum : s.occupancy - 1 =
      ∑ v ∈ Finset.range cfg.numVcs, update s.vcOccupancy vc (s.vcOccupancy vc - 1) v := by
    rw [sum_term (g := s.vcOccupancy) hvc fun v hne => update_of_ne hne _ _, ← h.sum, update_self]
    omega
  have hnonneg : ∀ v, 0 ≤ update s.vcOccupancy vc (s.vcOccupancy vc - 1) v :=
    nonneg_update h.nonneg (by omega)
  have htotal : 0 ≤ s.occupancy - 1 := by
    rw [hsum]
    exact Finset.sum_nonneg fun v _ => hnonneg v
  have hused : ¬ (cfg.waitForTailCredit = true ∧ s.inUseBy vc = none) := fun hidle => by
    have := h.idle hidle.1 vc hidle.2
    omega
  have hmarked : isSending { s with
      occupancy := s.occupancy - 1
      vcOccupancy := update s.vcOccupancy vc (s.vcOccupancy vc - 1)
      inUseBy := u, privateBufOccupancy := p, sharedBufOccupancy := q, reservedSlots := r } = s.isSending := hsame
  refine ⟨_, (if_pos ⟨hvc, hused, htotal, by omega⟩).trans
    ((congrArg (freeSlotFor cfg · vc) hclear).trans hfree), ?_, rfl, hmarked⟩
  exact {
    sum := hsum
    nonneg := hnonneg
    idle := fun hw v hnone => by
      by_cases heq : v = vc
      · subst heq
        exact hgone hnone fun hidle => hused ⟨hw, hidle⟩
      · simp only [update_of_ne heq]
        exact h.idle hw v (by rwa [← hother v heq])
    unsent := fun hw v hu => h.unsent hw v (hkept v hu)
    waiting := fun hw v hu hsent => by
      by_cases heq : v = vc
      · subst heq
        refine lt_of_le_of_ne (hnonneg v) fun hzero => ?_
        have hnot := (isSending_iff.1 (hstays hu hzero.symm)).2
        exact absurd hsent (by simpa using hnot)
      · simp only [update_of_ne heq]
        exact h.waiting hw v (hkept v hu) hsent
    within := fun hp v hlt => by
      by_cases heq : v = vc
      · have := h.within hp v hlt
        subst heq
        simp only [update_self]
        omega
      · simp only [update_of_ne heq]
        exact h.within hp v hlt
    charged := hcharged
    unreserved := fun hp v => by
      simp only [hprivate hp]
      exact h.unreserved hp v
    reserved := fun v hne => by
      rw [hmarked]
      rcases hreserved v hne with hold | ⟨rfl, hsend⟩
      · exact h.reserved v hold
      · rw [← hmarked]
        exact hsend
    active := fun hl => by
      rw [hmarked]
      exact h.active hl
    held := h.held }

/-- By induction on the virtual channels of the credit. -/
theorem processCredit_coherent (hv : Valid cfg) {c : List ℕ} (h : Coherent cfg s)
    (hvcs : ∀ v ∈ c, v < cfg.numVcs) (hle : ∀ v, (c.count v : ℤ) ≤ s.vcOccupancy v) :
    ∃ s', processCredit cfg s c = some s' ∧ Coherent cfg s' ∧
      (∀ v, s'.vcOccupancy v = s.vcOccupancy v - c.count v) ∧ s'.isSending = s.isSending := by
  induction c generalizing s with
  | nil => exact ⟨s, rfl, h, fun v => by simp, rfl⟩
  | cons vc c ih =>
    have hpos := hle vc
    rw [List.count_cons_self] at hpos
    push_cast at hpos
    obtain ⟨s', hcredit, hs', hocc, hsend⟩ := creditVc_coherent hv h (hvcs vc List.mem_cons_self) (by omega)
    have hstep : ∀ v, s'.vcOccupancy v - c.count v = s.vcOccupancy v - ((vc :: c).count v : ℕ) := fun v => by
      rw [hocc]
      by_cases heq : v = vc
      · subst heq
        rw [update_self, List.count_cons_self]
        push_cast
        omega
      · rw [update_of_ne heq, List.count_cons_of_ne (Ne.symm heq)]
    obtain ⟨t, hfold, ht, hocc', hsend'⟩ := ih hs' (fun v hmem => hvcs v (List.mem_cons_of_mem _ hmem)) fun v => by
      have := hstep v
      have := hle v
      omega
    refine ⟨t, ?_, ht, fun v => by rw [hocc', hstep], hsend'.trans hsend⟩
    rw [processCredit, List.foldlM_cons, hcredit]
    exact hfold

end BufferState

end CompressionWork.Icnt
