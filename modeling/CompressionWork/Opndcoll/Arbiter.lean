import Mathlib.Data.List.Basic
import Mathlib.Data.List.Nodup
import Mathlib.Logic.Function.Basic
import Mathlib.Tactic.Common

/-!
# The operand collector: the read allocator

`opndcoll_rfu_t::allocate_reads` and the wavefront allocator of `arbiter_t` under it
(`shader.h`, `shader.cc`).  Every bank of the register file has a queue of reads, every read
belongs to a collector unit.

* `Arbiter.allocateReads`, `Rfu.allocateReads` — the functions; `none` is a failed assertion,
  or the front of an empty queue.
* `Rfu.Ok` — what the callers see to: positive sizes, and requests that belong to a collector
  and to the bank they wait for.
* `Fair` — what one round of the allocator should do.
* `diagCells`, `diagonal_eq` — the cells that a diagonal visits, and that it fails exactly when
  it leaves the matrix.
* `MatchInv` — the invariant of the wavefront.
* `allocateReads_iff` — a round does what it should exactly when there are no more banks than
  collector units.
-/

namespace CompressionWork.Opndcoll

/-! ## The source -/

/-- `op_t`: the collector unit, the register, the warp and the operand. -/
structure Op where
  ocId : ℕ
  reg : ℕ
  wid : ℕ
  operand : ℕ
  deriving DecidableEq, Repr

/-- `enum alloc_t` -/
inductive Alloc where
  | noAlloc
  | readAlloc
  | writeAlloc
  deriving DecidableEq, Repr

/-- `arbiter_t` -/
structure Arbiter where
  numBanks : ℕ
  numCollectors : ℕ
  allocatedBank : ℕ → Alloc
  queue : ℕ → List Op
  lastCu : ℕ

/-- `_inmatch` and `_outmatch`; `none` is -1. -/
structure Matching where
  inmatch : ℕ → Option ℕ
  outmatch : ℕ → Option ℕ

/-- `_request[i][j]` -/
def Arbiter.request (a : Arbiter) (i j : ℕ) : Bool :=
  match a.queue i with
  | [] => false
  | op :: _ => op.ocId = j

/-- `_square` -/
def Arbiter.square (a : Arbiter) : ℕ :=
  if a.numBanks > a.numCollectors then a.numBanks else a.numCollectors

/-- The matching is cleared; a write gets priority. -/
def Arbiter.clearMatching (a : Arbiter) : Matching where
  inmatch := fun i => if a.allocatedBank i = .writeAlloc then some 0 else none
  outmatch := fun _ => none

/-- A cell of the request matrix. -/
def Arbiter.grant (a : Arbiter) (m : Matching) (c : ℕ × ℕ) : Matching :=
  if c.2 < a.numCollectors ∧ m.inmatch c.1 = none ∧ m.outmatch c.2 = none ∧
      a.request c.1 c.2 = true then
    { inmatch := Function.update m.inmatch c.1 (some c.2)
      outmatch := Function.update m.outmatch c.2 (some c.1) }
  else m

/-- A diagonal, from its first input on; `assert( output < _outputs )` comes first. -/
def Arbiter.diagonal (a : Arbiter) : List ℕ → ℕ → Matching → Option Matching
  | [], _, m => some m
  | input :: inputs, output, m =>
      if output < a.numCollectors then
        a.diagonal inputs ((output + 1) % a.square) (a.grant m (input, output))
      else none

/-- The diagonals, the one with priority first. -/
def Arbiter.wavefront (a : Arbiter) (m : Matching) : Option Matching :=
  (List.range a.square).foldlM (fun m p =>
    a.diagonal (List.range a.numBanks) ((a.lastCu + p) % a.square) m) m

/-- The granted requests leave the fronts of their queues. -/
def popGranted (allocatedBank : ℕ → Alloc) (inmatch : ℕ → Option ℕ) :
    List ℕ → (ℕ → List Op) → Option (List Op × (ℕ → List Op))
  | [], queue => some ([], queue)
  | i :: banks, queue =>
      if inmatch i ≠ none ∧ allocatedBank i ≠ .writeAlloc then
        match queue i with
        | [] => none
        | op :: rest =>
            (popGranted allocatedBank inmatch banks (Function.update queue i rest)).map fun r =>
              (op :: r.1, r.2)
      else popGranted allocatedBank inmatch banks queue

/-- `arbiter_t::allocate_reads`. `assert( oc_id < _outputs )` is about every queue that is not
empty. -/
def Arbiter.allocateReads (a : Arbiter) : Option (List Op × Arbiter) :=
  if 0 < a.square ∧
      (List.range a.numBanks).all fun i => (a.queue i).head?.all fun op => op.ocId < a.numCollectors then
    (a.wavefront a.clearMatching).bind fun m =>
      (popGranted a.allocatedBank m.inmatch (List.range a.numBanks) a.queue).map fun r =>
        (r.1, { a with queue := r.2, lastCu := (a.lastCu + 1) % a.square })
  else none

/-- `register_bank` -/
def registerBank (regnum wid numBanks bankWarpShift : ℕ) : ℕ :=
  (if bankWarpShift = 0 then regnum else regnum + wid) % numBanks

/-- `opndcoll_rfu_t` -/
structure Rfu where
  arbiter : Arbiter
  bankWarpShift : ℕ

/-- The bank that a read is for. -/
def Rfu.bank (r : Rfu) (op : Op) : ℕ :=
  registerBank op.reg op.wid r.arbiter.numBanks r.bankWarpShift

/-- The loop over the granted reads: `allocate_for_read` and `alloc_read`. -/
def allocateForRead (numBanks : ℕ) (bank : Op → ℕ) :
    List Op → (ℕ → Alloc) → Option (ℕ → Alloc)
  | [], allocatedBank => some allocatedBank
  | op :: ops, allocatedBank =>
      if bank op < numBanks ∧ allocatedBank (bank op) = .noAlloc then
        allocateForRead numBanks bank ops (Function.update allocatedBank (bank op) .readAlloc)
      else none

/-- `opndcoll_rfu_t::allocate_reads`: the granted reads, and the state after it.  What the
collector units do with them is not modelled. -/
def Rfu.allocateReads (r : Rfu) : Option (List Op × Rfu) :=
  r.arbiter.allocateReads.bind fun res =>
    (allocateForRead r.arbiter.numBanks r.bank res.1 res.2.allocatedBank).map fun allocatedBank =>
      (res.1, { r with arbiter := { res.2 with allocatedBank := allocatedBank } })

/-! ## What a round should do -/

/-- What holds when `allocate_reads` is called: `init` has checked the sizes, `process_banks`
has freed the banks, and `add_read_requests` puts the reads of a collector unit into the queues
of their banks. -/
structure Rfu.Ok (r : Rfu) : Prop where
  banks : 0 < r.arbiter.numBanks
  collectors : 0 < r.arbiter.numCollectors
  noRead : ∀ i, r.arbiter.allocatedBank i ≠ .readAlloc
  ocId : ∀ i, ∀ op ∈ r.arbiter.queue i, op.ocId < r.arbiter.numCollectors
  bank : ∀ i, ∀ op ∈ r.arbiter.queue i, r.bank op = i

/-- A round: no assertion fails; there is at most one read for a bank, none for a bank that is
written, at most one for a collector unit; the granted reads are what leaves the fronts of the
queues; and every front that could have been granted has its bank or its collector taken. -/
def Fair (r : Rfu) : Prop :=
  ∃ result r', r.allocateReads = some (result, r') ∧
    (result.map r.bank).Nodup ∧
    (∀ op ∈ result, r.arbiter.allocatedBank (r.bank op) ≠ .writeAlloc) ∧
    (result.map Op.ocId).Nodup ∧
    (∀ i, (∃ op ∈ result, r.bank op = i ∧ r.arbiter.queue i = op :: r'.arbiter.queue i) ∨
      ((∀ op ∈ result, r.bank op ≠ i) ∧ r'.arbiter.queue i = r.arbiter.queue i)) ∧
    ∀ i < r.arbiter.numBanks, r.arbiter.allocatedBank i ≠ .writeAlloc →
      ∀ op, (r.arbiter.queue i).head? = some op →
        (∃ g ∈ result, r.bank g = i) ∨ ∃ g ∈ result, g.ocId = op.ocId

/-! ## Diagonals -/

section Wavefront

variable {a : Arbiter}

/-- The cells of a diagonal. -/
def diagCells (square : ℕ) : List ℕ → ℕ → List (ℕ × ℕ)
  | [], _ => []
  | input :: inputs, output => (input, output) :: diagCells square inputs ((output + 1) % square)

theorem diagonal_eq (inputs : List ℕ) (output : ℕ) (m : Matching) :
    a.diagonal inputs output m =
      if ∀ c ∈ diagCells a.square inputs output, c.2 < a.numCollectors then
        some ((diagCells a.square inputs output).foldl a.grant m)
      else none := by
  induction inputs generalizing output m with
  | nil => simp [Arbiter.diagonal, diagCells]
  | cons input inputs ih =>
      rw [Arbiter.diagonal, diagCells]
      simp only [List.forall_mem_cons, List.foldl_cons]
      by_cases hlt : output < a.numCollectors
      · rw [if_pos hlt, ih]
        simp only [hlt, true_and]
      · rw [if_neg hlt, if_neg fun h => hlt h.1]

/-- The cell of each input on a diagonal. -/
theorem mem_diagCells {square output : ℕ} (ho : output < square) {n : ℕ} :
    ∀ {s t : ℕ}, t < n → (s + t, (output + t) % square) ∈ diagCells square (List.range' s n) output := by
  induction n generalizing output with
  | zero => intro s t ht; omega
  | succ n ih =>
      intro s t ht
      rw [List.range'_succ, diagCells, List.mem_cons]
      cases t with
      | zero => exact Or.inl (by rw [Nat.add_zero, Nat.add_zero, Nat.mod_eq_of_lt ho])
      | succ t =>
          have hmem := @ih ((output + 1) % square) (Nat.mod_lt _ (by omega)) (s + 1) t (by omega)
          rw [Nat.mod_add_mod] at hmem
          refine Or.inr ?_
          rw [show s + (t + 1) = s + 1 + t by omega, show output + (t + 1) = output + 1 + t by omega]
          exact hmem

theorem lt_of_mem_diagCells {square : ℕ} {inputs : List ℕ} : ∀ {output : ℕ}, output < square →
    ∀ c ∈ diagCells square inputs output, c.1 ∈ inputs ∧ c.2 < square := by
  induction inputs with
  | nil => intro output _ c hc; simp [diagCells] at hc
  | cons input inputs ih =>
      intro output ho c hc
      rcases List.mem_cons.1 hc with rfl | hc
      · exact ⟨List.mem_cons_self .., ho⟩
      · obtain ⟨hin, hlt⟩ := ih (Nat.mod_lt _ (by omega)) c hc
        exact ⟨List.mem_cons_of_mem _ hin, hlt⟩

/-- All cells that the wavefront visits. -/
def Arbiter.cells (a : Arbiter) : List (ℕ × ℕ) :=
  (List.range a.square).flatMap fun p =>
    diagCells a.square (List.range a.numBanks) ((a.lastCu + p) % a.square)

theorem square_pos (hb : 0 < a.numBanks) : 0 < a.square := by
  unfold Arbiter.square
  split <;> omega

/-- **No more banks than collectors**: no diagonal leaves the matrix. -/
theorem wavefront_eq (hb : 0 < a.numBanks) (h : a.numBanks ≤ a.numCollectors) (m : Matching) :
    a.wavefront m = some (a.cells.foldl a.grant m) := by
  have hsq : a.square = a.numCollectors := if_neg (by omega)
  have hpos := square_pos hb
  rw [Arbiter.wavefront, Arbiter.cells]
  generalize List.range a.square = ps
  induction ps generalizing m with
  | nil => rfl
  | cons p ps ih =>
      have hdiag : a.diagonal (List.range a.numBanks) ((a.lastCu + p) % a.square) m =
          some ((diagCells a.square (List.range a.numBanks) ((a.lastCu + p) % a.square)).foldl
            a.grant m) := by
        rw [diagonal_eq, if_pos]
        intro c hc
        rw [← hsq]
        exact (lt_of_mem_diagCells (Nat.mod_lt _ hpos) c hc).2
      rw [List.foldlM_cons, hdiag, List.flatMap_cons, List.foldl_append]
      exact ih _

/-- **More banks than collectors**: the first diagonal leaves the matrix. -/
theorem wavefront_none (h : a.numCollectors < a.numBanks) (m : Matching) :
    a.wavefront m = none := by
  have hsq : a.square = a.numBanks := if_pos h
  have hpos : 0 < a.square := by omega
  obtain ⟨n, hn⟩ : ∃ n, a.square = n + 1 := ⟨a.square - 1, by omega⟩
  have hdiag : a.diagonal (List.range a.numBanks) ((a.lastCu + 0) % a.square) m = none := by
    rw [diagonal_eq, if_neg]
    intro hall
    generalize ho : (a.lastCu + 0) % a.square = output at hall
    have hlt : output < a.square := ho ▸ Nat.mod_lt _ hpos
    -- the input whose output is the first one beyond the collectors
    let t := if output ≤ a.numCollectors then a.numCollectors - output
      else a.numCollectors + a.square - output
    have ht : t < a.numBanks := by
      simp only [t]
      split <;> omega
    have hcell : (output + t) % a.square = a.numCollectors := by
      simp only [t]
      split
      · rw [show output + (a.numCollectors - output) = a.numCollectors by omega,
          Nat.mod_eq_of_lt (by omega)]
      · rw [show output + (a.numCollectors + a.square - output) = a.numCollectors + a.square by omega,
          Nat.add_mod_right, Nat.mod_eq_of_lt (by omega)]
    have hmem := mem_diagCells hlt (s := 0) ht
    rw [← List.range_eq_range'] at hmem
    have := hall _ hmem
    simp only [hcell] at this
    omega
  rw [Arbiter.wavefront, hn, List.range_succ_eq_map, List.foldlM_cons, ← hn, hdiag]
  rfl

/-- **Every cell of the matrix is on some diagonal.** -/
theorem mem_cells (h : a.numBanks ≤ a.numCollectors) {i j : ℕ} (hi : i < a.numBanks)
    (hj : j < a.numCollectors) : (i, j) ∈ a.cells := by
  have hsq : a.square = a.numCollectors := if_neg (by omega)
  have hpos : 0 < a.square := by omega
  generalize hq : a.square = q at hsq hpos
  -- the diagonal that reaches output `j` at input `i`
  have hr : (a.lastCu + i) % q < q := Nat.mod_lt _ hpos
  let p := if j < (a.lastCu + i) % q then j + q - (a.lastCu + i) % q else j - (a.lastCu + i) % q
  have hp : p < q := by
    simp only [p]
    split <;> omega
  have hcell : ((a.lastCu + p) % q + i) % q = j := by
    rw [Nat.mod_add_mod, Nat.add_right_comm, ← Nat.mod_add_mod]
    simp only [p]
    split
    · rw [show (a.lastCu + i) % q + (j + q - (a.lastCu + i) % q) = j + q by omega, Nat.add_mod_right,
        Nat.mod_eq_of_lt (by omega)]
    · rw [show (a.lastCu + i) % q + (j - (a.lastCu + i) % q) = j by omega,
        Nat.mod_eq_of_lt (by omega)]
  refine List.mem_flatMap.2 ⟨p, by rw [hq]; exact List.mem_range.2 hp, ?_⟩
  have hmem := @mem_diagCells q _ (Nat.mod_lt (a.lastCu + p) hpos) _ 0 _ hi
  rw [← List.range_eq_range', Nat.zero_add, hcell] at hmem
  rw [hq]
  exact hmem

/-! ## The matching -/

/-- The matching after some cells: it pairs fronts of queues with their collectors, banks that
are written stay out of it, and a request that was seen has its bank or its collector taken. -/
structure MatchInv (a : Arbiter) (seen : List (ℕ × ℕ)) (m : Matching) : Prop where
  granted : ∀ i j, a.allocatedBank i ≠ .writeAlloc → m.inmatch i = some j →
    a.request i j = true ∧ m.outmatch j = some i
  matched : ∀ i j, m.outmatch j = some i → a.allocatedBank i ≠ .writeAlloc ∧ m.inmatch i = some j
  written : ∀ i, a.allocatedBank i = .writeAlloc → m.inmatch i ≠ none
  maximal : ∀ c ∈ seen, a.request c.1 c.2 = true → m.inmatch c.1 ≠ none ∨ m.outmatch c.2 ≠ none

theorem matchInv_clear : MatchInv a [] a.clearMatching := by
  refine ⟨fun i j hw hm => ?_, fun i j hm => ?_, fun i hw => ?_, by simp⟩
  · simp [Arbiter.clearMatching, hw] at hm
  · simp [Arbiter.clearMatching] at hm
  · simp [Arbiter.clearMatching, hw]

theorem MatchInv.grant {seen : List (ℕ × ℕ)} {m : Matching} (h : MatchInv a seen m) {c : ℕ × ℕ}
    (hc : c.2 < a.numCollectors) : MatchInv a (c :: seen) (a.grant m c) := by
  obtain ⟨i₀, j₀⟩ := c
  unfold Arbiter.grant
  split
  · rename_i hgrant
    obtain ⟨-, hin, hout, hreq⟩ := hgrant
    dsimp only at hin hout hreq
    have hnw : a.allocatedBank i₀ ≠ .writeAlloc := fun hw => h.written i₀ hw hin
    refine ⟨fun i j hw hm => ?_, fun i j hm => ?_, fun i hw => ?_, fun c hc hcreq => ?_⟩
    · dsimp only at hm ⊢
      by_cases hi : i = i₀
      · subst hi
        rw [Function.update_self] at hm
        obtain rfl := Option.some.inj hm
        exact ⟨hreq, Function.update_self ..⟩
      · rw [Function.update_of_ne hi] at hm
        obtain ⟨hr, ho⟩ := h.granted i j hw hm
        have hj : j ≠ j₀ := by
          rintro rfl
          rw [hout] at ho
          simp at ho
        exact ⟨hr, by rw [Function.update_of_ne hj, ho]⟩
    · dsimp only at hm ⊢
      by_cases hj : j = j₀
      · subst hj
        rw [Function.update_self] at hm
        obtain rfl := Option.some.inj hm
        exact ⟨hnw, Function.update_self ..⟩
      · rw [Function.update_of_ne hj] at hm
        obtain ⟨hw, hi⟩ := h.matched i j hm
        have hne : i ≠ i₀ := by
          rintro rfl
          rw [hin] at hi
          simp at hi
        exact ⟨hw, by rw [Function.update_of_ne hne, hi]⟩
    · have hne : i ≠ i₀ := fun heq => hnw (heq ▸ hw)
      dsimp only
      rw [Function.update_of_ne hne]
      exact h.written i hw
    · rcases List.mem_cons.1 hc with rfl | hc
      · exact Or.inl (by simp)
      · dsimp only
        rcases h.maximal c hc hcreq with hm | hm
        · refine Or.inl ?_
          by_cases hi : c.1 = i₀
          · rw [hi, Function.update_self]
            simp
          · rwa [Function.update_of_ne hi]
        · refine Or.inr ?_
          by_cases hj : c.2 = j₀
          · rw [hj, Function.update_self]
            simp
          · rwa [Function.update_of_ne hj]
  · rename_i hgrant
    refine ⟨h.granted, h.matched, h.written, fun c hc' hcreq => ?_⟩
    rcases List.mem_cons.1 hc' with rfl | hc'
    · by_contra hfree
      rw [not_or, not_not, not_not] at hfree
      exact hgrant ⟨hc, hfree.1, hfree.2, hcreq⟩
    · exact h.maximal c hc' hcreq

theorem MatchInv.foldl {cells : List (ℕ × ℕ)} (hcells : ∀ c ∈ cells, c.2 < a.numCollectors) :
    ∀ {seen : List (ℕ × ℕ)} {m : Matching}, MatchInv a seen m →
      MatchInv a (cells.reverse ++ seen) (cells.foldl a.grant m) := by
  induction cells with
  | nil => exact fun h => h
  | cons c cells ih =>
      intro seen m h
      have hrest := ih (fun c' hc' => hcells c' (List.mem_cons_of_mem _ hc'))
        (h.grant (hcells c (List.mem_cons_self ..)))
      rwa [List.reverse_cons, List.append_assoc, List.singleton_append]

end Wavefront

/-! ## The granted reads -/

/-- A bank that gets a read. -/
def Granted (allocatedBank : ℕ → Alloc) (inmatch : ℕ → Option ℕ) (i : ℕ) : Prop :=
  inmatch i ≠ none ∧ allocatedBank i ≠ .writeAlloc

instance (allocatedBank : ℕ → Alloc) (inmatch : ℕ → Option ℕ) :
    DecidablePred (Granted allocatedBank inmatch) :=
  fun _ => inferInstanceAs (Decidable (_ ∧ _))

/-- The read of a bank that gets one. -/
def grantedFront (allocatedBank : ℕ → Alloc) (inmatch : ℕ → Option ℕ) (queue : ℕ → List Op)
    (i : ℕ) : Option Op :=
  if Granted allocatedBank inmatch i then (queue i).head? else none

theorem popGranted_eq {allocatedBank : ℕ → Alloc} {inmatch : ℕ → Option ℕ} {banks : List ℕ}
    (hnodup : banks.Nodup) : ∀ {queue : ℕ → List Op},
      (∀ i ∈ banks, Granted allocatedBank inmatch i → queue i ≠ []) →
      popGranted allocatedBank inmatch banks queue =
        some (banks.filterMap (grantedFront allocatedBank inmatch queue),
          fun i => if i ∈ banks ∧ Granted allocatedBank inmatch i then (queue i).tail else queue i) := by
  induction banks with
  | nil => intro queue _; simp [popGranted]
  | cons i banks ih =>
      intro queue hne
      rw [List.nodup_cons] at hnodup
      rw [popGranted]
      by_cases hg : Granted allocatedBank inmatch i
      · obtain ⟨op, rest, hq⟩ := List.exists_cons_of_ne_nil (hne i (List.mem_cons_self ..) hg)
        have hother : ∀ i' ∈ banks, Function.update queue i rest i' = queue i' :=
          fun i' hi' => Function.update_of_ne (fun heq => hnodup.1 (by rw [← heq]; exact hi')) _ _
        have hrest := @ih hnodup.2 (Function.update queue i rest) fun i' hi' hg' => by
          rw [hother i' hi']
          exact hne i' (List.mem_cons_of_mem _ hi') hg'
        rw [if_pos (show _ ∧ _ from hg), hq]
        dsimp only
        rw [hrest, Option.map_some, Option.some.injEq, Prod.mk.injEq]
        constructor
        · have hfront : grantedFront allocatedBank inmatch queue i = some op := by
            rw [grantedFront, if_pos hg, hq, List.head?_cons]
          rw [List.filterMap_cons_some hfront]
          refine congrArg _ (List.filterMap_congr fun i' hi' => ?_)
          rw [grantedFront, grantedFront, hother i' hi']
        · funext i'
          dsimp only
          by_cases heq : i' = i
          · rw [heq, if_neg fun h => hnodup.1 h.1, if_pos ⟨List.mem_cons_self .., hg⟩,
              Function.update_self, hq, List.tail_cons]
          · rw [Function.update_of_ne heq]
            simp only [List.mem_cons, heq, false_or]
      · have hrest := ih hnodup.2 fun i' hi' => hne i' (List.mem_cons_of_mem _ hi')
        have hfront : grantedFront allocatedBank inmatch queue i = none := if_neg hg
        rw [if_neg (show ¬(_ ∧ _) from hg), hrest, List.filterMap_cons_none hfront, Option.some.injEq, Prod.mk.injEq]
        refine ⟨rfl, ?_⟩
        funext i'
        by_cases heq : i' = i
        · rw [heq, if_neg fun h => hg h.2, if_neg fun h => hg h.2]
        · simp only [List.mem_cons, heq, false_or]

/-- Reads for different free banks are allocated without a failing assertion. -/
theorem allocateForRead_isSome {numBanks : ℕ} {bank : Op → ℕ} {ops : List Op}
    (hnodup : (ops.map bank).Nodup) : ∀ {allocatedBank : ℕ → Alloc},
      (∀ op ∈ ops, bank op < numBanks ∧ allocatedBank (bank op) = .noAlloc) →
      ∃ allocatedBank', allocateForRead numBanks bank ops allocatedBank = some allocatedBank' := by
  induction ops with
  | nil => exact fun _ => ⟨_, rfl⟩
  | cons op ops ih =>
      intro allocatedBank hfree
      rw [List.map_cons, List.nodup_cons] at hnodup
      rw [allocateForRead, if_pos (hfree op (List.mem_cons_self ..))]
      refine ih hnodup.2 fun op' hop' => ?_
      obtain ⟨hlt, hno⟩ := hfree op' (List.mem_cons_of_mem _ hop')
      have hne : bank op' ≠ bank op := fun heq => hnodup.1 (heq ▸ List.mem_map_of_mem hop')
      exact ⟨hlt, by rw [Function.update_of_ne hne, hno]⟩

/-! ## One round -/

section Round

variable {r : Rfu}

theorem head_of_request {a : Arbiter} {i j : ℕ} (h : a.request i j = true) :
    ∃ op rest, a.queue i = op :: rest ∧ op.ocId = j := by
  unfold Arbiter.request at h
  split at h
  · simp at h
  · rename_i op rest hq
    exact ⟨op, rest, hq, by simpa using h⟩

theorem request_of_head {a : Arbiter} {i : ℕ} {op : Op} (h : (a.queue i).head? = some op) :
    a.request i op.ocId = true := by
  unfold Arbiter.request
  cases hq : a.queue i with
  | nil => simp [hq] at h
  | cons op' rest =>
      obtain rfl : op' = op := by simpa [hq] using h
      simp

/-- Only queues of banks have requests. -/
theorem Rfu.Ok.lt_numBanks (h : r.Ok) {i : ℕ} {op : Op} (hop : op ∈ r.arbiter.queue i) :
    i < r.arbiter.numBanks := by
  rw [← h.bank i op hop]
  exact Nat.mod_lt _ h.banks

/-- The allocator of the arbiter, when there are no more banks than collectors. -/
theorem Rfu.Ok.allocateReads_eq (h : r.Ok) (hle : r.arbiter.numBanks ≤ r.arbiter.numCollectors) :
    ∃ m, MatchInv r.arbiter r.arbiter.cells.reverse m ∧
      r.arbiter.allocateReads = some
        ((List.range r.arbiter.numBanks).filterMap
            (grantedFront r.arbiter.allocatedBank m.inmatch r.arbiter.queue),
          { r.arbiter with
            queue := fun i => if i ∈ List.range r.arbiter.numBanks ∧
                Granted r.arbiter.allocatedBank m.inmatch i then (r.arbiter.queue i).tail
              else r.arbiter.queue i
            lastCu := (r.arbiter.lastCu + 1) % r.arbiter.square }) := by
  have hcells : ∀ c ∈ r.arbiter.cells, c.2 < r.arbiter.numCollectors := by
    intro c hc
    obtain ⟨p, -, hc⟩ := List.mem_flatMap.1 hc
    have hsq : r.arbiter.square = r.arbiter.numCollectors := if_neg (by omega)
    have hlt := (lt_of_mem_diagCells (Nat.mod_lt _ (square_pos h.banks)) c hc).2
    omega
  have hinv := matchInv_clear.foldl hcells
  rw [List.append_nil] at hinv
  generalize hm : r.arbiter.cells.foldl r.arbiter.grant r.arbiter.clearMatching = m at hinv
  refine ⟨m, hinv, ?_⟩
  have hqueues : (List.range r.arbiter.numBanks).all (fun i =>
      (r.arbiter.queue i).head?.all fun op => op.ocId < r.arbiter.numCollectors) = true := by
    refine List.all_eq_true.2 fun i _ => ?_
    cases hq : r.arbiter.queue i with
    | nil => rfl
    | cons op rest =>
        have hlt := h.ocId i op (by rw [hq]; exact List.mem_cons_self ..)
        simpa using hlt
  have hne : ∀ i ∈ List.range r.arbiter.numBanks, Granted r.arbiter.allocatedBank m.inmatch i →
      r.arbiter.queue i ≠ [] := by
    rintro i - ⟨hin, hw⟩
    obtain ⟨j, hj⟩ := Option.ne_none_iff_exists'.1 hin
    obtain ⟨op, rest, hq, -⟩ := head_of_request (hinv.granted i j hw hj).1
    rw [hq]
    exact List.cons_ne_nil _ _
  rw [Arbiter.allocateReads, if_pos ⟨square_pos h.banks, hqueues⟩, wavefront_eq h.banks hle, hm,
    Option.bind_some, popGranted_eq List.nodup_range hne, Option.map_some]

/-- A granted read is the front of the queue of its bank, and its collector unit is matched with
that bank. -/
theorem MatchInv.of_grantedFront {a : Arbiter} {seen : List (ℕ × ℕ)} {m : Matching}
    (hinv : MatchInv a seen m) {i : ℕ} {op : Op}
    (hop : grantedFront a.allocatedBank m.inmatch a.queue i = some op) :
    Granted a.allocatedBank m.inmatch i ∧ (∃ rest, a.queue i = op :: rest) ∧
      m.outmatch op.ocId = some i := by
  rw [grantedFront] at hop
  split at hop
  · rename_i hg
    obtain ⟨j, hj⟩ := Option.ne_none_iff_exists'.1 hg.1
    obtain ⟨hreq, hout⟩ := hinv.granted i j hg.2 hj
    obtain ⟨op', rest, hq, rfl⟩ := head_of_request hreq
    obtain rfl : op' = op := by simpa [hq] using hop
    exact ⟨hg, ⟨rest, hq⟩, hout⟩
  · simp at hop

/-- Every bank that gets a read has one. -/
theorem MatchInv.exists_grantedFront {a : Arbiter} {seen : List (ℕ × ℕ)} {m : Matching}
    (hinv : MatchInv a seen m) {i : ℕ} (hg : Granted a.allocatedBank m.inmatch i) :
    ∃ op, grantedFront a.allocatedBank m.inmatch a.queue i = some op := by
  obtain ⟨j, hj⟩ := Option.ne_none_iff_exists'.1 hg.1
  obtain ⟨op, rest, hq, -⟩ := head_of_request (hinv.granted i j hg.2 hj).1
  exact ⟨op, by rw [grantedFront, if_pos hg, hq, List.head?_cons]⟩

/-- When the key of a value tells where it comes from, the keys are different. -/
theorem nodup_map_filterMap_range {α β : Type} {front : ℕ → Option α} {key : α → β} (n : ℕ)
    (h : ∀ i i' op op', front i = some op → front i' = some op' → key op = key op' → i = i') :
    (((List.range n).filterMap front).map key).Nodup := by
  rw [List.map_filterMap]
  refine List.Nodup.filterMap (fun i i' b hb hb' => ?_) List.nodup_range
  obtain ⟨op, hop, rfl⟩ := Option.map_eq_some_iff.1 hb
  obtain ⟨op', hop', heq⟩ := Option.map_eq_some_iff.1 hb'
  exact h i i' op op' hop hop' heq.symm

/-- With more banks than collectors the first diagonal fails. -/
theorem Fair.le (h : Fair r) : r.arbiter.numBanks ≤ r.arbiter.numCollectors := by
  obtain ⟨result, r', hrun, -⟩ := h
  by_contra hlt
  have hnone : r.arbiter.allocateReads = none := by
    rw [Arbiter.allocateReads, wavefront_none (by omega)]
    split <;> rfl
  rw [Rfu.allocateReads, hnone] at hrun
  simp at hrun

/-- **The allocator is safe and maximal exactly when there are no more banks than collector
units**: for all sizes, contents of the queues and banks that are written.  With more banks the
first diagonal leaves the request matrix and the assertion on `output` fails. -/
theorem allocateReads_iff (h : r.Ok) :
    Fair r ↔ r.arbiter.numBanks ≤ r.arbiter.numCollectors := by
  refine ⟨Fair.le, fun hle => ?_⟩
  obtain ⟨m, hinv, hrun⟩ := h.allocateReads_eq hle
  have hbank : ∀ i op, grantedFront r.arbiter.allocatedBank m.inmatch r.arbiter.queue i = some op →
      r.bank op = i := by
    intro i op hop
    obtain ⟨-, ⟨rest, hq⟩, -⟩ := hinv.of_grantedFront hop
    exact h.bank i op (by rw [hq]; exact List.mem_cons_self ..)
  generalize hres : (List.range r.arbiter.numBanks).filterMap
    (grantedFront r.arbiter.allocatedBank m.inmatch r.arbiter.queue) = result at hrun
  have hmem : ∀ op, op ∈ result ↔ ∃ i < r.arbiter.numBanks,
      grantedFront r.arbiter.allocatedBank m.inmatch r.arbiter.queue i = some op := by
    intro op
    rw [← hres, List.mem_filterMap]
    simp only [List.mem_range]
  have hbanks : (result.map r.bank).Nodup := by
    rw [← hres]
    refine nodup_map_filterMap_range _ fun i i' op op' hop hop' heq => ?_
    rw [← hbank i op hop, ← hbank i' op' hop', heq]
  have hocIds : (result.map Op.ocId).Nodup := by
    rw [← hres]
    refine nodup_map_filterMap_range _ fun i i' op op' hop hop' heq => ?_
    have hout := (hinv.of_grantedFront hop).2.2
    rw [heq, (hinv.of_grantedFront hop').2.2] at hout
    exact (Option.some.inj hout).symm
  have hfree : ∀ op ∈ result, r.bank op < r.arbiter.numBanks ∧
      r.arbiter.allocatedBank (r.bank op) = .noAlloc := by
    intro op hop
    obtain ⟨i, hi, hop⟩ := (hmem op).1 hop
    rw [hbank i op hop]
    refine ⟨hi, ?_⟩
    cases halloc : r.arbiter.allocatedBank i with
    | noAlloc => rfl
    | readAlloc => exact absurd halloc (h.noRead i)
    | writeAlloc => exact absurd halloc (hinv.of_grantedFront hop).1.2
  obtain ⟨allocatedBank', halloc⟩ := allocateForRead_isSome hbanks hfree
  refine ⟨result, _, by rw [Rfu.allocateReads, hrun, Option.bind_some, halloc, Option.map_some],
    hbanks, ?_, hocIds, ?_, ?_⟩
  · -- no granted bank is written
    intro op hop
    rw [(hfree op hop).2]
    simp
  · -- the granted reads leave their queues
    intro i
    dsimp only
    by_cases hg : i ∈ List.range r.arbiter.numBanks ∧ Granted r.arbiter.allocatedBank m.inmatch i
    · obtain ⟨op, hop⟩ := hinv.exists_grantedFront hg.2
      obtain ⟨-, ⟨rest, hq⟩, -⟩ := hinv.of_grantedFront hop
      refine Or.inl ⟨op, (hmem op).2 ⟨i, List.mem_range.1 hg.1, hop⟩, hbank i op hop, ?_⟩
      rw [if_pos hg, hq, List.tail_cons]
    · refine Or.inr ⟨fun op hop hi => hg ?_, if_neg hg⟩
      obtain ⟨i', hi', hop⟩ := (hmem op).1 hop
      rw [← hi, hbank i' op hop]
      exact ⟨List.mem_range.2 hi', (hinv.of_grantedFront hop).1⟩
  · -- a front that is left has its bank or its collector taken
    intro i hi hw op hop
    have hcell := mem_cells hle hi (h.ocId i op (List.mem_of_mem_head? hop))
    rcases hinv.maximal _ (List.mem_reverse.2 hcell) (request_of_head hop) with hin | hout
    · obtain ⟨g, hg⟩ := hinv.exists_grantedFront ⟨hin, hw⟩
      exact Or.inl ⟨g, (hmem g).2 ⟨i, hi, hg⟩, hbank i g hg⟩
    · obtain ⟨i', hi'⟩ := Option.ne_none_iff_exists'.1 hout
      obtain ⟨hw', hin'⟩ := hinv.matched i' _ hi'
      obtain ⟨g, hg⟩ := hinv.exists_grantedFront ⟨by rw [hin']; simp, hw'⟩
      obtain ⟨-, ⟨rest, hq⟩, -⟩ := hinv.of_grantedFront hg
      obtain ⟨op', rest', hq', hoc⟩ := head_of_request (hinv.granted i' _ hw' hin').1
      obtain rfl : op' = g := (List.cons.inj (hq'.symm.trans hq)).1
      have hlt := h.lt_numBanks (show op' ∈ r.arbiter.queue i' by rw [hq]; exact List.mem_cons_self ..)
      exact Or.inr ⟨op', (hmem op').2 ⟨i', hlt, hg⟩, hoc⟩

/-- Two banks whose fronts are for one collector unit: one of them gets its read. -/
theorem allocateReads_iff_contention :
    let r : Rfu :=
      { arbiter :=
          { numBanks := 2
            numCollectors := 2
            allocatedBank := fun _ => .noAlloc
            queue := fun i =>
              if i = 0 then [⟨1, 0, 0, 0⟩] else if i = 1 then [⟨1, 1, 0, 1⟩, ⟨0, 3, 0, 0⟩] else []
            lastCu := 0 }
        bankWarpShift := 0 }
    (r.allocateReads.map fun res => res.1) = some [⟨1, 1, 0, 1⟩] ∧ Fair r := by
  intro r
  have hok : r.Ok :=
    { banks := by decide
      collectors := by decide
      noRead := fun i => by simp [r]
      ocId := fun i op hop => by
        simp only [r] at hop ⊢
        split_ifs at hop
        · obtain rfl := List.mem_singleton.1 hop
          decide
        · rcases List.mem_pair.1 hop with rfl | rfl <;> decide
        · simp at hop
      bank := fun i op hop => by
        simp only [r] at hop ⊢
        split_ifs at hop with h0 h1
        · obtain rfl := List.mem_singleton.1 hop
          simp [h0, Rfu.bank, registerBank]
        · rcases List.mem_pair.1 hop with rfl | rfl <;> simp [h1, Rfu.bank, registerBank]
        · simp at hop }
  exact ⟨by decide, (allocateReads_iff hok).2 (by decide)⟩

/-- Two banks, one collector unit and nothing to read: the second cell of the first diagonal is
not in the matrix. -/
theorem allocateReads_fails : ¬∀ r : Rfu, r.Ok → Fair r := by
  intro h
  let r : Rfu :=
    { arbiter :=
        { numBanks := 2
          numCollectors := 1
          allocatedBank := fun _ => .noAlloc
          queue := fun _ => []
          lastCu := 0 }
      bankWarpShift := 0 }
  have hok : r.Ok :=
    { banks := by decide
      collectors := by decide
      noRead := fun i => by simp [r]
      ocId := fun i op hop => by simp [r] at hop
      bank := fun i op hop => by simp [r] at hop }
  obtain ⟨result, r', hrun, -⟩ := h r hok
  have hnone : (r.allocateReads.map fun res => res.1) = none := by decide
  rw [hrun] at hnone
  simp at hnone

end Round

end CompressionWork.Opndcoll
