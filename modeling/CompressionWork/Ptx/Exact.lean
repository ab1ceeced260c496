/-
# When the control-flow graph is exact

* `Regular` — the instruction lists whose graph is exact;
* `exactGraph_iff` — there and nowhere else `create_basic_blocks` and `connect_basic_blocks` give
  an exact graph.
-/
import CompressionWork.Ptx.Graph
import Mathlib.Tactic.IntervalCases

namespace CompressionWork
namespace Ptx

variable {insts is : List Inst} {p q t b c : ℕ} {r : Real} {g : Blocks} {l : Links}

/-- Every branch has a target: its label is there, and a real instruction behind it. -/
def TargetsFollowed (insts : List Inst) : Prop :=
  ∀ (q : ℕ) (r : Real), insts[q]? = some (.real r) → r.opcode = .bra →
    ∃ t, BranchTarget insts r.target t

/-- The instruction lists that the code splits and links exactly. -/
structure Regular (insts : List Inst) : Prop where
  /-- The list does not start with two labels: the second one would end a block without an
  instruction. -/
  oneLabel : ∀ a b, insts[0]? = some (.label a) → insts[1]? ≠ some (.label b)
  /-- The first element, which the first loop does not look at, is no transfer with an instruction
  right behind it. -/
  firstTransfer : ∀ r, insts[0]? = some (.real r) → r.isTransfer = true → ¬ IsReal insts 1
  /-- Control does not run off the end: the slot behind the last instruction is never written. -/
  closes : ∃ q r, insts[q]? = some (.real r) ∧ (∀ j, q < j → ¬ IsReal insts j) ∧
    (r.isReturn = true ∨ (r.opcode = .bra ∧ r.hasPred = false))
  /-- No predicated return has an instruction behind it. -/
  returns : ∀ q r t, insts[q]? = some (.real r) → r.isReturn = true → r.hasPred = true →
    ¬ NextReal insts q t

/-! ## Splits -/

theorem exists_nextReal (hlt : q < t) (ht : IsReal insts t) : ∃ n, NextReal insts q n ∧ n ≤ t := by
  have hspec := findNextReal_drop insts (q + 1)
  cases hfind : findNextReal (q + 1) (insts.drop (q + 1)) with
  | none =>
      rw [hfind] at hspec
      exact absurd ht (hspec t hlt)
  | some n =>
      refine ⟨n, nextReal_iff.2 hfind, ?_⟩
      rw [hfind] at hspec
      by_contra hle
      exact hspec.2.2 t hlt (by omega) ht

theorem Splits.before (h : Splits insts g) {n n' : ℕ} {x y : Block} (hx : g.blocks[n]? = some x)
    (hy : g.blocks[n']? = some y) (hlt : n < n') : x.ptxEnd < y.ptxBegin := by
  obtain ⟨hn, rfl⟩ := List.getElem?_eq_some_iff.1 hx
  obtain ⟨hn', rfl⟩ := List.getElem?_eq_some_iff.1 hy
  exact List.pairwise_iff_getElem.1 h.ordered n n' hn hn' hlt

/-- An instruction is the last of its block when the next one is the first of its own. -/
theorem Splits.lastOf (h : Splits insts g) (hq : IsReal insts q)
    (hnext : ∀ t, NextReal insts q t → FirstOf g t) : LastOf g q := by
  obtain ⟨n, x, hn, hx, hle, hge⟩ := h.placed q hq
  refine ⟨n, x, hn, hx, ?_⟩
  by_contra hne
  have hends := h.ends x (List.mem_of_getElem? hx)
  obtain ⟨t, ht, htx⟩ := exists_nextReal (show q < x.ptxEnd by omega) hends.2.1
  have hafter := ht.after
  obtain ⟨n', y, -, hy, hbegin⟩ := hnext t ht
  have hends' := h.ends y (List.mem_of_getElem? hy)
  rcases Nat.lt_trichotomy n n' with hlt | rfl | hlt
  · have := h.before hx hy hlt
    omega
  · obtain rfl : x = y := Option.some.inj (hx.symm.trans hy)
    omega
  · have := h.before hy hx hlt
    omega

/-! ## The blocks of a list that does not start with two labels -/

theorem createBasicBlocks_cons (i : Inst) (is : List Inst) :
    createBasicBlocks (i :: is) = (findNextReal 0 (i :: is)).map fun b =>
      ⟨(walkFrom 1 .plain is ⟨[], b, 0, [0]⟩).all, (walkFrom 1 .plain is ⟨[], b, 0, [0]⟩).bbs⟩ := by
  have hhead := @head?_scanLeaders_ne is 0 1 false Nat.zero_lt_one
  cases hfind : findNextReal 0 (i :: is) with
  | none => simp [createBasicBlocks, hfind]
  | some b =>
      have hfirst : (⟨[], b, 0, []⟩ : Walk).assignBb 0 i = ⟨[], b, 0, [0]⟩ := by
        cases i <;> rfl
      have hwalk := @walk_eq_walkFrom is 1 ⟨[], b, 0, [0]⟩ .plain
      simp only [Follow.pending, Follow.skips, reduceCtorEq, false_and, if_false,
        List.nil_append] at hwalk
      simp [createBasicBlocks, hfind, walk, hhead, hfirst, hwalk]

/-- The first real instruction opens the first block. -/
theorem made_first (hreal : IsReal insts p) (honly : ∀ q < p + 1, IsReal insts q → q = p) :
    Made insts p (p + 1) ⟨[], p, p, List.replicate (p + 1) 0⟩ := by
  have hplaced : ∀ q < p + 1, IsReal insts q → ∃ b blk,
      (List.replicate (p + 1) 0)[q]? = some b ∧ ([⟨p, p⟩] : List Block)[b]? = some blk ∧
      blk.ptxBegin = q ∧ blk.ptxEnd = q := by
    intro q hq hq'
    obtain rfl := honly q hq hq'
    exact ⟨0, ⟨q, q⟩, List.getElem?_replicate_of_lt hq, rfl, rfl, rfl⟩
  refine ⟨List.length_replicate, ?_, List.pairwise_singleton _ _, ?_, ?_⟩
  · intro blk hmem
    rw [List.mem_singleton.1 hmem]
    exact ⟨hreal, hreal, Nat.le_refl _⟩
  · intro q hq hq'
    obtain ⟨b, blk, hb, hblk, hbegin, hend⟩ := hplaced q hq hq'
    exact ⟨b, blk, hb, hblk, by omega, by omega⟩
  · intro q hq hq' _
    obtain ⟨b, blk, hb, hblk, hbegin, -⟩ := hplaced q hq hq'
    exact ⟨b, blk, hb, hblk, hbegin⟩

theorem walked_init_real (is : List Inst) (r : Real) :
    Walked (.real r :: is) 0 1 .plain ⟨[], 0, 0, [0]⟩ := by
  refine ⟨made_first ⟨r, rfl⟩ fun q hq _ => ?_, Nat.zero_lt_one,
    ⟨.real r, rfl, Or.inr ⟨rfl, rfl, rfl⟩⟩, nofun, fun _ => rfl⟩
  omega

theorem walked_init_label (is : List Inst) (a : String) (r : Real) :
    Walked (.label a :: .real r :: is) 1 2 (.after (.real r)) ⟨[], 1, 1, [0, 0]⟩ := by
  have hafter : Follow.after (.real r) ≠ .label := by
    simp only [Follow.after]
    split <;> simp
  refine ⟨made_first ⟨r, rfl⟩ fun q hq hq' => ?_, Nat.one_lt_two,
    ⟨.real r, rfl, Or.inl rfl⟩, fun h => absurd h hafter, fun _ => rfl⟩
  cases q with
  | zero =>
      obtain ⟨r', hr'⟩ := hq'
      cases hr'
  | succ q => omega

theorem walked_of_create (hg : createBasicBlocks insts = some g)
    (hone : ∀ a b, insts[0]? = some (.label a) → insts[1]? ≠ some (.label b)) :
    ∃ p f w, Walked insts p insts.length f w ∧ g = ⟨w.all, w.bbs⟩ := by
  cases insts with
  | nil => cases hg
  | cons i is =>
      rw [createBasicBlocks_cons, Option.map_eq_some_iff] at hg
      obtain ⟨b, hb, rfl⟩ := hg
      cases i with
      | real r =>
          obtain rfl : 0 = b := Option.some.inj hb
          obtain ⟨f, hw⟩ := walked_walkFrom (walked_init_real is r) List.drop_one
          exact ⟨0, f, _, hw, rfl⟩
      | label a =>
          cases is with
          | nil => cases hb
          | cons i is =>
              cases i with
              | label a' => exact absurd rfl (hone a a' rfl)
              | real r =>
                  obtain rfl : 1 = b := Option.some.inj hb
                  obtain ⟨f, hw⟩ := walked_walkFrom (walked_init_label is a r)
                    (show (Inst.label a :: .real r :: is).drop 2 = is from rfl)
                  exact ⟨1, f, _, hw, rfl⟩

/-- The blocks split the instructions, and blocks start where `Starts` says. -/
theorem splits_of_create (hg : createBasicBlocks insts = some g)
    (hone : ∀ a b, insts[0]? = some (.label a) → insts[1]? ≠ some (.label b)) :
    Splits insts g ∧ ∃ p, ∀ t, IsReal insts t → Starts insts p t → FirstOf g t := by
  obtain ⟨p, f, w, hw, rfl⟩ := walked_of_create hg hone
  exact ⟨⟨hw.made.ends, hw.made.ordered, fun q hq => hw.made.placed q (isReal_lt hq) hq⟩,
    p, fun t ht hstarts => hw.made.first t (isReal_lt ht) ht hstarts⟩

theorem label_before (h : NextReal insts q t) (hlt : q + 1 < t) :
    ∃ a, insts[t - 1]? = some (.label a) := by
  have hlen := isReal_lt h.real
  obtain ⟨i, hi⟩ : ∃ i, insts[t - 1]? = some i := ⟨_, List.getElem?_eq_getElem (by omega)⟩
  cases i with
  | label a => exact ⟨a, hi⟩
  | real r => exact absurd ⟨r, hi⟩ (h.labels (t - 1) (by omega) (by omega))

theorem starts_of_label {a : String} (hq : insts[q]? = some (.label a)) (h : NextReal insts q t) :
    Starts insts p t := by
  have hafter := h.after
  rcases Nat.lt_or_ge (q + 1) t with hlt | hge
  · obtain ⟨a', ha'⟩ := label_before h hlt
    exact Or.inr (Or.inl ⟨t - 1, a', by omega, ha'⟩)
  · exact Or.inr (Or.inl ⟨q, a, by omega, hq⟩)

theorem starts_of_transfer (hreg : Regular insts) (hq : insts[q]? = some (.real r))
    (hr : r.isTransfer = true) (h : NextReal insts q t) : Starts insts p t := by
  have hafter := h.after
  rcases Nat.lt_or_ge (q + 1) t with hlt | hge
  · obtain ⟨a', ha'⟩ := label_before h hlt
    exact Or.inr (Or.inl ⟨t - 1, a', by omega, ha'⟩)
  · obtain rfl : t = q + 1 := by omega
    have hpos : 0 < q := by
      rcases Nat.eq_zero_or_pos q with rfl | hpos
      · exact absurd h.real (hreg.firstTransfer r hq hr)
      · exact hpos
    exact Or.inr (Or.inr ⟨q, r, rfl, hpos, hq, Real.endsBlock_of_isTransfer hr⟩)

/-! ## Links -/

theorem passes_iff_passesOn (he : insts[q]? = some (.real r)) (hr : r.isReturn = false) :
    Passes insts g q c ↔ PassesOn insts g r q c := by
  have htransfer : (r.isTransfer = false ∨ r.hasPred = true) ↔
      ¬ (r.opcode = .bra ∧ r.hasPred = false) := by
    simp only [Real.isTransfer, hr, Bool.false_or, decide_eq_false_iff_not, not_and,
      Bool.not_eq_false]
    tauto
  constructor
  · rintro ⟨r', hr', ⟨hret, -⟩ | hbra | ⟨hpass, hnext⟩⟩
    · obtain rfl : r = r' := Inst.real.inj (Option.some.inj (he.symm.trans hr'))
      exact absurd hret (by simp [hr])
    · obtain rfl : r = r' := Inst.real.inj (Option.some.inj (he.symm.trans hr'))
      exact Or.inl hbra
    · obtain rfl : r = r' := Inst.real.inj (Option.some.inj (he.symm.trans hr'))
      exact Or.inr ⟨htransfer.1 hpass, hnext⟩
  · rintro (hbra | ⟨hpass, hnext⟩)
    · exact ⟨r, he, Or.inr (Or.inl hbra)⟩
    · exact ⟨r, he, Or.inr (Or.inr ⟨htransfer.2 hpass, hnext⟩)⟩

theorem passes_return (hreg : Regular insts) (he : insts[q]? = some (.real r))
    (hr : r.isReturn = true) : Passes insts g q c ↔ c = g.exitId := by
  constructor
  · rintro ⟨r', hr', ⟨-, hc⟩ | ⟨hbra, -⟩ | ⟨hpass, t, ht, -⟩⟩
    · exact hc
    · obtain rfl : r = r' := Inst.real.inj (Option.some.inj (he.symm.trans hr'))
      simp [Real.isReturn, hbra] at hr
    · obtain rfl : r = r' := Inst.real.inj (Option.some.inj (he.symm.trans hr'))
      rcases hpass with hnot | hpred
      · simp [Real.isTransfer, hr] at hnot
      · exact absurd ht (hreg.returns q r t he hr hpred)
  · intro hc
    exact ⟨r, he, Or.inl ⟨hr, hc⟩⟩

/-- Of a regular list every block is linked, to the blocks control can pass to. -/
theorem successors_of_regular (hreg : Regular insts) (htargets : TargetsFollowed insts)
    (hs : Splits insts g) {blk : Block} (hblk : blk ∈ g.blocks) :
    ∃ cs, successors insts g blk = some cs ∧ ∀ c, c ∈ cs ↔ Passes insts g blk.ptxEnd c := by
  obtain ⟨-, ⟨r, he⟩, -⟩ := hs.ends blk hblk
  have hplaced : ∀ t, IsReal insts t → ∃ c, g.bbs[t]? = some c := by
    intro t ht
    obtain ⟨n, -, hn, -⟩ := hs.placed t ht
    exact ⟨n, hn⟩
  cases hr : r.isReturn with
  | true =>
      refine ⟨_, successors_return he hr, fun c => ?_⟩
      rw [passes_return hreg he hr, List.mem_singleton]
  | false =>
      obtain ⟨cs, hcs⟩ : ∃ cs, successors insts g blk = some cs := by
        refine successors_isSome he (fun hop => ?_) ?_
        · obtain ⟨t, ht⟩ := htargets _ r he hop
          have hreal : IsReal insts t := by
            obtain ⟨k, -, -, hnext⟩ := ht
            exact hnext.real
          exact ⟨t, ht, hplaced t hreal⟩
        · obtain ⟨q, rq, hq, hlast, hclose⟩ := hreg.closes
          rcases Nat.lt_trichotomy blk.ptxEnd q with hlt | heq | hlt
          · obtain ⟨t, ht, -⟩ := exists_nextReal hlt ⟨rq, hq⟩
            exact Or.inr (Or.inr ⟨t, ht, hplaced t ht.real⟩)
          · rw [heq] at he
            obtain rfl : r = rq := Inst.real.inj (Option.some.inj (he.symm.trans hq))
            exact hclose.elim Or.inl fun h => Or.inr (Or.inl h)
          · exact absurd ⟨r, he⟩ (hlast _ hlt)
      refine ⟨cs, hcs, fun c => ?_⟩
      rw [mem_successors he hr (htargets _ r he) hcs, passes_iff_passesOn he hr]

theorem exactGraph_of_regular (htargets : TargetsFollowed insts) (hreg : Regular insts) :
    ExactGraph insts := by
  obtain ⟨g, hg⟩ : ∃ g, createBasicBlocks insts = some g := by
    obtain ⟨q, r, hq, -⟩ := hreg.closes
    have hspec := findNextReal_drop insts 0
    cases insts with
    | nil => cases hq
    | cons i is =>
        rw [createBasicBlocks_cons]
        cases hfind : findNextReal 0 (i :: is) with
        | none =>
            rw [List.drop_zero, hfind] at hspec
            exact absurd ⟨r, hq⟩ (hspec q (Nat.zero_le _))
        | some b => exact ⟨_, rfl⟩
  obtain ⟨hs, p, hfirst⟩ := splits_of_create hg hreg.oneLabel
  have hsucc := fun (blk : Block) (hblk : blk ∈ g.blocks) => successors_of_regular hreg htargets hs hblk
  obtain ⟨l, hl⟩ : ∃ l, connectBasicBlocks insts g = some l :=
    connectFrom_isSome _ fun blk hblk => (hsucc blk hblk).imp fun _ h => h.1
  obtain ⟨-, hsuccessor, hpred⟩ := connectBasicBlocks_spec hl
  have hafter : ∀ (q : ℕ) (r : Real) (t : ℕ), insts[q]? = some (.real r) → r.isTransfer = true →
      NextReal insts q t → FirstOf g t := fun q r t hq hr hnext =>
    hfirst t hnext.real (starts_of_transfer hreg hq hr hnext)
  refine ⟨g, l, hg, hl, hs, ?_, ?_, hafter, ?_, hpred⟩
  · intro q r hq hr
    exact hs.lastOf ⟨r, hq⟩ fun t ht => hafter q r t hq hr ht
  · rintro q r t - - ⟨k, hk, -, hnext⟩
    exact hfirst t hnext.real (starts_of_label hk hnext)
  · intro b c
    rw [hsuccessor]
    constructor
    · rintro ⟨blk, cs, hblk, hcs, hc⟩
      obtain ⟨cs', hcs', hmem⟩ := hsucc blk (List.mem_of_getElem? hblk)
      obtain rfl : cs = cs' := Option.some.inj (hcs.symm.trans hcs')
      exact ⟨blk, hblk, (hmem c).1 hc⟩
    · rintro ⟨blk, hblk, hc⟩
      obtain ⟨cs, hcs, hmem⟩ := hsucc blk (List.mem_of_getElem? hblk)
      exact ⟨blk, cs, hblk, hcs, (hmem c).2 hc⟩

/-! ## Lists that are not regular -/

theorem exists_last (insts : List Inst) (q : ℕ) (hq : IsReal insts q) :
    ∃ n, IsReal insts n ∧ ∀ j, n < j → ¬ IsReal insts j := by
  by_cases h : ∃ t, q < t ∧ IsReal insts t
  · obtain ⟨t, hlt, ht⟩ := h
    have := isReal_lt ht
    exact exists_last insts t ht
  · exact ⟨q, hq, fun j hj hreal => h ⟨j, hj, hreal⟩⟩
termination_by insts.length - q

/-- The second loop only appends: it keeps the blocks that are closed and the blocks given. -/
theorem prefix_walkFrom (k : ℕ) (f : Follow) (is : List Inst) (w : Walk) :
    w.closed <+: (walkFrom k f is w).closed ∧ w.bbs <+: (walkFrom k f is w).bbs := by
  induction is generalizing k f w with
  | nil => exact ⟨List.prefix_rfl, List.prefix_rfl⟩
  | cons i is ih =>
      obtain ⟨hclosed, hbbs⟩ := ih (k + 1) (.after i)
        ((if f.cuts i then w.startBlock (findNextReal k (i :: is)) else w).assignBb k i)
      have hstep : w.closed <+:
          (if f.cuts i then w.startBlock (findNextReal k (i :: is)) else w).closed ∧
          w.bbs = (if f.cuts i then w.startBlock (findNextReal k (i :: is)) else w).bbs := by
        split
        · cases findNextReal k (i :: is) with
          | none => exact ⟨List.prefix_rfl, rfl⟩
          | some b => exact ⟨List.prefix_append _ _, rfl⟩
        · exact ⟨List.prefix_rfl, rfl⟩
      refine ⟨hstep.1.trans hclosed, List.IsPrefix.trans ?_ hbbs⟩
      rw [hstep.2]
      exact List.prefix_append _ _

theorem getElem?_prefixed {α : Type*} {xs ys : List α} (h : xs <+: ys) {n : ℕ} {x : α}
    (hx : xs[n]? = some x) : ys[n]? = some x := by
  obtain ⟨zs, rfl⟩ := h
  rw [List.getElem?_append_left (List.getElem?_eq_some_iff.1 hx).1]
  exact hx

namespace ExactGraph

theorem oneLabel (h : ExactGraph insts) {a b : String} (ha : insts[0]? = some (.label a)) :
    insts[1]? ≠ some (.label b) := by
  intro hb
  obtain ⟨g, l, hg, -, hexact⟩ := h
  obtain ⟨is, rfl⟩ : ∃ is, insts = .label a :: .label b :: is := by
    rcases insts with _ | ⟨i, _ | ⟨i', is⟩⟩
    · cases ha
    · cases hb
    · obtain rfl := Option.some.inj ha
      obtain rfl := Option.some.inj hb
      exact ⟨is, rfl⟩
  rw [createBasicBlocks_cons, Option.map_eq_some_iff] at hg
  obtain ⟨n, hn, rfl⟩ := hg
  -- the block that the second label ends is the one of the first label
  have hfind : findNextReal 1 (.label b :: is) = some n := hn
  have hpre := (prefix_walkFrom 2 .label is
    (((⟨[], n, 0, [0]⟩ : Walk).startBlock (some n)).assignBb 1 (.label b))).1
  have hwalk : walkFrom 1 .plain (.label b :: is) ⟨[], n, 0, [0]⟩ = walkFrom 2 .label is
      (((⟨[], n, 0, [0]⟩ : Walk).startBlock (some n)).assignBb 1 (.label b)) := by
    rw [walkFrom, hfind]
    rfl
  have hmem : (⟨n, 0⟩ : Block) ∈ (walkFrom 1 .plain (.label b :: is) ⟨[], n, 0, [0]⟩).all := by
    rw [hwalk]
    exact List.mem_append_left _ (hpre.subset List.mem_cons_self)
  obtain ⟨-, ⟨r, hr⟩, -⟩ := hexact.splits.ends _ hmem
  cases hr

theorem firstTransfer (h : ExactGraph insts) (hr : insts[0]? = some (.real r))
    (htransfer : r.isTransfer = true) : ¬ IsReal insts 1 := by
  rintro ⟨r', hr'⟩
  obtain ⟨g, l, hg, -, hexact⟩ := h
  obtain ⟨n, x, hn, hx, hend⟩ := hexact.transferLast 0 r hr htransfer
  obtain ⟨n', y, hn', hy, -, hge⟩ := hexact.splits.placed 1 ⟨r', hr'⟩
  obtain ⟨is, rfl⟩ : ∃ is, insts = .real r :: .real r' :: is := by
    rcases insts with _ | ⟨i, _ | ⟨i', is⟩⟩
    · cases hr
    · cases hr'
    · obtain rfl := Option.some.inj hr
      obtain rfl := Option.some.inj hr'
      exact ⟨is, rfl⟩
  rw [createBasicBlocks_cons, Option.map_eq_some_iff] at hg
  obtain ⟨m, hm, rfl⟩ := hg
  -- both are given the first block
  have hbbs : [0, 0] <+: (walkFrom 1 .plain (.real r' :: is) ⟨[], m, 0, [0]⟩).bbs :=
    (prefix_walkFrom 2 (.after (.real r')) is ⟨[], m, 1, [0, 0]⟩).2
  obtain rfl : 0 = n := Option.some.inj ((getElem?_prefixed hbbs rfl).symm.trans hn)
  obtain rfl : 0 = n' := Option.some.inj ((getElem?_prefixed hbbs rfl).symm.trans hn')
  obtain rfl : x = y := Option.some.inj (hx.symm.trans hy)
  omega

theorem closes (h : ExactGraph insts) :
    ∃ q r, insts[q]? = some (.real r) ∧ (∀ j, q < j → ¬ IsReal insts j) ∧
      (r.isReturn = true ∨ (r.opcode = .bra ∧ r.hasPred = false)) := by
  obtain ⟨g, l, hg, hl, hexact⟩ := h
  have hreal : ∃ q, IsReal insts q := by
    cases insts with
    | nil => cases hg
    | cons i is =>
        rw [createBasicBlocks_cons, Option.map_eq_some_iff] at hg
        obtain ⟨n, hn, -⟩ := hg
        have hspec := findNextReal_drop (i :: is) 0
        rw [List.drop_zero, hn] at hspec
        exact ⟨n, hspec.2.1⟩
  obtain ⟨q, ⟨r, hq⟩, hlast⟩ := hreal.elim fun q hq => exists_last insts q hq
  refine ⟨q, r, hq, hlast, ?_⟩
  by_contra hnot
  obtain ⟨hret, hbra⟩ := not_or.1 hnot
  -- the last instruction ends a block, whose link is read from a slot never written
  obtain ⟨n, x, -, hx, -, hge⟩ := hexact.splits.placed q ⟨r, hq⟩
  have hmem := List.mem_of_getElem? hx
  have hend : x.ptxEnd = q := by
    have := (hexact.splits.ends x hmem).2.1
    have : ¬ q < x.ptxEnd := fun hlt => hlast _ hlt this
    omega
  obtain ⟨cs, hcs⟩ := (connectBasicBlocks_spec hl).1 x hmem
  rw [← hend] at hq
  rw [successors_other hq (by simpa using hret)] at hcs
  obtain ⟨taken, -, hcs⟩ := Option.bind_eq_some_iff.1 hcs
  obtain ⟨next, hnext, -⟩ := Option.bind_eq_some_iff.1 hcs
  rw [fallThrough_eq hq, if_neg hbra, Option.map_eq_some_iff] at hnext
  obtain ⟨c, hc, -⟩ := hnext
  obtain ⟨t, ht, -⟩ := Option.bind_eq_some_iff.1 hc
  have hnextReal := nextReal_iff.2 ht
  exact hlast t (hend ▸ hnextReal.after) hnextReal.real

/-- A predicated return is linked to the exit block only, also with an instruction behind it. -/
theorem returns (h : ExactGraph insts) (hq : insts[q]? = some (.real r))
    (hr : r.isReturn = true) (hpred : r.hasPred = true) : ¬ NextReal insts q t := by
  intro hnext
  obtain ⟨g, l, hg, hl, hexact⟩ := h
  obtain ⟨n, x, -, hx, hend⟩ := hexact.transferLast q r hq (by simp [Real.isTransfer, hr])
  obtain ⟨n', y, hn', hy, -⟩ := hexact.splits.placed t hnext.real
  rw [← hend] at hq
  have hlink := (hexact.successor n n').2
    ⟨x, hx, r, hq, Or.inr (Or.inr ⟨Or.inr hpred, t, hend ▸ hnext, hn'⟩)⟩
  obtain ⟨x', cs, hx', hcs, hmem⟩ := ((connectBasicBlocks_spec hl).2.1 n n').1 hlink
  obtain rfl : x = x' := Option.some.inj (hx.symm.trans hx')
  rw [successors_return hq hr] at hcs
  obtain rfl : [g.exitId] = cs := Option.some.inj hcs
  have hlt := (List.getElem?_eq_some_iff.1 hy).1
  have := List.mem_singleton.1 hmem
  simp only [Blocks.exitId] at this
  omega

theorem regular (h : ExactGraph insts) : Regular insts :=
  ⟨fun _ _ ha => h.oneLabel ha, fun _ hr ht => h.firstTransfer hr ht, h.closes,
    fun _ _ _ hq hr hp => h.returns hq hr hp⟩

end ExactGraph

/-! ## Exact graphs -/

/-- **The control-flow graph is exact for the regular instruction lists and for no others.** -/
theorem exactGraph_iff (insts : List Inst) (htargets : TargetsFollowed insts) :
    ExactGraph insts ↔ Regular insts :=
  ⟨ExactGraph.regular, exactGraph_of_regular htargets⟩

/-- A loop: a predicated branch over a half-size instruction, and a branch back. -/
def loopInsts : List Inst :=
  [.real ⟨.other, false, false, ""⟩, .label "again", .real ⟨.bra, true, false, "done"⟩,
    .real ⟨.other, false, true, ""⟩, .real ⟨.bra, false, false, "again"⟩, .label "done",
    .real ⟨.exit, false, false, ""⟩]

theorem targetsFollowed_loopInsts : TargetsFollowed loopInsts := by
  have hdone : BranchTarget loopInsts "done" 6 := by
    refine ⟨5, rfl, fun j hj => ?_, by omega, ⟨_, rfl⟩, fun j h1 h2 => by omega⟩
    rcases Nat.lt_or_ge j 7 with hlt | hge
    · obtain rfl : j = 6 := by omega
      decide
    · rw [List.getElem?_eq_none hge]
      exact nofun
  have hagain : BranchTarget loopInsts "again" 2 := by
    refine ⟨1, rfl, fun j hj => ?_, by omega, ⟨_, rfl⟩, fun j h1 h2 => by omega⟩
    rcases Nat.lt_or_ge j 7 with hlt | hge
    · interval_cases j <;> decide
    · rw [List.getElem?_eq_none hge]
      exact nofun
  intro q r hq hop
  have hlt := (List.getElem?_eq_some_iff.1 hq).1
  simp only [loopInsts, List.length_cons, List.length_nil] at hlt
  interval_cases q <;> cases hq
  · cases hop
  · exact ⟨6, hdone⟩
  · cases hop
  · exact ⟨2, hagain⟩
  · cases hop

theorem exactGraph_loop : ExactGraph loopInsts := by
  refine (exactGraph_iff loopInsts targetsFollowed_loopInsts).2
    ⟨nofun, fun r hr ht => ?_, ⟨6, _, rfl, fun j hj hreal => ?_, Or.inl rfl⟩,
      fun q r t hq hr hp => ?_⟩
  · obtain rfl := Inst.real.inj (Option.some.inj hr)
    exact absurd ht (by decide)
  · exact absurd (isReal_lt hreal) (by simp [loopInsts]; omega)
  · have hlt := (List.getElem?_eq_some_iff.1 hq).1
    simp only [loopInsts, List.length_cons, List.length_nil] at hlt
    interval_cases q <;> cases hq <;> first | exact absurd hr (by decide) | exact absurd hp (by decide)

/-- A predicated return, and a return for the threads that go on. -/
def returnInsts : List Inst :=
  [.real ⟨.other, false, false, ""⟩, .real ⟨.ret, true, false, ""⟩, .real ⟨.ret, false, false, ""⟩]

/-- The block of the predicated return is linked to the exit block but not to the next one. -/
theorem not_exactGraph : TargetsFollowed returnInsts ∧ ¬ ExactGraph returnInsts := by
  refine ⟨fun q r hq hop => ?_, fun h => ?_⟩
  · have hlt := (List.getElem?_eq_some_iff.1 hq).1
    simp only [returnInsts, List.length_cons, List.length_nil] at hlt
    interval_cases q <;> cases hq <;> cases hop
  · exact h.returns (q := 1) (t := 2) rfl rfl rfl ⟨by omega, ⟨_, rfl⟩, fun j h1 h2 => by omega⟩

end Ptx
end CompressionWork
