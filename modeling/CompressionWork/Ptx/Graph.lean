/-
# The links between the blocks of a PTX function

* `instrMem_succ`, `instrMem_next` — what `m_instr_mem` holds one slot and one instruction behind an
  instruction;
* `successors_return`, `mem_successors` — the links of one block;
* `connectBasicBlocks_spec` — the links of all blocks.
-/
import CompressionWork.Ptx.Leaders

namespace CompressionWork
namespace Ptx

variable {insts is : List Inst} {k p q t e b c : ℕ} {r : Real} {g : Blocks}

/-! ## Instruction memory -/

theorem memFrom_append (k : ℕ) (xs ys : List Inst) :
    memFrom k (xs ++ ys) = memFrom k xs ++ memFrom (k + xs.length) ys := by
  induction xs generalizing k with
  | nil => rfl
  | cons i xs ih =>
      cases i <;> simp [memFrom, ih, Nat.add_assoc, Nat.add_comm 1]

theorem memFrom_zero (k : ℕ) (is : List Inst) :
    (memFrom k is)[0]? = (findNextReal k is).map some := by
  induction is generalizing k with
  | nil => rfl
  | cons i is ih =>
      cases i with
      | label l => exact ih (k + 1)
      | real r => rfl

theorem instrMem_split (k : ℕ) (hk : k ≤ insts.length) :
    instrMem insts = memFrom 0 (insts.take k) ++ memFrom k (insts.drop k) := by
  have h := memFrom_append 0 (insts.take k) (insts.drop k)
  rw [List.take_append_drop, List.length_take, Nat.min_eq_left hk, Nat.zero_add] at h
  exact h

/-- The slots from an instruction on: it, `NULL` for its other bytes, and the instructions after. -/
theorem instrMem_of_real (h : insts[q]? = some (.real r)) :
    instrMem insts = memFrom 0 (insts.take q) ++
      (some q :: List.replicate (r.instSize - 1) none ++ memFrom (q + 1) (insts.drop (q + 1))) := by
  obtain ⟨hlt, hq⟩ := List.getElem?_eq_some_iff.1 h
  rw [instrMem_split q (Nat.le_of_lt hlt), List.drop_eq_getElem_cons hlt, hq, memFrom]

theorem instrMem_succ (h : insts[q]? = some (.real r)) :
    (instrMem insts)[instrMemIndex insts q + 1]? = some none := by
  have hpos := r.instSize_pos
  rw [instrMem_of_real h, instrMemIndex, List.getElem?_append_right (by omega)]
  rw [Nat.add_sub_cancel_left, List.cons_append, List.getElem?_cons_succ,
    List.getElem?_append_left (by simp; omega), List.getElem?_replicate_of_lt (by omega)]

theorem instrMem_next (h : insts[q]? = some (.real r)) :
    (instrMem insts)[instrMemIndex insts q + r.instSize]? =
      (findNextReal (q + 1) (insts.drop (q + 1))).map some := by
  have hpos := r.instSize_pos
  have hlen : (some q :: List.replicate (r.instSize - 1) (none : Option ℕ)).length = r.instSize := by
    simp
    omega
  rw [instrMem_of_real h, instrMemIndex, List.getElem?_append_right (by omega),
    Nat.add_sub_cancel_left, List.getElem?_append_right (by omega), hlen, Nat.sub_self, memFrom_zero]

theorem bbAt_of_mem {addr : ℕ} {o : Option ℕ} (h : (instrMem insts)[addr]? = o.map some) :
    bbAt insts g addr = o.bind fun t => g.bbs[t]? := by
  cases o <;> simp [bbAt, h]

/-! ## Labels -/

theorem labelAddr_append (name : String) (n k : ℕ) (xs ys : List Inst) :
    labelAddr name n (xs ++ ys) =
      (labelAddr name (n + (memFrom k xs).length) ys).or (labelAddr name n xs) := by
  induction xs generalizing n k with
  | nil => simp [labelAddr, memFrom]
  | cons i xs ih =>
      cases i with
      | label l => simp [labelAddr, memFrom, ih n (k + 1), Option.or_assoc]
      | real r =>
          have hpos := r.instSize_pos
          have hlen : r.instSize - 1 + (memFrom (k + 1) xs).length + 1 =
              r.instSize + (memFrom (k + 1) xs).length := by omega
          simp only [List.cons_append, labelAddr, memFrom, ih (n + r.instSize) (k + 1),
            List.length_cons, List.length_append, List.length_replicate]
          rw [hlen, Nat.add_assoc]

theorem labelAddr_eq_none {name : String} (n : ℕ) (h : .label name ∉ is) :
    labelAddr name n is = none := by
  induction is generalizing n with
  | nil => rfl
  | cons i is ih =>
      have his := ih (h := fun hmem => h (List.mem_cons_of_mem _ hmem))
      cases i with
      | label l =>
          have hne : l ≠ name := by
            rintro rfl
            exact h List.mem_cons_self
          simp [labelAddr, his, hne]
      | real r => exact his _

/-- A branch goes where its label was put last. -/
theorem labelAddr_of_branchTarget {name : String} (h : BranchTarget insts name t) :
    ∃ addr, labelAddr name 0 insts = some addr ∧ (instrMem insts)[addr]? = some (some t) := by
  obtain ⟨k, hk, hlast, hnext⟩ := h
  obtain ⟨hlt, hk'⟩ := List.getElem?_eq_some_iff.1 hk
  refine ⟨(memFrom 0 (insts.take k)).length, ?_, ?_⟩
  · have hnone : labelAddr name (memFrom 0 (insts.take k)).length (insts.drop (k + 1)) = none := by
      refine labelAddr_eq_none _ fun hmem => ?_
      obtain ⟨j, hj⟩ := List.mem_iff_getElem?.1 hmem
      rw [List.getElem?_drop] at hj
      exact hlast _ (by omega) hj
    have hsplit : insts = insts.take k ++ .label name :: insts.drop (k + 1) := by
      rw [← hk', ← List.drop_eq_getElem_cons hlt, List.take_append_drop]
    conv_lhs => rw [hsplit]
    rw [labelAddr_append name 0 0, labelAddr, Nat.zero_add, hnone]
    simp
  · rw [instrMem_split k (Nat.le_of_lt hlt), List.getElem?_append_right (Nat.le_refl _), Nat.sub_self,
      memFrom_zero, List.drop_eq_getElem_cons hlt, hk', findNextReal, nextReal_iff.1 hnext]
    rfl

theorem bbAt_target (hb : BranchTarget insts r.target t) :
    (labelAddr r.target 0 insts).bind (bbAt insts g) = g.bbs[t]? := by
  obtain ⟨addr, haddr, hmem⟩ := labelAddr_of_branchTarget hb
  rw [haddr, Option.bind_some, bbAt_of_mem (o := some t) hmem, Option.bind_some]

theorem branchTarget_unique {name : String} {t' : ℕ} (h : BranchTarget insts name t)
    (h' : BranchTarget insts name t') : t = t' := by
  obtain ⟨addr, haddr, hmem⟩ := labelAddr_of_branchTarget h
  obtain ⟨addr', haddr', hmem'⟩ := labelAddr_of_branchTarget h'
  obtain rfl : addr = addr' := Option.some.inj (haddr.symm.trans haddr')
  exact Option.some.inj (Option.some.inj (hmem.symm.trans hmem'))

/-! ## Links of one block -/

/-- A return is linked to the exit block and to nothing else, predicated or not. -/
theorem successors_return {blk : Block} (h : insts[blk.ptxEnd]? = some (.real r))
    (hr : r.isReturn = true) : successors insts g blk = some [g.exitId] := by
  have hnull := instrMem_succ h
  simp only [successors, h, hr, if_true, hnull]
  split_ifs <;> rfl

theorem successors_other {blk : Block} (h : insts[blk.ptxEnd]? = some (.real r))
    (hr : r.isReturn = false) :
    successors insts g blk = (takenBlock insts g r).bind fun taken =>
      (fallThrough insts g r (instrMemIndex insts blk.ptxEnd)).bind fun next =>
        some (taken ++ next) := by
  simp only [successors, h, hr, Bool.false_eq_true, if_false]
  rfl

theorem fallThrough_eq (h : insts[e]? = some (.real r)) :
    fallThrough insts g r (instrMemIndex insts e) =
      if r.opcode = .bra ∧ r.hasPred = false then some []
      else ((findNextReal (e + 1) (insts.drop (e + 1))).bind fun t => g.bbs[t]?).map fun c => [c] := by
  rw [fallThrough, bbAt_of_mem (instrMem_next h)]

/-- What control can do after the instruction `r` at `e`, when it is no return. -/
def PassesOn (insts : List Inst) (g : Blocks) (r : Real) (e c : ℕ) : Prop :=
  (r.opcode = .bra ∧ ∃ t, BranchTarget insts r.target t ∧ g.bbs[t]? = some c) ∨
    (¬ (r.opcode = .bra ∧ r.hasPred = false) ∧ ∃ t, NextReal insts e t ∧ g.bbs[t]? = some c)

theorem mem_successors {blk : Block} {cs : List ℕ} (h : insts[blk.ptxEnd]? = some (.real r))
    (hr : r.isReturn = false) (hbra : r.opcode = .bra → ∃ t, BranchTarget insts r.target t)
    (hcs : successors insts g blk = some cs) : c ∈ cs ↔ PassesOn insts g r blk.ptxEnd c := by
  rw [successors_other h hr] at hcs
  obtain ⟨taken, htaken, hcs⟩ := Option.bind_eq_some_iff.1 hcs
  obtain ⟨next, hnext, hcs⟩ := Option.bind_eq_some_iff.1 hcs
  obtain rfl : taken ++ next = cs := Option.some.inj hcs
  rw [fallThrough_eq h] at hnext
  rw [takenBlock] at htaken
  rw [List.mem_append]
  refine or_congr ?_ ?_
  · by_cases hop : r.opcode = .bra
    · obtain ⟨t, ht⟩ := hbra hop
      rw [if_pos hop, bbAt_target ht, Option.map_eq_some_iff] at htaken
      obtain ⟨c', hc', rfl⟩ := htaken
      constructor
      · intro hmem
        rw [List.mem_singleton.1 hmem]
        exact ⟨hop, t, ht, hc'⟩
      · rintro ⟨-, t', ht', hc⟩
        rw [branchTarget_unique ht' ht] at hc
        exact List.mem_singleton.2 (Option.some.inj (hc.symm.trans hc'))
    · rw [if_neg hop] at htaken
      obtain rfl : [] = taken := Option.some.inj htaken
      simp [hop]
  · by_cases hop : r.opcode = .bra ∧ r.hasPred = false
    · rw [if_pos hop] at hnext
      obtain rfl : [] = next := Option.some.inj hnext
      simp [hop]
    · rw [if_neg hop, Option.map_eq_some_iff] at hnext
      obtain ⟨c', hc', rfl⟩ := hnext
      obtain ⟨t, ht, hc'⟩ := Option.bind_eq_some_iff.1 hc'
      constructor
      · intro hmem
        rw [List.mem_singleton.1 hmem]
        exact ⟨hop, t, nextReal_iff.2 ht, hc'⟩
      · rintro ⟨-, t', ht', hc⟩
        rw [nextReal_iff, ht] at ht'
        obtain rfl : t = t' := Option.some.inj ht'
        exact List.mem_singleton.2 (Option.some.inj (hc.symm.trans hc'))

theorem successors_isSome {blk : Block} (h : insts[blk.ptxEnd]? = some (.real r))
    (hbra : r.opcode = .bra → ∃ t, BranchTarget insts r.target t ∧ ∃ c, g.bbs[t]? = some c)
    (hnext : r.isReturn = true ∨ (r.opcode = .bra ∧ r.hasPred = false) ∨
      ∃ t, NextReal insts blk.ptxEnd t ∧ ∃ c, g.bbs[t]? = some c) :
    ∃ cs, successors insts g blk = some cs := by
  cases hr : r.isReturn with
  | true => exact ⟨_, successors_return h hr⟩
  | false =>
      have htaken : ∃ taken, takenBlock insts g r = some taken := by
        by_cases hop : r.opcode = .bra
        · obtain ⟨t, ht, c, hc⟩ := hbra hop
          exact ⟨[c], by rw [takenBlock, if_pos hop, bbAt_target ht, hc, Option.map_some]⟩
        · exact ⟨[], if_neg hop⟩
      have hafter : ∃ next, fallThrough insts g r (instrMemIndex insts blk.ptxEnd) = some next := by
        rw [fallThrough_eq h]
        by_cases hop : r.opcode = .bra ∧ r.hasPred = false
        · exact ⟨[], if_pos hop⟩
        · obtain ⟨t, ht, c, hc⟩ := (hnext.resolve_left (by simp [hr])).resolve_left hop
          exact ⟨[c], by rw [if_neg hop, nextReal_iff.1 ht, Option.bind_some, hc, Option.map_some]⟩
      obtain ⟨taken, htaken⟩ := htaken
      obtain ⟨next, hafter⟩ := hafter
      exact ⟨taken ++ next, by rw [successors_other h hr, htaken, hafter]; rfl⟩

/-! ## Links of all blocks -/

theorem foldl_link (b : ℕ) (cs : List ℕ) (l : Links) (x y : ℕ) :
    ((x, y) ∈ (cs.foldl (fun l c => l.link b c) l).successorIds ↔
      (x, y) ∈ l.successorIds ∨ (x = b ∧ y ∈ cs)) ∧
    ((y, x) ∈ (cs.foldl (fun l c => l.link b c) l).predecessorIds ↔
      (y, x) ∈ l.predecessorIds ∨ (x = b ∧ y ∈ cs)) := by
  induction cs generalizing l with
  | nil => simp
  | cons c cs ih =>
      obtain ⟨hs, hp⟩ := ih (l.link b c)
      rw [List.foldl_cons, hs, hp]
      simp only [Links.link, List.mem_cons, Prod.mk.injEq]
      tauto

theorem connectFrom_spec {blks : List Block} {l l' : Links}
    (h : connectFrom insts g b blks l = some l') :
    (∀ blk ∈ blks, ∃ cs, successors insts g blk = some cs) ∧
    ∀ x y, ((x, y) ∈ l'.successorIds ↔ (x, y) ∈ l.successorIds ∨
        ∃ n blk cs, blks[n]? = some blk ∧ x = b + n ∧ successors insts g blk = some cs ∧ y ∈ cs) ∧
      ((y, x) ∈ l'.predecessorIds ↔ (y, x) ∈ l.predecessorIds ∨
        ∃ n blk cs, blks[n]? = some blk ∧ x = b + n ∧ successors insts g blk = some cs ∧ y ∈ cs) := by
  induction blks generalizing b l with
  | nil =>
      obtain rfl : l = l' := Option.some.inj h
      simp
  | cons blk blks ih =>
      obtain ⟨cs, hcs, h⟩ := Option.bind_eq_some_iff.1 h
      obtain ⟨hall, hmem⟩ := ih h
      refine ⟨?_, fun x y => ?_⟩
      · intro blk' hblk'
        rcases List.mem_cons.1 hblk' with rfl | hblk'
        · exact ⟨cs, hcs⟩
        · exact hall blk' hblk'
      · have hsplit : (∃ n blk' cs', (blk :: blks)[n]? = some blk' ∧ x = b + n ∧
            successors insts g blk' = some cs' ∧ y ∈ cs') ↔
            (x = b ∧ y ∈ cs) ∨ ∃ n blk' cs', blks[n]? = some blk' ∧ x = b + 1 + n ∧
              successors insts g blk' = some cs' ∧ y ∈ cs' := by
          constructor
          · rintro ⟨n, blk', cs', hn, rfl, hcs', hy⟩
            cases n with
            | zero =>
                obtain rfl : blk = blk' := Option.some.inj hn
                obtain rfl : cs = cs' := Option.some.inj (hcs.symm.trans hcs')
                exact Or.inl ⟨rfl, hy⟩
            | succ n => exact Or.inr ⟨n, blk', cs', hn, by omega, hcs', hy⟩
          · rintro (⟨rfl, hy⟩ | ⟨n, blk', cs', hn, rfl, hcs', hy⟩)
            · exact ⟨0, blk, cs, rfl, rfl, hcs, hy⟩
            · exact ⟨n + 1, blk', cs', hn, by omega, hcs', hy⟩
        obtain ⟨hs, hp⟩ := hmem x y
        obtain ⟨hs', hp'⟩ := foldl_link b cs l x y
        rw [hs, hp, hs', hp', hsplit]
        exact ⟨or_assoc, or_assoc⟩

theorem connectFrom_isSome {blks : List Block} (l : Links)
    (h : ∀ blk ∈ blks, ∃ cs, successors insts g blk = some cs) :
    ∃ l', connectFrom insts g b blks l = some l' := by
  induction blks generalizing b l with
  | nil => exact ⟨l, rfl⟩
  | cons blk blks ih =>
      obtain ⟨cs, hcs⟩ := h blk List.mem_cons_self
      obtain ⟨l', hl'⟩ := ih (b := b + 1) (cs.foldl (fun l c => l.link b c) l)
        fun blk' hmem => h blk' (List.mem_cons_of_mem _ hmem)
      exact ⟨l', by rw [connectFrom, hcs]; exact hl'⟩

/-- The links that `connect_basic_blocks` makes, when no read goes astray. -/
theorem connectBasicBlocks_spec {l : Links} (h : connectBasicBlocks insts g = some l) :
    (∀ blk ∈ g.blocks, ∃ cs, successors insts g blk = some cs) ∧
    (∀ x y, (x, y) ∈ l.successorIds ↔
      ∃ blk cs, g.blocks[x]? = some blk ∧ successors insts g blk = some cs ∧ y ∈ cs) ∧
    ∀ x y, (y, x) ∈ l.predecessorIds ↔ (x, y) ∈ l.successorIds := by
  obtain ⟨hall, hmem⟩ := connectFrom_spec h
  refine ⟨hall, fun x y => ?_, fun x y => ?_⟩
  · rw [(hmem x y).1]
    simp
  · rw [(hmem x y).1, (hmem x y).2]
    simp

end Ptx
end CompressionWork
