import CompressionWork.Decode.PreDecode

/-!
# The usual instructions

* `Plain` — up to three scalar sources or one vector source, and up to one memory operand with registers, in
  an instruction that reads or writes memory.
* `keeps_of_plain` — a plain instruction keeps all its registers.
-/

namespace CompressionWork.Decode

namespace Operand

/-- No null element stands before a register. -/
def Gapless : Operand → Prop
  | vector v => ∀ i r, v i = some r → i.val < vectNelem v
  | _ => True

/-- `is_vector`. -/
def isVector : Operand → Bool
  | vector _ => true
  | _ => false

/-- A scalar register that is not the null register. -/
def isScalar : Operand → Bool
  | reg r => r != 0
  | _ => false

variable {r m : ℕ} {o : Operand} {l : List Operand} {v : Fin 4 → Option ℕ} {i : Fin 4}

/-! ## Slots -/

theorem not_covers (ho : o.isVector = false) (i : Fin 4) : ¬o.Covers i := by
  intro hcov
  cases o with
  | vector v => exact absurd ho nofun
  | _ => exact hcov

/-- Without vectors, three source registers have room. -/
theorem held_of_scalars (hvec : ∀ o ∈ l, o.isVector = false) (hroom : m + l.countP isScalar ≤ 3)
    (hr : 0 < r) (hmem : reg r ∈ l) : ∃ i, Held i r m l := by
  induction l generalizing m with
  | nil => exact absurd hmem List.not_mem_nil
  | cons o rest ih =>
    rw [List.countP_cons] at hroom
    rcases List.mem_cons.1 hmem with rfl | hmem
    · have hscalar : isScalar (reg r) = true := bne_iff_ne.2 hr.ne'
      rw [if_pos hscalar] at hroom
      refine ⟨⟨m, by omega⟩, Or.inl ⟨⟨rfl, rfl, by omega⟩, fun w hw => ?_⟩⟩
      exact not_covers (hvec w (List.mem_cons_of_mem _ hw)) _
    · have hwidth : o.width ≤ if o.isScalar = true then 1 else 0 := by
        cases o with
        | reg r =>
          simp only [width, isScalar, bne_iff_ne, ne_eq]
          split <;> simp [*]
        | vector v => exact absurd (hvec _ List.mem_cons_self) (by simp [isVector])
        | _ => exact Nat.zero_le _
      obtain ⟨i, hi⟩ := ih (m := m + o.width) (fun w hw => hvec w (List.mem_cons_of_mem _ hw))
        (by omega) hmem
      exact ⟨i, Or.inr hi⟩

/-- A single vector keeps its elements, wherever it comes. -/
theorem held_of_vector (hone : l.countP isVector ≤ 1) (hgap : (vector v).Gapless) (hmem : vector v ∈ l)
    (hi : v i = some r) : Held i r m l := by
  induction l generalizing m with
  | nil => exact absurd hmem List.not_mem_nil
  | cons o rest ih =>
    rw [List.countP_cons] at hone
    rcases List.mem_cons.1 hmem with rfl | hmem
    · have hrest : rest.countP isVector = 0 := by
        have : isVector (vector v) = true := rfl
        rw [if_pos this] at hone
        omega
      refine Or.inl ⟨⟨hi, hgap i r hi⟩, fun w hw => not_covers ?_ i⟩
      exact Bool.eq_false_iff.2 (List.countP_eq_zero.1 hrest w hw)
    · exact Or.inr (ih (by omega) hmem)

/-! ## Addresses -/

/-- The only operand in which `f` finds a register. -/
theorem last_of_single {f : Operand → Option ℕ} (hone : l.countP (fun o => (f o).isSome) ≤ 1)
    (hmem : o ∈ l) (hf : f o = some r) : Last f r l := by
  induction l with
  | nil => exact absurd hmem List.not_mem_nil
  | cons o' rest ih =>
    rw [List.countP_cons] at hone
    rcases List.mem_cons.1 hmem with rfl | hmem
    · have hrest : rest.countP (fun o => (f o).isSome) = 0 := by
        rw [hf, if_pos Option.isSome_some] at hone
        omega
      refine Or.inl ⟨hf, fun w hw => Option.not_isSome_iff_eq_none.1 ?_⟩
      exact List.countP_eq_zero.1 hrest w hw
    · exact Or.inr (ih (by omega) hmem)

theorem addr1_of_addr2 (ho : o.addr2.isSome) : o.addr1.isSome := by
  cases o with
  | segmentTwin r1 r2 => rfl
  | _ => exact absurd ho nofun

end Operand

namespace Inst

open Operand

variable {inst : Inst} {r : ℕ} {o : Operand}

/-- What the usual instructions have: no gaps in vectors, sources that fit, one address. -/
structure Plain (inst : Inst) : Prop where
  gapless : ∀ o ∈ inst.operands, o.Gapless
  sources : (∀ o ∈ inst.srcs, o.isVector = false) ∧ inst.srcs.countP isScalar ≤ 3 ∨
    inst.srcs.countP isScalar = 0 ∧ inst.srcs.countP isVector ≤ 1
  address : inst.operands.countP (fun o => o.addr1.isSome) ≤ 1
  memory : (∃ o ∈ inst.operands, o.addr1.isSome) → (inst.hasMemoryRead || inst.hasMemoryWrite) = true

theorem dsts_or_srcs (ho : o ∈ inst.operands) : inst.dsts = [o] ∨ o ∈ inst.srcs := by
  unfold dsts srcs
  split
  · cases hops : inst.operands with
    | nil => exact absurd (hops ▸ ho) List.not_mem_nil
    | cons o' rest =>
      rw [hops] at ho
      rcases List.mem_cons.1 ho with rfl | hmem
      · exact Or.inl rfl
      · exact Or.inr hmem
  · exact Or.inr ho

theorem Plain.keeps_reg (h : inst.Plain) (hr : 0 < r) (ho : Operand.reg r ∈ inst.operands) : inst.Keeps r := by
  rcases dsts_or_srcs ho with hdst | hsrc
  · left
    rw [hdst]
    exact held_of_scalars (by simp [isVector]) (by simp [List.countP_cons, isScalar, hr.ne']) hr
      (List.mem_singleton_self _)
  · right
    left
    rcases h.sources with ⟨hvec, hroom⟩ | ⟨hnone, -⟩
    · exact held_of_scalars hvec (by omega) hr hsrc
    · have hscalar : isScalar (.reg r) = true := bne_iff_ne.2 hr.ne'
      exact absurd hscalar (List.countP_eq_zero.1 hnone _ hsrc)

theorem Plain.keeps_vector (h : inst.Plain) {v : Fin 4 → Option ℕ} {i : Fin 4} (hi : v i = some r)
    (ho : Operand.vector v ∈ inst.operands) : inst.Keeps r := by
  have hgap := h.gapless _ ho
  rcases dsts_or_srcs ho with hdst | hsrc
  · left
    rw [hdst]
    exact ⟨i, held_of_vector (by simp [isVector]) hgap (List.mem_singleton_self _) hi⟩
  · right
    left
    rcases h.sources with ⟨hvec, -⟩ | ⟨-, hone⟩
    · exact absurd (hvec _ hsrc) nofun
    · exact ⟨i, held_of_vector hone hgap hsrc hi⟩

theorem Plain.keeps_address (h : inst.Plain) (ho : o ∈ inst.operands)
    (hr : o.addr1 = some r ∨ o.addr2 = some r) : inst.Keeps r := by
  have hsome : o.addr1.isSome := by
    rcases hr with hr | hr
    · rw [hr]
      rfl
    · exact addr1_of_addr2 (by rw [hr]; rfl)
  refine Or.inr (Or.inr (Or.inr ⟨h.memory ⟨o, ho, hsome⟩, ?_⟩))
  rcases hr with hr | hr
  · exact Or.inl (last_of_single h.address ho hr)
  · have hle := List.countP_mono_left (l := inst.operands) fun o _ => addr1_of_addr2 (o := o)
    exact Or.inr (last_of_single (hle.trans h.address) ho hr)

/-- A plain instruction keeps all its registers. -/
theorem keeps_of_plain (h : inst.Plain) (hr : r ∈ inst.uses) : inst.Keeps r := by
  have hpos := uses_pos hr
  rcases List.mem_append.1 (List.mem_filter.1 hr).1 with hop | hpred
  · obtain ⟨o, ho, hro⟩ := List.mem_flatMap.1 hop
    cases o with
    | reg s =>
      obtain rfl := List.mem_singleton.1 hro
      exact h.keeps_reg hpos ho
    | vector v =>
      obtain ⟨i, -, hi⟩ := List.mem_filterMap.1 hro
      exact h.keeps_vector hi ho
    | _ =>
      refine h.keeps_address ho ((List.mem_append.1 hro).imp ?_ ?_)
      all_goals exact Option.mem_toList.1
  · exact Or.inr (Or.inr (Or.inl (Option.mem_toList.1 hpred)))

end Inst

end CompressionWork.Decode
