import CompressionWork.Ldst.Unit
import Mathlib.Data.List.FinRange
import Mathlib.Tactic.Tauto

/-!
# Registers of a decoded instruction

`pre_decode` copies the registers of an instruction's operands into the fields that the
scoreboard reads.

* `preDecode`, `checkCollision` — the two functions, on the operands of one instruction.
* `foldl_fill` — which register each of the four slots of `in` or `out` ends with.
* `foldl_address` — which registers `ar1` and `ar2` end with.
* `hazardsSeen_iff` — the scoreboard sees every hazard iff every register keeps a field.
-/

namespace CompressionWork.Decode

open Ldst

/-- An operand with its registers. Register number 0 is the null register `_`, the only one that is
not architectural; an element of a vector is null where a four-element vector has `_`. -/
inductive Operand where
  | reg (r : ℕ)
  | vector (v : Fin 4 → Option ℕ)
  /-- `[var+offset]`, with a register if `var` is one, and `[0x10]` without. -/
  | memory (r : Option ℕ)
  /-- `g[$r1+0x4]` or `s[$r2+=0x4]`. -/
  | segment (r : ℕ)
  /-- `s[$r1+$r2]` or `g[$r1+=$r2]`. -/
  | segmentTwin (r1 r2 : ℕ)
  /-- `s[0x10]`: an address space, but not a memory operand. -/
  | segmentLiteral
  /-- A literal, a label, a variable or a built-in register. -/
  | other

/-- The opcodes that `has_memory_read` (`ld`, `ldu`, `tex`) and `has_memory_write` (`st`) name. -/
inductive OpClass where
  | load
  | store
  | other
  deriving DecidableEq

/-- An instruction as the parser gives it: opcode, operands and predicate. -/
structure Inst where
  opcode : OpClass
  /-- The `DST` column of `opcodes.def`. -/
  hasDst : Bool
  operands : List Operand
  pred : Option ℕ

/-- The fields of `inst_t` that `checkCollision` reads. -/
structure Fields where
  out : Fin 4 → ℕ
  inp : Fin 4 → ℕ
  pred : ℕ
  ar1 : ℕ
  ar2 : ℕ

namespace Operand

/-- `is_memory_operand2`. -/
def isMemoryOperand2 : Operand → Bool
  | segment _ => true
  | segmentTwin _ _ => true
  | segmentLiteral => true
  | _ => false

/-- `get_vect_nelem` counts up to the first null element. -/
def vectNelem (v : Fin 4 → Option ℕ) : ℕ :=
  if (v 0).isNone then 0
  else if (v 1).isNone then 1
  else if (v 2).isNone then 2
  else if (v 3).isNone then 3
  else 4

/-- One operand of the first loop: the slots and the index `m`. A destination fills `out` as the first
source fills `in`. -/
def fill (s : (Fin 4 → ℕ) × ℕ) : Operand → (Fin 4 → ℕ) × ℕ
  | reg r => if r = 0 then s else (fun i => if i.val = s.2 ∧ s.2 ≤ 2 then r else s.1 i, s.2 + 1)
  | vector v => (fun i => if i.val < vectNelem v then (v i).getD 0 else s.1 i, s.2 + 4)
  | _ => s

/-- The register that a memory operand assigns to `ar1`. -/
def addr1 : Operand → Option ℕ
  | memory r => r
  | segment r => some r
  | segmentTwin r1 _ => some r1
  | _ => none

/-- The register that a memory operand assigns to `ar2`. -/
def addr2 : Operand → Option ℕ
  | segmentTwin _ r2 => some r2
  | _ => none

/-- One operand of the second loop: `ar1` and `ar2`. -/
def address (a : ℕ × ℕ) (o : Operand) : ℕ × ℕ := (o.addr1.getD a.1, o.addr2.getD a.2)

/-- The registers that the operand names. -/
def regs : Operand → List ℕ
  | reg r => [r]
  | vector v => (List.finRange 4).filterMap v
  | o => o.addr1.toList ++ o.addr2.toList

end Operand

namespace Inst

variable (inst : Inst)

/-- `has_memory_read`. -/
def hasMemoryRead : Bool := inst.opcode == .load || (inst.operands.drop 1).any Operand.isMemoryOperand2

/-- `has_memory_write`. -/
def hasMemoryWrite : Bool := inst.opcode == .store || (inst.operands.take 1).any Operand.isMemoryOperand2

/-- The operand of the branch `has_dst && n == 0`. -/
def dsts : List Operand := if inst.hasDst then inst.operands.take 1 else []

/-- The operands that are read: all but the destination. -/
def srcs : List Operand := if inst.hasDst then inst.operands.drop 1 else inst.operands

/-- `pre_decode`, the register fields. -/
def preDecode : Fields :=
  let ar := if inst.hasMemoryRead || inst.hasMemoryWrite then
    inst.operands.foldl Operand.address (0, 0) else (0, 0)
  { out := (inst.dsts.foldl Operand.fill (fun _ => 0, 0)).1
    inp := (inst.srcs.foldl Operand.fill (fun _ => 0, 0)).1
    pred := inst.pred.getD 0
    ar1 := ar.1
    ar2 := ar.2 }

/-- The architectural registers that the instruction reads or writes. -/
def uses : List ℕ := (inst.operands.flatMap Operand.regs ++ inst.pred.toList).filter (0 < ·)

end Inst

/-- `inst_regs`: the fields that are not 0. -/
def Fields.regs (f : Fields) : List ℕ :=
  (List.ofFn f.out ++ List.ofFn f.inp ++ [f.pred, f.ar1, f.ar2]).filter (0 < ·)

/-- `checkCollision`: some register of the instruction is reserved for the warp. -/
def checkCollision (t : RegTable) (wid : ℕ) (f : Fields) : Bool := f.regs.any (t wid)

/-- The decoded instruction records every register that it uses, and a reserved one is a collision. -/
def HazardsSeen (inst : Inst) : Prop :=
  (∀ r ∈ inst.uses, r ∈ inst.preDecode.regs) ∧
    ∀ (t : RegTable) (wid r : ℕ), r ∈ inst.uses → t wid r = true →
      checkCollision t wid inst.preDecode = true

/-! ## Slots -/

namespace Operand

/-- The operand puts register `r` into slot `i` when it comes at index `m`. -/
def Puts (m : ℕ) (i : Fin 4) (r : ℕ) : Operand → Prop
  | reg s => s = r ∧ i.val = m ∧ m ≤ 2
  | vector v => v i = some r ∧ i.val < vectNelem v
  | _ => False

/-- A later vector overwrites slot `i`. -/
def Covers (i : Fin 4) : Operand → Prop
  | vector v => i.val < vectNelem v
  | _ => False

/-- How far the operand moves the index. -/
def width : Operand → ℕ
  | reg r => if r = 0 then 0 else 1
  | vector _ => 4
  | _ => 0

/-- Slot `i` ends with register `r`, when the operands come from index `m` on. -/
def Held (i : Fin 4) (r : ℕ) : ℕ → List Operand → Prop
  | _, [] => False
  | m, o :: rest => (o.Puts m i r ∧ ∀ w ∈ rest, ¬w.Covers i) ∨ Held i r (m + o.width) rest

/-- Register `r` is the last that `f` finds. -/
def Last (f : Operand → Option ℕ) (r : ℕ) : List Operand → Prop
  | [] => False
  | o :: rest => (f o = some r ∧ ∀ w ∈ rest, f w = none) ∨ Last f r rest

variable {i : Fin 4} {r : ℕ} {s : (Fin 4 → ℕ) × ℕ} {o : Operand}

theorem fill_snd : (fill s o).2 = s.2 + o.width := by
  cases o with
  | reg r =>
    simp only [fill, width]
    split <;> rfl
  | _ => rfl

/-- One operand: slot `i` takes its register, or keeps the one that it had. -/
theorem fill_fst (hr : 0 < r) (hs : ∀ i, 0 < s.1 i → i.val < s.2) :
    (fill s o).1 i = r ↔ o.Puts s.2 i r ∨ s.1 i = r ∧ ¬o.Covers i := by
  cases o with
  | reg r' =>
    simp only [fill, Puts, Covers, not_false_eq_true, and_true]
    by_cases h0 : r' = 0
    · rw [if_pos h0]
      constructor
      · exact Or.inr
      · rintro (⟨rfl, -, -⟩ | h)
        · exact absurd h0 hr.ne'
        · exact h
    · rw [if_neg h0]
      dsimp only
      split_ifs with hi
      · have hnot : s.1 i ≠ r := fun h => by
          have := hs i (by rw [h]; exact hr)
          omega
        simp [hi, hnot]
      · tauto
  | vector v =>
    simp only [fill, Puts, Covers]
    split_ifs with hi
    · cases hv : v i with
      | none => simpa [hi] using hr.ne
      | some x => simp [hi]
    · simp [hi]
  | _ => simp [fill, Puts, Covers]

theorem fill_bound (hs : ∀ i, 0 < s.1 i → i.val < s.2) (i : Fin 4) (hi : 0 < (fill s o).1 i) :
    i.val < (fill s o).2 := by
  rw [fill_snd]
  rcases (fill_fst hi hs).1 rfl with hputs | ⟨hold, -⟩
  · cases o with
    | reg r =>
      have h0 : r ≠ 0 := fun h => hi.ne' (hputs.1.symm.trans h)
      have := hputs.2.1
      simp only [width, if_neg h0]
      omega
    | vector v =>
      have := i.isLt
      simp only [width]
      omega
    | _ => exact hputs.elim
  · have := hs i (hold ▸ hi)
    omega

theorem foldl_fill (hr : 0 < r) {l : List Operand} (hs : ∀ i, 0 < s.1 i → i.val < s.2) :
    (l.foldl fill s).1 i = r ↔ Held i r s.2 l ∨ s.1 i = r ∧ ∀ w ∈ l, ¬w.Covers i := by
  induction l generalizing s with
  | nil => simp [Held]
  | cons o rest ih =>
    rw [List.foldl_cons, ih (fill_bound hs), fill_fst hr hs, fill_snd, Held, List.forall_mem_cons]
    tauto

theorem foldl_last {f : Operand → Option ℕ} {l : List Operand} {a : ℕ} :
    l.foldl (fun a o => (f o).getD a) a = r ↔ Last f r l ∨ a = r ∧ ∀ w ∈ l, f w = none := by
  induction l generalizing a with
  | nil => simp [Last]
  | cons o rest ih =>
    rw [List.foldl_cons, ih, Last, List.forall_mem_cons]
    cases f o with
    | none => simp
    | some x =>
      simp only [Option.getD_some, Option.some.injEq, reduceCtorEq, false_and, and_false, or_false]
      exact Or.comm

theorem foldl_address (l : List Operand) (a : ℕ × ℕ) :
    l.foldl address a =
      (l.foldl (fun a o => (addr1 o).getD a) a.1, l.foldl (fun a o => (addr2 o).getD a) a.2) := by
  induction l generalizing a with
  | nil => rfl
  | cons o rest ih => exact ih _

end Operand

/-! ## Recorded registers -/

theorem Fields.mem_regs {f : Fields} {r : ℕ} : r ∈ f.regs ↔
    0 < r ∧ ((∃ i, f.out i = r) ∨ (∃ i, f.inp i = r) ∨ f.pred = r ∨ f.ar1 = r ∨ f.ar2 = r) := by
  simp only [Fields.regs, List.mem_filter, List.mem_append, List.mem_ofFn, List.mem_cons,
    List.not_mem_nil, decide_eq_true_eq, or_false, or_assoc, eq_comm (a := r)]
  exact and_comm

namespace Inst

variable {inst : Inst} {r : ℕ}

/-- Register `r` keeps a field of the decoded instruction. A source register is at index `m` at most 2,
where a vector moves the index by 4, and no longer vector follows; a vector element has no null
element before it; an address register is in the last memory operand of a load or a store. -/
def Keeps (inst : Inst) (r : ℕ) : Prop :=
  (∃ i, Operand.Held i r 0 inst.dsts) ∨ (∃ i, Operand.Held i r 0 inst.srcs) ∨ inst.pred = some r ∨
    (inst.hasMemoryRead || inst.hasMemoryWrite) = true ∧
      (Operand.Last Operand.addr1 r inst.operands ∨ Operand.Last Operand.addr2 r inst.operands)

theorem held_iff (hr : 0 < r) {i : Fin 4} {l : List Operand} :
    (l.foldl Operand.fill (fun _ => 0, 0)).1 i = r ↔ Operand.Held i r 0 l := by
  rw [Operand.foldl_fill hr fun _ h => absurd h (lt_irrefl 0), or_iff_left]
  exact fun h => hr.ne h.1

theorem last_iff (hr : 0 < r) {f : Operand → Option ℕ} {l : List Operand} :
    l.foldl (fun a o => (f o).getD a) 0 = r ↔ Operand.Last f r l := by
  rw [Operand.foldl_last, or_iff_left]
  exact fun h => hr.ne h.1

theorem mem_preDecode (hr : 0 < r) : r ∈ inst.preDecode.regs ↔ inst.Keeps r := by
  rw [Fields.mem_regs, and_iff_right hr]
  refine or_congr (exists_congr fun i => held_iff hr) (or_congr (exists_congr fun i => held_iff hr)
    (or_congr ?_ ?_))
  · simp only [preDecode]
    cases inst.pred with
    | none => simpa using hr.ne
    | some p => simp
  · simp only [preDecode]
    split_ifs with hmem
    · rw [Operand.foldl_address, last_iff hr, last_iff hr, and_iff_right hmem]
    · simp [hmem, hr.ne]

theorem uses_pos (h : r ∈ inst.uses) : 0 < r := by
  simpa using (List.mem_filter.1 h).2

end Inst

theorem checkCollision_iff {t : RegTable} {wid : ℕ} {f : Fields} :
    checkCollision t wid f = true ↔ ∃ r ∈ f.regs, t wid r = true := List.any_eq_true

/-- The scoreboard of the load/store unit checks the same registers. -/
theorem checkCollision_eq {t : RegTable} {inst : WarpInst} {f : Fields} (hout : inst.out = List.ofFn f.out)
    (hinputs : inst.inputs = List.ofFn f.inp ++ [f.pred, f.ar1, f.ar2]) :
    Scoreboard.checkCollision t inst = checkCollision t inst.warpId f := by
  rw [Scoreboard.checkCollision, checkCollision, Fields.regs, List.any_filter, hout, hinputs,
    List.append_assoc]

/-- The scoreboard sees every hazard of the instruction iff each register that it uses keeps a
field. -/
theorem hazardsSeen_iff (inst : Inst) : HazardsSeen inst ↔ ∀ r ∈ inst.uses, inst.Keeps r := by
  constructor
  · intro h r hr
    exact (Inst.mem_preDecode (Inst.uses_pos hr)).1 (h.1 r hr)
  · intro h
    have hrec : ∀ r ∈ inst.uses, r ∈ inst.preDecode.regs := fun r hr =>
      (Inst.mem_preDecode (Inst.uses_pos hr)).2 (h r hr)
    exact ⟨hrec, fun t wid r hr ht => checkCollision_iff.2 ⟨r, hrec r hr, ht⟩⟩

/-- `atom.add %r1, [%r2], %r3` is neither a load nor a store, so its address register is lost. -/
def atomAdd : Inst where
  opcode := .other
  hasDst := true
  operands := [.reg 1, .memory (some 2), .reg 3]
  pred := none

theorem atomAdd_unseen : ¬∀ inst : Inst, HazardsSeen inst := by
  intro h
  have hseen := (h atomAdd).1 2 (by decide)
  exact absurd hseen (by decide)

end CompressionWork.Decode
