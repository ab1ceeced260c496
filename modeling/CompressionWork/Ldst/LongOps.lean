import CompressionWork.Ldst.Registers
import Mathlib.Data.List.Induction

/-!
# The registers of long operations

The scoreboard has a second table, of the registers that a long operation is to write.  The two-level
scheduler reads it to find the warps that wait.

* `Scoreboard` — both tables, and the functions that change them.
* `waitsForLong` — what the scheduler looks for in the next instruction of a warp.
* `Faithful` — the registers of long operations are reserved.
* `longopregs_reserved_iff` — the tables fit together in the states of a run just when it does not release
  such a register by itself.
-/

namespace CompressionWork.Ldst.LongOps

/-- `enum _memory_space_t` -/
inductive MemorySpace
  | undefinedSpace
  | regSpace
  | localSpace
  | sharedSpace
  | paramSpaceUnclassified
  | paramSpaceKernel
  | paramSpaceLocal
  | constSpace
  | texSpace
  | surfSpace
  | globalSpace
  | genericSpace
  | instructionSpace
  deriving DecidableEq

/-- What the scoreboard reads of a `warp_inst_t`; 0 stands for no register, and `input` is `in`. -/
structure WarpInst where
  warpId : ℕ
  out : List ℕ
  input : List ℕ
  pred : ℕ
  ar1 : ℕ
  ar2 : ℕ
  isLoad : Bool
  space : MemorySpace

namespace WarpInst

variable (inst : WarpInst)

/-- The registers of the loops over `out`. -/
def regs : List ℕ := inst.out.filter fun r => 0 < r

/-- The loads that `reserveRegisters` keeps track of. -/
def longOperation : Bool :=
  inst.isLoad && (inst.space = .globalSpace || inst.space = .localSpace || inst.space = .paramSpaceKernel ||
    inst.space = .paramSpaceLocal || inst.space = .paramSpaceUnclassified || inst.space = .texSpace)

end WarpInst

/-- `reg_table` and `longopregs`. -/
structure Scoreboard where
  regTable : RegTable := fun _ _ => false
  longopregs : RegTable := fun _ _ => false

namespace Scoreboard

variable (s : Scoreboard)

/-- `releaseRegister`. -/
def releaseRegister (wid regnum : ℕ) : Scoreboard :=
  { s with regTable := Ldst.Scoreboard.releaseRegister s.regTable wid regnum }

/-- `islongop`. -/
def islongop (wid regnum : ℕ) : Bool := s.longopregs wid regnum

/-- The register is put into `longopregs`. -/
def markLong (wid regnum : ℕ) : Scoreboard :=
  { s with longopregs := fun w r => if w = wid ∧ r = regnum then true else s.longopregs w r }

/-- The register is erased from `longopregs`. -/
def eraseLong (wid regnum : ℕ) : Scoreboard :=
  { s with longopregs := fun w r => if w = wid ∧ r = regnum then false else s.longopregs w r }

/-- `reserveRegisters`; a register that is reserved already aborts. -/
def reserveRegisters (inst : WarpInst) : Option Scoreboard := do
  let regTable ← inst.regs.foldlM (fun t r => Ldst.Scoreboard.reserveRegister t inst.warpId r) s.regTable
  let s := { s with regTable }
  pure (if inst.longOperation then inst.regs.foldl (fun s r => s.markLong inst.warpId r) s else s)

/-- `releaseRegisters`. -/
def releaseRegisters (inst : WarpInst) : Scoreboard :=
  inst.regs.foldl (fun s r => (s.releaseRegister inst.warpId r).eraseLong inst.warpId r) s

/-- `checkCollision`. -/
def checkCollision (inst : WarpInst) : Bool :=
  (inst.out ++ inst.input ++ [inst.pred, inst.ar1, inst.ar2]).any fun r =>
    0 < r && s.regTable inst.warpId r

/-- The test of `two_level_active_scheduler::order_warps` on the next instruction of a warp. -/
def waitsForLong (inst : WarpInst) : Bool := inst.input.any fun r => 0 < r && s.islongop inst.warpId r

end Scoreboard

/-- A warp issues an instruction; the load/store unit releases a register; an instruction is complete. -/
inductive Op
  | reserveRegisters (inst : WarpInst)
  | releaseRegister (wid regnum : ℕ)
  | releaseRegisters (inst : WarpInst)

/-- The scoreboard after a call; `none` when it aborts. -/
def exec (s : Scoreboard) : Op → Option Scoreboard
  | .reserveRegisters inst => s.reserveRegisters inst
  | .releaseRegister wid regnum => some (s.releaseRegister wid regnum)
  | .releaseRegisters inst => some (s.releaseRegisters inst)

/-- The scoreboard after a list of calls. -/
def run (ops : List Op) : Option Scoreboard := ops.foldlM exec {}

/-- A register of a long operation is reserved; so a warp that the scheduler takes for waiting cannot issue
its next instruction. -/
structure Faithful (s : Scoreboard) : Prop where
  reserved : ∀ w r, s.islongop w r = true → s.regTable w r = true
  waits : ∀ inst, s.waitsForLong inst = true → s.checkCollision inst = true

variable {s s' : Scoreboard} {inst : WarpInst} {w r wid : ℕ}

/-! ## The tables -/

theorem Faithful.of_reserved (h : ∀ w r, s.islongop w r = true → s.regTable w r = true) : Faithful s := by
  refine ⟨h, fun inst hwait => ?_⟩
  obtain ⟨r, hr, hlong⟩ := List.any_eq_true.1 hwait
  obtain ⟨hpos, hlong⟩ := Bool.and_eq_true_iff.1 hlong
  refine List.any_eq_true.2 ⟨r, ?_, Bool.and_eq_true_iff.2 ⟨hpos, h _ _ hlong⟩⟩
  exact List.mem_append_left _ (List.mem_append_right _ hr)

theorem foldl_markLong (rs : List ℕ) : rs.foldl (fun s r => s.markLong wid r) s =
    { s with longopregs := fun w r => if w = wid ∧ r ∈ rs then true else s.longopregs w r } := by
  induction rs generalizing s with
  | nil => simp
  | cons a rs ih =>
    rw [List.foldl_cons, ih]
    simp only [Scoreboard.markLong, List.mem_cons, Scoreboard.mk.injEq, true_and]
    funext w r
    grind

theorem foldl_release (rs : List ℕ) :
    rs.foldl (fun s r => (s.releaseRegister wid r).eraseLong wid r) s =
      { regTable := fun w r => if w = wid ∧ r ∈ rs then false else s.regTable w r
        longopregs := fun w r => if w = wid ∧ r ∈ rs then false else s.longopregs w r } := by
  induction rs generalizing s with
  | nil => simp
  | cons a rs ih =>
    rw [List.foldl_cons, ih]
    simp only [Scoreboard.releaseRegister, Scoreboard.eraseLong, Ldst.Scoreboard.releaseRegister,
      List.mem_cons, Scoreboard.mk.injEq]
    constructor
    · funext w r
      grind
    · funext w r
      grind

/-- What is reserved stays so, and the registers of the instruction are reserved. -/
theorem foldlM_reserveRegister_reserves {rs : List ℕ} {t t' : RegTable}
    (h : rs.foldlM (fun t r => Ldst.Scoreboard.reserveRegister t wid r) t = some t') :
    (∀ w r, t w r = true → t' w r = true) ∧ ∀ r ∈ rs, t' wid r = true := by
  induction rs generalizing t with
  | nil =>
    obtain rfl := Option.some.inj h
    exact ⟨fun _ _ ht => ht, fun r hr => absurd hr List.not_mem_nil⟩
  | cons a rs ih =>
    rw [List.foldlM_cons] at h
    obtain ⟨t₁, ht₁, hrest⟩ := Option.bind_eq_some_iff.1 h
    obtain ⟨hkeep, hall⟩ := ih hrest
    rw [Ldst.Scoreboard.reserveRegister] at ht₁
    split_ifs at ht₁ with hfree
    obtain rfl := Option.some.inj ht₁
    refine ⟨fun w r ht => hkeep w r ?_, fun r hr => ?_⟩
    · show (if w = wid ∧ r = a then true else t w r) = true
      rw [ht, ite_self]
    · rcases List.mem_cons.1 hr with rfl | hr
      · exact hkeep wid r (if_pos ⟨rfl, rfl⟩)
      · exact hall r hr

/-! ## Runs -/

theorem Faithful.reserveRegisters (h : Faithful s) (hs' : s.reserveRegisters inst = some s') :
    Faithful s' := by
  obtain ⟨regTable, htable, hmark⟩ := Option.bind_eq_some_iff.1 hs'
  obtain ⟨hkeep, hall⟩ := foldlM_reserveRegister_reserves htable
  obtain rfl := Option.some.inj hmark
  refine .of_reserved fun w r hlong => ?_
  split_ifs at hlong ⊢ with hop
  · rw [foldl_markLong] at hlong ⊢
    simp only [Scoreboard.islongop] at hlong
    by_cases hwr : w = inst.warpId ∧ r ∈ inst.regs
    · obtain ⟨rfl, hr⟩ := hwr
      exact hall r hr
    · rw [if_neg hwr] at hlong
      exact hkeep w r (h.reserved w r hlong)
  · exact hkeep w r (h.reserved w r hlong)

theorem Faithful.releaseRegisters (h : Faithful s) : Faithful (s.releaseRegisters inst) := by
  refine .of_reserved fun w r hlong => ?_
  rw [Scoreboard.releaseRegisters, foldl_release] at hlong ⊢
  simp only [Scoreboard.islongop] at hlong ⊢
  split_ifs at hlong ⊢ with hwr
  exact h.reserved w r hlong

/-- A register that is released by itself must not be one of a long operation, and that is enough. -/
theorem Faithful.releaseRegister_iff (h : Faithful s) :
    Faithful (s.releaseRegister wid r) ↔ s.islongop wid r = false := by
  constructor
  · intro h'
    by_contra hlong
    have hreg := h'.reserved wid r (Bool.eq_true_of_not_eq_false hlong)
    simp [Scoreboard.releaseRegister, Ldst.Scoreboard.releaseRegister] at hreg
  · intro hlong
    refine .of_reserved fun w r' hlong' => ?_
    show (if w = wid ∧ r' = r then false else s.regTable w r') = true
    rw [if_neg]
    · exact h.reserved w r' hlong'
    · rintro ⟨rfl, rfl⟩
      exact absurd (hlong.symm.trans hlong') (by simp)

theorem run_concat (before : List Op) (e : Op) : run (before ++ [e]) = (run before).bind fun s => exec s e := by
  rw [run, List.foldlM_append]
  simp [run]

/-- **The registers of long operations** are reserved in all states of a run exactly when no register is
released by itself while it is one of them. -/
theorem longopregs_reserved_iff (ops : List Op) :
    (∀ before, before <+: ops → ∀ s, run before = some s → Faithful s) ↔
      ∀ before wid regnum, before ++ [.releaseRegister wid regnum] <+: ops →
        ∀ s, run before = some s → s.islongop wid regnum = false := by
  constructor
  · intro h before wid regnum hprefix s hs
    have hbefore := h before ((List.prefix_append _ _).trans hprefix) s hs
    refine hbefore.releaseRegister_iff.1 (h _ hprefix _ ?_)
    rw [run_concat, hs]
    rfl
  · intro h before
    induction before using List.reverseRecOn with
    | nil =>
      intro _ s hs
      obtain rfl := Option.some.inj hs
      exact .of_reserved fun _ _ hlong => absurd hlong nofun
    | append_singleton before e ih =>
      intro hprefix s hs
      rw [run_concat] at hs
      obtain ⟨t, ht, hexec⟩ := Option.bind_eq_some_iff.1 hs
      have hfaithful := ih ((List.prefix_append _ _).trans hprefix) t ht
      cases e with
      | reserveRegisters inst => exact hfaithful.reserveRegisters hexec
      | releaseRegister wid regnum =>
        obtain rfl := Option.some.inj hexec
        exact hfaithful.releaseRegister_iff.2 (h before wid regnum hprefix t ht)
      | releaseRegisters inst =>
        obtain rfl := Option.some.inj hexec
        exact hfaithful.releaseRegisters

/-- A load of global memory to register 5. -/
def globalLoad : WarpInst where
  warpId := 0
  out := [5, 0, 0, 0]
  input := [6, 0, 0, 0]
  pred := 0
  ar1 := 0
  ar2 := 0
  isLoad := true
  space := .globalSpace

/-- When its data is written back, the register stays one of a long operation. -/
theorem not_faithful_globalLoad :
    ∃ s, run [.reserveRegisters globalLoad, .releaseRegister 0 5] = some s ∧ ¬ Faithful s := by
  refine ⟨_, rfl, fun h => ?_⟩
  exact absurd (h.reserved 0 5 rfl) (by decide)

end CompressionWork.Ldst.LongOps
