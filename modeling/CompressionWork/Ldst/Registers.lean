import CompressionWork.Ldst.Ledger

/-!
# The load/store unit: the loops over the registers

What the loops over the destination registers of an instruction leave, when the registers are distinct.
-/

namespace CompressionWork.Ldst

namespace Scoreboard

theorem foldl_releaseRegister (wid : ℕ) (rs : List ℕ) (t : RegTable) :
    rs.foldl (fun t r => releaseRegister t wid r) t =
      fun w r => if wid = w ∧ r ∈ rs then false else t w r := by
  induction rs generalizing t with
  | nil => simp
  | cons a rs ih =>
    rw [List.foldl_cons, ih]
    funext w r
    simp only [releaseRegister, List.mem_cons]
    grind

theorem releaseRegisters_eq (t : RegTable) (inst : WarpInst) :
    releaseRegisters t inst = fun w r => if inst.Writes w r then false else t w r :=
  foldl_releaseRegister inst.warpId inst.regs t

theorem foldlM_reserveRegister (wid : ℕ) {rs : List ℕ} (hn : rs.Nodup) {t : RegTable}
    (hf : ∀ r ∈ rs, t wid r = false) :
    rs.foldlM (fun t r => reserveRegister t wid r) t =
      some fun w r => if wid = w ∧ r ∈ rs then true else t w r := by
  induction rs generalizing t with
  | nil => simp
  | cons a rs ih =>
    obtain ⟨ha, hn⟩ := List.nodup_cons.1 hn
    have hstep : reserveRegister t wid a =
        some fun w r => if w = wid ∧ r = a then true else t w r := by
      simp [reserveRegister, hf a (by simp)]
    have hrest : ∀ r ∈ rs, (if wid = wid ∧ r = a then true else t wid r) = false := by
      intro r hr
      have hne : r ≠ a := fun h => ha (h ▸ hr)
      simp [hne, hf r (List.mem_cons_of_mem a hr)]
    rw [List.foldlM_cons, hstep, Option.bind_eq_bind, Option.bind_some, ih hn hrest]
    simp only [Option.some.injEq, List.mem_cons]
    funext w r
    grind

/-- No reservation aborts when the registers are distinct and free. -/
theorem reserveRegisters_eq {t : RegTable} {inst : WarpInst} (hn : inst.regs.Nodup)
    (hf : ∀ r ∈ inst.regs, t inst.warpId r = false) :
    reserveRegisters t inst = some fun w r => if inst.Writes w r then true else t w r :=
  foldlM_reserveRegister inst.warpId hn hf

theorem free_of_checkCollision {t : RegTable} {inst : WarpInst} (h : checkCollision t inst = false) :
    ∀ r ∈ inst.regs, t inst.warpId r = false := by
  intro r hr
  obtain ⟨hr, hpos⟩ := List.mem_filter.1 hr
  simp only [checkCollision, List.any_eq_false, List.mem_append] at h
  simpa [of_decide_eq_true hpos] using h r (.inl hr)

end Scoreboard

/-- The count of a register, 0 without an entry. -/
def PendingWrites.count (m : PendingWrites) (w r : ℕ) : ℤ := (m w r).getD 0

theorem count_addPending (m : PendingWrites) (wid : ℕ) (n : ℤ) (a w r : ℕ) :
    (addPending m wid n a).count w r = m.count w r + if wid = w ∧ r = a then n else 0 := by
  simp only [PendingWrites.count, addPending]
  grind

theorem count_erasePending (m : PendingWrites) (wid a w r : ℕ) :
    (erasePending m wid a).count w r = if wid = w ∧ r = a then 0 else m.count w r := by
  simp only [PendingWrites.count, erasePending]
  grind

theorem count_foldl_addPending (wid : ℕ) (n : ℤ) {rs : List ℕ} (hn : rs.Nodup) (m : PendingWrites)
    (w r : ℕ) :
    (rs.foldl (fun m r => addPending m wid n r) m).count w r =
      m.count w r + if wid = w ∧ r ∈ rs then n else 0 := by
  induction rs generalizing m with
  | nil => simp
  | cons a rs ih =>
    obtain ⟨ha, hn⟩ := List.nodup_cons.1 hn
    rw [List.foldl_cons, ih hn, count_addPending]
    grind

/-! ## The writeback -/

theorem foldlM_writebackReg_shared {inst : WarpInst} (hs : inst.space = .shared) (rs : List ℕ)
    (m : PendingWrites) (t : RegTable) (b : Bool) :
    rs.foldlM (writebackReg inst) (m, t, b) =
      some (m, fun w r => if inst.warpId = w ∧ r ∈ rs then false else t w r, b || !rs.isEmpty) := by
  induction rs generalizing t b with
  | nil => simp
  | cons a rs ih =>
    have hstep : writebackReg inst (m, t, b) a =
        some (m, Scoreboard.releaseRegister t inst.warpId a, true) := by
      simp [writebackReg, hs]
    rw [List.foldlM_cons, hstep, Option.bind_eq_bind, Option.bind_some, ih]
    simp only [Option.some.injEq, Prod.mk.injEq, true_and, List.mem_cons, Scoreboard.releaseRegister]
    refine ⟨?_, by simp⟩
    funext w r
    grind

/-- One register: its count falls, and it is released when that was the last one. -/
theorem writebackReg_eq {inst : WarpInst} (hs : inst.space ≠ .shared) {m : PendingWrites}
    {t : RegTable} {b : Bool} {a : ℕ} (hp : 0 < m.count inst.warpId a) :
    ∃ m', (∀ w r, m'.count w r = m.count w r - if inst.warpId = w ∧ r = a then 1 else 0) ∧
      writebackReg inst (m, t, b) a =
        some (m', if m.count inst.warpId a = 1 then
          (Scoreboard.releaseRegister t inst.warpId a, true) else (t, b)) := by
  have hc := count_addPending m inst.warpId (-1) a
  have hlast := hc inst.warpId a
  simp only [and_self, if_true] at hlast
  change 0 < (m inst.warpId a).getD 0 at hp
  by_cases h1 : m.count inst.warpId a = 1
  · refine ⟨erasePending (addPending m inst.warpId (-1) a) inst.warpId a, ?_, ?_⟩
    · intro w r
      rw [count_erasePending, hc]
      grind
    · have hz : (addPending m inst.warpId (-1) a).count inst.warpId a = 0 := by omega
      simp only [PendingWrites.count] at hz
      simp [writebackReg, hs, hp, hz, h1]
  · refine ⟨addPending m inst.warpId (-1) a, ?_, ?_⟩
    · intro w r
      rw [hc]
      grind
    · have hz : (addPending m inst.warpId (-1) a).count inst.warpId a ≠ 0 := by omega
      simp only [PendingWrites.count] at hz
      simp [writebackReg, hs, hp, hz, h1]

/-- All registers: each count falls, and those that were 1 are released. -/
theorem foldlM_writebackReg {inst : WarpInst} (hs : inst.space ≠ .shared) {rs : List ℕ}
    (hn : rs.Nodup) {m : PendingWrites} (t : RegTable) (b : Bool)
    (hp : ∀ r ∈ rs, 0 < m.count inst.warpId r) :
    ∃ s, rs.foldlM (writebackReg inst) (m, t, b) = some s ∧
      (∀ w r, s.1.count w r = m.count w r - if inst.warpId = w ∧ r ∈ rs then 1 else 0) ∧
      (s.2.1 = fun w r =>
        if inst.warpId = w ∧ r ∈ rs ∧ m.count inst.warpId r = 1 then false else t w r) ∧
      (s.2.2 = true ↔ b = true ∨ ∃ r ∈ rs, m.count inst.warpId r = 1) := by
  induction rs generalizing m t b with
  | nil => exact ⟨(m, t, b), by simp⟩
  | cons a rs ih =>
    obtain ⟨ha, hn⟩ := List.nodup_cons.1 hn
    obtain ⟨m', hm', hstep⟩ := writebackReg_eq (t := t) (b := b) hs (hp a (by simp))
    have hsame : ∀ r ∈ rs, m'.count inst.warpId r = m.count inst.warpId r := by
      intro r hr
      have hne : r ≠ a := fun h => ha (h ▸ hr)
      simp [hm', hne]
    have hp' : ∀ r ∈ rs, 0 < m'.count inst.warpId r := by
      intro r hr
      rw [hsame r hr]
      exact hp r (List.mem_cons_of_mem a hr)
    rw [List.foldlM_cons, hstep, Option.bind_eq_bind, Option.bind_some]
    by_cases h1 : m.count inst.warpId a = 1
    · rw [if_pos h1]
      obtain ⟨s, hs', hcount, htable, hdone⟩ :=
        ih hn (Scoreboard.releaseRegister t inst.warpId a) true hp'
      refine ⟨s, hs', ?_, ?_, ?_⟩
      · intro w r
        rw [hcount, hm']
        grind
      · rw [htable]
        funext w r
        simp only [Scoreboard.releaseRegister]
        grind
      · simp [hdone, h1]
    · rw [if_neg h1]
      obtain ⟨s, hs', hcount, htable, hdone⟩ := ih hn t b hp'
      refine ⟨s, hs', ?_, ?_, ?_⟩
      · intro w r
        rw [hcount, hm']
        grind
      · rw [htable]
        funext w r
        grind
      · rw [hdone]
        grind

/-! ## The end of the cycle -/

theorem pendingRequests_spec (wid : ℕ) (rs : List ℕ) (m : PendingWrites)
    (hp : ∀ r ∈ rs, 0 ≤ m.count wid r) :
    (pendingRequests m wid rs).1.count = m.count ∧
      ((pendingRequests m wid rs).2 = true ↔ ∃ r ∈ rs, 0 < m.count wid r) := by
  induction rs generalizing m with
  | nil => simp [pendingRequests]
  | cons a rs ih =>
    have ha := hp a (by simp)
    have hrest : ∀ r ∈ rs, 0 ≤ m.count wid r := fun r hr => hp r (List.mem_cons_of_mem a hr)
    unfold pendingRequests
    cases hm : m wid a with
    | none =>
      have hz : m.count wid a = 0 := by simp [PendingWrites.count, hm]
      simpa [hz] using ih m hrest
    | some n =>
      have hn : m.count wid a = n := by simp [PendingWrites.count, hm]
      by_cases hpos : 0 < n
      · simp [hpos, hn]
      · have hz : m.count wid a = 0 := by omega
        have hsame : (erasePending m wid a).count = m.count := by
          funext w r
          rw [count_erasePending]
          grind
        have hstep := ih (erasePending m wid a) (by rwa [hsame])
        rw [hsame] at hstep
        simpa [hpos, hz] using hstep

end CompressionWork.Ldst
