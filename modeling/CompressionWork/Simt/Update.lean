import CompressionWork.Simt.Invariant

/-!
# The SIMT stack: updates

What `update` does for each number of paths, and that it keeps the invariant.
-/

namespace CompressionWork.Simt

variable {u : Update} {top : StackEntry} {rest : List StackEntry} {p q : ℕ}

theorem Update.mem_group {t : ℕ} :
    t ∈ u.group top p ↔ t ∈ top.activeMask ∧ t ∉ u.threadDone ∧ u.nextPc t = p := by
  simp [Update.group, Update.liveMask, and_assoc]

theorem Update.mem_pcs : p ∈ u.pcs top ↔ (u.group top p).Nonempty := by
  simp [Update.pcs, Finset.Nonempty, Update.group]

theorem Update.mem_paths : p ∈ u.paths top ↔ p ∈ u.pcs top := by
  simp only [Update.paths]
  have hn := (u.pcs top).sort_nodup (· ≤ ·)
  have hm := Finset.mem_sort (· ≤ ·) (s := u.pcs top) (a := p)
  split
  · next h =>
    by_cases hp : p = u.pc + u.size
    · subst hp
      simp [hm.1 h]
    · simp [hp, List.mem_erase_of_ne hp]
  · exact hm

theorem Update.nodup_paths : (u.paths top).Nodup := by
  simp only [Update.paths]
  have hn := (u.pcs top).sort_nodup (· ≤ ·)
  split
  · exact List.nodup_cons.2 ⟨hn.not_mem_erase, hn.erase _⟩
  · exact hn

theorem Update.length_paths : (u.paths top).length = (u.pcs top).card := by
  have hto : (u.paths top).toFinset = u.pcs top := by
    ext p
    simp [Update.mem_paths]
  rw [← hto, List.toFinset_card_of_nodup Update.nodup_paths]

/-- The paths of an instruction with at most two next PCs. -/
theorem Update.paths_cases (h : (u.pcs top).card ≤ 2) :
    (u.paths top = [] ∧ u.pcs top = ∅) ∨ (∃ p, u.paths top = [p] ∧ u.pcs top = {p}) ∨
      ∃ p q, u.paths top = [p, q] ∧ p ≠ q ∧ u.pcs top = {p, q} := by
  have hmem : ∀ r, r ∈ u.paths top ↔ r ∈ u.pcs top := fun r => Update.mem_paths
  have hlen : (u.paths top).length = (u.pcs top).card := Update.length_paths
  have hn : (u.paths top).Nodup := Update.nodup_paths
  rcases hp : u.paths top with _ | ⟨p, _ | ⟨q, _ | ⟨r, l⟩⟩⟩
  · refine .inl ⟨rfl, ?_⟩
    ext r
    simp [← hmem, hp]
  · refine .inr (.inl ⟨p, rfl, ?_⟩)
    ext r
    simp [← hmem, hp]
  · refine .inr (.inr ⟨p, q, rfl, ?_, ?_⟩)
    · rw [hp] at hn
      simpa using hn
    · ext r
      simp [← hmem, hp]
  · rw [hp] at hlen
    simp only [List.length_cons] at hlen
    omega

/-! ## The cases of `update` -/

theorem update_nil (hpc : top.pc = u.pc) (hne : top.activeMask.Nonempty) (hp : u.paths top = []) :
    update (top :: rest) u = some rest := by
  simp [update, hpc, hne.ne_empty, hp]

theorem update_call (hpc : top.pc = u.pc) (hne : top.activeMask.Nonempty) (hp : u.paths top = [p])
    (hop : u.op = .callOps) :
    update (top :: rest) u =
      some ({ pc := p, activeMask := u.group top p, type := .call, region := some rest.length } ::
        top :: rest) := by
  simp [update, hpc, hne.ne_empty, hp, hop]

theorem update_ret (hpc : top.pc = u.pc) (hne : top.activeMask.Nonempty) (hp : u.paths top = [p])
    (hop : u.op = .retOps) (ht : top.type = .call) : update (top :: rest) u = returnTo p rest := by
  simp [update, hpc, hne.ne_empty, hp, hop, ht]

/-- A path that is set on top, with the rest of the entry. -/
def StackEntry.onPath (top : StackEntry) (p : ℕ) (m : Finset ℕ) : StackEntry :=
  { top with pc := p, activeMask := m }

/-- A path that is put on top. -/
def newPath (recvgPc p : ℕ) (m : Finset ℕ) (region : Option ℕ) : StackEntry :=
  { pc := p, recvgPc := recvgPc, activeMask := m, region := region }

/-- Neither a call nor the return from one. -/
def Update.Plain (u : Update) (top : StackEntry) : Prop :=
  u.op ≠ .callOps ∧ ¬(u.op = .retOps ∧ top.type = .call)

theorem update_one (hpc : top.pc = u.pc) (hne : top.activeMask.Nonempty) (hp : u.paths top = [p])
    (hop : u.Plain top) :
    update (top :: rest) u =
      some (if p = top.recvgPc ∧ top.type ≠ .call then rest
        else top.onPath p (u.group top p) :: rest) := by
  obtain ⟨hc, hr⟩ := hop
  simp only [update, hpc, hne.ne_empty, hp, hc, hr]
  by_cases h : p = top.recvgPc ∧ top.type ≠ .call
  · simp [pathStep, h]
  · simp [pathStep, h, setPath, pushBlank, modifyTop, StackEntry.onPath]

theorem update_two_same (hpc : top.pc = u.pc) (hne : top.activeMask.Nonempty)
    (hp : u.paths top = [p, q]) (hop : u.Plain top) (hpq : p ≠ q) (hs : u.recvgPc = top.recvgPc)
    (hcall : top.type = .call → p ≠ top.recvgPc ∧ q ≠ top.recvgPc) :
    update (top :: rest) u =
      some (if p = top.recvgPc then top.onPath q (u.group top q) :: rest
        else if q = top.recvgPc then top.onPath p (u.group top p) :: rest
        else newPath top.recvgPc q (u.group top q) top.region ::
          top.onPath p (u.group top p) :: rest) := by
  obtain ⟨hc, hr⟩ := hop
  simp only [update, hpc, hne.ne_empty, hp, hc, hr]
  by_cases h1 : p = top.recvgPc
  · have ht : top.type ≠ .call := fun ht => (hcall ht).1 h1
    have h2 : q ≠ top.recvgPc := fun h2 => hpq (h1.trans h2.symm)
    simp [pathStep, h1, h2, ht, hs, diverge, setPath, pushBlank, modifyTop, StackEntry.onPath]
  · by_cases h2 : q = top.recvgPc
    · have ht : top.type ≠ .call := fun ht => (hcall ht).2 h2
      simp [pathStep, h1, h2, ht, hs, diverge, setPath, pushBlank, modifyTop, StackEntry.onPath]
    · simp [pathStep, h1, h2, hs, diverge, setPath, pushBlank, modifyTop, StackEntry.onPath, newPath]

theorem update_two_new (hpc : top.pc = u.pc) (hne : top.activeMask.Nonempty)
    (hp : u.paths top = [p, q]) (hop : u.Plain top) (hpq : p ≠ q) (hs : u.recvgPc ≠ top.recvgPc)
    (hapart : top.type ≠ .call → p ≠ top.recvgPc ∧ q ≠ top.recvgPc) :
    update (top :: rest) u =
      some (if p = u.recvgPc then
          newPath u.recvgPc q (u.group top q) (some rest.length) ::
            top.onPath u.recvgPc top.activeMask :: rest
        else if q = u.recvgPc then
          newPath u.recvgPc p (u.group top p) (some rest.length) ::
            top.onPath u.recvgPc top.activeMask :: rest
        else newPath u.recvgPc q (u.group top q) (some rest.length) ::
          newPath u.recvgPc p (u.group top p) (some rest.length) ::
            top.onPath u.recvgPc top.activeMask :: rest) := by
  obtain ⟨hc, hr⟩ := hop
  simp only [update, hpc, hne.ne_empty, hp, hc, hr]
  have h1 : ¬(p = top.recvgPc ∧ top.type ≠ .call) := fun h => (hapart h.2).1 h.1
  have h2 : ¬(q = top.recvgPc ∧ top.type ≠ .call) := fun h => (hapart h.2).2 h.1
  by_cases h3 : p = u.recvgPc
  · have h4 : q ≠ u.recvgPc := fun h4 => hpq (h3.trans h4.symm)
    simp [pathStep, h2, h3, h4, hs, diverge, setPath, pushBlank, modifyTop, StackEntry.onPath, newPath]
  · by_cases h4 : q = u.recvgPc
    · simp [pathStep, h1, h3, h4, hs, diverge, setPath, pushBlank, modifyTop, StackEntry.onPath, newPath]
    · simp [pathStep, h1, h2, h3, h4, hs, diverge, setPath, pushBlank, modifyTop, StackEntry.onPath,
        newPath]

end CompressionWork.Simt
