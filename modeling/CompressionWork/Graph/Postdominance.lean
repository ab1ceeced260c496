import Mathlib.Data.Finset.Basic
import Mathlib.Data.Finset.Union
import Mathlib.Tactic.Common

/-!
# Postdominance

A graph with an exit. A vertex postdominates another one when every path from that one to the exit
passes through it.

* `PathTo` — the paths to the exit.
* `Postdominates.trans`, `antisymm`, `total` — the postdominators of a vertex form a chain.
* `postdominates_of_closed` — the greatest solution of the dataflow equations.
* `exists_immediate` — the immediate postdominator.
-/

namespace CompressionWork.Graph

variable {V : Type*} {succ : V → V → Prop} {exit a b c d : V} {p q : List V}

/-- A path from a vertex to the exit, with both ends. -/
inductive PathTo (succ : V → V → Prop) (exit : V) : V → List V → Prop
  | exit : PathTo succ exit exit [exit]
  | step {b s : V} {p : List V} : succ b s → PathTo succ exit s p → PathTo succ exit b (b :: p)

/-- Every path from `b` to the exit passes through `c`. -/
def Postdominates (succ : V → V → Prop) (exit c b : V) : Prop := ∀ p, PathTo succ exit b p → c ∈ p

/-- A path leads to the exit. -/
def Reaches (succ : V → V → Prop) (exit b : V) : Prop := ∃ p, PathTo succ exit b p

theorem PathTo.head_mem (h : PathTo succ exit b p) : b ∈ p := by
  cases h <;> exact List.mem_cons_self

theorem PathTo.exit_mem (h : PathTo succ exit b p) : exit ∈ p := by
  induction h with
  | exit => exact List.mem_cons_self
  | step _ _ ih => exact List.mem_cons_of_mem _ ih

/-- The end of a path, from a vertex on it. -/
theorem PathTo.suffix (h : PathTo succ exit b p) (hc : c ∈ p) :
    ∃ q, PathTo succ exit c q ∧ q.length ≤ p.length ∧ (c ≠ b → q.length < p.length) ∧ ∀ v ∈ q, v ∈ p := by
  induction h with
  | exit =>
    obtain rfl := List.mem_singleton.1 hc
    exact ⟨[c], .exit, Nat.le_refl _, fun hne => absurd rfl hne, fun _ hv => hv⟩
  | step hs hp ih =>
    rename_i b b' p
    by_cases hcb : c = b
    · subst hcb
      exact ⟨c :: p, .step hs hp, Nat.le_refl _, fun hne => absurd rfl hne, fun _ hv => hv⟩
    · obtain ⟨q, hq, hle, -, hsub⟩ := ih ((List.mem_cons.1 hc).resolve_left hcb)
      exact ⟨q, hq, Nat.le_succ_of_le hle, fun _ => Nat.lt_succ_of_le hle,
        fun v hv => List.mem_cons_of_mem _ (hsub v hv)⟩

/-! ## The order -/

theorem Postdominates.refl (succ : V → V → Prop) (exit b : V) : Postdominates succ exit b b :=
  fun _ h => h.head_mem

theorem exit_postdominates (succ : V → V → Prop) (exit b : V) : Postdominates succ exit exit b :=
  fun _ h => h.exit_mem

theorem postdominates_exit_iff : Postdominates succ exit c exit ↔ c = exit :=
  ⟨fun h => List.mem_singleton.1 (h _ .exit), fun h => h ▸ .refl _ _ _⟩

theorem Postdominates.trans (h : Postdominates succ exit a b) (h' : Postdominates succ exit b c) :
    Postdominates succ exit a c := by
  intro p hp
  obtain ⟨q, hq, -, -, hsub⟩ := hp.suffix (h' p hp)
  exact hsub a (h q hq)

/-- Two vertices that postdominate each other are the same: else every path from one of them has a shorter
one at its end. -/
theorem Postdominates.antisymm (hreach : Reaches succ exit b) (h : Postdominates succ exit c b)
    (h' : Postdominates succ exit b c) : c = b := by
  by_contra hne
  have hlong : ∀ n p, PathTo succ exit b p → n ≤ p.length := by
    intro n
    induction n with
    | zero => exact fun _ _ => Nat.zero_le _
    | succ n ih =>
      intro p hp
      obtain ⟨q, hq, -, hlt, -⟩ := hp.suffix (h p hp)
      obtain ⟨r, hr, hle, -, -⟩ := hq.suffix (h' q hq)
      have := ih r hr
      have := hlt hne
      omega
  obtain ⟨p, hp⟩ := hreach
  exact absurd (hlong (p.length + 1) p hp) (Nat.not_succ_le_self _)

/-- A path to one of two vertices can be continued past the other one. -/
theorem PathTo.avoid (h : PathTo succ exit b p) (ha : a ∈ p)
    (hq : ∃ q, PathTo succ exit a q ∧ c ∉ q) (hr : ∃ r, PathTo succ exit c r ∧ a ∉ r) :
    (∃ q, PathTo succ exit b q ∧ c ∉ q) ∨ ∃ r, PathTo succ exit b r ∧ a ∉ r := by
  induction h with
  | exit =>
    obtain rfl := List.mem_singleton.1 ha
    exact Or.inl hq
  | step hs hp ih =>
    rename_i b b' p
    by_cases hab : a = b
    · exact Or.inl (hab ▸ hq)
    by_cases hcb : c = b
    · exact Or.inr (hcb ▸ hr)
    rcases ih ((List.mem_cons.1 ha).resolve_left hab) with ⟨q, hq, hc⟩ | ⟨r, hr, ha⟩
    · exact Or.inl ⟨b :: q, .step hs hq, List.not_mem_cons_of_ne_of_not_mem hcb hc⟩
    · exact Or.inr ⟨b :: r, .step hs hr, List.not_mem_cons_of_ne_of_not_mem hab ha⟩

/-- The postdominators of a vertex form a chain. -/
theorem Postdominates.total (hreach : Reaches succ exit b) (ha : Postdominates succ exit a b)
    (hc : Postdominates succ exit c b) : Postdominates succ exit a c ∨ Postdominates succ exit c a := by
  by_contra hnot
  rw [not_or] at hnot
  obtain ⟨hac, hca⟩ := hnot
  simp only [Postdominates, not_forall, exists_prop] at hac hca
  obtain ⟨p, hp⟩ := hreach
  rcases hp.avoid (ha p hp) hca hac with ⟨q, hq, hnot⟩ | ⟨r, hr, hnot⟩
  · exact hnot (hc q hq)
  · exact hnot (ha r hr)

/-! ## The equations -/

/-- A vertex that is not the exit is postdominated by itself and by what postdominates all its successors. -/
theorem postdominates_iff (hb : b ≠ exit) :
    Postdominates succ exit c b ↔ c = b ∨ ∀ b', succ b b' → Postdominates succ exit c b' := by
  constructor
  · intro h
    by_cases hcb : c = b
    · exact Or.inl hcb
    · exact Or.inr fun b' hs p hp => (List.mem_cons.1 (h _ (.step hs hp))).resolve_left hcb
  · rintro (rfl | h)
    · exact .refl _ _ _
    · intro p hp
      cases hp with
      | exit => exact absurd rfl hb
      | step hs hp => exact List.mem_cons_of_mem _ (h _ hs _ hp)

/-- Every solution of the equations is below postdominance. -/
theorem postdominates_of_closed {S : V → V → Prop} (hexit : ∀ c, S c exit → c = exit)
    (hstep : ∀ b c, b ≠ exit → S c b → c = b ∨ ∀ b', succ b b' → S c b') (h : S c b) :
    Postdominates succ exit c b := by
  intro p hp
  induction hp with
  | exit => exact List.mem_singleton.2 (hexit c h)
  | step hs hp ih =>
    rename_i b b' p
    by_cases hb : b = exit
    · subst hb
      rw [hexit c h]
      exact List.mem_cons_self
    · rcases hstep b c hb h with rfl | h
      · exact List.mem_cons_self
      · exact List.mem_cons_of_mem _ (ih (h b' hs))

/-! ## The immediate postdominator -/

/-- The strict postdominator that every strict postdominator postdominates. -/
structure Immediate (succ : V → V → Prop) (exit d b : V) : Prop where
  ne : d ≠ b
  postdominates : Postdominates succ exit d b
  above : ∀ c, c ≠ b → Postdominates succ exit c b → Postdominates succ exit c d

/-- A finite set with a total transitive relation has a least element. -/
theorem exists_least {r : V → V → Prop} (hrefl : ∀ a, r a a) (htrans : ∀ a b c, r a b → r b c → r a c)
    {S : Finset V} (hne : S.Nonempty) (htotal : ∀ a ∈ S, ∀ b ∈ S, r a b ∨ r b a) :
    ∃ d ∈ S, ∀ c ∈ S, r c d := by
  induction hne using Finset.Nonempty.cons_induction with
  | singleton a => exact ⟨a, Finset.mem_singleton_self a, fun c hc => Finset.mem_singleton.1 hc ▸ hrefl c⟩
  | cons a S ha hne ih =>
    obtain ⟨d, hd, hleast⟩ := ih fun x hx y hy =>
      htotal x (Finset.mem_cons_of_mem hx) y (Finset.mem_cons_of_mem hy)
    rcases htotal a (Finset.mem_cons_self a S) d (Finset.mem_cons_of_mem hd) with h | h
    · refine ⟨d, Finset.mem_cons_of_mem hd, fun c hc => ?_⟩
      rcases Finset.mem_cons.1 hc with rfl | hc
      · exact h
      · exact hleast c hc
    · refine ⟨a, Finset.mem_cons_self a S, fun c hc => ?_⟩
      rcases Finset.mem_cons.1 hc with rfl | hc
      · exact hrefl c
      · exact htrans c d a (hleast c hc) h

/-- A vertex other than the exit has an immediate postdominator, when its strict postdominators are
finitely many. -/
theorem exists_immediate (hreach : Reaches succ exit b) (hb : b ≠ exit) {S : Finset V}
    (hS : ∀ c, c ∈ S ↔ c ≠ b ∧ Postdominates succ exit c b) :
    ∃ d, Immediate succ exit d b := by
  have hne : S.Nonempty := ⟨exit, (hS exit).2 ⟨hb.symm, exit_postdominates _ _ _⟩⟩
  obtain ⟨d, hd, hleast⟩ := exists_least (fun a => Postdominates.refl succ exit a)
    (fun a b c h h' => h.trans h') hne fun x hx y hy =>
      ((hS x).1 hx).2.total hreach ((hS y).1 hy).2
  obtain ⟨hdb, hpd⟩ := (hS d).1 hd
  exact ⟨d, hdb, hpd, fun c hcb hc => hleast c ((hS c).2 ⟨hcb, hc⟩)⟩

theorem Immediate.unique (hreach : ∀ b, Postdominates succ exit b a → Reaches succ exit b)
    (h : Immediate succ exit c a) (h' : Immediate succ exit d a) : c = d :=
  (h'.above c h.ne h.postdominates).antisymm (hreach d h'.postdominates)
    (h.above d h'.ne h'.postdominates)

end CompressionWork.Graph
