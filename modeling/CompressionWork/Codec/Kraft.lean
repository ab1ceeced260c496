import Mathlib.Algebra.BigOperators.Group.Finset.Basic
import Mathlib.Data.Fintype.BigOperators
import Mathlib.InformationTheory.Coding.KraftMcMillan
import Mathlib.Tactic.Common

/-!
# Prefix codes and Kraft sums

* `PrefixFree code s` — no codeword of a symbol of `s` starts another symbol's codeword.
* `PrefixFree.append`, `flatMap_prefix_inj` — a code made of two parts, or of one part for each
  element of a list, where what has been read fixes how the rest is read.
* `PrefixFree.uniquelyDecodable` — so concatenations of codewords split in one way.
* `PrefixFree.kraft_le_one` — Kraft's inequality for a binary prefix code.
-/

namespace Codec

variable {α β γ : Type*}

/-- No symbol of `s` has a codeword that starts the codeword of another symbol of `s`. -/
def PrefixFree (code : α → List β) (s : Set α) : Prop :=
  ∀ a ∈ s, ∀ b ∈ s, code a <+: code b → a = b

variable {code : α → List β} {s : Set α}

theorem PrefixFree.subset {t : Set α} (h : PrefixFree code s) (hts : t ⊆ s) : PrefixFree code t :=
  fun a ha b hb => h a (hts ha) b (hts hb)

theorem PrefixFree.injOn (h : PrefixFree code s) : Set.InjOn code s :=
  fun a ha b hb hab => h a ha b hb (hab ▸ List.prefix_rfl)

/-- With two symbols to tell apart, no codeword is empty. -/
theorem PrefixFree.ne_nil (h : PrefixFree code s) (hs : s.Nontrivial) {a : α} (ha : a ∈ s) :
    code a ≠ [] := by
  intro hnil
  obtain ⟨b, hb, hba⟩ := hs.exists_ne a
  exact hba (h a ha b hb (hnil ▸ List.nil_prefix)).symm

/-- Renaming the letters of two words injectively creates no new prefix. -/
theorem prefix_of_map_prefix {f : β → γ} {u : List β} : ∀ {v : List β},
    (∀ x ∈ u, ∀ y ∈ v, f x = f y → x = y) → u.map f <+: v.map f → u <+: v := by
  induction u with
  | nil => intro v _ _; exact List.nil_prefix
  | cons x u ih =>
      intro v hinj hpre
      cases v with
      | nil => simp at hpre
      | cons y v =>
          rw [List.map_cons, List.map_cons, List.cons_prefix_cons] at hpre
          have hxy : x = y := hinj x (by simp) y (by simp) hpre.1
          refine List.cons_prefix_cons.2 ⟨hxy, ih (fun x' hx' y' hy' => ?_) hpre.2⟩
          exact hinj x' (by simp [hx']) y' (by simp [hy'])

theorem PrefixFree.map (h : PrefixFree code s) {f : β → γ}
    (hf : ∀ a ∈ s, ∀ b ∈ s, ∀ x ∈ code a, ∀ y ∈ code b, f x = f y → x = y) :
    PrefixFree (fun a => (code a).map f) s :=
  fun a ha b hb hpre => h a ha b hb ( prefix_of_map_prefix (hf a ha b hb) hpre)

/-- Codewords of one length only have to differ. -/
theorem PrefixFree.of_length (hlen : ∀ a ∈ s, ∀ b ∈ s, (code a).length = (code b).length)
    (hinj : Set.InjOn code s) : PrefixFree code s :=
  fun a ha b hb hpre => hinj ha hb (hpre.eq_of_length (hlen a ha b hb))

/-- A first part that can be split off, and a second part that is read knowing the first one. -/
theorem PrefixFree.append {π : α → γ} {c : γ → List β} {tail : α → List β}
    (hhead : PrefixFree c (π '' s))
    (htail : ∀ a ∈ s, ∀ b ∈ s, π a = π b → tail a <+: tail b → a = b) :
    PrefixFree (fun a => c (π a) ++ tail a) s := by
  intro a ha b hb hpre
  have hhead_eq : π a = π b := by
    rcases List.prefix_or_prefix_of_prefix ((List.prefix_append (c (π a)) (tail a)).trans hpre)
      (List.prefix_append (c (π b)) (tail b)) with h | h
    · exact hhead _ ⟨a, ha, rfl⟩ _ ⟨b, hb, rfl⟩ h
    · exact (hhead _ ⟨b, hb, rfl⟩ _ ⟨a, ha, rfl⟩ h).symm
  dsimp only at hpre
  rw [hhead_eq, List.prefix_append_right_inj] at hpre
  exact htail a ha b hb hhead_eq hpre

/-- When a class that is known fixes the length of each part, the parts can be told apart. -/
theorem flatMap_prefix_inj {f : α → List β} {π : α → γ}
    (hlen : ∀ a ∈ s, ∀ b ∈ s, π a = π b → (f a).length = (f b).length)
    (hinj : ∀ a ∈ s, ∀ b ∈ s, π a = π b → f a = f b → a = b) {xs : List α} :
    ∀ {ys : List α}, (∀ a ∈ xs, a ∈ s) → (∀ b ∈ ys, b ∈ s) → xs.map π = ys.map π →
      xs.flatMap f <+: ys.flatMap f → xs = ys := by
  induction xs with
  | nil =>
      intro ys _ _ hcls _
      exact (List.map_eq_nil_iff.1 hcls.symm).symm
  | cons a xs ih =>
      intro ys hxs hys hcls hpre
      cases ys with
      | nil => simp at hcls
      | cons b ys =>
          rw [List.map_cons, List.map_cons, List.cons.injEq] at hcls
          have ha := hxs a List.mem_cons_self
          have hb := hys b List.mem_cons_self
          rw [List.flatMap_cons, List.flatMap_cons] at hpre
          have hfirst : f a = f b :=
            (List.prefix_of_prefix_length_le ((List.prefix_append _ _).trans hpre)
              (List.prefix_append _ _) (hlen a ha b hb hcls.1).le).eq_of_length
              (hlen a ha b hb hcls.1)
          rw [hfirst, List.prefix_append_right_inj] at hpre
          rw [hinj a ha b hb hcls.1 hfirst,
            ih (fun c hc => hxs c (List.mem_cons_of_mem a hc))
              (fun c hc => hys c (List.mem_cons_of_mem b hc)) hcls.2 hpre]

/-- **A prefix code splits in one way.** -/
theorem PrefixFree.uniquelyDecodable (h : PrefixFree code s) (hs : s.Nontrivial) :
    InformationTheory.UniquelyDecodable (code '' s) := by
  intro us
  induction us with
  | nil =>
      intro vs _ hvs heq
      cases vs with
      | nil => rfl
      | cons v vs =>
          obtain ⟨b, hb, rfl⟩ := hvs v (by simp)
          simp [h.ne_nil hs hb] at heq
  | cons u us ih =>
      intro vs hus hvs heq
      obtain ⟨a, ha, rfl⟩ := hus u (by simp)
      cases vs with
      | nil => simp [h.ne_nil hs ha] at heq
      | cons v vs =>
          obtain ⟨b, hb, rfl⟩ := hvs v (by simp)
          simp only [List.flatten_cons] at heq
          -- the shorter of the two first codewords starts the longer one
          have hab : a = b := by
            rcases List.prefix_or_prefix_of_prefix (List.prefix_append (code a) us.flatten)
              (heq ▸ List.prefix_append (code b) vs.flatten) with hpre | hpre
            · exact h a ha b hb hpre
            · exact (h b hb a ha hpre).symm
          subst hab
          have hrest : us.flatten = vs.flatten := List.append_cancel_left heq
          rw [ih vs (fun w hw => hus w (by simp [hw])) (fun w hw => hvs w (by simp [hw])) hrest]

/-- **Kraft's inequality** for a binary prefix code. -/
theorem PrefixFree.kraft_le_one {code : α → List Bool} {s : Finset α} (h : PrefixFree code s) :
    ∑ a ∈ s, (1 / 2 : ℝ) ^ (code a).length ≤ 1 := by
  classical
  rcases (s : Set α).subsingleton_or_nontrivial with hs | hs
  · -- at most one symbol, whose codeword weighs at most one
    have hle : ∀ a ∈ s, (1 / 2 : ℝ) ^ (code a).length ≤ 1 := fun a _ =>
      pow_le_one₀ (by norm_num) (by norm_num)
    have hcard : s.card ≤ 1 := Finset.card_le_one.2 fun a ha b hb => hs ha hb
    have hsum := Finset.sum_le_card_nsmul s _ 1 hle
    have hcard' : (s.card : ℝ) ≤ 1 := by exact_mod_cast hcard
    rw [nsmul_eq_mul, mul_one] at hsum
    exact le_trans hsum hcard'
  · have hdec : InformationTheory.UniquelyDecodable ((s.image code : Finset (List Bool)) :
        Set (List Bool)) := by
      rw [Finset.coe_image]
      exact h.uniquelyDecodable hs
    have hkraft := InformationTheory.kraft_mcmillan_inequality hdec
    rw [Finset.sum_image h.injOn] at hkraft
    simpa using hkraft

/-- **Kraft's inequality for injective encodings**: if sequences of one length are told apart
by their concatenated codewords, the codewords satisfy the inequality. -/
theorem kraft_le_one_of_injective (code : α → List Bool) {s : Finset α}
    (hne : ∀ a ∈ s, code a ≠ [])
    (hinj : ∀ us vs : List α, (∀ a ∈ us, a ∈ s) → (∀ a ∈ vs, a ∈ s) → us.length = vs.length →
      us.flatMap code = vs.flatMap code → us = vs) :
    ∑ a ∈ s, (1 / 2 : ℝ) ^ (code a).length ≤ 1 := by
  classical
  have hcode : Set.InjOn code s := by
    intro a ha b hb hab
    have h := hinj [a] [b] (by simpa using ha) (by simpa using hb) rfl (by simpa using hab)
    simpa using h
  -- sequences of codewords come from sequences of symbols
  have hlift : ∀ us : List (List Bool), (∀ u ∈ us, u ∈ (s.image code : Finset _)) →
      ∃ as : List α, (∀ a ∈ as, a ∈ s) ∧ as.map code = us := by
    intro us
    induction us with
    | nil => intro _; exact ⟨[], by simp, rfl⟩
    | cons u us ih =>
        intro hus
        obtain ⟨a, ha, rfl⟩ := Finset.mem_image.1 (hus u (by simp))
        obtain ⟨as, has, rfl⟩ := ih fun v hv => hus v (by simp [hv])
        exact ⟨a :: as, by simpa using ⟨ha, has⟩, rfl⟩
  have hdec : InformationTheory.UniquelyDecodable ((s.image code : Finset (List Bool)) :
      Set (List Bool)) := by
    intro us vs hus hvs heq
    obtain ⟨as, has, rfl⟩ := hlift us hus
    obtain ⟨bs, hbs, rfl⟩ := hlift vs hvs
    -- the two orders of concatenation have one length and one encoding
    have hswap : as ++ bs = bs ++ as := by
      refine hinj _ _ ?_ ?_ (by simp [Nat.add_comm]) ?_
      · intro a ha
        exact (List.mem_append.1 ha).elim (has a) (hbs a)
      · intro a ha
        exact (List.mem_append.1 ha).elim (hbs a) (has a)
      · rw [List.flatMap_append, List.flatMap_append, List.flatMap_def, List.flatMap_def, heq]
    -- so one sequence starts the other, and nothing follows
    have hempty : ∀ cs : List α, (∀ a ∈ cs, a ∈ s) → (cs.map code).flatten = [] → cs = [] := by
      intro cs hcs hflat
      cases cs with
      | nil => rfl
      | cons c cs => simp [hne c (hcs c (by simp))] at hflat
    rcases List.append_eq_append_iff.1 hswap with ⟨cs, hb, -⟩ | ⟨cs, ha, -⟩
    · subst hb
      rw [List.map_append, List.flatten_append, List.self_eq_append_right] at heq
      rw [hempty cs (fun a ha => hbs a (List.mem_append_right _ ha)) heq, List.append_nil]
    · subst ha
      rw [List.map_append, List.flatten_append, List.append_right_eq_self] at heq
      rw [hempty cs (fun a ha => has a (List.mem_append_right _ ha)) heq, List.append_nil]
  have hkraft := InformationTheory.kraft_mcmillan_inequality hdec
  rw [Finset.sum_image hcode] at hkraft
  simpa using hkraft

end Codec
