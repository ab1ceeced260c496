import CompressionWork.Codec.Kraft
import Mathlib.Data.Multiset.UnionInter
import Mathlib.Tactic.LinearCombination
import Mathlib.Tactic.Positivity

/-!
# Huffman's algorithm is optimal

The argument is about weights and codeword lengths only: a code enters through Kraft's
inequality.

* `Huffman s c` — merging the two smallest weights of `s` again and again costs `c`.
* `exists_deepest` — lengths that satisfy Kraft's inequality can be changed so that the two
  smallest weights share the greatest length, at no cost.
* `Huffman.le_cost` — so no choice of lengths costs less than `c`.
* `Tree` — code trees: their codes, their prefix-freedom and their cost.
-/

namespace Codec

/-! ## Merging weights -/

/-- Merging the two smallest weights until one is left costs `c`, the sum of the merged
weights. -/
inductive Huffman : Multiset ℕ → ℕ → Prop
  | single (w : ℕ) : Huffman {w} 0
  | merge {a b : ℕ} {s : Multiset ℕ} {c : ℕ} (hmin : ∀ w ∈ s, a ≤ w ∧ b ≤ w)
      (h : Huffman ((a + b) ::ₘ s) c) : Huffman (a ::ₘ b ::ₘ s) (a + b + c)

/-- What a codeword of this length adds to a Kraft sum. -/
noncomputable abbrev kraftTerm (length : ℕ) : ℝ := (1 / 2 : ℝ) ^ length

/-- The Kraft sum of weights paired with codeword lengths. -/
noncomputable def kraft (ps : Multiset (ℕ × ℕ)) : ℝ := (ps.map fun p => kraftTerm p.2).sum

/-- The cost of weights paired with codeword lengths. -/
def cost (ps : Multiset (ℕ × ℕ)) : ℕ := (ps.map fun p => p.1 * p.2).sum

@[simp] theorem kraft_cons (p : ℕ × ℕ) (ps : Multiset (ℕ × ℕ)) :
    kraft (p ::ₘ ps) = (1 / 2 : ℝ) ^ p.2 + kraft ps := by
  simp [kraft, kraftTerm]

@[simp] theorem cost_cons (p : ℕ × ℕ) (ps : Multiset (ℕ × ℕ)) :
    cost (p ::ₘ ps) = p.1 * p.2 + cost ps := by
  simp [cost]

theorem kraft_nonneg (ps : Multiset (ℕ × ℕ)) : 0 ≤ kraft ps := by
  induction ps using Multiset.induction with
  | empty => simp [kraft]
  | cons p ps ih =>
      rw [kraft_cons]
      positivity

/-- A Kraft sum of lengths up to `n` is a multiple of `2 ^ -n`. -/
theorem exists_kraft_eq {ps : Multiset (ℕ × ℕ)} {n : ℕ} (h : ∀ p ∈ ps, p.2 ≤ n) :
    ∃ m : ℕ, kraft ps = m * (1 / 2 : ℝ) ^ n := by
  induction ps using Multiset.induction with
  | empty => exact ⟨0, by simp [kraft]⟩
  | cons p ps ih =>
      obtain ⟨m, hm⟩ := ih fun q hq => h q (Multiset.mem_cons_of_mem hq)
      obtain ⟨k, hk⟩ := Nat.exists_eq_add_of_le (h p (Multiset.mem_cons_self p ps))
      refine ⟨2 ^ k + m, ?_⟩
      have hpow : (2 : ℝ) ^ k * (1 / 2 : ℝ) ^ k = 1 := by
        rw [← mul_pow]
        norm_num
      rw [kraft_cons, hm, hk, pow_add]
      push_cast
      linear_combination -(1 / 2 : ℝ) ^ p.2 * hpow

/-- A unique greatest length can be shortened by one: the rest of the Kraft sum is a multiple
of `2 ^ -n`, so there is room. -/
theorem shorten_kraft {ps : Multiset (ℕ × ℕ)} {w n : ℕ} (h : ∀ p ∈ ps, p.2 ≤ n)
    (hk : kraft ((w, n + 1) ::ₘ ps) ≤ 1) : kraft ((w, n) ::ₘ ps) ≤ 1 := by
  obtain ⟨m, hm⟩ := exists_kraft_eq h
  rw [kraft_cons, hm] at hk ⊢
  have hpow : (0 : ℝ) < (1 / 2 : ℝ) ^ n := by positivity
  have hinv : (2 : ℝ) ^ n * (1 / 2 : ℝ) ^ n = 1 := by
    rw [← mul_pow]
    norm_num
  have hlt : (m : ℝ) < 2 ^ n := by
    have : (m : ℝ) * (1 / 2) ^ n < 2 ^ n * (1 / 2) ^ n := by
      rw [hinv]
      have : (0 : ℝ) < (1 / 2 : ℝ) ^ (n + 1) := by positivity
      dsimp only at hk
      linarith
    exact lt_of_mul_lt_mul_right this hpow.le
  have hle : (m : ℝ) + 1 ≤ 2 ^ n := by exact_mod_cast Nat.succ_le_of_lt (by exact_mod_cast hlt)
  calc (1 / 2 : ℝ) ^ n + m * (1 / 2) ^ n = (m + 1) * (1 / 2) ^ n := by ring
    _ ≤ 2 ^ n * (1 / 2) ^ n := mul_le_mul_of_nonneg_right hle hpow.le
    _ = 1 := hinv

/-- Exchanging two lengths so that the smaller weight gets the greater one does not cost. -/
theorem swap_cost {a w x z : ℕ} (hw : a ≤ w) (hz : x ≤ z) : a * z + w * x ≤ a * x + w * z := by
  obtain ⟨d, rfl⟩ := Nat.exists_eq_add_of_le hw
  obtain ⟨e, rfl⟩ := Nat.exists_eq_add_of_le hz
  calc a * (x + e) + (a + d) * x ≤ a * (x + e) + (a + d) * x + d * e := Nat.le_add_right _ _
    _ = a * x + (a + d) * (x + e) := by ring

/-! ## The lower bound -/

/-- What the search below makes smaller: the lengths outside the two smallest weights count
twice. -/
def spread (x y : ℕ) (qs : Multiset (ℕ × ℕ)) : ℕ := x + y + 2 * (qs.map Prod.snd).sum

/-- The length `x` of the weight `a` can be changed as long as another weight has a greater
length, or no other weight has a length as great. -/
theorem exists_better {a x y : ℕ} {b : ℕ} {qs : Multiset (ℕ × ℕ)}
    (hmin : ∀ w ∈ qs.map Prod.fst, a ≤ w) (hk : kraft ((a, x) ::ₘ (b, y) ::ₘ qs) ≤ 1)
    (h : (∃ q ∈ qs, x < q.2) ∨ ∀ q ∈ (b, y) ::ₘ qs, q.2 < x) :
    ∃ (x' : ℕ) (rs : Multiset (ℕ × ℕ)), spread x' y rs < spread x y qs ∧
      rs.map Prod.fst = qs.map Prod.fst ∧ kraft ((a, x') ::ₘ (b, y) ::ₘ rs) ≤ 1 ∧
      cost ((a, x') ::ₘ (b, y) ::ₘ rs) ≤ cost ((a, x) ::ₘ (b, y) ::ₘ qs) := by
  rcases h with ⟨⟨w, z⟩, hq, hlt⟩ | hlt
  · -- the greater length goes to `a`
    obtain ⟨r, rfl⟩ := Multiset.exists_cons_of_mem hq
    dsimp only at hlt
    have hw : a ≤ w := hmin w (by simp)
    have hswap := swap_cost hw hlt.le
    refine ⟨z, (w, x) ::ₘ r, ?_, by simp, ?_, ?_⟩
    · simp only [spread, Multiset.map_cons, Multiset.sum_cons]
      omega
    · simp only [kraft_cons] at hk ⊢
      linarith
    · simp only [cost_cons]
      omega
  · -- the length of `a` stands alone and shrinks
    have hy : y < x := hlt (b, y) (Multiset.mem_cons_self ..)
    obtain ⟨k, rfl⟩ : ∃ k, x = k + 1 := ⟨x - 1, by omega⟩
    refine ⟨k, qs, ?_, rfl, shorten_kraft (fun q hq => Nat.le_of_lt_succ (hlt q hq)) hk, ?_⟩
    · simp only [spread]
      omega
    · have hmul := Nat.mul_le_mul_left a (Nat.le_add_right k 1)
      simp only [cost_cons]
      omega

/-- **The two smallest weights may share the greatest length.** -/
theorem exists_deepest {a b : ℕ} (n : ℕ) : ∀ (x y : ℕ) (qs : Multiset (ℕ × ℕ)),
    spread x y qs = n → (∀ w ∈ qs.map Prod.fst, a ≤ w ∧ b ≤ w) →
    kraft ((a, x) ::ₘ (b, y) ::ₘ qs) ≤ 1 →
    ∃ (l : ℕ) (rs : Multiset (ℕ × ℕ)), rs.map Prod.fst = qs.map Prod.fst ∧
      kraft ((a, l + 1) ::ₘ (b, l + 1) ::ₘ rs) ≤ 1 ∧
      cost ((a, l + 1) ::ₘ (b, l + 1) ::ₘ rs) ≤ cost ((a, x) ::ₘ (b, y) ::ₘ qs) := by
  induction n using Nat.strong_induction_on with
  | _ n ih =>
    intro x y qs hn hmin hk
    -- either `a` or `b` can be improved, or both have the greatest length
    have hcases : ((∃ q ∈ qs, x < q.2) ∨ ∀ q ∈ (b, y) ::ₘ qs, q.2 < x) ∨
        ((∃ q ∈ qs, y < q.2) ∨ ∀ q ∈ (a, x) ::ₘ qs, q.2 < y) ∨ x = y := by
      by_cases hx : ∃ q ∈ qs, x < q.2
      · exact Or.inl (Or.inl hx)
      by_cases hy : ∃ q ∈ qs, y < q.2
      · exact Or.inr (Or.inl (Or.inl hy))
      have hx' : ∀ q ∈ qs, q.2 ≤ x := fun q hq => Nat.le_of_not_lt fun h => hx ⟨q, hq, h⟩
      have hy' : ∀ q ∈ qs, q.2 ≤ y := fun q hq => Nat.le_of_not_lt fun h => hy ⟨q, hq, h⟩
      simp only [Multiset.forall_mem_cons]
      rcases Nat.lt_trichotomy x y with hlt | heq | hlt
      · exact Or.inr (Or.inl (Or.inr ⟨hlt, fun q hq => (hx' q hq).trans_lt hlt⟩))
      · exact Or.inr (Or.inr heq)
      · exact Or.inl (Or.inr ⟨hlt, fun q hq => (hy' q hq).trans_lt hlt⟩)
    rcases hcases with ha | hb | rfl
    · obtain ⟨x', rs, hlt, hrs, hk', hc⟩ := exists_better (fun w hw => (hmin w hw).1) hk ha
      obtain ⟨l, rs', hrs', hk'', hc'⟩ := ih _ (hn ▸ hlt) x' y rs rfl (hrs ▸ hmin) hk'
      exact ⟨l, rs', hrs'.trans hrs, hk'', hc'.trans hc⟩
    · rw [Multiset.cons_swap] at hk
      obtain ⟨y', rs, hlt, hrs, hk', hc⟩ := exists_better (fun w hw => (hmin w hw).2) hk hb
      rw [Multiset.cons_swap] at hk'
      rw [Multiset.cons_swap, Multiset.cons_swap (b, y)] at hc
      have hlt' : spread x y' rs < n := by
        simp only [spread] at hn hlt ⊢
        omega
      obtain ⟨l, rs', hrs', hk'', hc'⟩ := ih _ hlt' x y' rs rfl (hrs ▸ hmin) hk'
      exact ⟨l, rs', hrs'.trans hrs, hk'', hc'.trans hc⟩
    · -- the shared length is not zero: two empty codewords are too many
      obtain ⟨l, rfl⟩ : ∃ l, x = l + 1 := by
        refine ⟨x - 1, ?_⟩
        by_contra hzero
        obtain rfl : x = 0 := by omega
        have hnonneg := kraft_nonneg qs
        simp only [kraft_cons, pow_zero] at hk
        linarith
      exact ⟨l, qs, rfl, hk, le_refl _⟩

/-- A pairing of `a ::ₘ t` with lengths starts with a length for `a`. -/
theorem exists_pair_of_map_eq_cons {ps : Multiset (ℕ × ℕ)} {a : ℕ} {t : Multiset ℕ}
    (h : ps.map Prod.fst = a ::ₘ t) : ∃ x qs, ps = (a, x) ::ₘ qs ∧ qs.map Prod.fst = t := by
  obtain ⟨⟨a', x⟩, hmem, rfl, hrest⟩ := (Multiset.map_eq_cons _ _ _ _).2 h
  exact ⟨x, ps.erase (a', x), (Multiset.cons_erase hmem).symm, hrest⟩

/-- **Huffman's cost is a lower bound** for all lengths that satisfy Kraft's inequality. -/
theorem Huffman.le_cost {s : Multiset ℕ} {c : ℕ} (h : Huffman s c) :
    ∀ ps : Multiset (ℕ × ℕ), ps.map Prod.fst = s → kraft ps ≤ 1 → c ≤ cost ps := by
  induction h with
  | single w => intro ps _ _; exact Nat.zero_le _
  | @merge a b s c hmin _ ih =>
    intro ps hps hk
    obtain ⟨x, ps', rfl, hps'⟩ := exists_pair_of_map_eq_cons hps
    obtain ⟨y, qs, rfl, rfl⟩ := exists_pair_of_map_eq_cons hps'
    obtain ⟨l, rs, hrs, hk', hc⟩ := exists_deepest _ x y qs rfl hmin hk
    -- two codewords of length `l + 1` weigh as much as one of length `l`
    have hmerge : kraft ((a + b, l) ::ₘ rs) ≤ 1 := by
      simp only [kraft_cons, pow_succ] at hk' ⊢
      linarith
    have hle := ih ((a + b, l) ::ₘ rs) (by rw [Multiset.map_cons, hrs]) hmerge
    calc a + b + c ≤ a + b + cost ((a + b, l) ::ₘ rs) := by omega
      _ = cost ((a, l + 1) ::ₘ (b, l + 1) ::ₘ rs) := by
        simp only [cost_cons]
        ring
      _ ≤ cost ((a, x) ::ₘ (b, y) ::ₘ qs) := hc

/-! ## Code trees -/

/-- A binary code tree with a symbol at every leaf. -/
inductive Tree (α : Type*) where
  | leaf (a : α)
  | node (l r : Tree α)
  deriving DecidableEq, Repr

namespace Tree

variable {α β : Type*}

/-- The symbols at the leaves, from left to right. -/
def leaves : Tree α → List α
  | leaf a => [a]
  | node l r => l.leaves ++ r.leaves

/-- The symbols with the path that leads to them: `zero` for left, `one` for right. -/
def codes (zero one : β) : Tree α → List (α × List β)
  | leaf a => [(a, [])]
  | node l r =>
      (l.codes zero one).map (fun p => (p.1, zero :: p.2)) ++
        (r.codes zero one).map fun p => (p.1, one :: p.2)

/-- The weight of all symbols of a tree. -/
def weight (w : α → ℕ) (t : Tree α) : ℕ := (t.leaves.map w).sum

/-- The weighted length of the codes of a tree. -/
def cost (w : α → ℕ) : Tree α → ℕ
  | leaf _ => 0
  | node l r => l.cost w + r.cost w + (l.weight w + r.weight w)

variable {zero one : β}

theorem map_fst_codes (zero one : β) (t : Tree α) : (t.codes zero one).map Prod.fst = t.leaves := by
  induction t with
  | leaf a => rfl
  | node l r ihl ihr =>
      simp only [codes, List.map_append, List.map_map, leaves, ← ihl, ← ihr]
      rfl

/-- The cost is the sum of the weights times the lengths of the codes. -/
theorem cost_eq_sum (zero one : β) (w : α → ℕ) (t : Tree α) :
    t.cost w = ((t.codes zero one).map fun p => w p.1 * p.2.length).sum := by
  induction t with
  | leaf a => rfl
  | node l r ihl ihr =>
      have hstep : ∀ (b : β) (ps : List (α × List β)),
          ((ps.map fun p => (p.1, b :: p.2)).map fun p => w p.1 * p.2.length).sum =
            (ps.map fun p => w p.1 * p.2.length).sum + ((ps.map Prod.fst).map w).sum := by
        intro b ps
        rw [List.map_map, List.map_map, ← List.sum_map_add]
        rfl
      rw [cost, codes, List.map_append, List.sum_append, hstep, hstep, map_fst_codes,
        map_fst_codes, ← ihl, ← ihr, weight, weight]
      ring

/-- **The codes of a tree are prefix-free.** -/
theorem codes_prefixFree (h : zero ≠ one) (t : Tree α) :
    PrefixFree Prod.snd {p | p ∈ t.codes zero one} := by
  induction t with
  | leaf a =>
      intro p hp q hq _
      rw [List.mem_singleton.1 hp, List.mem_singleton.1 hq]
  | node l r ihl ihr =>
      intro p hp q hq hpre
      rcases List.mem_append.1 hp with hp | hp <;> rcases List.mem_append.1 hq with hq | hq <;>
        obtain ⟨p', hp', rfl⟩ := List.mem_map.1 hp <;>
        obtain ⟨q', hq', rfl⟩ := List.mem_map.1 hq <;>
        rw [List.cons_prefix_cons] at hpre
      · rw [ihl p' hp' q' hq' hpre.2]
      · exact absurd hpre.1 h
      · exact absurd hpre.1.symm h
      · rw [ihr p' hp' q' hq' hpre.2]

/-- The codes of a tree use Kraft's inequality up. -/
theorem sum_codes (t : Tree α) :
    ((t.codes zero one).map fun p => (1 / 2 : ℝ) ^ p.2.length).sum = 1 := by
  induction t with
  | leaf a => simp [codes]
  | node l r ihl ihr =>
      have hstep : ∀ (b : β) (ps : List (α × List β)),
          ((ps.map fun p => (p.1, b :: p.2)).map fun p => (1 / 2 : ℝ) ^ p.2.length).sum =
            1 / 2 * (ps.map fun p => (1 / 2 : ℝ) ^ p.2.length).sum := by
        intro b ps
        rw [List.map_map, ← List.sum_map_mul_left]
        simp only [Function.comp_def, List.length_cons, pow_succ']
      rw [codes, List.map_append, List.sum_append, hstep, hstep, ihl, ihr]
      norm_num

/-- Every tree has a leaf, and more than one unless it is a leaf itself. -/
theorem length_leaves_pos (t : Tree α) : 0 < t.leaves.length := by
  induction t with
  | leaf a => exact Nat.one_pos
  | node l r ihl ihr =>
      rw [leaves, List.length_append]
      omega

/-- **A tree built by merging is optimal**: no prefix code for its symbols costs less. -/
theorem cost_le_of_prefixFree [DecidableEq α] {w : α → ℕ} {t : Tree α}
    (h : Huffman (t.leaves.map w) (t.cost w)) (hnodup : t.leaves.Nodup) {code : α → List Bool}
    (hcode : PrefixFree code {a | a ∈ t.leaves}) :
    t.cost w ≤ (t.leaves.map fun a => w a * (code a).length).sum := by
  have hfree : PrefixFree code (t.leaves.toFinset : Set α) :=
    hcode.subset fun a ha => List.mem_toFinset.1 ha
  have hkraft := hfree.kraft_le_one
  rw [List.sum_toFinset _ hnodup] at hkraft
  have hle := h.le_cost (t.leaves.map fun a => (w a, (code a).length))
    (by simp [Function.comp_def]) (by simpa [kraft, kraftTerm, Function.comp_def] using hkraft)
  simpa [Codec.cost, Function.comp_def] using hle

end Tree

end Codec
