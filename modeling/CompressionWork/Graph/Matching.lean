import Mathlib.Data.Finset.Card
import Mathlib.Data.Finset.Option
import Mathlib.Data.Finset.Union
import Mathlib.Logic.Function.Basic
import Mathlib.Tactic.Common

/-!
# Matchings of a bipartite graph

A matching is a pair of partial functions that are inverse to each other, as an allocator stores it.

* `IsMatching` — the two functions agree and pair ends of edges.
* `IsMatching.add`, `IsMatching.move` — an edge is added; an edge is moved to a free output.
* `IsMatching.size_le_cover` — no matching is larger than a set that meets all edges.
* `IsMatching.size_le_of_maximal` — a matching that no edge can be added to has half the size of any other.
* `IsMatching.size_le_of_closed` — **a matching is as large as any** when the inputs that its free inputs
  reach have no free output next to them.
-/

namespace CompressionWork.Graph

open Function

variable {α β : Type*} {edge : α → β → Prop} {inmatch inmatch' : α → Option β}
  {outmatch outmatch' : β → Option α}

/-- The partners of the inputs and of the outputs of a matching. -/
structure IsMatching (edge : α → β → Prop) (inmatch : α → Option β) (outmatch : β → Option α) : Prop where
  granted : ∀ a b, inmatch a = some b → edge a b ∧ outmatch b = some a
  matched : ∀ a b, outmatch b = some a → inmatch a = some b

/-- The number of inputs that have a partner. -/
def size (inputs : Finset α) (inmatch : α → Option β) : ℕ :=
  (inputs.filter fun a => (inmatch a).isSome).card

namespace IsMatching

theorem empty : IsMatching edge (fun _ => none) (fun _ => none) :=
  ⟨fun _ _ h => by simp at h, fun _ _ h => by simp at h⟩

theorem inj (h : IsMatching edge inmatch outmatch) {a a' : α} {b : β} (ha : inmatch a = some b)
    (ha' : inmatch a' = some b) : a = a' :=
  Option.some.inj ((h.granted a b ha).2.symm.trans (h.granted a' b ha').2)

/-! ## Steps -/

section Steps

variable [DecidableEq α] [DecidableEq β] {a : α} {b b' : β}

/-- An edge between a free input and a free output is added. -/
theorem add (h : IsMatching edge inmatch (update outmatch b none)) (hedge : edge a b)
    (hfree : inmatch a = none) :
    IsMatching edge (update inmatch a (some b)) (update outmatch b (some a)) := by
  constructor
  · intro x y hxy
    by_cases hx : x = a
    · subst hx
      rw [update_self, Option.some.injEq] at hxy
      subst hxy
      exact ⟨hedge, update_self ..⟩
    · rw [update_of_ne hx] at hxy
      obtain ⟨he, hout⟩ := h.granted x y hxy
      have hy : y ≠ b := by
        rintro rfl
        simp at hout
      rw [update_of_ne hy] at hout ⊢
      exact ⟨he, hout⟩
  · intro x y hxy
    by_cases hy : y = b
    · subst hy
      rw [update_self, Option.some.injEq] at hxy
      subst hxy
      exact update_self ..
    · rw [update_of_ne hy] at hxy
      have hin := h.matched x y (by rw [update_of_ne hy]; exact hxy)
      have hx : x ≠ a := by
        rintro rfl
        simp [hfree] at hin
      rw [update_of_ne hx]
      exact hin

/-- The edge of an input is moved to a free output. -/
theorem move (h : IsMatching edge inmatch (update outmatch b none)) (hedge : edge a b)
    (hin : inmatch a = some b') (hne : b' ≠ b) :
    IsMatching edge (update inmatch a (some b)) (update (update outmatch b (some a)) b' none) := by
  have hold : outmatch b' = some a := by
    have := (h.granted a b' hin).2
    rwa [update_of_ne hne] at this
  constructor
  · intro x y hxy
    by_cases hx : x = a
    · subst hx
      rw [update_self, Option.some.injEq] at hxy
      subst hxy
      rw [update_of_ne hne.symm, update_self]
      exact ⟨hedge, rfl⟩
    · rw [update_of_ne hx] at hxy
      obtain ⟨he, hout⟩ := h.granted x y hxy
      have hy : y ≠ b := by
        rintro rfl
        simp at hout
      rw [update_of_ne hy] at hout
      have hy' : y ≠ b' := by
        rintro rfl
        exact hx (Option.some.inj (hout.symm.trans hold))
      rw [update_of_ne hy', update_of_ne hy]
      exact ⟨he, hout⟩
  · intro x y hxy
    by_cases hy' : y = b'
    · subst hy'
      simp at hxy
    · rw [update_of_ne hy'] at hxy
      by_cases hy : y = b
      · subst hy
        rw [update_self, Option.some.injEq] at hxy
        subst hxy
        exact update_self ..
      · rw [update_of_ne hy] at hxy
        have hxin := h.matched x y (by rw [update_of_ne hy]; exact hxy)
        have hx : x ≠ a := by
          rintro rfl
          exact hy' (Option.some.inj (hxin.symm.trans hin))
        rw [update_of_ne hx]
        exact hxin

end Steps

/-! ## Sizes -/

section Sizes

variable [DecidableEq β] {inputs : Finset α}

/-- Inputs with partners in `T` are no more than `T`. -/
theorem card_le_of_partners (h : IsMatching edge inmatch outmatch) {S : Finset α} {T : Finset β}
    (hpartner : ∀ a ∈ S, ∃ b ∈ T, inmatch a = some b) : S.card ≤ T.card := by
  have hmaps : ∀ a ∈ S, inmatch a ∈ T.image some := by
    intro a ha
    obtain ⟨b, hb, hab⟩ := hpartner a ha
    rw [hab]
    exact Finset.mem_image_of_mem some hb
  have hinj : Set.InjOn inmatch S := by
    intro a ha a' _ heq
    obtain ⟨b, -, hab⟩ := hpartner a ha
    exact h.inj hab (heq ▸ hab)
  exact (Finset.card_le_card_of_injOn inmatch hmaps hinj).trans Finset.card_image_le

/-- The partners of the inputs in `R`. -/
def partners (R : Finset α) (inmatch : α → Option β) : Finset β :=
  R.biUnion fun a => (inmatch a).toFinset

theorem mem_partners {R : Finset α} {b : β} : b ∈ partners R inmatch ↔ ∃ a ∈ R, inmatch a = some b := by
  simp [partners]

theorem card_partners_le (R : Finset α) (inmatch : α → Option β) :
    (partners R inmatch).card ≤ size R inmatch := by
  have hsub : (partners R inmatch).image some ⊆
      (R.filter fun a => (inmatch a).isSome).image inmatch := by
    intro x hx
    obtain ⟨b, hb, rfl⟩ := Finset.mem_image.1 hx
    obtain ⟨a, ha, hab⟩ := mem_partners.1 hb
    exact Finset.mem_image.2 ⟨a, Finset.mem_filter.2 ⟨ha, by rw [hab]; rfl⟩, hab⟩
  have hcard : ((partners R inmatch).image some).card = (partners R inmatch).card :=
    Finset.card_image_of_injective _ (Option.some_injective β)
  rw [← hcard]
  exact (Finset.card_le_card hsub).trans Finset.card_image_le

variable [DecidableEq α]

/-- No matching is larger than a cover of the edges. -/
theorem size_le_cover (h : IsMatching edge inmatch outmatch) {S : Finset α} {T : Finset β}
    (hcover : ∀ a ∈ inputs, ∀ b, edge a b → a ∈ S ∨ b ∈ T) :
    size inputs inmatch ≤ S.card + T.card := by
  have hsplit : (inputs.filter fun a => (inmatch a).isSome) ⊆
      S ∪ (inputs.filter fun a => (inmatch a).isSome).filter fun a => a ∉ S := by
    intro a ha
    by_cases haS : a ∈ S
    · exact Finset.mem_union_left _ haS
    · exact Finset.mem_union_right _ (Finset.mem_filter.2 ⟨ha, haS⟩)
  have hrest : ((inputs.filter fun a => (inmatch a).isSome).filter fun a => a ∉ S).card ≤ T.card := by
    refine h.card_le_of_partners fun a ha => ?_
    obtain ⟨ha, haS⟩ := Finset.mem_filter.1 ha
    obtain ⟨hin, hsome⟩ := Finset.mem_filter.1 ha
    obtain ⟨b, hb⟩ := Option.isSome_iff_exists.1 hsome
    exact ⟨b, (hcover a hin b (h.granted a b hb).1).resolve_left haS, hb⟩
  exact (Finset.card_le_card hsplit).trans ((Finset.card_union_le ..).trans (by omega))

/-- **A matching that no edge can be added to** has at least half the size of any other one. -/
theorem size_le_of_maximal (h : IsMatching edge inmatch outmatch)
    (hmax : ∀ a ∈ inputs, ∀ b, edge a b → inmatch a ≠ none ∨ outmatch b ≠ none)
    (hin : ∀ a b, edge a b → a ∈ inputs) (h' : IsMatching edge inmatch' outmatch') :
    size inputs inmatch' ≤ 2 * size inputs inmatch := by
  have hcover : ∀ a ∈ inputs, ∀ b, edge a b →
      a ∈ (inputs.filter fun a => (inmatch a).isSome) ∨ b ∈ partners inputs inmatch := by
    intro a ha b hab
    rcases hmax a ha b hab with hfree | hfree
    · exact Or.inl (Finset.mem_filter.2 ⟨ha, Option.isSome_iff_ne_none.2 hfree⟩)
    · obtain ⟨x, hx⟩ := Option.ne_none_iff_exists'.1 hfree
      have hx' := h.matched x b hx
      exact Or.inr (mem_partners.2 ⟨x, hin x b (h.granted x b hx').1, hx'⟩)
  have hbound := h'.size_le_cover hcover
  have hpart := card_partners_le inputs inmatch
  unfold size at hpart ⊢
  unfold size at hbound
  omega

/-- **A matching is as large as any other one** when a set of inputs has all the free ones and, with an
input, the partners of all outputs next to it. -/
theorem size_le_of_closed {R : Finset α} (hsub : R ⊆ inputs)
    (hfree : ∀ a ∈ inputs, inmatch a = none → a ∈ R)
    (hclosed : ∀ a ∈ R, ∀ b, edge a b → ∃ a' ∈ R, inmatch a' = some b)
    (h' : IsMatching edge inmatch' outmatch') : size inputs inmatch' ≤ size inputs inmatch := by
  have hcover : ∀ a ∈ inputs, ∀ b, edge a b → a ∈ inputs \ R ∨ b ∈ partners R inmatch := by
    intro a ha b hab
    by_cases haR : a ∈ R
    · exact Or.inr (mem_partners.2 (hclosed a haR b hab))
    · exact Or.inl (Finset.mem_sdiff.2 ⟨ha, haR⟩)
  have hbound := h'.size_le_cover hcover
  have hpart := card_partners_le R inmatch
  -- the inputs outside of `R` all have a partner
  have hparts : (inputs \ R) ∪ (R.filter fun a => (inmatch a).isSome) ⊆
      inputs.filter fun a => (inmatch a).isSome := by
    intro a ha
    rcases Finset.mem_union.1 ha with ha | ha
    · obtain ⟨hin, haR⟩ := Finset.mem_sdiff.1 ha
      exact Finset.mem_filter.2 ⟨hin, Option.isSome_iff_ne_none.2 fun hnone => haR (hfree a hin hnone)⟩
    · obtain ⟨haR, hsome⟩ := Finset.mem_filter.1 ha
      exact Finset.mem_filter.2 ⟨hsub haR, hsome⟩
  have hdisj : Disjoint (inputs \ R) (R.filter fun a => (inmatch a).isSome) :=
    Finset.sdiff_disjoint.mono_right (Finset.filter_subset ..)
  have hcard := Finset.card_le_card hparts
  rw [Finset.card_union_of_disjoint hdisj] at hcard
  unfold size at hbound hpart ⊢
  omega

end Sizes

end IsMatching

end CompressionWork.Graph
