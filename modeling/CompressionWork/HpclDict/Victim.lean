import CompressionWork.HpclDict.Replace

/-!
# The dictionary: the announced victim

`search_victim_by_LFU` tells which word a new one would replace.  It is written separately
from `update_elem_by_LFU`, and its loop does not look at the hold flag.

* `Dict.searchVictimByLfu` — the search.
* `LastAt` — a loop that keeps overwriting its result ends with the last element that passes
  its test.
* `announced_iff` — in every state that operations lead to, the announced word is the one
  that an update replaces exactly when `AnnouncedFree` holds.
-/

namespace CompressionWork.HpclDict

variable {K : Type}

/-! ## The source -/

/-- The loop of `search_victim_by_LFU` over the elements after the first: the word of the last
one used less than element 0. -/
def victimWordFrom (e₀ : Elem K) : K → List (Elem K) → K
  | victimWord, [] => victimWord
  | victimWord, e :: l => victimWordFrom e₀ (if e.freq < e₀.freq then e.word else victimWord) l

/-- `search_victim_by_LFU`; `m_dict[0]` is read first. -/
def Dict.searchVictimByLfu (d : Dict K) : Option K :=
  match d.mDict with
  | [] => none
  | e₀ :: l => some (victimWordFrom e₀ e₀.word l)

/-! ## The loops -/

/-- Place `i` holds `e`, and it is the last one that passes `p`. -/
def LastAt (p : Elem K → Prop) (l : List (Elem K)) (i : ℕ) (e : Elem K) : Prop :=
  l[i]? = some e ∧ p e ∧ ∀ (j : ℕ) (e' : Elem K), i < j → l[j]? = some e' → ¬ p e'

theorem LastAt.unique {p : Elem K → Prop} {l : List (Elem K)} {i j : ℕ} {e e' : Elem K}
    (h : LastAt p l i e) (h' : LastAt p l j e') : i = j ∧ e = e' := by
  obtain hlt | rfl | hlt := Nat.lt_trichotomy i j
  · exact absurd h'.2.1 (h.2.2 j e' hlt h'.1)
  · exact ⟨rfl, by simpa [h.1] using h'.1⟩
  · exact absurd h.2.1 (h'.2.2 i e hlt h.1)

theorem LastAt.cons {p : Elem K → Prop} {l : List (Elem K)} {i : ℕ} {e : Elem K}
    (h : LastAt p l i e) (e₁ : Elem K) : LastAt p (e₁ :: l) (i + 1) e := by
  refine ⟨by simpa using h.1, h.2.1, fun j e' hj hget => ?_⟩
  obtain ⟨j, rfl⟩ : ∃ m, j = m + 1 := ⟨j - 1, by omega⟩
  exact h.2.2 j e' (by omega) (by simpa using hget)

/-- The first element, when it is the only one that passes. -/
theorem lastAt_zero {p : Elem K → Prop} {l : List (Elem K)} {e : Elem K} (hp : p e)
    (hnone : ∀ e' ∈ l, ¬ p e') : LastAt p (e :: l) 0 e := by
  refine ⟨rfl, hp, fun j e' hj hget => ?_⟩
  obtain ⟨j, rfl⟩ : ∃ m, j = m + 1 := ⟨j - 1, by omega⟩
  exact hnone e' (List.mem_of_getElem? (by simpa using hget))

section Loop

variable {e₀ : Elem K}

/-- The word of the last element used less than element 0, or the word it started from. -/
theorem victimWordFrom_cases (w : K) (l : List (Elem K)) :
    (∃ i e, LastAt (fun e => e.freq < e₀.freq) l i e ∧ victimWordFrom e₀ w l = e.word) ∨
      ((∀ e ∈ l, ¬ e.freq < e₀.freq) ∧ victimWordFrom e₀ w l = w) := by
  induction l generalizing w with
  | nil => exact Or.inr ⟨by simp, rfl⟩
  | cons e l ih =>
      rw [victimWordFrom]
      obtain ⟨i, e', hlast, hword⟩ | ⟨hnone, hword⟩ := ih (if e.freq < e₀.freq then e.word else w)
      · exact Or.inl ⟨i + 1, e', hlast.cons e, hword⟩
      · by_cases hbelow : e.freq < e₀.freq
        · rw [if_pos hbelow] at hword ⊢
          exact Or.inl ⟨0, e, lastAt_zero hbelow hnone, hword⟩
        · rw [if_neg hbelow] at hword ⊢
          refine Or.inr ⟨fun e' he' => ?_, hword⟩
          rcases List.mem_cons.1 he' with rfl | he'
          · exact hbelow
          · exact hnone e' he'

/-- The place `update_elem_by_LFU` chooses. -/
theorem victimFrom_lfu (l : List (Elem K)) :
    (∃ i e, LastAt (fun e => e.freq < e₀.freq ∧ e.hold = false) (e₀ :: l) i e ∧
      victimFrom .lfu e₀ 1 0 l = i) ∨
    ((∀ e ∈ l, ¬ (e.freq < e₀.freq ∧ e.hold = false)) ∧ victimFrom .lfu e₀ 1 0 l = 0) := by
  obtain ⟨n, e, hn, hbelow, heq, hlast⟩ | ⟨hnone, heq⟩ := @victimFrom_cases K .lfu e₀ 1 0 l
  · have hat : LastAt (fun e => e.freq < e₀.freq ∧ e.hold = false) l n e := ⟨hn, hbelow, hlast⟩
    exact Or.inl ⟨n + 1, e, hat.cons e₀, by omega⟩
  · refine Or.inr ⟨fun e he => ?_, heq⟩
    obtain ⟨m, hm⟩ := List.mem_iff_getElem?.1 he
    exact hnone m e hm

end Loop

/-! ## When the two searches agree -/

/-- The element that is replaced: the last one that is used less than element 0 and not held,
or element 0 where there is none. -/
def Replaced (l : List (Elem K)) (e₀ e : Elem K) : Prop :=
  (∃ i, LastAt (fun e' => e'.freq < e₀.freq ∧ e'.hold = false) l i e) ∨
    ((∀ e' ∈ l, ¬ (e'.freq < e₀.freq ∧ e'.hold = false)) ∧ e = e₀)

/-- The last element used less than element 0, if there is one, is not held, or the element
that is taken in its place has the same word. -/
def AnnouncedFree (l : List (Elem K)) : Prop :=
  ∀ e₀, l[0]? = some e₀ → ∀ i e, LastAt (fun e' => e'.freq < e₀.freq) l i e →
    e.hold = false ∨ ∃ e', Replaced l e₀ e' ∧ e'.word = e.word

/-- The update takes such an element. -/
theorem exists_replaced (e₀ : Elem K) (l : List (Elem K)) :
    ∃ f, Replaced (e₀ :: l) e₀ f ∧ (e₀ :: l)[victimFrom .lfu e₀ 1 0 l]? = some f := by
  obtain ⟨i, e, hlast, heq⟩ | ⟨hnone, heq⟩ := @victimFrom_lfu K e₀ l
  · exact ⟨e, Or.inl ⟨i, hlast⟩, by rw [heq]; exact hlast.1⟩
  · refine ⟨e₀, Or.inr ⟨?_, rfl⟩, by rw [heq]; rfl⟩
    intro e' he'
    rcases List.mem_cons.1 he' with rfl | he'
    · exact fun h => absurd h.1 (Nat.lt_irrefl _)
    · exact hnone e' he'

/-- There is only one. -/
theorem Replaced.unique {l : List (Elem K)} {e₀ f g : Elem K} (hg : Replaced l e₀ g)
    (hf : Replaced l e₀ f) : g = f := by
  rcases hg with ⟨i, hg⟩ | ⟨hg, rfl⟩
  · rcases hf with ⟨j, hf⟩ | ⟨hf, rfl⟩
    · exact (hg.unique hf).2
    · exact absurd hg.2.1 (hf g (List.mem_of_getElem? hg.1))
  · rcases hf with ⟨j, hf⟩ | ⟨-, rfl⟩
    · exact absurd hf.2.1 (hg f (List.mem_of_getElem? hf.1))
    · rfl

/-- On any full dictionary. -/
theorem searchVictim_iff (e₀ : Elem K) (l : List (Elem K)) :
    some (victimWordFrom e₀ e₀.word l) =
        ((e₀ :: l)[victimFrom .lfu e₀ 1 0 l]?).map Elem.word ↔ AnnouncedFree (e₀ :: l) := by
  obtain ⟨f, hf, hget⟩ := exists_replaced e₀ l
  rw [hget, Option.map_some, Option.some.injEq]
  obtain ⟨i, e, hlast, hword⟩ | ⟨hnone, hword⟩ := @victimWordFrom_cases K e₀ e₀.word l
  · rw [hword]
    have hlast' := hlast.cons e₀
    constructor
    · intro heq e₁ he₁ j e' he'
      obtain rfl : e₀ = e₁ := by simpa using he₁
      obtain ⟨-, rfl⟩ := hlast'.unique he'
      exact Or.inr ⟨f, hf, heq.symm⟩
    · intro hfree
      rcases hfree e₀ rfl (i + 1) e hlast' with hhold | ⟨g, hg, heq⟩
      · -- it passes the test of the update too, and nothing after it does
        have hsame : Replaced (e₀ :: l) e₀ e :=
          Or.inl ⟨i + 1, hlast'.1, ⟨hlast'.2.1, hhold⟩,
            fun j e' hj hj' hpass => hlast'.2.2 j e' hj hj' hpass.1⟩
        rw [hsame.unique hf]
      · rw [← heq, hg.unique hf]
  · rw [hword]
    have hnone' : ∀ e ∈ e₀ :: l, ¬ e.freq < e₀.freq := by
      intro e he
      rcases List.mem_cons.1 he with rfl | he
      · exact Nat.lt_irrefl _
      · exact hnone e he
    have hfirst : Replaced (e₀ :: l) e₀ e₀ :=
      Or.inr ⟨fun e' he' hpass => hnone' e' he' hpass.1, rfl⟩
    rw [← hfirst.unique hf]
    refine iff_of_true rfl fun e₁ he₁ i e hlast => ?_
    obtain rfl : e₀ = e₁ := by simpa using he₁
    exact absurd hlast.2.1 (hnone' e (List.mem_of_getElem? hlast.1))

/-! ## Runs -/

section Runs

variable [DecidableEq K]

/-- No operation changes the policy or the limit, or takes an element away. -/
theorem step_frame {d d' : Dict K} {op : Op K} (h : d.step op = some d') :
    d'.repPolicy = d.repPolicy ∧ d'.maxDictSize = d.maxDictSize ∧
      d.mDict.length ≤ d'.mDict.length := by
  have hatWord : ∀ (f : Elem K → Elem K) (i : ℕ) (word : K), Dict.atWord f d i word = some d' →
      d'.repPolicy = d.repPolicy ∧ d'.maxDictSize = d.maxDictSize ∧
        d.mDict.length ≤ d'.mDict.length := by
    intro f i word h
    rw [Dict.atWord] at h
    split at h
    · split at h
      · obtain rfl := Option.some.inj h
        simp
      · simp at h
    · simp at h
  cases op with
  | update word time index =>
      obtain ⟨⟨k, d₁⟩, hupdate, rfl⟩ := Option.map_eq_some_iff.1 h
      rw [Dict.updateDict] at hupdate
      split at hupdate
      · split at hupdate
        · obtain ⟨-, rfl⟩ := Prod.mk.inj (Option.some.inj hupdate)
          simp
        · simp at hupdate
      · split at hupdate
        · obtain ⟨-, rfl⟩ := Prod.mk.inj (Option.some.inj hupdate)
          simp
        · split at hupdate
          · obtain ⟨-, rfl⟩ := Prod.mk.inj (Option.some.inj hupdate)
            simp
          · rw [Dict.updateElem] at hupdate
            split at hupdate
            · simp at hupdate
            · obtain ⟨-, rfl⟩ := Prod.mk.inj (Option.some.inj hupdate)
              simp
  | hold i word => exact hatWord _ i word h
  | release i word => exact hatWord _ i word h
  | validate i word => exact hatWord _ i word h
  | erase word =>
      rw [Dict.step, Dict.eraseDict] at h
      split at h
      · obtain rfl := Option.some.inj h
        simp
      · simp at h
  | search word =>
      obtain rfl := Option.some.inj h
      simp

theorem runDict_frame {d d' : Dict K} {ops : List (Op K)} (h : runDict d ops = some d') :
    d'.repPolicy = d.repPolicy ∧ d'.maxDictSize = d.maxDictSize ∧
      d.mDict.length ≤ d'.mDict.length := by
  induction ops generalizing d with
  | nil =>
      obtain rfl := Option.some.inj h
      exact ⟨rfl, rfl, Nat.le_refl _⟩
  | cons op ops ih =>
      obtain ⟨d₁, hstep, hrun⟩ := Option.bind_eq_some_iff.1 h
      obtain ⟨hpol, hmax, hlen⟩ := step_frame hstep
      obtain ⟨hpol', hmax', hlen'⟩ := ih hrun
      exact ⟨hpol'.trans hpol, hmax'.trans hmax, Nat.le_trans hlen hlen'⟩

/-- **In every state that operations on a new dictionary lead to**, the word announced for a
new word is the one the update replaces if and only if the last element used less than
element 0 is not held, or the one taken in its place has the same word. -/
theorem announced_iff [Zero K] {n : ℕ} {ops : List (Op K)} {d : Dict K}
    (hrun : runDict (Dict.create n .lfu) ops = some d) {word : K}
    (hnew : d.searchWord word = none) {time k : ℕ} {index : ℤ} (hindex : index < 0) {d' : Dict K}
    (hupdate : d.updateDict word time index = some (k, d')) :
    d.searchVictimByLfu = (d.mDict[k]?).map Elem.word ↔ AnnouncedFree d.mDict := by
  obtain ⟨hpol, hmax, hlen⟩ := runDict_frame hrun
  have hfull : ¬ d.mDict.length < d.maxDictSize := by
    rw [hmax]
    simpa [Dict.create] using hlen
  have hlfu : d.repPolicy = .lfu := hpol
  rw [Dict.updateDict, if_neg (by omega), hnew] at hupdate
  simp only [if_neg hfull, Dict.updateElem] at hupdate
  rw [Dict.searchVictimByLfu]
  split at hupdate
  · simp at hupdate
  · rename_i e₀ l hcons
    obtain ⟨rfl, -⟩ := Prod.mk.inj (Option.some.inj hupdate)
    rw [hcons, hlfu]
    exact searchVictim_iff e₀ l

/-- Two places: word 0 is used twice, then word 5 takes the other place and is held. -/
def heldOps : List (Op ℕ) := [.update 0 0 (-1), .update 5 0 (-1), .hold 1 5]

/-- Word 5 is announced, word 0 is replaced. -/
theorem announced_held : ¬ ∀ (n : ℕ) (ops : List (Op ℕ)) (d : Dict ℕ) (word time k : ℕ)
    (d' : Dict ℕ), runDict (Dict.create n .lfu) ops = some d → d.searchWord word = none →
      d.updateDict word time (-1) = some (k, d') →
        d.searchVictimByLfu = (d.mDict[k]?).map Elem.word := by
  intro h
  have hword := h 2 heldOps ⟨2, .lfu, [⟨0, 0, 2, false, false⟩, ⟨5, 0, 1, false, true⟩]⟩ 7 0 0
    ⟨2, .lfu, [⟨7, 0, 1, false, false⟩, ⟨5, 0, 1, false, true⟩]⟩ (by decide) (by decide) (by decide)
  exact absurd hword (by decide)

/-- Without the hold, word 5 is announced and replaced. -/
theorem announced_iff_free :
    runDict (Dict.create 2 .lfu) [Op.update 0 0 (-1), .update 5 0 (-1)] =
        some ⟨2, .lfu, [⟨0, 0, 2, false, false⟩, ⟨5, 0, 1, false, false⟩]⟩ ∧
      ((Dict.mk 2 .lfu [⟨0, 0, 2, false, false⟩, ⟨5, 0, 1, false, false⟩] :
          Dict ℕ).searchVictimByLfu = some 5 ↔
        AnnouncedFree (K := ℕ) [⟨0, 0, 2, false, false⟩, ⟨5, 0, 1, false, false⟩]) :=
  ⟨by decide, @announced_iff ℕ _ _ 2 [.update 0 0 (-1), .update 5 0 (-1)] _ (by decide) 7
    (by decide) 0 1 (-1) (by decide)
    ⟨2, .lfu, [⟨0, 0, 2, false, false⟩, ⟨7, 0, 1, false, false⟩]⟩ (by decide)⟩

end Runs

end CompressionWork.HpclDict
