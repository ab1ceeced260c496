import CompressionWork.Icnt.Allocator
import Mathlib.Algebra.Order.BigOperators.Group.Finset
import Mathlib.Data.List.Nodup

/-!
# The maximum-size allocator

`maxsize.cpp` augments the matching along shortest paths as long as it finds one.

* `scan`, `levels` — the search for a path: a level of inputs at a time, with `_from` as the way back.
* `augment` — the path is followed back and its edges are exchanged.
* `Trail` — the invariant of the search: the way back from an output leads over outputs found earlier.
* `augment_spec` — the exchange gives a matching with one more input.
* `levels_spec` — a search that finds nothing has seen all that free inputs reach.
* `run_maximum` — **no matching of the requests is larger** than the one allocated.

An access past the end of `_from`, which has as many entries as there are inputs, is `none`.
-/

namespace CompressionWork.Icnt

open Function CompressionWork.Graph DenseAllocator

/-- `MaxSizeMatch` -/
structure MaxSizeMatch extends DenseAllocator where
  prio : ℕ := 0

namespace MaxSizeMatch

/-! ## The source -/

/-- The edges of a level. An output that is new gets its way back; the search ends when it is free,
else its partner goes to the next level. -/
def scan (a : DenseAllocator) : List (ℕ × ℕ) → (ℕ → Option ℕ) → List ℕ →
    Option ((ℕ ⊕ List ℕ) × (ℕ → Option ℕ))
  | [], source, ns => some (.inr ns, source)
  | (i, j) :: cells, source, ns =>
      if a.request i j ≠ none ∧ a.inmatch i ≠ some j then
        if a.inputs ≤ j then none
        else if source j = none then
          match a.outmatch j with
          | none => some (.inl j, update source j (some i))
          | some i' => scan a cells (update source j (some i)) (ns ++ [i'])
        else scan a cells source ns
      else scan a cells source ns

/-- The edges at the inputs of a level, in the order of the two loops. -/
def cells (a : DenseAllocator) (s : List ℕ) : List (ℕ × ℕ) :=
  s.flatMap fun i => (List.range a.outputs).map fun j => (i, j)

/-- The loop over the levels. -/
def levels (a : DenseAllocator) : ℕ → List ℕ → (ℕ → Option ℕ) → Option (Option ℕ × (ℕ → Option ℕ))
  | 0, _, source => some (none, source)
  | iter + 1, s, source =>
      match scan a (cells a s) source [] with
      | none => none
      | some (.inl j, source) => some (some j, source)
      | some (.inr ns, source) => levels a iter ns source

/-- The path is followed back from its end `j`; it may use so many rounds. -/
def augment (source : ℕ → Option ℕ) : ℕ → ℕ → (ℕ → Option ℕ) → (ℕ → Option ℕ) →
    Option ((ℕ → Option ℕ) × (ℕ → Option ℕ))
  | 0, _, _, _ => none
  | rounds + 1, j, inmatch, outmatch =>
      (source j).bind fun i =>
        match inmatch i with
        | none => some (update inmatch i (some j), update outmatch j (some i))
        | some jn => augment source rounds jn (update inmatch i (some j)) (update outmatch j (some i))

/-- The inputs without a partner, from `_prio` on and around. -/
def free (a : MaxSizeMatch) : List ℕ :=
  ((List.range a.inputs).map fun i => (i + a.prio) % a.inputs).filter fun j => a.inmatch j = none

/-- The matching in progress is replaced. -/
def setMatching (a : MaxSizeMatch) (inmatch outmatch : ℕ → Option ℕ) : MaxSizeMatch :=
  { a with inmatch, outmatch }

/-- `_ShortestAugmenting`: whether there was a path, and the allocator after it. -/
def shortestAugmenting (a : MaxSizeMatch) : Option (Bool × MaxSizeMatch) :=
  match levels a.toDenseAllocator a.inputs a.free fun _ => none with
  | none => none
  | some (none, _) => some (false, a)
  | some (some j, source) =>
      (augment source (a.outputs + 1) j a.inmatch a.outmatch).map fun m =>
        (true, a.setMatching m.1 m.2)

/-- The loop of `Allocate`; it may use so many rounds. -/
def augmentAll : ℕ → MaxSizeMatch → Option MaxSizeMatch
  | 0, _ => none
  | rounds + 1, a => a.shortestAugmenting.bind fun r => if r.1 then augmentAll rounds r.2 else some r.2

/-- `Allocate` -/
def allocate (a : MaxSizeMatch) : Option MaxSizeMatch :=
  if a.inputs = 0 then none
  else (augmentAll (a.inputs + 1) a).map fun a => { a with prio := (a.prio + 1) % a.inputs }

/-- A cycle of the router: the allocator is cleared, gets requests, and allocates. -/
def round (a : MaxSizeMatch) (reqs : List RequestArgs) : Option MaxSizeMatch :=
  (a.toDenseAllocator.clear.addRequests reqs).bind fun d => { a with toDenseAllocator := d }.allocate

/-! ## The way back -/

section Trail

variable {edge : ℕ → ℕ → Prop} {inmatch outmatch source : ℕ → Option ℕ} {t : List (ℕ × ℕ)} {i j : ℕ}

/-- The outputs found with the inputs they were found from, the last one first: an input has no partner, or
its partner was found before. -/
inductive Trail (edge : ℕ → ℕ → Prop) (inmatch : ℕ → Option ℕ) : List (ℕ × ℕ) → Prop
  | nil : Trail edge inmatch []
  | cons {j i : ℕ} {t : List (ℕ × ℕ)} (hnew : j ∉ t.map Prod.fst) (hedge : edge i j)
      (hother : inmatch i ≠ some j) (hback : ∀ j', inmatch i = some j' → j' ∈ t.map Prod.fst)
      (h : Trail edge inmatch t) : Trail edge inmatch ((j, i) :: t)

namespace Trail

theorem suffix {pre : List (ℕ × ℕ)} (h : Trail edge inmatch (pre ++ t)) : Trail edge inmatch t := by
  induction pre with
  | nil => exact h
  | cons e pre ih =>
      cases h with
      | cons _ _ _ _ h => exact ih h

theorem back (h : Trail edge inmatch t) (he : (j, i) ∈ t) {j' : ℕ} (hin : inmatch i = some j') :
    j' ∈ t.map Prod.fst := by
  induction h with
  | nil => simp at he
  | cons _ _ _ hback _ ih =>
      rcases List.mem_cons.1 he with heq | he
      · obtain ⟨rfl, rfl⟩ := Prod.mk.inj heq
        exact List.mem_cons_of_mem _ (hback j' hin)
      · exact List.mem_cons_of_mem _ (ih he)

/-- The partner of the output found first was not used before. -/
theorem not_source {j₀ i₀ : ℕ} (h : Trail edge inmatch ((j₀, i₀) :: t)) (hin : inmatch i = some j₀) :
    ∀ e ∈ (j₀, i₀) :: t, e.2 ≠ i := by
  cases h with
  | cons hnew _ hother _ h =>
      intro e he heq
      rcases List.mem_cons.1 he with rfl | he
      · obtain rfl : i₀ = i := heq
        exact hother hin
      · obtain ⟨j', i'⟩ := e
        obtain rfl : i' = i := heq
        exact hnew (h.back he hin)

theorem edges (h : Trail edge inmatch t) : ∀ e ∈ t, edge e.2 e.1 := by
  induction h with
  | nil => simp
  | cons _ hedge _ _ _ ih =>
      intro e he
      rcases List.mem_cons.1 he with rfl | he
      · exact hedge
      · exact ih e he

theorem congr {inmatch' : ℕ → Option ℕ} (h : Trail edge inmatch t)
    (hsame : ∀ e ∈ t, inmatch' e.2 = inmatch e.2) : Trail edge inmatch' t := by
  induction h with
  | nil => exact .nil
  | @cons j i t hnew hedge hother hback _ ih =>
      have hi : inmatch' i = inmatch i := hsame (j, i) List.mem_cons_self
      exact .cons hnew hedge (hi ▸ hother) (hi ▸ hback)
        (ih fun e he => hsame e (List.mem_cons_of_mem _ he))

theorem nodup (h : Trail edge inmatch t) : (t.map Prod.fst).Nodup := by
  induction h with
  | nil => exact List.nodup_nil
  | cons hnew _ _ _ _ ih => exact List.nodup_cons.2 ⟨hnew, ih⟩

end Trail

/-- **The exchange**, by induction on the way back: in the end there is a matching, all inputs kept a partner,
and one more has one. -/
theorem augment_spec {rounds : ℕ} (hsource : ∀ e ∈ (j, i) :: t, source e.1 = some e.2)
    (htrail : Trail edge inmatch ((j, i) :: t)) (hm : IsMatching edge inmatch (update outmatch j none))
    (hrounds : t.length < rounds) :
    ∃ inmatch' outmatch', augment source rounds j inmatch outmatch = some (inmatch', outmatch') ∧
      IsMatching edge inmatch' outmatch' ∧ (∀ x, inmatch x ≠ none → inmatch' x ≠ none) ∧
      ∃ r, inmatch r = none ∧ inmatch' r ≠ none := by
  induction rounds generalizing j i t inmatch outmatch with
  | zero => omega
  | succ rounds ih =>
      have hj : source j = some i := hsource (j, i) List.mem_cons_self
      rw [augment, hj, Option.bind_some]
      have htrail' := htrail
      cases htrail with
      | cons hnew hedge hother hback ht =>
          cases hin : inmatch i with
          | none =>
              refine ⟨_, _, rfl, hm.add hedge hin, fun x hx => ?_, i, hin, by simp⟩
              have hne : x ≠ i := by
                rintro rfl
                exact hx hin
              rwa [update_of_ne hne]
          | some jn =>
              obtain ⟨⟨jn', i₂⟩, hmem, hfst⟩ := List.mem_map.1 (hback jn hin)
              obtain rfl : jn' = jn := hfst
              obtain ⟨pre, rest, rfl⟩ := List.append_of_mem hmem
              have hne : jn' ≠ j := by
                rintro rfl
                exact hother hin
              have hsuffix : Trail edge inmatch ((jn', i₂) :: rest) := ht.suffix
              have hnot := hsuffix.not_source hin
              have hrest : Trail edge (update inmatch i (some j)) ((jn', i₂) :: rest) :=
                hsuffix.congr fun e he => update_of_ne (hnot e he) ..
              have hlen : rest.length < rounds := by
                simp only [List.length_append, List.length_cons] at hrounds
                omega
              obtain ⟨inmatch', outmatch', heq, hm', hkeep, r, hr, hr'⟩ := ih
                (fun e he => hsource e (List.mem_cons_of_mem _ (List.mem_append_right _ he))) hrest
                (hm.move hedge hin hne) hlen
              refine ⟨inmatch', outmatch', heq, hm', fun x hx => hkeep x ?_, r, ?_, hr'⟩
              · by_cases hxi : x = i
                · rw [hxi, update_self]
                  simp
                · rwa [update_of_ne hxi]
              · by_cases hri : r = i
                · rw [hri, update_self] at hr
                  simp at hr
                · rwa [update_of_ne hri] at hr

end Trail

/-! ## The search -/

section Search

variable {a : DenseAllocator} {source : ℕ → Option ℕ} {t : List (ℕ × ℕ)} {s ns : List ℕ}

/-- What the search has found, with the last output first; all of it is taken. -/
structure Found (a : DenseAllocator) (source : ℕ → Option ℕ) (t : List (ℕ × ℕ)) : Prop where
  ways : ∀ e ∈ t, source e.1 = some e.2
  new : ∀ j, source j = none ↔ j ∉ t.map Prod.fst
  trail : Trail a.Requests a.inmatch t
  taken : ∀ j ∈ t.map Prod.fst, a.outmatch j ≠ none

/-- The input has no partner, or its partner was found. -/
def Reached (a : DenseAllocator) (t : List (ℕ × ℕ)) (i : ℕ) : Prop :=
  ∀ j, a.inmatch i = some j → j ∈ t.map Prod.fst

/-- All outputs next to the input were found. -/
def Closed (a : DenseAllocator) (t : List (ℕ × ℕ)) (i : ℕ) : Prop :=
  ∀ j, a.Requests i j → a.inmatch i = some j ∨ j ∈ t.map Prod.fst

/-- The path that the search has found ends at the free output `j`. -/
def Ends (a : DenseAllocator) (source : ℕ → Option ℕ) (j : ℕ) : Prop :=
  a.outmatch j = none ∧ ∃ i t, (∀ e ∈ (j, i) :: t, source e.1 = some e.2) ∧
    Trail a.Requests a.inmatch ((j, i) :: t)

theorem Found.cons {i j : ℕ} (h : Found a source t) (hreach : Reached a t i) (hedge : a.Requests i j)
    (hother : a.inmatch i ≠ some j) (hnew : source j = none) :
    (∀ e ∈ (j, i) :: t, update source j (some i) e.1 = some e.2) ∧
      Trail a.Requests a.inmatch ((j, i) :: t) := by
  have hnot := (h.new j).1 hnew
  refine ⟨fun e he => ?_, .cons hnot hedge hother hreach h.trail⟩
  rcases List.mem_cons.1 he with rfl | he
  · exact update_self ..
  · have hne : e.1 ≠ j := fun heq => hnot (by rw [← heq]; exact List.mem_map_of_mem he)
    rw [update_of_ne hne]
    exact h.ways e he

/-- **One level**: the search ends at a free output, or finds new outputs whose partners are the next level. -/
theorem scan_spec (ns : List ℕ) (cs : List (ℕ × ℕ)) (hcs : ∀ c ∈ cs, c.2 < a.inputs)
    (hreach : ∀ c ∈ cs, Reached a t c.1) (h : Found a source t) :
    (∃ j source', scan a cs source ns = some (.inl j, source') ∧ Ends a source' j) ∨
      ∃ ns' t' source', scan a cs source ns = some (.inr (ns ++ ns'), source') ∧
        Found a source' (t' ++ t) ∧ ns'.length = t'.length ∧
        (∀ j ∈ t'.map Prod.fst, ∃ x ∈ ns', a.outmatch j = some x) ∧
        (∀ x ∈ ns', ∃ j ∈ t'.map Prod.fst, a.outmatch j = some x) ∧
        ∀ c ∈ cs, a.Requests c.1 c.2 → a.inmatch c.1 = some c.2 ∨ c.2 ∈ (t' ++ t).map Prod.fst := by
  induction cs generalizing source t ns with
  | nil => exact Or.inr ⟨[], [], source, by rw [scan, List.append_nil], h, rfl, by simp, by simp, by simp⟩
  | cons c cs ih =>
      obtain ⟨i, j⟩ := c
      have hlt : ¬ a.inputs ≤ j := Nat.not_le.2 (hcs (i, j) List.mem_cons_self)
      have hcs' : ∀ c ∈ cs, c.2 < a.inputs := fun c hc => hcs c (List.mem_cons_of_mem _ hc)
      have hreach' : ∀ c ∈ cs, Reached a t c.1 := fun c hc => hreach c (List.mem_cons_of_mem _ hc)
      rw [scan]
      by_cases hedge : a.request i j ≠ none ∧ a.inmatch i ≠ some j
      · rw [if_pos hedge, if_neg hlt]
        by_cases hnew : source j = none
        · rw [if_pos hnew]
          have hi : Reached a t i := hreach (i, j) List.mem_cons_self
          obtain ⟨hsource, htrail⟩ := h.cons hi hedge.1 hedge.2 hnew
          cases hout : a.outmatch j with
          | none => exact Or.inl ⟨j, _, rfl, hout, i, t, hsource, htrail⟩
          | some i' =>
              have hfound : Found a (update source j (some i)) ((j, i) :: t) := by
                refine ⟨hsource, fun x => ?_, htrail, fun x hx => ?_⟩
                · rw [List.map_cons, List.mem_cons, not_or]
                  by_cases hx : x = j
                  · simp [hx]
                  · rw [update_of_ne hx, h.new]
                    simp [hx]
                · rcases List.mem_cons.1 hx with rfl | hx
                  · rw [hout]
                    simp
                  · exact h.taken x hx
              have hreach'' : ∀ c ∈ cs, Reached a ((j, i) :: t) c.1 := fun c hc x hx =>
                List.mem_cons_of_mem _ (hreach' c hc x hx)
              rcases ih (ns ++ [i']) hcs' hreach'' hfound with hend | hmore
              · exact Or.inl hend
              · obtain ⟨ns', t', source', hscan, hf, hlen, hpartner, hback, hclosed⟩ := hmore
                refine Or.inr ⟨i' :: ns', t' ++ [(j, i)], source', ?_, ?_, ?_, ?_, ?_, ?_⟩
                · dsimp only
                  rw [hscan, List.append_assoc]
                  rfl
                · rwa [List.append_assoc]
                · simp [hlen]
                · intro x hx
                  rw [List.map_append, List.mem_append] at hx
                  rcases hx with hx | hx
                  · obtain ⟨y, hy, hxy⟩ := hpartner x hx
                    exact ⟨y, List.mem_cons_of_mem _ hy, hxy⟩
                  · obtain rfl := List.mem_singleton.1 hx
                    exact ⟨i', List.mem_cons_self, hout⟩
                · intro x hx
                  rcases List.mem_cons.1 hx with rfl | hx
                  · exact ⟨j, by simp, hout⟩
                  · obtain ⟨y, hy, hxy⟩ := hback x hx
                    exact ⟨y, by rw [List.map_append]; exact List.mem_append_left _ hy, hxy⟩
                · intro c hc hreq
                  rw [List.append_assoc]
                  rcases List.mem_cons.1 hc with rfl | hc
                  · exact Or.inr (by simp)
                  · exact hclosed c hc hreq
        · rw [if_neg hnew]
          rcases ih ns hcs' hreach' h with hend | ⟨ns', t', source', hscan, hf, hlen, hp, hb, hclosed⟩
          · exact Or.inl hend
          · refine Or.inr ⟨ns', t', source', hscan, hf, hlen, hp, hb, fun c hc hreq => ?_⟩
            rcases List.mem_cons.1 hc with rfl | hc
            · have hold := not_not.1 (mt (h.new j).2 hnew)
              exact Or.inr (by rw [List.map_append]; exact List.mem_append_right _ hold)
            · exact hclosed c hc hreq
      · rw [if_neg hedge]
        rcases ih ns hcs' hreach' h with hend | ⟨ns', t', source', hscan, hf, hlen, hp, hb, hclosed⟩
        · exact Or.inl hend
        · refine Or.inr ⟨ns', t', source', hscan, hf, hlen, hp, hb, fun c hc hreq => ?_⟩
          rcases List.mem_cons.1 hc with rfl | hc
          · exact Or.inl (not_not.1 fun hother => hedge ⟨hreq, hother⟩)
          · exact hclosed c hc hreq

/-- Fewer outputs are found than there are inputs, when an input is free. -/
theorem Found.length_lt (h : Found a source t) (hm : IsMatching a.Requests a.inmatch a.outmatch)
    (hinside : a.Inside) {f : ℕ} (hf : f < a.inputs) (hfree : a.inmatch f = none) :
    t.length < a.inputs := by
  have hsub : (t.map Prod.fst).toFinset ⊆ IsMatching.partners (Finset.range a.inputs) a.inmatch := by
    intro j hj
    obtain ⟨x, hx⟩ := Option.ne_none_iff_exists'.1 (h.taken j (List.mem_toFinset.1 hj))
    have hin := hm.matched x j hx
    exact IsMatching.mem_partners.2
      ⟨x, Finset.mem_range.2 (hinside x j (hm.granted x j hin).1).1, hin⟩
  have hcard := Finset.card_le_card hsub
  rw [List.toFinset_card_of_nodup h.trail.nodup, List.length_map] at hcard
  have hsize := IsMatching.card_partners_le (Finset.range a.inputs) a.inmatch
  have hlt : size (Finset.range a.inputs) a.inmatch < (Finset.range a.inputs).card := by
    refine Finset.card_lt_card (Finset.filter_ssubset.2 ⟨f, Finset.mem_range.2 hf, ?_⟩)
    rw [hfree]
    simp
  rw [Finset.card_range] at hlt
  omega

/-- **The search**, by induction on the levels that are left: it ends at a free output, or everything that it
has reached is closed. -/
theorem levels_spec (hm : IsMatching a.Requests a.inmatch a.outmatch) (hinside : a.Inside)
    (hle : a.outputs ≤ a.inputs) {iter : ℕ} (h : Found a source t) (hs : ∀ i ∈ s, Reached a t i)
    (hclosed : ∀ i, Reached a t i → i < a.inputs → i ∈ s ∨ Closed a t i)
    (hbound : s = [] ∨ a.inputs ≤ iter + t.length ∧ ∃ f < a.inputs, a.inmatch f = none) :
    (∃ j source', levels a iter s source = some (some j, source') ∧ Ends a source' j) ∨
      ∃ t' source', levels a iter s source = some (none, source') ∧ Found a source' t' ∧
        ∀ i, Reached a t' i → i < a.inputs → Closed a t' i := by
  induction iter generalizing s source t with
  | zero =>
      refine Or.inr ⟨t, source, rfl, h, fun i hi hlt => ?_⟩
      rcases hbound with rfl | ⟨hlen, f, hf, hfree⟩
      · exact (hclosed i hi hlt).resolve_left List.not_mem_nil
      · have := h.length_lt hm hinside hf hfree
        omega
  | succ iter ih =>
      have hcell : ∀ c ∈ cells a s, c.1 ∈ s ∧ c.2 < a.outputs := by
        intro c hc
        obtain ⟨i, hi, hc⟩ := List.mem_flatMap.1 hc
        obtain ⟨j, hj, rfl⟩ := List.mem_map.1 hc
        exact ⟨hi, List.mem_range.1 hj⟩
      rw [levels]
      rcases scan_spec [] (cells a s) (fun c hc => Nat.lt_of_lt_of_le (hcell c hc).2 hle)
        (fun c hc => hs c.1 (hcell c hc).1) h with hend | hmore
      · obtain ⟨j, source', hscan, hends⟩ := hend
        exact Or.inl ⟨j, source', by rw [hscan], hends⟩
      · obtain ⟨ns, t', source', hscan, hf, hlen, hpartner, hback, hdone⟩ := hmore
        rw [hscan, List.nil_append]
        refine ih hf (fun x hx j hj => ?_) (fun i hi hlt => ?_) ?_
        · obtain ⟨j', hj', hout⟩ := hback x hx
          obtain rfl : j = j' := Option.some.inj (hj.symm.trans (hm.matched x j' hout))
          rw [List.map_append]
          exact List.mem_append_left _ hj'
        · by_cases hold : Reached a t i
          · refine Or.inr fun j hreq => ?_
            rcases hclosed i hold hlt with his | hclosed
            · refine hdone (i, j) ?_ hreq
              exact List.mem_flatMap.2
                ⟨i, his, List.mem_map.2 ⟨j, List.mem_range.2 (hinside i j hreq).2, rfl⟩⟩
            · refine (hclosed j hreq).imp_right fun hj => ?_
              rw [List.map_append]
              exact List.mem_append_right _ hj
          · -- its partner is new, so it is in the next level
            unfold Reached at hold
            push Not at hold
            obtain ⟨j, hij, hnot⟩ := hold
            have hj := hi j hij
            rw [List.map_append, List.mem_append] at hj
            obtain ⟨x, hx, hout⟩ := hpartner j (hj.resolve_right hnot)
            have hxi := hm.inj (hm.matched x j hout) hij
            exact Or.inl (hxi ▸ hx)
        · cases ns with
          | nil => exact Or.inl rfl
          | cons x ns =>
              refine Or.inr ?_
              rcases hbound with rfl | ⟨hbound, hfree⟩
              · obtain ⟨j, hj, -⟩ := hback x List.mem_cons_self
                simp only [cells, List.flatMap_nil, scan] at hscan
                obtain ⟨hns, -⟩ := Prod.mk.inj (Option.some.inj hscan)
                simp at hns
              · refine ⟨?_, hfree⟩
                rw [List.length_append, ← hlen, List.length_cons]
                omega

end Search

/-! ## The allocation -/

variable {a a' : MaxSizeMatch}

/-- What the rounds of `Allocate` keep. -/
structure Ok (a : MaxSizeMatch) : Prop where
  inside : a.Inside
  le : a.outputs ≤ a.inputs
  matching : IsMatching a.Requests a.inmatch a.outmatch

/-- No matching of the requests is larger. -/
def Maximum (a : MaxSizeMatch) : Prop :=
  ∀ inmatch' outmatch', IsMatching a.Requests inmatch' outmatch' →
    size (Finset.range a.inputs) inmatch' ≤ size (Finset.range a.inputs) a.inmatch

theorem mem_free {i : ℕ} : i ∈ a.free ↔ i < a.inputs ∧ a.inmatch i = none := by
  simp only [free, List.mem_filter, List.mem_map, List.mem_range, decide_eq_true_eq]
  refine and_congr_left fun _ => ⟨?_, fun hi => ?_⟩
  · rintro ⟨x, hx, rfl⟩
    exact Nat.mod_lt _ (by omega)
  · -- the offset of `i` from `_prio`
    have hp := Nat.mod_lt a.prio (show 0 < a.inputs by omega)
    refine ⟨(i + (a.inputs - a.prio % a.inputs)) % a.inputs, Nat.mod_lt _ (by omega), ?_⟩
    rw [Nat.mod_add_mod, Nat.add_assoc, ← Nat.add_mod_mod, ← Nat.add_mod_mod _ a.prio,
      Nat.sub_add_cancel hp.le, Nat.mod_self, Nat.add_zero, Nat.mod_eq_of_lt hi]

theorem found_nil (a : DenseAllocator) : Found a (fun _ => none) [] :=
  ⟨by simp, by simp, .nil, by simp⟩

/-- **One search with its exchange**: one more input has a partner, or the matching is of maximum size. -/
theorem shortestAugmenting_spec (h : a.Ok) :
    (∃ inmatch' outmatch', a.shortestAugmenting = some (true, a.setMatching inmatch' outmatch') ∧
        (a.setMatching inmatch' outmatch').Ok ∧
        size (Finset.range a.inputs) a.inmatch < size (Finset.range a.inputs) inmatch') ∨
      a.shortestAugmenting = some (false, a) ∧ a.Maximum := by
  have hfree : ∀ i ∈ a.free, Reached a.toDenseAllocator [] i := fun i hi j hj => by
    simp [(mem_free.1 hi).2] at hj
  have hclosed : ∀ i, Reached a.toDenseAllocator [] i → i < a.inputs →
      i ∈ a.free ∨ Closed a.toDenseAllocator [] i := by
    intro i hi hlt
    refine Or.inl (mem_free.2 ⟨hlt, ?_⟩)
    by_contra hsome
    obtain ⟨j, hj⟩ := Option.ne_none_iff_exists'.1 hsome
    exact List.not_mem_nil (hi j hj)
  have hbound : a.free = [] ∨ a.inputs ≤ a.inputs + ([] : List (ℕ × ℕ)).length ∧
      ∃ f < a.inputs, a.inmatch f = none := by
    cases hs : a.free with
    | nil => exact Or.inl rfl
    | cons f rest =>
        exact Or.inr ⟨Nat.le_refl _, f, mem_free.1 (by rw [hs]; exact List.mem_cons_self)⟩
  rcases levels_spec h.matching h.inside h.le (found_nil _) hfree hclosed hbound with hend | hdone
  · obtain ⟨j, source, hlevels, hout, i, t, hsource, htrail⟩ := hend
    have hlen : t.length < a.outputs + 1 := by
      have hsub : ((j, i) :: t).map Prod.fst ⊆ List.range a.outputs := by
        intro x hx
        obtain ⟨e, he, rfl⟩ := List.mem_map.1 hx
        exact List.mem_range.2 (h.inside e.2 e.1 (htrail.edges e he)).2
      have hcard := (htrail.nodup.subperm hsub).length_le
      rw [List.length_map, List.length_cons, List.length_range] at hcard
      omega
    have hm : IsMatching a.Requests a.inmatch (update a.outmatch j none) := by
      rw [← hout, update_eq_self]
      exact h.matching
    obtain ⟨inmatch', outmatch', heq, hm', hkeep, r, hr, hr'⟩ := augment_spec hsource htrail hm hlen
    refine Or.inl ⟨inmatch', outmatch', ?_, ⟨h.inside, h.le, hm'⟩, ?_⟩
    · rw [shortestAugmenting, hlevels]
      dsimp only
      rw [heq, Option.map_some]
    · have hrlt : r < a.inputs := by
        obtain ⟨x, hx⟩ := Option.ne_none_iff_exists'.1 hr'
        exact (h.inside r x (hm'.granted r x hx).1).1
      refine Finset.card_lt_card (Finset.ssubset_iff_subset_ne.2 ⟨fun x hx => ?_, fun heq => ?_⟩)
      · obtain ⟨hin, hsome⟩ := Finset.mem_filter.1 hx
        exact Finset.mem_filter.2
          ⟨hin, Option.isSome_iff_ne_none.2 (hkeep x (Option.isSome_iff_ne_none.1 hsome))⟩
      · have hmem : r ∈ (Finset.range a.inputs).filter fun x => (inmatch' x).isSome :=
          Finset.mem_filter.2 ⟨Finset.mem_range.2 hrlt, Option.isSome_iff_ne_none.2 hr'⟩
        rw [← heq] at hmem
        have hsome := (Finset.mem_filter.1 hmem).2
        rw [hr] at hsome
        exact absurd hsome (by simp)
  · obtain ⟨t, source, hlevels, hfound, hall⟩ := hdone
    refine Or.inr ⟨by rw [shortestAugmenting, hlevels], fun inmatch' outmatch' h' => ?_⟩
    classical
    refine IsMatching.size_le_of_closed
      (R := (Finset.range a.inputs).filter fun i => Reached a.toDenseAllocator t i)
      (Finset.filter_subset ..) (fun i hi hnone => ?_) (fun i hi j hij => ?_) h'
    · exact Finset.mem_filter.2 ⟨hi, fun j hj => by simp [hnone] at hj⟩
    · obtain ⟨hlt, hreach⟩ := Finset.mem_filter.1 hi
      rcases hall i hreach (Finset.mem_range.1 hlt) j hij with hin | hj
      · exact ⟨i, hi, hin⟩
      · obtain ⟨x, hx⟩ := Option.ne_none_iff_exists'.1 (hfound.taken j hj)
        have hin := h.matching.matched x j hx
        refine ⟨x, Finset.mem_filter.2 ⟨Finset.mem_range.2
          (h.inside x j (h.matching.granted x j hin).1).1, fun j' hj' => ?_⟩, hin⟩
        obtain rfl : j' = j := Option.some.inj (hj'.symm.trans hin)
        exact hj

/-- **The loop**, by induction on the inputs that may still get a partner. -/
theorem augmentAll_spec (rounds : ℕ) (h : a.Ok)
    (hrounds : a.inputs < rounds + size (Finset.range a.inputs) a.inmatch) :
    ∃ inmatch' outmatch', augmentAll rounds a = some (a.setMatching inmatch' outmatch') ∧
      (a.setMatching inmatch' outmatch').Ok ∧ (a.setMatching inmatch' outmatch').Maximum := by
  have hle : ∀ m : ℕ → Option ℕ, size (Finset.range a.inputs) m ≤ a.inputs := fun m =>
    (Finset.card_filter_le ..).trans (Finset.card_range _).le
  induction rounds generalizing a with
  | zero =>
      have := hle a.inmatch
      omega
  | succ rounds ih =>
      rw [augmentAll]
      rcases shortestAugmenting_spec h with ⟨inmatch, outmatch, hstep, hok, hlt⟩ | ⟨hstop, hmax⟩
      · have hmore : a.inputs < rounds + size (Finset.range a.inputs) inmatch := by omega
        obtain ⟨inmatch', outmatch', heq, hok', hmax⟩ := ih hok hmore hle
        exact ⟨inmatch', outmatch', by rw [hstep, Option.bind_some, if_pos rfl, heq]; rfl, hok', hmax⟩
      · exact ⟨a.inmatch, a.outmatch, by rw [hstop]; rfl, h, hmax⟩

/-! ## Runs -/

/-- A new allocator. -/
def new (inputs outputs : ℕ) : MaxSizeMatch := { inputs, outputs }

/-- A cycle with requests that the assertions allow. -/
theorem round_spec (hpos : 0 < a.inputs) (hle : a.outputs ≤ a.inputs) (hclean : a.Clean)
    {reqs : List RequestArgs} (hreqs : Accepted a.inputs a.outputs reqs) :
    ∃ a', a.round reqs = some a' ∧ a'.Ok ∧ a'.Maximum ∧ a'.inputs = a.inputs ∧ a'.outputs = a.outputs ∧
      a'.Clean ∧ ∀ i j, a'.Requests i j ↔ Asked reqs i j := by
  obtain ⟨d, hd⟩ := addRequests_isSome (a := a.toDenseAllocator.clear)
    (show Accepted _ _ reqs by rwa [clear_inputs, clear_outputs]) (by simp)
  obtain ⟨hin, hout, hmin, hmout⟩ := addRequests_frame hd
  obtain ⟨hcin, hcout⟩ := hclean.clear
  rw [clear_inputs] at hin
  rw [clear_outputs] at hout
  have hinside : d.Inside := addRequests_inside (fun i j hij => by simp [Requests] at hij) hd
  have hok : Ok { a with toDenseAllocator := d } := by
    refine ⟨hinside, ?_, ?_⟩
    · show d.outputs ≤ d.inputs
      omega
    · show IsMatching d.Requests d.inmatch d.outmatch
      rw [hmin, hmout, hcin, hcout]
      exact .empty
  obtain ⟨inmatch', outmatch', heq, hok', hmax⟩ :=
    augmentAll_spec (d.inputs + 1) hok (Nat.lt_add_right _ (Nat.lt_succ_self _))
  have hasked := addRequests_asked (by simp) hd
  refine ⟨{ (setMatching { a with toDenseAllocator := d } inmatch' outmatch') with
      prio := (a.prio + 1) % d.inputs }, ?_, ⟨hok'.inside, hok'.le, hok'.matching⟩, hmax, hin, hout,
    fun hdirty => ?_, hasked⟩
  · rw [round, hd, Option.bind_some, allocate, if_neg (by show ¬ d.inputs = 0; omega)]
    show (augmentAll (d.inputs + 1) { a with toDenseAllocator := d }).map _ = _
    rw [heq, Option.map_some]
    rfl
  · -- without a request there is nothing to match
    have hnil : reqs = [] := by
      by_contra hnil
      exact absurd (addRequests_dirty hd hnil) (by rw [show d.dirty = false from hdirty]; simp)
    have hno : ∀ i j, ¬ d.Requests i j := by
      intro i j hij
      obtain ⟨r, hr, -⟩ := (hasked i j).1 hij
      rw [hnil] at hr
      exact List.not_mem_nil hr
    refine ⟨funext fun i => ?_, funext fun j => ?_⟩
    · cases hi : inmatch' i with
      | none => exact hi
      | some j => exact absurd (hok'.matching.granted i j hi).1 (hno i j)
    · cases hj : outmatch' j with
      | none => exact hj
      | some i => exact absurd (hok'.matching.granted i j (hok'.matching.matched i j hj)).1 (hno i j)

/-- **Maximum-size allocation**: in every run of cycles whose requests the assertions allow, no matching of
the requests of the last cycle is larger than the one allocated. -/
theorem run_maximum {inputs outputs : ℕ} (hpos : 0 < inputs) (hle : outputs ≤ inputs)
    (before : List (List RequestArgs)) (reqs : List RequestArgs)
    (hreqs : ∀ reqs' ∈ before ++ [reqs], Accepted inputs outputs reqs') :
    ∃ a, (before ++ [reqs]).foldlM round (new inputs outputs) = some a ∧
      IsMatching (Asked reqs) a.inmatch a.outmatch ∧
      ∀ inmatch outmatch, IsMatching (Asked reqs) inmatch outmatch →
        size (Finset.range inputs) inmatch ≤ size (Finset.range inputs) a.inmatch := by
  have hrun : ∀ rounds : List (List RequestArgs), (∀ reqs' ∈ rounds, Accepted inputs outputs reqs') →
      ∃ a, rounds.foldlM round (new inputs outputs) = some a ∧ a.inputs = inputs ∧ a.outputs = outputs ∧
        a.Clean := by
    intro rounds
    induction rounds using List.reverseRecOn with
    | nil => exact fun _ => ⟨_, rfl, rfl, rfl, fun _ => ⟨rfl, rfl⟩⟩
    | append_singleton rounds last ih =>
        intro hall
        obtain ⟨a, ha, hin, hout, hclean⟩ := ih fun r hr => hall r (List.mem_append_left _ hr)
        have hlast := hall last (List.mem_append_right _ List.mem_cons_self)
        obtain ⟨a', ha', -, -, hin', hout', hclean', -⟩ :=
          round_spec (by omega) (by omega) hclean (show Accepted _ _ last by rwa [hin, hout])
        exact ⟨a', by rw [foldlM_concat, ha, Option.bind_some, ha'], by omega, by omega, hclean'⟩
  obtain ⟨a, ha, hin, hout, hclean⟩ := hrun before fun r hr => hreqs r (List.mem_append_left _ hr)
  have hlast := hreqs reqs (List.mem_append_right _ List.mem_cons_self)
  obtain ⟨a', ha', hok, hmax, hin', -, -, hasked⟩ :=
    round_spec (by omega) (by omega) hclean (show Accepted _ _ reqs by rwa [hin, hout])
  have hedges : a'.Requests = Asked reqs := funext fun i => funext fun j => propext (hasked i j)
  refine ⟨a', by rw [foldlM_concat, ha, Option.bind_some, ha'], ?_, fun inmatch outmatch h => ?_⟩
  · rw [← hedges]
    exact hok.matching
  · have hbound := hmax inmatch outmatch (by rwa [hedges])
    rwa [hin', hin] at hbound

/-- Two inputs want the first output, and one of them also the second. -/
def twoWant : List RequestArgs := [⟨0, 0, 0, 0, 0⟩, ⟨0, 1, 0, 0, 0⟩, ⟨1, 0, 0, 0, 0⟩]

theorem run_maximum_twoWant : ∃ a, ([] ++ [twoWant]).foldlM round (new 2 2) = some a ∧
    IsMatching (Asked twoWant) a.inmatch a.outmatch ∧
    ∀ inmatch outmatch, IsMatching (Asked twoWant) inmatch outmatch →
      size (Finset.range 2) inmatch ≤ size (Finset.range 2) a.inmatch :=
  run_maximum (by decide) (by decide) [] twoWant (by decide)

end MaxSizeMatch

end CompressionWork.Icnt
