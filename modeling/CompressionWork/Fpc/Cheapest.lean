import CompressionWork.Fpc.Lossless

/-!
# The pattern of a word is its cheapest one

`each_compress` takes the first pattern of the table that a word matches.  The payloads of
the table do not grow along it: the byte repeated four times, with two digits, stands after
three patterns with four.

* `eachCompress_first` — the search stops at the first pattern that matches.
* `payload_order` — the only pairs of patterns whose payloads fall along the table.
* `cheap_of_repeated` — a repeated byte that matches one of the three is all zeros or ones,
  and one of the first two patterns takes it.
* `eachCompress_cheapest` — no pattern the word matches has a smaller payload.
-/

namespace CompressionWork.Fpc

open Codec

/-- The word matches the pattern: `compare_pattern` makes a token of it. -/
def IsMatch (w : Str) (p : Str × ℕ) : Prop := comparePattern w p.1 [] ≠ []

/-- The search stops at the first pattern of the table that matches. -/
theorem eachCompress_first {w : Str} (ps : List (Str × ℕ)) (h : ∃ p ∈ ps, IsMatch w p) :
    ∃ before p after, ps = before ++ p :: after ∧ (∀ q ∈ before, ¬ IsMatch w q) ∧
      IsMatch w p ∧ eachCompress w ps [] = comparePattern w p.1 [] := by
  induction ps with
  | nil => simp at h
  | cons p ps ih =>
      by_cases hp : IsMatch w p
      · exact ⟨[], p, ps, rfl, by simp, hp, if_pos hp⟩
      · have hnil : comparePattern w p.1 [] = [] := not_not.1 hp
        have hnext : eachCompress w (p :: ps) [] = eachCompress w ps [] := by
          simp only [eachCompress, hnil, ne_eq, not_true_eq_false, if_false]
        obtain ⟨q, hq, hm⟩ := h
        have hqs : q ∈ ps := (List.mem_cons.1 hq).resolve_left fun hqp => hp (hqp ▸ hm)
        obtain ⟨before, r, after, rfl, hbefore, hr, heq⟩ := ih ⟨q, hqs, hm⟩
        refine ⟨p :: before, r, after, rfl, ?_, hr, hnext.trans heq⟩
        intro s hs
        rcases List.mem_cons.1 hs with rfl | hs
        · exact hp
        · exact hbefore s hs

/-- Every word matches the last pattern. -/
theorem isMatch_last {w : Str} (p : ℕ) : IsMatch w (['1', '1', '1'], p) := by
  have heq : comparePattern w ['1', '1', '1'] [] = ['1', '1', '1'] ++ w := rfl
  simp [IsMatch, heq]

/-! ## The payload of a token -/

/-- The token of a sign-extended word starts with its pattern. -/
theorem signToken_append {w pattern : Str} (index : ℕ) (heq : comparePattern w pattern [] =
      (match checkStr w index [] dataSize with
      | (true, out) => pattern ++ out
      | (false, out) => out)) :
    comparePattern w pattern [] = [] ∨
      ∃ payload, comparePattern w pattern [] = pattern ++ payload := by
  rw [heq]
  cases hcs : checkStr w index [] dataSize with
  | mk ok out =>
      cases ok with
      | false => exact Or.inl (checkStr_false hcs)
      | true => exact Or.inr ⟨out, rfl⟩

/-- A token starts with its pattern. -/
theorem comparePattern_append {w : Str} {p : Str × ℕ} (hp : p ∈ tracker) :
    comparePattern w p.1 [] = [] ∨ ∃ payload, comparePattern w p.1 [] = p.1 ++ payload := by
  simp only [tracker, List.mem_cons, List.not_mem_nil, or_false] at hp
  rcases hp with rfl | rfl | rfl | rfl | rfl | rfl | rfl | rfl
  · by_cases hw : w = genZero dataSize
    · exact Or.inr ⟨[], if_pos hw⟩
    · exact Or.inl (if_neg hw)
  · exact signToken_append 1 rfl
  · exact signToken_append 2 rfl
  · exact signToken_append 4 rfl
  · by_cases hz : w.drop (dataSize - 4) = genZero (dataSize - 4)
    · exact Or.inr ⟨_, if_pos hz⟩
    · exact Or.inl (if_neg hz)
  · -- two sign-extended half words
    rw [comparePattern_halves]
    cases checkStr (w.take (dataSize - 4)) 2 [] (dataSize / 2) with
    | mk okO pO =>
        cases checkStr (w.drop (dataSize - 4)) 2 [] (dataSize / 2) with
        | mk okT pT =>
            cases okO <;> cases okT
            · exact Or.inl rfl
            · exact Or.inl rfl
            · exact Or.inl rfl
            · exact Or.inr ⟨pO ++ pT, List.append_assoc ..⟩
  · -- one byte repeated
    rw [comparePattern_rep]
    cases checkRep w with
    | mk ok rep =>
        cases ok with
        | false => exact Or.inl rfl
        | true => exact Or.inr ⟨rep, rfl⟩
  · exact Or.inr ⟨w, rfl⟩

/-- The payload of a token has as many digits as the table gives its pattern. -/
theorem comparePattern_length {w : Str} (hw : IsWord w) {p : Str × ℕ} (hp : p ∈ tracker)
    (h : IsMatch w p) :
    (comparePattern w p.1 []).take 3 = p.1 ∧ (comparePattern w p.1 []).length = p.2 + 3 := by
  obtain ⟨payload, hpay⟩ := (comparePattern_append hp).resolve_left h
  have htable : p.1.length = 3 ∧ getPatternLen p.1 tracker = some p.2 := by
    simp only [tracker, List.mem_cons, List.not_mem_nil, or_false] at hp
    rcases hp with rfl | rfl | rfl | rfl | rfl | rfl | rfl | rfl <;> decide
  have htake : (comparePattern w p.1 []).take 3 = p.1 := by rw [hpay, take_pattern htable.1]
  refine ⟨htake, ?_⟩
  by_cases hz : p.1 = ['0', '0', '0']
  · -- the zero run: nothing follows the pattern
    have hp2 : p.2 = 0 := by
      have := htable.2
      rw [hz] at this
      exact (Option.some.inj this).symm
    have heq : comparePattern w ['0', '0', '0'] [] =
        if w = genZero dataSize then ['0', '0', '0'] else [] := rfl
    rw [IsMatch, hz, heq] at h
    rw [hz, heq, hp2]
    split at h
    · rename_i hw0
      rw [if_pos hw0]
      rfl
    · exact absurd rfl h
  · by_cases hw0 : w = genZero dataSize
    · subst hw0
      simp only [tracker, List.mem_cons, List.not_mem_nil, or_false] at hp
      rcases hp with rfl | rfl | rfl | rfl | rfl | rfl | rfl | rfl <;> decide
    · obtain ⟨pattern, rest, htok, hlen, -, hpl, -⟩ :=
        (comparePattern_valid hw hw0 hp).resolve_left h
      have hpat : pattern = p.1 := by
        rw [← htake, htok, take_pattern hlen]
      rw [hpat, htable.2] at hpl
      rw [htok, List.length_append, hlen, ← Option.some.inj hpl, Nat.add_comm]

/-! ## The order of the table -/

/-- Where the payload falls along the table: the repeated byte after three patterns. -/
theorem payload_order : tracker.Pairwise fun p q =>
    p.2 ≤ q.2 ∨ q.1 = ['1', '1', '0'] ∧
      p.1 ∈ [['0', '1', '1'], ['1', '0', '0'], ['1', '0', '1']] := by
  decide

/-- A word of four equal bytes. -/
theorem checkRep_word {w : Str} (hw : IsWord w) (h : IsMatch w (['1', '1', '0'], 2)) :
    ∃ a : Str, a.length = 2 ∧ w = a ++ a ++ a ++ a := by
  obtain ⟨ws, hws, hlen, rfl⟩ := exists_slices (k := 2) (m := 4) hw.1
  obtain ⟨a, b, c, d, rfl⟩ : ∃ a b c d, ws = [a, b, c, d] := by
    match ws, hws with
    | [a, b, c, d], _ => exact ⟨a, b, c, d, rfl⟩
  have ha : a.length = 2 := hlen a (by simp)
  have htake : [a, b, c, d].flatten.take 2 = a := by
    rw [List.flatten_cons, ← ha, List.take_left]
  have heq : comparePattern [a, b, c, d].flatten ['1', '1', '0'] [] =
      (match checkRep [a, b, c, d].flatten with
      | (true, rep) => ['1', '1', '0'] ++ rep
      | (false, _) => []) := rfl
  rw [IsMatch, heq, checkRep, chunks_flatten (by decide) hlen, htake] at h
  split at h
  · rename_i hrep
    split at hrep
    · rename_i hall
      simp only [List.drop_one, List.tail_cons, List.all_cons, List.all_nil, Bool.and_true,
        Bool.and_eq_true, decide_eq_true_eq] at hall
      obtain ⟨hb, hc, hd⟩ := hall
      exact ⟨a, ha, by rw [hb, hc, hd]; simp⟩
    · exact absurd (Prod.mk.inj hrep).1 (by simp)
  · exact absurd rfl h

/-- What `check_str` accepts starts with zeros or with `F`s. -/
theorem checkStr_take {input out processed : Str} {index n : ℕ}
    (h : checkStr input index processed n = (true, out)) :
    input.take (n - index) = genZero (n - index) ∨
      input.take (n - index) = genF (n - index) := by
  simp only [checkStr] at h
  split at h
  · rename_i hz
    exact Or.inl hz.1
  · split at h
    · rename_i hf
      exact Or.inr hf.1
    · exact absurd (Prod.mk.inj h).1 (by simp)

theorem comparePattern_short (w : Str) : comparePattern w ['0', '1', '1'] [] =
    (match checkStr w 4 [] dataSize with
    | (true, out) => ['0', '1', '1'] ++ out
    | (false, out) => out) := rfl

/-- A repeated byte that one of the three longer patterns takes is `00` or `FF`. -/
theorem repeated_byte {a : Str} (ha : a.length = 2) {p : Str × ℕ}
    (hp : p.1 ∈ [['0', '1', '1'], ['1', '0', '0'], ['1', '0', '1']])
    (h : IsMatch (a ++ a ++ a ++ a) p) : a = genZero 2 ∨ a = genF 2 := by
  obtain ⟨x, y, rfl⟩ := List.length_eq_two.1 ha
  simp only [IsMatch] at h
  simp only [List.mem_cons, List.not_mem_nil, or_false] at hp
  rcases hp with hp | hp | hp <;> rw [hp] at h
  · rw [comparePattern_short] at h
    cases hcs : checkStr ([x, y] ++ [x, y] ++ [x, y] ++ [x, y]) 4 [] dataSize with
    | mk ok out =>
        cases ok with
        | false =>
            rw [hcs] at h
            exact absurd (checkStr_false hcs) h
        | true =>
            rcases checkStr_take hcs with h4 | h4 <;>
              simp_all [dataSize, genZero, genF, List.replicate]
  · have heq : comparePattern ([x, y] ++ [x, y] ++ [x, y] ++ [x, y]) ['1', '0', '0'] [] =
        if [x, y] ++ [x, y] = genZero 4 then ['1', '0', '0', x, y, x, y] else [] := rfl
    rw [heq] at h
    split at h
    · simp_all [genZero, List.replicate]
    · exact absurd rfl h
  · have htake : ([x, y] ++ [x, y] ++ [x, y] ++ [x, y]).take (dataSize - 4) = [x, y, x, y] := rfl
    have hdrop : ([x, y] ++ [x, y] ++ [x, y] ++ [x, y]).drop (dataSize - 4) = [x, y, x, y] := rfl
    have hsize : dataSize / 2 = 4 := rfl
    rw [comparePattern_halves, htake, hdrop, hsize] at h
    cases hcs : checkStr [x, y, x, y] 2 [] 4 with
    | mk ok out =>
        cases ok with
        | false =>
            rw [hcs] at h
            exact absurd rfl h
        | true =>
            rcases checkStr_take hcs with h4 | h4 <;> simp_all [genZero, genF, List.replicate]

/-- When the repeated byte could undercut one of the three patterns, one of the first two
patterns matches. -/
theorem cheap_of_repeated {w : Str} (hw : IsWord w) {p : Str × ℕ}
    (hp : p.1 ∈ [['0', '1', '1'], ['1', '0', '0'], ['1', '0', '1']])
    (h : IsMatch w p) (hrep : IsMatch w (['1', '1', '0'], 2)) :
    ∃ q ∈ tracker.take 2, IsMatch w q := by
  obtain ⟨a, ha, rfl⟩ := checkRep_word hw hrep
  rcases repeated_byte ha hp h with rfl | rfl
  · exact ⟨(['0', '0', '0'], 0), by decide, by unfold IsMatch; decide⟩
  · exact ⟨(['0', '0', '1'], 1), by decide, by unfold IsMatch; decide⟩

/-! ## The chosen pattern -/

/-- The pattern `each_compress` takes for a word: the token is the pattern with a payload of
the length the table gives it, and no other pattern that the word matches has a smaller
one. -/
theorem eachCompress_cheapest (w : Str) (hw : IsWord w) :
    ∃ p ∈ tracker, IsMatch w p ∧ eachCompress w tracker [] = comparePattern w p.1 [] ∧
      (eachCompress w tracker []).take 3 = p.1 ∧
      (eachCompress w tracker []).length = p.2 + 3 ∧
      ∀ q ∈ tracker, IsMatch w q → p.2 ≤ q.2 := by
  obtain ⟨before, p, after, htr, hbefore, hp, heq⟩ :=
    eachCompress_first (w := w) tracker ⟨(['1', '1', '1'], 8), by decide, isMatch_last 8⟩
  have hmem : p ∈ tracker := by rw [htr]; simp
  obtain ⟨htake, hlen⟩ := comparePattern_length hw hmem hp
  have longPayload : ∀ r ∈ tracker,
      r.1 ∈ [['0', '1', '1'], ['1', '0', '0'], ['1', '0', '1']] → r.2 = 4 := by decide
  -- a pattern the word matches is the chosen one or stands behind it
  have behind : ∀ q ∈ tracker, IsMatch w q → q = p ∨ q ∈ after := by
    intro q hq hm
    rw [htr, List.mem_append, List.mem_cons] at hq
    exact hq.resolve_left fun hq => hbefore q hq hm
  have along : ∀ R : Str × ℕ → Str × ℕ → Prop, tracker.Pairwise R → ∀ q ∈ after, R p q := by
    intro R hR q hq
    rw [htr, List.pairwise_append] at hR
    exact List.rel_of_pairwise_cons hR.2.1 hq
  have first : ∀ q ∈ tracker.take 2, IsMatch w q → p.2 ≤ 1 := by
    intro q hq hm
    rcases behind q (List.mem_of_mem_take hq) hm with rfl | hq'
    · exact (by decide : ∀ r ∈ tracker.take 2, r.2 ≤ 1) _ hq
    · exact along (fun r s => s ∈ tracker.take 2 → r.2 ≤ 1) (by decide) q hq' hq
  refine ⟨p, hmem, hp, heq, by rw [heq, htake], by rw [heq, hlen], ?_⟩
  intro q hq hm
  rcases behind q hq hm with rfl | hq'
  · exact le_refl _
  · rcases along _ payload_order q hq' with h | ⟨hrep, hlong⟩
    · exact h
    · have hm2 : IsMatch w (['1', '1', '0'], 2) := by rwa [IsMatch, hrep] at hm
      obtain ⟨c, hc, hcm⟩ := cheap_of_repeated hw hlong hp hm2
      have hp1 : p.2 ≤ 1 := first c hc hcm
      have hp4 : p.2 = 4 := longPayload p hmem hlong
      have hq2 : q.2 = 2 :=
        (by decide : ∀ r ∈ tracker, r.1 = ['1', '1', '0'] → r.2 = 2) q hq hrep
      omega

/-- A word with three patterns: two sign-extended half words would take twice the payload of
the repeated byte, but `FFFFFFFF` is the sign extension of one digit. -/
theorem eachCompress_cheapest_ones : IsWord (genF 8) ∧
    ∃ p ∈ tracker, IsMatch (genF 8) p ∧
      eachCompress (genF 8) tracker [] = comparePattern (genF 8) p.1 [] ∧
      (eachCompress (genF 8) tracker []).take 3 = p.1 ∧
      (eachCompress (genF 8) tracker []).length = p.2 + 3 ∧
      ∀ q ∈ tracker, IsMatch (genF 8) q → p.2 ≤ q.2 :=
  have hw : IsWord (genF 8) := ⟨by decide, by decide⟩
  ⟨hw, eachCompress_cheapest (genF 8) hw⟩

end CompressionWork.Fpc
