import CompressionWork.Abpd.Decode

/-!
# The bits of an ABPD line

`convert_output` compares the first two characters of a token with `00` or with `01`, one of
which they always differ from; so an index is converted like a word, and takes 22 bits.  The
map from the letters to their values is never filled; so `A` to `F` have the bits of `1` to `6`.

* `length_outBinary` — the number of bits.
* `confuse` — a line with every digit exchanged for the one with the same bits.
* `lossless_iff` — ABPD keeps a line exactly when no word is repeated and all digits are `0`,
  `7`, `8` and `9`.
-/

namespace CompressionWork.Abpd

open Codec Sampling

variable {words : List Str}

/-! ## The bits of a token -/

/-- Every token is converted in one way. -/
theorem tokenBits_eq (token : Str) :
    tokenBits token = token.take 2 ++ getBinaryHexa (token.drop 2) := by
  have hdiffer : token.take 2 ≠ ['0', '0'] ∨ token.take 2 ≠ ['0', '1'] := by
    by_cases h : token.take 2 = ['0', '0']
    · exact Or.inr (by rw [h]; decide)
    · exact Or.inl h
  rw [tokenBits]
  simp only [if_pos hdiffer]

theorem length_getBinaryHexa (s : Str) : (getBinaryHexa s).length = 4 * s.length := by
  rw [getBinaryHexa, List.length_flatMap]
  simp [Nat.mul_comm]

/-- The tokens of a word: raw, first, or an index of five digits. -/
inductive TokenFor (w : Str) (token : Str) : Prop
  | raw (h : token = '0' :: '0' :: w)
  | first (h : token = '0' :: '1' :: w)
  | index (i : ℕ) (h : token = '1' :: '0' :: indexString i)

theorem tokenFor_tokenOf {seen : List Str} {w : Str} (hw : w ∈ words) :
    TokenFor w (tokenOf words seen w) := by
  have hdict := @dictOk_dictAfter words _ fun _ hv => hv
  unfold tokenOf
  by_cases hcount : 2 ≤ words.count w
  · rw [if_pos hcount]
    by_cases hseen : w ∈ seen
    · rw [if_pos hseen]
      have hkey : w ∈ (dictAfter words words).map Prod.fst := (hdict.mem_keys w).2 ⟨hw, hcount⟩
      obtain ⟨index, hindex⟩ := Option.isSome_iff_exists.1 (isSome_lookup_iff.2 hkey)
      -- all values are index strings
      have hvalue : index ∈ (dictAfter words words).map Prod.snd :=
        List.mem_map_of_mem (f := Prod.snd) (mem_of_lookup_eq hindex)
      rw [hdict.values] at hvalue
      obtain ⟨i, -, rfl⟩ := List.mem_map.1 hvalue
      exact .index i (by rw [hindex]; rfl)
    · rw [if_neg hseen]
      exact .first rfl
  · rw [if_neg hcount]
    exact .raw rfl

theorem forall₂_tokensFrom (rest : List Str) : ∀ {seen : List Str}, (∀ w ∈ rest, w ∈ words) →
    List.Forall₂ TokenFor rest (tokensFrom words seen rest) := by
  induction rest with
  | nil => intro seen _; exact .nil
  | cons w rest ih =>
      intro seen h
      exact .cons (tokenFor_tokenOf (h w List.mem_cons_self))
        (ih fun v hv => h v (List.mem_cons_of_mem w hv))

theorem forall₂_inputProcessor (words : List Str) :
    List.Forall₂ TokenFor words (inputProcessor words) := by
  rw [inputProcessor_eq]
  exact forall₂_tokensFrom words fun _ h => h

/-! ## The number of bits -/

/-- The bits of a token that holds a word of eight digits, or an index. -/
theorem length_tokenBits {w token : Str} (hw : w.length = 8) (h : TokenFor w token) :
    (tokenBits token).length = if token.take 2 = ['1', '0'] then 22 else 34 := by
  rcases h with rfl | rfl | ⟨i, rfl⟩ <;>
    simp [tokenBits_eq, length_getBinaryHexa, hw, indexString]

/-- **The number of bits**: an index takes 22, not 7. -/
theorem length_outBinary (h : ∀ w ∈ words, w.length = 8) :
    (outBinary (inputProcessor words)).length =
      ((inputProcessor words).map fun token =>
        if token.take 2 = ['1', '0'] then 22 else 34).sum := by
  have hall := forall₂_inputProcessor words
  rw [outBinary, List.length_flatMap]
  generalize inputProcessor words = tokens at hall
  induction hall with
  | nil => rfl
  | @cons w token words tokens hw _ ih =>
      rw [List.map_cons, List.map_cons, List.sum_cons, List.sum_cons,
        length_tokenBits (h w List.mem_cons_self) hw,
        ih fun v hv => h v (List.mem_cons_of_mem w hv)]

/-- The number of bits is the cost of the tokens when no token is an index. -/
theorem length_eq_cost_iff (h : ∀ w ∈ words, w.length = 8) :
    (outBinary (inputProcessor words)).length = ((inputProcessor words).map tokenCost).sum ↔
      ∀ token ∈ inputProcessor words, token.take 2 ≠ ['1', '0'] := by
  rw [length_outBinary h]
  generalize inputProcessor words = tokens
  have hle : ∀ tokens : List Str, (tokens.map tokenCost).sum ≤
      (tokens.map fun token => if token.take 2 = ['1', '0'] then 22 else 34).sum := by
    intro tokens
    refine List.sum_le_sum fun token _ => ?_
    unfold tokenCost
    split <;> omega
  induction tokens with
  | nil => simp
  | cons token tokens ih =>
      have hrest := hle tokens
      simp only [List.map_cons, List.sum_cons, List.forall_mem_cons, ← ih, tokenCost]
      split
      · exact ⟨fun heq => by omega, fun hboth => absurd ‹_› hboth.1⟩
      · exact ⟨fun heq => ⟨‹_›, by omega⟩, fun hboth => by omega⟩

/-! ## Repeated words -/

/-- A word that has occurred before gets an index. -/
theorem tokensFrom_index (rest : List Str) : ∀ {seen : List Str},
    (∃ token ∈ tokensFrom words seen rest, token.take 2 = ['1', '0']) ↔
      ∃ a w b, rest = a ++ w :: b ∧ w ∈ seen ++ a ∧ 2 ≤ words.count w := by
  induction rest with
  | nil => intro seen; simp [tokensFrom]
  | cons w rest ih =>
      intro seen
      have hhead : (tokenOf words seen w).take 2 = ['1', '0'] ↔
          w ∈ seen ∧ 2 ≤ words.count w := by
        unfold tokenOf
        by_cases hcount : 2 ≤ words.count w <;> by_cases hseen : w ∈ seen <;>
          simp [hcount, hseen]
      rw [tokensFrom, List.exists_mem_cons_iff, ih, hhead]
      constructor
      · rintro (⟨hseen, hcount⟩ | ⟨a, v, b, rfl, hv, hcount⟩)
        · exact ⟨[], w, rest, rfl, by simpa using hseen, hcount⟩
        · exact ⟨w :: a, v, b, rfl, by simpa using hv, hcount⟩
      · rintro ⟨a, v, b, heq, hv, hcount⟩
        cases a with
        | nil =>
            obtain ⟨rfl, rfl⟩ := List.cons.inj heq
            exact Or.inl ⟨by simpa using hv, hcount⟩
        | cons u a =>
            obtain ⟨rfl, rfl⟩ := List.cons.inj heq
            exact Or.inr ⟨a, v, b, rfl, by simpa using hv, hcount⟩

/-- The last of two occurrences. -/
theorem exists_second_of_count {w : Str} (h : 2 ≤ words.count w) :
    ∃ a b, words = a ++ w :: b ∧ w ∈ a := by
  obtain ⟨b, a, hsplit, hb⟩ := @List.eq_append_cons_of_mem _ w words.reverse (by
    rw [List.mem_reverse]
    exact List.count_pos_iff.1 (by omega))
  have hwords : words = a.reverse ++ w :: b.reverse := by
    rw [← List.reverse_reverse words, hsplit]
    simp
  have hzero : b.reverse.count w = 0 := List.count_eq_zero_of_not_mem (by simpa using hb)
  rw [hwords, List.count_append, List.count_cons_self, hzero] at h
  exact ⟨a.reverse, b.reverse, hwords, List.count_pos_iff.1 (by omega)⟩

/-- **An index is sent** exactly when a word is repeated. -/
theorem exists_index_iff (words : List Str) :
    (∃ token ∈ inputProcessor words, token.take 2 = ['1', '0']) ↔ ¬ words.Nodup := by
  rw [inputProcessor_eq, tokensFrom_index, List.nodup_iff_count_le_one]
  constructor
  · rintro ⟨a, w, b, -, -, hcount⟩ hle
    have := hle w
    omega
  · intro h
    obtain ⟨w, hw⟩ := not_forall.1 h
    have hcount : 2 ≤ words.count w := by omega
    obtain ⟨a, b, hwords, hmem⟩ := exists_second_of_count hcount
    exact ⟨a, w, b, hwords, hmem, hcount⟩

theorem inputProcessor_of_nodup (h : words.Nodup) :
    inputProcessor words = words.map fun w => '0' :: '0' :: w := by
  have hrun : ∀ (rest seen : List Str), (∀ w ∈ rest, w ∈ words) →
      tokensFrom words seen rest = rest.map fun w => '0' :: '0' :: w := by
    intro rest
    induction rest with
    | nil => intro seen _; rfl
    | cons w rest ih =>
        intro seen hrest
        have hcount : ¬ 2 ≤ words.count w := by
          have := List.nodup_iff_count_le_one.1 h w
          omega
        rw [tokensFrom, tokenOf, if_neg hcount,
          ih _ fun v hv => hrest v (List.mem_cons_of_mem w hv), List.map_cons]
  rw [inputProcessor_eq]
  exact hrun words [] fun _ hw => hw

/-! ## Digits with the same bits -/

/-- The digits that keep their value. -/
def plainDigits : Str := ['0', '7', '8', '9']

/-- The digit with the same bits: `1` and `A`, and so on to `6` and `F`. -/
def confuse (c : Char) : Char :=
  let v := hexVal c
  hexDigit (if 1 ≤ v ∧ v ≤ 6 then v + 9 else if 10 ≤ v then v - 9 else v)

theorem confuse_mem {c : Char} (h : c ∈ hexLut) : confuse c ∈ hexLut :=
  forall_hexLut (fun c => confuse c ∈ hexLut) (by decide) h

theorem confuse_confuse {c : Char} (h : c ∈ hexLut) : confuse (confuse c) = c :=
  forall_hexLut (fun c => confuse (confuse c) = c) (by decide) h

theorem getBinary_confuse {c : Char} (h : c ∈ hexLut) :
    getBinary (charValue (confuse c)) 4 = getBinary (charValue c) 4 :=
  forall_hexLut (fun c => getBinary (charValue (confuse c)) 4 = getBinary (charValue c) 4)
    (by decide) h

theorem mem_plainDigits {c : Char} (h : c ∈ hexLut) (hsame : confuse c = c) : c ∈ plainDigits :=
  forall_hexLut (fun c => confuse c = c → c ∈ plainDigits) (by decide) h hsame

/-- No other digit has the bits of a plain one. -/
theorem eq_of_plain {c d : Char} (hc : c ∈ plainDigits) (hd : d ∈ hexLut)
    (h : getBinary (charValue d) 4 = getBinary (charValue c) 4) : d = c := by
  have hall : (plainDigits.all fun c => hexLut.all fun d =>
      getBinary (charValue d) 4 != getBinary (charValue c) 4 || d == c) = true := by decide
  have hone := List.all_eq_true.1 (List.all_eq_true.1 hall c hc) d hd
  simpa [h] using hone

theorem getBinaryHexa_map_confuse {s : Str} (h : IsHex s) :
    getBinaryHexa (s.map confuse) = getBinaryHexa s := by
  rw [getBinaryHexa, getBinaryHexa, List.flatMap_map]
  exact List.flatMap_congr fun c hc => getBinary_confuse (h c hc)

theorem getBinaryHexa_inj : ∀ {s t : Str}, (∀ c ∈ s, c ∈ plainDigits) → IsHex t →
    s.length = t.length → getBinaryHexa t = getBinaryHexa s → t = s
  | [], [], _, _, _, _ => rfl
  | c :: s, d :: t, hs, ht, hlen, h => by
      rw [getBinaryHexa, getBinaryHexa, List.flatMap_cons, List.flatMap_cons] at h
      obtain ⟨hdigit, hrest⟩ := List.append_inj h (by simp)
      have hcd := eq_of_plain (hs c List.mem_cons_self) (ht d List.mem_cons_self) hdigit
      have hst := getBinaryHexa_inj (fun e he => hs e (List.mem_cons_of_mem c he))
        (fun e he => ht e (List.mem_cons_of_mem d he)) (by simpa using hlen) hrest
      rw [hcd, hst]

/-! ## Lines -/

/-- The bits of raw words with plain digits belong to no other words. -/
theorem words_eq_of_bits {words' tokens' : List Str} (htokens : List.Forall₂ TokenFor words' tokens')
    (hwords' : ∀ w ∈ words', IsWord w) :
    ∀ {words : List Str}, (∀ w ∈ words, w.length = 8 ∧ ∀ c ∈ w, c ∈ plainDigits) →
      outBinary tokens' = outBinary (words.map fun w => '0' :: '0' :: w) → words' = words := by
  have hraw : ∀ w : Str, tokenBits ('0' :: '0' :: w) = '0' :: '0' :: getBinaryHexa w :=
    fun w => tokenBits_eq _
  induction htokens with
  | nil =>
      intro words _ hbits
      cases words with
      | nil => rfl
      | cons w words =>
          rw [outBinary, outBinary, List.map_cons, List.flatMap_cons, hraw] at hbits
          simp at hbits
  | @cons w' token' words' tokens' htoken _ ih =>
      intro words hwords hbits
      have hw' := hwords' w' List.mem_cons_self
      cases words with
      | nil =>
          rw [outBinary, outBinary, List.flatMap_cons, tokenBits_eq] at hbits
          rcases htoken with rfl | rfl | ⟨i, rfl⟩ <;> simp at hbits
      | cons w words =>
          obtain ⟨hlen, hplain⟩ := hwords w List.mem_cons_self
          rw [outBinary, outBinary, List.map_cons, List.flatMap_cons, List.flatMap_cons, hraw] at hbits
          -- the first two bits say that the token is raw
          rcases htoken with rfl | rfl | ⟨i, rfl⟩
          · rw [hraw, List.cons_append, List.cons_append, List.cons_append, List.cons_append,
              List.cons.injEq, List.cons.injEq] at hbits
            obtain ⟨hword, hrest⟩ := List.append_inj hbits.2.2 (by
              rw [length_getBinaryHexa, length_getBinaryHexa, hlen, hw'.1])
            rw [getBinaryHexa_inj hplain hw'.2 (hlen.trans hw'.1.symm) hword,
              ih (fun v hv => hwords' v (List.mem_cons_of_mem _ hv))
                (fun v hv => hwords v (List.mem_cons_of_mem _ hv)) hrest]
          · rw [tokenBits_eq] at hbits
            simp at hbits
          · rw [tokenBits_eq] at hbits
            simp at hbits

theorem repeated_of_nodup (h : words.Nodup) : repeated words = [] := by
  have hnone : words.filter (fun w => decide (2 ≤ words.count w)) = [] := by
    refine List.filter_eq_nil_iff.2 fun w _ => ?_
    have := List.nodup_iff_count_le_one.1 h w
    simp only [decide_eq_true_eq]
    omega
  rw [repeated, hnone]
  rfl

/-- A line is determined by its words. -/
theorem line_eq_of_words {line line' : List UInt8} (h : 4 ∣ line.length) (h' : 4 ∣ line'.length)
    (hwords : lineWords line' = lineWords line) : line' = line := by
  obtain ⟨m, hm⟩ := h
  obtain ⟨m', hm'⟩ := h'
  have hcount := congrArg List.length hwords
  rw [lineWords, lineWords, length_chunks (by decide) (length_decomposeData hm),
    length_chunks (by decide) (length_decomposeData hm')] at hcount
  subst hcount
  refine decomposeData_inj hm' hm ?_
  rw [← flatten_lineWords hm, ← flatten_lineWords hm', hwords]

/-- **ABPD keeps a line** exactly when no word is repeated and all digits are plain. -/
theorem lossless_iff {line : List UInt8} (h : Fits line) :
    Lossless line ↔ (lineWords line).Nodup ∧ ∀ w ∈ lineWords line, ∀ c ∈ w, c ∈ plainDigits := by
  obtain ⟨⟨m, hm⟩, hroom⟩ := h
  have hword : ∀ w ∈ lineWords line, IsWord w := fun w => isWord_of_mem_lineWords hm
  have hsize : (convertOutput (inputProcessor (lineWords line))).2 =
      ((inputProcessor (lineWords line)).map tokenCost).sum ↔ (lineWords line).Nodup := by
    rw [convertOutput, length_eq_cost_iff fun w hw => (hword w hw).1, ← not_iff_not,
      ← exists_index_iff]
    simp
  constructor
  · intro hlossless
    have hnodup := hsize.1 hlossless.size
    refine ⟨hnodup, fun w hw c hc => ?_⟩
    -- exchange all digits at once: the same words are equal
    have hconfuse : ∀ v ∈ lineWords line, IsWord (v.map confuse) := by
      intro v hv
      refine ⟨by rw [List.length_map, (hword v hv).1], fun d hd => ?_⟩
      obtain ⟨e, he, rfl⟩ := List.mem_map.1 hd
      exact confuse_mem ((hword v hv).2 e he)
    obtain ⟨line', hlen', hwords'⟩ := @exists_line
      ((lineWords line).map fun v => v.map confuse) (by
        intro v hv
        obtain ⟨u, hu, rfl⟩ := List.mem_map.1 hv
        exact hconfuse u hu)
    have hback : ∀ v ∈ lineWords line, (v.map confuse).map confuse = v := by
      intro v hv
      rw [List.map_map]
      exact (List.map_congr_left fun d hd => confuse_confuse ((hword v hv).2 d hd)).trans
        (List.map_id v)
    have hnodup' : (lineWords line').Nodup := by
      rw [hwords']
      refine hnodup.map_on fun u hu v hv huv => ?_
      rw [← hback u hu, huv, hback v hv]
    have hsame : line' = line := by
      refine hlossless.determined line' ⟨⟨_, hlen'⟩, ?_⟩ ?_
      · rw [repeated_of_nodup hnodup']
        exact Nat.zero_le _
      · rw [inputProcessor_of_nodup hnodup', inputProcessor_of_nodup hnodup, hwords', outBinary,
          outBinary, List.map_map, List.flatMap_map, List.flatMap_map]
        refine List.flatMap_congr fun v hv => ?_
        rw [Function.comp_apply, tokenBits_eq, tokenBits_eq]
        exact congrArg (['0', '0'] ++ ·) (getBinaryHexa_map_confuse (hword v hv).2)
    rw [hsame] at hwords'
    have hfix : w.map confuse = w := by
      obtain ⟨i, hi⟩ := List.mem_iff_getElem?.1 hw
      have hget := congrArg (·[i]?) hwords'
      simp only [List.getElem?_map, hi, Option.map_some, Option.some.injEq] at hget
      exact hget.symm
    have hdigit : confuse c = c := by
      obtain ⟨i, hi⟩ := List.mem_iff_getElem?.1 hc
      have hget := congrArg (·[i]?) hfix
      simpa only [List.getElem?_map, hi, Option.map_some, Option.some.injEq] using hget
    exact mem_plainDigits ((hword w hw).2 c hc) hdigit
  · rintro ⟨hnodup, hplain⟩
    refine ⟨decodeString_inputProcessor hroom, fun line' hfits hbits => ?_, hsize.2 hnodup⟩
    obtain ⟨⟨m', hm'⟩, -⟩ := hfits
    refine line_eq_of_words ⟨m, hm⟩ ⟨m', hm'⟩ ?_
    rw [inputProcessor_of_nodup hnodup] at hbits
    exact words_eq_of_bits (forall₂_inputProcessor _) (fun w => isWord_of_mem_lineWords hm')
      (fun w hw => ⟨(hword w hw).1, hplain w hw⟩) hbits

/-- The words 00000007 and 00000008. -/
theorem lossless_iff_sevenEight :
    Lossless [7, 0, 0, 0, 8, 0, 0, 0] ↔ (lineWords [7, 0, 0, 0, 8, 0, 0, 0]).Nodup ∧
      ∀ w ∈ lineWords [7, 0, 0, 0, 8, 0, 0, 0], ∀ c ∈ w, c ∈ plainDigits :=
  lossless_iff ⟨by decide, by decide⟩

/-- The lines `01 00 00 00` and `0a 00 00 00` have the same bits, and two equal words cost 56 bits
instead of 41. -/
theorem not_lossless :
    (Fits [1, 0, 0, 0] ∧ ¬ Lossless [1, 0, 0, 0]) ∧
      Fits [0, 0, 0, 0, 0, 0, 0, 0] ∧ ¬ Lossless [0, 0, 0, 0, 0, 0, 0, 0] := by
  refine ⟨⟨⟨by decide, by decide⟩, fun h => ?_⟩, ⟨by decide, by decide⟩, fun h => ?_⟩
  · have hsame := h.determined [10, 0, 0, 0] ⟨by decide, by decide⟩ (by decide)
    exact absurd hsame (by decide)
  · exact absurd h.size (by decide)

end CompressionWork.Abpd
