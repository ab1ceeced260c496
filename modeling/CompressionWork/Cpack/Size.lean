import CompressionWork.Cpack.Lossless

/-!
# C-PACK: the reported size

The bits a line is charged and the size `run` stores in the `mem_fetch`.

* `Pattern`, `patternOf` — the pattern of a word under a dictionary, from the word and the
  dictionary alone.
* `processWord_charge` — the encoder emits the code of that pattern and charges its bits.
* `size_exact_iff` — the stored size is the bits of the tokens in whole bytes, or the size
  of the line where that is not below it.  It is so in every debug build; in a release build
  a line that grows has no size, and `size_exact_iff` says which lines grow.
-/

namespace CompressionWork.Cpack

open Codec

/-! ## Patterns -/

/-- The patterns of the code table. -/
inductive Pattern where
  | zzzz | zzzx | mmmm | mmmx | mmxx | xxxx
  deriving DecidableEq

/-- The bits of a token with the pattern. -/
def Pattern.bits : Pattern → ℕ
  | zzzz => 2
  | zzzx => 12
  | mmmm => 7
  | mmmx => 17
  | mmxx => 25
  | xxxx => 34

/-- The bytes two words share at their start. -/
def commonPairs : Str → Str → ℕ
  | a :: b :: u, c :: e :: w => if [a, b] = [c, e] then commonPairs u w + 1 else 0
  | _, _ => 0

/-- The most bytes a word shares with a word of the dictionary. -/
def sharedPairs (wordDictGlb : WordDict) (w : Str) : ℕ :=
  wordDictGlb.foldr (fun p m => max (commonPairs p.1 w) m) 0

/-- The pattern of a word. -/
def patternOf (wordDictGlb : WordDict) (w : Str) : Pattern :=
  if w = List.replicate 8 '0' then .zzzz
  else if w.take 6 = List.replicate 6 '0' then .zzzx
  else if sharedPairs wordDictGlb w = 4 then .mmmm
  else if sharedPairs wordDictGlb w = 3 then .mmmx
  else if sharedPairs wordDictGlb w = 2 then .mmxx
  else .xxxx

/-- The bits of a token, by its code. -/
def tokenBits : Str → ℕ
  | '0' :: '0' :: _ => 2
  | '0' :: '1' :: _ => 34
  | '1' :: '0' :: _ => 7
  | '1' :: '1' :: '0' :: '0' :: _ => 25
  | '1' :: '1' :: '0' :: '1' :: _ => 12
  | '1' :: '1' :: '1' :: '0' :: _ => 17
  | _ => 0

variable {d : WordDict}

/-! ## The search -/

theorem compareLoop_matchCount (ps : List Str) (hps : ∀ p ∈ ps, p.length = bitWord) :
    ∀ cur : Str, cur.length = bitWord * ps.length →
      (compareLoop ps cur).matchCount = commonPairs ps.flatten cur := by
  induction ps with
  | nil =>
      intro cur _
      rw [List.flatten_nil]
      cases cur <;> rfl
  | cons p ps ih =>
      intro cur hcur
      have hp : p.length = bitWord := hps p (List.mem_cons_self ..)
      obtain ⟨a, b, rfl⟩ := List.length_eq_two.1 hp
      obtain ⟨c, cur, rfl⟩ := List.exists_cons_of_length_pos (l := cur)
        (by rw [hcur, List.length_cons, bitWord]; omega)
      obtain ⟨e, cur, rfl⟩ := List.exists_cons_of_length_pos (l := cur)
        (by rw [List.length_cons, List.length_cons, bitWord] at hcur; omega)
      have hrest : cur.length = bitWord * ps.length := by
        simp only [List.length_cons, bitWord] at hcur ⊢
        omega
      have htake : (c :: e :: cur).take bitWord = [c, e] := rfl
      have hdrop : (c :: e :: cur).drop bitWord = cur := rfl
      rw [List.flatten_cons, List.cons_append, List.cons_append, List.nil_append, commonPairs,
        compareLoop, htake, hdrop]
      split
      · exact congrArg (· + 1) (ih (fun q hq => hps q (List.mem_cons_of_mem _ hq)) cur hrest)
      · rfl

theorem compareStr_matchCount {dictStr cur : Str} (hd : dictStr.length = 8)
    (hc : cur.length = 8) : (compareStr dictStr cur).matchCount = commonPairs dictStr cur := by
  obtain ⟨ps, hlen, hps, rfl⟩ := exists_slices (k := bitWord) (m := 4) hd
  have hchunks : chunks bitWord ps.flatten = ps := chunks_flatten (by decide) hps
  rw [compareStr, hchunks]
  exact compareLoop_matchCount ps hps cur (by rw [hc, hlen]; rfl)

/-- The loop of `dict_compare` keeps the greatest count. -/
theorem maxVal_foldl {cur : Str} (hc : cur.length = 8) (ps : WordDict)
    (hps : ∀ p ∈ ps, IsWord p.1) (b : Best) :
    (ps.foldl (bestStep cur) b).maxVal = max b.maxVal (sharedPairs ps cur) := by
  induction ps generalizing b with
  | nil => simp [sharedPairs]
  | cons p ps ih =>
      have hcount := compareStr_matchCount (hps p (List.mem_cons_self ..)).1 hc
      have hstep : (bestStep cur b p).maxVal = max b.maxVal (commonPairs p.1 cur) := by
        simp only [bestStep, hcount]
        split
        · rename_i hlt
          exact (max_eq_right hlt.le).symm
        · rename_i hge
          exact (max_eq_left (Nat.le_of_not_lt hge)).symm
      rw [List.foldl_cons, ih (fun q hq => hps q (List.mem_cons_of_mem _ hq)), hstep, max_assoc]
      rfl

/-- `dict_compare` decides by the longest common prefix. -/
theorem dictCompare_shared (h : DictOk d) {cur proc unm : Str} (hc : cur.length = 8) {ok : Bool}
    {b : Best} (hb : dictCompare cur proc unm d = (ok, b)) :
    b.maxVal = sharedPairs d cur ∧ (ok = false → sharedPairs d cur < 2) := by
  have hmax := maxVal_foldl hc d h.isWord ⟨0, unm, [], proc⟩
  rw [Nat.zero_max] at hmax
  have hval : b.maxVal = sharedPairs d cur := by
    rw [← hmax]
    simp only [dictCompare] at hb
    split at hb
    · rw [← (Prod.mk.inj hb).2]
    · split at hb
      · rw [← (Prod.mk.inj hb).2]
      · rw [← (Prod.mk.inj hb).2]
  refine ⟨hval, ?_⟩
  rintro rfl
  obtain ⟨-, hproc⟩ := dictCompare_false h hc hb
  simp only [dictCompare] at hb
  split at hb
  · rename_i hsmall
    rw [hmax] at hsmall
    omega
  · -- a match of two pairs or more has a code, so nothing is rejected here
    rename_i hbig
    split at hb
    · rename_i hcode
      rw [(Prod.mk.inj hb).2, hproc] at hcode
      exact absurd hcode (by decide)
    · exact absurd (Prod.mk.inj hb).1 (by simp)

/-- `process_string_partial` finds the zero words and the words with three zero bytes. -/
theorem processStringPartial_zeros {w : Str} (hw : w.length = 8) :
    ((processStringPartial w).1 = ['z', 'z', 'z', 'z'] ↔ w = List.replicate 8 '0') ∧
    ((processStringPartial w).1 = ['z', 'z', 'z', 'x'] ↔
      w ≠ List.replicate 8 '0' ∧ w.take 6 = List.replicate 6 '0') := by
  obtain ⟨hzzzz, hzzzx⟩ := processStringPartial_spec hw
  have hzero : processStringPartial (List.replicate 8 '0') = (['z', 'z', 'z', 'z'], []) := by
    decide
  refine ⟨⟨fun h => (hzzzz h).2, fun h => by rw [h, hzero]⟩, ⟨fun h => ⟨?_, ?_⟩, ?_⟩⟩
  · rintro rfl
    rw [hzero] at h
    exact absurd h (by decide)
  · rw [(hzzzx h).2]
    simp
  · rintro ⟨hne, htake⟩
    have hsplit : w = List.replicate 6 '0' ++ w.drop 6 := by
      rw [← htake, List.take_append_drop]
    obtain ⟨a, b, hab⟩ := List.length_eq_two.1 (show (w.drop 6).length = 2 by
      rw [List.length_drop, hw])
    rw [hab] at hsplit
    have hlast : [a, b] ≠ ['0', '0'] := by
      intro heq
      rw [heq] at hsplit
      exact hne hsplit
    have hfront : (List.replicate 6 '0' ++ [a, b]).take
        ((List.replicate 6 '0' ++ [a, b]).length - bitWord) = List.replicate 6 '0' := rfl
    have hback : (List.replicate 6 '0' ++ [a, b]).drop
        ((List.replicate 6 '0' ++ [a, b]).length - bitWord) = [a, b] := rfl
    rw [hsplit, processStringPartial, hfront, hback, if_neg hlast]
    dsimp only
    decide

/-! ## One word -/

/-- **Each token has the code of the word's pattern and is charged the pattern's bits.** -/
theorem processWord_charge (h : DictOk d) {w : Str} (hw : IsWord w) :
    tokenBits (processWord d w).outputString = (patternOf d w).bits ∧
      (processWord d w).bits = (patternOf d w).bits := by
  obtain ⟨hzzzz, hzzzx⟩ := processStringPartial_zeros hw.1
  obtain ⟨hz, hx⟩ := processStringPartial_spec hw.1
  cases hpart : processStringPartial w with
  | mk proc unm =>
      rw [hpart] at hzzzz hzzzx hz hx
      simp only at hzzzz hzzzx hz hx
      simp only [processWord, hpart]
      by_cases h4 : proc = ['z', 'z', 'z', 'z']
      · obtain ⟨rfl, -⟩ := hz h4
        rw [patternOf, if_pos (hzzzz.1 h4), if_pos (Or.inl h4), h4]
        exact ⟨rfl, rfl⟩
      · by_cases h3 : proc = ['z', 'z', 'z', 'x']
        · obtain ⟨hlen, -⟩ := hx h3
          obtain ⟨hne, htake⟩ := hzzzx.1 h3
          obtain ⟨a, b, rfl⟩ := List.length_eq_two.1 hlen
          rw [patternOf, if_neg hne, if_pos htake, if_pos (Or.inr h3), h3]
          exact ⟨rfl, rfl⟩
        · have hne : w ≠ List.replicate 8 '0' := fun heq => h4 (hzzzz.2 heq)
          have htake : w.take 6 ≠ List.replicate 6 '0' := fun heq => h3 (hzzzx.2 ⟨hne, heq⟩)
          rw [patternOf, if_neg hne, if_neg htake, if_neg (not_or.2 ⟨h4, h3⟩)]
          cases hdict : dictCompare w proc unm d with
          | mk ok b =>
              obtain ⟨hmax, hsmall⟩ := dictCompare_shared h hw.1 hdict
              cases ok with
              | false =>
                  have hlt := hsmall rfl
                  obtain ⟨hu, hp⟩ := dictCompare_false h hw.1 hdict
                  rw [if_neg (by omega), if_neg (by omega), if_neg (by omega)]
                  simp only [hu, hp]
                  exact ⟨rfl, rfl⟩
              | true =>
                  obtain ⟨p, hp, n, hn, h2, h4, hidx, htk, hproc⟩ :=
                    dictCompare_true h hw.1 hdict
                  have hlen : b.unmatched.length = 8 - 2 * n := by
                    have hsum := congrArg List.length htk
                    rw [List.length_append, List.length_take, (h.isWord p hp).1, hw.1] at hsum
                    omega
                  rw [← hmax, hn]
                  simp only [hproc, hlen]
                  obtain rfl | rfl | rfl : n = 2 ∨ n = 3 ∨ n = 4 := by omega
                  · exact ⟨rfl, rfl⟩
                  · exact ⟨rfl, rfl⟩
                  · exact ⟨rfl, rfl⟩

/-! ## One line -/

/-- The words of a line with the pattern. -/
def countPattern (wordDictGlb : WordDict) (words : List Str) (p : Pattern) : ℕ :=
  words.countP fun w => patternOf wordDictGlb w = p

/-- The line does not grow: what its words save pays for the two bits that each word without
a match costs more than it had. -/
def NoGrowth (wordDictGlb : WordDict) (words : List Str) : Prop :=
  2 * countPattern wordDictGlb words .xxxx ≤
    30 * countPattern wordDictGlb words .zzzz + 20 * countPattern wordDictGlb words .zzzx +
    25 * countPattern wordDictGlb words .mmmm + 15 * countPattern wordDictGlb words .mmmx +
    7 * countPattern wordDictGlb words .mmxx

theorem sum_bits (words : List Str) :
    (words.map fun w => (patternOf d w).bits).sum + 30 * countPattern d words .zzzz +
      20 * countPattern d words .zzzx + 25 * countPattern d words .mmmm +
      15 * countPattern d words .mmmx + 7 * countPattern d words .mmxx =
    32 * words.length + 2 * countPattern d words .xxxx := by
  induction words with
  | nil => rfl
  | cons w words ih =>
      simp only [countPattern] at ih ⊢
      simp only [List.map_cons, List.sum_cons, List.length_cons, List.countP_cons]
      generalize (words.map fun w => (patternOf d w).bits).sum = bits at ih ⊢
      cases patternOf d w <;> simp [Pattern.bits] <;> omega

/-- The tokens of a line. -/
def tokens (wordDictGlb : WordDict) (cacheData : List UInt8) : List Str :=
  (inputProcessor wordDictGlb (lineWords cacheData)).outputToGet

/-- The size a line should be stored with: the bits of its tokens in whole bytes, or its own
size. -/
def exactSize (wordDictGlb : WordDict) (cacheData : List UInt8) : ℕ :=
  let size := (((tokens wordDictGlb cacheData).map tokenBits).sum + 7) / 8
  if size < cacheData.length then size else cacheData.length

theorem flitCount_eq (h : DictOk d) {words : List Str} (hw : ∀ w ∈ words, IsWord w) :
    (inputProcessor d words).flitCount = (words.map fun w => (patternOf d w).bits).sum ∧
      ((inputProcessor d words).outputToGet.map tokenBits).sum =
        (words.map fun w => (patternOf d w).bits).sum := by
  rw [inputProcessor_eq]
  constructor
  · exact congrArg List.sum (List.map_congr_left fun w hmem => (processWord_charge h (hw w hmem)).2)
  · rw [List.map_map]
    exact congrArg List.sum (List.map_congr_left fun w hmem => (processWord_charge h (hw w hmem)).1)

/-- **The stored size is exact in a debug build, and in a release build if and only if the
line does not grow.**  Where it grows in a release build, what is stored is an uninitialised
variable. -/
theorem size_exact_iff (compDebug : Bool) (dict : Dict) {n : ℕ}
    {cacheData : List UInt8} (hlen : cacheData.length = 4 * n) :
    (run compDebug dict.wordDictGlb (decomposeData cacheData)).2 =
        some (exactSize dict.wordDictGlb cacheData) ↔
      compDebug = true ∨ NoGrowth dict.wordDictGlb (lineWords cacheData) := by
  have hcount : (lineWords cacheData).length = n :=
    length_chunks (by decide) (length_decomposeData hlen)
  have hraw : (decomposeData cacheData).length / 2 = 4 * n := by
    rw [length_decomposeData hlen]
    omega
  obtain ⟨hflit, htokens⟩ := flitCount_eq dict.ok fun _ hw => isWord_of_mem_lineWords hlen hw
  have hsum := sum_bits (d := dict.wordDictGlb) (lineWords cacheData)
  rw [run, exactSize, tokens, NoGrowth]
  rw [← lineWords, htokens, hraw, hlen]
  simp only [compByteSize, hflit]
  rw [hcount] at hsum
  generalize (List.map (fun w => (patternOf dict.wordDictGlb w).bits)
    (lineWords cacheData)).sum = bits at hsum ⊢
  cases compDebug with
  | true =>
      simp only [true_or, iff_true, if_true]
      split
      · split
        · omega
        · rw [Option.some.injEq]
          omega
      · split
        · rfl
        · rw [Option.some.injEq]
          omega
  | false =>
      simp only [Bool.false_eq_true, false_or, if_false]
      split
      · simp only [reduceCtorEq, false_iff]
        omega
      · refine iff_of_true ?_ (by omega)
        split
        · rfl
        · rw [Option.some.injEq]
          omega

/-- Two zero words: four bits in a release build. -/
theorem size_exact_iff_zeros :
    (run false Dict.empty.wordDictGlb (decomposeData (List.replicate 8 0))).2 =
        some (exactSize Dict.empty.wordDictGlb (List.replicate 8 0)) ∧
      exactSize Dict.empty.wordDictGlb (List.replicate 8 0) = 1 := by
  have hshrinks : NoGrowth Dict.empty.wordDictGlb (lineWords (List.replicate 8 0)) := by
    unfold NoGrowth
    decide
  exact ⟨(size_exact_iff false Dict.empty (n := 2) (by decide)).2 (Or.inr hshrinks), by decide⟩

/-- Eight words with nothing in common with an empty dictionary. -/
def growingLine : List UInt8 := (List.range 32).map fun i => UInt8.ofNat (i + 1)

/-- In a release build this line of 32 bytes, whose tokens have 272 bits, gets no size. -/
theorem size_unset :
    ¬ ∀ (compDebug : Bool) (dict : Dict) (n : ℕ) (cacheData : List UInt8),
      cacheData.length = 4 * n →
      (run compDebug dict.wordDictGlb (decomposeData cacheData)).2 =
        some (exactSize dict.wordDictGlb cacheData) := by
  intro h
  have hline := h false Dict.empty 8 growingLine (by decide)
  have hnone : (run false Dict.empty.wordDictGlb (decomposeData growingLine)).2 = none := by
    decide
  rw [hnone] at hline
  exact absurd hline (by simp)

end CompressionWork.Cpack
