import CompressionWork.Bpc.Decode
import Mathlib.Algebra.Order.BigOperators.Group.List
import Mathlib.Data.List.Chain

/-!
# Bit-plane compression: which lines can be told apart

A plane of at most three digits that no test accepts is `101`; it begins with a one.  From
four digits on there are planes that look like the code of a zero run, and `encode_others`
drops the prefix that would mark them.

* `rawOne_of_length_le` — up to four words the output determines the line.
* `encodeWords_wordsOf` — the output for words with given small differences.
* `run_collision` — from five words on there are two lines with the same output.
* `decodable_iff` — both together: exactly the line lengths that can be decoded.
-/

namespace CompressionWork.Bpc

open Codec

/-! ## Short planes -/

/-- The codes of `encode_others` and of a zero run begin with a zero. -/
theorem head_of_rowCode {m : ℕ} {p x code : Str} (h : rowCode m p x = some code) :
    code.head? = some '0' := by
  rw [rowCode] at h
  split at h
  · rw [← Option.some.inj h]
    rfl
  · rw [Option.or_eq_some_iff, Option.or_eq_some_iff] at h
    rcases h with (htwo | ⟨-, hone⟩) | ⟨-, hzero⟩
    · obtain ⟨it, -, hcheck⟩ := Option.bind_eq_some_iff.1 htwo
      rw [oneCheck] at hcheck
      split at hcheck
      · rw [← Option.some.inj hcheck]
        rfl
      · exact absurd hcheck (by simp)
    · obtain ⟨it, -, hcheck⟩ := Option.bind_eq_some_iff.1 hone
      rw [oneCheck] at hcheck
      split at hcheck
      · rw [← Option.some.inj hcheck]
        rfl
      · exact absurd hcheck (by simp)
    · split at hzero
      · rw [← Option.some.inj hzero]
        rfl
      · exact absurd hzero (by simp)

/-- Up to three digits, a plane that begins with a zero is zero or has a code. -/
theorem rowCode_ne_none {m : ℕ} (hm : m ≤ 3) {p x : Str} (hx : IsBin x) (hlen : x.length = m)
    (hnz : x ≠ List.replicate m '0') (hhead : x.head? ≠ some '1') : rowCode m p x ≠ none := by
  match x, hlen with
  | [], hlen => exact absurd (by rw [← hlen]; rfl) hnz
  | [a], rfl =>
      rcases hx a (by simp) with rfl | rfl
      · exact absurd rfl hnz
      · exact absurd rfl hhead
  | [a, b], rfl =>
      rcases hx a (by simp) with rfl | rfl
      · rcases hx b (by simp) with rfl | rfl
        · exact absurd rfl hnz
        · rw [show rowCode _ p ['0', '1'] = some ['0', '0', '0', '1', '1', '0', '0', '0', '0', '1']
            from rfl]
          simp
      · exact absurd rfl hhead
  | [a, b, c], rfl =>
      rcases hx a (by simp) with rfl | rfl
      · rcases hx b (by simp) with rfl | rfl <;> rcases hx c (by simp) with rfl | rfl
        · exact absurd rfl hnz
        · rw [show rowCode _ p ['0', '0', '1'] =
            some ['0', '0', '0', '1', '1', '0', '0', '0', '1', '0'] from rfl]
          simp
        · rw [show rowCode _ p ['0', '1', '0'] =
            some ['0', '0', '0', '1', '1', '0', '0', '0', '0', '1'] from rfl]
          simp
        · rw [show rowCode _ p ['0', '1', '1'] =
            some ['0', '0', '0', '1', '0', '0', '0', '0', '0', '1'] from rfl]
          simp
      · exact absurd rfl hhead
  | _ :: _ :: _ :: _ :: _, hlen => simp at hlen; omega

theorem isBin_getXor (a b : Str) : IsBin (getXor a b) := by
  intro c hc
  rw [getXor, List.zipWith_eq_zipWith_take_min, ← List.map_uncurry_zip_eq_zipWith] at hc
  obtain ⟨⟨x, y⟩, -, rfl⟩ := List.mem_map.1 hc
  rw [Function.uncurry_apply_pair, bitChar]
  split
  · exact Or.inl rfl
  · exact Or.inr rfl

theorem isBin_of_mem_getDbx {ps : List Str} (hps : ∀ p ∈ ps, IsBin p) :
    ∀ x ∈ getDbx ps, IsBin x := by
  induction ps with
  | nil => simp [getDbx]
  | cons p ps ih =>
      intro x hx
      rw [getDbx_cons] at hx
      rcases List.mem_cons.1 hx with rfl | hx
      · cases ps with
        | nil => exact hps p (List.mem_cons_self ..)
        | cons q ps => exact isBin_getXor p q
      · exact ih (fun q hq => hps q (List.mem_cons_of_mem _ hq)) x hx

/-- Up to four words, every plane without a code begins with a one. -/
theorem rawOne_of_length_le {words : List Str} {n : ℕ} (hn : n ≤ 4) (hlen : words.length = n) :
    RawOne (n - 1) (planes words) (getDbx (planes words)) := by
  intro p x hpx hnz hnone
  have hx : x ∈ getDbx (planes words) := (List.of_mem_zip hpx).2
  have hbin : IsBin x := isBin_of_mem_getDbx (fun _ hq => isBin_of_mem_planes hq) x hx
  have hxlen : x.length = n - 1 :=
    length_of_mem_getDbx (fun q hq => by rw [length_of_mem_planes hq, hlen]) x hx
  by_contra hhead
  exact rowCode_ne_none (by omega) hbin hxlen hnz hhead hnone

/-! ## Lines with given differences -/

/-- The bytes of a line with these words. -/
def lineOf (words : List ℕ) : List UInt8 :=
  words.flatMap fun w => (digits 256 4 w).map fun d => UInt8.ofNat d

/-- The words that start at `x` and have the differences `ds`. -/
def accumulate : ℕ → List ℕ → List ℕ
  | x, [] => [x]
  | x, d :: ds => x :: accumulate (x + d) ds

theorem length_lineOf (words : List ℕ) : (lineOf words).length = 4 * words.length := by
  induction words with
  | nil => rfl
  | cons w words ih =>
      rw [lineOf, List.flatMap_cons, List.length_append, ← lineOf, ih, List.length_map,
        length_digits, List.length_cons]
      omega

@[simp] theorem length_accumulate (x : ℕ) (ds : List ℕ) :
    (accumulate x ds).length = ds.length + 1 := by
  induction ds generalizing x with
  | nil => rfl
  | cons d ds ih => simp [accumulate, ih]

theorem rawData_bytes (ds : List ℕ) (h : ∀ d ∈ ds, d < 256) :
    rawData (ds.map fun d => UInt8.ofNat d) = (ds.flatMap (digits 16 2)).map hexDigit := by
  induction ds with
  | nil => rfl
  | cons d ds ih =>
      have hd : (UInt8.ofNat d).toNat = d := UInt8.toNat_ofNat_of_lt' (h d (by simp))
      have hdig : digits 16 2 d = [d / 16, d % 16] := by
        have hlt := h d (by simp)
        simp only [digits, List.nil_append, List.singleton_append]
        rw [Nat.mod_eq_of_lt (show d / 16 < 16 by omega)]
      rw [rawData] at ih
      rw [List.map_cons, rawData, List.flatMap_cons, ih fun e he => h e (by simp [he]), hd,
        List.flatMap_cons, List.map_append, hdig]
      rfl

/-- The binary words of a line built from numbers are these numbers. -/
theorem convertBinary_lineOf (words : List ℕ) :
    convertBinary (rawData (lineOf words)) = words.map fun w => getBinary w 32 := by
  have hword : ∀ w, rawData ((digits 256 4 w).map fun d => UInt8.ofNat d) =
      (digits 16 8 w).map hexDigit := by
    intro w
    rw [rawData_bytes _ fun d hd => digits_lt (by decide) hd]
    exact congrArg _ (digits_flatMap 16 2 4 w)
  have hraw : rawData (lineOf words) =
      (words.map fun w => (digits 16 8 w).map hexDigit).flatten := by
    induction words with
    | nil => rfl
    | cons w words ih =>
        rw [lineOf, List.flatMap_cons, rawData, List.flatMap_append, ← rawData, ← rawData, ← lineOf,
          ih, hword, List.map_cons, List.flatten_cons]
  have hchunks : chunks wordSizeBpc (words.map fun w => (digits 16 8 w).map hexDigit).flatten =
      words.map fun w => (digits 16 8 w).map hexDigit := by
    refine chunks_flatten (by decide) fun s hs => ?_
    obtain ⟨w, -, rfl⟩ := List.mem_map.1 hs
    rw [List.length_map, length_digits, wordSizeBpc]
  rw [convertBinary, hraw, hchunks, List.map_map]
  refine List.map_congr_left fun w _ => ?_
  rw [Function.comp_apply, hexToBin_map_hexDigit fun d hd => digits_lt (by decide) hd, getBinary]
  exact congrArg _ (digits_flatMap 2 4 8 w)

theorem getNum_getBinary {w : ℕ} (h : w < 2 ^ 31) : getNum (getBinary w 32) = w := by
  have hw : IsBinWord (getBinary w 32) := ⟨length_getBinary w 32, isBin_getBinary w 32⟩
  obtain ⟨h1, h2, h3⟩ := getNum_range hw
  rw [binaryValue_getBinary] at h3
  omega

/-- The differences come out again. -/
theorem deltas_accumulate (x : ℕ) (ds : List ℕ) (h : x + ds.sum < 2 ^ 31) :
    deltas ((accumulate x ds).map fun w => getBinary w 32) =
      ds.map fun d => getBinary d 33 := by
  induction ds generalizing x with
  | nil => rfl
  | cons d ds ih =>
      rw [List.sum_cons] at h
      have hnext := ih (x + d) (by omega)
      have hdelta : calcDelta (getBinary x 32) (getBinary (x + d) 32) = getBinary d 33 := by
        rw [calcDelta_eq, getNum_getBinary (by omega), getNum_getBinary (by omega)]
        congr 1
        omega
      have hhead : ∃ rest, accumulate (x + d) ds = (x + d) :: rest := by
        cases ds with
        | nil => exact ⟨[], rfl⟩
        | cons e es => exact ⟨_, rfl⟩
      obtain ⟨rest, hrest⟩ := hhead
      rw [deltas] at hnext ⊢
      rw [accumulate, hrest, List.map_cons, List.map_cons, List.tail_cons,
        List.zipWith_cons_cons, hdelta, List.map_cons]
      rw [hrest, List.map_cons, List.tail_cons] at hnext
      rw [hnext]

/-- Bit `r` of a difference, as a digit. -/
def bitAt (r d : ℕ) : Char := bitChar (d / 2 ^ r % 2)

/-- Bit `r` of a difference xor bit `r + 1`. -/
def grayAt (r d : ℕ) : Char := bitChar (bitVal (bitAt r d) ^^^ bitVal (bitAt (r + 1) d))

theorem planes_accumulate {ds : List ℕ} (h : ds.sum < 2 ^ 31) :
    planes ((accumulate 0 ds).map fun w => getBinary w 32) =
      (List.range 33).map fun r => ds.map (bitAt r) := by
  rw [planes, deltas_accumulate 0 ds (by omega)]
  refine List.map_congr_left fun r hr => ?_
  rw [List.map_map]
  refine List.map_congr_left fun d _ => ?_
  have hget := getElem?_digits (b := 2) (List.mem_range.1 hr) d
  rw [Function.comp_apply, List.getD_eq_getElem?_getD, getBinary, List.getElem?_map, hget]
  rfl

theorem getDbx_map (f : ℕ → Str) (k : ℕ) : ∀ a,
    getDbx ((List.range' a (k + 1)).map f) =
      (List.range' a k).map (fun r => getXor (f r) (f (r + 1))) ++ [f (a + k)] := by
  induction k with
  | zero => intro a; rfl
  | succ k ih =>
      intro a
      rw [List.range'_succ, List.map_cons, getDbx_cons, ih (a + 1), List.range'_succ,
        List.map_cons, xorNext, List.range'_succ, List.map_cons, List.cons_append,
        show a + 1 + k = a + (k + 1) by omega]

/-- The planes of `dbx` for small differences. -/
theorem getDbx_accumulate {ds : List ℕ} (h : ds.sum < 2 ^ 31) :
    getDbx (planes ((accumulate 0 ds).map fun w => getBinary w 32)) =
      (List.range 33).map fun r => ds.map (grayAt r) := by
  have hsmall : ∀ d ∈ ds, d < 2 ^ 31 := fun d hd =>
    lt_of_le_of_lt (List.le_sum_of_mem hd) h
  have hlast : ds.map (bitAt 32) = ds.map (grayAt 32) := by
    refine List.map_congr_left fun d hd => ?_
    have h32 : d / 2 ^ 32 = 0 := Nat.div_eq_of_lt (by have := hsmall d hd; omega)
    have h33 : d / 2 ^ (32 + 1) = 0 := Nat.div_eq_of_lt (by have := hsmall d hd; omega)
    rw [grayAt, bitAt, bitAt, h32, h33]
    rfl
  have hsplit : List.range' 0 33 = List.range' 0 32 ++ [32] := rfl
  rw [planes_accumulate h, List.range_eq_range', getDbx_map (fun r => ds.map (bitAt r)) 32 0,
    Nat.zero_add, hlast, hsplit, List.map_append]
  congr 1
  refine List.map_congr_left fun r _ => ?_
  rw [getXor, List.zipWith_map, List.zipWith_self]
  rfl

/-! ## The codes of sparse planes -/

/-- The codes of the planes `xs` of `dbx` from index `i` on. -/
def codesFrom (dbp : List Str) (m i : ℕ) (xs : List Str) : Str :=
  (encodeOthers dbp m (encodeRunLen 0 (createLookup i xs))).flatten

variable {dbp : List Str} {m : ℕ}

theorem find_zero_plane (m : ℕ) :
    (find (List.replicate m '0') (List.replicate (List.replicate m '0').length '0')).isSome :=
  (find_zeros _).2 (by simp)

theorem traverse_nonzero (i : ℕ) {x : Str} (xs : List Str) (hx : x.length = m)
    (hnz : x ≠ List.replicate m '0') : traverse (createLookup i (x :: xs)) = 0 := by
  rw [createLookup, traverse, if_neg]
  rw [find_zeros, hx]
  exact hnz

theorem traverse_run (m k : ℕ) (xs : List Str) : ∀ i,
    traverse (createLookup i (List.replicate k (List.replicate m '0') ++ xs)) =
      k + traverse (createLookup (i + k) xs) := by
  induction k with
  | zero => intro i; simp
  | succ k ih =>
      intro i
      rw [List.replicate_succ, List.cons_append, createLookup, traverse,
        if_pos (find_zero_plane m), ih (i + 1), show i + 1 + k = i + (k + 1) by omega]
      omega

theorem encodeRunLen_skip {k : ℕ} {ys xs : List Str} (hk : ys.length = k) : ∀ i,
    encodeRunLen k (createLookup i (ys ++ xs)) = encodeRunLen 0 (createLookup (i + k) xs) := by
  induction ys generalizing k with
  | nil => intro i; rw [← hk]; rfl
  | cons y ys ih =>
      intro i
      obtain ⟨k, rfl⟩ : ∃ j, k = j + 1 := ⟨ys.length, by rw [← hk]; rfl⟩
      rw [List.cons_append, createLookup, encodeRunLen, ih (by simpa using hk) (i + 1),
        show i + 1 + k = i + (k + 1) by omega]

/-- A run of zero planes up to a plane that is not zero. -/
theorem codesFrom_run {k i : ℕ} {xs : List Str}
    (hstop : traverse (createLookup (i + (k + 1)) xs) = 0) :
    codesFrom dbp m i (List.replicate (k + 1) (List.replicate m '0') ++ xs) =
      zeroCode (k + 1) ++ codesFrom dbp m (i + (k + 1)) xs := by
  have htrav := traverse_run m (k + 1) xs i
  rw [hstop, Nat.add_zero] at htrav
  rw [List.replicate_succ, List.cons_append, createLookup] at htrav
  rw [codesFrom, List.replicate_succ, List.cons_append, createLookup, encodeRunLen]
  simp only [htrav, if_pos (Nat.succ_le_succ (Nat.zero_le k)), Nat.add_sub_cancel]
  rw [encodeRunLen_skip (by simp), encodeOthers, List.map_cons, List.flatten_cons, ← encodeOthers,
    show i + 1 + k = i + (k + 1) by omega]
  rfl

/-- A plane that is not zero. -/
theorem codesFrom_cons {i : ℕ} {x : Str} {xs : List Str} (hx : x.length = m)
    (hnz : x ≠ List.replicate m '0') :
    codesFrom dbp m i (x :: xs) =
      (rowCode m (dbp.getD i []) x).getD x ++ codesFrom dbp m (i + 1) xs := by
  have htrav := traverse_nonzero i xs hx hnz
  rw [createLookup] at htrav
  rw [codesFrom, createLookup, encodeRunLen]
  simp only [htrav]
  rw [if_neg (by omega), encodeOthers, List.map_cons, List.flatten_cons, ← encodeOthers,
    encodeOther, codesFrom]

theorem codesFrom_nil (dbp : List Str) (m i : ℕ) : codesFrom dbp m i [] = [] := rfl

/-- No two ones stand side by side. -/
def NoPair (x : Str) : Prop := List.IsChain (fun a b => ¬ (a = '1' ∧ b = '1')) x

theorem find_pair {x : Str} (h : NoPair x) : find x ['1', '1'] = none := by
  cases hf : find x ['1', '1'] with
  | none => rfl
  | some i =>
      obtain ⟨t, ht⟩ := prefix_of_find hf
      have hdrop := List.IsChain.drop h i
      rw [← ht] at hdrop
      simp at hdrop

theorem noPair_zeros (k : ℕ) : NoPair (List.replicate k '0') :=
  List.isChain_replicate_of_rel k (by simp)

theorem NoPair.zeros_append {k : ℕ} {x : Str} (h : NoPair x) :
    NoPair (List.replicate k '0' ++ x) := by
  refine List.IsChain.append (noPair_zeros k) h fun a ha b _ hab => ?_
  rw [(List.mem_replicate.1 (List.mem_of_mem_getLast? ha)).2] at hab
  exact absurd hab.1 (by decide)

theorem NoPair.append_zeros {k : ℕ} {x : Str} (h : NoPair x) :
    NoPair (x ++ List.replicate k '0') := by
  refine List.IsChain.append h (noPair_zeros k) fun a _ b hb hab => ?_
  rw [(List.mem_replicate.1 (List.mem_of_mem_head? hb)).2] at hab
  exact absurd hab.2 (by decide)

/-- A plane with two ones that do not touch, over a plane of `dbp` that is not zero, has no
code. -/
theorem rowCode_eq_none {p x : Str} (hx : x.length = m) (hp : p.length = m) (hm : 2 < m)
    (hpair : NoPair x) (hcount : x.count '1' = 2) (hpz : p ≠ List.replicate m '0') :
    rowCode m p x = none := by
  have hones : ¬ (find x (List.replicate m '1')).isSome := by
    rw [find_isSome_iff (by simp [hx])]
    intro h
    rw [h, List.count_replicate_self] at hcount
    omega
  have hone : ((find x ['1']).bind fun c => oneCheck ['0', '0', '0', '1', '1'] 1 x c) = none := by
    rw [Option.bind_eq_none_iff]
    intro c hfind
    cases hcheck : oneCheck ['0', '0', '0', '1', '1'] 1 x c with
    | none => rfl
    | some out =>
        obtain ⟨-, -, heq⟩ := oneCheck_spec hfind hcheck
        rw [heq] at hcount
        simp [List.count_append, List.count_replicate] at hcount
  have hzero : ¬ zeroCheck p m := by
    rw [zeroCheck, find_isSome_iff (by simp [hp])]
    exact hpz
  rw [rowCode, if_neg hones, find_pair hpair, hone, if_neg hzero]
  rfl

/-- A plane with a one in front and nothing else. -/
theorem rowCode_first (p : Str) {k : ℕ} (hm : m = k + 2) :
    rowCode m p ('1' :: List.replicate (k + 1) '0') =
      some (['0', '0', '0', '1', '1'] ++ getBinary 0 5) := by
  have hpair : NoPair ('1' :: List.replicate (k + 1) '0') :=
    NoPair.append_zeros (x := ['1']) (List.isChain_singleton _)
  have hones : ¬ (find ('1' :: List.replicate (k + 1) '0') (List.replicate m '1')).isSome := by
    rw [find_isSome_iff (by simp [hm]), hm, List.replicate_succ (n := k + 1), List.replicate_succ,
      List.replicate_succ]
    simp
  have hfind : find ('1' :: List.replicate (k + 1) '0') ['1'] = some 0 := by
    rw [find, List.range_succ_eq_map, List.find?_cons_of_pos (by simp)]
  have hcheck : oneCheck ['0', '0', '0', '1', '1'] 1 ('1' :: List.replicate (k + 1) '0') 0 =
      some (['0', '0', '0', '1', '1'] ++ getBinary 0 5) := by
    have htake : ('1' :: List.replicate (k + 1) '0').take 0 = List.replicate 0 '0' := rfl
    have hdrop : ('1' :: List.replicate (k + 1) '0').drop (0 + 1) = List.replicate (k + 1) '0' :=
      rfl
    rw [oneCheck]
    simp only [htake, hdrop]
    rw [if_pos ⟨find_zero_plane 0, find_zero_plane (k + 1)⟩]
  rw [rowCode, if_neg hones, find_pair hpair, hfind, Option.bind_some, hcheck]
  rfl

/-! ## Two lines with one output -/

/-- The code of a run of ten zero planes; it is also a possible plane. -/
def runTen : Str := ['0', '1', '0', '1', '0', '0', '0']

/-- The planes of `dbx` for these differences: ten zero planes, then a plane ending in
`runTen`, then a single one, then zero planes. -/
def deltasA (j : ℕ) : List ℕ := 4095 :: (List.replicate j 0 ++ [2047, 0, 2047, 0, 0, 0])

/-- The planes of `dbx` for these differences: a plane beginning with `runTen`, then ten zero
planes, then a single one, then zero planes. -/
def deltasB (j : ℕ) : List ℕ := [4095, 1, 0, 1, 0, 0, 0] ++ List.replicate j 0

/-- The plane with a single one in front. -/
def firstOne (j : ℕ) : Str := '1' :: List.replicate (j + 6) '0'

theorem grayAt_4095 : ∀ r < 33, grayAt r 4095 = if r = 11 then '1' else '0' := by decide

theorem grayAt_2047 : ∀ r < 33, grayAt r 2047 = if r = 10 then '1' else '0' := by decide

theorem grayAt_one : ∀ r < 33, grayAt r 1 = if r = 0 then '1' else '0' := by decide

theorem grayAt_zero (r : ℕ) : grayAt r 0 = '0' := by
  simp [grayAt, bitAt, bitChar, bitVal]

theorem zeros_cons (j : ℕ) (x : Str) :
    '0' :: (List.replicate j '0' ++ x) = List.replicate j '0' ++ '0' :: x := by
  rw [← List.cons_append, ← List.replicate_succ, List.replicate_succ', List.append_assoc]
  rfl

theorem sum_deltasA (j : ℕ) : (deltasA j).sum < 2 ^ 31 := by
  simp [deltasA]

theorem sum_deltasB (j : ℕ) : (deltasB j).sum < 2 ^ 31 := by
  simp [deltasB]

theorem dbx_deltasA (j : ℕ) :
    (List.range 33).map (fun r => (deltasA j).map (grayAt r)) =
      List.replicate 10 (List.replicate (j + 7) '0') ++
        (List.replicate j '0' ++ runTen) :: firstOne j ::
          (List.replicate 21 (List.replicate (j + 7) '0') ++ []) := by
  have hrow : ∀ r ∈ List.range 33, (deltasA j).map (grayAt r) =
      if r = 10 then List.replicate j '0' ++ runTen
      else if r = 11 then firstOne j else List.replicate (j + 7) '0' := by
    intro r hr
    rw [List.mem_range] at hr
    simp only [deltasA, List.map_cons, List.map_append, List.map_replicate, List.map_nil,
      grayAt_4095 r hr, grayAt_2047 r hr, grayAt_zero]
    by_cases h10 : r = 10
    · subst h10
      exact zeros_cons j _
    · by_cases h11 : r = 11
      · subst h11
        simp only [if_neg h10, firstOne]
        rw [List.replicate_add]
        rfl
      · simp only [if_neg h10, if_neg h11]
        rw [show j + 7 = j + 6 + 1 from rfl, List.replicate_succ, List.replicate_add]
        rfl
  rw [List.map_congr_left hrow]
  rfl

theorem dbx_deltasB (j : ℕ) :
    (List.range 33).map (fun r => (deltasB j).map (grayAt r)) =
      (runTen ++ List.replicate j '0') ::
        (List.replicate 10 (List.replicate (j + 7) '0') ++ firstOne j ::
          (List.replicate 21 (List.replicate (j + 7) '0') ++ [])) := by
  have hrow : ∀ r ∈ List.range 33, (deltasB j).map (grayAt r) =
      if r = 0 then runTen ++ List.replicate j '0'
      else if r = 11 then firstOne j else List.replicate (j + 7) '0' := by
    intro r hr
    rw [List.mem_range] at hr
    simp only [deltasB, List.map_cons, List.map_append, List.map_replicate, List.map_nil,
      grayAt_4095 r hr, grayAt_one r hr, grayAt_zero]
    by_cases h0 : r = 0
    · subst h0
      rfl
    · by_cases h11 : r = 11
      · subst h11
        simp only [if_neg h0, firstOne]
        rw [Nat.add_comm j 6, List.replicate_add]
        rfl
      · simp only [if_neg h0, if_neg h11]
        rw [Nat.add_comm j 7, List.replicate_add]
        rfl
  rw [List.map_congr_left hrow]
  rfl

/-- The binary words with the differences `ds`, starting at zero. -/
def wordsOf (ds : List ℕ) : List Str := (accumulate 0 ds).map fun w => getBinary w 32

/-- The output for small differences, from the planes. -/
theorem encodeWords_wordsOf {ds : List ℕ} (hne : ds ≠ []) (h : ds.sum < 2 ^ 31) :
    encodeWords (wordsOf ds) =
      some (compressBase (getBinary 0 32) ++
        codesFrom ((List.range 33).map fun r => ds.map (bitAt r)) ds.length 0
          ((List.range 33).map fun r => ds.map (grayAt r))) := by
  have hlen : 2 ≤ (wordsOf ds).length := by
    rw [wordsOf, List.length_map, length_accumulate]
    have hpos := List.length_pos_of_ne_nil hne
    omega
  have hhead : (wordsOf ds).headD [] = getBinary 0 32 := by
    cases ds with
    | nil => exact absurd rfl hne
    | cons d ds => rfl
  have hrow : (((List.range 33).map fun r => ds.map (grayAt r)).headD []).length = ds.length := by
    rw [List.range_succ_eq_map, List.map_cons, List.headD_cons, List.length_map]
  rw [encodeWords_eq hlen, hhead, wordsOf, getDbx_accumulate h, planes_accumulate h, doActualEncode,
    hrow, codesFrom]

/-- A plane of `dbp` whose first digit is a one is not zero. -/
theorem plane_ne_zero {r : ℕ} {ds : List ℕ} {d m : ℕ} (hr : r < 33) (hd : ds.head? = some d)
    (hbit : bitAt r d = '1') (hm : ds.length = m) :
    ((List.range 33).map fun r => ds.map (bitAt r)).getD r [] ≠ List.replicate m '0' ∧
      (((List.range 33).map fun r => ds.map (bitAt r)).getD r []).length = m := by
  have hget : ((List.range 33).map fun r => ds.map (bitAt r)).getD r [] = ds.map (bitAt r) := by
    rw [List.getD_eq_getElem?_getD, List.getElem?_map, List.getElem?_range hr]
    rfl
  rw [hget]
  refine ⟨fun h => ?_, by rw [List.length_map, hm]⟩
  cases ds with
  | nil => simp at hd
  | cons e ds =>
      obtain rfl : e = d := by simpa using hd
      rw [List.map_cons, hbit, ← hm, List.length_cons, List.replicate_succ] at h
      exact absurd (List.cons.inj h).1 (by decide)

theorem noPair_runTen : NoPair runTen := by
  unfold NoPair runTen
  simp

theorem firstOne_ne_zeros (j : ℕ) : firstOne j ≠ List.replicate (j + 7) '0' := by
  intro h
  rw [List.replicate_succ] at h
  exact absurd (List.cons.inj h).1 (by decide)

/-- A plane with two ones is not zero. -/
theorem ne_zeros_of_count {x : Str} {k : ℕ} (h : x.count '1' = 2) : x ≠ List.replicate k '0' := by
  rintro rfl
  simp [List.count_replicate] at h

/-- The common end of both outputs: the single one and the zero planes. -/
theorem codesFrom_tail (dbp : List Str) (j : ℕ) :
    codesFrom dbp (j + 7) 11
        (firstOne j :: (List.replicate 21 (List.replicate (j + 7) '0') ++ [])) =
      ['0', '0', '0', '1', '1'] ++ getBinary 0 5 ++ zeroCode 21 := by
  rw [codesFrom_cons (by simp [firstOne]) (firstOne_ne_zeros j), firstOne, rowCode_first _ rfl,
    codesFrom_run rfl, codesFrom_nil, List.append_nil]
  rfl

theorem encodeWords_deltasA (j : ℕ) :
    encodeWords (wordsOf (deltasA j)) =
      some (compressBase (getBinary 0 32) ++ (zeroCode 10 ++ (List.replicate j '0' ++ runTen ++
        (['0', '0', '0', '1', '1'] ++ getBinary 0 5 ++ zeroCode 21)))) := by
  have hm : (deltasA j).length = j + 7 := by simp [deltasA]
  have hx : (List.replicate j '0' ++ runTen).length = j + 7 := by simp [runTen]
  have hcount : (List.replicate j '0' ++ runTen).count '1' = 2 := by
    simp [List.count_append, List.count_replicate, runTen]
  obtain ⟨hpz, hp⟩ := plane_ne_zero (r := 0 + (9 + 1)) (by decide) rfl (by decide) hm
  rw [encodeWords_wordsOf (by simp [deltasA]) (sum_deltasA j), hm, dbx_deltasA,
    codesFrom_run (traverse_nonzero _ _ hx (ne_zeros_of_count hcount)),
    codesFrom_cons hx (ne_zeros_of_count hcount),
    rowCode_eq_none hx hp (by omega) noPair_runTen.zeros_append hcount hpz,
    show 0 + (9 + 1) + 1 = 11 from rfl, codesFrom_tail]
  rfl

theorem encodeWords_deltasB (j : ℕ) :
    encodeWords (wordsOf (deltasB j)) =
      some (compressBase (getBinary 0 32) ++ (runTen ++ List.replicate j '0' ++ (zeroCode 10 ++
        (['0', '0', '0', '1', '1'] ++ getBinary 0 5 ++ zeroCode 21)))) := by
  have hm : (deltasB j).length = j + 7 := by simp [deltasB]
  have hx : (runTen ++ List.replicate j '0').length = j + 7 := by simp [runTen]
  have hcount : (runTen ++ List.replicate j '0').count '1' = 2 := by
    simp [List.count_replicate, runTen]
  obtain ⟨hpz, hp⟩ := plane_ne_zero (r := 0) (by decide) rfl (by decide) hm
  rw [encodeWords_wordsOf (by simp [deltasB]) (sum_deltasB j), hm, dbx_deltasB,
    codesFrom_cons hx (ne_zeros_of_count hcount),
    rowCode_eq_none hx hp (by omega) noPair_runTen.append_zeros hcount hpz,
    codesFrom_run (traverse_nonzero _ _ (by simp [firstOne]) (firstOne_ne_zeros j)),
    show 0 + 1 + (9 + 1) = 11 from rfl, codesFrom_tail]
  rfl

/-- Lines with different differences are different. -/
theorem lineOf_ne {ds es : List ℕ} (hds : ds.sum < 2 ^ 31) (hes : es.sum < 2 ^ 31)
    (hne : ds ≠ es) : lineOf (accumulate 0 ds) ≠ lineOf (accumulate 0 es) := by
  intro h
  have hbin := congrArg (fun l => deltas (convertBinary (rawData l))) h
  simp only [convertBinary_lineOf] at hbin
  rw [deltas_accumulate 0 ds (by omega), deltas_accumulate 0 es (by omega)] at hbin
  refine hne ?_
  have hval := congrArg (List.map binaryValue) hbin
  have hback : ∀ cs : List ℕ, cs.sum < 2 ^ 31 →
      (cs.map fun d => getBinary d 33).map binaryValue = cs := by
    intro cs hcs
    rw [List.map_map]
    refine (List.map_congr_left fun d hd => ?_).trans (List.map_id _)
    have hle := List.le_sum_of_mem hd
    rw [Function.comp_apply, binaryValue_getBinary, Nat.mod_eq_of_lt (by omega)]
    rfl
  rwa [hback ds hds, hback es hes] at hval

/-- Words with one output make two lines with one output. -/
theorem run_eq_of_wordsOf {ds es : List ℕ} (h : encodeWords (wordsOf ds) = encodeWords (wordsOf es)) :
    run (lineOf (accumulate 0 ds)) = run (lineOf (accumulate 0 es)) := by
  have hnil : ∀ cs, lineOf (accumulate 0 cs) ≠ [] := by
    intro cs hcs
    have hlen := length_lineOf (accumulate 0 cs)
    rw [hcs, length_accumulate, List.length_nil] at hlen
    omega
  rw [run, run, if_neg (hnil _), if_neg (hnil _), convertBinary_lineOf, convertBinary_lineOf]
  exact congrArg _ h

/-- Two lists of differences whose lines have one output. -/
structure Collide (m : ℕ) (ds es : List ℕ) : Prop where
  length_left : ds.length = m
  length_right : es.length = m
  sum_left : ds.sum < 2 ^ 31
  sum_right : es.sum < 2 ^ 31
  ne : ds ≠ es
  encode_eq : encodeWords (wordsOf ds) = encodeWords (wordsOf es)

/-- Eight words or more: the run code and the plane that looks like it change places. -/
theorem collide_long (j : ℕ) : Collide (j + 7) (deltasA j) (deltasB j) := by
  refine ⟨by simp [deltasA], by simp [deltasB], sum_deltasA j, sum_deltasB j, fun h => ?_, ?_⟩
  · cases j with
    | zero => exact absurd h (by decide)
    | succ j => simp [deltasA, deltasB, List.replicate_succ] at h
  · rw [encodeWords_deltasA, encodeWords_deltasB, show zeroCode 10 = runTen from rfl]
    simp only [List.append_assoc]

/-! Five to seven words: the same with other run codes. -/

theorem collide_four : Collide 4 [8192, 0, 8191, 0] [16383, 1, 0, 1] :=
  ⟨rfl, rfl, by decide, by decide, by decide, by decide +kernel⟩

theorem collide_five : Collide 5 [8191, 4095, 0, 0, 4095] [8191, 1, 0, 1, 0] :=
  ⟨rfl, rfl, by decide, by decide, by decide, by decide +kernel⟩

theorem collide_six : Collide 6 [2048, 0, 2047, 0, 0, 0] [4095, 1, 0, 1, 0, 0] :=
  ⟨rfl, rfl, by decide, by decide, by decide, by decide +kernel⟩

theorem exists_collide {m : ℕ} (h : 4 ≤ m) : ∃ ds es, Collide m ds es := by
  obtain rfl | rfl | rfl | h7 : m = 4 ∨ m = 5 ∨ m = 6 ∨ 7 ≤ m := by omega
  · exact ⟨_, _, collide_four⟩
  · exact ⟨_, _, collide_five⟩
  · exact ⟨_, _, collide_six⟩
  · obtain ⟨j, rfl⟩ : ∃ j, m = j + 7 := ⟨m - 7, by omega⟩
    exact ⟨_, _, collide_long j⟩

/-- **From five words on two lines share an output.** -/
theorem run_collision {n : ℕ} (h : 5 ≤ n) :
    ∃ a b : List UInt8, a.length = 4 * n ∧ b.length = 4 * n ∧ a ≠ b ∧ run a = run b := by
  obtain ⟨m, rfl⟩ : ∃ m, n = m + 1 := ⟨n - 1, by omega⟩
  obtain ⟨ds, es, hc⟩ := exists_collide (m := m) (by omega)
  refine ⟨lineOf (accumulate 0 ds), lineOf (accumulate 0 es), ?_, ?_,
    lineOf_ne hc.sum_left hc.sum_right hc.ne, run_eq_of_wordsOf hc.encode_eq⟩
  · rw [length_lineOf, length_accumulate, hc.length_left]
  · rw [length_lineOf, length_accumulate, hc.length_right]

/-! ## The line lengths that can be decoded -/

/-- Different lines of `n` words have outputs, and these differ. -/
def UniquelyDecodable (n : ℕ) : Prop :=
  ∀ a b : List UInt8, a.length = 4 * n → b.length = 4 * n → a ≠ b →
    ∃ s t, run a = some s ∧ run b = some t ∧ s.output ≠ t.output

/-- A code of a plane that is not stored as it is, or of a run of zero planes. -/
def IsRowCode (code : Str) : Prop :=
  (∃ k, 1 ≤ k ∧ code = zeroCode k) ∨ ∃ m p x, rowCode m p x = some code

/-- The planes of `n` words that are stored as they are begin with something that no code
begins with. -/
def RawPrefixed (n : ℕ) : Prop :=
  ∀ a : List UInt8, a.length = 4 * n → ∀ p x,
    (p, x) ∈ (planes (convertBinary (rawData a))).zip (getDbx (planes (convertBinary (rawData a)))) →
    x ≠ List.replicate (n - 1) '0' → rowCode (n - 1) p x = none →
    ∃ pre, pre <+: x ∧ ∀ code, IsRowCode code → ¬ pre <+: code

theorem head_of_isRowCode {code : Str} (h : IsRowCode code) : code.head? = some '0' := by
  rcases h with ⟨k, -, rfl⟩ | ⟨m, p, x, h⟩
  · unfold zeroCode
    split <;> rfl
  · exact head_of_rowCode h

theorem rawPrefixed_of_le {n : ℕ} (hn : n ≤ 4) : RawPrefixed n := by
  intro a ha p x hpx hnz hnone
  have hone := rawOne_of_length_le hn (length_convertBinary ha) p x hpx hnz hnone
  obtain ⟨t, ht⟩ : ∃ t, x = '1' :: t := by
    cases x with
    | nil => simp at hone
    | cons c t => exact ⟨t, by rw [show c = '1' by simpa using hone]⟩
  refine ⟨['1'], ⟨t, by rw [ht]; rfl⟩, fun code hcode hpre => ?_⟩
  obtain ⟨u, rfl⟩ := hpre
  have hhead := head_of_isRowCode hcode
  simp at hhead

/-- **Lines of `n` words can be told apart exactly for `n ≤ 4`**, and a line of one word has
no output at all. -/
theorem decodable_iff (n : ℕ) :
    (UniquelyDecodable n ∧ RawPrefixed n) ↔ n ≠ 1 ∧ n ≤ 4 := by
  constructor
  · rintro ⟨hdec, -⟩
    constructor
    · rintro rfl
      obtain ⟨s, -, hs, -⟩ := hdec [0, 0, 0, 0] [0, 0, 0, 1] rfl rfl (by decide)
      rw [show run [0, 0, 0, 0] = none from rfl] at hs
      exact absurd hs (by simp)
    · by_contra hn
      obtain ⟨a, b, ha, hb, hne, hrun⟩ := run_collision (n := n) (by omega)
      obtain ⟨s, t, hs, ht, hst⟩ := hdec a b ha hb hne
      rw [hrun, ht] at hs
      exact hst (by rw [Option.some.inj hs])
  · rintro ⟨h1, h4⟩
    refine ⟨fun a b ha hb hne => ?_, rawPrefixed_of_le h4⟩
    have h2 : 2 ≤ n := by
      have h0 : n ≠ 0 := by
        rintro rfl
        exact hne ((List.eq_nil_of_length_eq_zero ha).trans
          (List.eq_nil_of_length_eq_zero hb).symm)
      omega
    have hout : ∀ c : List UInt8, c.length = 4 * n →
        ∃ out, encodeWords (convertBinary (rawData c)) = some out ∧
          run c = some ⟨out, (out.length + 7) / 8, out.length⟩ := by
      intro c hc
      have hcne : c ≠ [] := by
        rintro rfl
        simp at hc
        omega
      have hwords : 2 ≤ (convertBinary (rawData c)).length := by
        rw [length_convertBinary hc]
        exact h2
      have henc := encodeWords_eq hwords
      exact ⟨_, henc, by rw [run, if_neg hcne, henc]; rfl⟩
    obtain ⟨s, hs, hrs⟩ := hout a ha
    obtain ⟨t, ht, hrt⟩ := hout b hb
    refine ⟨_, _, hrs, hrt, fun heq => hne ?_⟩
    refine convertBinary_inj ha hb ?_
    refine encodeWords_inj_of_rawOne h2 (by omega) (fun _ => isBinWord_of_mem ha)
      (fun _ => isBinWord_of_mem hb) (length_convertBinary ha) (length_convertBinary hb)
      (rawOne_of_length_le h4 (length_convertBinary ha))
      (rawOne_of_length_le h4 (length_convertBinary hb)) ?_
    rw [hs, ht]
    exact congrArg some heq

/-- Two lines of eight words with the same output. -/
theorem two_lines_one_output :
    ¬ ∀ a b : List UInt8, a.length = b.length → a ≠ b →
      (run a).map Result.output ≠ (run b).map Result.output := by
  intro h
  exact h (lineOf [0, 4095, 6142, 6142, 8189, 8189, 8189, 8189])
    (lineOf [0, 4095, 4096, 4096, 4097, 4097, 4097, 4097]) (by decide +kernel)
    (by decide +kernel) (by decide +kernel)

end CompressionWork.Bpc
