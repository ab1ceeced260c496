import CompressionWork.Line

/-!
# Bit-plane compression: the transform

The first half of `hpcl_comp_bpc_pl_proc.h`.  `run` writes the line as words of 32 binary
digits, replaces all words but the first by their differences from the word before (33-bit
two's complement), rotates the differences into bit planes (`dbp`, the plane of the lowest
bits first) and xors each plane with the next one (`dbx`).

* `convertBinary_inj` — the binary words determine the bytes of the line.
* `getDeltaValue_inj` — the first word and the differences determine the words.
* `rotateMat90_inj` — the planes determine the differences.
-/

namespace CompressionWork.Bpc

open Codec

/-! ## The source -/

/-- `WORD_SIZE_BPC`: the hexadecimal digits of a word. -/
def wordSizeBpc : ℕ := 8

/-- `raw_data`: the two digits of each byte, in the order the bytes are stored. -/
def rawData (cacheData : List UInt8) : Str :=
  cacheData.flatMap fun b => [hexDigit (b.toNat / 16), hexDigit (b.toNat % 16)]

/-- `convert_binary`. -/
def convertBinary (rawData : Str) : List Str := (chunks wordSizeBpc rawData).map hexToBin

/-- `get_num`: the first digit counts negative. -/
def getNum (a : Str) : ℤ :=
  if a.headD '0' = '1' then (binaryValue a.tail : ℤ) - 2 ^ (a.length - 1) else binaryValue a

/-- `int_to_hex` of a `long`: sixteen digits. -/
def intToHexLong (i : ℤ) : Str := (digits 16 16 (i % 2 ^ 64).toNat).map hexDigit

/-- `calc_delta`: the last nine digits of the difference in binary, without the first three
bits. -/
def calcDelta (a b : Str) : Str :=
  (hexToBin ((intToHexLong (getNum b - getNum a)).drop 7)).drop 3

/-- `get_delta_value`: the first word, then the differences. -/
def getDeltaValue : List Str → List Str
  | [] => []
  | w :: ws => w :: List.zipWith calcDelta (w :: ws) ws

/-- `rotate_mat_90`.  It looks at `matrix[0]`; without a row there is no result. -/
def rotateMat90 : List Str → Option (List Str)
  | [] => none
  | s :: matrix =>
      some ((List.range s.length).map fun r =>
        (s :: matrix).map fun row => row.getD (s.length - 1 - r) '0')

/-- `get_xor`. -/
def getXor (a b : Str) : Str :=
  List.zipWith (fun c d => bitChar (bitVal c ^^^ bitVal d)) a b

/-- `get_dbx`: each plane xor the next; the last one stays. -/
def getDbx : List Str → List Str
  | [] => []
  | [a] => [a]
  | a :: b :: rest => getXor a b :: getDbx (b :: rest)

/-! ## From bytes to binary words -/

/-- The binary digits of a byte. -/
def byteBits (b : UInt8) : Str := getBinary (b.toNat / 16) 4 ++ getBinary (b.toNat % 16) 4

theorem hexToBin_rawData (cacheData : List UInt8) :
    hexToBin (rawData cacheData) = cacheData.flatMap byteBits := by
  induction cacheData with
  | nil => rfl
  | cons b bs ih =>
      have hb := b.toNat_lt
      have hhi : hexVal (hexDigit (b.toNat / 16)) = b.toNat / 16 := hexVal_hexDigit (by omega)
      have hlo : hexVal (hexDigit (b.toNat % 16)) = b.toNat % 16 := hexVal_hexDigit (by omega)
      rw [hexToBin] at ih
      rw [rawData, List.flatMap_cons, hexToBin, List.flatMap_append, ← rawData, ih,
        List.flatMap_cons]
      simp only [List.flatMap_cons, List.flatMap_nil, List.append_nil, hhi, hlo, byteBits]

theorem byteBits_inj {a b : UInt8} (h : byteBits a = byteBits b) : a = b := by
  have ha := a.toNat_lt
  have hb := b.toNat_lt
  obtain ⟨hhi, hlo⟩ := List.append_inj h (by simp)
  have h1 : a.toNat / 16 = b.toNat / 16 := getBinary_inj (by omega) (by omega) hhi
  have h2 : a.toNat % 16 = b.toNat % 16 := getBinary_inj (by omega) (by omega) hlo
  exact UInt8.toNat_inj.1 (by omega)

theorem length_rawData (cacheData : List UInt8) :
    (rawData cacheData).length = 2 * cacheData.length := by
  induction cacheData with
  | nil => rfl
  | cons b bs ih =>
      rw [rawData, List.flatMap_cons, List.length_append, ← rawData, ih, List.length_cons]
      simp only [List.length_cons, List.length_nil]
      omega

theorem flatten_convertBinary {n : ℕ} {cacheData : List UInt8} (h : cacheData.length = 4 * n) :
    (convertBinary (rawData cacheData)).flatten = cacheData.flatMap byteBits := by
  have hlen : (rawData cacheData).length = wordSizeBpc * n := by
    rw [length_rawData, h, wordSizeBpc]
    omega
  have hflat := flatten_chunks (by decide) hlen
  have hmap : ∀ ss : List Str, (ss.map hexToBin).flatten = hexToBin ss.flatten := by
    intro ss
    induction ss with
    | nil => rfl
    | cons s ss ih =>
        rw [List.map_cons, List.flatten_cons, ih, List.flatten_cons, hexToBin, hexToBin, hexToBin,
          List.flatMap_append]
  rw [convertBinary, hmap, hflat, hexToBin_rawData]

/-- **The binary words determine the bytes of the line.** -/
theorem convertBinary_inj {n : ℕ} {a b : List UInt8} (ha : a.length = 4 * n)
    (hb : b.length = 4 * n) (h : convertBinary (rawData a) = convertBinary (rawData b)) :
    a = b := by
  have hflat := congrArg List.flatten h
  rw [flatten_convertBinary ha, flatten_convertBinary hb] at hflat
  have hlen : a.length = b.length := by rw [ha, hb]
  clear ha hb h
  induction a generalizing b with
  | nil => exact (List.eq_nil_of_length_eq_zero hlen.symm).symm
  | cons x a ih =>
      cases b with
      | nil => simp at hlen
      | cons y b =>
          rw [List.flatMap_cons, List.flatMap_cons] at hflat
          obtain ⟨hxy, hab⟩ := List.append_inj hflat (by simp [byteBits])
          rw [byteBits_inj hxy, ih hab (by simpa using hlen)]

theorem length_convertBinary {n : ℕ} {cacheData : List UInt8} (h : cacheData.length = 4 * n) :
    (convertBinary (rawData cacheData)).length = n := by
  rw [convertBinary, List.length_map]
  refine length_chunks (by decide) ?_
  rw [length_rawData, h, wordSizeBpc]
  omega

/-- A word of 32 binary digits. -/
def IsBinWord (w : Str) : Prop := w.length = 32 ∧ IsBin w

theorem isBinWord_of_mem {n : ℕ} {cacheData : List UInt8} (h : cacheData.length = 4 * n)
    {w : Str} (hw : w ∈ convertBinary (rawData cacheData)) : IsBinWord w := by
  obtain ⟨s, hs, rfl⟩ := List.mem_map.1 hw
  have hlen : s.length = wordSizeBpc := by
    refine length_of_mem_chunks (m := n) (by decide) ?_ hs
    rw [length_rawData, h, wordSizeBpc]
    omega
  exact ⟨by rw [length_hexToBin, hlen]; rfl, isBin_hexToBin s⟩

/-! ## Differences -/

/-- `calc_delta` gives the lowest 33 bits of the difference. -/
theorem calcDelta_eq (a b : Str) :
    calcDelta a b = getBinary ((getNum b - getNum a) % 2 ^ 64).toNat 33 := by
  have hdig : ∀ d ∈ digits 16 9 ((getNum b - getNum a) % 2 ^ 64).toNat, d < 16 :=
    fun d hd => digits_lt (by decide) hd
  have hdrop : (intToHexLong (getNum b - getNum a)).drop 7 =
      (digits 16 9 ((getNum b - getNum a) % 2 ^ 64).toNat).map hexDigit := by
    rw [intToHexLong, ← List.map_drop, drop_digits 16 7 9]
  have hbits := digits_flatMap 2 4 9 ((getNum b - getNum a) % 2 ^ 64).toNat
  rw [show (2 : ℕ) ^ 4 = 16 from rfl] at hbits
  rw [calcDelta, hdrop, hexToBin_map_hexDigit hdig, hbits, ← List.map_drop, getBinary]
  exact congrArg _ (drop_digits 2 3 33 _)

/-- The number of a string of `k + 1` binary digits in two's complement. -/
theorem getNum_signed {k : ℕ} {a : Str} (hlen : a.length = k + 1) (ha : IsBin a) :
    -2 ^ k ≤ getNum a ∧ getNum a < 2 ^ k ∧ getNum a % 2 ^ (k + 1) = (binaryValue a : ℤ) := by
  obtain ⟨c, s, rfl⟩ := List.exists_cons_of_length_pos (l := a) (by omega)
  have hs : s.length = k := by simpa using hlen
  have hval := binaryValue_cons c s
  have hlt := binaryValue_lt s
  rw [hs] at hval hlt
  have hlt' : (binaryValue s : ℤ) < 2 ^ k := by exact_mod_cast hlt
  have hpow : (2 : ℤ) ^ (k + 1) = 2 * 2 ^ k := by rw [pow_succ]; ring
  rcases ha c (by simp) with rfl | rfl
  · have hnum : getNum ('0' :: s) = (binaryValue s : ℤ) := by
      rw [getNum, List.headD_cons, if_neg (by decide), hval]
      simp [bitVal]
    have hvalue : (binaryValue ('0' :: s) : ℤ) = binaryValue s := by
      rw [hval]
      simp [bitVal]
    rw [hnum, hvalue, hpow]
    refine ⟨by omega, hlt', Int.emod_eq_of_lt (by omega) (by omega)⟩
  · have hnum : getNum ('1' :: s) = (binaryValue s : ℤ) - 2 ^ k := by
      rw [getNum, List.headD_cons, if_pos rfl, List.tail_cons, List.length_cons, hs,
        Nat.add_sub_cancel]
    have hvalue : (binaryValue ('1' :: s) : ℤ) = 2 ^ k + binaryValue s := by
      rw [hval]
      simp [bitVal]
    rw [hnum, hvalue, hpow]
    refine ⟨by omega, by omega, ?_⟩
    rw [← Int.add_emod_right, Int.emod_eq_of_lt (by omega) (by omega)]
    ring

theorem getNum_range {a : Str} (ha : IsBinWord a) :
    -2 ^ 31 ≤ getNum a ∧ getNum a < 2 ^ 31 ∧
      getNum a % 2 ^ 32 = (binaryValue a : ℤ) :=
  getNum_signed ha.1 ha.2

/-- A difference and the word before it determine a word. -/
theorem calcDelta_inj {a b c : Str} (hb : IsBinWord b) (hc : IsBinWord c)
    (h : calcDelta a b = calcDelta a c) : b = c := by
  rw [calcDelta_eq, calcDelta_eq] at h
  have hv := congrArg binaryValue h
  rw [binaryValue_getBinary, binaryValue_getBinary] at hv
  obtain ⟨hb1, hb2, hbv⟩ := getNum_range hb
  obtain ⟨hc1, hc2, hcv⟩ := getNum_range hc
  have hnum : getNum b = getNum c := by omega
  exact binaryValue_inj hb.2 hc.2 (by rw [hb.1, hc.1]) (by omega)

/-- **The first word and the differences determine the words.** -/
theorem getDeltaValue_inj {ws vs : List Str} (hw : ∀ w ∈ ws, IsBinWord w)
    (hv : ∀ v ∈ vs, IsBinWord v) (hlen : ws.length = vs.length)
    (h : getDeltaValue ws = getDeltaValue vs) : ws = vs := by
  induction ws generalizing vs with
  | nil => exact (List.eq_nil_of_length_eq_zero hlen.symm).symm
  | cons w ws ih =>
      cases vs with
      | nil => simp at hlen
      | cons v vs =>
          rw [getDeltaValue, getDeltaValue, List.cons.injEq] at h
          obtain ⟨rfl, hzip⟩ := h
          cases ws with
          | nil =>
              rw [List.eq_nil_of_length_eq_zero (l := vs) (by simpa using hlen.symm)]
          | cons w' ws =>
              cases vs with
              | nil => simp at hlen
              | cons v' vs =>
                  rw [List.zipWith_cons_cons, List.zipWith_cons_cons, List.cons.injEq] at hzip
                  have hwv : w' = v' :=
                    calcDelta_inj (hw w' (by simp)) (hv v' (by simp)) hzip.1
                  subst hwv
                  have hrest : w' :: ws = w' :: vs :=
                    ih (fun u hu => hw u (List.mem_cons_of_mem _ hu))
                      (fun u hu => hv u (List.mem_cons_of_mem _ hu)) (by simpa using hlen)
                      (by rw [getDeltaValue, getDeltaValue, hzip.2])
                  rw [hrest]

/-- The differences of a list of words. -/
def deltas (words : List Str) : List Str := List.zipWith calcDelta words words.tail

theorem getDeltaValue_cons (w : Str) (ws : List Str) :
    getDeltaValue (w :: ws) = w :: deltas (w :: ws) := rfl

@[simp] theorem length_deltas (words : List Str) : (deltas words).length = words.length - 1 := by
  rw [deltas, List.length_zipWith, List.length_tail]
  omega

theorem isBin_calcDelta (a b : Str) : IsBin (calcDelta a b) := by
  rw [calcDelta_eq]
  exact isBin_getBinary _ _

@[simp] theorem length_calcDelta (a b : Str) : (calcDelta a b).length = 33 := by
  rw [calcDelta_eq, length_getBinary]

/-- What holds of all differences of two words holds of `deltas`. -/
theorem of_mem_deltas {P : Str → Prop} (hP : ∀ a b, P (calcDelta a b)) {words : List Str}
    {s : Str} (h : s ∈ deltas words) : P s := by
  have hzip : ∀ as bs : List Str, s ∈ List.zipWith calcDelta as bs → P s := by
    intro as
    induction as with
    | nil => intro bs hs; simp at hs
    | cons a as ih =>
        intro bs hs
        cases bs with
        | nil => simp at hs
        | cons b bs =>
            rw [List.zipWith_cons_cons, List.mem_cons] at hs
            rcases hs with hs | hs
            · rw [hs]
              exact hP a b
            · exact ih bs hs
  exact hzip _ _ h

theorem length_of_mem_deltas {words : List Str} {s : Str} (h : s ∈ deltas words) :
    s.length = 33 :=
  of_mem_deltas (P := fun s => s.length = 33) length_calcDelta h

theorem isBin_of_mem_deltas {words : List Str} {s : Str} (h : s ∈ deltas words) : IsBin s :=
  of_mem_deltas isBin_calcDelta h

/-! ## Bit planes -/

/-- The planes of a matrix whose rows have length `k`. -/
theorem rotateMat90_eq {k : ℕ} {matrix : List Str} (hne : matrix ≠ [])
    (hk : ∀ s ∈ matrix, s.length = k) :
    rotateMat90 matrix =
      some ((List.range k).map fun r => matrix.map fun row => row.getD (k - 1 - r) '0') := by
  obtain ⟨s, rest, rfl⟩ := List.exists_cons_of_ne_nil hne
  rw [rotateMat90, hk s (List.mem_cons_self ..)]

/-- **The planes determine the matrix.** -/
theorem rotateMat90_inj {k : ℕ} {xs ys : List Str} (hxne : xs ≠ []) (hyne : ys ≠ [])
    (hx : ∀ s ∈ xs, s.length = k) (hy : ∀ s ∈ ys, s.length = k)
    (hlen : xs.length = ys.length) (h : rotateMat90 xs = rotateMat90 ys) : xs = ys := by
  rw [rotateMat90_eq hxne hx, rotateMat90_eq hyne hy, Option.some.injEq] at h
  refine List.ext_getElem hlen fun i hix hiy => ?_
  have hxi : xs[i].length = k := hx _ (List.getElem_mem _)
  have hyi : ys[i].length = k := hy _ (List.getElem_mem _)
  refine List.ext_getElem (by rw [hxi, hyi]) fun j hjx hjy => ?_
  -- entry `(i, j)` is entry `i` of plane `k - 1 - j`
  have hj : j < k := by rw [← hxi]; exact hjx
  have hrow := (List.map_inj_left.1 h) (k - 1 - j) (List.mem_range.2 (by omega))
  have hcol := congrArg (fun l : List Char => l[i]?) hrow
  simp only [List.getElem?_map, List.getElem?_eq_getElem hix, List.getElem?_eq_getElem hiy,
    Option.map_some, Option.some.injEq, show k - 1 - (k - 1 - j) = j by omega,
    List.getD_eq_getElem?_getD, List.getElem?_eq_getElem hjx, List.getElem?_eq_getElem hjy,
    Option.getD_some] at hcol
  exact hcol

end CompressionWork.Bpc
