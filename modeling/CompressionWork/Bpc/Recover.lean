import CompressionWork.Bpc.Decode

/-!
# Bit-plane compression: the transform loses nothing

What `run` encodes is the first word of the line and the matrix `dbx`.  Going back is the
three steps of the transform, last one first.

* `undoDbx` xors the planes from the last one upwards.
* `rotateBack` turns the planes into rows again.
* `sumDeltas` adds the differences to the first word, modulo 2³².

`dbx_determines_line` says that this gives every word of the line, and that no other line of
the same length has the same first word and the same matrix.
-/

namespace CompressionWork.Bpc

open Codec

/-- The matrix `run` encodes: the differences, rotated into planes and xored. -/
def dbxOf (rawBinaryData : List Str) : Option (List Str) :=
  (rotateMat90 (getDeltaValue rawBinaryData).tail).map getDbx

/-! ## The way back -/

/-- Each plane of `dbx` xor the plane of `dbp` after it. -/
def undoDbx : List Str → List Str
  | [] => []
  | x :: xs =>
      match undoDbx xs with
      | [] => [x]
      | p :: ps => getXor x p :: p :: ps

/-- The matrix whose planes are given; the lowest bits are in the first plane. -/
def rotateBack (planes : List Str) : List Str :=
  (List.range (planes.headD []).length).map fun i =>
    (List.range planes.length).map fun j => (planes.getD (planes.length - 1 - j) []).getD i '0'

/-- The word after `w`, by the difference `delta`. -/
def addDelta (w delta : Str) : Str :=
  getBinary ((getNum w + getNum delta) % 2 ^ 32).toNat 32

/-- The words from the first one and the differences. -/
def sumDeltas : Str → List Str → List Str
  | w, [] => [w]
  | w, d :: ds => w :: sumDeltas (addDelta w d) ds

/-- The words of the line.  A line of one word has no matrix. -/
def recover (base : Str) : Option (List Str) → List Str
  | none => [base]
  | some dbx => sumDeltas base (rotateBack (undoDbx dbx))

/-! ## The xor -/

theorem getXor_getXor {a b : Str} (ha : IsBin a) (hb : IsBin b) (h : a.length = b.length) :
    getXor (getXor a b) b = a := by
  induction a generalizing b with
  | nil => rfl
  | cons c a ih =>
      cases b with
      | nil => simp at h
      | cons d b =>
          have hrest : getXor (getXor a b) b = a :=
            ih (fun e he => ha e (List.mem_cons_of_mem _ he))
              (fun e he => hb e (List.mem_cons_of_mem _ he)) (by simpa using h)
          have hdigit : bitChar (bitVal (bitChar (bitVal c ^^^ bitVal d)) ^^^ bitVal d) = c := by
            rcases ha c (by simp) with rfl | rfl <;> rcases hb d (by simp) with rfl | rfl <;>
              decide
          rw [getXor, getXor, List.zipWith_cons_cons, List.zipWith_cons_cons, hdigit,
            ← getXor, ← getXor, hrest]

/-- **XOR-accumulating `dbx` gives back the planes.** -/
theorem undoDbx_getDbx {m : ℕ} {ps : List Str} (hps : ∀ p ∈ ps, IsBin p ∧ p.length = m) :
    undoDbx (getDbx ps) = ps := by
  induction ps with
  | nil => rfl
  | cons p ps ih =>
      have hrest := ih fun q hq => hps q (List.mem_cons_of_mem _ hq)
      rw [getDbx_cons, undoDbx, hrest]
      cases ps with
      | nil => rfl
      | cons q ps =>
          obtain ⟨hp, hpm⟩ := hps p (by simp)
          obtain ⟨hq, hqm⟩ := hps q (by simp)
          simp only [xorNext]
          rw [getXor_getXor hp hq (by rw [hpm, hqm])]

/-! ## The rotation -/

/-- **Rotating back gives the matrix.** -/
theorem rotateBack_rotate {k : ℕ} (hk : 0 < k) {matrix : List Str}
    (hm : ∀ s ∈ matrix, s.length = k) :
    rotateBack ((List.range k).map fun r => matrix.map fun row => row.getD (k - 1 - r) '0') =
      matrix := by
  have hhead : (((List.range k).map fun r =>
      matrix.map fun row => row.getD (k - 1 - r) '0').headD []).length = matrix.length := by
    obtain ⟨k, rfl⟩ := Nat.exists_eq_succ_of_ne_zero hk.ne'
    rw [List.range_succ_eq_map, List.map_cons, List.headD_cons, List.length_map]
  rw [rotateBack, hhead]
  refine List.ext_getElem (by simp) fun i hi hi' => ?_
  have hrow : matrix[i].length = k := hm _ (List.getElem_mem _)
  refine List.ext_getElem (by simp [hrow]) fun j hj hj' => ?_
  have hjk : j < k := by rwa [hrow] at hj'
  -- entry `(i, j)` is entry `i` of plane `k - 1 - j`
  have hplane : k - 1 - j < k := by omega
  simp [List.getD_eq_getElem?_getD, List.getElem?_range hplane, hi',
    show k - 1 - (k - 1 - j) = j by omega, hjk, hrow]

/-! ## The differences -/

/-- **The 33 bits hold the difference of any two words.** -/
theorem getNum_calcDelta {a b : Str} (ha : IsBinWord a) (hb : IsBinWord b) :
    getNum (calcDelta a b) = getNum b - getNum a := by
  obtain ⟨hlow, hhigh, hmod⟩ := getNum_signed (length_calcDelta a b) (isBin_calcDelta a b)
  rw [calcDelta_eq, binaryValue_getBinary] at hmod
  rw [calcDelta_eq] at hlow hhigh ⊢
  obtain ⟨ha1, ha2, -⟩ := getNum_range ha
  obtain ⟨hb1, hb2, -⟩ := getNum_range hb
  omega

theorem addDelta_calcDelta {a b : Str} (ha : IsBinWord a) (hb : IsBinWord b) :
    addDelta a (calcDelta a b) = b := by
  obtain ⟨-, -, hmod⟩ := getNum_range hb
  have hlt := binaryValue_lt b
  rw [hb.1] at hlt
  rw [addDelta, getNum_calcDelta ha hb, add_sub_cancel, hmod, Int.toNat_natCast]
  refine binaryValue_inj (isBin_getBinary _ _) hb.2 (by rw [length_getBinary, hb.1]) ?_
  rw [binaryValue_getBinary, Nat.mod_eq_of_lt hlt]

/-- **Summing the differences from the first word gives every word.** -/
theorem sumDeltas_deltas {w : Str} {ws : List Str} (h : ∀ v ∈ w :: ws, IsBinWord v) :
    sumDeltas w (deltas (w :: ws)) = w :: ws := by
  induction ws generalizing w with
  | nil => rfl
  | cons v ws ih =>
      have hsplit : deltas (w :: v :: ws) = calcDelta w v :: deltas (v :: ws) := rfl
      rw [hsplit, sumDeltas, addDelta_calcDelta (h w (by simp)) (h v (by simp)),
        ih fun u hu => h u (List.mem_cons_of_mem _ hu)]

theorem map_getNum_deltas {words : List Str} (h : ∀ w ∈ words, IsBinWord w) :
    (deltas words).map getNum =
      List.zipWith (fun a b => getNum b - getNum a) words words.tail := by
  induction words with
  | nil => rfl
  | cons w ws ih =>
      cases ws with
      | nil => rfl
      | cons v ws =>
          have hrest := ih fun u hu => h u (List.mem_cons_of_mem _ hu)
          have hsplit : deltas (w :: v :: ws) = calcDelta w v :: deltas (v :: ws) := rfl
          rw [hsplit, List.map_cons, hrest, getNum_calcDelta (h w (by simp)) (h v (by simp))]
          rfl

/-! ## Lines -/

theorem dbxOf_eq {words : List Str} (h : 2 ≤ words.length) :
    dbxOf words = some (getDbx (planes words)) := by
  have hrot := rotateMat90_deltas h
  obtain ⟨w, ws, rfl⟩ := List.exists_cons_of_length_pos (l := words) (by omega)
  rw [dbxOf, getDeltaValue_cons, List.tail_cons, hrot, Option.map_some]

theorem recover_dbxOf {words : List Str} (hne : words ≠ []) (h : ∀ w ∈ words, IsBinWord w) :
    recover (words.headD []) (dbxOf words) = words := by
  obtain ⟨w, ws, rfl⟩ := List.exists_cons_of_ne_nil hne
  rw [List.headD_cons]
  cases ws with
  | nil => rfl
  | cons v ws =>
      have hback : rotateBack (planes (w :: v :: ws)) = deltas (w :: v :: ws) :=
        rotateBack_rotate (by decide) fun _ hs => length_of_mem_deltas hs
      rw [dbxOf_eq (by simp), recover,
        undoDbx_getDbx fun p hp => ⟨isBin_of_mem_planes hp, length_of_mem_planes hp⟩, hback,
        sumDeltas_deltas h]

/-- **The transform loses nothing.**  For a line of words: a matrix exists from the second
word on, its differences are those of the words as signed numbers, the first word and the
matrix give back every word, and no other line of the same length shares them. -/
theorem dbx_determines_line {n : ℕ} (hn : 0 < n) {cacheData : List UInt8}
    (hlen : cacheData.length = 4 * n) :
    let words := convertBinary (rawData cacheData)
    ((dbxOf words).isSome ↔ 2 ≤ n) ∧
    (getDeltaValue words).tail.map getNum =
      List.zipWith (fun a b => getNum b - getNum a) words words.tail ∧
    recover (words.headD []) (dbxOf words) = words ∧
    ∀ cacheData' : List UInt8, cacheData'.length = 4 * n →
      (convertBinary (rawData cacheData')).headD [] = words.headD [] →
      dbxOf (convertBinary (rawData cacheData')) = dbxOf words → cacheData' = cacheData := by
  intro words
  have hwords : words.length = n := length_convertBinary hlen
  have hbin : ∀ w ∈ words, IsBinWord w := fun w hw => isBinWord_of_mem hlen hw
  have hne : words ≠ [] := by
    intro hnil
    rw [hnil, List.length_nil] at hwords
    omega
  refine ⟨?_, ?_, recover_dbxOf hne hbin, ?_⟩
  · constructor
    · intro hsome
      by_contra hlt
      obtain ⟨w, hw⟩ := List.length_eq_one_iff.1 (show words.length = 1 by omega)
      rw [hw] at hsome
      simp [dbxOf, getDeltaValue, rotateMat90] at hsome
    · intro h2
      rw [dbxOf_eq (by omega), Option.isSome_some]
  · obtain ⟨w, ws, hcons⟩ := List.exists_cons_of_ne_nil hne
    have hdeltas := map_getNum_deltas hbin
    rw [hcons] at hdeltas ⊢
    rw [getDeltaValue_cons, List.tail_cons, hdeltas]
  · intro cacheData' hlen' hbase hdbx
    have hwords' : (convertBinary (rawData cacheData')).length = n := length_convertBinary hlen'
    have hne' : convertBinary (rawData cacheData') ≠ [] := by
      intro hnil
      rw [hnil, List.length_nil] at hwords'
      omega
    refine convertBinary_inj hlen' hlen ?_
    calc convertBinary (rawData cacheData')
        = recover ((convertBinary (rawData cacheData')).headD [])
            (dbxOf (convertBinary (rawData cacheData'))) :=
          (recover_dbxOf hne' fun w hw => isBinWord_of_mem hlen' hw).symm
      _ = recover (words.headD []) (dbxOf words) := by rw [hbase, hdbx]
      _ = words := recover_dbxOf hne hbin

/-- Two words as far apart as words can be: the difference is 2³² - 1. -/
theorem dbx_determines_line_extreme :
    let words := convertBinary (rawData [0x80, 0, 0, 0, 0x7f, 0xff, 0xff, 0xff])
    words.map getNum = [-2 ^ 31, 2 ^ 31 - 1] ∧
    (getDeltaValue words).tail.map getNum = [2 ^ 32 - 1] ∧
    recover (words.headD []) (dbxOf words) = words := by
  intro words
  obtain ⟨-, hdeltas, hrec, -⟩ := @dbx_determines_line 2 (by decide)
    [0x80, 0, 0, 0, 0x7f, 0xff, 0xff, 0xff] (by decide)
  refine ⟨by decide, ?_, hrec⟩
  rw [hdeltas]
  decide

end CompressionWork.Bpc
