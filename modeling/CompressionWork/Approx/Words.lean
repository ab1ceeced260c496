import CompressionWork.Approx.Approximate

/-!
# Loops over the words of a block

* `pass_spec` — a loop whose body rewrites one word rewrites them all.
* `setZeroWord_spec`, `compensateWord_spec`, `putNibble_spec` — what the bodies make of a word.
-/

namespace CompressionWork.Approx

variable {data data' : List UInt8} {interval size i j k : ℕ} {v : UInt8} {r : UInt32}

/-- A byte of the block. -/
def byteAt (data : List UInt8) (k : ℕ) : UInt8 := data.getD k 0

theorem getElem?_of_lt (hk : k < data.length) : data[k]? = some (byteAt data k) := by
  rw [byteAt, List.getD_eq_getElem?_getD, List.getElem?_eq_getElem hk, Option.getD_some]

theorem getElem?_of_le (hk : data.length ≤ k) : data[k]? = none := List.getElem?_eq_none hk

theorem byteAt_of_le (hk : data.length ≤ k) : byteAt data k = 0 := by
  rw [byteAt, List.getD_eq_getElem?_getD, getElem?_of_le hk, Option.getD_none]

theorem byteAt_set (hi : i < data.length) : byteAt (data.set i v) k = if k = i then v else byteAt data k := by
  rw [byteAt, byteAt, List.getD_eq_getElem?_getD, List.getD_eq_getElem?_getD, List.getElem?_set]
  by_cases hki : k = i
  · rw [if_pos hki, if_pos hki.symm, if_pos hi, Option.getD_some]
  · rw [if_neg hki, if_neg (Ne.symm hki)]

theorem setByte_of_lt (hi : i < data.length) : setByte data i v = some (data.set i v) := if_pos hi

/-- The word that a byte is in. -/
def wordAt (data : List UInt8) (i : ℕ) : ℕ → UInt8 := fun c => byteAt data (i + c)

/-- A loop body that rewrites the word at `i`. -/
def Rewrites (interval size : ℕ) (g : (ℕ → UInt8) → ℕ → UInt8)
    (body : List UInt8 → ℕ → Option (List UInt8)) : Prop :=
  ∀ data : List UInt8, data.length = size → ∀ i, i + interval ≤ size →
    ∃ data', body data i = some data' ∧ data'.length = size ∧ ∀ k < size,
      byteAt data' k = if i ≤ k ∧ k < i + interval then g (wordAt data i) (k - i) else byteAt data k

theorem wordStarts_eq (hpos : 0 < interval) (n : ℕ) :
    wordStarts interval (n * interval) = (List.range n).map (· * interval) := by
  have hdiv : (n * interval + interval - 1) / interval = n := by
    rw [Nat.add_sub_assoc hpos, Nat.add_comm, Nat.add_mul_div_right _ _ hpos,
      Nat.div_eq_of_lt (Nat.sub_lt hpos Nat.one_pos), Nat.zero_add]
  rw [wordStarts, hdiv]

/-- The loop after `n` words. -/
theorem foldlM_words {g : (ℕ → UInt8) → ℕ → UInt8} {body : List UInt8 → ℕ → Option (List UInt8)}
    (hpos : 0 < interval) (hbody : Rewrites interval size g body) (hlen : data.length = size) {n : ℕ}
    (hn : n * interval ≤ size) :
    ∃ data', ((List.range n).map (· * interval)).foldlM body data = some data' ∧ data'.length = size ∧
      ∀ k < size, byteAt data' k =
        if k < n * interval then g (wordAt data (k / interval * interval)) (k % interval) else byteAt data k := by
  induction n with
  | zero => exact ⟨data, rfl, hlen, fun k _ => by rw [if_neg (by omega)]⟩
  | succ n ih =>
    rw [Nat.succ_mul] at hn
    obtain ⟨mid, hmid, hmidLen, hmidByte⟩ := ih (by omega)
    obtain ⟨data', hdata', hlen', hbyte⟩ := hbody mid hmidLen (n * interval) hn
    refine ⟨data', ?_, hlen', fun k hk => ?_⟩
    · rw [List.range_succ, List.map_append, List.foldlM_append, hmid]
      simp [hdata']
    · rw [hbyte k hk, Nat.succ_mul]
      by_cases hdone : k < n * interval
      · rw [if_neg (by omega), if_pos (by omega), hmidByte k hk, if_pos hdone]
      · by_cases hword : k < n * interval + interval
        · -- the word has not been touched yet
          have hdiv : k / interval = n :=
            Nat.div_eq_of_lt_le (Nat.le_of_not_lt hdone) (by rw [Nat.succ_mul]; exact hword)
          have hmod : k % interval = k - n * interval := by
            have := Nat.div_add_mod k interval
            rw [hdiv, Nat.mul_comm] at this
            omega
          have hsame : wordAt mid (n * interval) = wordAt data (n * interval) := by
            funext c
            by_cases hc : n * interval + c < size
            · exact (hmidByte _ hc).trans (if_neg (by omega))
            · rw [wordAt, wordAt, byteAt_of_le (by omega), byteAt_of_le (by omega)]
          rw [if_pos ⟨by omega, hword⟩, if_pos hword, hdiv, hmod, hsame]
        · rw [if_neg (by omega), if_neg (by omega), hmidByte k hk, if_neg hdone]

/-- A loop over the words of a block. -/
theorem pass_spec {g : (ℕ → UInt8) → ℕ → UInt8} {body : List UInt8 → ℕ → Option (List UInt8)}
    (hpos : 0 < interval) (hdvd : interval ∣ data.length) (hbody : Rewrites interval data.length g body) :
    ∃ data', forWords interval body data = some data' ∧ data'.length = data.length ∧
      ∀ k < data.length, byteAt data' k = g (wordAt data (k / interval * interval)) (k % interval) := by
  obtain ⟨n, hn⟩ := hdvd
  rw [Nat.mul_comm] at hn
  obtain ⟨data', hdata', hlen, hbyte⟩ := foldlM_words hpos hbody rfl (Nat.le_of_eq hn.symm)
  refine ⟨data', ?_, hlen, fun k hk => by rw [hbyte k hk, if_pos (hn ▸ hk)]⟩
  rw [forWords, hn, wordStarts_eq hpos]
  exact hdata'

/-! ## The bodies -/

/-- `SET_ZERO` of one byte. -/
def zeroByte (r : UInt32) (w : ℕ → UInt8) (c : ℕ) : UInt8 :=
  if c < lastByteIndex r then 0 else if c = lastByteIndex r then w c &&& lastByteMask r else w c

theorem foldlM_setByte (data : List UInt8) (i n : ℕ) (hn : i + n ≤ data.length) :
    ∃ data', (List.range n).foldlM (fun data j => setByte data (i + j) 0) data = some data' ∧
      data'.length = data.length ∧ ∀ k, byteAt data' k = if i ≤ k ∧ k < i + n then 0 else byteAt data k := by
  induction n with
  | zero => exact ⟨data, rfl, rfl, fun k => by rw [if_neg (by omega)]⟩
  | succ n ih =>
    obtain ⟨mid, hmid, hmidLen, hmidByte⟩ := ih (by omega)
    have hlt : i + n < mid.length := by omega
    refine ⟨mid.set (i + n) 0, ?_, by rw [List.length_set, hmidLen], fun k => ?_⟩
    · rw [List.range_succ, List.foldlM_append, hmid]
      simp [setByte_of_lt hlt]
    · rw [byteAt_set hlt, hmidByte]
      by_cases hk : k = i + n
      · rw [if_pos hk, if_pos (by omega)]
      · rw [if_neg hk]
        by_cases hin : i ≤ k ∧ k < i + n
        · rw [if_pos hin, if_pos (by omega)]
        · rw [if_neg hin, if_neg (by omega)]

theorem setZeroWord_spec (hlast : lastByteIndex r < interval) :
    Rewrites interval size (zeroByte r) (setZeroWord r) := by
  intro data hsize i hi
  obtain ⟨mid, hmid, hmidLen, hmidByte⟩ := foldlM_setByte data i (lastByteIndex r) (by omega)
  have hlt : i + lastByteIndex r < mid.length := by omega
  refine ⟨mid.set (i + lastByteIndex r) (byteAt mid (i + lastByteIndex r) &&& lastByteMask r), ?_,
    by rw [List.length_set, hmidLen, hsize], fun k hk => ?_⟩
  · rw [setZeroWord, hmid, Option.bind_some, getElem?_of_lt hlt, Option.bind_some, setByte_of_lt hlt]
  · have hlastByte : byteAt mid (i + lastByteIndex r) = byteAt data (i + lastByteIndex r) := by
      rw [hmidByte, if_neg (by omega)]
    rw [byteAt_set hlt, hlastByte, hmidByte]
    unfold zeroByte wordAt
    by_cases hword : i ≤ k ∧ k < i + interval
    · rw [if_pos hword]
      by_cases hbelow : k < i + lastByteIndex r
      · rw [if_neg (by omega), if_pos (by omega), if_pos (by omega)]
      · by_cases hlast' : k = i + lastByteIndex r
        · rw [if_pos hlast', if_neg (by omega), if_pos (by omega), Nat.add_sub_cancel' hword.1, ← hlast']
        · rw [if_neg hlast', if_neg (by omega), if_neg (by omega), if_neg (by omega),
            Nat.add_sub_cancel' hword.1]
    · rw [if_neg hword, if_neg (by omega), if_neg (by omega)]

/-- The replacement of nibble `j`, byte by byte. -/
def replaceNibble (j : ℕ) (v : UInt8) (w : ℕ → UInt8) (c : ℕ) : UInt8 :=
  if c = j / 2 then putNibble j (w c) v else w c

theorem putNibble_spec (hj : j / 2 < interval) : Rewrites interval size (replaceNibble j v)
    (fun data i => (data[i + j / 2]?).bind fun b => setByte data (i + j / 2) (putNibble j b v)) := by
  intro data hsize i hi
  have hlt : i + j / 2 < data.length := by omega
  refine ⟨data.set (i + j / 2) (putNibble j (byteAt data (i + j / 2)) v), ?_,
    by rw [List.length_set, hsize], fun k hk => ?_⟩
  · dsimp only
    rw [getElem?_of_lt hlt, Option.bind_some, setByte_of_lt hlt]
  · rw [byteAt_set hlt]
    unfold replaceNibble wordAt
    by_cases hword : i ≤ k ∧ k < i + interval
    · rw [if_pos hword, Nat.add_sub_cancel' hword.1]
      by_cases hk' : k = i + j / 2
      · rw [if_pos hk', if_pos (by omega), hk']
      · rw [if_neg hk', if_neg (by omega)]
    · rw [if_neg hword, if_neg (by omega)]

end CompressionWork.Approx
