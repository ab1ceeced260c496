import CompressionWork.Lwm.Lossless

/-!
# Local word matching: the accounts of the data segments

`run_lwm_algo` keeps the bits and the matches of every data segment, in the round in which a
segment ends.

* `charge`, `matchNo` — the bits and the matches of a list of tokens.
* `SegAccounts` — the invariant of the loop: up to the last word that ended a segment the
  accounts add up, and after it they are as they were made.
* `SegExact` — where segments consist of whole words, the account of each segment.
* `segments_add_up_iff` — the accounts sum to the bits of the line, and none is negative,
  exactly when segments consist of whole words and the line of whole segments.

The source adds the accounts into an `unsigned`, so a negative one wraps around.
-/

namespace CompressionWork.Lwm

variable {K : Type}

/-! ## Tokens -/

/-- The bits of a token: the flag, and what follows it. -/
def tokenCharge (k ptrBits : ℕ) (t : Token K) : ℕ := 1 + payloadBits k ptrBits t

/-- The bits of a list of tokens. -/
def charge (k ptrBits : ℕ) (ts : List (Token K)) : ℕ := (ts.map (tokenCharge k ptrBits)).sum

/-- The token points into the dictionary. -/
def Token.isPtr : Token K → Bool
  | .ptr _ _ => true
  | .raw _ => false

/-- The number of words that were found. -/
def matchNo (ts : List (Token K)) : ℕ := ts.countP Token.isPtr

theorem charge_append (k ptrBits : ℕ) (ts us : List (Token K)) :
    charge k ptrBits (ts ++ us) = charge k ptrBits ts + charge k ptrBits us := by
  simp [charge]

theorem matches_append (ts us : List (Token K)) : matchNo (ts ++ us) = matchNo ts + matchNo us :=
  List.countP_append

theorem charge_take_add_drop (k ptrBits a : ℕ) (ts : List (Token K)) :
    charge k ptrBits (ts.take a) + charge k ptrBits (ts.drop a) = charge k ptrBits ts := by
  rw [← charge_append, List.take_append_drop]

theorem matches_take_add_drop (a : ℕ) (ts : List (Token K)) :
    matchNo (ts.take a) + matchNo (ts.drop a) = matchNo ts := by
  rw [← matches_append, List.take_append_drop]

/-- Every token has its flag, and a pointer has its bits. -/
theorem le_charge (k ptrBits : ℕ) (ts : List (Token K)) :
    ts.length + ptrBits * matchNo ts ≤ charge k ptrBits ts := by
  induction ts with
  | nil => simp [matchNo, charge]
  | cons t ts ih =>
      simp only [matchNo, charge, List.countP_cons, List.map_cons, List.sum_cons,
        List.length_cons] at ih ⊢
      cases t with
      | raw word =>
          simp only [Token.isPtr, tokenCharge, payloadBits, Bool.false_eq_true, if_false,
            Nat.add_zero]
          omega
      | ptr i loc =>
          simp only [Token.isPtr, tokenCharge, payloadBits, if_true, Nat.mul_add, Nat.mul_one]
          omega

/-! ## The invariant -/

/-- The accounts after some rounds; `a` words ended the last segment, 0 where none has. -/
structure SegAccounts (k s ptrBits m : ℕ) (st : LwmState K) (a : ℕ) : Prop where
  size : st.compBitSize = 6 + charge k ptrBits st.tokens
  le : a ≤ st.tokens.length
  ends : s ∣ a * k
  last : ∀ b, a < b → b ≤ st.tokens.length → ¬ s ∣ b * k
  bitsLength : st.compDsBits.length = m
  matchLength : st.compDsMatchWordNo.length = m
  bitsDone : (st.compDsBits.take (a * k / s)).sum =
    if a = 0 then 0 else (6 + charge k ptrBits (st.tokens.take a) : ℤ)
  bitsRest : st.compDsBits.drop (a * k / s) = List.replicate (m - a * k / s) (-1)
  matchDone : (st.compDsMatchWordNo.take (a * k / s)).sum = matchNo (st.tokens.take a)
  matchRest : st.compDsMatchWordNo.drop (a * k / s) = List.replicate (m - a * k / s) 0
  since : st.matchingWordNo = matchNo (st.tokens.drop a)

/-- Segments of `q` words: the accounts up to segment `j` are the bits of its words and of those
before it. -/
def SegExact (k q ptrBits : ℕ) (st : LwmState K) : Prop :=
  ∀ j, (j + 1) * q ≤ st.tokens.length →
    (st.compDsBits.take (j + 1)).sum =
      (6 + charge k ptrBits (st.tokens.take ((j + 1) * q)) : ℤ)

section Accounts

variable {k s ptrBits m n : ℕ} {st : LwmState K} {a : ℕ}

/-- All accounts together: those up to the last segment that ended, and -1 for each one after. -/
theorem SegAccounts.sum_bits (h : SegAccounts k s ptrBits m st a) :
    st.compDsBits.sum =
      (if a = 0 then 0 else (6 + charge k ptrBits (st.tokens.take a) : ℤ)) -
        (m - a * k / s : ℕ) := by
  rw [← List.take_append_drop (a * k / s) st.compDsBits, List.sum_append, h.bitsDone, h.bitsRest,
    List.sum_replicate_int]
  omega

theorem SegAccounts.sum_match (h : SegAccounts k s ptrBits m st a) :
    st.compDsMatchWordNo.sum = matchNo (st.tokens.take a) := by
  rw [← List.take_append_drop (a * k / s) st.compDsMatchWordNo, List.sum_append, h.matchDone,
    h.matchRest, List.sum_replicate_nat]
  rfl

/-- A line of whole segments ends one with its last word. -/
theorem SegAccounts.eq_length (h : SegAccounts k s ptrBits (n * k / s) st a)
    (hn : st.tokens.length = n) (hend : s ∣ n * k) : a = n := by
  have hle := h.le
  by_contra hne
  exact h.last n (by omega) (by omega) hend

/-- A line that ends within a segment has words after the last one that ended a segment. -/
theorem SegAccounts.lt_length (h : SegAccounts k s ptrBits (n * k / s) st a)
    (hn : st.tokens.length = n) (hend : ¬ s ∣ n * k) : a < n := by
  have hle := h.le
  rcases Nat.lt_or_eq_of_le hle with hlt | rfl
  · omega
  · exact absurd (hn ▸ h.ends) hend

/-- The account of a segment: its words, and for the first one the header. -/
theorem SegExact.getElem {q : ℕ} (h : SegExact k q ptrBits st) {j : ℕ}
    (hj : (j + 1) * q ≤ st.tokens.length) (hlen : j < st.compDsBits.length) :
    st.compDsBits[j] =
      ((if j = 0 then 6 else 0) + charge k ptrBits ((st.tokens.drop (j * q)).take q) : ℤ) := by
  have hsum := h j hj
  rw [List.take_succ_eq_append_getElem hlen, List.sum_append, List.sum_singleton] at hsum
  cases j with
  | zero =>
      rw [List.take_zero, List.sum_nil, Nat.zero_add, Nat.one_mul] at hsum
      rw [Nat.zero_mul, List.drop_zero, if_pos rfl]
      omega
  | succ j =>
      have hprev := h j (by rw [Nat.succ_mul] at hj; omega)
      rw [hprev, Nat.succ_mul (j + 1), List.take_add, charge_append] at hsum
      rw [if_neg (Nat.succ_ne_zero j)]
      push_cast at hsum ⊢
      omega

end Accounts

/-! ## One round -/

/-- A list with a new value at place `e`, up to there. -/
theorem take_succ_set {α : Type} {l : List α} {e : ℕ} (h : e < l.length) (x : α) :
    (l.set e x).take (e + 1) = l.take e ++ [x] := by
  have hlen : (l.take e).length = e := by
    rw [List.length_take, Nat.min_eq_left h.le]
  rw [List.set_eq_take_append_cons_drop, if_pos h, List.take_append, hlen, Nat.add_sub_cancel_left,
    List.take_of_length_le (by omega)]
  rfl

/-- Behind a new value the list is as it was. -/
theorem drop_succ_set_of_replicate {α : Type} {l : List α} {b e m : ℕ} {v : α} (hbe : b ≤ e)
    (h : l.drop b = List.replicate (m - b) v) (x : α) :
    (l.set e x).drop (e + 1) = List.replicate (m - (e + 1)) v := by
  have hdrop : (l.drop b).drop (e + 1 - b) = l.drop (e + 1) := by
    rw [List.drop_drop]
    congr 1
    omega
  rw [List.drop_set_of_lt (Nat.lt_succ_self e), ← hdrop, h, List.drop_replicate]
  congr 1
  omega

/-- Zeros do not add to a sum. -/
theorem sum_take_of_replicate {l : List ℕ} {b e m : ℕ} (hbe : b ≤ e)
    (h : l.drop b = List.replicate (m - b) 0) : (l.take e).sum = (l.take b).sum := by
  have hsplit : l.take e = l.take b ++ (l.drop b).take (e - b) := by
    rw [← List.take_add]
    congr 1
    omega
  rw [hsplit, h, List.take_replicate, List.sum_append, List.sum_replicate_nat, Nat.mul_zero,
    Nat.add_zero]

section Loop

variable [DecidableEq K] {k s ptrBits m : ℕ} {st : LwmState K} {a : ℕ}

/-- The token of a round. -/
def tokenOf (st : LwmState K) (word : K) : Token K :=
  (matchWord st.locDict st.tokens.length word).1

theorem round_tokens (k s ptrBits : ℕ) (st : LwmState K) (word : K) :
    (Lwm.round k s ptrBits st (st.tokens.length, word)).tokens = st.tokens ++ [tokenOf st word] :=
  rfl

/-- The account of the segment that ends gets the bits that are in no account yet. -/
theorem round_compDsBits (k s ptrBits : ℕ) (st : LwmState K) (word : K) :
    (Lwm.round k s ptrBits st (st.tokens.length, word)).compDsBits =
      if (st.tokens.length + 1) * k % s = 0 then
        st.compDsBits.set ((st.tokens.length + 1) * k / s - 1)
          ((Lwm.round k s ptrBits st (st.tokens.length, word)).compBitSize -
            (st.compDsBits.take ((st.tokens.length + 1) * k / s - 1)).sum)
      else st.compDsBits :=
  rfl

theorem round_compDsMatchWordNo (k s ptrBits : ℕ) (st : LwmState K) (word : K) :
    (Lwm.round k s ptrBits st (st.tokens.length, word)).compDsMatchWordNo =
      if (st.tokens.length + 1) * k % s = 0 then
        st.compDsMatchWordNo.set ((st.tokens.length + 1) * k / s - 1)
          (st.matchingWordNo + if (tokenOf st word).isPtr then 1 else 0)
      else st.compDsMatchWordNo :=
  rfl

theorem round_matchingWordNo (k s ptrBits : ℕ) (st : LwmState K) (word : K) :
    (Lwm.round k s ptrBits st (st.tokens.length, word)).matchingWordNo =
      if (st.tokens.length + 1) * k % s = 0 then 0
      else st.matchingWordNo + if (tokenOf st word).isPtr then 1 else 0 :=
  rfl

theorem SegAccounts.round_size (h : SegAccounts k s ptrBits m st a) (word : K) :
    (Lwm.round k s ptrBits st (st.tokens.length, word)).compBitSize =
      6 + charge k ptrBits (st.tokens ++ [tokenOf st word]) := by
  have hround : (Lwm.round k s ptrBits st (st.tokens.length, word)).compBitSize =
      st.compBitSize + 1 + payloadBits k ptrBits (tokenOf st word) := rfl
  rw [hround, charge_append, h.size]
  simp only [charge, tokenCharge, List.map_cons, List.map_nil, List.sum_cons, List.sum_nil]
  omega

/-- The matches since the last segment that ended, with this word. -/
theorem SegAccounts.round_since (h : SegAccounts k s ptrBits m st a) (word : K) :
    st.matchingWordNo + (if (tokenOf st word).isPtr then 1 else 0) =
      matchNo (st.tokens.drop a ++ [tokenOf st word]) := by
  rw [matches_append, h.since, matchNo, matchNo, List.countP_singleton]

/-- A word that ends a segment. -/
theorem SegAccounts.round_ends (h : SegAccounts k s ptrBits m st a) (hk : 0 < k) (hs : 0 < s)
    (hm : (st.tokens.length + 1) * k / s ≤ m) (hend : s ∣ (st.tokens.length + 1) * k) (word : K) :
    SegAccounts k s ptrBits m (Lwm.round k s ptrBits st (st.tokens.length, word))
      (st.tokens.length + 1) := by
  have hle := h.le
  have hmod := Nat.mod_eq_zero_of_dvd hend
  have hds := round_compDsBits k s ptrBits st word
  have hno := round_compDsMatchWordNo k s ptrBits st word
  have hsince := round_matchingWordNo k s ptrBits st word
  rw [if_pos hmod] at hds hno hsince
  rw [h.round_since] at hno
  have hwhole : (st.tokens ++ [tokenOf st word]).take (st.tokens.length + 1) =
      st.tokens ++ [tokenOf st word] := List.take_of_length_le (by simp)
  -- the segment that ends, and the one that ended last
  have hpos : 0 < (st.tokens.length + 1) * k := Nat.mul_pos (Nat.succ_pos _) hk
  obtain ⟨e, he⟩ : ∃ e, (st.tokens.length + 1) * k / s = e + 1 :=
    Nat.exists_eq_add_one.2 (Nat.div_pos (Nat.le_of_dvd hpos hend) hs)
  have hlt : a * k / s ≤ e := by
    have hak : a * k < (st.tokens.length + 1) * k := Nat.mul_lt_mul_of_pos_right (by omega) hk
    have hdiv := Nat.div_lt_div_of_lt_of_dvd hend hak
    omega
  rw [he, Nat.add_sub_cancel] at hds hno
  refine ⟨?_, ?_, hend, ?_, ?_, ?_, ?_, ?_, ?_, ?_, ?_⟩
  · rw [h.round_size, round_tokens]
  · rw [round_tokens]
    simp
  · intro b hb hb'
    rw [round_tokens, List.length_append, List.length_singleton] at hb'
    omega
  · rw [hds, List.length_set, h.bitsLength]
  · rw [hno, List.length_set, h.matchLength]
  · rw [hds, he, take_succ_set (by rw [h.bitsLength]; omega), if_neg (Nat.succ_ne_zero _),
      round_tokens, hwhole, h.round_size]
    simp
  · rw [hds, he, drop_succ_set_of_replicate hlt h.bitsRest]
  · rw [hno, he, take_succ_set (by rw [h.matchLength]; omega), round_tokens, hwhole, List.sum_append,
      sum_take_of_replicate hlt h.matchRest, h.matchDone, List.sum_singleton, ← matches_append,
      ← List.append_assoc, List.take_append_drop]
  · rw [hno, he, drop_succ_set_of_replicate hlt h.matchRest]
  · rw [hsince, round_tokens, List.drop_of_length_le (by simp)]
    rfl

/-- A word that ends no segment. -/
theorem SegAccounts.round_inside (h : SegAccounts k s ptrBits m st a)
    (hend : ¬ s ∣ (st.tokens.length + 1) * k) (word : K) :
    SegAccounts k s ptrBits m (Lwm.round k s ptrBits st (st.tokens.length, word)) a := by
  have hmod : ¬ (st.tokens.length + 1) * k % s = 0 := fun h0 => hend (Nat.dvd_of_mod_eq_zero h0)
  have hds := round_compDsBits k s ptrBits st word
  have hno := round_compDsMatchWordNo k s ptrBits st word
  have hsince := round_matchingWordNo k s ptrBits st word
  rw [if_neg hmod] at hds hno hsince
  have htake : (st.tokens ++ [tokenOf st word]).take a = st.tokens.take a :=
    List.take_append_of_le_length h.le
  refine ⟨?_, ?_, h.ends, ?_, ?_, ?_, ?_, ?_, ?_, ?_, ?_⟩
  · rw [h.round_size, round_tokens]
  · rw [round_tokens, List.length_append]
    exact h.le.trans (Nat.le_add_right ..)
  · intro b hb hb'
    rw [round_tokens, List.length_append, List.length_singleton] at hb'
    rcases Nat.lt_or_eq_of_le hb' with hlt | rfl
    · exact h.last b hb (by omega)
    · exact hend
  · rw [hds, h.bitsLength]
  · rw [hno, h.matchLength]
  · rw [hds, round_tokens, htake, h.bitsDone]
  · rw [hds, h.bitsRest]
  · rw [hno, round_tokens, htake, h.matchDone]
  · rw [hno, h.matchRest]
  · rw [hsince, h.round_since, round_tokens, List.drop_append_of_le_length h.le]

/-- One round: the segment ends with this word, or it does not. -/
theorem SegAccounts.round (h : SegAccounts k s ptrBits m st a) (hk : 0 < k) (hs : 0 < s)
    (hm : (st.tokens.length + 1) * k / s ≤ m) (word : K) :
    SegAccounts k s ptrBits m (round k s ptrBits st (st.tokens.length, word))
      (if s ∣ (st.tokens.length + 1) * k then st.tokens.length + 1 else a) := by
  split
  · rename_i hend
    exact h.round_ends hk hs hm hend word
  · rename_i hend
    exact h.round_inside hend word

theorem SegExact.round {q : ℕ} (h : SegExact k q ptrBits st) (hk : 0 < k) (hq : 0 < q)
    (hacc : SegAccounts k (q * k) ptrBits m st a) (hm : (st.tokens.length + 1) / q ≤ m) (word : K) :
    SegExact k q ptrBits (round k (q * k) ptrBits st (st.tokens.length, word)) := by
  have hds := round_compDsBits k (q * k) ptrBits st word
  intro j hj
  rw [round_tokens, List.length_append, List.length_singleton] at hj
  have hold : (j + 1) * q ≤ st.tokens.length → (st.compDsBits.take (j + 1)).sum =
      (6 + charge k ptrBits ((st.tokens ++ [tokenOf st word]).take ((j + 1) * q)) : ℤ) := by
    intro hle
    rw [List.take_append_of_le_length hle]
    exact h j hle
  by_cases hend : (st.tokens.length + 1) * k % (q * k) = 0
  · obtain ⟨e, he⟩ : q ∣ st.tokens.length + 1 := by
      rw [Nat.mul_mod_mul_right] at hend
      exact Nat.dvd_of_mod_eq_zero ((Nat.mul_eq_zero.1 hend).resolve_right hk.ne')
    have hdiv : (st.tokens.length + 1) / q = e := by rw [he, Nat.mul_div_cancel_left _ hq]
    have hje : j + 1 ≤ e := by
      rw [he, Nat.mul_comm] at hj
      exact Nat.le_of_mul_le_mul_left hj hq
    rw [if_pos hend, Nat.mul_div_mul_right _ _ hk, hdiv] at hds
    rw [hds, round_tokens]
    rcases Nat.lt_or_eq_of_le hje with hlt | rfl
    · -- an earlier segment
      rw [List.take_set_of_le (by omega)]
      refine hold ?_
      have : (j + 1) * q + q ≤ st.tokens.length + 1 := by
        rw [he, ← Nat.succ_mul, Nat.mul_comm]
        exact Nat.mul_le_mul_left q hlt
      omega
    · have hlen : j < st.compDsBits.length := by
        rw [hacc.bitsLength]
        omega
      have hwhole : (st.tokens ++ [tokenOf st word]).take ((j + 1) * q) =
          st.tokens ++ [tokenOf st word] := by
        refine List.take_of_length_le ?_
        rw [List.length_append, List.length_singleton, he, Nat.mul_comm]
      rw [Nat.add_sub_cancel, take_succ_set hlen, hwhole, hacc.round_size]
      simp
  · rw [if_neg hend] at hds
    rw [hds, round_tokens]
    refine hold ?_
    rcases Nat.lt_or_eq_of_le hj with hlt | heq
    · omega
    · refine absurd ?_ hend
      rw [← heq, Nat.mul_assoc]
      exact Nat.mul_mod_left ..

/-- Segments that no word ends: the first account stays as it was made. -/
theorem first_round (hk : 0 < k) (hnk : ¬ k ∣ s) (hs : 0 < s)
    (h : ∀ b, st.compDsBits[0]? = some b → b = -1) (i : ℕ) (word : K) :
    ∀ b, (round k s ptrBits st (i, word)).compDsBits[0]? = some b → b = -1 := by
  intro b hb
  by_cases hend : (i + 1) * k % s = 0
  · have hne : (i + 1) * k / s - 1 ≠ 0 := by
      intro h0
      obtain ⟨c, hc⟩ := Nat.dvd_of_mod_eq_zero hend
      rw [hc, Nat.mul_div_cancel_left _ hs] at h0
      obtain rfl | rfl : c = 0 ∨ c = 1 := by omega
      · have hpos : 0 < (i + 1) * k := Nat.mul_pos (Nat.succ_pos i) hk
        omega
      · rw [Nat.mul_one] at hc
        exact hnk ⟨i + 1, by rw [Nat.mul_comm, hc]⟩
    simp only [round, if_pos hend, List.getElem?_set_ne hne] at hb
    exact h b hb
  · simp only [round, if_neg hend] at hb
    exact h b hb

/-! ## The whole line -/

/-- The loop from any state of a line of `n` words. -/
theorem segAccounts_foldl {n : ℕ} (hk : 0 < k) (hs : 0 < s) (words : List K) :
    ∀ (st : LwmState K) (a : ℕ), SegAccounts k s ptrBits (n * k / s) st a →
      st.tokens.length + words.length ≤ n →
      let st' := ((List.range' st.tokens.length words.length).zip words).foldl (round k s ptrBits) st
      st'.tokens.length = st.tokens.length + words.length ∧
      (∃ a', SegAccounts k s ptrBits (n * k / s) st' a') ∧
      (∀ q, s = q * k → SegExact k q ptrBits st → SegExact k q ptrBits st') ∧
      (¬ k ∣ s → (∀ b, st.compDsBits[0]? = some b → b = -1) →
        ∀ b, st'.compDsBits[0]? = some b → b = -1) := by
  induction words with
  | nil => exact fun st a h _ => ⟨rfl, ⟨a, h⟩, fun _ _ h => h, fun _ h => h⟩
  | cons w words ih =>
      intro st a h hn
      rw [List.length_cons] at hn
      have hbound : (st.tokens.length + 1) * k / s ≤ n * k / s :=
        Nat.div_le_div_right (Nat.mul_le_mul_right k (by omega))
      have hlen : (round k s ptrBits st (st.tokens.length, w)).tokens.length =
          st.tokens.length + 1 := by
        simp [round]
      obtain ⟨htok, hacc, hexact, hfirst⟩ := ih _ _ (h.round hk hs hbound w) (by rw [hlen]; omega)
      rw [hlen] at htok hacc hexact hfirst
      simp only [List.length_cons, List.range'_succ, List.zip_cons_cons, List.foldl_cons]
      refine ⟨by rw [htok]; omega, hacc, fun q hq hst => hexact q hq ?_, fun hnk hst => hfirst hnk ?_⟩
      · subst hq
        have hq0 : 0 < q := Nat.pos_of_mul_pos_right hs
        refine hst.round hk hq0 h ?_ w
        rw [← Nat.mul_div_mul_right _ _ hk]
        exact hbound
      · exact first_round hk hnk hs hst _ w

/-- **The accounts of a line.** -/
theorem runLwmAlgo_accounts (hk : 0 < k) (hs : 0 < s) (locDict : Dict K) (words : List K) :
    let st := runLwmAlgo k s locDict words
    st.tokens.length = words.length ∧
    (∃ a, SegAccounts k s (dataPtrBits words.length) (words.length * k / s) st a) ∧
    (∀ q, s = q * k → SegExact k q (dataPtrBits words.length) st) ∧
    (¬ k ∣ s → ∀ b, st.compDsBits[0]? = some b → b = -1) := by
  intro st
  let init : LwmState K :=
    { locDict := locDict
      tokens := []
      compBitSize := 1 + 3 + 2
      compBitsOnly := 0
      matchingWordNo := 0
      compDsBits := List.replicate (words.length * k / s) (-1)
      compDsMatchWordNo := List.replicate (words.length * k / s) 0
      noCompDsRatio := List.replicate (words.length * k / s) 1 }
  have hinit : SegAccounts k s (dataPtrBits words.length) (words.length * k / s) init 0 := by
    constructor <;> simp [init, charge, matchNo]
    omega
  have hst : st = ((List.range' init.tokens.length words.length).zip words).foldl
      (round k s (dataPtrBits words.length)) init := by
    rw [show st = runLwmAlgo k s locDict words from rfl, runLwmAlgo, List.range_eq_range']
    rfl
  obtain ⟨htok, hacc, hexact, hfirst⟩ :=
    segAccounts_foldl hk hs words init 0 hinit (by simp [init])
  rw [← hst] at htok hacc hexact hfirst
  refine ⟨by simpa [init] using htok, hacc, fun q hq => hexact q hq ?_, fun hnk => hfirst hnk ?_⟩
  · intro j hj
    have hpos : 0 < (j + 1) * q :=
      Nat.mul_pos (Nat.succ_pos j) (Nat.pos_of_mul_pos_right (hq ▸ hs))
    simp only [init, List.length_nil] at hj
    omega
  · intro b hb
    simp only [init, List.getElem?_replicate] at hb
    split at hb
    · exact (Option.some.inj hb).symm
    · simp at hb

/-- **The accounts of the segments sum to the bits of the line, and no one is negative**, if
and only if every segment consists of whole words and the line of whole segments. -/
theorem segments_add_up_iff (hk : 0 < k) (hs : 0 < s) (locDict : Dict K) {words : List K}
    (hne : words ≠ []) :
    let st := runLwmAlgo k s locDict.clear words
    (st.compDsBits.sum = st.compBitSize ∧ ∀ bits ∈ st.compDsBits, 0 ≤ bits) ↔
      k ∣ s ∧ s ∣ words.length * k := by
  have hrun := runLwmAlgo_accounts hk hs locDict.clear words
  dsimp only at hrun ⊢
  generalize runLwmAlgo k s locDict.clear words = st at hrun ⊢
  obtain ⟨hlen, ⟨a, hacc⟩, hexact, hfirst⟩ := hrun
  have hsum := hacc.sum_bits
  have hsize := hacc.size
  have hpos : 0 < words.length := List.length_pos_iff.2 hne
  constructor
  · rintro ⟨htotal, hnonneg⟩
    have hks : k ∣ s := by
      by_contra hnk
      cases hget : st.compDsBits[0]? with
      | none =>
          -- no segment at all
          have hnil : st.compDsBits = [] := by simpa using hget
          rw [hnil, List.sum_nil, hsize] at htotal
          omega
      | some b =>
          have hb := hnonneg b (List.mem_of_getElem? hget)
          have := hfirst hnk b hget
          omega
    refine ⟨hks, ?_⟩
    by_contra hend
    have hlt := hacc.lt_length hlen hend
    have hcharge := charge_take_add_drop k (dataPtrBits words.length) a st.tokens
    have hle := le_charge k (dataPtrBits words.length) (st.tokens.drop a)
    rw [List.length_drop, hlen] at hle
    rw [htotal, hsize] at hsum
    split at hsum <;> omega
  · rintro ⟨⟨q, rfl⟩, hend⟩
    have hall := hexact q (Nat.mul_comm k q)
    have ha := hacc.eq_length hlen hend
    have hq : 0 < q := Nat.pos_of_mul_pos_left hs
    refine ⟨?_, ?_⟩
    · rw [hsum, hsize, ha, if_neg hpos.ne', ← hlen, List.take_length]
      omega
    · intro bits hbits
      obtain ⟨j, hj, rfl⟩ := List.mem_iff_getElem.1 hbits
      have hjm : j + 1 ≤ words.length * k / (k * q) := by
        rw [← hacc.bitsLength]
        exact hj
      have hjq : (j + 1) * q ≤ st.tokens.length := by
        rw [hlen]
        rw [Nat.mul_comm k q, Nat.mul_div_mul_right _ _ hk] at hjm
        exact (Nat.le_div_iff_mul_le hq).1 hjm
      rw [hall.getElem hjq hj]
      split <;> omega

/-- Words of 4 bytes in segments of 8: two segments of two words. -/
theorem segments_add_up_iff_pairs :
    let st := runLwmAlgo 4 8 (Dict.empty : Dict ℕ).clear [1, 2, 1, 1]
    st.compDsBits.sum = st.compBitSize ∧ ∀ bits ∈ st.compDsBits, 0 ≤ bits :=
  (segments_add_up_iff (by decide) (by decide) Dict.empty (by decide)).2 (by decide)

/-- Words of 4 bytes in segments of 2: the accounts of segments that no word ends stay -1. -/
theorem segments_negative : ¬ ∀ (k s : ℕ) (words : List ℕ), 0 < k → 0 < s → words ≠ [] →
    let st := runLwmAlgo k s (Dict.empty : Dict ℕ).clear words
    st.compDsBits.sum = st.compBitSize ∧ ∀ bits ∈ st.compDsBits, 0 ≤ bits := by
  intro h
  have hbits := (h 4 2 [1, 2] (by decide) (by decide) (by decide)).2
  have hlist : (runLwmAlgo 4 2 (Dict.empty : Dict ℕ).clear [1, 2]).compDsBits =
      [-1, 40, -1, 34] := by decide
  rw [hlist] at hbits
  exact absurd (hbits (-1) (by decide)) (by decide)

end Loop

end CompressionWork.Lwm
