import CompressionWork.Lwm.Segments

/-!
# Local word matching: partial compression

`run_part_comp_in_data_segment` (`hpcl_partial_comp_en`) sends a segment without a match as it
is: it takes `32 / sizeof(K)` flag bits off the account of such a segment.

* `runPartComp` — the function; it ends without a return statement.
* `partComp` — the function in its place after `run_lwm_algo` and the optimisation of the
  pointer width, which has changed the accounts.
* `SegRatio` — the invariant of `no_comp_ds_ratio`.
* `partComp_keeps`, `partComp_unmatched` — what a segment with a match and one without it are
  charged.
* `partComp_never` — the caller never gets the sum.
-/

namespace CompressionWork.Lwm

variable {K : Type} [DecidableEq K]

/-! ## The source -/

/-- The accounts after `run_part_comp_in_data_segment`, its variable `ret_comp_bits`, and what
the caller gets. -/
structure PartResult where
  compDsBits : List ℤ
  retCompBits : ℤ
  returned : Option ℤ

/-- `run_part_comp_in_data_segment`: `ret_comp_bits` is computed and not returned. -/
def runPartComp (k : ℕ) (noCompRatio compDsBits : List ℤ) : PartResult :=
  let bits := noCompRatio.zipWith (fun ratio (bits : ℤ) =>
    if ratio = 1 then bits - (32 / k : ℕ) else bits) compDsBits
  { compDsBits := bits
    retCompBits := bits.sum + 4
    returned := none }

/-- The accounts that `run_dynamic_dict_in_data_segment` leaves. -/
def dynamicDsBits (locDict : Dict K) (dataPtrBits : ℕ) (st : LwmState K) : List ℤ :=
  if 0 ≤ locDict.lastMaxWordLoc then
    st.compDsBits.zipWith (fun (bits : ℤ) (matchwordNo : ℕ) =>
      bits - (dataPtrBits - newDataPtrBits locDict.lastMaxWordLoc : ℤ) * matchwordNo)
        st.compDsMatchWordNo
  else st.compDsBits

omit [DecidableEq K] in
/-- The optimisation returns the sum of the accounts it leaves and its header. -/
theorem runDynamicDict_eq (locDict : Dict K) (dataPtrBits : ℕ) (st : LwmState K)
    (h : 0 ≤ locDict.lastMaxWordLoc) :
    runDynamicDict locDict dataPtrBits st = some ((dynamicDsBits locDict dataPtrBits st).sum + 3) := by
  rw [runDynamicDict, dynamicDsBits, if_pos h, if_pos h]

/-- The accounts that partial compression is given. -/
def partInput (k s : ℕ) (dictSizeOptEn : Bool) (words : List K) : List ℤ :=
  let st := runLwmAlgo k s (Dict.empty : Dict K).clear words
  if dictSizeOptEn then dynamicDsBits st.locDict (dataPtrBits words.length) st else st.compDsBits

/-- Partial compression of a line. -/
def partComp (k s : ℕ) (dictSizeOptEn : Bool) (words : List K) : PartResult :=
  runPartComp k (runLwmAlgo k s (Dict.empty : Dict K).clear words).noCompDsRatio
    (partInput k s dictSizeOptEn words)

/-! ## Which segments have a match -/

/-- A token of segment `j` is a pointer. -/
def HasMatch (k s : ℕ) (tokens : List (Token K)) (j : ℕ) : Prop :=
  ∃ (i : ℕ) (t : Token K), tokens[i]? = some t ∧ t.isPtr = true ∧ i * k / s = j

/-- `no_comp_ds_ratio` is 0 for the segments with a match, and 1 for the others. -/
def SegRatio (k s m : ℕ) (st : LwmState K) : Prop :=
  st.noCompDsRatio.length = m ∧ ∀ j < m,
    (HasMatch k s st.tokens j → st.noCompDsRatio[j]? = some 0) ∧
    (¬ HasMatch k s st.tokens j → st.noCompDsRatio[j]? = some 1)

section Ratio

variable {k s ptrBits m : ℕ} {st : LwmState K}

omit [DecidableEq K] in
theorem hasMatch_concat {tokens : List (Token K)} {t : Token K} {j : ℕ} :
    HasMatch k s (tokens ++ [t]) j ↔
      HasMatch k s tokens j ∨ (t.isPtr = true ∧ tokens.length * k / s = j) := by
  constructor
  · rintro ⟨i, t', ht', hptr, hj⟩
    rcases Nat.lt_trichotomy i tokens.length with hlt | rfl | hlt
    · rw [List.getElem?_append_left hlt] at ht'
      exact Or.inl ⟨i, t', ht', hptr, hj⟩
    · rw [List.getElem?_concat_length] at ht'
      obtain rfl := Option.some.inj ht'
      exact Or.inr ⟨hptr, hj⟩
    · rw [List.getElem?_eq_none (by simp; omega)] at ht'
      simp at ht'
  · rintro (⟨i, t', ht', hptr, hj⟩ | ⟨hptr, hj⟩)
    · refine ⟨i, t', ?_, hptr, hj⟩
      rw [List.getElem?_append_left (List.getElem?_eq_some_iff.1 ht').1]
      exact ht'
    · exact ⟨tokens.length, t, List.getElem?_concat_length, hptr, hj⟩

theorem SegRatio.round (h : SegRatio k s m st) (word : K) :
    SegRatio k s m (round k s ptrBits st (st.tokens.length, word)) := by
  obtain ⟨hlen, hratio⟩ := h
  have hset : (Lwm.round k s ptrBits st (st.tokens.length, word)).noCompDsRatio =
      if (tokenOf st word).isPtr = true then st.noCompDsRatio.set (st.tokens.length * k / s) 0
      else st.noCompDsRatio := rfl
  unfold SegRatio
  rw [round_tokens, hset]
  refine ⟨by split <;> simp [hlen], fun j hj => ?_⟩
  rw [hasMatch_concat]
  obtain ⟨hzero, hone⟩ := hratio j hj
  split
  · rename_i hptr
    by_cases heq : st.tokens.length * k / s = j
    · subst heq
      rw [List.getElem?_set_self (by rw [hlen]; exact hj)]
      exact ⟨fun _ => rfl, fun hno => absurd (Or.inr ⟨hptr, rfl⟩) hno⟩
    · rw [List.getElem?_set_ne heq]
      refine ⟨fun hmatch => hzero ?_, fun hno => hone fun hmatch => hno (Or.inl hmatch)⟩
      exact hmatch.resolve_right fun hnew => heq hnew.2
  · rename_i hptr
    refine ⟨fun hmatch => hzero ?_, fun hno => hone fun hmatch => hno (Or.inl hmatch)⟩
    exact hmatch.resolve_right fun hnew => hptr hnew.1

theorem segRatio_foldl (words : List K) : ∀ st : LwmState K, SegRatio k s m st →
    SegRatio k s m (((List.range' st.tokens.length words.length).zip words).foldl
      (Lwm.round k s ptrBits) st) := by
  induction words with
  | nil => exact fun st h => h
  | cons w words ih =>
      intro st h
      have hround : SegRatio k s m (round k s ptrBits st (st.tokens.length, w)) := h.round w
      have hrest := ih _ hround
      have hlen : (Lwm.round k s ptrBits st (st.tokens.length, w)).tokens.length =
          st.tokens.length + 1 := by
        simp [Lwm.round]
      rw [hlen] at hrest
      simpa only [List.length_cons, List.range'_succ, List.zip_cons_cons, List.foldl_cons] using
        hrest

theorem segRatio_runLwmAlgo (k s : ℕ) (locDict : Dict K) (words : List K) :
    SegRatio k s (words.length * k / s) (runLwmAlgo k s locDict words) := by
  have hrun := @segRatio_foldl K _ k s (dataPtrBits words.length) (words.length * k / s) words
    { locDict := locDict
      tokens := []
      compBitSize := 1 + 3 + 2
      compBitsOnly := 0
      matchingWordNo := 0
      compDsBits := List.replicate (words.length * k / s) (-1)
      compDsMatchWordNo := List.replicate (words.length * k / s) 0
      noCompDsRatio := List.replicate (words.length * k / s) 1 } ⟨by simp, fun j hj => ⟨?_, ?_⟩⟩
  · rw [runLwmAlgo, List.range_eq_range']
    exact hrun
  · rintro ⟨i, t, ht, -⟩
    simp at ht
  · intro _
    simp [hj]

end Ratio

/-! ## What the segments are charged -/

section Charge

variable {k s : ℕ} {words : List K}

/-- A segment with a match keeps its account. -/
theorem partComp_keeps (dictSizeOptEn : Bool) {j : ℕ} (hj : j < words.length * k / s)
    (h : HasMatch k s (runLwmAlgo k s (Dict.empty : Dict K).clear words).tokens j) :
    (partComp k s dictSizeOptEn words).compDsBits[j]? = (partInput k s dictSizeOptEn words)[j]? := by
  obtain ⟨-, hratio⟩ := segRatio_runLwmAlgo k s (Dict.empty : Dict K).clear words
  have hzero := (hratio j hj).1 h
  rw [partComp, runPartComp, List.getElem?_zipWith, hzero]
  cases (partInput k s dictSizeOptEn words)[j]? <;> simp

omit [DecidableEq K] in
/-- Words that all went out as they are. -/
theorem charge_of_no_match {k ptrBits : ℕ} {ts : List (Token K)} (h : ∀ t ∈ ts, t.isPtr = false) :
    charge k ptrBits ts = ts.length * (1 + k * 8) := by
  induction ts with
  | nil => simp [charge]
  | cons t ts ih =>
      have hrest := ih fun u hu => h u (List.mem_cons_of_mem _ hu)
      have ht := h t (List.mem_cons_self ..)
      cases t with
      | raw word =>
          simp only [charge, tokenCharge, payloadBits, List.map_cons, List.sum_cons,
            List.length_cons, Nat.succ_mul] at hrest ⊢
          omega
      | ptr i loc => simp [Token.isPtr] at ht

/-- **A segment of `q` words without a match** is charged its raw bits, one flag for each word
less the `32 / k` that are taken off, and for the first segment the header. -/
theorem partComp_unmatched {q : ℕ} (hk : 0 < k) (hq : 0 < q) {j : ℕ}
    (hj : (j + 1) * q ≤ words.length)
    (h : ¬ HasMatch k (q * k) (runLwmAlgo k (q * k) (Dict.empty : Dict K).clear words).tokens j) :
    (partComp k (q * k) false words).compDsBits[j]? =
      some ((if j = 0 then 6 else 0) + 8 * (q * k) + q - (32 / k : ℕ) : ℤ) := by
  have hs : 0 < q * k := Nat.mul_pos hq hk
  have hjm : j < words.length * k / (q * k) := by
    rw [Nat.mul_div_mul_right _ _ hk]
    exact (Nat.le_div_iff_mul_le hq).2 hj
  obtain ⟨-, hratio⟩ := segRatio_runLwmAlgo k (q * k) (Dict.empty : Dict K).clear words
  have hone := (hratio j hjm).2 h
  obtain ⟨hlen, ⟨a, hacc⟩, hexact, -⟩ :=
    runLwmAlgo_accounts hk hs (Dict.empty : Dict K).clear words
  have hall := hexact q rfl
  rw [partComp, runPartComp, List.getElem?_zipWith, hone]
  simp only [partInput, Bool.false_eq_true, if_false]
  generalize runLwmAlgo k (q * k) (Dict.empty : Dict K).clear words = st at *
  have hjb : j < st.compDsBits.length := by rw [hacc.bitsLength]; exact hjm
  have hraw : ∀ t ∈ (st.tokens.drop (j * q)).take q, t.isPtr = false := by
    intro t ht
    by_contra hptr
    obtain ⟨i, hi⟩ := List.mem_iff_getElem?.1 ht
    rw [List.getElem?_take] at hi
    split at hi
    · rename_i hiq
      rw [List.getElem?_drop] at hi
      refine h ⟨j * q + i, t, hi, by simpa using hptr, ?_⟩
      rw [Nat.mul_div_mul_right _ _ hk, Nat.mul_comm j q, Nat.mul_add_div hq, Nat.div_eq_of_lt hiq,
        Nat.add_zero]
    · simp at hi
  have hslice : ((st.tokens.drop (j * q)).take q).length = q := by
    rw [List.length_take, List.length_drop, hlen]
    rw [Nat.succ_mul] at hj
    omega
  rw [List.getElem?_eq_getElem hjb, hall.getElem (by rw [hlen]; exact hj) hjb,
    charge_of_no_match hraw, hslice]
  simp only [if_true, Option.some.injEq]
  push_cast
  rw [Int.mul_add]
  have hmul : (q : ℤ) * (k * 8) = 8 * (q * k) := by
    rw [← Int.mul_assoc, Int.mul_comm 8]
  rw [hmul]
  omega

/-- So such a segment is charged exactly its raw bits when the flags taken off are those it
has; for the first one they have to pay for the header, too. -/
theorem partComp_unmatched_iff {q : ℕ} (hk : 0 < k) (hq : 0 < q) {j : ℕ}
    (hj : (j + 1) * q ≤ words.length)
    (h : ¬ HasMatch k (q * k) (runLwmAlgo k (q * k) (Dict.empty : Dict K).clear words).tokens j) :
    (partComp k (q * k) false words).compDsBits[j]? = some (8 * (q * k) : ℤ) ↔
      (if j = 0 then 6 else 0) + q = 32 / k := by
  rw [partComp_unmatched hk hq hj h, Option.some.injEq]
  split <;> omega

end Charge

/-! ## The result -/

/-- What partial compression should do to a line: the caller gets the sum of the accounts and
the four bits of the header, a segment without a match is charged its raw bits, and one with a
match keeps its account. -/
def PartConsistent (k s : ℕ) (dictSizeOptEn : Bool) (words : List K) : Prop :=
  let res := partComp k s dictSizeOptEn words
  let tokens := (runLwmAlgo k s (Dict.empty : Dict K).clear words).tokens
  res.returned = some (res.compDsBits.sum + 4) ∧
  ∀ j < words.length * k / s,
    (¬ HasMatch k s tokens j → res.compDsBits[j]? = some (8 * s : ℤ)) ∧
    (HasMatch k s tokens j → res.compDsBits[j]? = (partInput k s dictSizeOptEn words)[j]?)

/-- **Partial compression is right for no line**: segments with a match keep their accounts,
and the variable holds the sum of the accounts and the header, but the caller does not get
it. -/
theorem partComp_never (k s : ℕ) (dictSizeOptEn : Bool) (words : List K) :
    (partComp k s dictSizeOptEn words).retCompBits =
        (partComp k s dictSizeOptEn words).compDsBits.sum + 4 ∧
      (∀ j < words.length * k / s,
        HasMatch k s (runLwmAlgo k s (Dict.empty : Dict K).clear words).tokens j →
        (partComp k s dictSizeOptEn words).compDsBits[j]? =
          (partInput k s dictSizeOptEn words)[j]?) ∧
      ¬ PartConsistent k s dictSizeOptEn words := by
  refine ⟨rfl, fun j hj hmatch => partComp_keeps dictSizeOptEn hj hmatch, ?_⟩
  rintro ⟨hret, -⟩
  exact absurd hret (by simp [partComp, runPartComp])

/-- Four words of 2 bytes in one segment. -/
theorem partComp_unreturned : ¬ ∀ (k s : ℕ) (dictSizeOptEn : Bool) (words : List ℕ), 0 < k →
    0 < s → PartConsistent k s dictSizeOptEn words := by
  intro h
  have hret := (h 2 8 false [1, 1, 2, 1] (by decide) (by decide)).1
  exact absurd hret (by simp [partComp, runPartComp])

end CompressionWork.Lwm
