import CompressionWork.Lwm.Segments

/-!
# Local word matching: narrower pointers

`run_dynamic_dict_in_data_segment` gives every pointer of a line the width of the greatest
location that was matched, takes what this saves off the segments' accounts and adds three
bits for the width.

* `lastMaxWordLoc_lt` — the greatest matched location lies before the last word.
* `newDataPtrBits_le` — so the new width is not greater than the old one.
* `Shrunk` — what the new total should be, and that the pointers fit.
* `shrunk_iff` — it is so whenever the line consists of whole segments, and never else: what
  follows the last whole segment is missing in the new total.

A packet that comes again brings the dictionary that its line left; by `runLwmAlgo_again` the
loop does the same then.
-/

namespace CompressionWork.Lwm

open Codec

variable {K : Type} [DecidableEq K]

/-! ## The width -/

/-- There is no match yet, or the last word stands behind the greatest matched location. -/
def LocBound (s : Side K) : Prop :=
  s.1.lastMaxWordLoc = -1 ∨ 0 ≤ s.1.lastMaxWordLoc ∧ s.1.lastMaxWordLoc + 1 < s.2.length

theorem locBound_encodeWord {s : Side K} (h : LocBound s) (hs : Located s.1 s.2) (word : K) :
    LocBound (encodeWord s word).2 := by
  have hlen : (encodeWord s word).2.2.length = s.2.length + 1 := by simp [encodeWord]
  have hloc : (encodeWord s word).2.1 = (matchWord s.1 s.2.length word).2 := rfl
  unfold LocBound at h ⊢
  rw [hlen, hloc]
  rcases lastMaxWordLoc_matchWord s.1 s.2.length word with heq | ⟨wordIndex, hsearch, htok, -⟩
  · rw [heq]
    omega
  · -- the location of a match lies in the line so far
    obtain ⟨loc, htok', -, hword, -⟩ := matchWord_found (i := s.2.length) hs hsearch
    rw [htok'] at htok
    have hlt : loc < s.2.length := (List.getElem?_eq_some_iff.1 hword).1
    rw [← (Token.ptr.inj htok).2]
    omega

theorem locBound_encodeRun {words : List K} : ∀ {s : Side K}, LocBound s → Located s.1 s.2 →
    LocBound (encodeRun encodeWord s words).2 ∧
      (encodeRun encodeWord s words).2.2.length = s.2.length + words.length := by
  induction words with
  | nil => exact fun h _ => ⟨h, rfl⟩
  | cons w words ih =>
      intro s h hs
      obtain ⟨hbound, hlen⟩ := ih (locBound_encodeWord h hs w) (located_encodeWord hs w)
      refine ⟨hbound, ?_⟩
      have hnext : (encodeWord s w).2.2.length = s.2.length + 1 := by simp [encodeWord]
      rw [hnext] at hlen
      rw [encodeRun, hlen, List.length_cons]
      omega

/-- **The greatest matched location lies before the last word.** -/
theorem lastMaxWordLoc_lt (k s : ℕ) {words : List K}
    (h : 0 ≤ (runLwmAlgo k s (Dict.empty : Dict K).clear words).locDict.lastMaxWordLoc) :
    (runLwmAlgo k s (Dict.empty : Dict K).clear words).locDict.lastMaxWordLoc + 1 <
      words.length := by
  obtain ⟨-, hdict, -⟩ := runLwmAlgo_spec k s (Dict.empty : Dict K) words
  have hstart : LocBound (((Dict.empty : Dict K).clear, []) : Side K) := Or.inl rfl
  obtain ⟨hbound, hlen⟩ := @locBound_encodeRun K _ words _ hstart (located_clear Dict.empty)
  rw [hdict] at h ⊢
  rcases hbound with hbound | ⟨-, hbound⟩
  · omega
  · rw [hlen, List.length_nil, Nat.zero_add] at hbound
    exact hbound

/-- **The assertion** `new_data_ptr_bits <= data_ptr_bits` does not fail. -/
theorem newDataPtrBits_le {n : ℕ} {loc : ℤ} (h : 0 ≤ loc) (hlt : loc + 1 < n) :
    newDataPtrBits loc ≤ dataPtrBits n := by
  have hle : Nat.clog 2 (loc.toNat + 1) ≤ Nat.clog 2 n := Nat.clog_mono_right 2 (by omega)
  have hpos : 0 < Nat.clog 2 n := Nat.clog_pos (by decide) (by omega)
  unfold newDataPtrBits dataPtrBits
  dsimp only
  split <;> omega

/-! ## The total -/

theorem sum_zipWith_sub (c : ℤ) : ∀ {bits : List ℤ} {nos : List ℕ}, bits.length = nos.length →
    (bits.zipWith (fun (b : ℤ) (no : ℕ) => b - c * no) nos).sum = bits.sum - c * (nos.sum : ℕ)
  | [], [], _ => by simp
  | b :: bits, no :: nos, h => by
      have hrest := @sum_zipWith_sub c bits nos (by simpa using h)
      rw [List.zipWith_cons_cons, List.sum_cons, hrest, List.sum_cons, List.sum_cons]
      push_cast
      rw [Int.mul_add]
      omega
  | [], _ :: _, h => by simp at h
  | _ :: _, [], h => by simp at h

/-- What `run_dynamic_dict_in_data_segment` should do to a line: the new width is not greater,
every pointer fits, and the new total is the old one without what the matches save, with the
three bits of the width. -/
def Shrunk (k s : ℕ) (words : List K) : Prop :=
  let st := runLwmAlgo k s (Dict.empty : Dict K).clear words
  let oldBits := dataPtrBits words.length
  let newBits := newDataPtrBits st.locDict.lastMaxWordLoc
  ∀ ret, runDynamicDict st.locDict oldBits st = some ret →
    newBits ≤ oldBits ∧
    (∀ (kind : Kind) (wordIndex : ℕ) (wordLoc : ℤ), Token.ptr wordIndex wordLoc ∈ st.tokens →
      kind.ptr wordIndex wordLoc < 2 ^ newBits) ∧
    ret = st.compBitSize - (oldBits - newBits : ℤ) * matchNo st.tokens + 3

/-- Every pointer of a line fits in the width of the greatest matched location. -/
theorem ptr_lt_newDataPtrBits (k s : ℕ) (words : List K) (kind : Kind) {wordIndex : ℕ} {wordLoc : ℤ}
    (h : 0 ≤ (runLwmAlgo k s (Dict.empty : Dict K).clear words).locDict.lastMaxWordLoc)
    (hmem : Token.ptr wordIndex wordLoc ∈
      (runLwmAlgo k s (Dict.empty : Dict K).clear words).tokens) :
    kind.ptr wordIndex wordLoc < 2 ^ newDataPtrBits
      (runLwmAlgo k s (Dict.empty : Dict K).clear words).locDict.lastMaxWordLoc := by
  obtain ⟨htok, hdict, -⟩ := runLwmAlgo_spec k s (Dict.empty : Dict K) words
  rw [htok] at hmem
  rw [hdict] at h ⊢
  have hlt := ptr_lt_charged (located_clear Dict.empty) rfl true hmem kind
  rwa [chargedPtrBits, if_pos ⟨rfl, h⟩] at hlt

/-- **The narrower pointers are right** if and only if no word was matched, so that nothing is
done, or the line consists of whole segments. -/
theorem shrunk_iff {k s : ℕ} (hk : 0 < k) (hs : 0 < s) (words : List K) :
    Shrunk k s words ↔
      (runLwmAlgo k s (Dict.empty : Dict K).clear words).locDict.lastMaxWordLoc < 0 ∨
        s ∣ words.length * k := by
  have hptr := ptr_lt_newDataPtrBits k s words
  have hloc := @lastMaxWordLoc_lt _ _ k s words
  have hrun := runLwmAlgo_accounts hk hs (Dict.empty : Dict K).clear words
  unfold Shrunk
  dsimp only at hrun ⊢
  generalize runLwmAlgo k s (Dict.empty : Dict K).clear words = st at hptr hloc hrun ⊢
  obtain ⟨hlen, ⟨a, hacc⟩, -, -⟩ := hrun
  unfold runDynamicDict
  by_cases h0 : 0 ≤ st.locDict.lastMaxWordLoc
  · have hle := newDataPtrBits_le h0 (hloc h0)
    rw [if_pos h0]
    dsimp only
    rw [sum_zipWith_sub _ (by rw [hacc.bitsLength, hacc.matchLength])]
    have hbits := hacc.sum_bits
    have hmatch := hacc.sum_match
    have hsize := hacc.size
    have hcharge := charge_take_add_drop k (dataPtrBits words.length) a st.tokens
    have hmatches := matches_take_add_drop a st.tokens
    have hdrop := le_charge k (dataPtrBits words.length) (st.tokens.drop a)
    rw [List.length_drop, hlen] at hdrop
    generalize newDataPtrBits st.locDict.lastMaxWordLoc = newBits at hle hptr ⊢
    generalize dataPtrBits words.length = oldBits at *
    constructor
    · intro h
      obtain ⟨-, -, htotal⟩ := h _ rfl
      right
      by_contra hend
      have hlt := hacc.lt_length hlen hend
      -- each word after the last segment costs more than its match saves
      have hsaved : (oldBits - newBits : ℤ) * matchNo (st.tokens.drop a) ≤
          (oldBits * matchNo (st.tokens.drop a) : ℕ) := by
        rw [Nat.cast_mul]
        exact Int.mul_le_mul_of_nonneg_right (by omega) (Int.natCast_nonneg _)
      have hsplit : (oldBits - newBits : ℤ) * matchNo st.tokens =
          (oldBits - newBits : ℤ) * matchNo (st.tokens.take a) +
            (oldBits - newBits : ℤ) * matchNo (st.tokens.drop a) := by
        rw [← Int.mul_add, ← hmatches]
        push_cast
        rfl
      rw [hbits, hmatch, hsize, hsplit] at htotal
      split at htotal <;> omega
    · rintro (hneg | hend)
      · omega
      · rintro ret ⟨rfl⟩
        have ha := hacc.eq_length hlen hend
        refine ⟨hle, fun kind _ _ hmem => hptr kind h0 hmem, ?_⟩
        have hpos : a ≠ 0 := by
          have := hloc h0
          omega
        rw [hbits, hmatch, hsize, if_neg hpos, ha, ← hlen, List.take_length]
        omega
  · rw [if_neg h0]
    exact iff_of_true (by simp) (Or.inl (by omega))

/-- Four words of 2 bytes, two of them matched, in one segment. -/
theorem shrunk_iff_pairs : Shrunk 2 8 [1, 1, 2, 1] :=
  (shrunk_iff (by decide) (by decide) [1, 1, 2, 1]).2 (Or.inr (by decide))

/-- Segments of 6 bytes: the last of four words of 2 bytes is in no segment. -/
theorem shrunk_incomplete : ¬ ∀ (k s : ℕ) (words : List ℕ), 0 < k → 0 < s → Shrunk k s words := by
  intro h
  obtain ⟨-, -, htotal⟩ := h 2 6 [1, 1, 2, 1] (by decide) (by decide) 45 (by decide)
  exact absurd htotal (by decide)

end CompressionWork.Lwm
