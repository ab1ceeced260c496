import CompressionWork.Fpc.Lossless

/-!
# The words that `convert_output` counts

`get_binary` writes the length of a zero run with the heaviest digit first, and
`convert_output` reads it with the lightest digit first.  The two agree on the lengths
whose three digits are a palindrome.

* `zeroStretches ws` — the lengths of the zero stretches between the other words.
* `Gains`, `Loses` — the lengths that are read three words too long or too short.
* `tokenWords_run` — one run, as it is written and as it is read.
* `tempOuts_words`, `tempOuts_readBack` — all tokens of a packet.
* `wordCount_iff` — when a packet is counted right.
-/

namespace CompressionWork.Fpc

open Codec

/-- The lengths of the stretches of zero words before, between and behind the other words; a
stretch may be empty. -/
def zeroStretches (ws : List Str) : List ℕ :=
  (ws.splitOnP (· != genZero dataSize)).map List.length

/-- The last run of a stretch of `n` zero words is read three words too long. -/
def Gains (n : ℕ) : Bool := n % 8 = 2 || n % 8 = 4

/-- The last run of a stretch of `n` zero words is read three words too short. -/
def Loses (n : ℕ) : Bool := n % 8 = 5 || n % 8 = 7

/-- The field of a zero run is read as the number that was written; other tokens have no
such field. -/
def ReadBack (t : Str) : Prop :=
  t.take 3 = ['0', '0', '0'] → zeroCt ((t.drop 3).take 3) = binaryValue ((t.drop 3).take 3)

/-! ## Stretches -/

@[simp]
theorem zeroStretches_nil : zeroStretches [] = [0] := rfl

theorem zeroStretches_cons_ne {w : Str} (hw : w ≠ genZero dataSize) (ws : List Str) :
    zeroStretches (w :: ws) = 0 :: zeroStretches ws := by
  have h : (w != genZero dataSize) = true := by simpa using hw
  simp [zeroStretches, List.splitOnP_cons_eq_if_modifyHead, h]

theorem zeroStretches_cons_zero (ws : List Str) :
    zeroStretches (genZero dataSize :: ws) = (zeroStretches ws).modifyHead (· + 1) := by
  cases h : ws.splitOnP (· != genZero dataSize) with
  | nil => exact absurd h (List.splitOnP_ne_nil _ _)
  | cons s ss => simp [zeroStretches, List.splitOnP_cons_eq_if_modifyHead, h]

theorem zeroStretches_run (k : ℕ) (ws : List Str) :
    zeroStretches (List.replicate k (genZero dataSize) ++ ws) =
      (zeroStretches ws).modifyHead (· + k) := by
  induction k with
  | zero =>
      have hid : (fun n : ℕ => n + 0) = id := rfl
      rw [List.replicate_zero, List.nil_append, hid, List.modifyHead_id, id]
  | succ k ih =>
      rw [List.replicate_succ, List.cons_append, zeroStretches_cons_zero, ih,
        List.modifyHead_modifyHead]
      rfl

/-- What follows a run of fewer than eight words does not start with a zero word. -/
def StopsRun (ws : List Str) : Prop := ws.head? ≠ some (genZero dataSize)

theorem StopsRun.stretches {ws : List Str} (h : StopsRun ws) :
    ∃ ns, zeroStretches ws = 0 :: ns := by
  cases ws with
  | nil => exact ⟨[], rfl⟩
  | cons w ws =>
      have hw : w ≠ genZero dataSize := fun hz => h (by rw [hz]; rfl)
      exact ⟨zeroStretches ws, zeroStretches_cons_ne hw ws⟩

/-! ## The encoder's loop, run by run -/

theorem tempOuts_skip (skip : ℕ) (ws : List Str) :
    tempOuts tracker skip ws = tempOuts tracker 0 (ws.drop skip) := by
  induction skip generalizing ws with
  | zero => rfl
  | succ skip ih =>
      cases ws with
      | nil => rfl
      | cons w ws => rw [tempOuts, ih, List.drop_succ_cons]

/-- A run that is not full ends at a word other than zero. -/
theorem stopsRun_drop (n : ℕ) (ws : List Str) (h : zeroRun n ws < n) :
    StopsRun (ws.drop (zeroRun n ws)) := by
  induction n generalizing ws with
  | zero => exact absurd h (Nat.not_lt_zero _)
  | succ n ih =>
      cases ws with
      | nil => simp [StopsRun]
      | cons w ws =>
          rw [zeroRun] at h ⊢
          split
          · rename_i hw
            rw [if_pos hw] at h
            exact ih ws (Nat.lt_of_succ_lt_succ h)
          · rename_i hw
            simpa [StopsRun] using hw

/-- Words as the encoder's loop takes them: one word that is not zero, or a run of zero words
that is full or stops at another word. -/
theorem words_induction {P : List Str → Prop} (nil : P [])
    (word : ∀ w ws, w ≠ genZero dataSize → P ws → P (w :: ws))
    (run : ∀ k ws, k < 8 → (k = 7 ∨ StopsRun ws) →
      zeroRun 7 (List.replicate k (genZero dataSize) ++ ws) = k → P ws →
        P (List.replicate (k + 1) (genZero dataSize) ++ ws)) (ws : List Str) : P ws := by
  induction hn : ws.length using Nat.strong_induction_on generalizing ws with
  | _ n ih =>
      cases ws with
      | nil => exact nil
      | cons w ws =>
          rw [List.length_cons] at hn
          by_cases hw : w = genZero dataSize
          · have hle := zeroRun_le 7 ws
            have hsplit := zeroRun_append 7 ws
            have hrec : P (ws.drop (zeroRun 7 ws)) :=
              ih _ (by rw [List.length_drop]; omega) _ rfl
            have hstop : zeroRun 7 ws = 7 ∨ StopsRun (ws.drop (zeroRun 7 ws)) := by
              rcases Nat.lt_or_ge (zeroRun 7 ws) 7 with hlt | hge
              · exact Or.inr (stopsRun_drop 7 ws hlt)
              · exact Or.inl (by omega)
            have hrun := run (zeroRun 7 ws) _ (by omega) hstop (by rw [hsplit]) hrec
            rwa [List.replicate_succ, List.cons_append, hsplit, ← hw] at hrun
          · exact word w ws hw (ih _ (by omega) ws rfl)

/-- The token of a run, and what the loop goes on with. -/
theorem tempOuts_run {k : ℕ} {ws : List Str}
    (hk : zeroRun 7 (List.replicate k (genZero dataSize) ++ ws) = k) :
    tempOuts tracker 0 (List.replicate (k + 1) (genZero dataSize) ++ ws) =
      (['0', '0', '0'] ++ getBinary k 3) :: tempOuts tracker 0 ws := by
  have hdrop : (List.replicate k (genZero dataSize) ++ ws).drop k = ws :=
    List.drop_left' (List.length_replicate ..)
  rw [List.replicate_succ, List.cons_append, tempOuts, if_pos rfl, hk]
  simp only [Nat.add_sub_cancel]
  rw [tempOuts_skip, hdrop]

theorem tempOuts_word {w : Str} {ws : List Str} (hw : w ≠ genZero dataSize) :
    tempOuts tracker 0 (w :: ws) = eachCompress w tracker [] :: tempOuts tracker 0 ws := by
  rw [tempOuts, if_neg hw]

/-! ## One token -/

/-- A run of `k + 1` words as it is read. -/
theorem tokenWords_run {k : ℕ} (hk : k < 8) :
    tokenWords (['0', '0', '0'] ++ getBinary k 3) + (if Loses (k + 1) then 3 else 0) =
      k + 1 + (if Gains (k + 1) then 3 else 0) := by
  have all : ∀ n < 8, tokenWords (['0', '0', '0'] ++ getBinary n 3) +
      (if Loses (n + 1) then 3 else 0) = n + 1 + (if Gains (n + 1) then 3 else 0) := by decide
  exact all k hk

theorem readBack_run {k : ℕ} (hk : k < 8) :
    ReadBack (['0', '0', '0'] ++ getBinary k 3) ↔ ¬ Gains (k + 1) ∧ ¬ Loses (k + 1) := by
  have all : ∀ n < 8, (zeroCt (((['0', '0', '0'] ++ getBinary n 3).drop 3).take 3) =
      binaryValue (((['0', '0', '0'] ++ getBinary n 3).drop 3).take 3)) ↔
        ¬ Gains (n + 1) ∧ ¬ Loses (n + 1) := by decide
  rw [← all k hk, ReadBack]
  exact ⟨fun h => h (take_pattern rfl _), fun h _ => h⟩

theorem ValidToken.oneWord {w t : Str} (h : ValidToken w t) :
    tokenWords t = 1 ∧ ReadBack t := by
  obtain ⟨pattern, payload, rfl, hlen, hne, -, -⟩ := h
  have htake : (pattern ++ payload).take 3 ≠ ['0', '0', '0'] := by rwa [take_pattern hlen]
  exact ⟨if_neg htake, fun h => absurd h htake⟩

/-! ## All tokens -/

/-- A stretch counts as its last run does. -/
theorem gains_add_eight (n : ℕ) : Gains (n + 8) = Gains n ∧ Loses (n + 8) = Loses n := by
  rw [Gains, Gains, Loses, Loses, Nat.add_mod_right]
  exact ⟨rfl, rfl⟩

/-- Every stretch whose last run is read too long adds three words, and every one whose last
run is read too short takes three off. -/
theorem tempOuts_words (ws : List Str) (hws : ∀ w ∈ ws, IsWord w) :
    ((tempOuts tracker 0 ws).map tokenWords).sum + 3 * (zeroStretches ws).countP Loses =
      ws.length + 3 * (zeroStretches ws).countP Gains := by
  induction ws using words_induction with
  | nil => decide
  | word w ws hw ih =>
      have hone := (eachCompress_valid (hws w (List.mem_cons_self ..)) hw).oneWord.1
      have hrec := ih fun v hv => hws v (List.mem_cons_of_mem _ hv)
      have h0 : Gains 0 = false ∧ Loses 0 = false := by decide
      rw [tempOuts_word hw, zeroStretches_cons_ne hw, List.map_cons, List.sum_cons, hone,
        List.length_cons, List.countP_cons, List.countP_cons, h0.1, h0.2]
      simp only [Bool.false_eq_true, if_false]
      omega
  | run k ws hk hstop hrun ih =>
      have hrec := ih fun v hv => hws v (List.mem_append_right _ hv)
      have htok := tokenWords_run hk
      rw [tempOuts_run hrun, zeroStretches_run, List.map_cons, List.sum_cons,
        List.length_append, List.length_replicate]
      rcases hstop with rfl | hstop
      · -- a full run: the stretch goes on, and its length modulo eight stays
        obtain ⟨n, ns, hns⟩ : ∃ n ns, zeroStretches ws = n :: ns :=
          List.exists_cons_of_ne_nil (by simp [zeroStretches, List.splitOnP_ne_nil])
        rw [hns] at hrec ⊢
        rw [List.modifyHead_cons, List.countP_cons, List.countP_cons, (gains_add_eight n).1,
          (gains_add_eight n).2, ← List.countP_cons, ← List.countP_cons]
        have h8 : Gains 8 = false ∧ Loses 8 = false := by decide
        simp only [Nat.reduceAdd, h8.1, h8.2, Bool.false_eq_true, if_false] at htok
        omega
      · obtain ⟨ns, hns⟩ := hstop.stretches
        rw [hns] at hrec ⊢
        have h0 : Gains 0 = false ∧ Loses 0 = false := by decide
        rw [List.countP_cons, List.countP_cons, h0.1, h0.2] at hrec
        simp only [Bool.false_eq_true, if_false] at hrec
        rw [List.modifyHead_cons, Nat.zero_add, List.countP_cons, List.countP_cons]
        split at htok <;> split at htok <;> simp_all <;> omega

/-- All runs are read as they were written when no stretch ends in one that is not. -/
theorem tempOuts_readBack (ws : List Str) (hws : ∀ w ∈ ws, IsWord w) :
    (∀ t ∈ tempOuts tracker 0 ws, ReadBack t) ↔
      ∀ n ∈ zeroStretches ws, ¬ Gains n ∧ ¬ Loses n := by
  have h0 : ¬ Gains 0 ∧ ¬ Loses 0 := by decide
  induction ws using words_induction with
  | nil => simpa [tempOuts] using h0
  | word w ws hw ih =>
      have hone := (eachCompress_valid (hws w (List.mem_cons_self ..)) hw).oneWord.2
      have hrec : (∀ t ∈ tempOuts tracker 0 ws, ReadBack t) ↔
          ∀ n ∈ zeroStretches ws, ¬ Gains n ∧ ¬ Loses n :=
        ih fun v hv => hws v (List.mem_cons_of_mem _ hv)
      rw [tempOuts_word hw, zeroStretches_cons_ne hw, List.forall_mem_cons,
        List.forall_mem_cons, hrec]
      exact and_congr (iff_of_true hone h0) Iff.rfl
  | run k ws hk hstop hrun ih =>
      have hrec : (∀ t ∈ tempOuts tracker 0 ws, ReadBack t) ↔
          ∀ n ∈ zeroStretches ws, ¬ Gains n ∧ ¬ Loses n :=
        ih fun v hv => hws v (List.mem_append_right _ hv)
      rw [tempOuts_run hrun, zeroStretches_run, List.forall_mem_cons, hrec, readBack_run hk]
      rcases hstop with rfl | hstop
      · obtain ⟨n, ns, hns⟩ : ∃ n ns, zeroStretches ws = n :: ns :=
          List.exists_cons_of_ne_nil (by simp [zeroStretches, List.splitOnP_ne_nil])
        have h8 : ¬ Gains (7 + 1) ∧ ¬ Loses (7 + 1) := by decide
        rw [hns, List.modifyHead_cons, List.forall_mem_cons, List.forall_mem_cons,
          (gains_add_eight n).1, (gains_add_eight n).2]
        exact and_iff_right h8
      · obtain ⟨ns, hns⟩ := hstop.stretches
        rw [hns, List.modifyHead_cons, List.forall_mem_cons, List.forall_mem_cons, Nat.zero_add,
          and_iff_right h0]

/-! ## The count of a packet -/

/-- **When `convert_output` counts the words of the packet**: the stretches whose last run is
read too long are as many as those whose last run is read too short.  Every single run is
read as the encoder wrote it when there are none of either kind. -/
theorem wordCount_iff (words : List Str) (hw : ∀ w ∈ words, IsWord w) :
    ∃ c, convertOutput (compress words.flatten tracker) tracker = some c ∧
      (c.ct = words.length ↔
        (zeroStretches words).countP Gains = (zeroStretches words).countP Loses) ∧
      ((∀ t ∈ tempOuts tracker 0 words, ReadBack t) ↔
        ∀ n ∈ zeroStretches words, ¬ Gains n ∧ ¬ Loses n) := by
  refine ⟨_, convertOutput_compress hw, ?_, tempOuts_readBack words hw⟩
  have hsum := tempOuts_words words hw
  constructor
  · intro h
    dsimp only at h
    omega
  · intro h
    dsimp only
    omega

/-- Two zero words stand in one run, whose field `001` is read as four. -/
theorem wordCount_two_zeros : (∀ w ∈ [genZero 8, genZero 8], IsWord w) ∧
    ∃ c, convertOutput (compress [genZero 8, genZero 8].flatten tracker) tracker = some c ∧
      (c.ct = 2 ↔ (zeroStretches [genZero 8, genZero 8]).countP Gains =
        (zeroStretches [genZero 8, genZero 8]).countP Loses) ∧
      ((∀ t ∈ tempOuts tracker 0 [genZero 8, genZero 8], ReadBack t) ↔
        ∀ n ∈ zeroStretches [genZero 8, genZero 8], ¬ Gains n ∧ ¬ Loses n) :=
  have hw : ∀ w ∈ [genZero 8, genZero 8], IsWord w := by decide
  ⟨hw, wordCount_iff [genZero 8, genZero 8] hw⟩

/-- A line of two zero words is counted as five. -/
theorem not_wordCount : ¬ ∀ words : List Str, (∀ w ∈ words, IsWord w) →
    (convertOutput (compress words.flatten tracker) tracker).map Counts.ct =
      some words.length := by
  intro h
  exact absurd (h [genZero 8, genZero 8] (by decide)) (by decide)

end CompressionWork.Fpc
