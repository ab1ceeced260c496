import CompressionWork.Codec.Coupled
import CompressionWork.Codec.TokenStream
import CompressionWork.Cpack.Compress

/-!
# C-PACK loses nothing

A decoder with a dictionary of its own, and the proof that it follows the encoder through
any sequence of lines.

* `ValidToken d t w raw` — under the dictionary `d` the decoder reads `t` as the word `w`,
  and the code alone says where `t` ends.
* `processWord_valid` — every token of the encoder is valid.
* `decompressLine_compressLine` — one line comes back and the dictionaries stay equal.
* `cpack_lossless` — so does every sequence of lines, from every dictionary.
-/

namespace CompressionWork.Cpack

open Codec

/-! ## The decoder -/

/-- Reads one token under a dictionary: its word, and whether it went out as it is. -/
def readToken (wordDictGlb : WordDict) : Reader Char (Str × Bool)
  | '0' :: '0' :: r => some ([(List.replicate 8 '0', false)], r)
  | '0' :: '1' :: r => some ([(r.take 8, true)], r.drop 8)
  | '1' :: '0' :: r =>
      (searchDict (r.take 5) wordDictGlb).map fun w => ([(w, false)], r.drop 5)
  | '1' :: '1' :: '0' :: '0' :: r =>
      (searchDict (r.take 5) wordDictGlb).map fun w =>
        ([(w.take 4 ++ (r.drop 5).take 4, false)], (r.drop 5).drop 4)
  | '1' :: '1' :: '0' :: '1' :: r =>
      some ([(List.replicate 6 '0' ++ r.take 2, false)], r.drop 2)
  | '1' :: '1' :: '1' :: '0' :: r =>
      (searchDict (r.take 5) wordDictGlb).map fun w =>
        ([(w.take 6 ++ (r.drop 5).take 2, false)], (r.drop 5).drop 2)
  | _ => none

/-- The length of a token, from its code alone. -/
def tokenLength : Str → Option ℕ
  | '0' :: '0' :: _ => some 2
  | '0' :: '1' :: _ => some 10
  | '1' :: '0' :: _ => some 7
  | '1' :: '1' :: '0' :: '0' :: _ => some 13
  | '1' :: '1' :: '0' :: '1' :: _ => some 6
  | '1' :: '1' :: '1' :: '0' :: _ => some 11
  | _ => none

/-- Cuts one token off a stream without looking at any dictionary. -/
def cutToken : Reader Char Str := fun s =>
  (tokenLength s).map fun n => ([s.take n], s.drop n)

/-- The new words among the decoded ones: those that went out as they are. -/
def newWords (syms : List (Str × Bool)) : List Str :=
  syms.foldl (fun lcl p => if p.2 then insertLcl lcl p.1 else lcl) []

/-- Decodes a line and updates the dictionary with its new words. -/
def decompressLine (wordDictGlb : WordDict) (p : SetOrder × Str) : Option (Line × WordDict) :=
  (decode (readToken wordDictGlb) p.2).map fun syms =>
    (⟨p.1, syms.map Prod.fst⟩, updateDict wordDictGlb (p.1.iter (newWords syms)))

/-! ## Tokens -/

/-- `t` stands for `w` under `d`, and its code tells its length. -/
def ValidToken (d : WordDict) (t w : Str) (raw : Bool) : Prop :=
  Reads (readToken d) t [(w, raw)] ∧ Reads cutToken t [t]

variable {d : WordDict}

/-- A token whose length is known is cut off in front of any rest. -/
theorem reads_cutToken {t : Str} (hne : t ≠ []) (h : ∀ r, tokenLength (t ++ r) = some t.length) :
    Reads cutToken t [t] := by
  refine ⟨hne, fun r => ?_⟩
  rw [cutToken, h r, Option.map_some, List.take_left, List.drop_left]

theorem validToken_zzzz : ValidToken d ['0', '0'] (List.replicate 8 '0') false :=
  ⟨⟨by simp, fun _ => rfl⟩, reads_cutToken (by simp) fun _ => rfl⟩

theorem validToken_xxxx {w : Str} (hw : w.length = 8) :
    ValidToken d (['0', '1'] ++ w) w true := by
  refine ⟨⟨by simp, fun r => ?_⟩, reads_cutToken (by simp) fun r => ?_⟩
  · show some ([((w ++ r).take 8, true)], (w ++ r).drop 8) = some ([(w, true)], r)
    rw [List.take_left' hw, List.drop_left' hw]
  · show some 10 = some (w.length + 2)
    rw [hw]

theorem validToken_zzzx {u : Str} (hu : u.length = 2) :
    ValidToken d (['1', '1', '0', '1'] ++ u) (List.replicate 6 '0' ++ u) false := by
  refine ⟨⟨by simp, fun r => ?_⟩, reads_cutToken (by simp) fun r => ?_⟩
  · show some ([(List.replicate 6 '0' ++ (u ++ r).take 2, false)], (u ++ r).drop 2) = _
    rw [List.take_left' hu, List.drop_left' hu]
  · show some 6 = some (u.length + 4)
    rw [hu]

theorem validToken_mmmm (h : DictOk d) {p : Str × Str} (hp : p ∈ d) :
    ValidToken d (['1', '0'] ++ p.2) p.1 false := by
  have hidx : p.2.length = 5 := h.length_index hp
  refine ⟨⟨by simp, fun r => ?_⟩, reads_cutToken (by simp) fun r => ?_⟩
  · show readToken d ('1' :: '0' :: (p.2 ++ r)) = _
    rw [readToken, List.take_left' hidx, h.searchDict_of_mem hp, Option.map_some, List.drop_left' hidx]
  · show some 7 = some (p.2.length + 2)
    rw [hidx]

theorem validToken_mmxx (h : DictOk d) {p : Str × Str} (hp : p ∈ d) {u : Str}
    (hu : u.length = 4) :
    ValidToken d (['1', '1', '0', '0'] ++ p.2 ++ u) (p.1.take 4 ++ u) false := by
  have hidx : p.2.length = 5 := h.length_index hp
  refine ⟨⟨by simp, fun r => ?_⟩, reads_cutToken (by simp) fun r => ?_⟩
  · rw [List.append_assoc, List.append_assoc]
    show readToken d ('1' :: '1' :: '0' :: '0' :: (p.2 ++ (u ++ r))) = _
    rw [readToken, List.take_left' hidx, h.searchDict_of_mem hp, Option.map_some,
      List.drop_left' hidx, List.take_left' hu, List.drop_left' hu]
  · rw [List.append_assoc, List.append_assoc]
    show some 13 = some ((p.2 ++ u).length + 4)
    rw [List.length_append, hidx, hu]

theorem validToken_mmmx (h : DictOk d) {p : Str × Str} (hp : p ∈ d) {u : Str}
    (hu : u.length = 2) :
    ValidToken d (['1', '1', '1', '0'] ++ p.2 ++ u) (p.1.take 6 ++ u) false := by
  have hidx : p.2.length = 5 := h.length_index hp
  refine ⟨⟨by simp, fun r => ?_⟩, reads_cutToken (by simp) fun r => ?_⟩
  · rw [List.append_assoc, List.append_assoc]
    show readToken d ('1' :: '1' :: '1' :: '0' :: (p.2 ++ (u ++ r))) = _
    rw [readToken, List.take_left' hidx, h.searchDict_of_mem hp, Option.map_some,
      List.drop_left' hidx, List.take_left' hu, List.drop_left' hu]
  · rw [List.append_assoc, List.append_assoc]
    show some 11 = some ((p.2 ++ u).length + 4)
    rw [List.length_append, hidx, hu]

/-! ## Comparing words -/

theorem eight_of_length {w : Str} (h : w.length = 8) :
    ∃ c₀ c₁ c₂ c₃ c₄ c₅ c₆ c₇, w = [c₀, c₁, c₂, c₃, c₄, c₅, c₆, c₇] := by
  match w, h with
  | [c₀, c₁, c₂, c₃, c₄, c₅, c₆, c₇], _ => exact ⟨c₀, c₁, c₂, c₃, c₄, c₅, c₆, c₇, rfl⟩

/-- When `process_string_partial` finds three or four zero pairs, these and the unmatched
digits make up the word. -/
theorem processStringPartial_spec {w : Str} (hw : w.length = 8) :
    ((processStringPartial w).1 = ['z', 'z', 'z', 'z'] →
      (processStringPartial w).2 = [] ∧ w = List.replicate 8 '0') ∧
    ((processStringPartial w).1 = ['z', 'z', 'z', 'x'] →
      (processStringPartial w).2.length = 2 ∧
        w = List.replicate 6 '0' ++ (processStringPartial w).2) := by
  obtain ⟨c₀, c₁, c₂, c₃, c₄, c₅, c₆, c₇, rfl⟩ := eight_of_length hw
  have hpairs : chunks bitWord [c₀, c₁, c₂, c₃, c₄, c₅] = [[c₀, c₁], [c₂, c₃], [c₄, c₅]] :=
    @chunks_flatten _ _ (by decide) [[c₀, c₁], [c₂, c₃], [c₄, c₅]] (by simp [bitWord])
  have heq : processStringPartial [c₀, c₁, c₂, c₃, c₄, c₅, c₆, c₇] =
      if [c₆, c₇] = ['0', '0'] then
        (([[c₀, c₁], [c₂, c₃], [c₄, c₅]].filter (· = ['0', '0'])).map (fun _ => 'z') ++ ['z'], [])
      else
        (([[c₀, c₁], [c₂, c₃], [c₄, c₅]].filter (· = ['0', '0'])).map (fun _ => 'z') ++ ['x'],
          [c₆, c₇]) := by
    rw [← hpairs]
    rfl
  -- fewer than three zero pairs give a shorter pattern
  have hzs : ∀ c, ([[c₀, c₁], [c₂, c₃], [c₄, c₅]].filter (· = ['0', '0'])).map (fun _ => 'z') ++
      [c] = ['z', 'z', 'z', c] → [c₀, c₁, c₂, c₃, c₄, c₅] = List.replicate 6 '0' := by
    intro c h
    have hlen := congrArg List.length h
    rw [List.length_append, List.length_map] at hlen
    have hall := List.length_filter_eq_length_iff.1
      (show ([[c₀, c₁], [c₂, c₃], [c₄, c₅]].filter (· = ['0', '0'])).length =
        [[c₀, c₁], [c₂, c₃], [c₄, c₅]].length by simpa using hlen)
    simp only [List.mem_cons, List.not_mem_nil, or_false, decide_eq_true_eq, forall_eq_or_imp,
      forall_eq, List.cons.injEq, and_true] at hall
    simp [hall, List.replicate]
  rw [heq]
  split
  · rename_i hlast
    simp only [List.cons.injEq, and_true] at hlast
    refine ⟨fun h => ⟨rfl, ?_⟩, fun h => ?_⟩
    · have h6 := hzs 'z' h
      rw [show [c₀, c₁, c₂, c₃, c₄, c₅, c₆, c₇] = [c₀, c₁, c₂, c₃, c₄, c₅] ++ [c₆, c₇] from rfl,
        h6, hlast.1, hlast.2]
      rfl
    · have hz := (List.append_inj' (h.trans (show _ = ['z', 'z', 'z'] ++ ['x'] from rfl)) rfl).2
      simp at hz
  · refine ⟨fun h => ?_, fun h => ⟨rfl, ?_⟩⟩
    · have hx := (List.append_inj' (h.trans (show _ = ['z', 'z', 'z'] ++ ['z'] from rfl)) rfl).2
      simp at hx
    · rw [← hzs 'x' h]
      rfl

/-- The compared pairs are the common prefix; what follows is unmatched. -/
theorem compareLoop_spec (ps : List Str) (hps : ∀ p ∈ ps, p.length = bitWord) :
    ∀ cur : Str, cur.length = bitWord * ps.length →
      (compareLoop ps cur).matchCount ≤ ps.length ∧
      ps.flatten.take (bitWord * (compareLoop ps cur).matchCount) ++
        (compareLoop ps cur).localUnmatched = cur ∧
      (compareLoop ps cur).localProcessedStr =
        List.replicate (compareLoop ps cur).matchCount 'm' ++
          if (compareLoop ps cur).matchCount = ps.length then [] else ['x'] := by
  induction ps with
  | nil =>
      intro cur hcur
      rw [List.eq_nil_of_length_eq_zero hcur]
      simp [compareLoop]
  | cons p ps ih =>
      intro cur hcur
      have hp : p.length = bitWord := hps p (List.mem_cons_self ..)
      by_cases heq : p = cur.take bitWord
      · have hdrop : (cur.drop bitWord).length = bitWord * ps.length := by
          rw [List.length_drop, hcur, List.length_cons, Nat.mul_succ]
          omega
        obtain ⟨hle, htake, hproc⟩ :=
          ih (fun q hq => hps q (List.mem_cons_of_mem _ hq)) (cur.drop bitWord) hdrop
        simp only [compareLoop, if_pos heq]
        refine ⟨Nat.succ_le_succ hle, ?_, ?_⟩
        · rw [List.flatten_cons, Nat.mul_succ, Nat.add_comm, ← hp, List.take_length_add_append, hp,
            List.append_assoc, htake]
          nth_rewrite 1 [heq]
          exact List.take_append_drop ..
        · rw [hproc, List.replicate_succ, List.cons_append]
          simp
      · simp only [compareLoop, if_neg heq]
        refine ⟨Nat.zero_le _, by simp, ?_⟩
        simp

/-- `compare_str` on two words: `n` common pairs, `m` for each of them in the pattern. -/
theorem compareStr_spec {dictStr cur : Str} (hd : dictStr.length = 8) (hc : cur.length = 8) :
    (compareStr dictStr cur).matchCount ≤ 4 ∧
      dictStr.take (2 * (compareStr dictStr cur).matchCount) ++
        (compareStr dictStr cur).localUnmatched = cur ∧
      (compareStr dictStr cur).localProcessedStr =
        List.replicate (compareStr dictStr cur).matchCount 'm' ++
          List.replicate (4 - (compareStr dictStr cur).matchCount) 'x' := by
  obtain ⟨ps, hlen, hps, rfl⟩ := exists_slices (k := bitWord) (m := 4) hd
  have hchunks : chunks bitWord ps.flatten = ps := chunks_flatten (by decide) hps
  obtain ⟨hle, htake, hproc⟩ := compareLoop_spec ps hps cur (by rw [hc, hlen]; rfl)
  rw [hlen] at hle hproc
  simp only [compareStr, hchunks]
  refine ⟨hle, htake, ?_⟩
  rw [hproc, List.append_assoc]
  congr 1
  split
  · rename_i h4
    rw [h4]
    rfl
  · rename_i h4
    rw [List.length_append, List.length_replicate, List.length_singleton]
    obtain ⟨k, hk⟩ : ∃ k, 4 - (compareLoop ps cur).matchCount = k + 1 :=
      ⟨3 - (compareLoop ps cur).matchCount, by omega⟩
    rw [hk, show patternSize - ((compareLoop ps cur).matchCount + 1) = k by
      simp only [patternSize]; omega]
    rfl

/-! ## The search through the dictionary -/

/-- What the search has found so far: nothing, or the comparison with some entry. -/
def FoundIn (d : WordDict) (cur : Str) (b : Best) : Prop :=
  b.maxVal = 0 ∨ ∃ p ∈ d, b = ⟨(compareStr p.1 cur).matchCount,
    (compareStr p.1 cur).localUnmatched, p.2, (compareStr p.1 cur).localProcessedStr⟩

theorem foundIn_foldl (cur : Str) (ps : WordDict) (hps : ∀ p ∈ ps, p ∈ d) (b : Best)
    (hb : FoundIn d cur b) : FoundIn d cur (ps.foldl (bestStep cur) b) := by
  induction ps generalizing b with
  | nil => exact hb
  | cons p ps ih =>
      rw [List.foldl_cons]
      refine ih (fun q hq => hps q (List.mem_cons_of_mem _ hq)) _ ?_
      simp only [bestStep]
      split
      · exact Or.inr ⟨p, hps p (List.mem_cons_self ..), rfl⟩
      · exact hb

/-- When `dict_compare` accepts, it returns an entry with at least two pairs in common. -/
theorem dictCompare_true (h : DictOk d) {cur proc unm : Str} (hc : cur.length = 8) {b : Best}
    (hb : dictCompare cur proc unm d = (true, b)) :
    ∃ p ∈ d, ∃ n, b.maxVal = n ∧ 2 ≤ n ∧ n ≤ 4 ∧ b.indexOfDict = p.2 ∧
      p.1.take (2 * n) ++ b.unmatched = cur ∧
      b.processedStr = List.replicate n 'm' ++ List.replicate (4 - n) 'x' := by
  have hfound : FoundIn d cur (d.foldl (bestStep cur) ⟨0, unm, [], proc⟩) :=
    foundIn_foldl cur d (fun _ hp => hp) _ (Or.inl rfl)
  simp only [dictCompare] at hb
  split at hb
  · exact absurd (Prod.mk.inj hb).1 (by simp)
  · rename_i hmax
    split at hb
    · exact absurd (Prod.mk.inj hb).1 (by simp)
    · have hbeq := (Prod.mk.inj hb).2
      rw [hbeq] at hfound hmax
      rcases hfound with h0 | ⟨p, hp, rfl⟩
      · exact absurd (Or.inl h0) hmax
      · obtain ⟨hle, htake, hproc⟩ := compareStr_spec (h.isWord p hp).1 hc
        have hne : ¬ ((compareStr p.1 cur).matchCount = 0 ∨
          (compareStr p.1 cur).matchCount = 1) := hmax
        exact ⟨p, hp, _, rfl, by omega, hle, rfl, htake, hproc⟩

/-- When `dict_compare` rejects, the word goes out as it is. -/
theorem dictCompare_false (h : DictOk d) {cur proc unm : Str} (hc : cur.length = 8) {b : Best}
    (hb : dictCompare cur proc unm d = (false, b)) :
    b.unmatched = cur ∧ b.processedStr = ['x', 'x', 'x', 'x'] := by
  have hfound : FoundIn d cur (d.foldl (bestStep cur) ⟨0, unm, [], proc⟩) :=
    foundIn_foldl cur d (fun _ hp => hp) _ (Or.inl rfl)
  simp only [dictCompare] at hb
  split at hb
  · rw [← (Prod.mk.inj hb).2]
    exact ⟨rfl, rfl⟩
  · rename_i hmax
    split at hb
    · -- a match of two pairs or more always has a code
      rename_i hcode
      rw [(Prod.mk.inj hb).2] at hfound hmax hcode
      rcases hfound with h0 | ⟨p, hp, rfl⟩
      · exact absurd (Or.inl h0) hmax
      · obtain ⟨hle, -, hproc⟩ := compareStr_spec (h.isWord p hp).1 hc
        simp only [hproc] at hcode
        have hn : (compareStr p.1 cur).matchCount = 2 ∨ (compareStr p.1 cur).matchCount = 3 ∨
            (compareStr p.1 cur).matchCount = 4 := by
          have hne : ¬ ((compareStr p.1 cur).matchCount = 0 ∨
            (compareStr p.1 cur).matchCount = 1) := hmax
          omega
        rcases hn with hn | hn | hn <;> rw [hn] at hcode <;> exact absurd hcode (by decide)
    · exact absurd (Prod.mk.inj hb).1 (by simp)

/-! ## One word -/

/-- **Every token of the encoder is valid.** -/
theorem processWord_valid (h : DictOk d) {w : Str} (hw : IsWord w) :
    ValidToken d (processWord d w).outputString w (processWord d w).inserted := by
  obtain ⟨hzzzz, hzzzx⟩ := processStringPartial_spec hw.1
  cases hpart : processStringPartial w with
  | mk proc unm =>
      rw [hpart] at hzzzz hzzzx
      simp only [processWord, hpart]
      by_cases hz : proc = ['z', 'z', 'z', 'z'] ∨ proc = ['z', 'z', 'z', 'x']
      · rw [if_pos hz]
        rcases hz with rfl | rfl
        · obtain ⟨rfl, rfl⟩ := hzzzz rfl
          exact validToken_zzzz
        · obtain ⟨hlen, hweq⟩ := hzzzx rfl
          have hvalid := validToken_zzzx (d := d) hlen
          rw [← hweq] at hvalid
          exact hvalid
      · rw [if_neg hz]
        cases hdict : dictCompare w proc unm d with
        | mk ok b =>
            cases ok with
            | false =>
                obtain ⟨hu, hp⟩ := dictCompare_false h hw.1 hdict
                simp only [hu, hp]
                exact validToken_xxxx hw.1
            | true =>
                obtain ⟨p, hp, n, -, h2, h4, hidx, htake, hproc⟩ := dictCompare_true h hw.1 hdict
                have hlen : b.unmatched.length = 8 - 2 * n := by
                  have hsum := congrArg List.length htake
                  rw [List.length_append, List.length_take, (h.isWord p hp).1, hw.1] at hsum
                  omega
                obtain rfl | rfl | rfl : n = 2 ∨ n = 3 ∨ n = 4 := by omega
                · have hvalid := validToken_mmxx h hp hlen
                  rw [htake] at hvalid
                  simp only [hproc, hidx]
                  exact hvalid
                · have hvalid := validToken_mmmx h hp hlen
                  rw [htake] at hvalid
                  simp only [hproc, hidx]
                  exact hvalid
                · have hnil : b.unmatched = [] := List.eq_nil_of_length_eq_zero hlen
                  have hweq : p.1 = w := by
                    rw [hnil, List.append_nil,
                      List.take_of_length_le (by rw [(h.isWord p hp).1])] at htake
                    exact htake
                  have hvalid := validToken_mmmm h hp
                  rw [hweq] at hvalid
                  simp only [hproc, hidx, hnil]
                  rw [show ((findCode (List.replicate 4 'm' ++ List.replicate (4 - 4) 'x')).map
                    (· ++ p.2 ++ [])) = some (['1', '0'] ++ p.2 ++ []) from rfl, List.append_nil]
                  exact hvalid

/-! ## One line -/

/-- The loop of `input_processor` from any state. -/
theorem foldl_processStep (words : List Str) (s : ProcState) :
    words.foldl (processStep d) s =
      ⟨s.outputToGet ++ words.map fun w => (processWord d w).outputString,
        (words.map fun w => (w, (processWord d w).inserted)).foldl
          (fun lcl p => if p.2 then insertLcl lcl p.1 else lcl) s.wordDictLcl,
        s.flitCount + (words.map fun w => (processWord d w).bits).sum⟩ := by
  induction words generalizing s with
  | nil => simp
  | cons w words ih =>
      rw [List.foldl_cons, ih]
      simp [processStep, Nat.add_assoc]

theorem inputProcessor_eq (words : List Str) :
    inputProcessor d words =
      ⟨words.map fun w => (processWord d w).outputString,
        newWords (words.map fun w => (w, (processWord d w).inserted)),
        (words.map fun w => (processWord d w).bits).sum⟩ := by
  rw [inputProcessor, foldl_processStep, List.nil_append, Nat.zero_add]
  rfl

/-- The words a line adds are words of the line. -/
theorem mem_newWords {syms : List (Str × Bool)} {w : Str} (h : w ∈ newWords syms) :
    w ∈ syms.map Prod.fst := by
  induction syms using List.reverseRecOn generalizing w with
  | nil => simp [newWords] at h
  | append_singleton syms p ih =>
      rw [newWords, List.foldl_append, List.foldl_cons, List.foldl_nil] at h
      rw [List.map_append, List.mem_append]
      split at h
      · rcases mem_insertLcl h with h | rfl
        · exact Or.inl (ih h)
        · exact Or.inr (by simp)
      · exact Or.inl (ih h)

/-- A reader that knows every token of a line reads the whole line. -/
theorem decode_outputs {β : Type} {read : Reader Char β} {words : List Str} {sym : Str → β}
    (h : ∀ w ∈ words, Reads read (processWord d w).outputString [sym w]) :
    decode read (inputProcessor d words).outputToGet.flatten = some (words.map sym) := by
  have hreads : ∀ p ∈ words.map fun w => ((processWord d w).outputString, [sym w]),
      Reads read p.1 p.2 := by
    intro p hp
    obtain ⟨w, hw, rfl⟩ := List.mem_map.1 hp
    exact h w hw
  have hdec := decode_flatten _ hreads
  rw [List.flatMap_map, List.flatMap_map] at hdec
  rw [inputProcessor_eq, ← List.flatMap_def, hdec, ← List.flatMap_pure_eq_map]
  rfl

/-- **One line comes back**, and the decoder's dictionary is the encoder's. -/
theorem decompressLine_compressLine (h : DictOk d) {l : Line} (hl : ∀ w ∈ l.words, IsWord w) :
    decompressLine d (compressLine d l).1 = some (l, (compressLine d l).2) := by
  have hdec : decode (readToken d) (inputProcessor d l.words).outputToGet.flatten =
      some (l.words.map fun w => (w, (processWord d w).inserted)) :=
    decode_outputs fun w hw => (processWord_valid h (hl w hw)).1
  have hfst : (l.words.map fun w => (w, (processWord d w).inserted)).map Prod.fst = l.words := by
    rw [List.map_map]
    exact List.map_id _
  simp only [decompressLine, compressLine, hdec, Option.map_some, hfst]
  rw [inputProcessor_eq]

/-- **The codes alone cut a line into its tokens.** -/
theorem decode_cutToken (h : DictOk d) {words : List Str} (hw : ∀ w ∈ words, IsWord w) :
    decode cutToken (inputProcessor d words).outputToGet.flatten =
      some (inputProcessor d words).outputToGet := by
  rw [decode_outputs fun w hmem => (processWord_valid h (hw w hmem)).2, inputProcessor_eq]

/-- A line keeps the invariant of the dictionary. -/
theorem compressLine_ok (h : DictOk d) {l : Line} (hl : ∀ w ∈ l.words, IsWord w) :
    DictOk (compressLine d l).2 := by
  refine updateDict_ok (fun w hw => hl w ?_) h
  have hmem := (l.order.perm _).mem_iff.1 hw
  rw [inputProcessor_eq] at hmem
  obtain ⟨p, hp, rfl⟩ := List.mem_map.1 (mem_newWords hmem)
  obtain ⟨v, hv, rfl⟩ := List.mem_map.1 hp
  exact hv

/-! ## Sequences of lines -/

/-- **C-PACK is lossless.**  From every dictionary, a decoder that updates its own copy as
the encoder does gives every line back and ends with the same dictionary; and the codes
alone cut each line into its tokens. -/
theorem cpack_lossless (dict : Dict) (lines : List Line)
    (hw : ∀ l ∈ lines, ∀ w ∈ l.words, IsWord w) :
    decodeRun decompressLine dict.wordDictGlb
        (encodeRun compressLine dict.wordDictGlb lines).1 =
      some (lines, (encodeRun compressLine dict.wordDictGlb lines).2) ∧
    ∀ l ∈ lines, ∀ dict' : Dict,
      decode cutToken (inputProcessor dict'.wordDictGlb l.words).outputToGet.flatten =
        some (inputProcessor dict'.wordDictGlb l.words).outputToGet := by
  constructor
  · exact decodeRun_encodeRun (I := DictOk) (P := fun l : Line => ∀ w ∈ l.words, IsWord w)
      (fun _ _ hs hl => decompressLine_compressLine hs hl)
      (fun _ _ hs hl => compressLine_ok hs hl) lines _ dict.ok hw
  · exact fun l hl dict' => decode_cutToken dict'.ok (hw l hl)

/-- A word, and the same word in the next line: first as it is, then by its index. -/
def twoLines : List Line :=
  [⟨SetOrder.insertion, [['1', '2', '3', '4', '5', '6', '7', '8']]⟩,
    ⟨SetOrder.insertion, [['1', '2', '3', '4', '5', '6', '7', '8']]⟩]

theorem cpack_lossless_twoLines :
    ((encodeRun compressLine [] twoLines).1.map Prod.snd =
      [['0', '1', '1', '2', '3', '4', '5', '6', '7', '8'], ['1', '0', '0', '0', '0', '0', '0']]) ∧
    decodeRun decompressLine [] (encodeRun compressLine [] twoLines).1 =
      some (twoLines, (encodeRun compressLine [] twoLines).2) :=
  ⟨by decide, (cpack_lossless Dict.empty twoLines (by decide)).1⟩

end CompressionWork.Cpack
