import CompressionWork.Abpd.Compress
import CompressionWork.Sampling.Code
import Mathlib

/-!
# ABPD tokens decode

* `inputProcessor_eq` — the token of a word says whether it is repeated and whether it has
  occurred before.
* `decodeDict_eq` — the dictionary that the decoder collects is the encoder's, with keys and
  values exchanged.
* `decodeString_inputProcessor` — with at most 32 repeated words the tokens decode to the words.
-/

namespace CompressionWork.Abpd

open Codec Sampling

variable {words : List Str}

/-! ## The encoder's dictionary -/

/-- The dictionary after some of the words. -/
def dictAfter (words seen : List Str) : List (Str × Str) :=
  seen.foldl (addRepeated (countWords words)) []

theorem addRepeated_eq {w : Str} (hw : w ∈ words) (dict : List (Str × Str)) :
    addRepeated (countWords words) dict w =
      if 2 ≤ words.count w then insertNew dict w (indexString dict.length) else dict := by
  have hcount : (countWords words).lookup w = some (words.count w) :=
    lookup_eq_of_mem (countWords_spec words).nodup
      (((countWords_spec words).mem_iff w _).2 ⟨hw, rfl⟩)
  rw [addRepeated, hcount]
  rfl

theorem dictAfter_concat {seen : List Str} {w : Str} (hw : w ∈ words) :
    dictAfter words (seen ++ [w]) =
      if 2 ≤ words.count w then
        insertNew (dictAfter words seen) w (indexString (dictAfter words seen).length)
      else dictAfter words seen := by
  rw [dictAfter, List.foldl_append, List.foldl_cons, List.foldl_nil, addRepeated_eq hw]
  rfl

/-- The keys are the repeated words, once each, and the values are the indices in their order. -/
structure DictOk (words seen : List Str) (dict : List (Str × Str)) : Prop where
  mem_keys : ∀ w, w ∈ dict.map Prod.fst ↔ w ∈ seen ∧ 2 ≤ words.count w
  nodup : (dict.map Prod.fst).Nodup
  values : dict.map Prod.snd = (List.range dict.length).map indexString

/-- A word that is not repeated, or known, changes nothing; another one gets the next index. -/
theorem DictOk.concat {seen : List Str} {dict : List (Str × Str)} (h : DictOk words seen dict)
    (w : Str) :
    DictOk words (seen ++ [w])
      (if 2 ≤ words.count w then insertNew dict w (indexString dict.length) else dict) := by
  have hseen : ∀ v, v ∈ seen ++ [w] ∧ 2 ≤ words.count v ↔
      (v ∈ seen ∧ 2 ≤ words.count v) ∨ (v = w ∧ 2 ≤ words.count w) := by
    intro v
    rw [List.mem_append, List.mem_singleton]
    constructor
    · rintro ⟨hv | rfl, hcount⟩
      · exact Or.inl ⟨hv, hcount⟩
      · exact Or.inr ⟨rfl, hcount⟩
    · rintro (⟨hv, hcount⟩ | ⟨rfl, hcount⟩)
      · exact ⟨Or.inl hv, hcount⟩
      · exact ⟨Or.inr rfl, hcount⟩
  by_cases hcount : 2 ≤ words.count w
  · rw [if_pos hcount]
    by_cases hw : w ∈ dict.map Prod.fst
    · have hsame : insertNew dict w (indexString dict.length) = dict :=
        if_pos (isSome_lookup_iff.2 hw)
      rw [hsame]
      refine ⟨fun v => ?_, h.nodup, h.values⟩
      rw [hseen, ← h.mem_keys]
      constructor
      · exact Or.inl
      · rintro (hv | ⟨rfl, -⟩)
        · exact hv
        · exact hw
    · rw [insertNew_of_not_mem hw]
      refine ⟨fun v => ?_, ?_, ?_⟩
      · rw [hseen, List.map_append, List.mem_append, h.mem_keys]
        simp [hcount]
      · rw [List.map_append, List.nodup_append]
        refine ⟨h.nodup, by simp, fun a ha b hb hab => hw ?_⟩
        simp only [List.map_cons, List.map_nil, List.mem_singleton] at hb
        rwa [← hb, ← hab]
      · rw [List.map_append, h.values, List.length_append, List.length_singleton,
          List.range_succ, List.map_append]
        rfl
  · rw [if_neg hcount]
    refine ⟨fun v => ?_, h.nodup, h.values⟩
    rw [hseen, ← h.mem_keys]
    constructor
    · exact Or.inl
    · rintro (hv | ⟨-, hw⟩)
      · exact hv
      · exact absurd hw hcount

theorem dictOk_dictAfter {seen : List Str} (h : ∀ w ∈ seen, w ∈ words) :
    DictOk words seen (dictAfter words seen) := by
  induction seen using List.reverseRecOn with
  | nil => exact ⟨by simp [dictAfter], by simp [dictAfter], rfl⟩
  | append_singleton seen w ih =>
      rw [dictAfter_concat (h w (by simp))]
      exact (ih fun v hv => h v (by simp [hv])).concat w

/-- The dictionary has an entry for each repeated word. -/
theorem length_dictAfter (words : List Str) :
    (dictAfter words words).length = (repeated words).length := by
  have h := @dictOk_dictAfter words _ fun _ hw => hw
  have hperm : ((dictAfter words words).map Prod.fst).Perm (repeated words) := by
    refine (List.perm_ext_iff_of_nodup h.nodup (List.nodup_dedup _)).2 fun w => ?_
    rw [h.mem_keys, List.mem_dedup, List.mem_filter, decide_eq_true_iff]
  rw [← hperm.length_eq, List.length_map]

/-! ## The tokens -/

/-- The token of a word after the words in `seen`. -/
def tokenOf (words seen : List Str) (w : Str) : Str :=
  if 2 ≤ words.count w then
    if w ∈ seen then '1' :: '0' :: ((dictAfter words words).lookup w).getD []
    else '0' :: '1' :: w
  else '0' :: '0' :: w

/-- The tokens of the words `rest` after the words in `seen`. -/
def tokensFrom (words : List Str) : List Str → List Str → List Str
  | _, [] => []
  | seen, w :: rest => tokenOf words seen w :: tokensFrom words (seen ++ [w]) rest

/-- The occurrence map after the words in `seen`: 2 for the repeated ones among them. -/
def OccOk (words seen : List Str) (occ : List (Str × ℕ)) : Prop :=
  ∀ w ∈ words, occ.lookup w = some (if 2 ≤ words.count w ∧ w ∈ seen then 2 else 1)

theorem lookup_occCheck (words : List Str) (w : Str) :
    (occCheck words).lookup w = if w ∈ words then some 1 else none := by
  induction words using List.reverseRecOn with
  | nil => rfl
  | append_singleton words v ih =>
      rw [occCheck] at ih
      rw [occCheck, List.foldl_append, List.foldl_cons, List.foldl_nil, lookup_insertNew]
      by_cases hwv : w = v
      · subst hwv
        rw [if_pos rfl, ih]
        by_cases hmem : w ∈ words <;> simp [hmem]
      · rw [if_neg hwv, ih]
        simp [hwv]

/-- One word: its token, and the map afterwards. -/
theorem encodeData_spec {seen : List Str} {occ : List (Str × ℕ)} (h : OccOk words seen occ)
    {w : Str} (hw : w ∈ words) :
    (encodeData (dictAfter words words) occ w).1 = tokenOf words seen w ∧
      OccOk words (seen ++ [w]) (encodeData (dictAfter words words) occ w).2 := by
  have hdict := @dictOk_dictAfter words _ fun _ hv => hv
  have hkey : w ∈ (dictAfter words words).map Prod.fst ↔ 2 ≤ words.count w := by
    rw [hdict.mem_keys]
    exact and_iff_right hw
  have hocc := h w hw
  unfold encodeData tokenOf
  cases hlook : (dictAfter words words).lookup w with
  | none =>
      have hcount : ¬ 2 ≤ words.count w := by
        rw [← hkey, ← isSome_lookup_iff, hlook]
        decide
      refine ⟨by rw [if_neg hcount], fun v hv => ?_⟩
      rw [h v hv]
      by_cases hvw : v = w
      · simp [hvw, hcount]
      · simp [hvw]
  | some index =>
      have hcount : 2 ≤ words.count w := by
        rw [← hkey, ← isSome_lookup_iff, hlook]
        rfl
      by_cases hseen : w ∈ seen
      · have hsecond : ¬ (some 2 = some 1) := by decide
        rw [hocc, if_pos ⟨hcount, hseen⟩]
        dsimp only
        rw [if_neg hsecond]
        refine ⟨by simp [hcount, hseen], fun v hv => ?_⟩
        rw [h v hv]
        by_cases hvw : v = w
        · simp [hvw, hseen]
        · simp [hvw]
      · rw [hocc, if_neg fun hboth => hseen hboth.2]
        dsimp only
        rw [if_pos rfl]
        refine ⟨by simp [hcount, hseen], fun v hv => ?_⟩
        rw [lookup_countWord, h v hv]
        by_cases hvw : v = w
        · subst hvw
          rw [if_pos rfl, hocc, if_neg fun hboth => hseen hboth.2]
          simp [hcount]
        · simp [hvw]

theorem encodeRun_eq (rest : List Str) : ∀ {seen : List Str} {occ : List (Str × ℕ)},
    words = seen ++ rest → OccOk words seen occ →
      (encodeRun (encodeData (dictAfter words words)) occ rest).1 = tokensFrom words seen rest := by
  induction rest with
  | nil => intro seen occ _ _; rfl
  | cons w rest ih =>
      intro seen occ hwords h
      obtain ⟨htoken, hocc⟩ := encodeData_spec h (w := w) (by simp [hwords])
      rw [encodeRun, tokensFrom, htoken, ih (by rw [hwords]; simp) hocc]

/-- **What the tokens of a line are.** -/
theorem inputProcessor_eq (words : List Str) :
    inputProcessor words = tokensFrom words [] words := by
  refine encodeRun_eq words rfl fun w hw => ?_
  rw [prepareDict, lookup_occCheck, if_pos hw]
  simp

/-! ## The decoder's dictionary -/

theorem indexString_inj {i j : ℕ} (hi : i < 32) (hj : j < 32) (h : indexString i = indexString j) :
    i = j :=
  @getBinary_inj 5 _ _ (by omega) (by omega) h

/-- One token: the decoder adds what the encoder adds. -/
theorem addDecoded_tokenOf {seen : List Str} {w : Str} (hseen : ∀ v ∈ seen, v ∈ words)
    (hw : w ∈ words) (hroom : (dictAfter words (seen ++ [w])).length ≤ 32) :
    addDecoded ((dictAfter words seen).map Prod.swap) (tokenOf words seen w) =
      (dictAfter words (seen ++ [w])).map Prod.swap := by
  have hdict := dictOk_dictAfter hseen
  rw [dictAfter_concat hw] at hroom ⊢
  unfold addDecoded tokenOf
  by_cases hcount : 2 ≤ words.count w
  · rw [if_pos hcount] at hroom ⊢
    rw [if_pos hcount]
    by_cases hmem : w ∈ seen
    · have hkey : w ∈ (dictAfter words seen).map Prod.fst := (hdict.mem_keys w).2 ⟨hmem, hcount⟩
      rw [if_pos hmem, if_neg (by simp), insertNew, if_pos (isSome_lookup_iff.2 hkey)]
    · have hkey : w ∉ (dictAfter words seen).map Prod.fst := fun h =>
        hmem ((hdict.mem_keys w).1 h).1
      rw [insertNew_of_not_mem hkey, List.length_append, List.length_singleton] at hroom
      -- the index is new to the decoder too
      have hnew : indexString (dictAfter words seen).length ∉
          ((dictAfter words seen).map Prod.swap).map Prod.fst := by
        rw [List.map_map, show Prod.fst ∘ Prod.swap = (Prod.snd : Str × Str → Str) from rfl,
          hdict.values]
        intro h
        obtain ⟨i, hi, heq⟩ := List.mem_map.1 h
        have hlt := List.mem_range.1 hi
        have := indexString_inj (by omega) (by omega) heq
        omega
      rw [if_neg hmem, if_pos (by simp), insertNew_of_not_mem hkey, List.length_map,
        insertNew_of_not_mem hnew, List.map_append]
      rfl
  · rw [if_neg hcount, if_neg hcount, if_neg (by simp)]

/-- The dictionary only grows. -/
theorem length_dictAfter_le (seen rest : List Str) :
    (dictAfter words seen).length ≤ (dictAfter words (seen ++ rest)).length := by
  induction rest using List.reverseRecOn with
  | nil => rw [List.append_nil]
  | append_singleton rest w ih =>
      refine ih.trans ?_
      have hlast : dictAfter words (seen ++ rest ++ [w]) =
          addRepeated (countWords words) (dictAfter words (seen ++ rest)) w := by
        rw [dictAfter, List.foldl_append]
        rfl
      rw [← List.append_assoc, hlast]
      unfold addRepeated insertNew
      split
      · split
        · split <;> simp
        · exact Nat.le_refl _
      · exact Nat.le_refl _

/-- **The dictionary of the decoder.** -/
theorem decodeDict_eq (hroom : (repeated words).length ≤ 32) :
    prepareDecodeDict (inputProcessor words) = (dictAfter words words).map Prod.swap := by
  have hrun : ∀ (rest seen : List Str), words = seen ++ rest →
      (tokensFrom words seen rest).foldl addDecoded ((dictAfter words seen).map Prod.swap) =
        (dictAfter words words).map Prod.swap := by
    intro rest
    induction rest with
    | nil => intro seen hwords; rw [hwords, List.append_nil]; rfl
    | cons w rest ih =>
        intro seen hwords
        have hstep : words = seen ++ [w] ++ rest := by simp [hwords]
        have hlen : (dictAfter words (seen ++ [w])).length ≤ (dictAfter words (seen ++ [w] ++ rest)).length :=
          length_dictAfter_le _ _
        rw [← hstep, length_dictAfter] at hlen
        have hseen : ∀ v ∈ seen, v ∈ words := fun v hv => by rw [hwords]; simp [hv]
        have hw : w ∈ words := by rw [hwords]; simp
        rw [tokensFrom, List.foldl_cons, addDecoded_tokenOf hseen hw (hlen.trans hroom),
          ih _ hstep]
  rw [prepareDecodeDict, inputProcessor_eq]
  exact hrun words [] rfl

/-! ## Decoding -/

/-- A token decodes to its word. -/
theorem decodeToken_tokenOf (hroom : (repeated words).length ≤ 32) {seen : List Str} {w : Str}
    (hw : w ∈ words) :
    decodeToken ((dictAfter words words).map Prod.swap) (tokenOf words seen w) = [w] := by
  have hdict := @dictOk_dictAfter words _ fun _ hv => hv
  unfold decodeToken tokenOf
  by_cases hcount : 2 ≤ words.count w
  · rw [if_pos hcount]
    by_cases hseen : w ∈ seen
    · rw [if_pos hseen]
      have hkey : w ∈ (dictAfter words words).map Prod.fst := (hdict.mem_keys w).2 ⟨hw, hcount⟩
      obtain ⟨index, hindex⟩ := Option.isSome_iff_exists.1 (isSome_lookup_iff.2 hkey)
      have hnodup : (((dictAfter words words).map Prod.swap).map Prod.fst).Nodup := by
        rw [List.map_map, show Prod.fst ∘ Prod.swap = (Prod.snd : Str × Str → Str) from rfl,
          hdict.values]
        refine List.nodup_range.map_on fun i hi j hj heq => ?_
        rw [List.mem_range, length_dictAfter] at hi hj
        exact indexString_inj (by omega) (by omega) heq
      have hback : ((dictAfter words words).map Prod.swap).lookup index = some w :=
        lookup_eq_of_mem hnodup (List.mem_map.2 ⟨(w, index), mem_of_lookup_eq hindex, rfl⟩)
      simp [hindex, hback]
    · simp [hseen]
  · simp [hcount]

/-- **The tokens of a line decode to its words**, when the dictionary has room. -/
theorem decodeString_inputProcessor (hroom : (repeated words).length ≤ 32) :
    decodeString (inputProcessor words) = words := by
  have hrun : ∀ (rest seen : List Str), words = seen ++ rest →
      (tokensFrom words seen rest).flatMap
        (decodeToken ((dictAfter words words).map Prod.swap)) = rest := by
    intro rest
    induction rest with
    | nil => intro seen _; rfl
    | cons w rest ih =>
        intro seen hwords
        have hw : w ∈ words := by rw [hwords]; simp
        rw [tokensFrom, List.flatMap_cons, decodeToken_tokenOf hroom hw, ih _ (by simp [hwords])]
        rfl
  rw [decodeString, decodeDict_eq hroom, inputProcessor_eq]
  exact hrun words [] rfl

end CompressionWork.Abpd
