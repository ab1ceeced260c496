import CompressionWork.Line
import Mathlib.Data.List.Nodup

/-!
# C-PACK: the dictionary

The model of `hpcl_cpack_dict.h`.  The dictionary is a vector of pairs of a word and its
5-bit index; `update_dict` appends the words a line has added and, once all 32 places are
taken, gives a new word the place of the oldest one.

* `Dict` — a dictionary with its invariant: at most 32 words of eight digits, whose
  indices are those of `get_binary`, each used once.
* `updateDict_ok` — `update_dict` keeps the invariant, in whatever order it walks over the
  `unordered_set` of new words.
* `searchDict_of_mem` — so an index leads back to the word the encoder saw.
-/

namespace CompressionWork.Cpack

/-- `MAX_DICT_SIZE`. -/
def maxDictSize : ℕ := 32

/-- `log2(MAX_DICT_SIZE)`: the digits of an index. -/
def indexSize : ℕ := 5

/-- The dictionary vector: words with their indices, oldest first. -/
abbrev WordDict := List (Str × Str)

/-- One round of `update_dict`. -/
def updateWord (wordDictGlb : WordDict) (p : Str) : WordDict :=
  if p ∈ wordDictGlb.map Prod.fst then wordDictGlb
  else if wordDictGlb.length = maxDictSize then
    wordDictGlb.drop 1 ++ [(p, (wordDictGlb.headD ([], [])).2)]
  else wordDictGlb ++ [(p, getBinary wordDictGlb.length indexSize)]

/-- `update_dict`, with the new words in the order the set yields them. -/
def updateDict (wordDictGlb : WordDict) (wordDictLcl : List Str) : WordDict :=
  wordDictLcl.foldl updateWord wordDictGlb

/-- `word_dict_lcl.insert`; the list keeps the order of insertion. -/
def insertLcl (wordDictLcl : List Str) (w : Str) : List Str :=
  if w ∈ wordDictLcl then wordDictLcl else wordDictLcl ++ [w]

/-- The order in which an `unordered_set` with these insertions is walked over.  Nothing is
known about it but that every element comes once. -/
structure SetOrder where
  iter : List Str → List Str
  perm : ∀ l, (iter l).Perm l

/-- A set that is walked over in the order of insertion. -/
def SetOrder.insertion : SetOrder := ⟨id, fun _ => List.Perm.refl _⟩

/-- The word with the given index, as a decoder looks it up.  `search_dict` of the source, which nothing calls,
starts its loop at an index that is not set. -/
def searchDict (dictIndex : Str) (wordDictGlb : WordDict) : Option Str :=
  (wordDictGlb.find? fun p => p.2 = dictIndex).map Prod.fst

/-! ## The invariant -/

/-- At most 32 words of eight digits; their indices are the first ones, in any order. -/
structure DictOk (wordDictGlb : WordDict) : Prop where
  size_le : wordDictGlb.length ≤ maxDictSize
  isWord : ∀ p ∈ wordDictGlb, IsWord p.1
  index_perm : (wordDictGlb.map Prod.snd).Perm
    ((List.range wordDictGlb.length).map fun i => getBinary i indexSize)

/-- A dictionary that the encoder can meet. -/
structure Dict where
  wordDictGlb : WordDict
  ok : DictOk wordDictGlb

/-- The dictionary of a new compressor. -/
def Dict.empty : Dict := ⟨[], by simp [maxDictSize], by simp, by simp⟩

variable {d : WordDict}

theorem DictOk.length_index (h : DictOk d) {p : Str × Str} (hp : p ∈ d) :
    p.2.length = indexSize := by
  have hmem : p.2 ∈ d.map Prod.snd := List.mem_map_of_mem hp
  obtain ⟨i, -, hi⟩ := List.mem_map.1 (h.index_perm.mem_iff.1 hmem)
  rw [← hi, length_getBinary]

theorem DictOk.index_nodup (h : DictOk d) : (d.map Prod.snd).Nodup := by
  rw [h.index_perm.nodup_iff]
  refine List.Nodup.map_on (fun i hi j hj hij => ?_) List.nodup_range
  have hsize : d.length ≤ 2 ^ indexSize := h.size_le
  exact getBinary_inj (lt_of_lt_of_le (List.mem_range.1 hi) hsize)
    (lt_of_lt_of_le (List.mem_range.1 hj) hsize) hij

/-- **An index leads back to its word.** -/
theorem DictOk.searchDict_of_mem (h : DictOk d) {p : Str × Str} (hp : p ∈ d) :
    searchDict p.2 d = some p.1 := by
  have hnodup := h.index_nodup
  clear h
  induction d with
  | nil => simp at hp
  | cons q d ih =>
      rw [List.map_cons, List.nodup_cons] at hnodup
      rcases List.mem_cons.1 hp with rfl | hp
      · simp [searchDict]
      · have hne : q.2 ≠ p.2 := fun heq => hnodup.1 (heq ▸ List.mem_map_of_mem hp)
        have ih' := ih hp hnodup.2
        rw [searchDict] at ih' ⊢
        rw [List.find?_cons_of_neg (by simpa using hne)]
        exact ih'

theorem updateWord_ok (h : DictOk d) {p : Str} (hp : IsWord p) : DictOk (updateWord d p) := by
  rw [updateWord]
  split
  · exact h
  · split
    · -- the oldest entry goes and its index is used again
      rename_i hfull
      obtain ⟨q, d', rfl⟩ := List.exists_cons_of_length_pos (l := d) (by rw [hfull]; decide)
      refine ⟨?_, ?_, ?_⟩
      · simp only [List.length_cons] at hfull
        simp [hfull]
      · intro r hr
        rcases List.mem_append.1 hr with hr | hr
        · exact h.isWord r (List.mem_of_mem_drop hr)
        · rw [List.mem_singleton.1 hr]
          exact hp
      · have hidx : ((q :: d').drop 1 ++ [(p, ((q :: d').headD ([], [])).2)]).map Prod.snd =
            d'.map Prod.snd ++ [q.2] := by simp
        have hlen : ((q :: d').drop 1 ++ [(p, ((q :: d').headD ([], [])).2)]).length =
            (q :: d').length := by simp
        rw [hidx, hlen]
        exact (List.perm_append_singleton _ _).trans h.index_perm
    · -- a free place: the new index is the number of entries
      rename_i hnotfull
      refine ⟨?_, ?_, ?_⟩
      · rw [List.length_append, List.length_singleton]
        exact lt_of_le_of_ne h.size_le hnotfull
      · intro r hr
        rcases List.mem_append.1 hr with hr | hr
        · exact h.isWord r hr
        · rw [List.mem_singleton.1 hr]
          exact hp
      · rw [List.map_append, List.length_append, List.length_singleton, List.range_succ,
          List.map_append]
        exact h.index_perm.append_right _

/-- `update_dict` keeps the invariant. -/
theorem updateDict_ok {ws : List Str} (hws : ∀ w ∈ ws, IsWord w) (h : DictOk d) :
    DictOk (updateDict d ws) := by
  induction ws generalizing d with
  | nil => exact h
  | cons w ws ih =>
      rw [updateDict, List.foldl_cons]
      exact ih (fun v hv => hws v (List.mem_cons_of_mem _ hv))
        (updateWord_ok h (hws w (List.mem_cons_self ..)))

theorem mem_insertLcl {lcl : List Str} {w v : Str} (h : v ∈ insertLcl lcl w) :
    v ∈ lcl ∨ v = w := by
  rw [insertLcl] at h
  split at h
  · exact Or.inl h
  · simpa using h

end CompressionWork.Cpack
