import Mathlib.Data.List.Basic
import Mathlib.Data.Int.Notation
import Mathlib.Tactic.Common

/-!
# Local word matching: the dictionary

The model of `hpcl_dict<K>` and `hpcl_dict_elem<K>` as the compressor uses them: created
with 128 places and the policy `HPCL_LFU`, cleared for every line, searched and updated
word by word.

* `searchWord`, `updateDict`, `setWordLoc` — the operations of a line.
* `Located` — the invariant of a line: every entry knows where in the line its word was seen
  first, and its index is not greater than that.
* `located_updateDict_new`, `located_updateDict_seen` — the operations keep it.

The last use times are always 0 and no entry is ever held or flagged, so these fields are
left out.
-/

namespace CompressionWork.Lwm

variable {K : Type}

/-- `m_MAX_DICT_SIZE` of the dictionaries of the compressor. -/
def maxDictSize : ℕ := 128

/-- An entry: the word, how often it was used, and its location in the line. -/
structure Elem (K : Type) where
  word : K
  freq : ℕ
  wordLoc : ℤ
  deriving DecidableEq, Repr

/-- `hpcl_dict_elem::init` -/
def Elem.init (word : K) : Elem K := ⟨word, 1, -1⟩

/-- The dictionary and the greatest location that was matched. -/
structure Dict (K : Type) where
  mDict : List (Elem K)
  lastMaxWordLoc : ℤ
  deriving DecidableEq, Repr

namespace Dict

/-- The constructor, with the `clear` that follows it. -/
def empty : Dict K := ⟨[], -1⟩

/-- `clear` empties the vector; the greatest location keeps its value. -/
def clear (d : Dict K) : Dict K := { d with mDict := [] }

/-- `search_word`: the first entry with the word. -/
def searchWord [DecidableEq K] (d : Dict K) (word : K) : Option ℕ := d.mDict.findIdx? fun e => e.word = word

/-- `update_elem_by_LFU`: the last entry that was used less often than entry 0. -/
def leastUsedIndex (d : Dict K) : ℕ :=
  (List.range d.mDict.length).foldl (fun leastUsed i =>
    if 1 ≤ i ∧ ((d.mDict.map Elem.freq).getD i 0 < (d.mDict.map Elem.freq).getD 0 0) then i
    else leastUsed) 0

/-- `update_dict(word, 0)`: the index of the word and the new dictionary. -/
def updateDict [DecidableEq K] (d : Dict K) (word : K) : ℕ × Dict K :=
  match d.searchWord word with
  | some i =>
      (i, { d with mDict := d.mDict.modify i fun e => { e with freq := e.freq + 1 } })
  | none =>
      if d.mDict.length < maxDictSize then
        (d.mDict.length, { d with mDict := d.mDict ++ [Elem.init word] })
      else
        (d.leastUsedIndex, { d with mDict := d.mDict.set d.leastUsedIndex (Elem.init word) })

/-- `set_word_loc` -/
def setWordLoc (d : Dict K) (index : ℕ) (wordLoc : ℤ) : Dict K :=
  { d with mDict := d.mDict.modify index fun e => { e with wordLoc := wordLoc } }

/-- `get_word_loc` -/
def getWordLoc (d : Dict K) (index : ℕ) : ℤ := ((d.mDict[index]?).map Elem.wordLoc).getD (-1)

end Dict

/-! ## The invariant of a line -/

/-- Each entry holds the word at its location in the line, and its index is at most this
location. -/
def Located (d : Dict K) (line : List K) : Prop :=
  ∀ (i : ℕ) (e : Elem K), d.mDict[i]? = some e →
    ∃ loc : ℕ, e.wordLoc = loc ∧ i ≤ loc ∧ (line)[loc]? = some e.word

variable {d : Dict K} {line : List K} {word : K} {i : ℕ}

theorem located_clear (d : Dict K) : Located d.clear ([] : List K) := by
  intro i e h
  simp [Dict.clear] at h

/-- The entry that was found. -/
theorem getElem?_of_searchWord [DecidableEq K] (h : d.searchWord word = some i) :
    ∃ e, d.mDict[i]? = some e ∧ e.word = word := by
  rw [Dict.searchWord, List.findIdx?_eq_some_iff_getElem] at h
  obtain ⟨hlt, hword, -⟩ := h
  exact ⟨d.mDict[i], List.getElem?_eq_getElem hlt, by simpa using hword⟩

theorem leastUsedIndex_lt (h : 0 < d.mDict.length) : d.leastUsedIndex < d.mDict.length := by
  have hfold : ∀ n, n ≤ d.mDict.length → (List.range n).foldl (fun leastUsed i =>
      if 1 ≤ i ∧ ((d.mDict.map Elem.freq).getD i 0 < (d.mDict.map Elem.freq).getD 0 0) then i
      else leastUsed) 0 < d.mDict.length := by
    intro n
    induction n with
    | zero => intro _; exact h
    | succ n ih =>
        intro hn
        rw [List.range_succ, List.foldl_append, List.foldl_cons, List.foldl_nil]
        split
        · omega
        · exact ih (by omega)
  exact hfold _ (Nat.le_refl _)

/-- The locations of the entries lie in the line. -/
theorem Located.lt_length (h : Located d line) {e : Elem K} (he : d.mDict[i]? = some e) :
    i < line.length := by
  obtain ⟨loc, -, hle, hword⟩ := h i e he
  have hloc : loc < line.length := (List.getElem?_eq_some_iff.1 hword).1
  omega

theorem Located.length_le (h : Located d line) : d.mDict.length ≤ line.length := by
  by_contra hlt
  have hlast : line.length < d.mDict.length := Nat.lt_of_not_le hlt
  have := h.lt_length (List.getElem?_eq_getElem hlast)
  omega

/-- **A word that is found** changes a counter only. -/
theorem located_updateDict_seen [DecidableEq K] (h : Located d line)
    (hs : d.searchWord word = some i) :
    Located (d.updateDict word).2 (line ++ [word]) := by
  intro j e he
  rw [Dict.updateDict, hs] at he
  dsimp only at he
  rw [List.getElem?_modify] at he
  obtain ⟨e', he', rfl⟩ := Option.map_eq_some_iff.1 he
  obtain ⟨loc, hloc, hle, hword⟩ := h j e' he'
  have hlt : loc < line.length := (List.getElem?_eq_some_iff.1 hword).1
  refine ⟨loc, ?_, hle, ?_⟩
  · split <;> simpa using hloc
  · rw [List.getElem?_append_left hlt, hword]
    split <;> rfl

/-- **A new word** gets the place at the end, or that of the least used entry; it is located
at the end of the line. -/
theorem located_updateDict_new [DecidableEq K] (h : Located d line)
    (hs : d.searchWord word = none) :
    Located ((d.updateDict word).2.setWordLoc (d.updateDict word).1 line.length)
      (line ++ [word]) := by
  have hlen := h.length_le
  -- an entry of the old dictionary keeps its location
  have hold : ∀ (j : ℕ) (e : Elem K), d.mDict[j]? = some e →
      ∃ loc : ℕ, e.wordLoc = loc ∧ j ≤ loc ∧ (line ++ [word])[loc]? = some e.word := by
    intro j e he
    obtain ⟨loc, hloc, hle, hword⟩ := h j e he
    exact ⟨loc, hloc, hle, by
      rw [List.getElem?_append_left (List.getElem?_eq_some_iff.1 hword).1, hword]⟩
  -- the new entry gets the end of the line
  have hnew : ∀ j, j ≤ line.length → ∃ loc : ℕ, (line.length : ℤ) = loc ∧ j ≤ loc ∧
      (line ++ [word])[loc]? = some word := fun j hj => ⟨line.length, rfl, hj, by simp⟩
  intro j e he
  rw [Dict.updateDict, hs] at he
  dsimp only at he
  split at he
  · simp only [Dict.setWordLoc, List.getElem?_modify] at he
    obtain ⟨e', he', rfl⟩ := Option.map_eq_some_iff.1 he
    rcases Nat.lt_trichotomy j d.mDict.length with hj | hj | hj
    · rw [List.getElem?_append_left hj] at he'
      rw [if_neg (Nat.ne_of_gt hj)]
      exact hold j e' he'
    · subst hj
      rw [List.getElem?_concat_length] at he'
      obtain rfl := Option.some.inj he'
      rw [if_pos rfl]
      exact hnew _ hlen
    · rw [List.getElem?_eq_none (by simp; omega)] at he'
      simp at he'
  case isFalse hfull =>
    have hlt : d.leastUsedIndex < d.mDict.length :=
      leastUsedIndex_lt (by simp only [maxDictSize] at hfull; omega)
    simp only [Dict.setWordLoc, List.getElem?_modify] at he
    obtain ⟨e', he', rfl⟩ := Option.map_eq_some_iff.1 he
    by_cases hj : d.leastUsedIndex = j
    · subst hj
      rw [List.getElem?_set_self hlt] at he'
      obtain rfl := Option.some.inj he'
      rw [if_pos rfl]
      exact hnew _ (by omega)
    · rw [List.getElem?_set_ne hj] at he'
      rw [if_neg hj]
      exact hold j e' he'

end CompressionWork.Lwm
