import CompressionWork.Cpack.Dict
import Mathlib

/-!
# C-PACK: first in, first out

What the dictionary holds after any calls of `update_dict`, whatever the words are and in
whatever order the sets are walked over.

* `addedWords` — the words that are really put in, in their order: those that are not in the
  dictionary at their turn.
* `placed` — the last 32 of them; the `i`-th word put in has the index `i` modulo 32.
* `updateDicts_fifo` — the dictionary is `placed` of the words put in so far, so its words
  and its indices are distinct and the word that goes is the one that came first.
-/

namespace CompressionWork.Cpack

/-! ## The source -/

/-- `find_glb`. -/
def findGlb (wordDictGlb : WordDict) (cur : Str) : Bool := wordDictGlb.any fun p => cur = p.1

/-- `check_new_added_word`. -/
def checkNewAddedWord (wordDictGlb : WordDict) (wordDictLcl : List Str) : List Str :=
  wordDictLcl.filter fun cur => findGlb wordDictGlb cur = false

/-- A new dictionary after calls of `update_dict`. -/
def updateDicts (calls : List (List Str)) : WordDict := calls.foldl updateDict []

/-! ## The words put in -/

/-- The words of a call that `update_dict` puts in. -/
def addedWords : WordDict → List Str → List Str
  | _, [] => []
  | d, w :: ws =>
      if w ∈ d.map Prod.fst then addedWords d ws else w :: addedWords (updateWord d w) ws

/-- Words with the indices they get when they are put in one after the other. -/
def indexed (added : List Str) : WordDict :=
  added.mapIdx fun i w => (w, getBinary (i % maxDictSize) indexSize)

/-- The dictionary after these words were put in. -/
def placed (added : List Str) : WordDict := (indexed added).rtake maxDictSize

theorem findGlb_iff {d : WordDict} {cur : Str} : findGlb d cur = true ↔ cur ∈ d.map Prod.fst := by
  simp only [findGlb, List.any_eq_true, decide_eq_true_eq, List.mem_map]
  constructor
  · rintro ⟨p, hp, rfl⟩
    exact ⟨p, hp, rfl⟩
  · rintro ⟨p, hp, rfl⟩
    exact ⟨p, hp, rfl⟩

@[simp] theorem length_indexed (added : List Str) : (indexed added).length = added.length := by
  simp [indexed]

theorem indexed_concat (added : List Str) (w : Str) :
    indexed (added ++ [w]) =
      indexed added ++ [(w, getBinary (added.length % maxDictSize) indexSize)] := by
  simp [indexed, List.mapIdx_append]

@[simp] theorem map_fst_indexed (added : List Str) : (indexed added).map Prod.fst = added := by
  refine List.ext_getElem (by simp) fun i hi hi' => ?_
  simp [indexed]

theorem length_placed (added : List Str) :
    (placed added).length = min added.length maxDictSize := by
  rw [placed, List.rtake.eq_1, List.length_drop, length_indexed]
  omega

theorem map_fst_placed (added : List Str) :
    (placed added).map Prod.fst = added.rtake maxDictSize := by
  rw [placed, List.rtake.eq_1, List.rtake.eq_1, List.map_drop, map_fst_indexed, length_indexed]

/-- One round on a dictionary of that form. -/
theorem updateWord_placed (added : List Str) (w : Str) :
    updateWord (placed added) w =
      placed (if w ∈ (placed added).map Prod.fst then added else added ++ [w]) := by
  have hlen := length_placed added
  rw [updateWord]
  split
  · rfl
  · have hnew : placed (added ++ [w]) =
        (indexed added ++ [(w, getBinary (added.length % maxDictSize) indexSize)]).drop
          (added.length + 1 - maxDictSize) := by
      rw [placed, List.rtake.eq_1, indexed_concat, List.length_append, length_indexed,
        List.length_singleton]
    rw [hnew]
    split
    · -- all places are taken: the word put in 32 words ago goes, and leaves its index
      rename_i hfull
      have h32 : maxDictSize ≤ added.length := by omega
      have hlt : added.length - maxDictSize < (indexed added).length := by
        rw [length_indexed]
        have := show 0 < maxDictSize by decide
        omega
      have hfirst : placed added =
          (indexed added)[added.length - maxDictSize] ::
            (indexed added).drop (added.length - maxDictSize + 1) := by
        rw [placed, List.rtake.eq_1, length_indexed]
        exact List.drop_eq_getElem_cons hlt
      have hindex : ((indexed added)[added.length - maxDictSize]).2 =
          getBinary (added.length % maxDictSize) indexSize := by
        simp only [indexed, List.getElem_mapIdx]
        rw [← Nat.mod_eq_sub_mod h32]
      rw [hfirst, List.headD_cons, hindex, List.drop_one, List.tail_cons,
        show added.length + 1 - maxDictSize = added.length - maxDictSize + 1 by omega,
        List.drop_append_of_le_length (by omega)]
    · rename_i hfree
      have h32 : added.length < maxDictSize := by omega
      have hall : placed added = indexed added := by
        rw [placed, List.rtake.eq_1, length_indexed, Nat.sub_eq_zero_of_le h32.le, List.drop_zero]
      rw [hall, length_indexed, Nat.mod_eq_of_lt h32,
        Nat.sub_eq_zero_of_le (Nat.succ_le_of_lt h32), List.drop_zero]

/-- A call puts in the words of `addedWords`. -/
theorem updateDict_placed (added ws : List Str) :
    updateDict (placed added) ws = placed (added ++ addedWords (placed added) ws) := by
  induction ws generalizing added with
  | nil => rw [addedWords, List.append_nil, updateDict, List.foldl_nil]
  | cons w ws ih =>
      have hstep := updateWord_placed added w
      rw [updateDict, List.foldl_cons, addedWords]
      split
      · rename_i hmem
        rw [if_pos hmem] at hstep
        rw [hstep]
        exact ih added
      · rename_i hmem
        rw [if_neg hmem] at hstep
        rw [hstep, ← updateDict, ih, List.append_assoc, List.singleton_append]

theorem updateDicts_placed (calls : List (List Str)) :
    updateDicts calls = placed (addedWords [] calls.flatten) := by
  have hfold : updateDicts calls = updateDict [] calls.flatten := by
    rw [updateDicts, updateDict, List.foldl_flatten]
    rfl
  have hall := updateDict_placed [] calls.flatten
  rw [List.nil_append, show placed [] = [] from rfl] at hall
  rw [hfold, hall]

/-! ## The invariant -/

/-- No word is put in while it is in the dictionary. -/
theorem updateWord_nodup {d : WordDict} (h : (d.map Prod.fst).Nodup) (w : Str) :
    ((updateWord d w).map Prod.fst).Nodup := by
  have hconcat : ∀ e : WordDict, (e.map Prod.fst).Sublist (d.map Prod.fst) → ∀ index,
      w ∉ d.map Prod.fst → ((e ++ [(w, index)]).map Prod.fst).Nodup := by
    intro e he index hw
    rw [List.map_append, List.map_cons, List.map_nil, ← List.concat_eq_append]
    exact List.Nodup.concat (fun hmem => hw (he.subset hmem)) (h.sublist he)
  rw [updateWord]
  split
  · exact h
  · rename_i hw
    split
    · exact hconcat _ ((List.drop_sublist 1 d).map _) _ hw
    · exact hconcat _ (List.Sublist.refl _) _ hw

theorem updateDict_nodup {d : WordDict} (h : (d.map Prod.fst).Nodup) (ws : List Str) :
    ((updateDict d ws).map Prod.fst).Nodup := by
  induction ws generalizing d with
  | nil => exact h
  | cons w ws ih => exact ih (updateWord_nodup h w)

theorem updateDicts_nodup (calls : List (List Str)) :
    ((updateDicts calls).map Prod.fst).Nodup := by
  have hrun : ∀ d : WordDict, (d.map Prod.fst).Nodup →
      ((calls.foldl updateDict d).map Prod.fst).Nodup := by
    induction calls with
    | nil => exact fun d hd => hd
    | cons ws calls ih => exact fun d hd => ih _ (updateDict_nodup hd ws)
  exact hrun [] List.nodup_nil

/-- The last 32 numbers are distinct modulo 32, so the indices in use are. -/
theorem index_nodup_placed (added : List Str) : ((placed added).map Prod.snd).Nodup := by
  rw [List.nodup_iff_injective_get]
  rintro ⟨i, hi⟩ ⟨j, hj⟩ hij
  have hlen := length_placed added
  rw [List.length_map] at hi hj
  simp only [List.get_eq_getElem, List.getElem_map, placed, List.rtake.eq_1, List.getElem_drop,
    indexed, List.getElem_mapIdx] at hij
  have hmod := @getBinary_inj indexSize _ _ (Nat.mod_lt _ (by decide))
    (Nat.mod_lt _ (by decide)) hij
  rw [Fin.mk.injEq]
  rw [List.length_mapIdx, show maxDictSize = 32 from rfl, show 2 ^ indexSize = 32 from rfl] at hmod
  rw [show maxDictSize = 32 from rfl] at hlen
  omega

/-- **The dictionary is a queue.**  After any calls of `update_dict` it holds at most 32
words, each word once and each index of five digits once; its words are the last 32 of those
put in, oldest first, and the `i`-th word put in has the index `i` modulo 32. -/
theorem updateDicts_fifo (calls : List (List Str)) :
    (updateDicts calls).length ≤ maxDictSize ∧
    ((updateDicts calls).map Prod.fst).Nodup ∧
    ((updateDicts calls).map Prod.snd).Nodup ∧
    (∀ p ∈ updateDicts calls, p.2.length = indexSize) ∧
    (updateDicts calls).map Prod.fst = (addedWords [] calls.flatten).rtake maxDictSize ∧
    updateDicts calls = (indexed (addedWords [] calls.flatten)).rtake maxDictSize := by
  have hplaced := updateDicts_placed calls
  refine ⟨?_, updateDicts_nodup calls, ?_, ?_, ?_, hplaced⟩
  · rw [hplaced, length_placed]
    exact min_le_right _ _
  · rw [hplaced]
    exact index_nodup_placed _
  · intro p hp
    rw [hplaced] at hp
    obtain ⟨i, hi, rfl⟩ := List.mem_mapIdx.1 (List.mem_of_mem_drop hp)
    exact length_getBinary _ _
  · rw [hplaced, map_fst_placed]

/-- What `check_new_added_word` announces is put in by the call. -/
theorem checkNewAddedWord_sublist {d : WordDict} {lcl : List Str} (h : lcl.Nodup) :
    (checkNewAddedWord d lcl).Sublist (addedWords d lcl) := by
  have hrun : ∀ (ws : List Str) (e : WordDict), ws.Nodup →
      (∀ w ∈ ws, w ∈ e.map Prod.fst → w ∈ d.map Prod.fst) →
      (checkNewAddedWord d ws).Sublist (addedWords e ws) := by
    intro ws
    induction ws with
    | nil => exact fun e _ _ => List.Sublist.refl _
    | cons w ws ih =>
        intro e hnodup hsub
        rw [List.nodup_cons] at hnodup
        have hrest : ∀ v ∈ ws, v ∈ (updateWord e w).map Prod.fst → v ∈ d.map Prod.fst := by
          intro v hv hmem
          refine hsub v (List.mem_cons_of_mem _ hv) ?_
          have hne : v ≠ w := fun heq => hnodup.1 (heq ▸ hv)
          obtain ⟨p, hp, rfl⟩ := List.mem_map.1 hmem
          rw [updateWord] at hp
          split at hp
          · exact List.mem_map_of_mem hp
          · split at hp
            · rcases List.mem_append.1 hp with hp | hp
              · exact List.mem_map_of_mem (List.mem_of_mem_drop hp)
              · rw [List.mem_singleton.1 hp] at hne
                exact absurd rfl hne
            · rcases List.mem_append.1 hp with hp | hp
              · exact List.mem_map_of_mem hp
              · rw [List.mem_singleton.1 hp] at hne
                exact absurd rfl hne
        rw [addedWords]
        by_cases hmem : w ∈ e.map Prod.fst
        · have hglb : findGlb d w = true := findGlb_iff.2 (hsub w (List.mem_cons_self ..) hmem)
          rw [if_pos hmem, checkNewAddedWord, List.filter_cons_of_neg (by simp [hglb])]
          exact ih e hnodup.2 fun v hv => hsub v (List.mem_cons_of_mem _ hv)
        · rw [if_neg hmem, checkNewAddedWord, List.filter_cons]
          split
          · exact (ih _ hnodup.2 hrest).cons_cons _
          · exact (ih _ hnodup.2 hrest).cons _
  exact hrun lcl d h fun _ _ hw => hw

end CompressionWork.Cpack
