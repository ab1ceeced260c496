import CompressionWork.Sampling.Code
import Mathlib.Algebra.BigOperators.Group.List.Basic
import Mathlib.Algebra.Order.BigOperators.Group.List
import Mathlib.Data.List.Dedup

/-!
# The sampled code is optimal

As long as fewer than `2 ^ 31` words are sampled no counter wraps, and

* `codeTable_mostFrequent` — the table keeps the most frequent words, up to its size;
* `genHfTree_huffman` — the tree costs what merging the counts costs;
* `codeTable_optimal` — no prefix code for these words gives shorter lines.
-/

namespace CompressionWork.Sampling

open Codec

/-- An `int` in range is not changed by the conversion. -/
theorem asInt_of_lt {n : ℕ} (h : n < 2 ^ 31) : asInt n = n :=
  Int.bmod_eq_of_le (by omega) (by omega)

/-! ## The tree -/

section

variable {std : StdOrder} {w : Str → ℕ}

/-- The `first` of an entry is the weight of its subtree. -/
def Weighed (w : Str → ℕ) (track : List Entry) : Prop :=
  ∀ e ∈ track, e.first = (e.node.weight w : ℤ)

theorem weight_mergeEntries (a b : Entry) :
    (mergeEntries a b).node.weight w = a.node.weight w + b.node.weight w := by
  simp [Tree.weight, leaves_mergeEntries]

theorem cost_mergeEntries (a b : Entry) : (mergeEntries a b).node.cost w =
    a.node.cost w + b.node.cost w + (a.node.weight w + b.node.weight w) := rfl

/-- A merge keeps the weights right when their sum does not wrap. -/
theorem Weighed.merge {a b : Entry} {track : List Entry} (h : Weighed w (a :: b :: track))
    (hsum : a.node.weight w + b.node.weight w < 2 ^ 31) :
    Weighed w (track ++ [mergeEntries a b]) := by
  intro e he
  rcases List.mem_append.1 he with he | he
  · exact h e (by simp [he])
  · rw [List.mem_singleton.1 he, weight_mergeEntries, mergeEntries, h a (by simp), h b (by simp),
      ← Nat.cast_add, asInt_of_lt hsum]

/-- **The tree costs what merging the weights costs.** -/
theorem genHfTree_huffman (std : StdOrder) {track : List Entry} (hne : track ≠ [])
    (hsorted : track.Pairwise fun a b => a.first ≤ b.first) (hw : Weighed w track)
    (hsum : (track.map fun e => e.node.weight w).sum < 2 ^ 31) :
    ∃ t, genHfTree std track = some t ∧
      ∃ c, Huffman (track.map fun e => e.node.weight w) c ∧
        t.cost w = (track.map fun e => e.node.cost w).sum + c := by
  have hrun := genHfTree_induction std (fun track t =>
    track.Pairwise (fun a b => a.first ≤ b.first) → Weighed w track →
    (track.map fun e => e.node.weight w).sum < 2 ^ 31 →
    ∃ c, Huffman (track.map fun e => e.node.weight w) c ∧
      t.cost w = (track.map fun e => e.node.cost w).sum + c) ?single ?merge track hne
  · obtain ⟨t, ht, hP⟩ := hrun
    exact ⟨t, ht, hP hsorted hw hsum⟩
  case single =>
    intro a _ _ _
    exact ⟨0, Huffman.single _, by simp⟩
  case merge =>
    intro a b track t ih hsorted hw hsum
    have hperm := std.sortInc_perm (track ++ [mergeEntries a b])
    simp only [List.map_cons, List.sum_cons] at hsum
    have hw' : Weighed w (std.sortInc (track ++ [mergeEntries a b])) := fun e he =>
      hw.merge (by omega) e (hperm.mem_iff.1 he)
    have hsum' : ((std.sortInc (track ++ [mergeEntries a b])).map
        fun e => e.node.weight w).sum < 2 ^ 31 := by
      rw [(hperm.map _).sum_eq, List.map_append, List.sum_append, List.map_singleton,
        List.sum_singleton, weight_mergeEntries]
      omega
    obtain ⟨c, hc, hcost⟩ := ih (std.sortInc_sorted _) hw' hsum'
    have hweights : (((std.sortInc (track ++ [mergeEntries a b])).map
        fun e => e.node.weight w : List ℕ) : Multiset ℕ) =
          (a.node.weight w + b.node.weight w) ::ₘ (track.map fun e => e.node.weight w : List ℕ) := by
      rw [← weight_mergeEntries, Multiset.cons_coe, Multiset.coe_eq_coe]
      refine (hperm.map _).trans ?_
      rw [List.map_append, List.map_singleton]
      exact List.perm_append_singleton _ _
    rw [hweights] at hc
    have hmin : ∀ x ∈ ((track.map fun e => e.node.weight w : List ℕ) : Multiset ℕ),
        a.node.weight w ≤ x ∧ b.node.weight w ≤ x := by
      intro x hx
      obtain ⟨e, he, rfl⟩ := List.mem_map.1 (Multiset.mem_coe.1 hx)
      have hea := hw a (by simp)
      have heb := hw b (by simp)
      have hee := hw e (by simp [he])
      rw [List.pairwise_cons, List.pairwise_cons] at hsorted
      have h₁ := hsorted.1 e (by simp [he])
      have h₂ := hsorted.2.1 e he
      omega
    refine ⟨_, Huffman.merge hmin hc, ?_⟩
    rw [hcost, (hperm.map _).sum_eq]
    simp only [List.map_append, List.sum_append, List.map_cons, List.map_nil, List.sum_cons,
      List.sum_nil, cost_mergeEntries]
    omega

end

/-! ## The most frequent words -/

section

variable {std : StdOrder} {limit : ℕ} {words : List Str} {table : List (Str × ℕ)}

theorem Counts.keys_perm (h : Counts words table) : (table.map Prod.fst).Perm words.dedup :=
  (List.perm_ext_iff_of_nodup h.nodup (List.nodup_dedup words)).2 fun w => by
    rw [h.mem_keys, List.mem_dedup]

theorem Counts.length_eq (h : Counts words table) : table.length = words.dedup.length := by
  rw [← List.length_map (f := Prod.fst), h.keys_perm.length_eq]

/-- The counts of the distinct elements, whichever equality test counts them. -/
theorem sum_count_dedup {α : Type*} [DecidableEq α] [b : BEq α] [LawfulBEq α] (l : List α) :
    (l.dedup.map fun a => l.count a).sum = l.length := by
  obtain rfl : b = instBEqOfDecidableEq := lawful_beq_subsingleton _ _
  exact List.sum_map_count_dedup_eq_length l

/-- The counters add up to the number of sampled words. -/
theorem Counts.sum_eq (h : Counts words table) : (table.map Prod.snd).sum = words.length := by
  have hcount : table.map Prod.snd = (table.map Prod.fst).map fun w => words.count w := by
    rw [List.map_map]
    exact List.map_congr_left fun p hp => ((h.mem_iff p.1 p.2).1 hp).2
  rw [hcount, (h.keys_perm.map _).sum_eq, sum_count_dedup]

/-- An entry of the sampled table carries the count of its word. -/
theorem Counts.first_eq (h : Counts words table) (hlen : words.length < 2 ^ 31) {p : Str × ℕ}
    (hp : p ∈ table) : (entryOf p).first = words.count p.1 := by
  have hn : p.2 = words.count p.1 := ((h.mem_iff p.1 p.2).1 hp).2
  have hle : words.count p.1 ≤ words.length := List.count_le_length
  rw [entryOf, ← hn, asInt_of_lt (by omega)]

theorem Counts.weighed (h : Counts words table) (hlen : words.length < 2 ^ 31) :
    Weighed (fun w => words.count w) (fillData std limit table) := by
  intro e he
  obtain ⟨p, hp, rfl⟩ := exists_of_mem_fillData he
  rw [h.first_eq hlen hp]
  simp [Entry.node, entryOf, Tree.weight, Tree.leaves]

/-- The code map has codes for `limit` words that are as frequent as any other word. -/
structure MostFrequent (words : List Str) (limit : ℕ) (code : List (Str × Str)) : Prop where
  nodup : (code.map Prod.fst).Nodup
  sampled : ∀ p ∈ code, p.1 ∈ words
  length_eq : code.length = min limit words.dedup.length
  frequent : ∀ p ∈ code, ∀ v ∈ words, v ∉ code.map Prod.fst → words.count v ≤ words.count p.1

/-- **The table keeps the most frequent words.** -/
theorem codeTable_mostFrequent (h : Counts words table) (hlen : words.length < 2 ^ 31) :
    MostFrequent words limit (codeTable std limit table) := by
  refine ⟨codeTable_keys_nodup std limit h.nodup, fun p hp => ?_, ?_, fun p hp v hv hnot => ?_⟩
  · exact h.mem_keys.1 (mem_table_of_mem_codeTable h.nodup hp)
  · rw [length_codeTable std limit h.nodup, h.length_eq]
  · have hkeys := codeTable_keys_perm std limit h.nodup
    -- the word was kept, the other one was dropped
    obtain ⟨e, he, hsym⟩ := List.mem_map.1 (hkeys.mem_iff.1 (List.mem_map_of_mem hp))
    have hdrop : entryOf (v, words.count v) ∈
        (std.sortDec (trackOf std table)).drop limit := by
      have hall : entryOf (v, words.count v) ∈ std.sortDec (trackOf std table) :=
        sortDec_perm_table.mem_iff.2 (List.mem_map_of_mem ((h.mem_iff _ _).2 ⟨hv, rfl⟩))
      rw [← List.take_append_drop limit (std.sortDec _)] at hall
      refine (List.mem_append.1 hall).resolve_left fun hmem => hnot (hkeys.mem_iff.2 ?_)
      exact List.mem_map.2 ⟨_, fillData_perm.mem_iff.2 hmem, rfl⟩
    have hsorted := std.sortDec_sorted (trackOf std table)
    rw [← List.take_append_drop limit (std.sortDec _), List.pairwise_append] at hsorted
    have hle := hsorted.2.2 e (fillData_perm.mem_iff.1 he) _ hdrop
    obtain ⟨q, hq, rfl⟩ := exists_of_mem_fillData he
    rw [h.first_eq hlen hq, h.first_eq hlen ((h.mem_iff _ _).2 ⟨hv, rfl⟩)] at hle
    rw [← hsym]
    exact_mod_cast hle

/-! ## The length of the sampled lines -/

/-- The code map is a binary prefix code, and no other one gives a smaller sum of the lengths
of all sampled words that have a code. -/
structure OptimalCode (words : List Str) (code : List (Str × Str)) : Prop where
  isBin : ∀ p ∈ code, IsBin p.2
  prefixFree : ∀ p ∈ code, ∀ q ∈ code, p.2 <+: q.2 → p = q
  le : ∀ code' : Str → Str, (∀ p ∈ code, IsBin (code' p.1)) →
    PrefixFree code' {w | w ∈ code.map Prod.fst} →
    (code.map fun p => words.count p.1 * p.2.length).sum ≤
      (code.map fun p => words.count p.1 * (code' p.1).length).sum

/-- The weights of the kept words stay below the limit of an `int`. -/
theorem sum_weight_fillData (h : Counts words table) (hlen : words.length < 2 ^ 31) :
    ((fillData std limit table).map fun e => e.node.weight fun w => words.count w).sum
      < 2 ^ 31 := by
  have hall : ((std.sortDec (trackOf std table)).map fun e =>
      e.node.weight fun w => words.count w).sum = words.length := by
    rw [(sortDec_perm_table.map _).sum_eq, ← h.sum_eq, List.map_map]
    refine congrArg List.sum (List.map_congr_left fun p hp => ?_)
    have hn : p.2 = words.count p.1 := ((h.mem_iff p.1 p.2).1 hp).2
    simp [Entry.node, entryOf, Tree.weight, Tree.leaves, hn]
  rw [← List.take_append_drop limit (std.sortDec _), List.map_append, List.sum_append] at hall
  rw [(fillData_perm.map _).sum_eq]
  omega

/-- A fresh track has no codes yet. -/
theorem sum_cost_fillData : ((fillData std limit table).map fun e =>
    e.node.cost fun w => words.count w).sum = 0 := by
  rw [List.map_congr_left (g := fun _ => 0)]
  · simp
  · intro e he
    obtain ⟨p, -, rfl⟩ := exists_of_mem_fillData he
    rfl

/-- **The code of the table is optimal** for the words of the table. -/
theorem codeTable_optimal (h : Counts words table) (hlen : words.length < 2 ^ 31) :
    OptimalCode words (codeTable std limit table) := by
  refine ⟨fun p hp => isBin_codeTable h.nodup hp, fun p hp q hq hpre =>
    codeTable_prefixFree h.nodup p hp q hq hpre, fun code' hbin hfree => ?_⟩
  rcases codeTable_eq std limit h.nodup with ⟨-, hcode⟩ | ⟨t, ht, hperm, hcode⟩
  · simp [hcode]
  · have hne : fillData std limit table ≠ [] := by
      intro hnil
      rw [hnil] at ht
      simp [genHfTree, genHfTreeAux] at ht
    obtain ⟨t', ht', c, hc, hcost⟩ := genHfTree_huffman std hne (std.sortInc_sorted _)
      (h.weighed hlen) (sum_weight_fillData h hlen)
    obtain rfl : t = t' := Option.some.inj (ht.symm.trans ht')
    rw [sum_cost_fillData, Nat.zero_add] at hcost
    -- the weights that were merged are the counts of the leaves
    have hleaves : ((fillData std limit table).map fun e =>
        e.node.weight fun w => words.count w).Perm (t.leaves.map fun w => words.count w) := by
      have hmap : ((fillData std limit table).map fun e => e.node.weight fun w => words.count w) =
          ((fillData std limit table).map Entry.symbol).map fun w => words.count w := by
        rw [List.map_map]
        refine List.map_congr_left fun e he => ?_
        obtain ⟨p, -, rfl⟩ := exists_of_mem_fillData he
        simp [Entry.node, entryOf, Tree.weight, Tree.leaves]
      rw [hmap]
      exact hperm.symm.map _
    rw [Multiset.coe_eq_coe.2 hleaves, ← hcost] at hc
    have hkeys : (codeTable std limit table).map Prod.fst = t.leaves := by
      rw [hcode, Tree.map_fst_codes]
    have hnodup : t.leaves.Nodup := hkeys ▸ codeTable_keys_nodup std limit h.nodup
    have hbin' : ∀ w ∈ t.leaves, IsBin (code' w) := by
      intro w hw
      obtain ⟨p, hp, rfl⟩ := List.mem_map.1 (hkeys ▸ hw)
      exact hbin p hp
    -- a binary string is a list of bits
    have hbits : PrefixFree (fun w => (code' w).map (· == '1')) {w | w ∈ t.leaves} := by
      rw [hkeys] at hfree
      refine hfree.map fun v hv w hw x hx y hy hxy => ?_
      rcases hbin' v hv x hx with rfl | rfl <;> rcases hbin' w hw y hy with rfl | rfl <;>
        first | rfl | exact absurd hxy (by decide)
    have hle := Tree.cost_le_of_prefixFree hc hnodup hbits
    rw [Tree.cost_eq_sum '0' '1', ← hcode] at hle
    refine hle.trans (le_of_eq ?_)
    rw [← hkeys, List.map_map]
    simp [Function.comp_def]

end

end CompressionWork.Sampling
