import CompressionWork.Sampling.Table

/-!
# What a sampled code table contains

* `countWords_spec` — the sampler counts every word it has seen.
* `genHfTree_induction` — the recursion of `gen_hf_tree` as an induction rule.
* `genHfTree_leaves` — no symbol is lost or duplicated on the way into the tree.
* `codeTable_eq` — the code map is the list of the codes of that tree.
* `codeTable_prefixFree` — its codes are prefix-free.
-/

namespace CompressionWork.Sampling

open Codec

/-! ## Maps -/

section Maps

variable {β : Type} {t : List (Str × β)} {k : Str} {v : β}

theorem isSome_lookup_iff : (t.lookup k).isSome ↔ k ∈ t.map Prod.fst := by
  rw [List.lookup_isSome_iff, List.mem_map]
  simp only [beq_iff_eq]
  constructor
  · rintro ⟨p, hp, rfl⟩; exact ⟨p, hp, rfl⟩
  · rintro ⟨p, hp, rfl⟩; exact ⟨p, hp, rfl⟩

theorem mem_of_lookup_eq (h : t.lookup k = some v) : (k, v) ∈ t := by
  obtain ⟨l₁, l₂, rfl, -⟩ := List.lookup_eq_some_iff.1 h
  simp

theorem lookup_eq_of_mem (hnd : (t.map Prod.fst).Nodup) (h : (k, v) ∈ t) : t.lookup k = some v := by
  induction t with
  | nil => simp at h
  | cons p t ih =>
      rw [List.map_cons, List.nodup_cons] at hnd
      obtain ⟨k', v'⟩ := p
      rcases List.mem_cons.1 h with heq | h
      · obtain ⟨rfl, rfl⟩ := Prod.mk.inj heq
        exact List.lookup_cons_self
      · have hne : k ≠ k' := fun heq => hnd.1 (List.mem_map.2 ⟨(k, v), h, heq⟩)
        rw [List.lookup_cons, beq_eq_false_iff_ne.2 hne]
        exact ih hnd.2 h

theorem lookup_eq_some_iff_mem (hnd : (t.map Prod.fst).Nodup) :
    t.lookup k = some v ↔ (k, v) ∈ t :=
  ⟨mem_of_lookup_eq, lookup_eq_of_mem hnd⟩

theorem insertNew_of_not_mem (h : k ∉ t.map Prod.fst) : insertNew t k v = t ++ [(k, v)] := by
  rw [insertNew, if_neg (fun hs => h (isSome_lookup_iff.1 hs))]

theorem lookup_insertNew (t : List (Str × β)) (k : Str) (v : β) (w : Str) :
    (insertNew t k v).lookup w = if w = k then some ((t.lookup k).getD v) else t.lookup w := by
  unfold insertNew
  cases hk : t.lookup k with
  | some u =>
      rw [Option.isSome_some, if_pos rfl]
      split
      · simp_all
      · rfl
  | none =>
      rw [Option.isSome_none, if_neg (by decide), List.lookup_append]
      by_cases hw : w = k
      · simp [hw, hk]
      · simp [List.lookup_cons, beq_eq_false_iff_ne.2 hw, hw]

end Maps

/-- Incrementing the entries of a word, as seen by a lookup. -/
theorem lookup_map_increment (t : List (Str × ℕ)) (w v : Str) :
    (t.map fun p => if p.1 = w then (p.1, p.2 + 1) else p).lookup v =
      (t.lookup v).map fun n => if v = w then n + 1 else n := by
  induction t with
  | nil => rfl
  | cons p t ih =>
      obtain ⟨u, m⟩ := p
      have hkey : (if u = w then (u, m + 1) else (u, m)) = (u, if u = w then m + 1 else m) := by
        split <;> rfl
      rw [List.map_cons, hkey, List.lookup_cons, List.lookup_cons, ih]
      by_cases hv : v = u
      · simp [hv]
      · rw [beq_eq_false_iff_ne.2 hv]

/-- `t[w]++` changes the count of one word. -/
theorem lookup_countWord (t : List (Str × ℕ)) (w v : Str) :
    (countWord t w).lookup v = if v = w then some ((t.lookup w).getD 0 + 1) else t.lookup v := by
  unfold countWord
  cases hw : t.lookup w with
  | none =>
      rw [Option.isSome_none, if_neg (by decide), List.lookup_append]
      by_cases hv : v = w
      · simp [hv, hw]
      · simp [List.lookup_cons, beq_eq_false_iff_ne.2 hv, hv]
  | some n =>
      rw [Option.isSome_some, if_pos rfl, lookup_map_increment]
      by_cases hv : v = w
      · simp [hv, hw]
      · simp [hv]

/-! ## Counting -/

/-- A table that holds the count of every word, once. -/
structure Counts (words : List Str) (table : List (Str × ℕ)) : Prop where
  nodup : (table.map Prod.fst).Nodup
  mem_iff : ∀ w n, (w, n) ∈ table ↔ w ∈ words ∧ n = words.count w

theorem Counts.mem_keys {words : List Str} {table : List (Str × ℕ)} (h : Counts words table)
    {w : Str} : w ∈ table.map Prod.fst ↔ w ∈ words := by
  constructor
  · intro hw
    obtain ⟨⟨w', n⟩, hp, rfl⟩ := List.mem_map.1 hw
    exact ((h.mem_iff w' n).1 hp).1
  · intro hw
    exact List.mem_map.2 ⟨(w, words.count w), (h.mem_iff _ _).2 ⟨hw, rfl⟩, rfl⟩

theorem Counts.count {words : List Str} {table : List (Str × ℕ)} (h : Counts words table)
    (w : Str) : Counts (words ++ [w]) (countWord table w) := by
  by_cases hw : w ∈ words
  · -- a known word is incremented in its place
    have hstep : countWord table w =
        table.map fun p => if p.1 = w then (p.1, p.2 + 1) else p :=
      if_pos (isSome_lookup_iff.2 (h.mem_keys.2 hw))
    have hkeys : (countWord table w).map Prod.fst = table.map Prod.fst := by
      rw [hstep, List.map_map]
      refine List.map_congr_left fun p _ => ?_
      simp only [Function.comp_apply]
      split <;> rfl
    refine ⟨hkeys ▸ h.nodup, fun v n => ?_⟩
    rw [hstep, List.mem_map, List.mem_append, List.mem_singleton, List.count_append]
    constructor
    · rintro ⟨⟨u, m⟩, hmem, heq⟩
      obtain ⟨hu, rfl⟩ := (h.mem_iff u m).1 hmem
      by_cases huw : u = w
      · rw [if_pos huw] at heq
        obtain ⟨rfl, rfl⟩ := Prod.mk.inj heq
        exact ⟨Or.inl hu, by simp [huw]⟩
      · rw [if_neg huw] at heq
        obtain ⟨rfl, rfl⟩ := Prod.mk.inj heq
        exact ⟨Or.inl hu, by simp [Ne.symm huw]⟩
    · rintro ⟨hv, rfl⟩
      have hv' : v ∈ words := hv.elim id fun heq => heq ▸ hw
      refine ⟨(v, words.count v), (h.mem_iff _ _).2 ⟨hv', rfl⟩, ?_⟩
      by_cases hvw : v = w
      · simp [hvw]
      · simp [hvw, Ne.symm hvw]
  · -- a new word is appended with count 1
    have hkey : w ∉ table.map Prod.fst := fun hmem => hw (h.mem_keys.1 hmem)
    have hstep : countWord table w = table ++ [(w, 1)] :=
      if_neg fun hs => hkey (isSome_lookup_iff.1 hs)
    refine ⟨?_, fun v n => ?_⟩
    · rw [hstep, List.map_append, List.nodup_append]
      refine ⟨h.nodup, by simp, fun a ha b hb hab => hkey ?_⟩
      simp only [List.map_cons, List.map_nil, List.mem_singleton] at hb
      rwa [← hb, ← hab]
    · rw [hstep, List.mem_append, h.mem_iff, List.mem_singleton, Prod.mk.injEq, List.mem_append,
        List.mem_singleton, List.count_append]
      by_cases hvw : v = w
      · simp [hvw, hw, List.count_eq_zero_of_not_mem hw]
      · simp [hvw, Ne.symm hvw]

/-- **The sampler counts every word.** -/
theorem countWords_spec (words : List Str) : Counts words (countWords words) := by
  induction words using List.reverseRecOn with
  | nil => exact ⟨by simp [countWords], by simp [countWords]⟩
  | append_singleton words w ih =>
      rw [countWords, List.foldl_append]
      exact ih.count w

/-! ## The tree -/

variable (std : StdOrder)

theorem genHfTree_cons_cons (a b : Entry) (track : List Entry) :
    genHfTree std (a :: b :: track) =
      genHfTree std (std.sortInc (track ++ [mergeEntries a b])) := by
  have hlen : (std.sortInc (track ++ [mergeEntries a b])).length = track.length + 1 := by
    rw [(std.sortInc_perm _).length_eq, List.length_append, List.length_singleton]
  rw [genHfTree, genHfTree, hlen]
  rfl

/-- **The recursion of `gen_hf_tree`**: what holds of single entries and survives a merge
holds of every track and its tree. -/
theorem genHfTree_induction (P : List Entry → Tree → Prop) (hsingle : ∀ a, P [a] a.node)
    (hmerge : ∀ a b track t, P (std.sortInc (track ++ [mergeEntries a b])) t →
      P (a :: b :: track) t) :
    ∀ track, track ≠ [] → ∃ t, genHfTree std track = some t ∧ P track t := by
  intro track
  induction hn : track.length generalizing track with
  | zero => intro hne; exact absurd (List.eq_nil_of_length_eq_zero hn) hne
  | succ n ih =>
      intro hne
      match track, hn with
      | [a], _ => exact ⟨a.node, rfl, hsingle a⟩
      | a :: b :: track, hn =>
          have hlen : (std.sortInc (track ++ [mergeEntries a b])).length = n := by
            rw [(std.sortInc_perm _).length_eq, List.length_append, List.length_singleton]
            simpa using hn
          obtain ⟨t, ht, hP⟩ := ih _ hlen (by
            intro hnil
            rw [hnil] at hlen
            simp at hn
            simp only [List.length_nil] at hlen
            omega)
          exact ⟨t, by rw [genHfTree_cons_cons, ht], hmerge a b track t hP⟩

/-- The leaves of a merged entry. -/
theorem leaves_mergeEntries (a b : Entry) :
    (mergeEntries a b).node.leaves = a.node.leaves ++ b.node.leaves := rfl

/-- **No symbol is lost or duplicated** on the way into the tree. -/
theorem genHfTree_leaves {track : List Entry} (h : track ≠ []) :
    ∃ t, genHfTree std track = some t ∧ t.leaves.Perm (track.flatMap fun e => e.node.leaves) := by
  refine genHfTree_induction std (fun track t =>
    t.leaves.Perm (track.flatMap fun e => e.node.leaves)) (fun a => by simp) ?_ track h
  intro a b track t ht
  have hsort := (std.sortInc_perm (track ++ [mergeEntries a b])).flatMap_right
    fun e => e.node.leaves
  refine ht.trans (hsort.trans ?_)
  rw [List.flatMap_append, List.flatMap_singleton, leaves_mergeEntries, List.flatMap_cons,
    List.flatMap_cons, ← List.append_assoc a.node.leaves]
  exact List.perm_append_comm

/-! ## The entries of a table -/

variable {std} {limit : ℕ} {table : List (Str × ℕ)}

/-- An entry of a fresh track. -/
def entryOf (p : Str × ℕ) : Entry := ⟨asInt p.2, none, p.1⟩

theorem trackOf_perm : (trackOf std table).Perm (table.map entryOf) :=
  (std.iterate_perm table).map entryOf

theorem pickUpSize_eq (limit : ℕ) (track : List Entry) :
    pickUpSize limit track = track.take limit := by
  unfold pickUpSize
  split
  · rfl
  · rw [List.take_of_length_le (Nat.le_refl _), List.take_of_length_le (by omega)]

theorem fillData_perm :
    (fillData std limit table).Perm ((std.sortDec (trackOf std table)).take limit) := by
  rw [fillData, pickUpSize_eq]
  exact std.sortInc_perm _

theorem sortDec_perm_table : (std.sortDec (trackOf std table)).Perm (table.map entryOf) :=
  (std.sortDec_perm _).trans trackOf_perm

theorem length_fillData : (fillData std limit table).length = min limit table.length := by
  rw [fillData_perm.length_eq, List.length_take, sortDec_perm_table.length_eq, List.length_map]

/-- Every entry of the truncated track belongs to a pair of the table. -/
theorem exists_of_mem_fillData {e : Entry} (h : e ∈ fillData std limit table) :
    ∃ p ∈ table, e = entryOf p := by
  have hmem := List.mem_of_mem_take (fillData_perm.mem_iff.1 h)
  obtain ⟨p, hp, rfl⟩ := List.mem_map.1 (sortDec_perm_table.mem_iff.1 hmem)
  exact ⟨p, hp, rfl⟩

theorem map_symbol_entryOf : (table.map entryOf).map Entry.symbol = table.map Prod.fst := by
  rw [List.map_map]
  rfl

theorem fillData_symbols_nodup (h : (table.map Prod.fst).Nodup) :
    ((fillData std limit table).map Entry.symbol).Nodup := by
  have hall : ((std.sortDec (trackOf std table)).map Entry.symbol).Nodup := by
    rw [(sortDec_perm_table.map Entry.symbol).nodup_iff, map_symbol_entryOf]
    exact h
  rw [(fillData_perm.map Entry.symbol).nodup_iff, List.map_take]
  exact hall.sublist (List.take_sublist _ _)

/-- A fresh track puts exactly its symbols at the leaves. -/
theorem flatMap_leaves_fillData : (fillData std limit table).flatMap (fun e => e.node.leaves) =
    (fillData std limit table).map Entry.symbol := by
  rw [List.flatMap_def, List.map_congr_left (g := fun e : Entry => [e.symbol])]
  · exact (List.map_eq_flatMap ..).symm
  · intro e he
    obtain ⟨p, -, rfl⟩ := exists_of_mem_fillData he
    rfl

/-! ## The code map -/

/-- `traverse` appends the codes of a tree whose symbols are new to the map. -/
theorem traverse_eq (t : Tree) : ∀ (stack : Str) (code : List (Str × Str)),
    (code.map Prod.fst ++ t.leaves).Nodup →
    traverse t stack code = code ++ (t.codes '0' '1').map fun p => (p.1, stack ++ p.2) := by
  induction t with
  | leaf symbol =>
      intro stack code hnd
      have hnew : symbol ∉ code.map Prod.fst := fun hmem =>
        (List.nodup_append.1 hnd).2.2 symbol hmem symbol (by simp [Tree.leaves]) rfl
      rw [traverse, insertNew_of_not_mem hnew]
      simp [Tree.codes]
  | node l r ihl ihr =>
      intro stack code hnd
      rw [Tree.leaves, ← List.append_assoc] at hnd
      rw [traverse, ihl _ _ (List.Nodup.of_append_left hnd), ihr]
      · simp [Tree.codes, Function.comp_def]
      · simpa [Function.comp_def, ← l.map_fst_codes '0' '1'] using hnd

/-- **The code map of a table** is empty, or the list of the codes of a tree whose leaves are
the entries that were kept. -/
theorem codeTable_eq (std : StdOrder) (limit : ℕ) (h : (table.map Prod.fst).Nodup) :
    (fillData std limit table = [] ∧ codeTable std limit table = []) ∨
    ∃ t : Tree, genHfTree std (fillData std limit table) = some t ∧
      t.leaves.Perm ((fillData std limit table).map Entry.symbol) ∧
      codeTable std limit table = t.codes '0' '1' := by
  by_cases hnil : fillData std limit table = []
  · left
    refine ⟨hnil, ?_⟩
    rw [codeTable, hnil]
    rfl
  · right
    obtain ⟨t, ht, hperm⟩ := genHfTree_leaves std hnil
    rw [flatMap_leaves_fillData] at hperm
    refine ⟨t, ht, hperm, ?_⟩
    rw [codeTable, ht]
    dsimp only
    rw [traverse_eq]
    · simp
    · simpa using hperm.nodup_iff.2 (fillData_symbols_nodup h)

/-- The words of the code map are the words that were kept. -/
theorem codeTable_keys_perm (std : StdOrder) (limit : ℕ) (h : (table.map Prod.fst).Nodup) :
    ((codeTable std limit table).map Prod.fst).Perm
      ((fillData std limit table).map Entry.symbol) := by
  rcases codeTable_eq std limit h with ⟨hnil, hcode⟩ | ⟨t, -, hperm, hcode⟩
  · rw [hnil, hcode]
    exact List.Perm.refl _
  · rw [hcode, Tree.map_fst_codes]
    exact hperm

theorem codeTable_keys_nodup (std : StdOrder) (limit : ℕ)
    (h : (table.map Prod.fst).Nodup) :
    ((codeTable std limit table).map Prod.fst).Nodup :=
  (codeTable_keys_perm std limit h).nodup_iff.2 (fillData_symbols_nodup h)

theorem length_codeTable (std : StdOrder) (limit : ℕ) (h : (table.map Prod.fst).Nodup) :
    (codeTable std limit table).length = min limit table.length := by
  have hlen := (codeTable_keys_perm std limit h).length_eq
  rwa [List.length_map, List.length_map, length_fillData] at hlen

/-- Every word with a code has been sampled. -/
theorem mem_table_of_mem_codeTable (h : (table.map Prod.fst).Nodup) {p : Str × Str}
    (hp : p ∈ codeTable std limit table) : p.1 ∈ table.map Prod.fst := by
  have hkey : p.1 ∈ (codeTable std limit table).map Prod.fst := List.mem_map_of_mem hp
  obtain ⟨e, he, hsym⟩ := List.mem_map.1 ((codeTable_keys_perm std limit h).mem_iff.1 hkey)
  obtain ⟨q, hq, rfl⟩ := exists_of_mem_fillData he
  exact hsym ▸ List.mem_map_of_mem hq

theorem isBin_codes (t : Tree) : ∀ p ∈ t.codes '0' '1', IsBin p.2 := by
  induction t with
  | leaf symbol => intro p hp; rw [List.mem_singleton.1 hp]; intro c hc; simp at hc
  | node l r ihl ihr =>
      intro p hp c hc
      rcases List.mem_append.1 hp with hp | hp <;> obtain ⟨q, hq, rfl⟩ := List.mem_map.1 hp <;>
        rcases List.mem_cons.1 hc with rfl | hc
      · exact Or.inl rfl
      · exact ihl q hq c hc
      · exact Or.inr rfl
      · exact ihr q hq c hc

/-- The codes are strings of `'0'` and `'1'`. -/
theorem isBin_codeTable (h : (table.map Prod.fst).Nodup) {p : Str × Str}
    (hp : p ∈ codeTable std limit table) : IsBin p.2 := by
  rcases codeTable_eq std limit h with ⟨-, hcode⟩ | ⟨t, -, -, hcode⟩
  · rw [hcode] at hp
    simp at hp
  · exact isBin_codes t p (hcode ▸ hp)

/-- **No code of the map starts another one.** -/
theorem codeTable_prefixFree (h : (table.map Prod.fst).Nodup) :
    PrefixFree Prod.snd {p | p ∈ codeTable std limit table} := by
  rcases codeTable_eq std limit h with ⟨-, hcode⟩ | ⟨t, -, -, hcode⟩
  · rw [hcode]
    intro p hp
    simp at hp
  · rw [hcode]
    exact Tree.codes_prefixFree (by decide) t

end CompressionWork.Sampling
