import CompressionWork.Sampling.Code

/-!
# The table the encoder reads back

* `split_line` — a line of the file splits into its word and its code; an empty code is not
  there.
* `tracker_perm` — the table read back is the one that was written, without empty codes.
* `tracker_eq_nil_iff`, `sum_tracker` — it is empty when fewer than two words were sampled, and
  otherwise its codes leave no room for another one.
* `readCode` — takes a code off the front of a string, and `readCode_append` finds it.
-/

namespace CompressionWork.Sampling

open Codec

/-! ## Lines -/

theorem splitAux_append {del : Char} {s : Str} (h : del ∉ s) (item t : Str) :
    splitAux del item (s ++ t) = splitAux del (item ++ s) t := by
  induction s generalizing item with
  | nil => simp
  | cons c s ih =>
      have hc : c ≠ del := fun heq => h (by simp [heq])
      rw [List.cons_append, splitAux, if_neg hc, ih (fun hmem => h (List.mem_cons_of_mem _ hmem)),
        List.append_assoc, List.singleton_append]

/-- A word and its code come back out of their line; an empty code does not. -/
theorem split_line {k v : Str} (hk : ' ' ∉ k) (hv : ' ' ∉ v) :
    split (k ++ ' ' :: v) ' ' = if v = [] then [k] else [k, v] := by
  rw [split, splitAux_append hk, List.nil_append, splitAux, if_pos rfl]
  have h := splitAux_append hv [] []
  rw [List.append_nil, List.nil_append] at h
  rw [h, splitAux]
  by_cases hnil : v = []
  · rw [if_pos hnil, if_pos hnil]
  · rw [if_neg hnil, if_neg hnil]

/-! ## The whole file -/

/-- No field of a table contains the separator. -/
def NoBlank (ps : List (Str × Str)) : Prop := ∀ p ∈ ps, ' ' ∉ p.1 ∧ ' ' ∉ p.2

/-- Reading the lines of a table back drops the empty codes and nothing else. -/
theorem readTracker_lines {ps : List (Str × Str)} (hblank : NoBlank ps)
    (hnd : (ps.map Prod.fst).Nodup) :
    readTracker (ps.map fun p => p.1 ++ ' ' :: p.2) = ps.filter fun p => p.2 ≠ [] := by
  induction ps using List.reverseRecOn with
  | nil => rfl
  | append_singleton ps p ih =>
      rw [List.map_append, List.nodup_append] at hnd
      have hread := ih (fun q hq => hblank q (List.mem_append_left _ hq)) hnd.1
      have hp := hblank p (by simp)
      rw [readTracker] at hread
      rw [readTracker, List.map_append, List.foldl_append, hread, List.map_singleton,
        List.foldl_cons, List.foldl_nil, split_line hp.1 hp.2, List.filter_append]
      by_cases hnil : p.2 = []
      · simp [hnil]
      · have hnew : p.1 ∉ (ps.filter fun p => p.2 ≠ []).map Prod.fst := by
          intro hmem
          obtain ⟨q, hq, heq⟩ := List.mem_map.1 hmem
          have hq' : q ∈ ps := List.mem_of_mem_filter hq
          exact hnd.2.2 q.1 (List.mem_map_of_mem hq') p.1 (by simp) heq
        rw [if_neg hnil]
        simp only
        rw [insertNew_of_not_mem hnew]
        simp [hnil]

section

variable {std : StdOrder} {limit : ℕ} {table : List (Str × ℕ)}

/-- The sampled words are free of blanks, so the code map is. -/
theorem noBlank_codeTable (hnd : (table.map Prod.fst).Nodup) (h : ∀ p ∈ table, ' ' ∉ p.1) :
    NoBlank (codeTable std limit table) := by
  intro p hp
  constructor
  · obtain ⟨q, hq, heq⟩ := List.mem_map.1 (mem_table_of_mem_codeTable hnd hp)
    exact heq ▸ h q hq
  · intro hmem
    rcases isBin_codeTable hnd hp ' ' hmem with h | h
    · exact absurd h (by decide)
    · exact absurd h (by decide)

/-- **The table read back is the one that was written**, without empty codes. -/
theorem tracker_perm (hnd : (table.map Prod.fst).Nodup) (h : ∀ p ∈ table, ' ' ∉ p.1) :
    (tracker std limit table).Perm ((codeTable std limit table).filter fun p => p.2 ≠ []) := by
  have hperm := std.iterate_perm (codeTable std limit table)
  have hblank : NoBlank (std.iterate (codeTable std limit table)) := fun p hp =>
    noBlank_codeTable hnd h p (hperm.mem_iff.1 hp)
  rw [tracker, writeFile, readTracker_lines hblank
    ((hperm.map Prod.fst).nodup_iff.2 (codeTable_keys_nodup std limit hnd))]
  exact hperm.filter _

theorem mem_tracker (hnd : (table.map Prod.fst).Nodup) (h : ∀ p ∈ table, ' ' ∉ p.1)
    {p : Str × Str} : p ∈ tracker std limit table ↔ p ∈ codeTable std limit table ∧ p.2 ≠ [] := by
  rw [(tracker_perm hnd h).mem_iff, List.mem_filter]
  simp

/-! ## Which tables are empty -/

/-- A table with one word gives it the empty code. -/
theorem code_eq_nil_of_length_le_one (hnd : (table.map Prod.fst).Nodup)
    (hlen : (codeTable std limit table).length ≤ 1) {p : Str × Str}
    (hp : p ∈ codeTable std limit table) : p.2 = [] := by
  rcases codeTable_eq std limit hnd with ⟨-, hcode⟩ | ⟨t, -, -, hcode⟩
  · rw [hcode] at hp
    simp at hp
  · rw [hcode] at hp hlen
    cases t with
    | leaf symbol => rw [List.mem_singleton.1 hp]
    | node l r =>
        rw [← List.length_map Prod.fst, Tree.map_fst_codes, Tree.leaves,
          List.length_append] at hlen
        have hl := l.length_leaves_pos
        have hr := r.length_leaves_pos
        omega

/-- With two words no code is empty. -/
theorem code_ne_nil_of_two_le (hnd : (table.map Prod.fst).Nodup)
    (hlen : 2 ≤ (codeTable std limit table).length) {p : Str × Str}
    (hp : p ∈ codeTable std limit table) : p.2 ≠ [] := by
  refine (codeTable_prefixFree hnd).ne_nil ?_ hp
  have hkeys := codeTable_keys_nodup std limit hnd
  match hcode : codeTable std limit table, hlen with
  | a :: b :: rest, _ =>
      rw [hcode] at hkeys
      refine ⟨a, by simp, b, by simp, fun hab => ?_⟩
      simp [hab] at hkeys

/-- **The table read back is empty** exactly when fewer than two words were sampled. -/
theorem tracker_eq_nil_iff (hnd : (table.map Prod.fst).Nodup) (h : ∀ p ∈ table, ' ' ∉ p.1)
    (hlimit : 2 ≤ limit) : tracker std limit table = [] ↔ table.length ≤ 1 := by
  have hlen := length_codeTable std limit hnd
  constructor
  · intro hnil
    by_contra htwo
    have hcode : 2 ≤ (codeTable std limit table).length := by omega
    obtain ⟨p, hp⟩ := List.exists_mem_of_ne_nil (codeTable std limit table) (by
      intro hempty
      rw [hempty] at hcode
      simp at hcode)
    have hmem := (mem_tracker hnd h).2 ⟨hp, code_ne_nil_of_two_le hnd hcode hp⟩
    rw [hnil] at hmem
    simp at hmem
  · intro hone
    refine List.eq_nil_iff_forall_not_mem.2 fun p hp => ?_
    obtain ⟨hmem, hne⟩ := (mem_tracker hnd h).1 hp
    exact hne (code_eq_nil_of_length_le_one hnd (by omega) hmem)

/-- **A table that is not empty uses Kraft's inequality up.** -/
theorem sum_tracker (hnd : (table.map Prod.fst).Nodup) (h : ∀ p ∈ table, ' ' ∉ p.1)
    (hlimit : 2 ≤ limit) (hne : tracker std limit table ≠ []) :
    ((tracker std limit table).map fun p => (1 / 2 : ℝ) ^ p.2.length).sum = 1 := by
  have hlen := length_codeTable std limit hnd
  have htwo : ¬ table.length ≤ 1 := fun hone => hne ((tracker_eq_nil_iff hnd h hlimit).2 hone)
  have hall : (codeTable std limit table).filter (fun p => p.2 ≠ []) =
      codeTable std limit table :=
    List.filter_eq_self.2 fun p hp => by
      simpa using code_ne_nil_of_two_le hnd (by omega) hp
  rw [((tracker_perm hnd h).map _).sum_eq, hall]
  rcases codeTable_eq std limit hnd with ⟨-, hcode⟩ | ⟨t, -, -, hcode⟩
  · rw [hcode] at hlen
    simp only [List.length_nil] at hlen
    omega
  · rw [hcode, Tree.sum_codes]

/-- **The file keeps the table** exactly when the table has not one word only. -/
theorem lookup_tracker_iff (hnd : (table.map Prod.fst).Nodup) (h : ∀ p ∈ table, ' ' ∉ p.1)
    (hlimit : 2 ≤ limit) :
    (∀ w, (tracker std limit table).lookup w = (codeTable std limit table).lookup w) ↔
      table.length ≠ 1 := by
  have hlen := length_codeTable std limit hnd
  have hkeys := codeTable_keys_nodup std limit hnd
  constructor
  · intro hsame hone
    -- the one word has a code in the table and none in the file
    have hnil := (@tracker_eq_nil_iff std limit table hnd h hlimit).2 (Nat.le_of_eq hone)
    obtain ⟨p, hp⟩ : ∃ p, p ∈ codeTable std limit table := by
      apply List.exists_mem_of_length_pos
      omega
    have hlookup := lookup_eq_of_mem hkeys (k := p.1) (v := p.2) hp
    rw [← hsame, hnil] at hlookup
    simp at hlookup
  · intro hne w
    have hall : (codeTable std limit table).filter (fun p => p.2 ≠ []) =
        codeTable std limit table := by
      apply List.filter_eq_self.2
      intro p hp
      have hpos := List.length_pos_of_mem hp
      have hcode := code_ne_nil_of_two_le hnd (by omega) hp
      simpa using hcode
    have hperm := @tracker_perm std limit table hnd h
    rw [hall] at hperm
    have hkeys' := (hperm.map Prod.fst).nodup_iff.2 hkeys
    apply Option.ext
    intro v
    rw [lookup_eq_some_iff_mem hkeys', lookup_eq_some_iff_mem hkeys, hperm.mem_iff]

theorem length_tracker_le (hnd : (table.map Prod.fst).Nodup) (h : ∀ p ∈ table, ' ' ∉ p.1) :
    (tracker std limit table).length ≤ limit := by
  have hlen := length_codeTable std limit hnd
  have hfilter := List.length_filter_le (fun p => p.2 ≠ []) (codeTable std limit table)
  rw [(tracker_perm hnd h).length_eq]
  omega

end

/-! ## Reading a code -/

/-- A table an encoder may use: every word once, with a code that starts no other code. -/
structure CodeTable (tr : List (Str × Str)) : Prop where
  nodup : (tr.map Prod.fst).Nodup
  prefixFree : PrefixFree Prod.snd {p | p ∈ tr}
  ne_nil : ∀ p ∈ tr, p.2 ≠ []
  isBin : ∀ p ∈ tr, IsBin p.2

/-- The tables that the samplers write are of this kind. -/
theorem codeTable_tracker {std : StdOrder} {limit : ℕ} {table : List (Str × ℕ)}
    (hnd : (table.map Prod.fst).Nodup) (h : ∀ p ∈ table, ' ' ∉ p.1) :
    CodeTable (tracker std limit table) where
  nodup := by
    rw [((tracker_perm hnd h).map Prod.fst).nodup_iff]
    exact (codeTable_keys_nodup std limit hnd).sublist (List.filter_sublist.map _)
  prefixFree := (codeTable_prefixFree hnd).subset fun p hp => ((mem_tracker hnd h).1 hp).1
  ne_nil p hp := ((mem_tracker hnd h).1 hp).2
  isBin p hp := isBin_codeTable hnd ((mem_tracker hnd h).1 hp).1

/-- Takes the code of a word off the front of a string. -/
def readCode (tr : List (Str × Str)) (s : Str) : Option (Str × Str) :=
  (tr.find? fun p => p.2.isPrefixOf s).map fun p => (p.1, s.drop p.2.length)

/-- **The code in front of a string is found**, whatever follows it. -/
theorem readCode_append {tr : List (Str × Str)} (h : CodeTable tr) {k v : Str}
    (hkv : (k, v) ∈ tr) (r : Str) : readCode tr (v ++ r) = some (k, r) := by
  have hsome : (tr.find? fun p => p.2.isPrefixOf (v ++ r)).isSome := by
    rw [List.find?_isSome]
    exact ⟨(k, v), hkv, by simp⟩
  obtain ⟨p, hp⟩ := Option.isSome_iff_exists.1 hsome
  have hmem : p ∈ tr := List.mem_of_find?_eq_some hp
  have hpre : p.2 <+: v ++ r := by
    have := List.find?_some hp
    simpa using this
  -- two codes that start the same string are one
  have hpk : p = (k, v) := by
    rcases List.prefix_or_prefix_of_prefix hpre (List.prefix_append v r) with hle | hle
    · exact h.prefixFree p hmem (k, v) hkv hle
    · exact (h.prefixFree (k, v) hkv p hmem hle).symm
  rw [readCode, hp, hpk]
  simp

end CompressionWork.Sampling
