import Mathlib

/-!
# Ordered maps

A map as the list of its entries, in the order of the keys.

* `alter` — the value of one key is changed, or put in.
* `Sorted`, `sorted_alter` — the keys are ascending.
* `mem_alter_self`, `mem_alter_of_ne` — the entries after `alter`.
* `mem_group` — a list put into a map item by item: the value of a key is what its items make of it.
* `counts` — how many items a key has.
-/

namespace CompressionWork.SortedMap

variable {κ β : Type*} [LinearOrder κ]

/-- The value at a key is replaced or, where there is none, put in its place. -/
def alter (key : κ) (f : Option β → β) : List (κ × β) → List (κ × β)
  | [] => [(key, f none)]
  | (k, v) :: rest =>
      if key < k then (key, f none) :: (k, v) :: rest
      else if key = k then (k, f (some v)) :: rest
      else (k, v) :: alter key f rest

/-- The keys go up. -/
def Sorted (m : List (κ × β)) : Prop := m.Pairwise (·.1 < ·.1)

variable {m : List (κ × β)} {key k : κ} {f : Option β → β} {v : β}

theorem key_of_mem_alter (h : (k, v) ∈ alter key f m) : k = key ∨ ∃ v', (k, v') ∈ m := by
  induction m with
  | nil =>
    obtain ⟨rfl, -⟩ := Prod.mk.inj (List.mem_singleton.1 h)
    exact Or.inl rfl
  | cons e rest ih =>
    obtain ⟨k', v'⟩ := e
    rw [alter] at h
    split_ifs at h with hlt heq
    · rcases List.mem_cons.1 h with h | h
      · exact Or.inl (Prod.mk.inj h).1
      · exact Or.inr ⟨v, h⟩
    · rcases List.mem_cons.1 h with h | h
      · exact Or.inl ((Prod.mk.inj h).1.trans heq.symm)
      · exact Or.inr ⟨v, List.mem_cons_of_mem _ h⟩
    · rcases List.mem_cons.1 h with h | h
      · exact Or.inr ⟨v, h ▸ List.mem_cons_self⟩
      · exact (ih h).imp_right fun ⟨v'', hv''⟩ => ⟨v'', List.mem_cons_of_mem _ hv''⟩

theorem sorted_alter (h : Sorted m) : Sorted (alter key f m) := by
  induction m with
  | nil => exact List.pairwise_singleton _ _
  | cons e rest ih =>
    obtain ⟨k', v'⟩ := e
    obtain ⟨hhead, hrest⟩ := List.pairwise_cons.1 h
    rw [alter]
    split_ifs with hlt heq
    · refine List.pairwise_cons.2 ⟨fun e he => ?_, h⟩
      rcases List.mem_cons.1 he with rfl | he
      · exact hlt
      · exact lt_trans hlt (hhead e he)
    · exact List.pairwise_cons.2 ⟨hhead, hrest⟩
    · refine List.pairwise_cons.2 ⟨fun ⟨k, v⟩ he => ?_, ih hrest⟩
      rcases key_of_mem_alter he with rfl | ⟨v'', hv''⟩
      · exact lt_of_le_of_ne (not_lt.1 hlt) (Ne.symm heq)
      · exact hhead (k, v'') hv''

theorem Sorted.nodup_keys (h : Sorted m) : (m.map Prod.fst).Nodup :=
  List.pairwise_map.2 (h.imp fun hlt => ne_of_lt hlt)

/-- The entry of a key is the only one. -/
theorem Sorted.entry_unique (h : Sorted m) {v' : β} (hv : (k, v) ∈ m) (hv' : (k, v') ∈ m) : v = v' :=
  (Prod.mk.inj (List.inj_on_of_nodup_map h.nodup_keys hv hv' rfl)).2

/-- The entry of the key itself. -/
theorem mem_alter_self (h : Sorted m) :
    ((key, v) ∈ alter key f m ↔ (∃ v', (key, v') ∈ m ∧ v = f (some v')) ∨
      ((∀ v', (key, v') ∉ m) ∧ v = f none)) := by
  induction m with
  | nil => simp [alter]
  | cons e rest ih =>
    obtain ⟨k', v'⟩ := e
    obtain ⟨hhead, hrest⟩ := List.pairwise_cons.1 h
    have hgt : ∀ v, (k', v) ∉ rest := fun v hv => lt_irrefl _ (hhead (k', v) hv)
    rw [alter]
    split_ifs with hlt heq
    · have hrest' : ∀ v, (key, v) ∉ rest := fun v hv => lt_irrefl _ (lt_trans hlt (hhead (key, v) hv))
      simp [ne_of_lt hlt, hrest']
    · subst heq
      simp [hgt]
    · rw [List.mem_cons, ih hrest]
      simp [heq]

theorem mem_alter_of_ne (hne : k ≠ key) : (k, v) ∈ alter key f m ↔ (k, v) ∈ m := by
  induction m with
  | nil => simp [alter, hne]
  | cons e rest ih =>
    obtain ⟨k', v'⟩ := e
    rw [alter]
    split_ifs with hlt heq
    · simp [hne]
    · subst heq
      simp [hne]
    · rw [List.mem_cons, List.mem_cons, ih]

/-! ## Grouping -/

variable {α : Type*} (keyOf : α → κ) (f : α → Option β → β)

/-- The items of a list, each put under its key. -/
def group (items : List α) : List (κ × β) := items.foldl (fun m a => alter (keyOf a) (f a) m) []

/-- What items make of the value of their key. -/
def fold (items : List α) : Option β := items.foldl (fun v a => some (f a v)) none

theorem group_concat (items : List α) (a : α) :
    group keyOf f (items ++ [a]) = alter (keyOf a) (f a) (group keyOf f items) := by
  rw [group, List.foldl_append]
  rfl

theorem fold_concat (items : List α) (a : α) : fold f (items ++ [a]) = some (f a (fold f items)) := by
  rw [fold, List.foldl_append]
  rfl

theorem sorted_group (items : List α) : Sorted (group keyOf f items) := by
  induction items using List.reverseRecOn with
  | nil => exact List.Pairwise.nil
  | append_singleton items a ih =>
    rw [group_concat]
    exact sorted_alter ih

theorem mem_group (items : List α) :
    (k, v) ∈ group keyOf f items ↔ fold f (items.filter (keyOf · = k)) = some v := by
  induction items using List.reverseRecOn generalizing v with
  | nil => simp [group, fold]
  | append_singleton items a ih =>
    rw [group_concat, List.filter_append]
    by_cases hk : keyOf a = k
    · subst hk
      rw [mem_alter_self (sorted_group keyOf f items)]
      simp only [ih, decide_true, List.filter_cons_of_pos, List.filter_nil, fold_concat, Option.some.injEq]
      cases hfold : fold f (items.filter (keyOf · = keyOf a)) with
      | none => simp [eq_comm]
      | some v' => simp [eq_comm]
    · rw [mem_alter_of_ne (Ne.symm hk), ih, List.filter_cons_of_neg (by simpa using hk), List.filter_nil,
        List.append_nil]

/-! ## Counting -/

/-- How many items each key has. -/
def counts (items : List α) : List (κ × ℕ) := group keyOf (fun _ n => n.getD 0 + 1) items

theorem fold_count (items : List α) :
    (fold (fun _ n => n.getD 0 + 1) items).getD 0 = items.length ∧
      (items = [] ↔ fold (fun (_ : α) (n : Option ℕ) => n.getD 0 + 1) items = none) := by
  induction items using List.reverseRecOn with
  | nil => simp [fold]
  | append_singleton items a ih =>
    rw [fold_concat]
    exact ⟨by simp [ih.1], by simp⟩

theorem mem_counts (items : List α) {n : ℕ} :
    (k, n) ∈ counts keyOf items ↔ 0 < n ∧ n = (items.filter (keyOf · = k)).length := by
  obtain ⟨hlength, hnil⟩ := fold_count (items.filter (keyOf · = k))
  rw [counts, mem_group]
  constructor
  · intro h
    rw [h, Option.getD_some] at hlength
    refine ⟨Nat.pos_of_ne_zero fun h0 => ?_, hlength⟩
    rw [h0] at hlength
    rw [hnil.1 (List.eq_nil_of_length_eq_zero hlength.symm)] at h
    exact absurd h nofun
  · rintro ⟨hpos, rfl⟩
    obtain ⟨n, hn⟩ := Option.ne_none_iff_exists'.1 fun hnone =>
      (List.length_pos_iff.1 hpos) (hnil.2 hnone)
    rw [hn, Option.getD_some] at hlength
    rw [hn, hlength]

theorem sum_alter_succ (m : List (κ × ℕ)) :
    ((alter key (fun n => n.getD 0 + 1) m).map Prod.snd).sum = (m.map Prod.snd).sum + 1 := by
  induction m with
  | nil => rfl
  | cons e rest ih =>
    obtain ⟨k', n⟩ := e
    rw [alter]
    split_ifs with hlt heq
    · simp [Nat.add_comm]
    · simp only [List.map_cons, List.sum_cons, Option.getD_some]
      omega
    · simp only [List.map_cons, List.sum_cons, ih]
      omega

theorem sum_counts (items : List α) : ((counts keyOf items).map Prod.snd).sum = items.length := by
  induction items using List.reverseRecOn with
  | nil => rfl
  | append_singleton items a ih =>
    rw [counts, group_concat, sum_alter_succ, ← counts, ih, List.length_append, List.length_singleton]

theorem length_counts (items : List α) :
    (counts keyOf items).length = (items.map keyOf).toFinset.card := by
  have hnodup := (sorted_group keyOf (fun _ n => n.getD 0 + 1) items).nodup_keys
  rw [← counts] at hnodup
  have hkeys : ((counts keyOf items).map Prod.fst).toFinset = (items.map keyOf).toFinset := by
    ext k
    simp only [List.mem_toFinset, List.mem_map, Prod.exists, exists_and_right, exists_eq_right, mem_counts]
    constructor
    · intro hpos
      obtain ⟨a, ha⟩ := List.exists_mem_of_ne_nil _ (List.length_pos_iff.1 hpos)
      exact ⟨a, List.mem_of_mem_filter ha, of_decide_eq_true (List.mem_filter.1 ha).2⟩
    · rintro ⟨a, ha, rfl⟩
      exact List.length_pos_of_mem (List.mem_filter.2 ⟨ha, decide_eq_true rfl⟩)
  rw [← hkeys, List.toFinset_card_of_nodup hnodup, List.length_map]

end CompressionWork.SortedMap
