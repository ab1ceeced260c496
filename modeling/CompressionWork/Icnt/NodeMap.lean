import Mathlib.Algebra.Order.BigOperators.Group.Finset
import Mathlib.Data.Finset.Card
import Mathlib.Data.List.Nodup
import Mathlib.Tactic.Common

/-!
# The node map of the interconnect

`InterconnectInterface::_CreateNodeMap` places the shaders and the memories on the nodes of the network.  The
memories have the nodes of a list, and the shaders are put on the nodes between them.

* `skip`, `shaderNodes` — the loop over the shaders, which goes along with the list.
* `createNodeMap`, `reverseNodeMap` — the two maps.
* `skipped` — the memory nodes that the loop steps over.
* `shaderNodes_spec` — the shaders are on the nodes that are not skipped, without gaps.
* `createNodeMap_bijection_iff` — which lists give a bijection.
-/

namespace CompressionWork.Icnt

/-- `preset_memory_map` before the configuration is read. -/
def presetMemoryMap (nShader nMem : ℕ) : List ℕ :=
  if (nShader, nMem) = (8, 8) then [1, 3, 4, 6, 9, 11, 12, 14]
  else if (nShader, nMem) = (28, 8) then [3, 7, 10, 12, 23, 25, 28, 32]
  else if (nShader, nMem) = (56, 8) then [3, 15, 17, 29, 36, 47, 49, 61]
  else if (nShader, nMem) = (110, 11) then [12, 20, 25, 28, 57, 60, 63, 92, 95, 100, 108]
  else []

/-- `memory_node`; its assertions are that a configured list has a node for every memory, and that there is
a list. -/
def memoryNode (configMemoryNode : List ℕ) (nShader nMem : ℕ) : Option (List ℕ) := do
  guard (configMemoryNode = [] ∨ configMemoryNode.length = nMem)
  let memoryNode := if configMemoryNode = [] then presetMemoryMap nShader nMem else configMemoryNode
  guard (memoryNode ≠ [])
  pure memoryNode

/-- The loop over `next_node` and `memory_node_index`: the rest of the list stands for the index. -/
def skip : ℕ → List ℕ → ℕ × List ℕ
  | nextNode, [] => (nextNode, [])
  | nextNode, m :: rest => if nextNode = m then skip (nextNode + 1) rest else (nextNode, m :: rest)

/-- The nodes of so many shaders. -/
def shaderNodes : ℕ → ℕ → List ℕ → List ℕ
  | 0, _, _ => []
  | n + 1, nextNode, rest =>
      let s := skip nextNode rest
      s.1 :: shaderNodes n (s.1 + 1) s.2

/-- `_node_map`, for a network with a node for each shader and memory: the shaders come first. -/
def createNodeMap (nShader nMem : ℕ) (useMap : Bool) (configMemoryNode : List ℕ) : Option (List ℕ) :=
  if useMap then
    (memoryNode configMemoryNode nShader nMem).map fun nodes => shaderNodes nShader 0 nodes ++ nodes
  else some (List.range (nShader + nMem))

/-- `_reverse_node_map[i]`: the first device at the node. -/
def reverseNodeMap (nodeMap : List ℕ) (i : ℕ) : Option ℕ :=
  (List.range nodeMap.length).find? fun j => nodeMap[j]? == some i

/-- Every device has a node of its own, every node has a device, and the maps are inverse. -/
structure NodeBijection (n : ℕ) (nodeMap : List ℕ) : Prop where
  devices : nodeMap.length = n
  injective : nodeMap.Nodup
  covers : ∀ node, node ∈ nodeMap ↔ node < n
  inverse : ∀ node j, reverseNodeMap nodeMap node = some j ↔ nodeMap[j]? = some node

/-- When a position stands after a larger one, all nodes above it are memory nodes. -/
def Ordered (n : ℕ) (nodes : List ℕ) : Prop :=
  nodes.Pairwise fun m m' => m' < m → ∀ node < n, m' < node → node ∈ nodes

variable {nodes rest : List ℕ} {n k x next : ℕ}

/-! ## The loop -/

/-- The nodes of the list that are stepped over. -/
def skipped : ℕ → List ℕ → List ℕ
  | _, [] => []
  | nextNode, m :: rest => if nextNode ≤ m then m :: skipped (m + 1) rest else []

theorem le_of_mem_skipped (h : x ∈ skipped next rest) : next ≤ x := by
  induction rest generalizing next with
  | nil => exact absurd h List.not_mem_nil
  | cons m rest ih =>
    rw [skipped] at h
    split_ifs at h with hle
    · rcases List.mem_cons.1 h with rfl | h
      · exact hle
      · have := ih h
        omega
    · exact absurd h List.not_mem_nil

theorem skipped_pairwise : (skipped next rest).Pairwise (· < ·) := by
  induction rest generalizing next with
  | nil => exact List.Pairwise.nil
  | cons m rest ih =>
    rw [skipped]
    split_ifs with hle
    · exact List.pairwise_cons.2 ⟨fun x hx => le_of_mem_skipped hx, ih⟩
    · exact List.Pairwise.nil

theorem skipped_append : ∃ stuck, rest = skipped next rest ++ stuck := by
  induction rest generalizing next with
  | nil => exact ⟨[], rfl⟩
  | cons m rest ih =>
    rw [skipped]
    split_ifs with hle
    · obtain ⟨stuck, hstuck⟩ := @ih (m + 1)
      exact ⟨stuck, congrArg (m :: ·) hstuck⟩
    · exact ⟨_, rfl⟩

/-- What is skipped is an ascending initial part of the list. -/
theorem pairwise_lt_of_mem_skipped (hnodup : rest.Nodup) :
    rest.Pairwise fun a b => b ∈ skipped next rest → a < b := by
  obtain ⟨stuck, hstuck⟩ := @skipped_append rest next
  have hnot : ∀ b ∈ stuck, b ∉ skipped next rest := fun b hb hb' => by
    rw [hstuck] at hnodup
    exact (List.pairwise_append.1 hnodup).2.2 b hb' b hb rfl
  have hasc : (skipped next rest).Pairwise (· < ·) := skipped_pairwise
  have hall : (skipped next rest ++ stuck).Pairwise fun a b => b ∈ skipped next rest → a < b :=
    List.pairwise_append.2 ⟨hasc.imp_of_mem fun _ _ hab _ => hab,
      List.pairwise_of_forall_mem_list fun a _ b hb h => absurd h (hnot b hb),
      fun a _ b hb h => absurd h (hnot b hb)⟩
  rwa [← hstuck] at hall

/-- A position is stepped over when the list ascends up to it. -/
theorem mem_skipped {before after : List ℕ} (h : (before ++ [x]).Pairwise (· < ·))
    (hnext : ∀ y ∈ before ++ [x], next ≤ y) : x ∈ skipped next (before ++ x :: after) := by
  induction before generalizing next with
  | nil =>
    rw [List.nil_append, skipped, if_pos (hnext x List.mem_cons_self)]
    exact List.mem_cons_self
  | cons m before ih =>
    rw [List.cons_append] at h hnext ⊢
    obtain ⟨hhead, htail⟩ := List.pairwise_cons.1 h
    rw [skipped, if_pos (hnext m List.mem_cons_self)]
    exact List.mem_cons_of_mem _ (ih htail fun y hy => hhead y hy)

theorem skip_spec : next ≤ (skip next rest).1 ∧
    (∀ y, next ≤ y → y < (skip next rest).1 → y ∈ skipped next rest) ∧
    ∀ y, (skip next rest).1 ≤ y →
      (y ∈ skipped next rest ↔ y ∈ skipped ((skip next rest).1 + 1) (skip next rest).2) := by
  induction rest generalizing next with
  | nil => exact ⟨le_rfl, fun y hle hlt => absurd hlt (not_lt.2 hle), fun y _ => Iff.rfl⟩
  | cons m rest ih =>
    rw [skip]
    split_ifs with heq
    · subst heq
      obtain ⟨hle, hbetween, hafter⟩ := @ih (next + 1)
      rw [skipped, if_pos le_rfl]
      refine ⟨by omega, fun y hy hlt => ?_, fun y hy => ?_⟩
      · rcases Nat.eq_or_lt_of_le hy with rfl | hy
        · exact List.mem_cons_self
        · exact List.mem_cons_of_mem _ (hbetween y hy hlt)
      · rw [← hafter y hy, List.mem_cons]
        exact or_iff_right (by omega)
    · refine ⟨le_rfl, fun y hle hlt => absurd hlt (not_lt.2 hle), fun y _ => ?_⟩
      rw [skipped, skipped]
      have hiff : next ≤ m ↔ next + 1 ≤ m := by omega
      rw [if_congr hiff rfl rfl]

/-- **The nodes of the shaders** ascend, are not skipped, and leave no node out that is not skipped. -/
theorem shaderNodes_spec : (shaderNodes k next rest).length = k ∧
    (shaderNodes k next rest).Pairwise (· < ·) ∧
    (∀ x ∈ shaderNodes k next rest, next ≤ x ∧ x ∉ skipped next rest) ∧
    ∀ x ∈ shaderNodes k next rest, ∀ y, next ≤ y → y < x →
      y ∈ shaderNodes k next rest ∨ y ∈ skipped next rest := by
  induction k generalizing next rest with
  | zero => simp [shaderNodes]
  | succ k ih =>
    obtain ⟨hle, hbetween, hafter⟩ := @skip_spec rest next
    obtain ⟨hlength, hpair, hfree, hgap⟩ := @ih (skip next rest).2 ((skip next rest).1 + 1)
    have hfree' : ∀ x ∈ shaderNodes k ((skip next rest).1 + 1) (skip next rest).2,
        (skip next rest).1 < x ∧ x ∉ skipped next rest := fun x hx => by
      obtain ⟨hx₁, hx₂⟩ := hfree x hx
      exact ⟨hx₁, fun h => hx₂ ((hafter x (by omega)).1 h)⟩
    have hfirst : (skip next rest).1 ∉ skipped next rest := fun h => by
      have := le_of_mem_skipped ((hafter _ le_rfl).1 h)
      omega
    rw [shaderNodes]
    refine ⟨congrArg (· + 1) hlength, List.pairwise_cons.2 ⟨fun x hx => (hfree' x hx).1, hpair⟩, ?_, ?_⟩
    · intro x hx
      rcases List.mem_cons.1 hx with rfl | hx
      · exact ⟨hle, hfirst⟩
      · obtain ⟨hlt, hnot⟩ := hfree' x hx
        exact ⟨by omega, hnot⟩
    · intro x hx y hy hyx
      rcases Nat.lt_trichotomy y (skip next rest).1 with hlt | rfl | hgt
      · exact Or.inr (hbetween y hy hlt)
      · exact Or.inl List.mem_cons_self
      · rcases List.mem_cons.1 hx with rfl | hx
        · exact absurd hyx (not_lt.2 hgt.le)
        · rcases hgap x hx y hgt hyx with h | h
          · exact Or.inl (List.mem_cons_of_mem _ h)
          · exact Or.inr ((hafter y hgt.le).2 h)

/-! ## Bijections -/

theorem reverseNodeMap_eq_some_iff {nodeMap : List ℕ} (h : nodeMap.Nodup) (node j : ℕ) :
    reverseNodeMap nodeMap node = some j ↔ nodeMap[j]? = some node := by
  have hfound : ∀ j, reverseNodeMap nodeMap node = some j → nodeMap[j]? = some node := fun j hj => by
    simpa using List.find?_some hj
  refine ⟨hfound j, fun hj => ?_⟩
  have hlt : j < nodeMap.length := (List.getElem?_eq_some_iff.1 hj).1
  have hsome : (reverseNodeMap nodeMap node).isSome := by
    rw [reverseNodeMap, List.find?_isSome]
    exact ⟨j, List.mem_range.2 hlt, by simpa using hj⟩
  obtain ⟨j', hj'⟩ := Option.isSome_iff_exists.1 hsome
  have hlt' : j' < nodeMap.length := List.mem_range.1 (List.mem_of_find?_eq_some hj')
  have hjj : j' = j := (List.getElem?_inj hlt' h).1 ((hfound j' hj').trans hj.symm)
  exact hj'.trans (congrArg some hjj)

/-- A map that has no node twice and only nodes of the network. -/
theorem nodeBijection_of_nodup {nodeMap : List ℕ} (hlength : nodeMap.length = n) (h : nodeMap.Nodup)
    (hlt : ∀ node ∈ nodeMap, node < n) : NodeBijection n nodeMap := by
  refine ⟨hlength, h, fun node => ⟨hlt node, fun hnode => ?_⟩, reverseNodeMap_eq_some_iff h⟩
  have hsub : nodeMap.toFinset ⊆ Finset.range n := fun x hx =>
    Finset.mem_range.2 (hlt x (List.mem_toFinset.1 hx))
  have hcard : (Finset.range n).card ≤ nodeMap.toFinset.card := by
    rw [Finset.card_range, List.toFinset_card_of_nodup h, hlength]
  rw [← List.mem_toFinset, Finset.eq_of_subset_of_card_le hsub hcard]
  exact Finset.mem_range.2 hnode

/-- The nodes without a memory. -/
def freeNodes (n : ℕ) (nodes : List ℕ) : Finset ℕ := (Finset.range n).filter (· ∉ nodes)

theorem card_freeNodes (hnodup : nodes.Nodup) (hlt : ∀ m ∈ nodes, m < k + nodes.length) :
    (freeNodes (k + nodes.length) nodes).card = k := by
  have hsub : nodes.toFinset ⊆ Finset.range (k + nodes.length) := fun m hm =>
    Finset.mem_range.2 (hlt m (List.mem_toFinset.1 hm))
  have heq : freeNodes (k + nodes.length) nodes = Finset.range (k + nodes.length) \ nodes.toFinset := by
    ext x
    simp [freeNodes]
  rw [heq, Finset.card_sdiff_of_subset hsub, Finset.card_range, List.toFinset_card_of_nodup hnodup]
  omega

/-- From the node of a shader on, there is a node without a memory. -/
theorem exists_freeNode (hnodup : nodes.Nodup) (hlt : ∀ m ∈ nodes, m < k + nodes.length)
    (hx : x ∈ shaderNodes k 0 nodes) : ∃ u ∈ freeNodes (k + nodes.length) nodes, x ≤ u := by
  obtain ⟨hlength, hpair, -, hgap⟩ := @shaderNodes_spec nodes k 0
  by_contra hnone
  have hsub : freeNodes (k + nodes.length) nodes ⊆ (shaderNodes k 0 nodes).toFinset.erase x := by
    intro y hy
    have hyx : y < x := Nat.lt_of_not_le fun hle => hnone ⟨y, hy, hle⟩
    refine Finset.mem_erase.2 ⟨hyx.ne, List.mem_toFinset.2 ?_⟩
    refine (hgap x hx y (Nat.zero_le y) hyx).resolve_right fun hskip => ?_
    obtain ⟨stuck, hstuck⟩ := @skipped_append nodes 0
    have hmem : y ∈ nodes := hstuck ▸ List.mem_append_left _ hskip
    exact (Finset.mem_filter.1 hy).2 hmem
  have hcard := Finset.card_le_card hsub
  rw [card_freeNodes hnodup hlt, Finset.card_erase_of_mem (List.mem_toFinset.2 hx),
    List.toFinset_card_of_nodup (hpair.imp fun h => h.ne), hlength] at hcard
  have := List.length_pos_of_mem hx
  omega

/-- In an ordered list, the memory nodes below a node without memory are all skipped. -/
theorem mem_skipped_of_ordered {u : ℕ} (hnodup : nodes.Nodup) (hord : Ordered n nodes) (hx : x ∈ nodes)
    (hu : u ∉ nodes) (hun : u < n) (hxu : x < u) : x ∈ skipped 0 nodes := by
  obtain ⟨before, after, rfl⟩ := List.append_of_mem hx
  obtain ⟨hbefore, -, hcross⟩ := List.pairwise_append.1 hord
  obtain ⟨hdistinct, -, hne⟩ := List.pairwise_append.1 hnodup
  -- a memory node below `u` comes after no larger one
  have hlow : ∀ y ∈ before, y < x := fun y hy => by
    have hyx : y ≠ x := hne y hy x List.mem_cons_self
    by_contra hle
    exact hu (hcross y hy x List.mem_cons_self (by omega) u hun hxu)
  have hasc : before.Pairwise (· < ·) := by
    refine (hdistinct.and hbefore).imp_of_mem fun {y z} _ hz hyz => ?_
    by_contra hle
    have hyz₁ : y ≠ z := hyz.1
    have hzx := hlow z hz
    exact hu (hyz.2 (by omega) u hun (by omega))
  refine mem_skipped ?_ fun y _ => Nat.zero_le y
  refine List.pairwise_append.2 ⟨hasc, List.pairwise_singleton _ _, fun y hy z hz => ?_⟩
  rw [List.mem_singleton.1 hz]
  exact hlow y hy

theorem nodeBijection_shaderNodes_iff (hnodup : nodes.Nodup) (hlt : ∀ m ∈ nodes, m < k + nodes.length) :
    NodeBijection (k + nodes.length) (shaderNodes k 0 nodes ++ nodes) ↔ Ordered (k + nodes.length) nodes := by
  obtain ⟨hlength, hpair, hfree, hgap⟩ := @shaderNodes_spec nodes k 0
  constructor
  · rintro ⟨-, hinj, hcovers, -⟩
    have hdisjoint := (List.pairwise_append.1 hinj).2.2
    refine (List.pairwise_iff_forall_sublist).2 fun {m m'} hsub hlt' u hun hu => ?_
    by_contra hmem
    have hshader : u ∈ shaderNodes k 0 nodes :=
      (List.mem_append.1 ((hcovers u).2 hun)).resolve_right hmem
    have hm' : m' ∈ nodes := hsub.subset (by simp)
    rcases hgap u hshader m' (Nat.zero_le m') hu with h | h
    · exact hdisjoint m' h m' hm' rfl
    · have := List.pairwise_iff_forall_sublist.1 (pairwise_lt_of_mem_skipped hnodup) hsub h
      omega
  · intro hord
    have hgood : ∀ x ∈ shaderNodes k 0 nodes, x < k + nodes.length ∧ x ∉ nodes := fun x hx => by
      obtain ⟨u, hu, hxu⟩ := exists_freeNode hnodup hlt hx
      obtain ⟨hun, hfreeu⟩ := Finset.mem_filter.1 hu
      rw [Finset.mem_range] at hun
      refine ⟨by omega, fun hmem => ?_⟩
      have hne : x ≠ u := fun h => hfreeu (h ▸ hmem)
      exact (hfree x hx).2 (mem_skipped_of_ordered hnodup hord hmem hfreeu hun (by omega))
    refine nodeBijection_of_nodup (by rw [List.length_append, hlength])
      (List.pairwise_append.2 ⟨hpair.imp fun h => h.ne, hnodup, fun a ha b hb hab => ?_⟩) fun node hnode => ?_
    · exact (hgood a ha).2 (hab ▸ hb)
    · rcases List.mem_append.1 hnode with h | h
      · exact (hgood node h).1
      · exact hlt node h

/-- **The node map** is a bijection without a preset map, and else exactly for the lists in which every
position that stands after a larger one has only memory nodes above it. -/
theorem createNodeMap_bijection_iff (nShader : ℕ) (useMap : Bool) (config : List ℕ) (hnodup : config.Nodup)
    (hlt : ∀ m ∈ config, m < nShader + config.length) :
    (∃ nodeMap, createNodeMap nShader config.length useMap config = some nodeMap ∧
        NodeBijection (nShader + config.length) nodeMap) ↔
      useMap = false ∨ config ≠ [] ∧ Ordered (nShader + config.length) config := by
  cases useMap with
  | false =>
    refine iff_of_true ⟨_, rfl, ?_⟩ (Or.inl rfl)
    exact nodeBijection_of_nodup List.length_range List.nodup_range fun _ => List.mem_range.1
  | true =>
    rw [or_iff_right (by decide)]
    by_cases hnil : config = []
    · subst hnil
      have hnone : createNodeMap nShader ([] : List ℕ).length true [] = none := by
        simp [createNodeMap, memoryNode, presetMemoryMap]
      rw [hnone]
      exact ⟨fun h => absurd h.choose_spec.1 nofun, fun h => absurd rfl h.1⟩
    · have hmap : createNodeMap nShader config.length true config =
          some (shaderNodes nShader 0 config ++ config) := by
        simp [createNodeMap, memoryNode, hnil]
      rw [hmap, and_iff_right hnil, ← nodeBijection_shaderNodes_iff hnodup hlt]
      exact ⟨fun ⟨_, h, hb⟩ => Option.some.inj h ▸ hb, fun h => ⟨_, rfl, h⟩⟩

/-- The built-in lists ascend, so that they give bijections. -/
theorem createNodeMap_preset {nShader nMem : ℕ} (h : presetMemoryMap nShader nMem ≠ []) :
    ∃ nodeMap, createNodeMap nShader nMem true [] = some nodeMap ∧ NodeBijection (nShader + nMem) nodeMap := by
  have hasc : (presetMemoryMap nShader nMem).length = nMem ∧
      (presetMemoryMap nShader nMem).Pairwise (· < ·) ∧
      ∀ m ∈ presetMemoryMap nShader nMem, m < nShader + nMem := by
    unfold presetMemoryMap at h ⊢
    split_ifs at h ⊢ with h₁ h₂ h₃ h₄
    · obtain ⟨rfl, rfl⟩ := Prod.mk.inj h₁
      decide
    · obtain ⟨rfl, rfl⟩ := Prod.mk.inj h₂
      decide
    · obtain ⟨rfl, rfl⟩ := Prod.mk.inj h₃
      decide
    · obtain ⟨rfl, rfl⟩ := Prod.mk.inj h₄
      decide
    · exact absurd rfl h
  obtain ⟨hlength, hpair, hlt⟩ := hasc
  refine ⟨shaderNodes nShader 0 (presetMemoryMap nShader nMem) ++ presetMemoryMap nShader nMem,
    by simp [createNodeMap, memoryNode, h], ?_⟩
  have hord : Ordered (nShader + (presetMemoryMap nShader nMem).length) (presetMemoryMap nShader nMem) :=
    hpair.imp fun h h' => absurd h (not_lt.2 h'.le)
  have hbij := (nodeBijection_shaderNodes_iff (k := nShader) (hpair.imp fun h => h.ne)
    (by rwa [hlength])).2 hord
  rwa [hlength] at hbij

theorem createNodeMap_bijection_iff_two :
    (∃ nodeMap, createNodeMap 4 [3, 5].length true [3, 5] = some nodeMap ∧
        NodeBijection (4 + [3, 5].length) nodeMap) ↔
      true = false ∨ [3, 5] ≠ [] ∧ Ordered (4 + [3, 5].length) [3, 5] :=
  createNodeMap_bijection_iff 4 true [3, 5] (by decide) (by decide)

/-- With the positions 5 and 3, the last shader and a memory are on node 3. -/
theorem not_nodeBijection_descending :
    ¬ ∃ nodeMap, createNodeMap 4 2 true [5, 3] = some nodeMap ∧ NodeBijection 6 nodeMap := by
  rintro ⟨nodeMap, hmap, hbij⟩
  obtain rfl : [0, 1, 2, 3, 5, 3] = nodeMap := Option.some.inj hmap
  exact absurd hbij.injective (by decide)

end CompressionWork.Icnt
