import Mathlib

/-!
# The orders of the warp schedulers

A scheduler puts its warps into an order every cycle and issues from the first that can (`shader.cc`).

* `orderLrr`, `orderByPriority` — the two general routines.
* `sortWarpsByOldestDynamicId`, `age` — the comparison of the warps, and the order that it stands for.
* `lrrOrder`, `gtoOrder`, `swlOrder` — the orders of the schedulers.
* `ordersRight_iff` — the first two are always right; warp limiting has a warp too many when the last issued
  warp is not among the first.
-/

namespace CompressionWork.Sched

variable {α : Type}

/-! ## Round robin -/

/-- The loop of `order_lrr` over `count` and `iter`. -/
def lrrLoop (inputList : List α) : ℕ → ℕ → Option (List α)
  | 0, _ => some []
  | count + 1, iter =>
      let iter := if iter = inputList.length then 0 else iter
      inputList[iter]?.bind fun x => (lrrLoop inputList count (iter + 1)).map (x :: ·)

/-- `order_lrr`; the last issued position may be the end of the list. -/
def orderLrr (inputList : List α) (lastIssued numWarpsToAdd : ℕ) : Option (List α) := do
  guard (numWarpsToAdd ≤ inputList.length)
  lrrLoop inputList numWarpsToAdd (if lastIssued = inputList.length then 0 else lastIssued + 1)

variable {l temp : List α} {iter n last : ℕ}

theorem lrrLoop_drop (h : iter + n ≤ l.length) : lrrLoop l n iter = some ((l.drop iter).take n) := by
  induction n generalizing iter with
  | zero => rfl
  | succ n ih =>
    have hlt : iter < l.length := by omega
    rw [lrrLoop, if_neg hlt.ne, List.getElem?_eq_getElem hlt, Option.bind_some, ih (by omega),
      List.drop_eq_getElem_cons hlt]
    rfl

/-- The loop goes on from the end of the list at its beginning. -/
theorem lrrLoop_wrap {k : ℕ} (h : iter + k = l.length) (hn : n ≤ iter) :
    lrrLoop l (k + n) iter = some (l.drop iter ++ l.take n) := by
  induction k generalizing iter with
  | zero =>
    obtain rfl : iter = l.length := h
    have hstart : lrrLoop l n l.length = lrrLoop l n 0 := by
      cases n with
      | zero => rfl
      | succ n => rw [lrrLoop, lrrLoop, if_pos rfl, if_neg (by omega)]
    rw [Nat.zero_add, hstart, lrrLoop_drop (by omega), List.drop_length, List.drop_zero]
    rfl
  | succ k ih =>
    have hlt : iter < l.length := by omega
    rw [Nat.succ_add, lrrLoop, if_neg hlt.ne, List.getElem?_eq_getElem hlt, Option.bind_some,
      ih (by omega) (by omega), List.drop_eq_getElem_cons hlt]
    rfl

/-- The whole list, from the warp after the last issued one on. -/
theorem orderLrr_length (hlast : last ≤ l.length) :
    ∃ r, orderLrr l last l.length = some r ∧ r.Perm l ∧
      r = if last = l.length then l else l.drop (last + 1) ++ l.take (last + 1) := by
  refine ⟨_, ?_, ?_, rfl⟩
  · rw [orderLrr]
    simp only [Nat.le_refl, guard_true]
    change lrrLoop l l.length (if last = l.length then 0 else last + 1) = _
    split_ifs with hend
    · rw [lrrLoop_drop (by omega), List.drop_zero, List.take_length]
    · have hsplit : l.length = (l.length - (last + 1)) + (last + 1) := by omega
      have hwrap : lrrLoop l ((l.length - (last + 1)) + (last + 1)) (last + 1) =
          some (l.drop (last + 1) ++ l.take (last + 1)) := lrrLoop_wrap (by omega) le_rfl
      rwa [← hsplit] at hwrap
  · split_ifs with hend
    · exact .refl _
    · exact List.perm_append_comm.trans (.of_eq (List.take_append_drop _ _))

/-! ## Priorities -/

/-- `order_by_priority` with `ORDERING_GREEDY_THEN_PRIORITY_FUNC`; `temp` is the sorted copy of the list. -/
def orderByPriority [DecidableEq α] (inputList temp : List α) (lastIssued numWarpsToAdd : ℕ) :
    Option (List α) := do
  guard (numWarpsToAdd ≤ inputList.length)
  let greedyValue ← inputList[lastIssued]?
  pure (greedyValue :: (temp.take numWarpsToAdd).filter (· ≠ greedyValue))

/-- What `std::sort` may leave, with a strict weak order. -/
structure Sorts (comp : α → α → Bool) (inputList temp : List α) : Prop where
  perm : temp.Perm inputList
  sorted : temp.Pairwise fun a b => comp b a = false

theorem orderByPriority_eq [DecidableEq α] (hlast : last < l.length) (hn : n ≤ l.length) :
    orderByPriority l temp last n = some (l[last] :: (temp.take n).filter (· ≠ l[last])) := by
  rw [orderByPriority, List.getElem?_eq_getElem hlast]
  simp only [hn, guard_true]
  rfl

/-- `shd_warp_t`, as far as the comparison reads it. -/
structure Warp where
  dynamicWarpId : ℕ
  doneExit : Bool
  waiting : Bool

/-- `sort_warps_by_oldest_dynamic_id`; a warp is its index, and `none` is `NULL`. -/
def sortWarpsByOldestDynamicId (warp : ℕ → Warp) : Option ℕ → Option ℕ → Bool
  | some lhs, some rhs =>
      if (warp lhs).doneExit || (warp lhs).waiting then false
      else if (warp rhs).doneExit || (warp rhs).waiting then true
      else (warp lhs).dynamicWarpId < (warp rhs).dynamicWarpId
  | none, some _ => true
  | _, none => false

/-- The age: that of a warp that can go on, and above all of them for one that waits or is done. -/
def age (warp : ℕ → Warp) : Option ℕ → WithBot (WithTop ℕ)
  | none => ⊥
  | some i =>
      if (warp i).doneExit || (warp i).waiting then ((⊤ : WithTop ℕ) : WithBot (WithTop ℕ))
      else (((warp i).dynamicWarpId : WithTop ℕ) : WithBot (WithTop ℕ))

/-- The comparison is a strict weak order, that of the ages. -/
theorem sortWarpsByOldestDynamicId_iff {warp : ℕ → Warp} {a b : Option ℕ} :
    sortWarpsByOldestDynamicId warp a b = true ↔ age warp a < age warp b := by
  cases a with
  | none =>
    cases b with
    | none => simp [sortWarpsByOldestDynamicId, age]
    | some b =>
      simp only [sortWarpsByOldestDynamicId, age, true_iff]
      split_ifs <;> exact WithBot.bot_lt_coe _
  | some a =>
    cases b with
    | none => simp [sortWarpsByOldestDynamicId, age]
    | some b =>
      simp only [sortWarpsByOldestDynamicId, age]
      split_ifs with ha hb
      · simp
      · simp
      · exact iff_of_true rfl (WithBot.coe_lt_coe.2 (WithTop.coe_lt_top _))
      · simp [WithBot.coe_lt_coe]

/-! ## The schedulers -/

/-- `lrr_scheduler::order_warps` -/
def lrrOrder (supervised : List (Option ℕ)) (lastIssued : ℕ) : Option (List (Option ℕ)) :=
  orderLrr supervised lastIssued supervised.length

/-- `gto_scheduler::order_warps` -/
def gtoOrder (supervised temp : List (Option ℕ)) (lastIssued : ℕ) : Option (List (Option ℕ)) :=
  orderByPriority supervised temp lastIssued supervised.length

/-- `swl_scheduler::order_warps` -/
def swlOrder (supervised temp : List (Option ℕ)) (lastIssued numWarpsToLimit : ℕ) :
    Option (List (Option ℕ)) :=
  orderByPriority supervised temp lastIssued (min numWarpsToLimit supervised.length)

/-- What the orders are to be, whatever the sort makes of warps of the same age. -/
structure OrdersRight (warp : ℕ → Warp) (supervised : List (Option ℕ)) (lastIssued limit : ℕ) : Prop where
  /-- all warps, from the one after the last issued one on; `last` may be the end of the list -/
  lrr : ∀ last ≤ supervised.length, ∃ r, lrrOrder supervised last = some r ∧ r.Perm supervised ∧
    r = if last = supervised.length then supervised
      else supervised.drop (last + 1) ++ supervised.take (last + 1)
  /-- all warps, the last issued one first and the others by age -/
  gto : ∀ temp, Sorts (sortWarpsByOldestDynamicId warp) supervised temp →
    ∃ r, gtoOrder supervised temp lastIssued = some r ∧ r.Perm supervised ∧
      r.head? = supervised[lastIssued]? ∧ r.tail.Pairwise fun a b => age warp a ≤ age warp b
  /-- no warp twice, and at most as many as the limit -/
  swl : ∀ temp, Sorts (sortWarpsByOldestDynamicId warp) supervised temp →
    ∃ r, swlOrder supervised temp lastIssued limit = some r ∧ r.Nodup ∧ r ⊆ supervised ∧ r.length ≤ limit

/-- The other warps that may come before a warp in the sorted list. -/
def notYounger (warp : ℕ → Warp) (supervised : List (Option ℕ)) (g : Option ℕ) : List (Option ℕ) :=
  supervised.filter fun w => w ≠ g ∧ age warp w ≤ age warp g

variable {warp : ℕ → Warp} {supervised sorted : List (Option ℕ)} {g : Option ℕ} {limit : ℕ}

theorem Sorts.age_le (h : Sorts (sortWarpsByOldestDynamicId warp) supervised sorted) :
    sorted.Pairwise fun a b => age warp a ≤ age warp b := by
  refine h.sorted.imp fun {a b} hab => not_lt.1 fun hlt => ?_
  rw [sortWarpsByOldestDynamicId_iff.2 hlt] at hab
  exact absurd hab nofun

/-- The sorted list without a warp, and the warp in front. -/
theorem cons_filter_perm (hnodup : sorted.Nodup) (hg : g ∈ sorted) :
    (g :: sorted.filter (· ≠ g)).Perm sorted := by
  have herase : sorted.filter (· ≠ g) = sorted.erase g := by
    rw [hnodup.erase_eq_filter]
    exact List.filter_congr fun a _ => by by_cases h : a = g <;> simp [h]
  rw [herase]
  exact (List.perm_cons_erase hg).symm

/-- Warp limiting takes as many warps as it should when the greedy one is among the first. -/
theorem length_greedy (hnodup : sorted.Nodup) (hn : n ≤ sorted.length) :
    (g :: (sorted.take n).filter (· ≠ g)).length = if g ∈ sorted.take n then n else n + 1 := by
  have hlength : (sorted.take n).length = n := by rw [List.length_take, Nat.min_eq_left hn]
  split_ifs with hg
  · exact (cons_filter_perm (hnodup.sublist (List.take_sublist n sorted)) hg).length_eq.trans hlength
  · have hall : (sorted.take n).filter (· ≠ g) = sorted.take n :=
      List.filter_eq_self.2 fun a ha => by simpa using fun h : a = g => hg (h ▸ ha)
    rw [hall, List.length_cons, hlength]

/-- A warp has only warps that are not younger before it. -/
theorem mem_take_of_notYounger (h : Sorts (sortWarpsByOldestDynamicId warp) supervised sorted)
    (hnodup : supervised.Nodup) (hg : g ∈ supervised) (hlt : (notYounger warp supervised g).length < n) :
    g ∈ sorted.take n := by
  obtain ⟨before, after, hsplit⟩ := List.append_of_mem (h.perm.mem_iff.2 hg)
  have hsorted := h.age_le
  have hdistinct := h.perm.nodup_iff.2 hnodup
  rw [hsplit] at hsorted hdistinct
  have hsub : before ⊆ notYounger warp supervised g := fun w hw => by
    refine List.mem_filter.2 ⟨h.perm.mem_iff.1 (hsplit ▸ List.mem_append_left _ hw), ?_⟩
    have hne : w ≠ g := (List.pairwise_append.1 hdistinct).2.2 w hw g List.mem_cons_self
    have hage := (List.pairwise_append.1 hsorted).2.2 w hw g List.mem_cons_self
    exact decide_eq_true ⟨hne, hage⟩
  have hle : before.length ≤ (notYounger warp supervised g).length :=
    (List.subperm_of_subset (List.pairwise_append.1 hdistinct).1 hsub).length_le
  obtain ⟨k, hk⟩ : ∃ k, n - before.length = k + 1 := ⟨n - before.length - 1, by omega⟩
  rw [hsplit, List.take_append, hk, List.take_succ_cons]
  exact List.mem_append_right _ List.mem_cons_self

/-- Any warps can be put in the order of their ages. -/
theorem exists_perm_age_le (warp : ℕ → Warp) (l : List (Option ℕ)) :
    ∃ t : List (Option ℕ), t.Perm l ∧ t.Pairwise fun a b => age warp a ≤ age warp b := by
  refine ⟨l.mergeSort fun a b => decide (age warp a ≤ age warp b), List.mergeSort_perm l _, ?_⟩
  have hsorted : (l.mergeSort fun a b => decide (age warp a ≤ age warp b)).Pairwise fun a b =>
      decide (age warp a ≤ age warp b) = true := List.pairwise_mergeSort
    (fun a b c hab hbc => by
      rw [decide_eq_true_eq] at hab hbc ⊢
      exact hab.trans hbc)
    (fun a b => by simpa using le_total (age warp a) (age warp b)) l
  exact hsorted.imp fun h => of_decide_eq_true h

/-- The sort may put a warp behind all warps that are not younger. -/
theorem exists_sorts (hnodup : supervised.Nodup) (hg : g ∈ supervised) :
    ∃ before after, before.length = (notYounger warp supervised g).length ∧ g ∉ before ∧
      Sorts (sortWarpsByOldestDynamicId warp) supervised (before ++ g :: after) := by
  obtain ⟨before, hbefore, hbefore_sorted⟩ := exists_perm_age_le warp (notYounger warp supervised g)
  obtain ⟨after, hafter, hafter_sorted⟩ :=
    exists_perm_age_le warp (supervised.filter fun w => ¬ age warp w ≤ age warp g)
  have hmem : ∀ w ∈ before, w ≠ g ∧ age warp w ≤ age warp g := fun w hw =>
    of_decide_eq_true (List.mem_filter.1 (hbefore.mem_iff.1 hw)).2
  have hmem' : ∀ w ∈ after, age warp g < age warp w := fun w hw =>
    not_le.1 (of_decide_eq_true (List.mem_filter.1 (hafter.mem_iff.1 hw)).2)
  refine ⟨before, after, hbefore.length_eq, fun hb => (hmem g hb).1 rfl, ?_, ?_⟩
  · -- the warps that are not younger, the greedy one among them, and the younger ones
    have hfirst : (g :: notYounger warp supervised g).Perm
        (supervised.filter fun w => age warp w ≤ age warp g) := by
      have hcons := cons_filter_perm (g := g) (hnodup.filter fun w => decide (age warp w ≤ age warp g))
        (List.mem_filter.2 ⟨hg, decide_eq_true le_rfl⟩)
      rw [List.filter_filter] at hcons
      have hsame : notYounger warp supervised g = supervised.filter fun w =>
          decide (w ≠ g) && decide (age warp w ≤ age warp g) :=
        List.filter_congr fun w _ => by simp
      rw [hsame]
      exact hcons
    have hboth := List.filter_append_perm (fun w => decide (age warp w ≤ age warp g)) supervised
    refine List.perm_middle.trans (((hbefore.append hafter).cons g).trans ?_)
    rw [← List.cons_append]
    refine (hfirst.append (.of_eq (List.filter_congr fun w _ => ?_))).trans hboth
    exact decide_not
  · have hall : (before ++ g :: after).Pairwise fun a b => age warp a ≤ age warp b := by
      refine List.pairwise_append.2 ⟨hbefore_sorted,
        List.pairwise_cons.2 ⟨fun w hw => (hmem' w hw).le, hafter_sorted⟩, fun a ha b hb => ?_⟩
      rcases List.mem_cons.1 hb with rfl | hb
      · exact (hmem a ha).2
      · exact (hmem a ha).2.trans (hmem' b hb).le
    refine hall.imp fun {a b} hab => ?_
    rw [← Bool.not_eq_true, sortWarpsByOldestDynamicId_iff]
    exact not_lt.2 hab

/-- **The orders of the schedulers** are right exactly when fewer other warps than the limit are not younger
than the last issued one. -/
theorem ordersRight_iff (warp : ℕ → Warp) (supervised : List (Option ℕ)) (hnodup : supervised.Nodup)
    (lastIssued : ℕ) (hlast : lastIssued < supervised.length) (limit : ℕ) :
    OrdersRight warp supervised lastIssued limit ↔
      (notYounger warp supervised supervised[lastIssued]).length < limit := by
  have hg : supervised[lastIssued] ∈ supervised := List.getElem_mem hlast
  constructor
  · intro h
    by_contra hlimit
    obtain ⟨before, after, hlength, hnot, hsorts⟩ := @exists_sorts warp _ _ hnodup hg
    obtain ⟨r, hr, -, -, hle⟩ := h.swl _ hsorts
    have hsize := hsorts.perm.length_eq
    rw [List.length_append, List.length_cons] at hsize
    have hmin : min limit supervised.length = limit := by omega
    rw [swlOrder, hmin, orderByPriority_eq hlast (by omega)] at hr
    obtain rfl := Option.some.inj hr
    have htake : supervised[lastIssued] ∉ (before ++ supervised[lastIssued] :: after).take limit := by
      rw [List.take_append_of_le_length (by omega)]
      exact fun hmem => hnot (List.mem_of_mem_take hmem)
    rw [length_greedy (hsorts.perm.nodup_iff.2 hnodup) (by rw [hsorts.perm.length_eq]; omega),
      if_neg htake] at hle
    omega
  · intro hlimit
    refine ⟨fun last => orderLrr_length, fun temp htemp => ?_, fun temp htemp => ?_⟩
    · have hdistinct := htemp.perm.nodup_iff.2 hnodup
      have htake : temp.take supervised.length = temp := by
        rw [← htemp.perm.length_eq, List.take_length]
      refine ⟨_, orderByPriority_eq hlast le_rfl, ?_, ?_, ?_⟩
      · rw [htake]
        exact (cons_filter_perm hdistinct (htemp.perm.mem_iff.2 hg)).trans htemp.perm
      · rw [List.getElem?_eq_getElem hlast]
        rfl
      · rw [htake]
        exact htemp.age_le.filter _
    · have hdistinct := htemp.perm.nodup_iff.2 hnodup
      have hcount : (notYounger warp supervised supervised[lastIssued]).length < supervised.length :=
        List.length_filter_lt_length_iff_exists.2 ⟨_, hg, by simp⟩
      have hmem : supervised[lastIssued] ∈ temp.take (min limit supervised.length) :=
        mem_take_of_notYounger htemp hnodup hg (lt_min hlimit hcount)
      refine ⟨_, orderByPriority_eq hlast (min_le_right _ _), ?_, ?_, ?_⟩
      · refine List.nodup_cons.2 ⟨fun h => ?_, (hdistinct.sublist (List.take_sublist _ _)).filter _⟩
        exact absurd rfl (of_decide_eq_true (List.mem_filter.1 h).2)
      · refine List.cons_subset.2 ⟨hg, fun w hw => ?_⟩
        exact htemp.perm.mem_iff.1 (List.mem_of_mem_take (List.mem_of_mem_filter hw))
      · rw [length_greedy hdistinct (by rw [htemp.perm.length_eq]; exact min_le_right _ _), if_pos hmem]
        exact min_le_left _ _

/-- Warps of the age of their index. -/
def freshWarps : ℕ → Warp := fun i => ⟨i, false, false⟩

theorem ordersRight_iff_freshWarps : OrdersRight freshWarps [some 0, some 1] 0 1 ↔
    (notYounger freshWarps [some 0, some 1] ([some 0, some 1] : List (Option ℕ))[0]).length < 1 :=
  ordersRight_iff freshWarps [some 0, some 1] (by decide) 0 (by decide) 1

/-- With a limit of one warp, the last issued warp and the oldest one are both taken. -/
theorem not_ordersRight_freshWarps : ¬ OrdersRight freshWarps [some 0, some 1] 1 1 := by
  intro h
  obtain ⟨r, hr, -, -, hle⟩ := h.swl [some 0, some 1] ⟨.refl _, by decide⟩
  obtain rfl : [some 1, some 0] = r := Option.some.inj hr
  exact absurd hle (by decide)

end CompressionWork.Sched
