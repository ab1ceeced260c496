import CompressionWork.Dram.Fifo
import Mathlib.Data.UInt
import Mathlib.Data.List.Infix

/-!
# The element counter of a queue

`fifo_pipeline` with `m_n_element`, which counts the cells that `push` makes and those that `pop` takes.

* `Pipeline`, `step`, `run` — the operations, with the counter, and a run of them.
* `run_fifo` — the data come out in the order in which they went in, each once.
* `run_delay` — a datum waits for as many pops as the minimum length says.
* `pipeline_iff` — the counter is right in a run just when no operation makes an empty cell count, or takes
  one.
-/

namespace CompressionWork.Dram

open Transition

/-- `fifo_pipeline` with its counter. -/
structure Pipeline (α : Type*) where
  fifo : Fifo α
  nElement : UInt32

namespace Pipeline

variable {α : Type*}

/-- `push`: a cell that is made is counted, an empty one at the tail that is used is not. -/
def push (q : Pipeline α) (data : Option α) : Pipeline α where
  fifo := q.fifo.push data
  nElement :=
    match q.fifo.cells.getLast? with
    | none => q.nElement + 1
    | some tail => if tail.isSome ∨ q.fifo.cells.length < q.fifo.minLen then q.nElement + 1 else q.nElement

/-- The constructor. -/
def new (minlen maxlen : ℕ) : Pipeline α :=
  (fun q => q.push none)^[minlen] ⟨⟨[], minlen, maxlen⟩, 0⟩

/-- `pop`; a delay cell that it puts in is not counted. -/
def pop (q : Pipeline α) : Option α × Pipeline α :=
  match q.fifo.cells with
  | [] => (none, q)
  | data :: rest =>
      let q : Pipeline α := ⟨{ q.fifo with cells := rest }, q.nElement - 1⟩
      (data, if q.fifo.minLen ≠ 0 ∧ rest.length < q.fifo.minLen then
        { q.push none with nElement := (q.push none).nElement - 1 } else q)

/-- The loop of `set_min_length` that puts in delay cells. -/
def lengthen : ℕ → Pipeline α → Pipeline α
  | 0, q => q
  | fuel + 1, q =>
      if q.fifo.cells.length < q.fifo.minLen then
        lengthen fuel { q.push none with nElement := (q.push none).nElement - 1 }
      else q

/-- The loop of `set_min_length` that takes empty cells off the tail; the last cell is popped. -/
def shorten : ℕ → Pipeline α → Pipeline α
  | 0, q => q
  | fuel + 1, q =>
      if q.fifo.minLen < q.fifo.cells.length ∧ q.fifo.cells.getLast?.any Option.isNone then
        if q.fifo.cells.length = 1 then shorten fuel q.pop.2
        else shorten fuel { q with fifo := { q.fifo with cells := q.fifo.cells.dropLast } }
      else q

/-- `set_min_length`. -/
def setMinLength (q : Pipeline α) (minLen : ℕ) : Pipeline α :=
  if minLen = q.fifo.minLen then q
  else if q.fifo.minLen < minLen then lengthen minLen { q with fifo := { q.fifo with minLen } }
  else shorten q.fifo.cells.length { q with fifo := { q.fifo with minLen } }

/-- What is done to a delay queue. -/
inductive Op (α : Type*)
  | push (data : Option α)
  | pop
  | setMinLength (minLen : ℕ)

/-- One operation, with what comes out. -/
def step (q : Pipeline α) : Op α → List (Option α) × Pipeline α
  | .push data => ([], q.push data)
  | .pop => ([q.pop.1], q.pop.2)
  | .setMinLength minLen => ([], q.setMinLength minLen)

/-- The operations one after the other, with all that comes out. -/
def run (q : Pipeline α) : List (Op α) → List (Option α) × Pipeline α
  | [] => ([], q)
  | op :: ops => ((q.step op).1 ++ ((q.step op).2.run ops).1, ((q.step op).2.run ops).2)

/-! ## The queue without its counter -/

theorem pushCells_of_lt {minLen : ℕ} {cells : List (Option α)} (h : cells.length < minLen) (data : Option α) :
    Fifo.pushCells minLen cells data = cells ++ [data] := by
  unfold Fifo.pushCells
  split
  · rename_i hlast
    rw [List.getLast?_eq_none_iff.1 hlast]
    rfl
  · rw [if_pos (Or.inr h)]

/-- A delay cell that is put in does not change the counter. -/
theorem push_none_of_lt {q : Pipeline α} (h : q.fifo.cells.length < q.fifo.minLen) :
    { q.push none with nElement := (q.push none).nElement - 1 } =
      (⟨{ q.fifo with cells := q.fifo.cells ++ [none] }, q.nElement⟩ : Pipeline α) := by
  have hcells := pushCells_of_lt h none
  have hcount : (q.push none).nElement = q.nElement + 1 := by
    unfold push
    dsimp only
    split
    · rfl
    · rw [if_pos (Or.inr h)]
  rw [hcount, UInt32.add_sub_cancel]
  simp [push, Fifo.push, hcells]

theorem new_eq (minlen maxlen : ℕ) :
    (new minlen maxlen : Pipeline α) = ⟨.new minlen maxlen, UInt32.ofNat minlen⟩ := by
  have hiter : ∀ n ≤ minlen, (fun q : Pipeline α => q.push none)^[n] ⟨⟨[], minlen, maxlen⟩, 0⟩ =
      ⟨⟨List.replicate n none, minlen, maxlen⟩, UInt32.ofNat n⟩ := by
    intro n hn
    induction n with
    | zero => rfl
    | succ n ih =>
      rw [Function.iterate_succ_apply', ih (Nat.le_of_succ_le hn)]
      have hlt : (List.replicate n (none : Option α)).length < minlen := by
        rw [List.length_replicate]
        exact hn
      have hcells := pushCells_of_lt hlt none
      unfold push Fifo.push
      dsimp only
      rw [hcells, ← List.replicate_succ']
      congr 1
      split
      · rw [UInt32.ofNat_add]
        rfl
      · rw [if_pos (Or.inr hlt), UInt32.ofNat_add]
        rfl
  exact hiter minlen (Nat.le_refl _)

/-- A pop takes a cell, and the counter goes down. -/
theorem pop_eq (q : Pipeline α) : q.pop = (q.fifo.pop.1,
    ⟨q.fifo.pop.2, if q.fifo.cells = [] then q.nElement else q.nElement - 1⟩) := by
  obtain ⟨⟨cells, minLen, maxLen⟩, nElement⟩ := q
  cases cells with
  | nil => rfl
  | cons data rest =>
    unfold pop Fifo.pop
    dsimp only
    rw [if_neg (List.cons_ne_nil _ _)]
    split_ifs with h
    · rw [push_none_of_lt (q := ⟨⟨rest, minLen, maxLen⟩, nElement - 1⟩) h.2, pushCells_of_lt h.2]
    · rfl

theorem lengthen_eq (fuel : ℕ) (q : Pipeline α) (hfuel : q.fifo.minLen ≤ q.fifo.cells.length + fuel) :
    q.lengthen fuel = ⟨{ q.fifo with
      cells := q.fifo.cells ++ List.replicate (q.fifo.minLen - q.fifo.cells.length) none }, q.nElement⟩ := by
  induction fuel generalizing q with
  | zero =>
    have hzero : q.fifo.minLen - q.fifo.cells.length = 0 := by omega
    rw [lengthen, hzero, List.replicate_zero, List.append_nil]
  | succ fuel ih =>
    rw [lengthen]
    split_ifs with h
    · have hsucc : q.fifo.minLen - q.fifo.cells.length = q.fifo.minLen - (q.fifo.cells.length + 1) + 1 := by omega
      rw [push_none_of_lt h, ih _ (by simp; omega)]
      dsimp only
      rw [List.length_append, List.length_singleton, List.append_assoc, hsucc, List.replicate_succ]
      rfl
    · have hzero : q.fifo.minLen - q.fifo.cells.length = 0 := by omega
      rw [hzero, List.replicate_zero, List.append_nil]

/-- The loop takes off empty cells, and the counter goes down with the last one. -/
theorem shorten_eq (fuel : ℕ) (q : Pipeline α) (hfuel : q.fifo.cells.length ≤ fuel) :
    q.shorten fuel = ⟨{ q.fifo with cells := (Fifo.trim q.fifo.minLen q.fifo.cells.reverse).reverse },
      if q.fifo.minLen = 0 ∧ q.fifo.cells ≠ [] ∧ q.fifo.items = [] then q.nElement - 1 else q.nElement⟩ := by
  have hempty : ∀ (fuel minLen maxLen : ℕ) (nElement : UInt32),
      (⟨⟨[], minLen, maxLen⟩, nElement⟩ : Pipeline α).shorten fuel = ⟨⟨[], minLen, maxLen⟩, nElement⟩ := by
    intro fuel minLen maxLen nElement
    cases fuel <;> simp [shorten]
  induction fuel generalizing q with
  | zero =>
    obtain ⟨⟨cells, minLen, maxLen⟩, nElement⟩ := q
    obtain rfl := List.length_eq_zero_iff.1 (Nat.le_zero.1 hfuel)
    rw [hempty]
    simp [Fifo.trim]
  | succ fuel ih =>
    obtain ⟨⟨cells, minLen, maxLen⟩, nElement⟩ := q
    rcases List.eq_nil_or_concat cells with rfl | ⟨init, last, rfl⟩
    · rw [hempty]
      simp [Fifo.trim]
    · rw [List.concat_eq_append] at *
      rw [shorten]
      dsimp only at hfuel ⊢
      rw [List.length_append, List.length_singleton] at hfuel ⊢
      rw [List.getLast?_concat, List.dropLast_concat, List.reverse_append]
      cases last with
      | some a =>
        -- the tail holds a datum
        have hheld : held (init ++ [some a]) ≠ [] := by
          rw [Fifo.held_append, held_cons]
          simp
        simp [Fifo.trim, Fifo.items, hheld]
      | none =>
        have hheld : held (init ++ [none]) = held init := by
          rw [Fifo.held_append, held_cons]
          simp
        by_cases hlong : minLen < init.length + 1
        · have htrim : Fifo.trim minLen ([none].reverse ++ init.reverse) = Fifo.trim minLen init.reverse := by
            rw [List.reverse_singleton, List.singleton_append, Fifo.trim, List.length_reverse, if_pos hlong]
          rw [if_pos ⟨hlong, rfl⟩, htrim]
          by_cases hone : init = []
          · subst hone
            have hzero : minLen = 0 := by simpa using hlong
            subst hzero
            have hpop : (⟨⟨[] ++ [none], 0, maxLen⟩, nElement⟩ : Pipeline α).pop.2 = ⟨⟨[], 0, maxLen⟩, nElement - 1⟩ := by
              rw [pop_eq]
              simp [Fifo.pop]
            rw [if_pos (show ([] : List (Option α)).length + 1 = 1 from rfl), hpop, hempty]
            simp [Fifo.trim, Fifo.items, held_cons]
          · have hlen : init.length + 1 ≠ 1 := by
              have := List.length_pos_iff.2 hone
              omega
            rw [if_neg hlen, ih _ (by dsimp only; omega)]
            simp [Fifo.items, hheld, hone]
        · have hpos : minLen ≠ 0 := by omega
          have htrim : Fifo.trim minLen ([none].reverse ++ init.reverse) = none :: init.reverse := by
            rw [List.reverse_singleton, List.singleton_append, Fifo.trim, List.length_reverse, if_neg hlong]
          rw [if_neg (fun h => hlong h.1), htrim, if_neg (fun h => hpos h.1), List.reverse_cons, List.reverse_reverse]

theorem setMinLength_eq (q : Pipeline α) (minLen : ℕ) : q.setMinLength minLen = ⟨q.fifo.setMinLength minLen,
    if minLen = 0 ∧ q.fifo.minLen ≠ 0 ∧ q.fifo.cells ≠ [] ∧ q.fifo.items = [] then q.nElement - 1
    else q.nElement⟩ := by
  unfold setMinLength Fifo.setMinLength
  by_cases hsame : minLen = q.fifo.minLen
  · rw [if_pos hsame, if_pos hsame, if_neg (fun h => h.2.1 (hsame ▸ h.1))]
  rw [if_neg hsame, if_neg hsame]
  by_cases hmore : q.fifo.minLen < minLen
  · have hlong := lengthen_eq minLen (⟨{ q.fifo with minLen }, q.nElement⟩ : Pipeline α) (Nat.le_add_left _ _)
    rw [if_pos hmore, if_pos hmore, hlong, if_neg (fun h => by omega)]
  · have hshort := shorten_eq _ (⟨{ q.fifo with minLen }, q.nElement⟩ : Pipeline α) (Nat.le_refl _)
    have hless : q.fifo.minLen ≠ 0 := by omega
    have hiff : (minLen = 0 ∧ q.fifo.cells ≠ [] ∧ held q.fifo.cells = []) ↔
        (minLen = 0 ∧ q.fifo.minLen ≠ 0 ∧ q.fifo.cells ≠ [] ∧ held q.fifo.cells = []) := by
      rw [and_iff_right hless]
    rw [if_neg hmore, if_neg hmore, hshort]
    dsimp only [Fifo.items]
    congr 1
    exact if_congr hiff rfl rfl

/-! ## Order -/

/-- The data that the operations push. -/
def pushed : List (Op α) → List α
  | [] => []
  | .push data :: ops => data.toList ++ pushed ops
  | _ :: ops => pushed ops

theorem step_fifo (q : Pipeline α) (op : Op α) :
    held (q.step op).1 ++ (q.step op).2.fifo.items = q.fifo.items ++ pushed [op] := by
  cases op with
  | push data =>
    show (q.fifo.push data).items = _
    rw [Fifo.items_push]
    simp [pushed]
  | pop =>
    show held [q.pop.1] ++ q.pop.2.fifo.items = _
    rw [pop_eq, held_cons, held_nil, List.append_nil, ← Fifo.items_pop]
    simp [pushed]
  | setMinLength minLen =>
    show (q.setMinLength minLen).fifo.items = _
    rw [setMinLength_eq, Fifo.items_setMinLength]
    simp [pushed]

theorem pushed_cons (op : Op α) (ops : List (Op α)) : pushed (op :: ops) = pushed [op] ++ pushed ops := by
  cases op <;> simp [pushed]

/-- What comes out and what stays is what went in, in this order. -/
theorem run_fifo (q : Pipeline α) (ops : List (Op α)) :
    held (q.run ops).1 ++ (q.run ops).2.fifo.items = q.fifo.items ++ pushed ops := by
  induction ops generalizing q with
  | nil => simp [run, pushed]
  | cons op ops ih =>
    rw [run, Fifo.held_append, List.append_assoc, ih, ← List.append_assoc, step_fifo, pushed_cons op ops,
      List.append_assoc]

theorem run_append (q : Pipeline α) (ops ops' : List (Op α)) :
    (q.run (ops ++ ops')).2 = ((q.run ops).2.run ops').2 := by
  induction ops generalizing q with
  | nil => rfl
  | cons op ops ih => exact ih _

/-! ## Delay -/

theorem length_pushCells (minLen : ℕ) (cells : List (Option α)) (data : Option α) :
    cells.length ≤ (Fifo.pushCells minLen cells data).length ∧ 0 < (Fifo.pushCells minLen cells data).length := by
  rcases List.eq_nil_or_concat cells with rfl | ⟨init, last, rfl⟩
  · exact ⟨Nat.zero_le _, Nat.one_pos⟩
  · rw [List.concat_eq_append, Fifo.pushCells, List.getLast?_concat]
    dsimp only
    split_ifs <;> simp

theorem le_length_trim (minLen : ℕ) (cells : List (Option α)) (h : minLen ≤ cells.length) :
    minLen ≤ (Fifo.trim minLen cells).length := by
  induction cells with
  | nil => exact h
  | cons data rest ih =>
    cases data with
    | some a => exact h
    | none =>
      rw [Fifo.trim]
      split_ifs with hlong
      · exact ih (Nat.le_of_lt_succ hlong)
      · exact h

/-- A line is never shorter than its minimum length. -/
theorem minLen_le_step {q : Pipeline α} (h : q.fifo.minLen ≤ q.fifo.cells.length) (op : Op α) :
    (q.step op).2.fifo.minLen ≤ (q.step op).2.fifo.cells.length := by
  cases op with
  | push data =>
    show q.fifo.minLen ≤ (Fifo.pushCells q.fifo.minLen q.fifo.cells data).length
    exact Nat.le_trans h (length_pushCells _ _ _).1
  | pop =>
    show q.pop.2.fifo.minLen ≤ q.pop.2.fifo.cells.length
    rw [pop_eq]
    obtain ⟨⟨cells, minLen, maxLen⟩, nElement⟩ := q
    cases cells with
    | nil => exact h
    | cons data rest =>
      have hle : minLen ≤ rest.length + 1 := h
      unfold Fifo.pop
      dsimp only
      split_ifs with hshort
      · rw [pushCells_of_lt hshort.2, List.length_append]
        exact hle
      · omega
  | setMinLength minLen =>
    show (q.setMinLength minLen).fifo.minLen ≤ (q.setMinLength minLen).fifo.cells.length
    rw [setMinLength_eq]
    unfold Fifo.setMinLength
    dsimp only
    split_ifs with hsame hmore
    · exact h
    · dsimp only
      rw [List.length_append, List.length_replicate]
      omega
    · dsimp only
      rw [List.length_reverse]
      exact le_length_trim _ _ (by rw [List.length_reverse]; omega)

theorem minLen_le_run {q : Pipeline α} (h : q.fifo.minLen ≤ q.fifo.cells.length) (ops : List (Op α)) :
    (q.run ops).2.fifo.minLen ≤ (q.run ops).2.fifo.cells.length := by
  induction ops generalizing q with
  | nil => exact h
  | cons op ops ih => exact ih (minLen_le_step h op)

/-- The cells up to the one of a datum keep their places. -/
theorem prefix_pushCells {minLen : ℕ} {out line cells : List (Option α)} {x : α} (data : Option α)
    (h : cells ++ [some x] <+: out ++ line) : cells ++ [some x] <+: out ++ Fifo.pushCells minLen line data := by
  rcases List.eq_nil_or_concat line with rfl | ⟨init, last, rfl⟩
  · rw [List.append_nil] at h
    exact h.trans (List.prefix_append _ _)
  · rw [List.concat_eq_append] at h ⊢
    rw [Fifo.pushCells, List.getLast?_concat]
    dsimp only
    split_ifs with htail
    · rw [← List.append_assoc]
      exact h.trans (List.prefix_append _ _)
    · -- the cell that is used is empty, so it is not the one of the datum
      rw [List.dropLast_concat]
      rw [← List.append_assoc, List.prefix_concat_iff] at h
      rcases h with heq | h
      · obtain ⟨-, hlast⟩ := List.append_inj' heq rfl
        obtain rfl := (List.cons.inj hlast).1
        exact absurd (Or.inl rfl) htail
      · rw [← List.append_assoc]
        exact h.trans (List.prefix_append _ _)

/-- They come out, or stay at the head. -/
theorem step_prefix {q : Pipeline α} {out cells : List (Option α)} {x : α} {op : Op α}
    (hop : ∀ n, op = .setMinLength n → n = q.fifo.minLen) (h : cells ++ [some x] <+: out ++ q.fifo.cells) :
    (q.step op).2.fifo.minLen = q.fifo.minLen ∧
      cells ++ [some x] <+: out ++ (q.step op).1 ++ (q.step op).2.fifo.cells := by
  cases op with
  | push data =>
    refine ⟨rfl, ?_⟩
    show _ <+: out ++ [] ++ Fifo.pushCells q.fifo.minLen q.fifo.cells data
    rw [List.append_nil]
    exact prefix_pushCells data h
  | pop =>
    show q.pop.2.fifo.minLen = _ ∧ _ <+: out ++ [q.pop.1] ++ q.pop.2.fifo.cells
    rw [pop_eq]
    obtain ⟨⟨line, minLen, maxLen⟩, nElement⟩ := q
    cases line with
    | nil =>
      refine ⟨rfl, ?_⟩
      rw [List.append_nil] at h
      exact h.trans (by simp [Fifo.pop])
    | cons data rest =>
      have hrest : cells ++ [some x] <+: out ++ [data] ++ rest := by simpa using h
      unfold Fifo.pop
      dsimp only
      split_ifs
      · exact ⟨rfl, prefix_pushCells none hrest⟩
      · exact ⟨rfl, hrest⟩
  | setMinLength minLen =>
    have hsame : (q.setMinLength minLen) = q := by
      unfold setMinLength
      rw [if_pos (hop minLen rfl)]
    show (q.setMinLength minLen).fifo.minLen = _ ∧ _ <+: out ++ [] ++ (q.setMinLength minLen).fifo.cells
    rw [hsame, List.append_nil]
    exact ⟨rfl, h⟩

theorem run_prefix {q : Pipeline α} {out cells : List (Option α)} {x : α} {ops : List (Op α)}
    (hops : ∀ op ∈ ops, ∀ n, op = .setMinLength n → n = q.fifo.minLen)
    (h : cells ++ [some x] <+: out ++ q.fifo.cells) :
    cells ++ [some x] <+: out ++ (q.run ops).1 ++ (q.run ops).2.fifo.cells := by
  induction ops generalizing q out with
  | nil => simpa [run] using h
  | cons op ops ih =>
    obtain ⟨hmin, hprefix⟩ := step_prefix (hops op List.mem_cons_self) h
    have hrest := ih (fun op hop n hn => hmin ▸ hops op (List.mem_cons_of_mem _ hop) n hn) hprefix
    simpa [run] using hrest

/-- The cells that are ahead of a datum that is pushed. -/
theorem pushCells_some (minLen : ℕ) (line : List (Option α)) (x : α) (h : minLen ≤ line.length) :
    ∃ cells, Fifo.pushCells minLen line (some x) = cells ++ [some x] ∧ held cells = held line ∧
      minLen ≤ cells.length + 1 := by
  rcases List.eq_nil_or_concat line with rfl | ⟨init, last, rfl⟩
  · exact ⟨[], rfl, rfl, Nat.le_succ_of_le h⟩
  · rw [List.concat_eq_append] at h ⊢
    rw [List.length_append, List.length_singleton] at h
    rw [Fifo.pushCells, List.getLast?_concat]
    dsimp only
    split_ifs with htail
    · exact ⟨init ++ [last], rfl, rfl, by rw [List.length_append, List.length_singleton]; omega⟩
    · have hlast : last = none := by
        cases last with
        | none => rfl
        | some a => exact absurd (Or.inl rfl) htail
      subst hlast
      refine ⟨init, by rw [List.dropLast_concat], ?_, h⟩
      rw [Fifo.held_append, held_cons]
      simp

/-- **The minimum delay**: the datum that is pushed, which comes out after those that are ahead of it, is not
among the first pops. -/
theorem run_delay {q : Pipeline α} (hlen : q.fifo.minLen ≤ q.fifo.cells.length) {x y : α} {ops : List (Op α)}
    (hops : ∀ op ∈ ops, ∀ n, op = .setMinLength n → n = q.fifo.minLen) {j : ℕ}
    (hout : ((q.push (some x)).run ops).1[j]? = some (some y))
    (hahead : (held (((q.push (some x)).run ops).1.take j)).length = q.fifo.items.length) :
    y = x ∧ q.fifo.minLen ≤ j + 1 := by
  obtain ⟨cells, hcells, hheld, hplace⟩ := pushCells_some q.fifo.minLen q.fifo.cells x hlen
  have hstart : cells ++ [some x] <+: [] ++ (q.push (some x)).fifo.cells := by
    rw [List.nil_append, ← hcells]
    exact List.prefix_rfl
  have hprefix := run_prefix (q := q.push (some x)) hops hstart
  generalize (q.push (some x)).run ops = res at hout hahead hprefix
  obtain ⟨outs, q'⟩ := res
  dsimp only at hout hahead hprefix
  rw [List.nil_append] at hprefix
  have hj : j < outs.length := (List.getElem?_eq_some_iff.1 hout).1
  have htake : outs.take (j + 1) = outs.take j ++ [some y] := by
    rw [List.take_add_one, hout]
    rfl
  have hcount : (held (outs.take (j + 1))).length = (held cells).length + 1 := by
    rw [htake, Fifo.held_append, List.length_append, hahead, hheld]
    rfl
  rcases Nat.lt_trichotomy j cells.length with hlt | heq | hgt
  · -- only cells from ahead of the datum have come out
    have hsub : outs.take (j + 1) <+: cells := by
      refine List.prefix_of_prefix_length_le
        ((List.take_prefix _ _).trans (List.prefix_append outs q'.fifo.cells))
        ((List.prefix_append cells [some x]).trans hprefix) ?_
      rw [List.length_take]
      omega
    obtain ⟨rest, hrest⟩ := hsub
    rw [← hrest, Fifo.held_append, List.length_append] at hcount
    omega
  · obtain ⟨rest, hrest⟩ := hprefix
    have hcell : (outs ++ q'.fifo.cells)[j]? = some (some x) := by
      rw [← hrest, List.append_assoc, heq, List.getElem?_append_right (Nat.le_refl _), Nat.sub_self]
      rfl
    rw [List.getElem?_append_left hj, hout] at hcell
    exact ⟨Option.some.inj (Option.some.inj hcell), by omega⟩
  · -- the datum has come out before
    have hsub : cells ++ [some x] <+: outs.take j := by
      refine List.prefix_of_prefix_length_le hprefix
        ((List.take_prefix _ _).trans (List.prefix_append outs q'.fifo.cells)) ?_
      rw [List.length_take, List.length_append, List.length_singleton]
      omega
    obtain ⟨rest, hrest⟩ := hsub
    have hsome : held [some x] = [x] := rfl
    rw [← hrest, Fifo.held_append, Fifo.held_append, List.length_append, List.length_append, hsome, hheld,
      List.length_singleton] at hahead
    rw [Fifo.items] at hahead
    omega

/-! ## The counter -/

/-- The counter is the number of the data in the queue. -/
def Counts (q : Pipeline α) : Prop := q.nElement = UInt32.ofNat q.fifo.items.length

/-- A `push` uses the empty cell at the tail. -/
def UsesTail (q : Pipeline α) : Prop :=
  q.fifo.cells.getLast? = some none ∧ q.fifo.minLen ≤ q.fifo.cells.length

/-- The operation does not count, or take, an empty cell. -/
def Counted (q : Pipeline α) : Op α → Prop
  | .push (some _) => ¬ q.UsesTail
  | .push none => q.UsesTail
  | .pop => q.fifo.cells.head? ≠ some none
  | .setMinLength minLen =>
      ¬ (minLen = 0 ∧ q.fifo.minLen ≠ 0 ∧ q.fifo.cells ≠ [] ∧ q.fifo.items = [])

theorem uint32_add_one_ne (a : UInt32) : a + 1 ≠ a := by
  intro h
  have hnat := congrArg UInt32.toNat h
  rw [UInt32.toNat_add] at hnat
  have := a.toNat_lt
  simp at hnat
  omega

theorem uint32_sub_one_ne (a : UInt32) : a - 1 ≠ a := by
  intro h
  have hadd := congrArg (· + 1) h
  simp only [UInt32.sub_add_cancel] at hadd
  exact uint32_add_one_ne a hadd.symm

/-- A `push` counts the cell that it makes. -/
theorem nElement_push (q : Pipeline α) (data : Option α) :
    (q.UsesTail → (q.push data).nElement = q.nElement) ∧
      (¬ q.UsesTail → (q.push data).nElement = q.nElement + 1) := by
  unfold UsesTail push
  dsimp only
  cases hlast : q.fifo.cells.getLast? with
  | none => simp
  | some tail =>
    cases tail with
    | none =>
      refine ⟨fun h => if_neg ?_, fun h => if_pos ?_⟩
      · rintro (hsome | hlt)
        · exact absurd hsome Bool.false_ne_true
        · exact absurd h.2 (Nat.not_le.2 hlt)
      · by_contra hnot
        exact h ⟨rfl, Nat.le_of_not_lt fun hlt => hnot (Or.inr hlt)⟩
    | some a => simp

/-- A push of nothing is counted, unless it uses the tail. -/
theorem counts_push_none {q : Pipeline α} (h : q.Counts) : (q.push none).Counts ↔ q.UsesTail := by
  unfold Counts at *
  obtain ⟨huses, hmakes⟩ := nElement_push q none
  show (q.push none).nElement = UInt32.ofNat (q.fifo.push none).items.length ↔ _
  rw [Fifo.items_push, Option.toList_none, List.append_nil]
  by_cases htail : q.UsesTail
  · exact iff_of_true ((huses htail).trans h) htail
  · refine iff_of_false ?_ htail
    rw [hmakes htail, h]
    exact uint32_add_one_ne _

/-- A datum that uses the tail is not counted. -/
theorem counts_push_some {q : Pipeline α} (h : q.Counts) (x : α) :
    (q.push (some x)).Counts ↔ ¬ q.UsesTail := by
  unfold Counts at *
  obtain ⟨huses, hmakes⟩ := nElement_push q (some x)
  have hone : UInt32.ofNat (q.fifo.items.length + (some x).toList.length) =
      UInt32.ofNat q.fifo.items.length + 1 := UInt32.ofNat_add _ _
  show (q.push (some x)).nElement = UInt32.ofNat (q.fifo.push (some x)).items.length ↔ _
  rw [Fifo.items_push, List.length_append, hone, ← h]
  by_cases htail : q.UsesTail
  · refine iff_of_false ?_ (not_not.2 htail)
    rw [huses htail]
    exact (uint32_add_one_ne _).symm
  · exact iff_of_true (hmakes htail) htail

/-- An empty cell that is taken is counted down. -/
theorem counts_pop {q : Pipeline α} (h : q.Counts) :
    q.pop.2.Counts ↔ q.fifo.cells.head? ≠ some none := by
  unfold Counts at *
  rw [pop_eq]
  have hitems := Fifo.items_pop q.fifo
  rw [Fifo.pop_fst, Fifo.top] at hitems
  cases hline : q.fifo.cells with
  | nil =>
    rw [hline] at hitems
    refine iff_of_true ?_ (by simp)
    dsimp only
    rw [if_pos rfl, h, hitems]
    rfl
  | cons data rest =>
    rw [hline] at hitems
    dsimp only
    rw [if_neg (List.cons_ne_nil _ _)]
    cases data with
    | none =>
      refine iff_of_false ?_ (by simp)
      have hsame : q.fifo.items = q.fifo.pop.2.items := hitems
      rw [← hsame, h]
      exact uint32_sub_one_ne _
    | some x =>
      refine iff_of_true ?_ (by simp)
      have hcons : q.fifo.items = x :: q.fifo.pop.2.items := hitems
      rw [h, hcons, List.length_cons, UInt32.ofNat_add]
      exact UInt32.add_sub_cancel _ _

/-- **One operation** keeps the counter right just when it is one of those. -/
theorem counts_step {q : Pipeline α} (h : q.Counts) (op : Op α) : (q.step op).2.Counts ↔ q.Counted op := by
  cases op with
  | push data =>
    cases data with
    | none => exact counts_push_none h
    | some x => exact counts_push_some h x
  | pop => exact counts_pop h
  | setMinLength minLen =>
    unfold Counts at *
    show (q.setMinLength minLen).nElement = UInt32.ofNat (q.setMinLength minLen).fifo.items.length ↔ ¬ _
    rw [setMinLength_eq]
    dsimp only
    rw [Fifo.items_setMinLength, ← h]
    split_ifs with hlast
    · exact iff_of_false (uint32_sub_one_ne _) (not_not.2 hlast)
    · exact iff_of_true rfl hlast

/-- **Every run**: the counter is right in all the states that are passed. -/
theorem counts_run_iff {q : Pipeline α} {ops : List (Op α)} :
    (∀ before after, ops = before ++ after → (q.run before).2.Counts) ↔
      q.Counts ∧ ∀ before op after, ops = before ++ op :: after → (q.run before).2.Counted op := by
  constructor
  · intro h
    refine ⟨h [] ops rfl, fun before op after hops => ?_⟩
    have hbefore := h before (op :: after) hops
    have hafter := h (before ++ [op]) after (by rw [hops, List.append_assoc]; rfl)
    rw [run_append] at hafter
    exact (counts_step hbefore op).1 hafter
  · rintro ⟨hstart, hcounted⟩ before
    induction before using List.reverseRecOn with
    | nil => exact fun _ _ => hstart
    | append_singleton before op ih =>
      intro after hops
      rw [List.append_assoc] at hops
      rw [run_append]
      exact (counts_step (ih _ hops) op).2 (hcounted before op after hops)

theorem counts_new_iff (minlen maxlen : UInt32) :
    (new minlen.toNat maxlen.toNat : Pipeline α).Counts ↔ minlen = 0 := by
  rw [new_eq, Counts, Fifo.items_new, UInt32.ofNat_toNat]
  rfl

/-- A delay queue: the data come out in order, each once; each waits for the minimum length; and the
counter is the number of data. -/
structure Proper (q : Pipeline α) (ops : List (Op α)) : Prop where
  order : held (q.run ops).1 ++ (q.run ops).2.fifo.items = pushed ops
  delay : ∀ before x after, ops = before ++ .push (some x) :: after →
    (∀ op ∈ after, ∀ n, op = .setMinLength n → n = (q.run before).2.fifo.minLen) →
    ∀ j y, (((q.run before).2.push (some x)).run after).1[j]? = some (some y) →
      (held ((((q.run before).2.push (some x)).run after).1.take j)).length =
        (q.run before).2.fifo.items.length →
      y = x ∧ (q.run before).2.fifo.minLen ≤ j + 1
  count : ∀ before after, ops = before ++ after → (q.run before).2.Counts

/-- **The delay queue** is proper in a run just when the queue starts without delay cells, every datum gets a
cell of its own, and no empty cell is popped. -/
theorem pipeline_iff (minlen maxlen : UInt32) (ops : List (Op α)) :
    (new minlen.toNat maxlen.toNat : Pipeline α).Proper ops ↔ minlen = 0 ∧ ∀ before op after,
      ops = before ++ op :: after → ((new minlen.toNat maxlen.toNat : Pipeline α).run before).2.Counted op := by
  rw [← counts_new_iff (α := α) minlen maxlen, ← counts_run_iff]
  refine ⟨fun h => h.count, fun h => ⟨?_, fun before x after _ hops j y => ?_, h⟩⟩
  · rw [run_fifo, new_eq, Fifo.items_new, List.nil_append]
  · have hstart : (new minlen.toNat maxlen.toNat : Pipeline α).fifo.minLen ≤
        (new minlen.toNat maxlen.toNat : Pipeline α).fifo.cells.length := by
      rw [new_eq]
      simp [Fifo.new]
    exact run_delay (minLen_le_run hstart before) hops

/-- A new queue of two delay cells says that it has two elements. -/
theorem not_proper_two : ¬ (new (2 : UInt32).toNat (3 : UInt32).toNat : Pipeline ℕ).Proper [] := by
  intro h
  exact absurd (h.count [] [] rfl) (by unfold Counts; decide)

end Pipeline

end CompressionWork.Dram
