import CompressionWork.Transition.DelayLine

/-!
# The queues of the memory system

The model of `fifo_pipeline`: a line of cells, of which the empty ones stand for a delay.

* `push`, `pop`, `setMinLength` — the operations.
* `held_push`, `held_pop`, `held_setMinLength` — what they do to the items on the line.
-/

namespace CompressionWork.Dram

open Transition

variable {α : Type*}

/-- `fifo_pipeline`; `m_length` is the number of cells. -/
structure Fifo (α : Type*) where
  cells : List (Option α)
  minLen : ℕ
  maxLen : ℕ

namespace Fifo

/-- The end of the line after a `push`: an empty cell at the tail is used unless it is needed as a delay. -/
def pushCells (minLen : ℕ) (cells : List (Option α)) (data : Option α) : List (Option α) :=
  match cells.getLast? with
  | none => [data]
  | some tail =>
      if tail.isSome ∨ cells.length < minLen then cells ++ [data] else cells.dropLast ++ [data]

/-- `push`; below the minimal length cells without data follow. -/
def push (q : Fifo α) (data : Option α) : Fifo α :=
  { q with cells := pushCells q.minLen q.cells data }

/-- The constructor: a line of `minlen` empty cells. -/
def new (minlen maxlen : ℕ) : Fifo α := ⟨List.replicate minlen none, minlen, maxlen⟩

/-- `pop`; what is taken out is replaced by a cell without data below the minimal length. -/
def pop (q : Fifo α) : Option α × Fifo α :=
  match q.cells with
  | [] => (none, q)
  | data :: rest =>
      (data, { q with cells :=
        if q.minLen ≠ 0 ∧ rest.length < q.minLen then pushCells q.minLen rest none else rest })

/-- `top`. -/
def top (q : Fifo α) : Option α := q.cells.head?.join

/-- `full`. -/
def full (q : Fifo α) : Bool := q.maxLen != 0 && q.maxLen ≤ q.cells.length

/-- `empty`. -/
def isEmpty (q : Fifo α) : Bool := q.cells.isEmpty

/-- Drop the empty cells at the tail of a reversed line, down to `minLen` cells. -/
def trim (minLen : ℕ) : List (Option α) → List (Option α)
  | none :: rest => if minLen < rest.length + 1 then trim minLen rest else none :: rest
  | cells => cells

/-- `set_min_length`. -/
def setMinLength (q : Fifo α) (minLen : ℕ) : Fifo α :=
  if minLen = q.minLen then q
  else if q.minLen < minLen then
    { q with minLen, cells := q.cells ++ List.replicate (minLen - q.cells.length) none }
  else { q with minLen, cells := (trim minLen q.cells.reverse).reverse }

/-! ## The items -/

/-- The items on the line, oldest first. -/
def items (q : Fifo α) : List α := held q.cells

theorem held_append (l l' : List (Option α)) : held (l ++ l') = held l ++ held l' :=
  List.reduceOption_append _ _

theorem held_replicate_none (n : ℕ) : held (List.replicate n (none : Option α)) = [] := by
  induction n with
  | zero => rfl
  | succ n ih => rw [List.replicate_succ, held_cons, ih]; rfl

@[simp] theorem items_new (minlen maxlen : ℕ) : (new minlen maxlen : Fifo α).items = [] :=
  held_replicate_none minlen

theorem held_pushCells (minLen : ℕ) (cells : List (Option α)) (data : Option α) :
    held (pushCells minLen cells data) = held cells ++ data.toList := by
  have hone : held [data] = data.toList := by
    rw [held_cons]
    exact List.append_nil _
  rcases List.eq_nil_or_concat cells with rfl | ⟨init, last, rfl⟩
  · rw [pushCells, List.getLast?_nil]
    exact hone
  · rw [List.concat_eq_append, pushCells, List.getLast?_concat]
    dsimp only
    split_ifs with h
    · rw [held_append, hone]
    · -- the tail that is overwritten is empty
      have hlast : last = none := by
        rw [Option.eq_none_iff_forall_ne_some]
        rintro a rfl
        exact h (Or.inl rfl)
      subst hlast
      rw [List.dropLast_concat, held_append, held_append, hone]
      simp [held_cons]

theorem items_push (q : Fifo α) (data : Option α) : (q.push data).items = q.items ++ data.toList :=
  held_pushCells _ _ _

/-- What is on the line is what comes out and what stays. -/
theorem items_pop (q : Fifo α) : q.items = q.pop.1.toList ++ q.pop.2.items := by
  obtain ⟨cells, minLen, maxLen⟩ := q
  cases cells with
  | nil => rfl
  | cons data rest =>
    simp only [pop, items, held_cons]
    split_ifs
    · rw [held_pushCells]
      simp
    · rfl

theorem pop_fst (q : Fifo α) : q.pop.1 = q.top := by
  obtain ⟨cells, minLen, maxLen⟩ := q
  cases cells <;> rfl

theorem items_of_top {q : Fifo α} {a : α} (h : q.top = some a) : q.items = a :: q.pop.2.items := by
  rw [items_pop, pop_fst, h]
  rfl

theorem held_trim (minLen : ℕ) (cells : List (Option α)) : held (trim minLen cells) = held cells := by
  induction cells with
  | nil => rfl
  | cons data rest ih =>
    cases data with
    | none =>
      rw [trim]
      split_ifs
      · rw [ih, held_cons]
        rfl
      · rfl
    | some a => rfl

theorem held_reverse (cells : List (Option α)) : held cells.reverse = (held cells).reverse := by
  induction cells with
  | nil => rfl
  | cons data rest ih =>
    rw [List.reverse_cons, held_append, ih, held_cons, held_cons, List.reverse_append]
    cases data <;> rfl

theorem items_setMinLength (q : Fifo α) (minLen : ℕ) : (q.setMinLength minLen).items = q.items := by
  unfold setMinLength items
  split_ifs
  · rfl
  · dsimp only
    rw [held_append, held_replicate_none, List.append_nil]
  · dsimp only
    rw [held_reverse, held_trim, held_reverse, List.reverse_reverse]

end Fifo

end CompressionWork.Dram
