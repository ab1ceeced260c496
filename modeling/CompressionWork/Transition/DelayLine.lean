import Mathlib.Data.List.ReduceOption

/-!
# Delay lines

A line of cells, each empty or holding one item.  In every cycle one cell (or none) goes in at the end
and one comes out at the head.

* `shift_eq` — a cycle only moves the cells on.
* `held_shift` — what was held and what came in is what came out and what is held now.
* `shift_nil` — a line of no cells hands its input on in the same cycle.
-/

namespace CompressionWork.Transition

variable {α : Type*}

/-- One cycle: what comes out, and the line after it. -/
def shift (line : List (Option α)) (input : Option α) : Option α × List (Option α) :=
  ((line ++ [input]).headD none, (line ++ [input]).tail)

/-- The items on a line, oldest first. -/
def held (line : List (Option α)) : List α := line.reduceOption

theorem shift_eq (line : List (Option α)) (input : Option α) :
    (shift line input).1 :: (shift line input).2 = line ++ [input] := by
  cases line <;> rfl

@[simp] theorem shift_nil (input : Option α) : shift [] input = (input, []) := rfl

@[simp] theorem held_nil : held ([] : List (Option α)) = [] := rfl

theorem held_cons (cell : Option α) (line : List (Option α)) :
    held (cell :: line) = cell.toList ++ held line := by
  cases cell <;> simp [held, List.reduceOption_cons_of_none, List.reduceOption_cons_of_some]

/-- **Nothing is lost and nothing is made.** -/
theorem held_shift (line : List (Option α)) (input : Option α) :
    (shift line input).1.toList ++ held (shift line input).2 = held line ++ input.toList := by
  rw [← held_cons, shift_eq, held, List.reduceOption_append]
  cases input <;> rfl

end CompressionWork.Transition
