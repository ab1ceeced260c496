import CompressionWork.Cache.Caches
import Mathlib.Data.Nat.ModEq
import Mathlib.Data.List.Basic

/-!
# The rings of the texture cache

A `fifo` holds a list: its oldest element stands at the tail and the others behind it, around the end
of the array.

* `Holds` — the list a ring holds, oldest first.
* `Holds.push`, `Holds.pop` — the two ends of the list.
* `slot`, `Holds.peek`, `Holds.write` — the places of the elements, which an index names as long as the
  element is there.
-/

namespace CompressionWork.Cache

namespace Fifo

variable {α : Type} {q q' : Fifo α} {l : List α} {e : α} {i j : ℕ}

/-- The place of the element at position `i`. -/
def slot (q : Fifo α) (i : ℕ) : ℕ := (q.tail + i) % q.size

/-- The ring holds the elements of a list. -/
structure Holds (q : Fifo α) (l : List α) : Prop where
  num : q.num = l.length
  le : l.length ≤ q.size
  tail : 0 < q.size → q.tail < q.size
  head : 0 < q.size → q.head = q.slot l.length
  data : ∀ (i : ℕ) (e : α), l[i]? = some e → q.data (q.slot i) = some e

theorem slot_inj (hi : i < q.size) (hj : j < q.size) (h : q.slot i = q.slot j) : i = j := by
  have hmod : i % q.size = j % q.size := Nat.ModEq.add_left_cancel' q.tail h
  rwa [Nat.mod_eq_of_lt hi, Nat.mod_eq_of_lt hj] at hmod

theorem slot_lt (hsize : 0 < q.size) (i : ℕ) : q.slot i < q.size := Nat.mod_lt _ hsize

theorem holds_new (size : ℕ) : Holds ({ size := size } : Fifo α) [] where
  num := rfl
  le := Nat.zero_le _
  tail := id
  head := fun _ => (Nat.zero_mod size).symm
  data := by simp

theorem Holds.full_iff (h : q.Holds l) : q.full = true ↔ l.length = q.size := by
  rw [full, beq_iff_eq, h.num]

theorem Holds.empty_iff (h : q.Holds l) : q.empty = true ↔ l = [] := by
  rw [empty, beq_iff_eq, h.num, List.length_eq_zero_iff]

theorem Holds.slot_zero (h : q.Holds l) (hsize : 0 < q.size) : q.slot 0 = q.tail :=
  Nat.mod_eq_of_lt (h.tail hsize)

/-- An element that is there is found at its place. -/
theorem Holds.peek (h : q.Holds l) (he : l[i]? = some e) : q.peek (q.slot i) = some e := by
  have hi := (List.getElem?_eq_some_iff.1 he).1
  have hle := h.le
  rw [Fifo.peek, if_pos (slot_lt (by omega) i)]
  exact h.data i e he

/-- A ring holds one list. -/
theorem Holds.unique {l' : List α} (h : q.Holds l) (h' : q.Holds l') :
    l = l' := by
  have hlen : l.length = l'.length := h.num.symm.trans h'.num
  apply List.ext_getElem hlen
  intro i hi hi'
  have hdata := h.data i l[i] (List.getElem?_eq_getElem hi)
  rw [h'.data i l'[i] (List.getElem?_eq_getElem hi')] at hdata
  exact (Option.some.inj hdata).symm

/-- `push` puts an element behind the others, whose places do not change. -/
theorem Holds.push (h : q.Holds l) (hroom : l.length < q.size) (e : α) :
    ∃ r, q.push e = some (q.slot l.length, r) ∧ r.Holds (l ++ [e]) ∧ r.size = q.size ∧
      r.tail = q.tail := by
  have hfull : ¬ q.full = true := by
    rw [h.full_iff]
    omega
  have hhead := h.head (by omega)
  refine ⟨{ q with
    data := Function.update q.data q.head (some e)
    head := (q.head + 1) % q.size
    num := q.num + 1 }, by rw [Fifo.push, if_neg hfull, ← hhead], ?_, rfl, rfl⟩
  constructor
  · simp [h.num]
  · simp only [List.length_append, List.length_singleton]
    omega
  · exact h.tail
  · intro _
    simp only [hhead, slot, List.length_append, List.length_singleton, Nat.mod_add_mod]
    rw [Nat.add_assoc]
  · intro i e' he'
    change Function.update q.data q.head (some e) (q.slot i) = some e'
    rcases Nat.lt_trichotomy i l.length with hlt | rfl | hlt
    · rw [List.getElem?_append_left hlt] at he'
      have hne : q.slot i ≠ q.head := by
        rw [hhead]
        exact fun heq => Nat.ne_of_lt hlt (slot_inj (by omega) hroom heq)
      rw [Function.update_of_ne hne]
      exact h.data i e' he'
    · obtain rfl : e = e' := by simpa using he'
      rw [← hhead, Function.update_self]
    · rw [List.getElem?_eq_none (by simp; omega)] at he'
      cases he'

/-- `pop` takes the oldest element; the others move up by one position. -/
theorem Holds.pop (h : q.Holds (e :: l)) :
    ∃ r, q.pop = some (e, r) ∧ r.Holds l ∧ r.size = q.size ∧ ∀ i, r.slot i = q.slot (i + 1) := by
  have hle := h.le
  simp only [List.length_cons] at hle
  have hsize : 0 < q.size := by omega
  have hempty : ¬ q.empty = true := by simp [h.empty_iff]
  have htail : q.data q.tail = some e := by
    rw [← h.slot_zero hsize]
    exact h.data 0 e rfl
  let r : Fifo α := { q with tail := (q.tail + 1) % q.size, num := q.num - 1 }
  have hslot : ∀ i, r.slot i = q.slot (i + 1) := by
    intro i
    change ((q.tail + 1) % q.size + i) % q.size = (q.tail + (i + 1)) % q.size
    rw [Nat.mod_add_mod, Nat.add_assoc, Nat.add_comm 1 i]
  refine ⟨r, by rw [Fifo.pop, if_neg hempty, htail]; rfl, ?_, rfl, hslot⟩
  constructor
  · change q.num - 1 = l.length
    rw [h.num]
    rfl
  · exact Nat.le_of_succ_le hle
  · exact fun _ => Nat.mod_lt _ hsize
  · intro _
    rw [hslot]
    exact h.head hsize
  · intro i e' he'
    rw [hslot]
    exact h.data (i + 1) e' (by simpa using he')

/-- What a `push` that succeeds has done. -/
theorem Holds.of_push {n : ℕ} {r : Fifo α} (h : q.Holds l) (hpush : q.push e = some (n, r)) :
    l.length < q.size ∧ n = q.slot l.length ∧ r.Holds (l ++ [e]) ∧ r.size = q.size ∧
      r.tail = q.tail := by
  have hroom : l.length < q.size := by
    apply Nat.lt_of_le_of_ne h.le
    intro hfull
    rw [Fifo.push, if_pos (h.full_iff.2 hfull)] at hpush
    cases hpush
  obtain ⟨r', hr', hholds⟩ := h.push hroom e
  obtain ⟨rfl, rfl⟩ := Prod.mk.inj (Option.some.inj (hr'.symm.trans hpush))
  exact ⟨hroom, rfl, hholds⟩

/-- What a `pop` that succeeds has done. -/
theorem Holds.of_pop {r : Fifo α} (h : q.Holds l) (hpop : q.pop = some (e, r)) :
    ∃ l', l = e :: l' ∧ r.Holds l' ∧ r.size = q.size ∧ ∀ i, r.slot i = q.slot (i + 1) := by
  cases l with
  | nil =>
      rw [Fifo.pop, if_pos (h.empty_iff.2 rfl)] at hpop
      cases hpop
  | cons e' l' =>
      obtain ⟨r', hr', hholds⟩ := h.pop
      obtain ⟨rfl, rfl⟩ := Prod.mk.inj (Option.some.inj (hr'.symm.trans hpop))
      exact ⟨l', rfl, hholds⟩

/-- An element changes in its place. -/
theorem Holds.write (h : q.Holds l) (hi : i < l.length) (e : α) :
    Holds { q with data := Function.update q.data (q.slot i) (some e) } (l.set i e) := by
  have hle := h.le
  constructor
  · rw [List.length_set]
    exact h.num
  · rw [List.length_set]
    exact hle
  · exact h.tail
  · rw [List.length_set]
    exact h.head
  · intro j e' he'
    change Function.update q.data (q.slot i) (some e) (q.slot j) = some e'
    by_cases hij : i = j
    · subst hij
      rw [List.getElem?_set_self hi] at he'
      obtain rfl := Option.some.inj he'
      exact Function.update_self ..
    · rw [List.getElem?_set_ne hij] at he'
      have hj := (List.getElem?_eq_some_iff.1 he').1
      have hne : q.slot j ≠ q.slot i := fun heq => hij (slot_inj (by omega) (by omega) heq.symm)
      rw [Function.update_of_ne hne]
      exact h.data j e' he'

end Fifo

end CompressionWork.Cache
