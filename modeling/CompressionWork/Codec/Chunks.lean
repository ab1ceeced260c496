import Mathlib.Data.List.Basic
import Mathlib.Tactic.Common

/-!
# Cutting a list into chunks

`chunks k s` is the list of the slices `s[0, k)`, `s[k, 2k)`, … that a loop with step
`k` takes off `s`; the last one may be shorter.

* `chunks_flatten` — slices of the right length come back out of their concatenation.
* `flatten_chunks` — and the slices of a list make up the list again.
-/

namespace Codec

variable {α : Type*} {k : ℕ}

/-- The consecutive slices of length `k` of a list. -/
def chunks (k : ℕ) (s : List α) : List (List α) :=
  (List.range ((s.length + k - 1) / k)).map fun i => (s.drop (i * k)).take k

@[simp] theorem chunks_nil (hk : 0 < k) : chunks k ([] : List α) = [] := by
  rw [chunks, List.length_nil, Nat.zero_add, Nat.div_eq_of_lt (by omega)]
  rfl

/-- The first slice, and the slices of what is left. -/
theorem chunks_append (hk : 0 < k) {w : List α} (hw : w.length = k) (s : List α) :
    chunks k (w ++ s) = w :: chunks k s := by
  have hcount : ((w ++ s).length + k - 1) / k = (s.length + k - 1) / k + 1 := by
    rw [List.length_append, hw, show k + s.length + k - 1 = s.length + k - 1 + k by omega,
      Nat.add_div_right _ hk]
  rw [chunks, hcount, List.range_succ_eq_map, List.map_cons, List.map_map, chunks]
  congr 1
  · rw [Nat.zero_mul, List.drop_zero, ← hw, List.take_left]
  · refine List.map_congr_left fun i _ => ?_
    have hdrop : (w ++ s).drop ((i + 1) * k) = s.drop (i * k) := by
      rw [Nat.add_mul, Nat.one_mul, Nat.add_comm, ← hw, List.drop_append]
      simp
    simp only [Function.comp_apply, Nat.succ_eq_add_one, hdrop]

theorem chunks_of_length (hk : 0 < k) {w : List α} (hw : w.length = k) : chunks k w = [w] := by
  have h := chunks_append hk hw []
  rwa [List.append_nil, chunks_nil hk] at h

/-- Slices of length `k` come back out of their concatenation. -/
theorem chunks_flatten (hk : 0 < k) {ws : List (List α)} (h : ∀ w ∈ ws, w.length = k) :
    chunks k ws.flatten = ws := by
  induction ws with
  | nil => exact chunks_nil hk
  | cons w ws ih =>
      rw [List.flatten_cons, chunks_append hk (h w (by simp)),
        ih fun v hv => h v (by simp [hv])]

/-- A list whose length is a multiple of `k` is a concatenation of slices of length `k`. -/
theorem exists_slices {m : ℕ} {s : List α} (h : s.length = k * m) :
    ∃ ws : List (List α), ws.length = m ∧ (∀ w ∈ ws, w.length = k) ∧ ws.flatten = s := by
  induction m generalizing s with
  | zero =>
      refine ⟨[], rfl, by simp, ?_⟩
      rw [Nat.mul_zero] at h
      exact (List.eq_nil_of_length_eq_zero h).symm
  | succ m ih =>
      rw [Nat.mul_succ] at h
      obtain ⟨ws, hlen, hws, hflat⟩ := ih (s := s.drop k) (by rw [List.length_drop]; omega)
      refine ⟨s.take k :: ws, by simp [hlen], ?_, ?_⟩
      · intro w hw
        rcases List.mem_cons.1 hw with rfl | hw
        · rw [List.length_take]; omega
        · exact hws w hw
      · rw [List.flatten_cons, hflat, List.take_append_drop]

theorem length_of_mem_chunks {m : ℕ} (hk : 0 < k) {s w : List α} (h : s.length = k * m)
    (hw : w ∈ chunks k s) : w.length = k := by
  obtain ⟨ws, -, hws, rfl⟩ := exists_slices h
  rw [chunks_flatten hk hws] at hw
  exact hws w hw

theorem length_chunks {m : ℕ} (hk : 0 < k) {s : List α} (h : s.length = k * m) :
    (chunks k s).length = m := by
  obtain ⟨ws, hlen, hws, rfl⟩ := exists_slices h
  rw [chunks_flatten hk hws, hlen]

/-- The slices of a list whose length is a multiple of `k` make up the list. -/
theorem flatten_chunks {m : ℕ} (hk : 0 < k) {s : List α} (h : s.length = k * m) :
    (chunks k s).flatten = s := by
  obtain ⟨ws, -, hws, rfl⟩ := exists_slices h
  rw [chunks_flatten hk hws]

/-- The slices of a list that starts with whole slices. -/
theorem chunks_append_of_length {m : ℕ} (hk : 0 < k) {s : List α} (h : s.length = k * m)
    (t : List α) : chunks k (s ++ t) = chunks k s ++ chunks k t := by
  obtain ⟨ws, -, hws, rfl⟩ := exists_slices h
  rw [chunks_flatten hk hws]
  clear h
  induction ws with
  | nil => rfl
  | cons w ws ih =>
      rw [List.flatten_cons, List.append_assoc, chunks_append hk (hws w (by simp)),
        ih fun v hv => hws v (by simp [hv]), List.cons_append]

/-- A piece that lies inside one slice only shows in that slice. -/
theorem chunks_around {m : ℕ} (hk : 0 < k) {s mid t : List α} (hmid : 0 < mid.length)
    (hlen : s.length + mid.length + t.length = k * m) (hfit : s.length % k + mid.length ≤ k) :
    chunks k (s ++ mid ++ t) = chunks k (s.take (s.length / k * k)) ++
      (s.drop (s.length / k * k) ++ mid ++ t.take (k - s.length % k - mid.length)) ::
        chunks k (t.drop (k - s.length % k - mid.length)) := by
  have hdiv := Nat.div_add_mod s.length k
  have hmul : k * (s.length / k) = s.length / k * k := Nat.mul_comm ..
  -- what is left of the slice is there, since the whole length is a multiple of `k`
  have hroom : k - s.length % k - mid.length ≤ t.length := by
    by_contra hlt
    have hbetween : k * (s.length / k) < k * m ∧ k * m < k * (s.length / k + 1) := by
      rw [Nat.mul_succ]
      omega
    have h1 := Nat.lt_of_mul_lt_mul_left hbetween.1
    have h2 := Nat.lt_of_mul_lt_mul_left hbetween.2
    omega
  have hsplit : s ++ mid ++ t = s.take (s.length / k * k) ++
      ((s.drop (s.length / k * k) ++ mid ++ t.take (k - s.length % k - mid.length)) ++
        t.drop (k - s.length % k - mid.length)) := by
    simp only [List.append_assoc, List.take_append_drop]
    rw [← List.append_assoc (s.take _), List.take_append_drop]
  rw [hsplit, chunks_append_of_length (m := s.length / k) hk, chunks_append hk]
  · simp only [List.length_append, List.length_drop, List.length_take]
    omega
  · rw [List.length_take]
    omega

/-- What stands in a list with one element more at the end. -/
theorem getElem?_concat_iff {l : List α} {a x : α} {n : ℕ} :
    (l ++ [a])[n]? = some x ↔ l[n]? = some x ∨ (n = l.length ∧ a = x) := by
  rcases Nat.lt_trichotomy n l.length with h | h | h
  · simp [List.getElem?_append_left h, Nat.ne_of_lt h]
  · subst h
    simp
  · have h1 : (l ++ [a])[n]? = none := List.getElem?_eq_none (by simp; omega)
    have h2 : l[n]? = none := List.getElem?_eq_none (by omega)
    simp [h1, h2, Nat.ne_of_gt h]

end Codec
