import Mathlib.Data.List.Basic
import Mathlib.Tactic.Common

/-!
# Token streams and left-to-right decoding

A compressed stream is a concatenation of tokens.  A *reader* takes one token off
the front of a stream and says which symbols the token stands for; `decode` runs
it until the stream is empty.

* `Reads read t v` — whatever follows the token `t`, the reader takes exactly `t`
  off and returns the symbols `v`.
* `decode_flatten` — a concatenation of such tokens decodes to the concatenation
  of their symbols.
* `flatten_symbols_inj` — so two token sequences with the same concatenation stand
  for the same symbols.
-/

namespace Codec

variable {α β : Type*}

/-- Takes one token off the front of a stream: its symbols and what is left. -/
abbrev Reader (α β : Type*) := List α → Option (List β × List α)

/-- The decoding loop; `fuel` bounds the number of tokens still to be read. -/
def decodeAux (read : Reader α β) : ℕ → List α → Option (List β)
  | _, [] => some []
  | 0, _ :: _ => none
  | fuel + 1, a :: s =>
      (read (a :: s)).bind fun p => (decodeAux read fuel p.2).map (p.1 ++ ·)

/-- Reads tokens from left to right until the stream is empty. -/
def decode (read : Reader α β) (s : List α) : Option (List β) :=
  decodeAux read s.length s

/-- The reader recognises the token `t` in front of any rest and returns `v`. -/
def Reads (read : Reader α β) (t : List α) (v : List β) : Prop :=
  t ≠ [] ∧ ∀ r, read (t ++ r) = some (v, r)

variable {read : Reader α β}

/-- One token is decoded and the loop goes on with the rest. -/
theorem decodeAux_append {t : List α} {v : List β} (h : Reads read t v) (fuel : ℕ) (r : List α) :
    decodeAux read (fuel + 1) (t ++ r) = (decodeAux read fuel r).map (v ++ ·) := by
  obtain ⟨hne, hread⟩ := h
  obtain ⟨a, t', rfl⟩ := List.exists_cons_of_ne_nil hne
  have hr := hread r
  rw [List.cons_append] at hr ⊢
  simp only [decodeAux, hr, Option.bind_some]

/-- The loop decodes a concatenation of tokens as soon as it has enough fuel. -/
theorem decodeAux_flatten (ts : List (List α × List β))
    (h : ∀ p ∈ ts, Reads read p.1 p.2) :
    ∀ fuel, (ts.flatMap Prod.fst).length ≤ fuel →
      decodeAux read fuel (ts.flatMap Prod.fst) = some (ts.flatMap Prod.snd) := by
  induction ts with
  | nil => intro fuel _; cases fuel <;> rfl
  | cons p ts ih =>
      intro fuel hfuel
      have hp : Reads read p.1 p.2 := h p (List.mem_cons_self ..)
      have hpos : 0 < p.1.length := List.length_pos_of_ne_nil hp.1
      rw [List.flatMap_cons, List.length_append] at hfuel
      obtain ⟨n, rfl⟩ : ∃ n, fuel = n + 1 := ⟨fuel - 1, by omega⟩
      rw [List.flatMap_cons, List.flatMap_cons, decodeAux_append hp,
        ih (fun q hq => h q (List.mem_cons_of_mem _ hq)) n (by omega)]
      rfl

/-- **Decoding inverts concatenation.** -/
theorem decode_flatten (ts : List (List α × List β)) (h : ∀ p ∈ ts, Reads read p.1 p.2) :
    decode read (ts.flatMap Prod.fst) = some (ts.flatMap Prod.snd) :=
  decodeAux_flatten ts h _ (Nat.le_refl _)

/-- Two token sequences with the same concatenation stand for the same symbols. -/
theorem flatten_symbols_inj {ts us : List (List α × List β)}
    (ht : ∀ p ∈ ts, Reads read p.1 p.2) (hu : ∀ p ∈ us, Reads read p.1 p.2)
    (h : ts.flatMap Prod.fst = us.flatMap Prod.fst) :
    ts.flatMap Prod.snd = us.flatMap Prod.snd := by
  have hd := decode_flatten ts ht
  rw [h, decode_flatten us hu] at hd
  exact (Option.some.inj hd).symm

end Codec
