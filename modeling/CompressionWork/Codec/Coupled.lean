import Mathlib.Data.List.Basic
import Mathlib.Tactic.Common

/-!
# Coding with a state on both sides

An adaptive code keeps a state (a dictionary, a table) that every message changes.  The
encoder and the decoder each carry their own copy; nothing but the coded messages passes
between them.

* `encodeRun`, `decodeRun` — a sequence of messages through either side.
* `decodeRun_encodeRun` — when every message decodes under the encoder's state and leaves
  both sides in the same next state, so does a whole sequence.
-/

namespace Codec

variable {σ α β : Type*}

/-- Encodes messages one after another; `enc` returns the code and the next state. -/
def encodeRun (enc : σ → α → β × σ) : σ → List α → List β × σ
  | s, [] => ([], s)
  | s, a :: as =>
      let p := enc s a
      let q := encodeRun enc p.2 as
      (p.1 :: q.1, q.2)

/-- Decodes codes one after another; `dec` returns the message and the next state. -/
def decodeRun (dec : σ → β → Option (α × σ)) : σ → List β → Option (List α × σ)
  | s, [] => some ([], s)
  | s, b :: bs =>
      (dec s b).bind fun p => (decodeRun dec p.2 bs).map fun q => (p.1 :: q.1, q.2)

variable {enc : σ → α → β × σ} {dec : σ → β → Option (α × σ)}

/-- **The two states stay equal**, and every message comes back. -/
theorem decodeRun_encodeRun {I : σ → Prop} {P : α → Prop}
    (hdec : ∀ s a, I s → P a → dec s (enc s a).1 = some (a, (enc s a).2))
    (hinv : ∀ s a, I s → P a → I (enc s a).2) :
    ∀ (as : List α) (s : σ), I s → (∀ a ∈ as, P a) →
      decodeRun dec s (encodeRun enc s as).1 = some (as, (encodeRun enc s as).2) := by
  intro as
  induction as with
  | nil => intro s _ _; rfl
  | cons a as ih =>
      intro s hs hP
      have hPa : P a := hP a (List.mem_cons_self ..)
      have has := ih (enc s a).2 (hinv s a hs hPa) fun b hb => hP b (List.mem_cons_of_mem _ hb)
      simp only [encodeRun, decodeRun, hdec s a hs hPa, has, Option.bind_some, Option.map_some]

end Codec
