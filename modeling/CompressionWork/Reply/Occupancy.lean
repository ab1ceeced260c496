import CompressionWork.Reply.Forest
import Mathlib

/-!
# What the recompression buffer counts

`has_comp_buffer_space` compares `mfNo` with the capacity: the entries and the two lists of
each.  A reply that a round puts under one that is merged already is in neither.

* `totalReplies`, `nested` — the replies in the buffer, and those of them that are not counted.
* `recTarget`, `recCompRun_eq` — the entry a round merges into.
* `CountedRound` — the round puts the reply where it is counted.
* `occupancy_iff` — along every run that asks for space before each reply, the number is that
  of the replies, and the capacity is kept, exactly when every round is a `CountedRound`.
-/

namespace CompressionWork.Reply

/-! ## The replies of a buffer -/

/-- All replies in the buffer. -/
def totalReplies (buffer : List RecPacket) : ℕ := (buffer.flatMap RecPacket.replies).length

/-- The entry, and the replies of its two lists. -/
def RecPacket.counted (e : RecPacket) : ℕ := 1 + e.mergedToSameSM.length + e.merged.length

/-- The replies below those that are merged. -/
def RecPacket.nested (e : RecPacket) : ℕ := (e.merged.map fun g => g.2.length).sum

/-- The replies below the merged ones, in the whole buffer. -/
def nested (buffer : List RecPacket) : ℕ := (buffer.map RecPacket.nested).sum

theorem mfNo_eq (buffer : List RecPacket) : mfNo buffer = (buffer.map RecPacket.counted).sum := rfl

theorem length_groups (merged : List (Packet × List Packet)) :
    (merged.flatMap fun g => g.1 :: g.2).length =
      merged.length + (merged.map fun g => g.2.length).sum := by
  induction merged with
  | nil => rfl
  | cons g merged ih =>
      simp only [List.flatMap_cons, List.length_append, List.length_cons, List.map_cons,
        List.sum_cons, ih]
      omega

theorem RecPacket.length_replies (e : RecPacket) : e.replies.length = e.counted + e.nested := by
  simp only [replies, counted, nested, List.length_cons, List.length_append, length_groups]
  omega

/-- The buffer holds what is counted and what is nested. -/
theorem totalReplies_eq (buffer : List RecPacket) : totalReplies buffer = mfNo buffer + nested buffer := by
  induction buffer with
  | nil => rfl
  | cons e buffer ih =>
      rw [totalReplies] at ih ⊢
      rw [mfNo_eq, nested] at ih ⊢
      rw [List.flatMap_cons, List.length_append, ih, e.length_replies]
      simp only [List.map_cons, List.sum_cons]
      omega

/-! ## Merging -/

/-- The new reply would go below one that is merged into the entry. -/
def Nests (new : Packet) (e : RecPacket) : Prop :=
  e.mf.tpc ≠ new.tpc ∧ ∃ g ∈ e.merged, g.1.tpc = new.tpc

instance (new : Packet) (e : RecPacket) : Decidable (Nests new e) :=
  inferInstanceAs (Decidable (_ ∧ _))

section Merge

variable {new : Packet} {e : RecPacket}

theorem mergeInto_of_mem {merged : List (Packet × List Packet)}
    (h : ∃ g ∈ merged, g.1.tpc = new.tpc) :
    (mergeInto new merged).length = merged.length ∧
      ((mergeInto new merged).map fun g => g.2.length).sum =
        (merged.map fun g => g.2.length).sum + 1 := by
  induction merged with
  | nil => simp at h
  | cons g merged ih =>
      unfold mergeInto
      split_ifs with hsm
      · refine ⟨rfl, ?_⟩
        simp only [List.map_cons, List.sum_cons, List.length_append, List.length_singleton]
        omega
      · obtain ⟨g', hg', heq⟩ := h
        rcases List.mem_cons.1 hg' with rfl | hg'
        · exact absurd heq hsm
        · obtain ⟨hlen, hsum⟩ := ih ⟨g', hg', heq⟩
          simp only [List.length_cons, List.map_cons, List.sum_cons]
          omega

theorem mergeInto_of_not_mem {merged : List (Packet × List Packet)}
    (h : ¬ ∃ g ∈ merged, g.1.tpc = new.tpc) :
    (mergeInto new merged).length = merged.length + 1 ∧
      ((mergeInto new merged).map fun g => g.2.length).sum =
        (merged.map fun g => g.2.length).sum := by
  induction merged with
  | nil => exact ⟨rfl, rfl⟩
  | cons g merged ih =>
      unfold mergeInto
      have hrest : ¬ ∃ g' ∈ merged, g'.1.tpc = new.tpc := by
        rintro ⟨g', hg', heq⟩
        exact h ⟨g', List.mem_cons_of_mem g hg', heq⟩
      obtain ⟨hlen, hsum⟩ := ih hrest
      rw [if_neg fun hsm => h ⟨g, List.mem_cons_self .., hsm⟩]
      simp only [List.length_cons, List.map_cons, List.sum_cons]
      omega

/-- A merge adds one to what is nested, or to what is counted. -/
theorem mergeMf_counts (new : Packet) (e : RecPacket) :
    (Nests new e → (mergeMf new e).counted = e.counted ∧
      (mergeMf new e).nested = e.nested + 1) ∧
    (¬ Nests new e → (mergeMf new e).counted = e.counted + 1 ∧
      (mergeMf new e).nested = e.nested) := by
  unfold mergeMf
  constructor
  · rintro ⟨hne, hmem⟩
    obtain ⟨hlen, hsum⟩ := mergeInto_of_mem hmem
    rw [if_neg hne]
    simp only [RecPacket.counted, RecPacket.nested, hlen, hsum, and_self]
  · intro hnest
    split_ifs with hsm
    · simp only [RecPacket.counted, RecPacket.nested, List.length_append, List.length_singleton,
        and_true]
      omega
    · have hmem : ¬ ∃ g ∈ e.merged, g.1.tpc = new.tpc := fun hmem => hnest ⟨hsm, hmem⟩
      obtain ⟨hlen, hsum⟩ := mergeInto_of_not_mem hmem
      simp only [RecPacket.counted, RecPacket.nested, hlen, hsum, and_true]
      omega

end Merge

/-- A sum over the entries, when one of them changes. -/
theorem sum_modify (w : RecPacket → ℕ) (f : RecPacket → RecPacket) {buffer : List RecPacket}
    {i : ℕ} {e : RecPacket} (h : buffer[i]? = some e) :
    ((buffer.modify i f).map w).sum + w e = (buffer.map w).sum + w (f e) := by
  induction buffer generalizing i with
  | nil => simp at h
  | cons e₀ buffer ih =>
      cases i with
      | zero =>
          obtain rfl : e₀ = e := by simpa using h
          simp only [List.modify_zero_cons, List.map_cons, List.sum_cons]
          omega
      | succ i =>
          have hrest := ih (i := i) (by simpa using h)
          simp only [List.modify_succ_cons, List.map_cons, List.sum_cons]
          omega

/-! ## Rounds -/

/-- The entry that `rec_comp_method_for_intra_sm` merges into, when the packet fits. -/
def intraTarget (cfg : Config) (new : Packet) (i : ℕ) (buffer : List RecPacket) : Option ℕ :=
  if (buffer[i]?).any (cfg.fitsIntraSM · new) then some i else none

/-- The entry that `rec_comp_method_for_inter_sm` merges into. -/
def interTarget (cfg : Config) (new : Packet) (buffer : List RecPacket) : Option ℕ :=
  match lastIdx? (fun e => toDiffSM new.tpc e && cfg.sameData e new) buffer with
  | some i => if (buffer[i]?).any (cfg.fitsInterSM · new) then some i else none
  | none => none

/-- The entry that a round merges the new reply into. -/
def recTarget (cfg : Config) (new : Packet) (buffer : List RecPacket) : Option ℕ :=
  if new.hasRealData then
    match cfg.recCompAlgo with
    | .sameSmPkt => (lastIdx? (toSameSM new.tpc) buffer).bind fun i => intraTarget cfg new i buffer
    | .diffSmPkt => interTarget cfg new buffer
    | .sameDiffSmPkt =>
        match lastIdx? (toSameSM new.tpc) buffer with
        | some i => intraTarget cfg new i buffer
        | none => interTarget cfg new buffer
    | .diffSameSmPkt =>
        (interTarget cfg new buffer).or
          ((lastIdx? (toSameSM new.tpc) buffer).bind fun i => intraTarget cfg new i buffer)
  else none

/-- The buffer after a round with that target. -/
def mergeAt (new : Packet) (buffer : List RecPacket) : Option ℕ → List RecPacket
  | some i => buffer.modify i (mergeMf new)
  | none => pushRecMemFetch buffer new

section Round

variable (cfg : Config) (new : Packet) (buffer : List RecPacket)

theorem recIntraSM_eq (i : ℕ) :
    recIntraSM cfg new i buffer = mergeAt new buffer (intraTarget cfg new i buffer) := by
  unfold recIntraSM intraTarget
  split_ifs <;> rfl

theorem recInterSM_eq (other : List RecPacket) :
    (recInterSM cfg new buffer).getD other =
      match interTarget cfg new buffer with
      | some i => buffer.modify i (mergeMf new)
      | none => other := by
  unfold recInterSM interTarget
  cases lastIdx? (fun e => toDiffSM new.tpc e && cfg.sameData e new) buffer with
  | none => rfl
  | some i =>
      dsimp only
      split_ifs <;> rfl

theorem recCompAlgo1_eq : recCompAlgo1 cfg new buffer = mergeAt new buffer
    ((lastIdx? (toSameSM new.tpc) buffer).bind fun i => intraTarget cfg new i buffer) := by
  unfold recCompAlgo1
  cases lastIdx? (toSameSM new.tpc) buffer with
  | none => rfl
  | some i => exact recIntraSM_eq cfg new buffer i

/-- **A round merges into its target**, or pushes. -/
theorem recCompRun_eq :
    recCompRun cfg new buffer = mergeAt new buffer (recTarget cfg new buffer) := by
  unfold recCompRun recTarget
  split_ifs
  · cases cfg.recCompAlgo with
    | sameSmPkt => exact recCompAlgo1_eq cfg new buffer
    | diffSmPkt =>
        dsimp only
        rw [recCompAlgo2, recInterSM_eq]
        cases interTarget cfg new buffer <;> rfl
    | sameDiffSmPkt =>
        dsimp only
        unfold recCompAlgo3
        cases lastIdx? (toSameSM new.tpc) buffer with
        | some i => exact recIntraSM_eq cfg new buffer i
        | none =>
            dsimp only
            rw [recCompAlgo2, recInterSM_eq]
            cases interTarget cfg new buffer <;> rfl
    | diffSameSmPkt =>
        dsimp only
        rw [recCompAlgo4, recInterSM_eq, recCompAlgo1_eq]
        cases interTarget cfg new buffer <;> rfl
  · rfl

end Round

/-- The round does not merge the reply into an entry to another SM that holds one to its own SM
already. -/
def CountedRound (s : Forest) : ForestEvent → Prop
  | .run cfg mf => ∀ i e, recTarget cfg mf s.buffer = some i → s.buffer[i]? = some e → ¬ Nests mf e
  | _ => True

/-! ## Runs -/

/-- Every reply asks for space before it enters. -/
def Forest.nextGated (size : ℕ) (s : Forest) (event : ForestEvent) : Option Forest :=
  match event with
  | .push _ | .run _ _ => if mfNo s.buffer < size then s.next event else none
  | _ => s.next event

/-- The steps of a run, up to the first event that is refused. -/
def occSteps (size : ℕ) : Forest → List ForestEvent → List (Forest × ForestEvent × Forest)
  | _, [] => []
  | s, event :: events =>
      match s.nextGated size event with
      | some s' => (s, event, s') :: occSteps size s' events
      | none => []

/-- What is compared with the capacity is the number of replies, and these fit. -/
def Occupied (size : ℕ) (s : Forest) : Prop :=
  mfNo s.buffer = totalReplies s.buffer ∧ totalReplies s.buffer ≤ size

section Step

variable {size : ℕ} {s s' : Forest} {event : ForestEvent}

theorem recCompRun_counts (cfg : Config) (new : Packet) (buffer : List RecPacket) :
    (mfNo (recCompRun cfg new buffer) = mfNo buffer + 1 ∧
      nested (recCompRun cfg new buffer) = nested buffer ∧
      ∀ i e, recTarget cfg new buffer = some i → buffer[i]? = some e → ¬ Nests new e) ∨
    (nested (recCompRun cfg new buffer) = nested buffer + 1 ∧
      ∃ i e, recTarget cfg new buffer = some i ∧ buffer[i]? = some e ∧ Nests new e) := by
  have hpush : mfNo (pushRecMemFetch buffer new) = mfNo buffer + 1 ∧
      nested (pushRecMemFetch buffer new) = nested buffer := by
    simp [mfNo_eq, nested, pushRecMemFetch, RecPacket.counted, RecPacket.nested]
  have hround := recCompRun_cases cfg new buffer
  rw [recCompRun_eq] at hround ⊢
  cases htarget : recTarget cfg new buffer with
  | none => exact Or.inl ⟨hpush.1, hpush.2, by simp⟩
  | some i =>
      rw [htarget] at hround
      rw [mergeAt] at hround ⊢
      cases hget : buffer[i]? with
      | none =>
          -- the target is an entry: a round that changes nothing would lose the reply
          have hsame : buffer.modify i (mergeMf new) = buffer :=
            List.modify_eq_self (by simpa using hget)
          have hperm := (replies_round hround).length_eq
          rw [hsame] at hperm
          simp at hperm
      | some e =>
          obtain ⟨hnests, hnot⟩ := mergeMf_counts new e
          have hcounted := sum_modify RecPacket.counted (mergeMf new) hget
          have hnested := sum_modify RecPacket.nested (mergeMf new) hget
          simp only [mfNo_eq, nested]
          by_cases h : Nests new e
          · obtain ⟨-, hn⟩ := hnests h
            exact Or.inr ⟨by omega, i, e, rfl, hget, h⟩
          · obtain ⟨hc, hn⟩ := hnot h
            refine Or.inl ⟨by omega, by omega, ?_⟩
            intro j e' hj he'
            obtain rfl : i = j := by simpa using hj
            obtain rfl : e = e' := by simpa [hget] using he'
            exact h

/-- One step, from a buffer in which everything is counted. -/
theorem occupied_step_iff (h : Occupied size s) (hnext : s.nextGated size event = some s') :
    Occupied size s' ↔ CountedRound s event := by
  have hflat : nested s.buffer = 0 := by
    have := totalReplies_eq s.buffer
    have := h.1
    omega
  have hleave : ∀ {e : RecPacket} {buffer : List RecPacket}, s.buffer.Perm (e :: buffer) →
      mfNo buffer = totalReplies buffer ∧ totalReplies buffer ≤ size := by
    intro e buffer hperm
    have hn : nested s.buffer = e.nested + nested buffer := (hperm.map _).sum_nat
    have hm : mfNo s.buffer = e.counted + mfNo buffer := (hperm.map _).sum_nat
    have := totalReplies_eq buffer
    have := totalReplies_eq s.buffer
    have := h.2
    omega
  have hpush : ∀ {buffer : List RecPacket}, mfNo s.buffer < size →
      mfNo buffer = mfNo s.buffer + 1 → nested buffer = nested s.buffer →
        mfNo buffer = totalReplies buffer ∧ totalReplies buffer ≤ size := by
    intro buffer hgate hm hn
    have := totalReplies_eq buffer
    omega
  cases event with
  | push mf =>
      simp only [Forest.nextGated] at hnext
      split at hnext
      · rename_i hgate
        obtain rfl := Option.some.inj hnext
        refine iff_of_true (hpush hgate ?_ ?_) trivial
        · simp [mfNo_eq, pushRecMemFetch, RecPacket.counted]
        · simp [nested, pushRecMemFetch, RecPacket.nested]
      · simp at hnext
  | run cfg mf =>
      simp only [Forest.nextGated] at hnext
      split at hnext
      · rename_i hgate
        obtain rfl := Option.some.inj hnext
        rcases recCompRun_counts cfg mf s.buffer with ⟨hm, hn, hround⟩ | ⟨hn, i, e, hi, he, hnest⟩
        · exact iff_of_true (hpush hgate hm hn) hround
        · refine iff_of_false ?_ fun hround => hround i e hi he hnest
          rintro ⟨heq, -⟩
          have := totalReplies_eq (recCompRun cfg mf s.buffer)
          simp only at heq
          omega
      · simp at hnext
  | del mf =>
      obtain ⟨⟨e, buffer⟩, hdel, rfl⟩ := Option.map_eq_some_iff.1 hnext
      exact iff_of_true (hleave (Forest.delMemFetch_perm hdel)) trivial
  | pop =>
      change s.next .pop = some s' at hnext
      cases hbuffer : s.buffer with
      | nil =>
          rw [Forest.next, hbuffer] at hnext
          cases hnext
      | cons e buffer =>
          rw [Forest.next, hbuffer] at hnext
          obtain rfl := Option.some.inj hnext
          exact iff_of_true (hleave (List.Perm.of_eq hbuffer)) trivial

theorem occupied_steps_iff {events : List ForestEvent} (h : Occupied size s) :
    (∀ t ∈ occSteps size s events, Occupied size t.2.2) ↔
      ∀ t ∈ occSteps size s events, CountedRound t.1 t.2.1 := by
  induction events generalizing s with
  | nil => simp [occSteps]
  | cons event events ih =>
      rw [occSteps]
      cases hnext : s.nextGated size event with
      | none => simp
      | some s' =>
          have hstep := occupied_step_iff h hnext
          simp only [List.forall_mem_cons]
          constructor
          · rintro ⟨hs', hrest⟩
            exact ⟨hstep.1 hs', (ih hs').1 hrest⟩
          · rintro ⟨hround, hrest⟩
            have hs' := hstep.2 hround
            exact ⟨hs', (ih hs').2 hrest⟩

end Step

/-- **The occupancy is right along a run exactly when every round is counted**: after every
step the number that is compared with the capacity is the number of replies in the buffer, and
they are not more than the capacity. -/
theorem occupancy_iff (size : ℕ) (events : List ForestEvent) :
    (∀ t ∈ occSteps size {} events, Occupied size t.2.2) ↔
      ∀ t ∈ occSteps size {} events, CountedRound t.1 t.2.1 :=
  occupied_steps_iff ⟨rfl, Nat.zero_le _⟩

/-- One reply to SM 0 and three with the same data to SM 1: four replies in a buffer for
three. -/
theorem occupancy_exceeded : ¬ ∀ (size : ℕ) (events : List ForestEvent),
    ∀ t ∈ occSteps size {} events, Occupied size t.2.2 := by
  intro h
  let events : List ForestEvent :=
    [.run Forest.mergeAll (.reply ⟨0, .globalAccR, false, 0⟩),
      .run Forest.mergeAll (.reply ⟨1, .globalAccR, false, 1⟩),
      .run Forest.mergeAll (.reply ⟨2, .globalAccR, false, 1⟩),
      .run Forest.mergeAll (.reply ⟨3, .globalAccR, false, 1⟩)]
  have hlast : (occSteps 3 {} events).map (fun t => totalReplies t.2.2.buffer) = [1, 2, 3, 4] := by rfl
  have hfits : ∀ k ∈ (occSteps 3 {} events).map (fun t => totalReplies t.2.2.buffer), k ≤ 3 := by
    intro k hk
    obtain ⟨t, ht, rfl⟩ := List.mem_map.1 hk
    exact (h 3 events t ht).2
  rw [hlast] at hfits
  exact absurd (hfits 4 (by decide)) (by decide)

end CompressionWork.Reply
