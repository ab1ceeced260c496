import CompressionWork.Reply.Compressor
import CompressionWork.Transition.Reach
import Mathlib.Data.List.Nodup
import Mathlib.Data.List.Perm.Basic

/-!
# The forest of merged replies

A reply that enters the recompression buffer becomes an entry of its own, or joins one: the list of the
replies to the same SM, the list of the replies to other SMs, or the same-SM list of one of these.

* `RecPacket.replies`, `RecPacket.flatten` — the replies of an entry, and the SM each of them is carried to.
* `ForestEvent`, `next` — pushes, rounds of the merge algorithms, deletions.
* `recCompRun_cases` — a round pushes the reply or merges it into one entry.
* `forest_conserves` — every reply is in one place, and is carried to its own SM.
-/

namespace CompressionWork.Reply

open CompressionWork.Transition

/-! ## Entries -/

namespace RecPacket

/-- The replies of an entry, each with its place. -/
def replies (e : RecPacket) : List Packet :=
  e.mf :: e.mergedToSameSM ++ e.merged.flatMap fun g => g.1 :: g.2

/-- The replies as they come out, each with the SM it comes out at: the network carries the entry and a
replica for each of `m_merged_mfs`, and each of these brings its `m_merged_mfs_to_same_SM` with it. -/
def flatten (e : RecPacket) : List (ℕ × Packet) :=
  (e.mf :: e.mergedToSameSM).map (e.mf.tpc, ·) ++
    e.merged.flatMap fun g => (g.1 :: g.2).map (g.1.tpc, ·)

/-- The replies of a same-SM list go to the SM of the reply that holds it. -/
def SameSM (e : RecPacket) : Prop :=
  (∀ m ∈ e.mergedToSameSM, m.tpc = e.mf.tpc) ∧ ∀ g ∈ e.merged, ∀ m ∈ g.2, m.tpc = g.1.tpc

theorem flatten_snd (e : RecPacket) : e.flatten.map Prod.snd = e.replies := by
  rw [flatten, replies, List.map_append, List.map_map, List.map_flatMap]
  congr 1
  · exact List.map_id _
  · apply List.flatMap_congr
    intro g _
    rw [List.map_map]
    exact List.map_id _

theorem SameSM.flatten {e : RecPacket} (h : e.SameSM) : ∀ r ∈ e.flatten, r.1 = r.2.tpc := by
  intro r hr
  rcases List.mem_append.1 hr with hr | hr
  · obtain ⟨m, hm, rfl⟩ := List.mem_map.1 hr
    rcases List.mem_cons.1 hm with rfl | hm
    · rfl
    · exact (h.1 m hm).symm
  · obtain ⟨g, hg, hr⟩ := List.mem_flatMap.1 hr
    obtain ⟨m, hm, rfl⟩ := List.mem_map.1 hr
    rcases List.mem_cons.1 hm with rfl | hm
    · rfl
    · exact (h.2 g hg m hm).symm

end RecPacket

/-! ## Merging -/

section Merge

variable {cfg : Config} {new : Packet} {buffer : List RecPacket} {i : ℕ} {e : RecPacket}

theorem replies_mergeInto (new : Packet) (merged : List (Packet × List Packet)) :
    ((mergeInto new merged).flatMap fun g => g.1 :: g.2).Perm
      (new :: merged.flatMap fun g => g.1 :: g.2) := by
  induction merged with
  | nil => exact List.Perm.refl _
  | cons g merged ih =>
      unfold mergeInto
      split_ifs
      · simp only [List.flatMap_cons, List.cons_append, List.append_assoc, List.nil_append]
        exact (List.Perm.cons g.1 List.perm_middle).trans (List.Perm.swap new g.1 _)
      · simp only [List.flatMap_cons]
        exact (ih.append_left _).trans List.perm_middle

theorem sameSM_mergeInto {merged : List (Packet × List Packet)}
    (h : ∀ g ∈ merged, ∀ m ∈ g.2, m.tpc = g.1.tpc) :
    ∀ g ∈ mergeInto new merged, ∀ m ∈ g.2, m.tpc = g.1.tpc := by
  induction merged with
  | nil =>
      intro g hg m hm
      obtain rfl := List.mem_singleton.1 hg
      cases hm
  | cons g merged ih =>
      have hrest := ih fun g' hg' => h g' (List.mem_cons_of_mem g hg')
      unfold mergeInto
      split_ifs with hsm
      · intro g' hg' m hm
        rcases List.mem_cons.1 hg' with rfl | hg'
        · rcases List.mem_append.1 hm with hm | hm
          · exact h g (List.mem_cons_self ..) m hm
          · obtain rfl := List.mem_singleton.1 hm
            exact hsm.symm
        · exact h g' (List.mem_cons_of_mem g hg') m hm
      · intro g' hg'
        rcases List.mem_cons.1 hg' with rfl | hg'
        · exact h g' (List.mem_cons_self ..)
        · exact hrest g' hg'

/-- A merge adds the new reply in one place. -/
theorem replies_mergeMf (new : Packet) (e : RecPacket) :
    (mergeMf new e).replies.Perm (new :: e.replies) := by
  unfold mergeMf
  split_ifs
  · simp only [RecPacket.replies, List.cons_append, List.append_assoc, List.nil_append]
    exact (List.Perm.cons e.mf List.perm_middle).trans (List.Perm.swap new e.mf _)
  · have hinto := replies_mergeInto new e.merged
    exact (hinto.append_left (e.mf :: e.mergedToSameSM)).trans List.perm_middle

theorem sameSM_mergeMf (h : e.SameSM) : (mergeMf new e).SameSM := by
  unfold mergeMf
  split_ifs with hsm
  · refine ⟨?_, h.2⟩
    intro m hm
    rcases List.mem_append.1 hm with hm | hm
    · exact h.1 m hm
    · obtain rfl := List.mem_singleton.1 hm
      exact hsm.symm
  · exact ⟨h.1, sameSM_mergeInto h.2⟩

/-! ## Rounds -/

theorem lastIdx?_lt {p : RecPacket → Bool} (h : lastIdx? p buffer = some i) : i < buffer.length := by
  have hmem := List.mem_of_find?_eq_some h
  rwa [List.mem_reverse, List.mem_range] at hmem

/-- A round pushes the new reply, or merges it into one entry. -/
inductive Round (new : Packet) (buffer : List RecPacket) : List RecPacket → Prop
  | push : Round new buffer (pushRecMemFetch buffer new)
  | merge {i : ℕ} (h : i < buffer.length) : Round new buffer (buffer.modify i (mergeMf new))

theorem round_recIntraSM (h : i < buffer.length) :
    Round new buffer (recIntraSM cfg new i buffer) := by
  unfold recIntraSM
  split_ifs
  · exact .merge h
  · exact .push

theorem round_recInterSM {other : List RecPacket} (h : Round new buffer other) :
    Round new buffer ((recInterSM cfg new buffer).getD other) := by
  unfold recInterSM
  split
  case h_1 i hi =>
    split_ifs
    · exact .merge (lastIdx?_lt hi)
    · exact h
  case h_2 => exact h

theorem round_recCompAlgo1 : Round new buffer (recCompAlgo1 cfg new buffer) := by
  unfold recCompAlgo1
  split
  case h_1 i hi => exact round_recIntraSM (lastIdx?_lt hi)
  case h_2 => exact .push

/-- A round of any of the algorithms. -/
theorem recCompRun_cases (cfg : Config) (new : Packet) (buffer : List RecPacket) :
    Round new buffer (recCompRun cfg new buffer) := by
  unfold recCompRun
  split_ifs
  · cases cfg.recCompAlgo with
    | sameSmPkt => exact round_recCompAlgo1
    | diffSmPkt => exact round_recInterSM .push
    | sameDiffSmPkt =>
        dsimp only
        unfold recCompAlgo3
        split
        case h_1 i hi => exact round_recIntraSM (lastIdx?_lt hi)
        case h_2 => exact round_recInterSM .push
    | diffSameSmPkt => exact round_recInterSM round_recCompAlgo1
  · exact .push

theorem replies_round {buffer' : List RecPacket} (h : Round new buffer buffer') :
    (buffer'.flatMap RecPacket.replies).Perm (new :: buffer.flatMap RecPacket.replies) := by
  cases h with
  | push =>
      rw [pushRecMemFetch, List.flatMap_append]
      exact List.perm_append_comm
  | @merge i h =>
      induction buffer generalizing i with
      | nil => cases h
      | cons e buffer ih =>
          cases i with
          | zero =>
              rw [List.modify_zero_cons, List.flatMap_cons, List.flatMap_cons, ← List.cons_append]
              exact (replies_mergeMf new e).append_right _
          | succ i =>
              rw [List.modify_succ_cons, List.flatMap_cons, List.flatMap_cons]
              exact ((ih (Nat.lt_of_succ_lt_succ h)).append_left _).trans List.perm_middle

theorem sameSM_round {buffer' : List RecPacket} (hround : Round new buffer buffer')
    (h : ∀ e ∈ buffer, e.SameSM) : ∀ e ∈ buffer', e.SameSM := by
  cases hround with
  | push =>
      intro e he
      rcases List.mem_append.1 he with he | he
      · exact h e he
      · obtain rfl := List.mem_singleton.1 he
        exact ⟨fun _ hm => (List.not_mem_nil hm).elim, fun _ hg => (List.not_mem_nil hg).elim⟩
  | @merge i hi =>
      intro e he
      obtain ⟨k, hk⟩ := List.mem_iff_getElem?.1 he
      rw [List.getElem?_modify] at hk
      obtain ⟨e₀, he₀, rfl⟩ := Option.map_eq_some_iff.1 hk
      have h₀ := h e₀ (List.mem_of_getElem? he₀)
      split_ifs
      · exact sameSM_mergeMf h₀
      · exact h₀

end Merge

/-! ## Runs -/

/-- What happens to the buffer.  Every round has its own algorithm and its own outcome of the comparisons of
the data and the sizes. -/
inductive ForestEvent
  | push (mf : Packet)
  | run (cfg : Config) (mf : Packet)
  | del (mf : Packet)
  | pop

/-- The buffer, the replies that were pushed, and the packets that were taken out. -/
structure Forest where
  buffer : List RecPacket := []
  pushed : List Packet := []
  popped : List RecPacket := []

/-- `hpcl_rec_comp_buffer::del_mem_fetch`, with the packet; `none` when the assertion fails. -/
def delMemFetch (mf : Packet) : List RecPacket → Option (RecPacket × List RecPacket)
  | [] => none
  | e :: buffer =>
      if e.mf = mf then some (e, buffer)
      else (delMemFetch mf buffer).map fun r => (r.1, e :: r.2)

namespace Forest

/-- The buffer after an event, with the packets that have come and gone. -/
def next (s : Forest) : ForestEvent → Option Forest
  | .push mf => some { s with buffer := pushRecMemFetch s.buffer mf, pushed := s.pushed ++ [mf] }
  | .run cfg mf => some { s with buffer := recCompRun cfg mf s.buffer, pushed := s.pushed ++ [mf] }
  | .del mf => (delMemFetch mf s.buffer).map fun r =>
      { s with buffer := r.2, popped := s.popped ++ [r.1] }
  | .pop =>
      match s.buffer with
      | [] => none
      | e :: buffer => some { s with buffer, popped := s.popped ++ [e] }

/-- Every reply that was pushed is in one place, and same-SM lists hold replies to that SM. -/
structure Conserved (s : Forest) : Prop where
  perm : ((s.popped ++ s.buffer).flatMap RecPacket.replies).Perm s.pushed
  sameSM : ∀ e ∈ s.popped ++ s.buffer, e.SameSM

variable {s s' : Forest} {mf : Packet} {e : RecPacket} {buffer : List RecPacket}

theorem delMemFetch_perm {old : List RecPacket} (h : delMemFetch mf old = some (e, buffer)) :
    old.Perm (e :: buffer) := by
  induction old generalizing buffer with
  | nil => cases h
  | cons e₀ old ih =>
      unfold delMemFetch at h
      split at h
      · obtain ⟨rfl, rfl⟩ := Prod.mk.inj (Option.some.inj h)
        exact List.Perm.refl _
      · obtain ⟨⟨e₁, rest⟩, hrest, heq⟩ := Option.map_eq_some_iff.1 h
        obtain ⟨rfl, rfl⟩ := Prod.mk.inj heq
        exact ((ih hrest).cons e₀).trans (List.Perm.swap e₁ e₀ rest)

/-- A reply enters. -/
theorem Conserved.round (h : s.Conserved) (hround : Round mf s.buffer buffer) :
    Conserved { s with buffer, pushed := s.pushed ++ [mf] } := by
  constructor
  · have hreplies := replies_round hround
    have hold := h.perm
    rw [List.flatMap_append] at hold ⊢
    calc s.popped.flatMap RecPacket.replies ++ buffer.flatMap RecPacket.replies
      _ |>.Perm (s.popped.flatMap RecPacket.replies ++
            (mf :: s.buffer.flatMap RecPacket.replies)) := hreplies.append_left _
      _ |>.Perm (mf :: s.pushed) := List.perm_middle.trans (hold.cons mf)
      _ |>.Perm (s.pushed ++ [mf]) := (List.perm_append_singleton mf s.pushed).symm
  · have hbuffer := sameSM_round hround fun e he => h.sameSM e (List.mem_append_right _ he)
    intro e he
    rcases List.mem_append.1 he with he | he
    · exact h.sameSM e (List.mem_append_left _ he)
    · exact hbuffer e he

/-- A packet leaves. -/
theorem Conserved.leave (h : s.Conserved) (hperm : s.buffer.Perm (e :: buffer)) :
    Conserved { s with buffer, popped := s.popped ++ [e] } := by
  have hall : (s.popped ++ [e] ++ buffer).Perm (s.popped ++ s.buffer) := by
    rw [List.append_assoc]
    exact hperm.symm.append_left _
  constructor
  · exact (hall.flatMap_right _).trans h.perm
  · exact fun x hx => h.sameSM x (hall.mem_iff.1 hx)

theorem conserved_next {event : ForestEvent} (h : s.Conserved) (hnext : s.next event = some s') :
    s'.Conserved := by
  cases event with
  | push mf =>
      obtain rfl := Option.some.inj hnext
      exact h.round .push
  | run cfg mf =>
      obtain rfl := Option.some.inj hnext
      exact h.round (recCompRun_cases cfg mf s.buffer)
  | del mf =>
      obtain ⟨⟨e, buffer⟩, hdel, rfl⟩ := Option.map_eq_some_iff.1 hnext
      exact h.leave (delMemFetch_perm hdel)
  | pop =>
      cases hbuffer : s.buffer with
      | nil =>
          rw [next, hbuffer] at hnext
          cases hnext
      | cons e buffer =>
          rw [next, hbuffer] at hnext
          obtain rfl := Option.some.inj hnext
          exact h.leave (List.Perm.of_eq hbuffer)

theorem conserved_reach {events : List ForestEvent}
    (h : Reach (· = {}) (fun s e s' => s.next e = some s') events s) : s.Conserved := by
  apply h.invariant (fun _ s => s.Conserved)
  · rintro s rfl
    exact ⟨List.Perm.refl _, fun e he => (List.not_mem_nil he).elim⟩
  · exact fun _ s e s' _ hs hstep => conserved_next hs hstep

/-- **Merging neither loses nor doubles a reply.**  After every run the places of the forest, in the buffer
and in the packets that were taken out, hold the replies that were pushed, each once; and a packet brings
each of its replies, once, to the SM of that reply. -/
theorem forest_conserves {events : List ForestEvent}
    (h : Reach (· = {}) (fun s e s' => s.next e = some s') events s) :
    ((s.popped ++ s.buffer).flatMap RecPacket.replies).Perm s.pushed ∧
      (s.pushed.Nodup → ∀ mf ∈ s.pushed,
        ((s.popped ++ s.buffer).flatMap RecPacket.replies).count mf = 1) ∧
      ∀ e ∈ s.popped ++ s.buffer, e.flatten.map Prod.snd = e.replies ∧ ∀ r ∈ e.flatten, r.1 = r.2.tpc := by
  have hs := conserved_reach h
  refine ⟨hs.perm, ?_, fun e he => ⟨e.flatten_snd, (hs.sameSM e he).flatten⟩⟩
  intro hnodup mf hmf
  rw [hs.perm.count_eq]
  exact List.count_eq_one_of_mem hnodup hmf

/-- Every merge that is possible is done. -/
def mergeAll : Config where
  compAlgo := .bdiWordMatching
  compWordSize := 0
  dscLwmCompCycle := 1
  compBufferSize := 8
  recCompEn := true
  recCompAlgo := .diffSmPkt
  recCompBufferSize := 8
  fitsIntraSM := fun _ _ => true
  fitsInterSM := fun _ _ => true
  sameData := fun _ _ => true

/-- A reply to an SM is merged into one to another SM, and takes a third one. -/
theorem forest_conserves_mergeAll : ∃ s : Forest,
    Reach (· = {}) (fun s e s' => s.next e = some s')
      [.run mergeAll (.reply ⟨0, .globalAccR, false, 0⟩), .run mergeAll (.reply ⟨1, .globalAccR, false, 1⟩),
        .run mergeAll (.reply ⟨2, .globalAccR, false, 1⟩), .pop] s ∧
      s.popped.map RecPacket.flatten =
        [[(0, .reply ⟨0, .globalAccR, false, 0⟩), (1, .reply ⟨1, .globalAccR, false, 1⟩),
          (1, .reply ⟨2, .globalAccR, false, 1⟩)]] ∧
      ((s.popped ++ s.buffer).flatMap RecPacket.replies).Perm s.pushed := by
  have h : Reach (· = {}) (fun s e s' => s.next e = some s') [] ({} : Forest) := .start rfl
  have h := h.step (e := .run mergeAll (.reply ⟨0, .globalAccR, false, 0⟩)) rfl
  have h := h.step (e := .run mergeAll (.reply ⟨1, .globalAccR, false, 1⟩)) rfl
  have h := h.step (e := .run mergeAll (.reply ⟨2, .globalAccR, false, 1⟩)) rfl
  have h := h.step (e := .pop) rfl
  exact ⟨_, h, rfl, (forest_conserves h).1⟩

end Forest

end CompressionWork.Reply
