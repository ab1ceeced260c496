import CompressionWork.Reply.Compressor
import Mathlib.Algebra.BigOperators.Group.List.Basic
import Mathlib.Data.List.Induction

/-!
# The capacity of the compression and the recompression buffer

* `Bounded` — neither buffer has more entries than `create` was given.
* `mfNo_recCompRun` — the recompressor adds at most one to what its buffer's space check counts.
* `length_compress` — a cycle adds at most one entry to the compression buffer, with FPH two.
* `bounded_iff` — the bound holds throughout a run if and only if FPH never hands out a packet with
  exactly one place left.
-/

namespace CompressionWork.Reply

open CompressionWork.Transition

/-- Neither buffer has more entries than the size given to `create`. -/
def Bounded (cfg : Config) (s : State) : Prop :=
  s.compBuffer.length ≤ cfg.compBufferSize ∧ s.recCompBuffer.length ≤ cfg.recCompBufferSize

/-- The compressor stage may not run FPH's pipeline with a packet in its last stage and exactly one
place left. -/
def Fits (cfg : Config) (s : State) : Prop :=
  cfg.compAlgo = .fphWordMatching → s.pipelines .fph 0 ≠ none →
    (∀ mf, (top s.l2IcntQueue).1 = some mf → isDataRetrievable mf = true) →
      s.compBuffer.length + 1 ≠ cfg.compBufferSize

variable {cfg : Config} {s : State}

/-! ## The recompression buffer -/

/-- What the space check counts for one entry. -/
def RecPacket.mfNo (e : RecPacket) : ℕ := 1 + e.mergedToSameSM.length + e.merged.length

theorem length_mergeInto (new : Packet) (merged : List (Packet × List Packet)) :
    (mergeInto new merged).length ≤ merged.length + 1 := by
  induction merged with
  | nil => simp [mergeInto]
  | cons e merged ih =>
      unfold mergeInto
      split
      · simp
      · simpa using ih

theorem mfNo_mergeMf (new : Packet) (prev : RecPacket) :
    (mergeMf new prev).mfNo ≤ prev.mfNo + 1 := by
  unfold mergeMf RecPacket.mfNo
  split
  · simp
    omega
  · have := length_mergeInto new prev.merged
    dsimp only
    omega

theorem mfNo_cons (e : RecPacket) (buffer : List RecPacket) :
    mfNo (e :: buffer) = e.mfNo + mfNo buffer := by
  simp [mfNo, RecPacket.mfNo]

theorem length_le_mfNo (buffer : List RecPacket) : buffer.length ≤ mfNo buffer := by
  induction buffer with
  | nil => simp
  | cons e buffer ih =>
      rw [mfNo_cons, List.length_cons, RecPacket.mfNo]
      omega

theorem mfNo_tail (buffer : List RecPacket) : mfNo buffer.tail ≤ mfNo buffer := by
  cases buffer with
  | nil => exact Nat.le_refl _
  | cons e buffer =>
      rw [List.tail_cons, mfNo_cons]
      omega

theorem mfNo_push (buffer : List RecPacket) (new : Packet) :
    mfNo (pushRecMemFetch buffer new) = mfNo buffer + 1 := by
  simp [mfNo, pushRecMemFetch]

theorem mfNo_modify (new : Packet) (i : ℕ) (buffer : List RecPacket) :
    mfNo (buffer.modify i (mergeMf new)) ≤ mfNo buffer + 1 := by
  induction buffer generalizing i with
  | nil => simp [mfNo]
  | cons e buffer ih =>
      cases i with
      | zero =>
          have := mfNo_mergeMf new e
          rw [List.modify_zero_cons, mfNo_cons, mfNo_cons]
          omega
      | succ i =>
          have := ih i
          rw [List.modify_succ_cons, mfNo_cons, mfNo_cons]
          omega

theorem mfNo_recIntraSM (new : Packet) (i : ℕ) (buffer : List RecPacket) :
    mfNo (recIntraSM cfg new i buffer) ≤ mfNo buffer + 1 := by
  unfold recIntraSM
  split
  · exact mfNo_modify new i buffer
  · exact Nat.le_of_eq (mfNo_push buffer new)

theorem mfNo_recCompAlgo1 (new : Packet) (buffer : List RecPacket) :
    mfNo (recCompAlgo1 cfg new buffer) ≤ mfNo buffer + 1 := by
  unfold recCompAlgo1
  split
  · exact mfNo_recIntraSM ..
  · exact Nat.le_of_eq (mfNo_push buffer new)

theorem mfNo_recInterSM {new : Packet} {buffer : List RecPacket} {other : List RecPacket}
    (hother : mfNo other ≤ mfNo buffer + 1) :
    mfNo ((recInterSM cfg new buffer).getD other) ≤ mfNo buffer + 1 := by
  unfold recInterSM
  split
  · split
    · exact mfNo_modify ..
    · exact hother
  · exact hother

theorem mfNo_recCompAlgo2 (new : Packet) (buffer : List RecPacket) :
    mfNo (recCompAlgo2 cfg new buffer) ≤ mfNo buffer + 1 :=
  mfNo_recInterSM (Nat.le_of_eq (mfNo_push buffer new))

/-- **Recompression adds at most one** to what the space check counts. -/
theorem mfNo_recCompRun (new : Packet) (buffer : List RecPacket) :
    mfNo (recCompRun cfg new buffer) ≤ mfNo buffer + 1 := by
  unfold recCompRun
  split
  · split
    · exact mfNo_recCompAlgo1 ..
    · exact mfNo_recCompAlgo2 ..
    · unfold recCompAlgo3
      split
      · exact mfNo_recIntraSM ..
      · exact mfNo_recCompAlgo2 ..
    · exact mfNo_recInterSM (mfNo_recCompAlgo1 ..)
  · exact Nat.le_of_eq (mfNo_push buffer new)

/-- The space check of the recompression buffer bounds it in every stage. -/
theorem mfNo_exec1 (h : mfNo s.recCompBuffer ≤ cfg.recCompBufferSize) (stage : Stage)
    (hpass : (passMf cfg s).recCompBuffer = s.recCompBuffer) :
    mfNo (exec1 cfg s stage).recCompBuffer ≤ cfg.recCompBufferSize := by
  cases stage with
  | l2 mf => exact h
  | pass =>
      rw [exec1, hpass]
      exact h
  | recComp =>
      simp only [exec1]
      split
      · unfold passRecComp
        split
        · exact h
        · split
          · rename_i hspace
            have hspace := of_decide_eq_true hspace
            exact Nat.le_trans (mfNo_recCompRun ..) hspace
          · exact h
      · exact h
  | icnt =>
      simp only [exec1]
      split
      · exact Nat.le_trans (mfNo_tail _) h
      · exact h

/-! ## The compression buffer -/

/-- The number of packets a branch pushes. -/
theorem length_compress (cfg : Config) (mf : Option MemFetch) (s : State) :
    (compress cfg mf s).compBuffer.length = s.compBuffer.length +
      (cfg.branch.head?.bind (output cfg mf s)).toList.length *
        (if cfg.compAlgo = .fphWordMatching then 2 else 1) := by
  rw [compress_eq, List.length_append]
  cases cfg.branch.head?.bind (output cfg mf s) with
  | none => simp
  | some retMf =>
      simp only [Option.toList_some, List.flatMap_cons, List.flatMap_nil, List.append_nil,
        List.length_singleton, Nat.one_mul, Nat.add_left_cancel_iff]
      unfold outputPackets
      cases cfg.compAlgo <;> rfl

/-- FPH hands out what is in the last stage of its pipeline. -/
theorem output_fph (mf : Option MemFetch) (h : cfg.compAlgo = .fphWordMatching) :
    cfg.branch.head?.bind (output cfg mf s) = s.pipelines .fph 0 := by
  rw [Config.branch, h]
  exact (run_moved (by decide : 2 ≤ 7) (Or.inl rfl)).output (by decide)

/-- What a cycle of the compressor does to the two buffers. -/
theorem passMf_buffers (cfg : Config) (s : State) :
    (passMf cfg s).recCompBuffer = s.recCompBuffer ∧
      ((passMf cfg s).compBuffer.length = s.compBuffer.length ∨
        s.compBuffer.length < cfg.compBufferSize ∧
          ((passMf cfg s).compBuffer.length = s.compBuffer.length + 1 ∨
            cfg.compAlgo = .fphWordMatching ∧ s.pipelines .fph 0 ≠ none ∧
              (∀ mf, (top s.l2IcntQueue).1 = some mf → isDataRetrievable mf = true) ∧
              (passMf cfg s).compBuffer.length = s.compBuffer.length + 2)) := by
  have hbranch : ∀ mf, (compress cfg mf s.topped).pop.compBuffer.length = s.compBuffer.length ∨
      (compress cfg mf s.topped).pop.compBuffer.length = s.compBuffer.length + 1 ∨
        cfg.compAlgo = .fphWordMatching ∧ s.pipelines .fph 0 ≠ none ∧
          (compress cfg mf s.topped).pop.compBuffer.length = s.compBuffer.length + 2 := by
    intro mf
    have hlen := length_compress cfg mf s.topped
    change (compress cfg mf s.topped).pop.compBuffer.length = s.compBuffer.length + _ at hlen
    cases hout : cfg.branch.head?.bind (output cfg mf s.topped) with
    | none =>
        rw [hout] at hlen
        exact Or.inl (by simpa using hlen)
    | some retMf =>
        rw [hout] at hlen
        by_cases hfph : cfg.compAlgo = .fphWordMatching
        · rw [output_fph mf hfph] at hout
          rw [if_pos hfph] at hlen
          refine Or.inr (Or.inr ⟨hfph, ?_, hlen⟩)
          rw [show s.pipelines .fph 0 = some retMf from hout]
          exact Option.some_ne_none retMf
        · rw [if_neg hfph] at hlen
          exact Or.inr (Or.inl hlen)
  have hrec : ∀ mf, (compress cfg mf s.topped).pop.recCompBuffer = s.recCompBuffer := by
    intro mf
    rw [compress_eq]
    rfl
  cases hspace : hasCompBufferSpace cfg s with
  | false =>
      rw [passMf_of_not_space hspace]
      exact ⟨rfl, Or.inl rfl⟩
  | true =>
      have hroom := of_decide_eq_true hspace
      cases htop : (top s.l2IcntQueue).1 with
      | none =>
          rw [passMf_of_none hspace htop]
          refine ⟨hrec none, ?_⟩
          rcases hbranch none with h | h | ⟨h1, h2, h3⟩
          · exact Or.inl h
          · exact Or.inr ⟨hroom, Or.inl h⟩
          · exact Or.inr ⟨hroom, Or.inr ⟨h1, h2, nofun, h3⟩⟩
      | some mf =>
          rw [passMf_of_some hspace htop]
          cases hdata : isDataRetrievable mf with
          | false =>
              -- the packet goes past the pipeline, which stands still
              rw [if_neg Bool.false_ne_true]
              refine ⟨rfl, Or.inr ⟨hroom, Or.inl ?_⟩⟩
              change (s.compBuffer ++ [_]).length = _
              rw [List.length_append]
              rfl
          | true =>
              rw [if_pos rfl]
              refine ⟨hrec (some mf), ?_⟩
              rcases hbranch (some mf) with h | h | ⟨h1, h2, h3⟩
              · exact Or.inl h
              · exact Or.inr ⟨hroom, Or.inl h⟩
              · refine Or.inr ⟨hroom, Or.inr ⟨h1, h2, fun mf' hmf' => ?_, h3⟩⟩
                rw [← Option.some.inj hmf', hdata]

/-! ## Runs -/

/-- **The recompression buffer** never exceeds its size, whatever the run. -/
theorem mfNo_exec (cfg : Config) (stages : List Stage) :
    mfNo (exec cfg stages).recCompBuffer ≤ cfg.recCompBufferSize := by
  induction stages using List.reverseRecOn with
  | nil => exact Nat.zero_le _
  | append_singleton stages stage ih =>
      rw [exec_concat]
      exact mfNo_exec1 ih stage (passMf_buffers cfg _).1

theorem bounded_init (cfg : Config) : Bounded cfg State.init :=
  ⟨Nat.zero_le _, Nat.zero_le _⟩

/-- One stage keeps the bound if and only if it is not FPH's two entries for one place. -/
theorem length_exec1_le (h : s.compBuffer.length ≤ cfg.compBufferSize) (stage : Stage) :
    (exec1 cfg s stage).compBuffer.length ≤ cfg.compBufferSize ∨ stage = .pass ∧ ¬ Fits cfg s := by
  cases stage with
  | l2 mf => exact Or.inl h
  | pass =>
      rcases (passMf_buffers cfg s).2 with hlen | ⟨hroom, hlen | ⟨h1, h2, h3, hlen⟩⟩
      · exact Or.inl (Nat.le_trans (Nat.le_of_eq hlen) h)
      · exact Or.inl (Nat.le_trans (Nat.le_of_eq hlen) hroom)
      · by_cases hone : s.compBuffer.length + 1 = cfg.compBufferSize
        · exact Or.inr ⟨rfl, fun hfits => hfits h1 h2 h3 hone⟩
        · refine Or.inl ?_
          simp only [exec1]
          omega
  | recComp =>
      refine Or.inl ?_
      simp only [exec1]
      split
      · unfold passRecComp
        split
        · exact h
        · rename_i hbuf
          rw [hbuf, List.length_cons] at h
          split
          · dsimp only
            omega
          · rw [hbuf, List.length_cons]
            exact h
      · exact h
  | icnt =>
      refine Or.inl ?_
      simp only [exec1]
      split
      · exact h
      · dsimp only
        rw [List.length_tail]
        omega

/-- FPH's two entries for one place. -/
theorem length_passMf_of_not_fits (h : ¬ Fits cfg s) :
    (passMf cfg s).compBuffer.length = cfg.compBufferSize + 1 := by
  simp only [Fits, Classical.not_imp, not_not] at h
  obtain ⟨hfph, hlast, hhead, hone⟩ := h
  have hspace : hasCompBufferSpace cfg s = true := decide_eq_true (by omega)
  obtain ⟨retMf, hret⟩ := Option.ne_none_iff_exists'.1 hlast
  have hbranch : ∀ mf, (compress cfg mf s.topped).pop.compBuffer.length = cfg.compBufferSize + 1 := by
    intro mf
    have hlen := length_compress cfg mf s.topped
    rw [output_fph mf hfph, show s.topped.pipelines .fph 0 = some retMf from hret, if_pos hfph] at hlen
    change (compress cfg mf s.topped).pop.compBuffer.length = s.compBuffer.length + 2 at hlen
    omega
  cases htop : (top s.l2IcntQueue).1 with
  | none =>
      rw [passMf_of_none hspace htop]
      exact hbranch none
  | some mf =>
      rw [passMf_of_some hspace htop, if_pos (hhead mf htop)]
      exact hbranch (some mf)

/-- **When the buffers keep their bound**: the bound holds in every state of a run if and only if every
cycle of the compressor finds the places for what it pushes. -/
theorem bounded_iff (cfg : Config) (stages : List Stage) :
    (∀ before after, stages = before ++ after → Bounded cfg (exec cfg before)) ↔
      ∀ before after, stages = before ++ .pass :: after → Fits cfg (exec cfg before) := by
  refine ⟨fun h before after hsplit => ?_, fun h before => ?_⟩
  · by_contra hfits
    have hbound := (h (before ++ [.pass]) after (by rw [hsplit, List.append_assoc]; rfl)).1
    rw [exec_concat, exec1, length_passMf_of_not_fits hfits] at hbound
    omega
  · induction before using List.reverseRecOn with
    | nil => exact fun _ _ => bounded_init cfg
    | append_singleton before stage ih =>
        intro after hsplit
        rw [List.append_assoc] at hsplit
        have hbound := ih ([stage] ++ after) hsplit
        refine ⟨?_, Nat.le_trans (length_le_mfNo _) (mfNo_exec cfg _)⟩
        rw [exec_concat]
        rcases length_exec1_le hbound.1 stage with hle | ⟨rfl, hfits⟩
        · exact hle
        · exact absurd (h before after hsplit) hfits

/-- FPH with the buffer size of the default configuration. -/
def fphConfig : Config :=
  ⟨.fphWordMatching, 4, 1, 1, false, .sameSmPkt, 1, fun _ _ => true, fun _ _ => true,
    fun _ _ => false⟩

/-- Seven cycles after a read reply has come, it and its control message are in a buffer of one
entry. -/
theorem not_bounded_fph :
    ∃ cfg : Config, cfg.Builds ∧ ∃ stages, ¬ Bounded cfg (exec cfg stages) := by
  refine ⟨fphConfig, trivial, .l2 ⟨0, .globalAccR, false, 0⟩ :: List.replicate 7 .pass, fun h => ?_⟩
  have hlen := h.1
  revert hlen
  decide

end CompressionWork.Reply
