import Mathlib

/-!
# The sizes of merged replies

`rec_comp_method_for_intra_sm` and `rec_comp_method_for_inter_sm` check whether a merged packet still
fits, and then record its size in `m_rec_comp_merged_pkt_bits`, by separate expressions.

* `intraSM`, `interSM`, `recCompRun` — the translation, with the sizes.
* `Entry.Charged` — the recorded size is what was merged, payload and control bits.
* `run_charged_iff` — exactly the runs without a merge that is not recorded in full.
-/

namespace CompressionWork.Reply.Charge

open CompressionWork.Reply

/-- `enum inter_comp_algo_type` -/
inductive Algo
  | sameSmPkt
  | diffSmPkt
  | sameDiffSmPkt
  | diffSameSmPkt
  deriving DecidableEq, Repr

/-- A reply: `get_tpc`, its real data, `get_comp_data_bits` and `get_ctrl_size`. -/
structure Mf where
  tpc : ℕ
  data : List ℕ
  compDataBits : ℕ
  ctrlSize : ℕ
  deriving DecidableEq, Repr

/-- A merged reply: the payload bits that `set_rec_comp_data_bits` records on it, and the control bits that
the check charged for it. -/
structure Merged where
  mf : Mf
  recCompDataBits : ℕ
  ctrlBits : ℕ
  deriving DecidableEq, Repr

/-- An entry of the recompression buffer: `m_rec_comp_merged_pkt_bits`, `m_merged_mfs_to_same_SM`, and
`m_merged_mfs`, each with those merged into it. -/
structure Entry where
  mf : Mf
  recCompMergedPktBits : ℕ
  sameSM : List Merged
  merged : List (Merged × List Merged)
  deriving DecidableEq, Repr

/-- `hpcl_rec_comp_algo`, and `m_max_comp_data_size` in bytes. -/
structure Config where
  algo : Algo
  maxCompDataSize : ℕ

/-! ## Merging -/

/-- The first of the replies merged into an entry that goes to the same SM takes the new one. -/
def mergeInto (new : Merged) : List (Merged × List Merged) → List (Merged × List Merged)
  | [] => [(new, [])]
  | e :: merged =>
      if e.1.mf.tpc = new.mf.tpc then (e.1, e.2 ++ [new]) :: merged else e :: mergeInto new merged

/-- `merge_mf`, and the bits that are added to the size of the entry. -/
def Entry.merge (new : Merged) (bits : ℕ) (prev : Entry) : Entry :=
  let prev := { prev with recCompMergedPktBits := prev.recCompMergedPktBits + bits }
  if prev.mf.tpc = new.mf.tpc then { prev with sameSM := prev.sameSM ++ [new] }
  else { prev with merged := mergeInto new prev.merged }

/-- The size of the entry in bytes when `cur` bits are merged into it, as both checks compute it. -/
def Entry.byteSize (prev : Entry) (cur : ℕ) : ℕ :=
  (prev.recCompMergedPktBits + (prev.mf.compDataBits + prev.mf.ctrlSize * 8) + cur + 7) / 8

/-- The address of a merged reply is kept, its packet header is not. -/
def Mf.addrBits (new : Mf) : ℕ := new.ctrlSize * 8 / 2

/-- `compare_data` with the entry or one of the replies to the same SM merged into it. -/
def Entry.sameData (prev : Entry) (new : Mf) : Bool :=
  prev.mf.data == new.data || prev.sameSM.any fun m => m.mf.data == new.data

/-- `cur_comp_pkt_bits` in `rec_comp_method_for_intra_sm`. -/
def intraBits (prev : Entry) (new : Mf) : ℕ :=
  if prev.sameData new then new.addrBits else new.compDataBits + new.addrBits

/-- The last entry with a property: both searches run over the buffer from its end. -/
def lastIdx? (p : Entry → Bool) (buffer : List Entry) : Option ℕ :=
  (List.range buffer.length).reverse.find? fun i => (buffer[i]?).any p

/-- `get_mem_fetch_to_same_sm` -/
def toSameSM (sm : ℕ) (e : Entry) : Bool :=
  !e.mf.data.isEmpty && e.mf.tpc == sm && e.merged.isEmpty

/-- `get_mem_fetch_to_diff_sm` -/
def toDiffSM (sm : ℕ) (e : Entry) : Bool :=
  !e.mf.data.isEmpty && e.mf.tpc != sm && e.sameSM.isEmpty

/-- `push_mem_fetch` -/
def push (buffer : List Entry) (new : Mf) : List Entry := buffer ++ [⟨new, 0, [], []⟩]

/-- The entry that takes the reply in `rec_comp_method_for_intra_sm`, when it fits. -/
def intraTarget (cfg : Config) (new : Mf) (buffer : List Entry) : Option (ℕ × Entry) :=
  (lastIdx? (toSameSM new.tpc) buffer).bind fun i => (buffer[i]?).bind fun prev =>
    if prev.byteSize (intraBits prev new) ≤ cfg.maxCompDataSize then some (i, prev) else none

/-- `rec_comp_method_for_intra_sm` -/
def intraSM (new : Mf) (i : ℕ) (prev : Entry) (buffer : List Entry) : List Entry :=
  buffer.modify i (Entry.merge
    ⟨new, if prev.sameData new then 1 else new.compDataBits, new.addrBits⟩ (intraBits prev new))

/-- The entry that takes the reply in `rec_comp_method_for_inter_sm`, when it fits; 2 bits index the
data. -/
def interTarget (cfg : Config) (new : Mf) (buffer : List Entry) : Option (ℕ × Entry) :=
  (lastIdx? (fun e => toDiffSM new.tpc e && e.mf.data == new.data) buffer).bind fun i =>
    (buffer[i]?).bind fun prev =>
      if prev.byteSize (2 + new.addrBits) ≤ cfg.maxCompDataSize then some (i, prev) else none

/-- `rec_comp_method_for_inter_sm` -/
def interSM (new : Mf) (i : ℕ) (buffer : List Entry) : List Entry :=
  buffer.modify i (Entry.merge ⟨new, 2, new.addrBits⟩ 2)

/-- What becomes of a reply. -/
inductive Fate
  | push
  | intra (i : ℕ) (prev : Entry)
  | inter (i : ℕ) (prev : Entry)

/-- `rec_comp_algo1_proc` -/
def algo1 (cfg : Config) (new : Mf) (buffer : List Entry) : Fate :=
  match intraTarget cfg new buffer with
  | some (i, prev) => .intra i prev
  | none => .push

/-- `rec_comp_algo2_proc` -/
def algo2 (cfg : Config) (new : Mf) (buffer : List Entry) : Fate :=
  match interTarget cfg new buffer with
  | some (i, prev) => .inter i prev
  | none => .push

/-- `rec_comp_algo3_proc`: a reply that does not fit to its SM is pushed. -/
def algo3 (cfg : Config) (new : Mf) (buffer : List Entry) : Fate :=
  match lastIdx? (toSameSM new.tpc) buffer with
  | some _ => algo1 cfg new buffer
  | none => algo2 cfg new buffer

/-- `rec_comp_algo4_proc` -/
def algo4 (cfg : Config) (new : Mf) (buffer : List Entry) : Fate :=
  match interTarget cfg new buffer with
  | some (i, prev) => .inter i prev
  | none => algo1 cfg new buffer

/-- The branch of `hpcl_rec_comp_lwm_pl_proc::run`: only read replies are merged. -/
def fate (cfg : Config) (new : Mf) (buffer : List Entry) : Fate :=
  if new.data.isEmpty then .push
  else match cfg.algo with
    | .sameSmPkt => algo1 cfg new buffer
    | .diffSmPkt => algo2 cfg new buffer
    | .sameDiffSmPkt => algo3 cfg new buffer
    | .diffSameSmPkt => algo4 cfg new buffer

/-- `hpcl_rec_comp_lwm_pl_proc::run` -/
def recCompRun (cfg : Config) (new : Mf) (buffer : List Entry) : List Entry :=
  match fate cfg new buffer with
  | .push => push buffer new
  | .intra i prev => intraSM new i prev buffer
  | .inter i _ => interSM new i buffer

/-- A reply that is fed, or a packet that the interconnect takes. -/
inductive Event
  | feed (new : Mf)
  | icnt

/-- The buffer after a new packet, or after the interconnect has taken one. -/
def next (cfg : Config) (buffer : List Entry) : Event → List Entry
  | .feed new => recCompRun cfg new buffer
  | .icnt => buffer.tail

/-! ## What the sizes are for -/

/-- All replies nested in an entry. -/
def Entry.nested (e : Entry) : List Merged := e.sameSM ++ e.merged.flatMap fun m => m.1 :: m.2

/-- The payload bits recorded on the nested replies, and the control bits the checks charged for them. -/
def Entry.nestedBits (e : Entry) : ℕ := (e.nested.map fun m => m.recCompDataBits + m.ctrlBits).sum

/-- The recorded size is that of the nested replies, and a merged packet is not too large. -/
def Entry.Charged (cfg : Config) (e : Entry) : Prop :=
  e.recCompMergedPktBits = e.nestedBits ∧ (e.nested ≠ [] → e.byteSize 0 ≤ cfg.maxCompDataSize)

/-- The states after each step are charged correctly. -/
def RunCharged (cfg : Config) : List Entry → List Event → Prop
  | _, [] => True
  | buffer, ev :: evs =>
      (∀ e ∈ next cfg buffer ev, e.Charged cfg) ∧ RunCharged cfg (next cfg buffer ev) evs

/-- The reply is not merged into a packet to another SM, unless its address has no bits, nor into one to the
same SM with the same data. -/
def Meets (cfg : Config) (buffer : List Entry) : Event → Prop
  | .icnt => True
  | .feed new =>
      match fate cfg new buffer with
      | .push => True
      | .intra _ prev => prev.sameData new = false
      | .inter _ _ => new.addrBits = 0

/-- Every step of the run meets the condition. -/
def RunMeets (cfg : Config) : List Entry → List Event → Prop
  | _, [] => True
  | buffer, ev :: evs => Meets cfg buffer ev ∧ RunMeets cfg (next cfg buffer ev) evs

section Charged

variable {cfg : Config} {buffer : List Entry} {new : Mf} {m : Merged} {prev e : Entry} {i bits cur : ℕ}

/-! ## One merge -/

theorem nestedBits_mergeInto (m : Merged) (l : List (Merged × List Merged)) :
    (((mergeInto m l).flatMap fun x => x.1 :: x.2).map fun x => x.recCompDataBits + x.ctrlBits).sum =
      ((l.flatMap fun x => x.1 :: x.2).map fun x => x.recCompDataBits + x.ctrlBits).sum +
        (m.recCompDataBits + m.ctrlBits) := by
  induction l with
  | nil => simp [mergeInto]
  | cons x l ih =>
      unfold mergeInto
      split
      · simp only [List.flatMap_cons, List.map_append, List.sum_append, List.map_cons, List.sum_cons,
          List.map_nil, List.sum_nil]
        omega
      · simp only [List.flatMap_cons, List.map_append, List.sum_append, List.map_cons, List.sum_cons, ih]
        omega

theorem nestedBits_merge (m : Merged) (bits : ℕ) (prev : Entry) :
    (prev.merge m bits).nestedBits = prev.nestedBits + (m.recCompDataBits + m.ctrlBits) := by
  unfold Entry.merge
  dsimp only
  split
  · simp only [Entry.nestedBits, Entry.nested, List.map_append, List.sum_append, List.map_cons,
      List.sum_cons, List.map_nil, List.sum_nil]
    omega
  · simp only [Entry.nestedBits, Entry.nested, List.map_append, List.sum_append, nestedBits_mergeInto]
    omega

theorem recBits_merge (m : Merged) (bits : ℕ) (prev : Entry) :
    (prev.merge m bits).recCompMergedPktBits = prev.recCompMergedPktBits + bits := by
  unfold Entry.merge
  dsimp only
  split <;> rfl

theorem mf_merge (m : Merged) (bits : ℕ) (prev : Entry) : (prev.merge m bits).mf = prev.mf := by
  unfold Entry.merge
  dsimp only
  split <;> rfl

/-- A merge that fits is charged correctly if and only if the bits added are those of the new reply. -/
theorem charged_merge_iff (h : prev.Charged cfg) (hfit : prev.byteSize cur ≤ cfg.maxCompDataSize)
    (hbits : bits ≤ cur) :
    (prev.merge m bits).Charged cfg ↔ bits = m.recCompDataBits + m.ctrlBits := by
  have hsize : (prev.merge m bits).byteSize 0 ≤ cfg.maxCompDataSize := by
    refine Nat.le_trans (Nat.div_le_div_right ?_) hfit
    rw [recBits_merge, mf_merge]
    omega
  unfold Entry.Charged
  rw [recBits_merge, nestedBits_merge, h.1]
  constructor
  · rintro ⟨heq, -⟩
    omega
  · rintro rfl
    exact ⟨rfl, fun _ => hsize⟩

/-! ## One step -/

theorem mem_modify_iff {f : Entry → Entry} (hi : buffer[i]? = some prev) (e : Entry) :
    e ∈ buffer.modify i f ↔ e = f prev ∨ ∃ j, j ≠ i ∧ buffer[j]? = some e := by
  have hget : ∀ j, (buffer.modify i f)[j]? = if j = i then some (f prev) else buffer[j]? := by
    intro j
    rw [List.getElem?_modify]
    by_cases hj : j = i
    · subst hj
      simp [hi]
    · simp [hj, Ne.symm hj]
  simp only [List.mem_iff_getElem?, hget]
  constructor
  · rintro ⟨j, hj⟩
    by_cases hji : j = i
    · rw [if_pos hji] at hj
      exact Or.inl (Option.some.inj hj).symm
    · rw [if_neg hji] at hj
      exact Or.inr ⟨j, hji, hj⟩
  · rintro (rfl | ⟨j, hji, hj⟩)
    · exact ⟨i, if_pos rfl⟩
    · exact ⟨j, by rwa [if_neg hji]⟩

theorem forall_modify_iff {f : Entry → Entry} (h : ∀ e ∈ buffer, e.Charged cfg)
    (hi : buffer[i]? = some prev) :
    (∀ e ∈ buffer.modify i f, e.Charged cfg) ↔ (f prev).Charged cfg := by
  constructor
  · exact fun hall => hall _ ((mem_modify_iff hi _).2 (Or.inl rfl))
  · intro hprev e he
    rcases (mem_modify_iff hi e).1 he with rfl | ⟨j, -, hj⟩
    · exact hprev
    · exact h e (List.mem_of_getElem? hj)

theorem intraTarget_spec (h : intraTarget cfg new buffer = some (i, prev)) :
    buffer[i]? = some prev ∧ prev.byteSize (intraBits prev new) ≤ cfg.maxCompDataSize := by
  simp only [intraTarget, Option.bind_eq_some_iff, Option.ite_none_right_eq_some, Option.some.injEq,
    Prod.mk.injEq] at h
  obtain ⟨j, -, p, hp, hfit, rfl, rfl⟩ := h
  exact ⟨hp, hfit⟩

theorem interTarget_spec (h : interTarget cfg new buffer = some (i, prev)) :
    buffer[i]? = some prev ∧ prev.byteSize (2 + new.addrBits) ≤ cfg.maxCompDataSize := by
  simp only [interTarget, Option.bind_eq_some_iff, Option.ite_none_right_eq_some, Option.some.injEq,
    Prod.mk.injEq] at h
  obtain ⟨j, -, p, hp, hfit, rfl, rfl⟩ := h
  exact ⟨hp, hfit⟩

theorem algo1_spec : (algo1 cfg new buffer = .push) ∨
    ∃ i prev, algo1 cfg new buffer = .intra i prev ∧ intraTarget cfg new buffer = some (i, prev) := by
  unfold algo1
  cases h : intraTarget cfg new buffer with
  | none => exact Or.inl rfl
  | some t => exact Or.inr ⟨t.1, t.2, rfl, rfl⟩

theorem algo2_spec : (algo2 cfg new buffer = .push) ∨
    ∃ i prev, algo2 cfg new buffer = .inter i prev ∧ interTarget cfg new buffer = some (i, prev) := by
  unfold algo2
  cases h : interTarget cfg new buffer with
  | none => exact Or.inl rfl
  | some t => exact Or.inr ⟨t.1, t.2, rfl, rfl⟩

/-- A reply is pushed, or merged into an entry of the buffer with which it fits. -/
theorem fate_spec (cfg : Config) (new : Mf) (buffer : List Entry) : fate cfg new buffer = .push ∨
    (∃ i prev, fate cfg new buffer = .intra i prev ∧ intraTarget cfg new buffer = some (i, prev)) ∨
    ∃ i prev, fate cfg new buffer = .inter i prev ∧ interTarget cfg new buffer = some (i, prev) := by
  unfold fate
  split
  · exact Or.inl rfl
  cases cfg.algo with
  | sameSmPkt => exact algo1_spec.imp_right Or.inl
  | diffSmPkt => exact algo2_spec.imp_right Or.inr
  | sameDiffSmPkt =>
      dsimp only [algo3]
      split
      · exact algo1_spec.imp_right Or.inl
      · exact algo2_spec.imp_right Or.inr
  | diffSameSmPkt =>
      dsimp only [algo4]
      cases h : interTarget cfg new buffer with
      | none => exact algo1_spec.imp_right Or.inl
      | some t => exact Or.inr (Or.inr ⟨t.1, t.2, rfl, rfl⟩)

/-- A step charges correctly if and only if it meets the condition. -/
theorem next_charged_iff (h : ∀ e ∈ buffer, e.Charged cfg) (ev : Event) :
    (∀ e ∈ next cfg buffer ev, e.Charged cfg) ↔ Meets cfg buffer ev := by
  cases ev with
  | icnt => exact iff_of_true (fun e he => h e (List.mem_of_mem_tail he)) trivial
  | feed new =>
      simp only [next, recCompRun, Meets]
      rcases fate_spec cfg new buffer with hf | ⟨i, prev, hf, ht⟩ | ⟨i, prev, hf, ht⟩ <;> rw [hf]
      · refine iff_of_true (fun e he => ?_) trivial
        rcases List.mem_append.1 he with he | he
        · exact h e he
        · rw [List.mem_singleton.1 he]
          exact ⟨rfl, fun hne => absurd rfl hne⟩
      · obtain ⟨hi, hfit⟩ := intraTarget_spec ht
        have hprev := h prev (List.mem_of_getElem? hi)
        dsimp only [intraSM]
        rw [forall_modify_iff h hi, charged_merge_iff hprev hfit (Nat.le_refl _)]
        unfold intraBits
        cases prev.sameData new <;> simp
      · obtain ⟨hi, hfit⟩ := interTarget_spec ht
        have hprev := h prev (List.mem_of_getElem? hi)
        dsimp only [interSM]
        rw [forall_modify_iff h hi, charged_merge_iff hprev hfit (Nat.le_add_right _ _)]
        dsimp only
        omega

theorem charged_iff (h : ∀ e ∈ buffer, e.Charged cfg) (evs : List Event) :
    RunCharged cfg buffer evs ↔ RunMeets cfg buffer evs := by
  induction evs generalizing buffer with
  | nil => exact Iff.rfl
  | cons ev evs ih =>
      have hstep := next_charged_iff h ev
      constructor
      · rintro ⟨hnext, hrest⟩
        exact ⟨hstep.1 hnext, (ih hnext).1 hrest⟩
      · rintro ⟨hmeets, hrest⟩
        exact ⟨hstep.2 hmeets, (ih (hstep.2 hmeets)).2 hrest⟩

/-- **A run records the sizes of its packets if and only if no reply is merged into a packet to another SM,
or into one to the same SM with the same data.** -/
theorem run_charged_iff (cfg : Config) (evs : List Event) : RunCharged cfg [] evs ↔ RunMeets cfg [] evs :=
  charged_iff (fun _ he => absurd he List.not_mem_nil) evs

/-- Two replies with the same data to different SMs: the check charges 2 bits and half of the control
information, the size records the 2 bits. -/
theorem not_charged :
    ¬ RunCharged ⟨.diffSmPkt, 1024⟩ [] [.feed ⟨0, [1], 8, 8⟩, .feed ⟨1, [1], 8, 8⟩] := by
  rintro ⟨-, hcharged, -⟩
  have h := (hcharged ⟨⟨0, [1], 8, 8⟩, 2, [], [(⟨⟨1, [1], 8, 8⟩, 2, 32⟩, [])]⟩ (by decide)).1
  exact absurd h (by decide)

end Charged

end CompressionWork.Reply.Charge
