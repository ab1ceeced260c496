import CompressionWork.Reply.Pipeline
import Mathlib

/-!
# The reply compressor of a memory sub-partition

`gpgpu_sim::push_mf_from_mc_to_icnt_in_crossbar_with_reply_compression` (`gpu-sim.cc`) for one
sub-partition: its stages share nothing with those of the other sub-partitions.

* `MemFetch`, `top`, `pop` — the L2-to-interconnect queue (`l2cache.cc`).
* `CompAlgo`, `Compressor` — the algorithms and the pipelines the constructor builds for them.
* `passMf` — `pass_mf_from_mem_partition_to_compressor`.
* `passRecComp` — `pass_mf_from_comp_buffer_to_rec_comp_in_crossbar`
  (`hpcl_rec_comp_lwm_pl_proc.cc`, `hpcl_rec_comp_buffer.cc`).
* `compress_eq`, `passMf_of_not_space`, `passMf_of_none`, `passMf_of_some` — what a cycle does.
* `exec` — the state after a sequence of stages, in any order.

The data of the packets is not here: the compressors hand the packet on whatever they make of its data.
An assertion that aborts the simulation only ends a run.
-/

namespace CompressionWork.Reply

open CompressionWork.Transition

/-! ## Packets and the L2-to-interconnect queue -/

/-- `enum mem_access_type` -/
inductive MemAccessType
  | globalAccR
  | localAccR
  | constAccR
  | textureAccR
  | globalAccW
  | localAccW
  | l1WrbkAcc
  | l2WrbkAcc
  | instAccR
  | l1WrAllocR
  | l2WrAllocR
  deriving DecidableEq, Repr

/-- `mem_fetch` -/
structure MemFetch where
  requestUid : ℕ
  accessType : MemAccessType
  isWrite : Bool
  tpc : ℕ
  deriving DecidableEq, Repr

/-- `mf->get_access_type() == L2_WRBK_ACC || mf->get_access_type() == L1_WRBK_ACC` -/
def MemFetch.isWrbk (mf : MemFetch) : Bool :=
  mf.accessType == .l2WrbkAcc || mf.accessType == .l1WrbkAcc

/-- `hpcl_comp::is_data_retrievable` -/
def isDataRetrievable (mf : MemFetch) : Bool :=
  mf.isWrite == false && (mf.accessType == .globalAccR || mf.accessType == .textureAccR)

/-- `memory_sub_partition::top`: a write-back at the head is removed, and nothing is returned. -/
def top : List MemFetch → Option MemFetch × List MemFetch
  | [] => (none, [])
  | mf :: queue => if mf.isWrbk then (none, queue) else (some mf, mf :: queue)

/-- `memory_sub_partition::pop` -/
def pop : List MemFetch → Option MemFetch × List MemFetch
  | [] => (none, [])
  | mf :: queue => (if mf.isWrbk then none else some mf, queue)

/-! ## Configuration -/

/-- `hpcl_comp_algo`: the algorithms whose pipelines can be constructed. -/
inductive CompAlgo
  | localWordMatching
  | localWordMatching2
  | dataSegMatching
  | dataSegMatching2
  | cpackWordMatching
  | bdiWordMatching
  | fpcWordMatching
  | abpdLocalWordMatching
  | sc2WordMatching
  | fphWordMatching
  | bpcWordMatching
  deriving DecidableEq, Repr

/-- `enum inter_comp_algo_type` -/
inductive InterCompAlgo
  | sameSmPkt
  | diffSmPkt
  | sameDiffSmPkt
  | diffSameSmPkt
  deriving DecidableEq, Repr

/-- The vectors `g_hpcl_comp_*_pl*`, each with one pipeline for the sub-partition. -/
inductive Compressor
  | lwm2B
  | lwm4B
  | lwm8B
  | lwm2Two
  | lwm2Four
  | lwm2Eight
  | dsc
  | cpack
  | bdi
  | fpc
  | abpdLocal
  | sc2
  | fph
  | bpc
  deriving DecidableEq, Repr

/-- An entry of the compression buffer: a reply, or the control message of FPH. -/
inductive Packet
  | ctrlMsg (tpc : ℕ)
  | reply (mf : MemFetch)
  deriving DecidableEq, Repr

/-- `get_tpc`. -/
def Packet.tpc : Packet → ℕ
  | .ctrlMsg tpc => tpc
  | .reply mf => mf.tpc

/-- `get_real_data_size() > 0`: only the data of retrievable replies is fetched. -/
def Packet.hasRealData : Packet → Bool
  | .ctrlMsg _ => false
  | .reply mf => isDataRetrievable mf

/-- The reply, unless the packet is a control message. -/
def Packet.reply? : Packet → Option MemFetch
  | .ctrlMsg _ => none
  | .reply mf => some mf

/-- An entry of the recompression buffer, with `m_merged_mfs_to_same_SM` and `m_merged_mfs`. -/
structure RecPacket where
  mf : Packet
  mergedToSameSM : List Packet
  merged : List (Packet × List Packet)
  deriving DecidableEq, Repr

/-- `hpcl_comp_config`, and what the recompressor decides by the data of two packets. -/
structure Config where
  compAlgo : CompAlgo
  compWordSize : ℕ
  dscLwmCompCycle : ℕ
  compBufferSize : ℕ
  recCompEn : Bool
  recCompAlgo : InterCompAlgo
  recCompBufferSize : ℕ
  /-- `comp_byte_size <= m_max_comp_data_size` in `rec_comp_method_for_intra_sm` -/
  fitsIntraSM : RecPacket → Packet → Bool
  /-- the same in `rec_comp_method_for_inter_sm` -/
  fitsInterSM : RecPacket → Packet → Bool
  /-- `compare_data(prev_mf, new_mf) == 0` -/
  sameData : RecPacket → Packet → Bool

/-- The shape of a pipeline: one stage, or the loop of its `run`. -/
def Compressor.loop (cfg : Config) : Compressor → Loop
  | .lwm2B | .lwm4B | .lwm8B => if cfg.dscLwmCompCycle = 1 then .single else .ascending
  | .dsc => if cfg.dscLwmCompCycle = 1 then .single else .through
  | .lwm2Two | .lwm2Four | .lwm2Eight | .abpdLocal => .single
  | .cpack | .bdi | .fpc | .bpc => .descending
  | .sc2 | .fph => .ascending

/-- `m_pipeline_no`: `cpack_comp_lat` and its like. -/
def Compressor.pipelineNo (cfg : Config) : Compressor → ℕ
  | .lwm2B | .lwm4B | .lwm8B | .dsc => cfg.dscLwmCompCycle
  | .lwm2Two | .lwm2Four | .lwm2Eight | .abpdLocal => 1
  | .cpack => 16
  | .bdi => 2
  | .fpc => 3
  | .bpc => 7
  | .sc2 => 6
  | .fph => 7

/-- The settings for which `gpgpu_sim`'s constructor builds compressors. -/
def Config.Builds (cfg : Config) : Prop :=
  match cfg.compAlgo with
  | .localWordMatching => cfg.compWordSize ∈ [2, 4, 6, 8, 14] ∧ 0 < cfg.dscLwmCompCycle
  | .localWordMatching2 => cfg.compWordSize ∈ [2, 4, 8, 14]
  | .dataSegMatching | .dataSegMatching2 => 0 < cfg.dscLwmCompCycle
  | _ => True

/-- The pipelines that a branch of `pass_mf_from_mem_partition_to_compressor` runs, the one whose
output is pushed first. -/
def Config.branch (cfg : Config) : List Compressor :=
  match cfg.compAlgo with
  | .localWordMatching =>
      if cfg.compWordSize = 2 then [.lwm2B]
      else if cfg.compWordSize = 4 then [.lwm4B]
      else if cfg.compWordSize = 8 then [.lwm8B]
      else if cfg.compWordSize = 14 then [.lwm2B, .lwm4B, .lwm8B]
      else []
  | .localWordMatching2 =>
      if cfg.compWordSize = 2 then [.lwm2Two]
      else if cfg.compWordSize = 4 then [.lwm2Four]
      else if cfg.compWordSize = 8 then [.lwm2Eight]
      else if cfg.compWordSize = 14 then [.lwm2Two, .lwm2Four, .lwm2Eight]
      else []
  | .dataSegMatching | .dataSegMatching2 => [.dsc]
  | .cpackWordMatching => [.cpack]
  | .bdiWordMatching => [.bdi]
  | .fpcWordMatching => [.fpc]
  | .abpdLocalWordMatching => [.abpdLocal]
  | .sc2WordMatching => [.sc2]
  | .fphWordMatching => [.fph]
  | .bpcWordMatching => [.bpc]

/-! ## The state -/

/-- The queue, the pipelines and the buffers of a sub-partition.  `removed` and `pushed` record the
replies taken from the queue and the replies pushed into the compression buffer, oldest first. -/
structure State where
  l2IcntQueue : List MemFetch
  pipelines : Compressor → Registers MemFetch
  compBuffer : List Packet
  recCompBuffer : List RecPacket
  removed : List MemFetch
  pushed : List MemFetch

/-- All queues and pipelines are empty. -/
def State.init : State :=
  ⟨[], fun _ _ => none, [], [], [], []⟩

/-- `hpcl_comp_buffer::has_comp_buffer_space` -/
def hasCompBufferSpace (cfg : Config) (s : State) : Bool :=
  decide (s.compBuffer.length < cfg.compBufferSize)

/-- `hpcl_comp_buffer::push_mem_fetch` -/
def State.pushMemFetch (s : State) (mf : Packet) : State :=
  { s with compBuffer := s.compBuffer ++ [mf], pushed := s.pushed ++ mf.reply?.toList }

/-- `m_memory_sub_partition[i]->pop()` -/
def State.pop (s : State) : State :=
  { s with
    l2IcntQueue := (Reply.pop s.l2IcntQueue).2
    removed := s.removed ++ (Reply.pop s.l2IcntQueue).1.toList }

/-! ## Moving replies to the compressor -/

/-- `set_mem_fetch(mf)` and `run` of one pipeline. -/
def runCompressor (cfg : Config) (mf : Option MemFetch) (s : State) (c : Compressor) : State :=
  { s with
    pipelines := Function.update s.pipelines c
      (run (c.loop cfg) (c.pipelineNo cfg) (s.pipelines c) mf).1 }

/-- What the pipeline hands out in this cycle. -/
def output (cfg : Config) (mf : Option MemFetch) (s : State) (c : Compressor) : Option MemFetch :=
  (run (c.loop cfg) (c.pipelineNo cfg) (s.pipelines c) mf).2

/-- What is pushed for the packet a pipeline hands out: FPH pushes a control message before it. -/
def outputPackets (cfg : Config) (retMf : MemFetch) : List Packet :=
  match cfg.compAlgo with
  | .fphWordMatching => [.ctrlMsg retMf.tpc, .reply retMf]
  | _ => [.reply retMf]

/-- The branch of the algorithm. -/
def compress (cfg : Config) (mf : Option MemFetch) (s : State) : State :=
  let ret := (cfg.branch.head?.bind (output cfg mf s)).toList.flatMap (outputPackets cfg)
  ret.foldl State.pushMemFetch (cfg.branch.foldl (runCompressor cfg mf) s)

/-- `pass_mf_from_mem_partition_to_compressor` -/
def passMf (cfg : Config) (s : State) : State :=
  let mf := (top s.l2IcntQueue).1
  let s := { s with l2IcntQueue := (top s.l2IcntQueue).2 }
  if hasCompBufferSpace cfg s then
    match mf with
    | some mf =>
        if isDataRetrievable mf then (compress cfg (some mf) s).pop
        else (s.pushMemFetch (.reply mf)).pop
    | none => (compress cfg none s).pop
  else s

/-! ## Recompression -/

/-- `hpcl_rec_comp_buffer::has_comp_buffer_space` counts the merged packets, too. -/
def mfNo (buffer : List RecPacket) : ℕ :=
  (buffer.map fun e => 1 + e.mergedToSameSM.length + e.merged.length).sum

/-- `has_rec_comp_buffer_space`. -/
def hasRecCompBufferSpace (cfg : Config) (s : State) : Bool :=
  decide (mfNo s.recCompBuffer < cfg.recCompBufferSize)

/-- The first of the packets merged into an entry that goes to the same SM takes the new one. -/
def mergeInto (new : Packet) : List (Packet × List Packet) → List (Packet × List Packet)
  | [] => [(new, [])]
  | e :: merged =>
      if e.1.tpc = new.tpc then (e.1, e.2 ++ [new]) :: merged else e :: mergeInto new merged

/-- `merge_mf` -/
def mergeMf (new : Packet) (prev : RecPacket) : RecPacket :=
  if prev.mf.tpc = new.tpc then { prev with mergedToSameSM := prev.mergedToSameSM ++ [new] }
  else { prev with merged := mergeInto new prev.merged }

/-- The last entry with a property: both searches run over the buffer from its end. -/
def lastIdx? (p : RecPacket → Bool) (buffer : List RecPacket) : Option ℕ :=
  (List.range buffer.length).reverse.find? fun i => (buffer[i]?).any p

/-- `get_mem_fetch_to_same_sm` -/
def toSameSM (sm : ℕ) (e : RecPacket) : Bool :=
  e.mf.hasRealData && e.mf.tpc == sm && e.merged.isEmpty

/-- `get_mem_fetch_to_diff_sm` -/
def toDiffSM (sm : ℕ) (e : RecPacket) : Bool :=
  e.mf.hasRealData && e.mf.tpc != sm && e.mergedToSameSM.isEmpty

/-- `hpcl_rec_comp_buffer::push_mem_fetch` -/
def pushRecMemFetch (buffer : List RecPacket) (mf : Packet) : List RecPacket :=
  buffer ++ [⟨mf, [], []⟩]

/-- `rec_comp_method_for_intra_sm`, and the push of what was not merged. -/
def recIntraSM (cfg : Config) (new : Packet) (i : ℕ) (buffer : List RecPacket) : List RecPacket :=
  if (buffer[i]?).any (cfg.fitsIntraSM · new) then buffer.modify i (mergeMf new)
  else pushRecMemFetch buffer new

/-- `rec_comp_algo1_proc` -/
def recCompAlgo1 (cfg : Config) (new : Packet) (buffer : List RecPacket) : List RecPacket :=
  match lastIdx? (toSameSM new.tpc) buffer with
  | some i => recIntraSM cfg new i buffer
  | none => pushRecMemFetch buffer new

/-- `rec_comp_method_for_inter_sm`: the buffer when the packet was merged. -/
def recInterSM (cfg : Config) (new : Packet) (buffer : List RecPacket) : Option (List RecPacket) :=
  match lastIdx? (fun e => toDiffSM new.tpc e && cfg.sameData e new) buffer with
  | some i =>
      if (buffer[i]?).any (cfg.fitsInterSM · new) then some (buffer.modify i (mergeMf new)) else none
  | none => none

/-- `rec_comp_algo2_proc` -/
def recCompAlgo2 (cfg : Config) (new : Packet) (buffer : List RecPacket) : List RecPacket :=
  (recInterSM cfg new buffer).getD (pushRecMemFetch buffer new)

/-- `rec_comp_algo3_proc` -/
def recCompAlgo3 (cfg : Config) (new : Packet) (buffer : List RecPacket) : List RecPacket :=
  match lastIdx? (toSameSM new.tpc) buffer with
  | some i => recIntraSM cfg new i buffer
  | none => recCompAlgo2 cfg new buffer

/-- `rec_comp_algo4_proc` -/
def recCompAlgo4 (cfg : Config) (new : Packet) (buffer : List RecPacket) : List RecPacket :=
  (recInterSM cfg new buffer).getD (recCompAlgo1 cfg new buffer)

/-- `hpcl_rec_comp_lwm_pl_proc::run`: the one stage writes into the buffer itself. -/
def recCompRun (cfg : Config) (new : Packet) (buffer : List RecPacket) : List RecPacket :=
  if new.hasRealData then
    match cfg.recCompAlgo with
    | .sameSmPkt => recCompAlgo1 cfg new buffer
    | .diffSmPkt => recCompAlgo2 cfg new buffer
    | .sameDiffSmPkt => recCompAlgo3 cfg new buffer
    | .diffSameSmPkt => recCompAlgo4 cfg new buffer
  else pushRecMemFetch buffer new

/-- `pass_mf_from_comp_buffer_to_rec_comp_in_crossbar` -/
def passRecComp (cfg : Config) (s : State) : State :=
  match s.compBuffer with
  | [] => s
  | mf :: rest =>
      if hasRecCompBufferSpace cfg s then
        { s with compBuffer := rest, recCompBuffer := recCompRun cfg mf s.recCompBuffer }
      else s

/-! ## What the compressor stage does -/

section Stage

variable {cfg : Config} {s : State}

/-- Running pipelines touches nothing else. -/
theorem foldl_runCompressor_eq (mf : Option MemFetch) (cs : List Compressor) (s : State) :
    ∃ pipelines, cs.foldl (runCompressor cfg mf) s = { s with pipelines := pipelines } := by
  induction cs generalizing s with
  | nil => exact ⟨s.pipelines, rfl⟩
  | cons c cs ih =>
      obtain ⟨pipelines, h⟩ := ih (runCompressor cfg mf s c)
      exact ⟨pipelines, by rw [List.foldl_cons, h]; rfl⟩

theorem outputPackets_replies (retMf : MemFetch) :
    (outputPackets cfg retMf).flatMap (fun p => p.reply?.toList) = [retMf] := by
  unfold outputPackets
  split <;> rfl

theorem foldl_pushMemFetch (packets : List Packet) (s : State) :
    packets.foldl State.pushMemFetch s =
      { s with
        compBuffer := s.compBuffer ++ packets
        pushed := s.pushed ++ packets.flatMap fun p => p.reply?.toList } := by
  induction packets generalizing s with
  | nil => simp
  | cons p packets ih =>
      rw [List.foldl_cons, ih]
      simp [State.pushMemFetch]

/-- The branch: what it changes. -/
theorem compress_eq (cfg : Config) (mf : Option MemFetch) (s : State) :
    compress cfg mf s =
      { s with
        pipelines := (cfg.branch.foldl (runCompressor cfg mf) s).pipelines
        compBuffer := s.compBuffer ++
          (cfg.branch.head?.bind (output cfg mf s)).toList.flatMap (outputPackets cfg)
        pushed := s.pushed ++ (cfg.branch.head?.bind (output cfg mf s)).toList } := by
  obtain ⟨pipelines, h⟩ := @foldl_runCompressor_eq cfg mf cfg.branch s
  rw [compress, foldl_pushMemFetch, h]
  cases cfg.branch.head?.bind (output cfg mf s) with
  | none => simp
  | some retMf => simp [outputPackets_replies]

/-- The state after `top`. -/
def State.topped (s : State) : State := { s with l2IcntQueue := (top s.l2IcntQueue).2 }

theorem passMf_of_not_space (h : hasCompBufferSpace cfg s = false) : passMf cfg s = s.topped := by
  have h' : hasCompBufferSpace cfg s.topped = false := h
  simp only [State.topped] at h' ⊢
  simp [passMf, h']

theorem passMf_of_none (hspace : hasCompBufferSpace cfg s = true) (h : (top s.l2IcntQueue).1 = none) :
    passMf cfg s = (compress cfg none s.topped).pop := by
  have h' : hasCompBufferSpace cfg s.topped = true := hspace
  simp only [State.topped] at h' ⊢
  simp [passMf, h', h]

theorem passMf_of_some (hspace : hasCompBufferSpace cfg s = true) {mf : MemFetch}
    (h : (top s.l2IcntQueue).1 = some mf) :
    passMf cfg s = if isDataRetrievable mf then (compress cfg (some mf) s.topped).pop
      else (s.topped.pushMemFetch (.reply mf)).pop := by
  have h' : hasCompBufferSpace cfg s.topped = true := hspace
  simp only [State.topped] at h' ⊢
  simp [passMf, h', h]

theorem compress_l2IcntQueue (cfg : Config) (mf : Option MemFetch) (s : State) :
    (compress cfg mf s).l2IcntQueue = s.l2IcntQueue := by
  rw [compress_eq]

theorem compress_removed (cfg : Config) (mf : Option MemFetch) (s : State) :
    (compress cfg mf s).removed = s.removed := by
  rw [compress_eq]

end Stage

/-! ## Runs -/

/-- A stage of the sub-partition; `l2` is the arrival of a packet in the L2-to-interconnect queue, and
`icnt` a cycle in which the interconnect takes a packet. -/
inductive Stage
  | l2 (mf : MemFetch)
  | pass
  | recComp
  | icnt
  deriving DecidableEq, Repr

/-- One stage of the partition runs. -/
def exec1 (cfg : Config) (s : State) : Stage → State
  | .l2 mf => { s with l2IcntQueue := s.l2IcntQueue ++ [mf] }
  | .pass => passMf cfg s
  | .recComp => if cfg.recCompEn then passRecComp cfg s else s
  | .icnt =>
      if cfg.recCompEn then { s with recCompBuffer := s.recCompBuffer.tail }
      else { s with compBuffer := s.compBuffer.tail }

/-- The state after the stages, from the empty one. -/
def exec (cfg : Config) (stages : List Stage) : State :=
  stages.foldl (exec1 cfg) State.init

theorem exec_concat (cfg : Config) (stages : List Stage) (stage : Stage) :
    exec cfg (stages ++ [stage]) = exec1 cfg (exec cfg stages) stage := by
  rw [exec, List.foldl_append]
  rfl

/-- A condition on every part of a run that a given stage follows, with one more stage. -/
theorem forall_append_cons_concat {P : List Stage → Prop} {stages : List Stage} {x y : Stage} :
    (∀ before after, stages ++ [x] = before ++ y :: after → P before) ↔
      (∀ before after, stages = before ++ y :: after → P before) ∧ (y = x → P stages) := by
  refine ⟨fun h => ⟨fun before after hsplit => ?_, fun hy => ?_⟩, fun h before after hsplit => ?_⟩
  · exact h before (after ++ [x]) (by rw [hsplit, List.append_assoc]; rfl)
  · exact h stages [] (by rw [hy])
  · rcases List.eq_nil_or_concat after with rfl | ⟨after, z, rfl⟩
    · obtain ⟨rfl, rfl⟩ := List.append_singleton_inj.1 hsplit
      exact h.2 rfl
    · rw [List.concat_eq_append, ← List.cons_append, ← List.append_assoc] at hsplit
      exact h.1 before after (List.append_singleton_inj.1 hsplit).1

/-- The replies inside the pipeline whose output is pushed. -/
def inFlight (cfg : Config) (s : State) : List MemFetch :=
  cfg.branch.head?.toList.flatMap fun c =>
    held (line (c.loop cfg) (c.pipelineNo cfg) (s.pipelines c))

end CompressionWork.Reply
