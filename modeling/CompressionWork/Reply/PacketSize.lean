import CompressionWork.Reply.Charge

/-!
# The size of a reply packet

The packet size in bytes is computed from the bits of a reply in the crossbar, and from its bytes in the mesh.

* `CompAlgo.fields` — which of the two sizes an algorithm records.
* `Packet.computeFinalPacketSize`, `Packet.meshSize` — the two computations.
* `computeFinalPacketSize_eq_meshSize_iff` — when they agree, by the algorithm.
-/

namespace CompressionWork.Reply.PacketSize

open CompressionWork.Reply.Charge (Entry)

/-- `hpcl_comp_algo`; local word matching with `hpcl_comp_word_size`. -/
inductive CompAlgo
  | localWordMatching (wordSize : ℕ)
  | localWordMatching2
  | dataSegMatching
  | dataSegMatching2
  | dataSegLwmMatching
  | dataSegLwmHybridSeq
  | dataSegLwmHybridParl
  | cpackWordMatching
  | bdiWordMatching
  | fpcWordMatching
  | abpdLocalWordMatching
  | sc2WordMatching
  | fphWordMatching
  | bpcWordMatching
  deriving DecidableEq, Repr

/-- What an algorithm does with `m_comp_data_size` and `m_comp_data_bits`. -/
inductive Fields
  /-- `set_comp_data_size(ceil(bits/8))` and `set_comp_data_bits(bits)` -/
  | sizeAndBits
  /-- `set_comp_data_size(size)` and `set_comp_data_bits(size*8)` -/
  | wholeBytes
  | bitsOnly
  | sizeOnly
  /-- only the sizes by word size are set -/
  | neither
  deriving DecidableEq, Repr

/-- What each algorithm records about the size of its result. -/
def CompAlgo.fields : CompAlgo → Fields
  | localWordMatching wordSize => if wordSize = 14 then .sizeAndBits else .neither
  | bdiWordMatching | bpcWordMatching => .sizeAndBits
  | cpackWordMatching | fpcWordMatching | sc2WordMatching | fphWordMatching => .wholeBytes
  | dataSegMatching | dataSegMatching2 | dataSegLwmMatching | dataSegLwmHybridSeq
  | dataSegLwmHybridParl => .bitsOnly
  | localWordMatching2 | abpdLocalWordMatching => .sizeOnly

/-- `ceil(bits/8.0)` -/
def byteCount (bits : ℕ) : ℕ := (bits + 7) / 8

/-- A reply with those merged into it, `m_comp_data_size`, `m_data_size` and its type.  The control messages
are made with a control size of 8 bytes and no data. -/
structure Packet where
  entry : Entry
  compDataSize : ℕ
  dataSize : ℕ
  isWrite : Bool
  isCtrlMsg : Bool
  ctrlMsg : isCtrlMsg = true → entry.mf.data = [] ∧ dataSize = 0 ∧ entry.mf.ctrlSize = 8

namespace Packet

variable (p : Packet)

/-- `get_real_data_size`. -/
def realDataSize : ℕ := p.entry.mf.data.length

/-- `size` -/
def size : ℕ := p.dataSize + p.entry.mf.ctrlSize

/-- `set_comp_data_size` and `set_comp_data_bits`. -/
def setSizes (compDataSize compDataBits : ℕ) : Packet :=
  { p with
    entry := { p.entry with mf := { p.entry.mf with compDataBits } }
    compDataSize }

/-- What an algorithm records for a result of so many bits. -/
def record (algo : CompAlgo) (bits : ℕ) : Packet :=
  match algo.fields with
  | .sizeAndBits => p.setSizes (byteCount bits) bits
  | .wholeBytes => p.setSizes (byteCount bits) (byteCount bits * 8)
  | .bitsOnly => p.setSizes p.compDataSize bits
  | .sizeOnly => p.setSizes (byteCount bits) p.entry.mf.compDataBits
  | .neither => p

/-- The bits that are recorded for the replies merged into the packet, when there are any. -/
def mergedBits : ℕ :=
  if 0 < p.entry.merged.length ∨ 0 < p.entry.sameSM.length then p.entry.recCompMergedPktBits else 0

/-- `compute_final_packet_size`; `get_comp_data_bits` asserts that there are bits. -/
def computeFinalPacketSize : Option ℕ :=
  if 0 < p.realDataSize then
    if 0 < p.entry.mf.compDataBits then
      some (byteCount (p.entry.mf.ctrlSize * 8 + p.entry.mf.compDataBits + p.mergedBits))
    else none
  else if p.isCtrlMsg then some 8
  else some (if p.isWrite then p.entry.mf.ctrlSize else p.size)

/-- `response_size` in `push_mf_from_mc_to_icnt_in_mesh`. -/
def meshSize : ℕ :=
  if 0 < p.realDataSize then p.entry.mf.ctrlSize + p.compDataSize
  else if p.isWrite then p.entry.mf.ctrlSize else p.size

end Packet

/-! ## Agreement -/

/-- The two sizes agree for a result of so many bits, given what is merged and what the fields that the
algorithm leaves alone hold. -/
def Agree (algo : CompAlgo) (p : Packet) (bits : ℕ) : Prop :=
  match algo.fields with
  | .sizeAndBits => byteCount (bits + p.mergedBits) = byteCount bits
  | .wholeBytes => p.mergedBits = 0
  | .bitsOnly => byteCount (bits + p.mergedBits) = p.compDataSize
  | .sizeOnly => 0 < p.entry.mf.compDataBits ∧
      byteCount (p.entry.mf.compDataBits + p.mergedBits) = byteCount bits
  | .neither => 0 < p.entry.mf.compDataBits ∧
      byteCount (p.entry.mf.compDataBits + p.mergedBits) = p.compDataSize

variable {p : Packet} {m n : ℕ}

theorem byteCount_mul_eight_add : byteCount (m * 8 + n) = m + byteCount n := by
  unfold byteCount
  omega

/-- Without real data the packet has its header, or its full size. -/
theorem computeFinalPacketSize_of_no_data (h : p.realDataSize = 0) :
    p.computeFinalPacketSize = some p.meshSize := by
  have hpos : ¬ 0 < p.realDataSize := by omega
  rw [Packet.computeFinalPacketSize, Packet.meshSize, if_neg hpos, if_neg hpos]
  cases hctrl : p.isCtrlMsg with
  | false => rfl
  | true =>
    obtain ⟨-, hdata, hsize⟩ := p.ctrlMsg hctrl
    simp [Packet.size, hdata, hsize]

/-- With real data, the field of the bytes has to be what the bits make. -/
theorem computeFinalPacketSize_of_data (h : 0 < p.realDataSize) :
    p.computeFinalPacketSize = some p.meshSize ↔
      0 < p.entry.mf.compDataBits ∧ byteCount (p.entry.mf.compDataBits + p.mergedBits) = p.compDataSize := by
  rw [Packet.computeFinalPacketSize, Packet.meshSize, if_pos h, if_pos h]
  split_ifs with hbits
  · rw [Option.some.injEq, Nat.add_assoc, byteCount_mul_eight_add, Nat.add_left_cancel_iff]
    exact (and_iff_right hbits).symm
  · exact ⟨nofun, fun h => absurd h.1 hbits⟩

@[simp] theorem realDataSize_record {algo : CompAlgo} : (p.record algo n).realDataSize = p.realDataSize := by
  unfold Packet.record
  split <;> rfl

/-- **The packet sizes of the two topologies** agree for a reply without real data, and else exactly when
the bytes that were recorded are those of the bits with what is merged. -/
theorem computeFinalPacketSize_eq_meshSize_iff (algo : CompAlgo) (p : Packet) (bits : ℕ) (hbits : 0 < bits) :
    (p.record algo bits).computeFinalPacketSize = some (p.record algo bits).meshSize ↔
      p.realDataSize = 0 ∨ Agree algo p bits := by
  rcases Nat.eq_zero_or_pos p.realDataSize with hdata | hdata
  · exact iff_of_true (computeFinalPacketSize_of_no_data (by simpa using hdata)) (Or.inl hdata)
  · have hne : ¬ p.realDataSize = 0 := by omega
    rw [computeFinalPacketSize_of_data (by simpa using hdata), or_iff_right hne]
    unfold Packet.record Agree
    cases algo.fields with
    | sizeAndBits => exact and_iff_right hbits
    | wholeBytes =>
      have hpos : 0 < byteCount bits * 8 := by
        unfold byteCount
        omega
      refine (and_iff_right hpos).trans ?_
      change byteCount (byteCount bits * 8 + p.mergedBits) = byteCount bits ↔ _
      rw [byteCount_mul_eight_add]
      unfold byteCount
      omega
    | bitsOnly => exact and_iff_right hbits
    | sizeOnly => exact Iff.rfl
    | neither => exact Iff.rfl

/-- A reply of 32 bytes; its bits, what is merged into it and the bits of that. -/
def reply (compDataBits : ℕ) (sameSM : List Charge.Merged) (mergedBits : ℕ) : Packet where
  entry := ⟨⟨0, List.replicate 32 0, compDataBits, 8⟩, mergedBits, sameSM, []⟩
  compDataSize := 0
  dataSize := 32
  isWrite := false
  isCtrlMsg := false
  ctrlMsg := nofun

theorem computeFinalPacketSize_eq_meshSize_iff_reply :
    ((reply 0 [] 0).record .bdiWordMatching 100).computeFinalPacketSize =
        some ((reply 0 [] 0).record .bdiWordMatching 100).meshSize ↔
      (reply 0 [] 0).realDataSize = 0 ∨ Agree .bdiWordMatching (reply 0 [] 0) 100 :=
  computeFinalPacketSize_eq_meshSize_iff .bdiWordMatching (reply 0 [] 0) 100 (by decide)

/-- Data segment matching leaves the bytes as they are; and a reply that was merged is charged in the
crossbar only. -/
theorem computeFinalPacketSize_ne_meshSize :
    ((reply 0 [] 0).record .dataSegMatching 100).computeFinalPacketSize ≠
        some ((reply 0 [] 0).record .dataSegMatching 100).meshSize ∧
      ((reply 0 [⟨⟨0, [1], 60, 8⟩, 60, 32⟩] 92).record .bdiWordMatching 100).computeFinalPacketSize ≠
        some ((reply 0 [⟨⟨0, [1], 60, 8⟩, 60, 32⟩] 92).record .bdiWordMatching 100).meshSize := by
  decide

end CompressionWork.Reply.PacketSize
