import CompressionWork.Dsc.Account
import CompressionWork.Lwm.Compress
import Mathlib.Data.Int.Notation
import Mathlib.Tactic.Common

/-!
# The choice of a word size

With both compressors in parallel (`DATA_SEG_LWM_HYBRID_PARL`), a packet gets the smallest of the sizes that
local word matching reports for the word sizes in use, or the size of data segment matching.

* `enabledSizes` — the word sizes that a configuration enables.
* `selectBestCompressor` — the smallest size, and a word size by its position in the list.
* `recordHybrid` — what is recorded on the packet.
* `Labelled` — the word size that is recorded is one with the recorded size.
-/

namespace CompressionWork.Lwm

/-- `g_hpcl_comp_lwm_2B_en`, `_4B_en` and `_8B_en`, as the constructor sets them for
`hpcl_comp_word_size`. -/
def enabledSizes (wordSize : ℤ) : List ℕ :=
  (if wordSize = 2 ∨ wordSize = 6 ∨ wordSize = 14 then [2] else []) ++
    (if wordSize = 4 ∨ wordSize = 6 ∨ wordSize = 14 then [4] else []) ++
    (if wordSize = 8 ∨ wordSize = 14 then [8] else [])

/-- One round of the loop: `min_comp_res` and `min_comp_size`. -/
def selectRound (best : ℕ × ℕ) (p : ℕ × ℕ) : Option (ℕ × ℕ) :=
  if p.2 < best.2 then
    if p.1 = 1 then some (4, p.2)
    else if p.1 = 2 then some (8, p.2)
    else none
  else some best

/-- `select_best_compressor`; `comp_size[0]` has to be there. -/
def selectBestCompressor : List ℕ → Option (ℕ × ℕ)
  | [] => none
  | size :: compSize => ((List.range' 1 compSize.length).zip compSize).foldlM selectRound (2, size)

/-- What the pipelines of local word matching report for a line, by the word size. -/
structure LwmReport where
  compDataBits : ℕ → ℕ
  compEdByte : ℕ → ℕ
  compEsByte : ℕ → ℕ

/-- `enum COMP_ALGO_TYPE` -/
inductive CompAlgoType
  | noComp
  | dsmComp
  | lwmComp
  deriving DecidableEq, Repr

/-- What is recorded on a packet; the data type is 0 for `ORG_DATA`. -/
structure Recorded where
  compDataBits : ℕ
  compRes : ℕ
  compAlgoType : CompAlgoType
  dscCompDataType : Option ℕ
  dscCompRes : ℕ
  compEdByte : ℕ
  compEsByte : ℕ
  deriving DecidableEq, Repr

/-- The smaller size is that of data segment matching. -/
def recordDsm (dsc : Dsc.Report) : Recorded where
  compDataBits := dsc.compDataBits
  compRes := dsc.dscCompRes
  compAlgoType := .dsmComp
  dscCompDataType := dsc.dataType
  dscCompRes := dsc.dscCompRes
  compEdByte := (dsc.compressedBitsOnly + 7) / 8
  compEsByte := (dsc.compDataBits - dsc.compressedBitsOnly + 7) / 8

/-- The smaller size is that of local word matching. -/
def recordLwm (lwm : LwmReport) (res bits : ℕ) : Recorded where
  compDataBits := bits
  compRes := res
  compAlgoType := .lwmComp
  dscCompDataType := some 0
  dscCompRes := 0
  compEdByte := lwm.compEdByte res
  compEsByte := lwm.compEsByte res

/-- A packet that is larger than its data goes out as it is. -/
def Recorded.capped (r : Recorded) (realDataSize : ℕ) : Recorded :=
  if realDataSize * 8 < r.compDataBits then
    { r with
      compDataBits := realDataSize * 8 + 1
      compAlgoType := .noComp
      compEdByte := realDataSize * 8
      compEsByte := 1 }
  else r

/-- The part of `pass_mf_from_mem_partition_to_compressor` after the pipelines have returned the packet. -/
def recordHybrid (wordSize : ℤ) (realDataSize : ℕ) (dsc : Dsc.Report) (lwm : LwmReport) :
    Option Recorded := do
  let (minLwmCompRes, minLwmCompBits) ←
    selectBestCompressor ((enabledSizes wordSize).map lwm.compDataBits)
  guard (0 < minLwmCompBits)
  guard (0 < dsc.compDataBits)
  let r := if dsc.compDataBits ≤ minLwmCompBits then recordDsm dsc
    else recordLwm lwm minLwmCompRes minLwmCompBits
  pure (r.capped realDataSize)

/-- The resolution on the packet is one whose own size is recorded, and this is the minimum; a packet that
is not compressed has none. -/
def Labelled (wordSize : ℤ) (dsc : Dsc.Report) (lwm : LwmReport) (r : Recorded) : Prop :=
  match r.compAlgoType with
  | .lwmComp => r.compRes ∈ enabledSizes wordSize ∧ lwm.compDataBits r.compRes = r.compDataBits ∧
      r.compDataBits < dsc.compDataBits ∧ ∀ s ∈ enabledSizes wordSize, r.compDataBits ≤ lwm.compDataBits s
  | .dsmComp => r.compRes = dsc.dscCompRes ∧ r.compDataBits = dsc.compDataBits ∧
      ∀ s ∈ enabledSizes wordSize, r.compDataBits ≤ lwm.compDataBits s
  | .noComp => r.compRes = 0

variable {wordSize : ℤ} {bits : ℕ → ℕ} {dsc : Dsc.Report} {lwm : LwmReport} {n res size : ℕ}

/-! ## The selection -/

theorem enabledSizes_cases (h : enabledSizes wordSize ≠ []) :
    wordSize = 4 ∧ enabledSizes wordSize = [4] ∨ wordSize = 8 ∧ enabledSizes wordSize = [8] ∨
      wordSize ≠ 4 ∧ wordSize ≠ 8 ∧ ∃ m, 0 < m ∧ enabledSizes wordSize = [2, 4, 8].take m := by
  by_cases h2 : wordSize = 2
  · exact Or.inr (Or.inr ⟨by omega, by omega, 1, by decide, by rw [h2]; rfl⟩)
  · by_cases h4 : wordSize = 4
    · exact Or.inl ⟨h4, by rw [h4]; rfl⟩
    · by_cases h6 : wordSize = 6
      · exact Or.inr (Or.inr ⟨by omega, by omega, 2, by decide, by rw [h6]; rfl⟩)
      · by_cases h8 : wordSize = 8
        · exact Or.inr (Or.inl ⟨h8, by rw [h8]; rfl⟩)
        · by_cases h14 : wordSize = 14
          · exact Or.inr (Or.inr ⟨by omega, by omega, 3, by decide, by rw [h14]; rfl⟩)
          · exact absurd (by simp [enabledSizes, h2, h4, h6, h8, h14]) h

theorem selectBestCompressor_three (a b c : ℕ) : selectBestCompressor [a, b, c] =
    (selectRound (2, a) (1, b)).bind fun best => (selectRound best (2, c)).bind some := rfl

/-- The positions stand for the word sizes when all smaller ones are in the list. -/
theorem selectBestCompressor_take {m : ℕ} (hm : 0 < m) :
    ∃ res ∈ [2, 4, 8].take m, selectBestCompressor (([2, 4, 8].take m).map bits) = some (res, bits res) ∧
      ∀ s ∈ [2, 4, 8].take m, bits res ≤ bits s := by
  rcases m with _ | _ | _ | m
  · exact absurd hm (Nat.lt_irrefl 0)
  · exact ⟨2, by simp, rfl, by simp⟩
  · by_cases h4 : bits 4 < bits 2
    · refine ⟨4, by simp, by simp [selectBestCompressor, selectRound, h4], ?_⟩
      simp [h4.le]
    · refine ⟨2, by simp, by simp [selectBestCompressor, selectRound, h4], ?_⟩
      simpa using h4
  · have htake : [2, 4, 8].take (m + 3) = [2, 4, 8] := by simp
    rw [htake]
    by_cases h4 : bits 4 < bits 2
    · by_cases h8 : bits 8 < bits 4
      · refine ⟨8, by simp, by simp [selectBestCompressor_three, selectRound, h4, h8], ?_⟩
        simp [h8.le, (h8.trans h4).le]
      · refine ⟨4, by simp, by simp [selectBestCompressor_three, selectRound, h4, h8], ?_⟩
        simpa [h4.le] using h8
    · by_cases h8 : bits 8 < bits 2
      · refine ⟨8, by simp, by simp [selectBestCompressor_three, selectRound, h4, h8], ?_⟩
        have := not_lt.1 h4
        simp only [List.forall_mem_cons, List.not_mem_nil, false_implies, implies_true, and_true]
        omega
      · refine ⟨2, by simp, by simp [selectBestCompressor_three, selectRound, h4, h8], ?_⟩
        have := not_lt.1 h4
        simp only [List.forall_mem_cons, List.not_mem_nil, false_implies, implies_true, and_true]
        omega

/-! ## The record -/

/-- Data segment matching reports no resolution for a line that it does not compress. -/
theorem dsc_report {cfg : Dsc.Config} {repOptEn : Bool} {org : Dsc.View} {transData : List Dsc.View}
    (hrun : Dsc.report cfg repOptEn (org :: transData) = some dsc) :
    dsc.compDataBits ≤ org.data.length * 8 ∨
      dsc.compDataBits = org.data.length * 8 + 1 ∧ dsc.dscCompRes = 0 := by
  by_cases hempty : org.data.length = 0
  · rw [Dsc.report, if_pos hempty] at hrun
    exact absurd hrun (by simp)
  rw [Dsc.report, if_neg hempty] at hrun
  obtain ⟨bests, -, rfl⟩ := Option.map_eq_some_iff.1 hrun
  dsimp only
  split_ifs with hlarge
  · exact Or.inr ⟨rfl, rfl⟩
  · exact Or.inl (Nat.le_of_not_lt hlarge)

theorem recordHybrid_eq (hsel : selectBestCompressor ((enabledSizes wordSize).map lwm.compDataBits) =
    some (res, size)) (hsize : 0 < size) (hdsc : 0 < dsc.compDataBits) :
    recordHybrid wordSize n dsc lwm =
      some ((if dsc.compDataBits ≤ size then recordDsm dsc else recordLwm lwm res size).capped n) := by
  rw [recordHybrid, hsel]
  simp only [Option.bind_eq_bind, Option.bind_some, hsize, hdsc, guard_true]
  rfl

theorem labelled_dsm (hle : ∀ s ∈ enabledSizes wordSize, dsc.compDataBits ≤ lwm.compDataBits s)
    (hreport : dsc.compDataBits ≤ n * 8 ∨ dsc.compDataBits = n * 8 + 1 ∧ dsc.dscCompRes = 0) :
    Labelled wordSize dsc lwm ((recordDsm dsc).capped n) := by
  rw [Recorded.capped]
  split_ifs with hlarge
  · rcases hreport with hreport | ⟨-, hres⟩
    · exact absurd hlarge (Nat.not_lt.2 hreport)
    · exact hres
  · exact ⟨rfl, rfl, hle⟩

/-- The size of local word matching is recorded only when it is at most that of the data. -/
theorem capped_recordLwm (hlt : size < dsc.compDataBits)
    (hreport : dsc.compDataBits ≤ n * 8 ∨ dsc.compDataBits = n * 8 + 1 ∧ dsc.dscCompRes = 0) :
    (recordLwm lwm res size).capped n = recordLwm lwm res size :=
  if_neg (by simp only [recordLwm]; omega)

/-- A single word size of 4 or 8 bytes is reported as 2. -/
theorem labelled_single {s : ℕ} (hs : s ≠ 2) (hen : enabledSizes wordSize = [s])
    (hpos : 0 < lwm.compDataBits s) (hdsc : 0 < dsc.compDataBits)
    (hreport : dsc.compDataBits ≤ n * 8 ∨ dsc.compDataBits = n * 8 + 1 ∧ dsc.dscCompRes = 0) :
    (∃ r, recordHybrid wordSize n dsc lwm = some r ∧ Labelled wordSize dsc lwm r) ↔
      dsc.compDataBits ≤ lwm.compDataBits s := by
  have hsel : selectBestCompressor ((enabledSizes wordSize).map lwm.compDataBits) =
      some (2, lwm.compDataBits s) := by rw [hen]; rfl
  rw [recordHybrid_eq hsel hpos hdsc]
  constructor
  · rintro ⟨r, hr, hlabel⟩
    by_contra hlt
    rw [if_neg hlt, capped_recordLwm (Nat.lt_of_not_le hlt) hreport] at hr
    obtain rfl := Option.some.inj hr
    have hmem : 2 ∈ enabledSizes wordSize := hlabel.1
    rw [hen, List.mem_singleton] at hmem
    exact hs hmem.symm
  · intro hle
    rw [if_pos hle]
    refine ⟨_, rfl, labelled_dsm (fun s' hs' => ?_) hreport⟩
    rw [hen, List.mem_singleton] at hs'
    rwa [hs']

/-- **The label of a packet** is right just when no single word size other than 2 bytes wins. -/
theorem recordHybrid_labelled_iff (wordSize : ℤ) (hen : enabledSizes wordSize ≠ []) (lwm : LwmReport)
    (hlwm : ∀ s ∈ enabledSizes wordSize, 0 < lwm.compDataBits s) (cfg : Dsc.Config) (repOptEn : Bool)
    (org : Dsc.View) (transData : List Dsc.View) (dsc : Dsc.Report)
    (hrun : Dsc.report cfg repOptEn (org :: transData) = some dsc) (hdsc : 0 < dsc.compDataBits) :
    (∃ r, recordHybrid wordSize org.data.length dsc lwm = some r ∧ Labelled wordSize dsc lwm r) ↔
      (wordSize = 4 → dsc.compDataBits ≤ lwm.compDataBits 4) ∧
        (wordSize = 8 → dsc.compDataBits ≤ lwm.compDataBits 8) := by
  have hreport := dsc_report hrun
  obtain ⟨rfl, hsizes⟩ | ⟨rfl, hsizes⟩ | ⟨h4, h8, m, hm, hsizes⟩ := enabledSizes_cases hen
  · rw [labelled_single (by decide) hsizes (hlwm 4 (by decide)) hdsc hreport]
    simp
  · rw [labelled_single (by decide) hsizes (hlwm 8 (by decide)) hdsc hreport]
    simp
  · refine ⟨fun _ => ⟨fun h => absurd h h4, fun h => absurd h h8⟩, fun _ => ?_⟩
    obtain ⟨res, hres, hsel, hmin⟩ := @selectBestCompressor_take lwm.compDataBits m hm
    rw [← hsizes] at hres hsel hmin
    rw [recordHybrid_eq hsel (hlwm res hres) hdsc]
    refine ⟨_, rfl, ?_⟩
    split_ifs with hle
    · exact labelled_dsm (fun s hs => hle.trans (hmin s hs)) hreport
    · have hlt := Nat.lt_of_not_le hle
      rw [capped_recordLwm hlt hreport]
      exact ⟨hres, rfl, hlt, hmin⟩

/-- A line of one word of four bytes, eight times. -/
def repeatedWord : Dsc.View where
  data := (List.replicate 8 [1, 2, 33, 154]).flatten
  opBits := 0

/-- The report of data segment matching for it: not compressed. -/
def repeatedWordDsc : Dsc.Report where
  compDataBits := 257
  dscCompRes := 0
  dataType := none
  compressedBitsOnly := 256

/-- Local word matching with words of four bytes: one word and seven pointers. -/
def repeatedWordLwm : LwmReport where
  compDataBits s :=
    if s = 4 then (runComp 4 8 false Dict.empty (decomposeData 4 repeatedWord.data)).toNat else 0
  compEdByte _ := 0
  compEsByte _ := 0

theorem recordHybrid_labelled_iff_repeatedWord :
    (∃ r, recordHybrid 4 repeatedWord.data.length repeatedWordDsc repeatedWordLwm = some r ∧
        Labelled 4 repeatedWordDsc repeatedWordLwm r) ↔
      ((4 : ℤ) = 4 → repeatedWordDsc.compDataBits ≤ repeatedWordLwm.compDataBits 4) ∧
        ((4 : ℤ) = 8 → repeatedWordDsc.compDataBits ≤ repeatedWordLwm.compDataBits 8) :=
  recordHybrid_labelled_iff 4 (by decide) repeatedWordLwm (by decide +kernel)
    ⟨.dataSegMatching, 8, 32, false, false, false⟩ false repeatedWord [] repeatedWordDsc
    (by decide +kernel) (by decide)

/-- The packet is labelled with words of two bytes, which are not in use. -/
theorem not_labelled_repeatedWord :
    ¬ ∃ r, recordHybrid 4 repeatedWord.data.length repeatedWordDsc repeatedWordLwm = some r ∧
      Labelled 4 repeatedWordDsc repeatedWordLwm r := by
  have hbits : repeatedWordLwm.compDataBits 4 = 67 := by decide +kernel
  rw [labelled_single (s := 4) (by decide) (by decide) (by rw [hbits]; decide) (by decide) (by decide), hbits]
  decide

end CompressionWork.Lwm
