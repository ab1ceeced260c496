import CompressionWork.Fph.Compress
import CompressionWork.Sampling.Optimal
import CompressionWork.Sampling.Tracker
import Mathlib

/-!
# The fields of a word and their tables

* `sampleLines_fields` — the three counting loops are the sampler run on the values of each
  field.
* `fieldSum` — the Kraft sum of the codes of all values of a field.
* `fieldSum_nil`, `one_lt_fieldSum` — it is 1 for an empty table and greater than 1 for any
  other: the codes already use Kraft's inequality up, and the raw values come on top.
-/

namespace CompressionWork.Fph

open Codec Sampling

/-! ## Binary words -/

theorem exists_length_decomposeData (cacheData : List UInt8) :
    ∃ m, (decomposeData cacheData).length = 8 * m := by
  induction cacheData using decomposeData.induct with
  | case1 b₀ b₁ b₂ b₃ rest ih =>
      obtain ⟨m, hm⟩ := ih
      exact ⟨m + 1, by rw [decomposeData, List.length_append, (isWord_intToHex _).1, hm]; omega⟩
  | case2 s h =>
      refine ⟨0, ?_⟩
      rw [decomposeData]
      · rfl
      · exact h

/-- Every word of a line is a string of 32 bits. -/
theorem mem_convertBinary {cacheData : List UInt8} {cur : Str}
    (h : cur ∈ convertBinary (decomposeData cacheData)) : cur.length = 32 ∧ IsBin cur := by
  obtain ⟨w, hw, rfl⟩ := List.mem_map.1 h
  obtain ⟨m, hm⟩ := exists_length_decomposeData cacheData
  exact ⟨by rw [length_hexToBin, length_of_mem_chunks (by decide) hm hw], isBin_hexToBin w⟩

theorem getBinary_binaryValue {v : Str} (h : IsBin v) :
    getBinary (binaryValue v) v.length = v := by
  refine binaryValue_inj (isBin_getBinary _ _) h (length_getBinary _ _) ?_
  rw [binaryValue_getBinary, Nat.mod_eq_of_lt (binaryValue_lt v)]

/-! ## Sampling -/

/-- The values of a field in the sampled lines. -/
def fieldValues (f : Str → Str) (samples : List (List UInt8)) : List Str :=
  (samples.flatMap fun line => convertBinary (decomposeData line)).map f

theorem splitRawValue_eq (tracks : Tracks) (raw : List Str) :
    splitRawValue tracks raw = ⟨(raw.map exp).foldl countWord tracks.exp,
      (raw.map mh).foldl countWord tracks.mh, (raw.map ml).foldl countWord tracks.ml⟩ := by
  induction raw generalizing tracks with
  | nil => rfl
  | cons cur raw ih =>
      rw [splitRawValue, List.foldl_cons, ← splitRawValue, ih]
      rfl

/-- **Each table counts the values of its field.** -/
theorem sampleLines_fields (samples : List (List UInt8)) :
    sampleLines samples = ⟨countWords (fieldValues exp samples),
      countWords (fieldValues mh samples), countWords (fieldValues ml samples)⟩ := by
  have hfold : ∀ tracks : Tracks, samples.foldl (fun tracks line =>
      splitRawValue tracks (convertBinary (decomposeData line))) tracks =
        splitRawValue tracks (samples.flatMap fun line => convertBinary (decomposeData line)) := by
    induction samples with
    | nil => intro tracks; rfl
    | cons line samples ih =>
        intro tracks
        rw [List.foldl_cons, ih, List.flatMap_cons, splitRawValue, splitRawValue, splitRawValue,
          List.foldl_append]
  rw [sampleLines, hfold, splitRawValue_eq]
  rfl

/-- Fewer than two values of a field were sampled. -/
def Constant (vs : List Str) : Prop := ∀ v ∈ vs, ∀ w ∈ vs, v = w

theorem constant_iff {vs : List Str} {table : List (Str × ℕ)} (h : Counts vs table) :
    Constant vs ↔ table.length ≤ 1 := by
  rw [h.length_eq, ← List.toFinset_card_of_nodup (List.nodup_dedup vs), Finset.card_le_one]
  simp [Constant]

/-- A field of `width` bits. -/
def IsField (f : Str → Str) (width : ℕ) : Prop :=
  ∀ cur : Str, cur.length = 32 → IsBin cur → (f cur).length = width ∧ IsBin (f cur)

theorem isField_exp : IsField exp expBits := by
  intro cur hlen hbin
  refine ⟨?_, fun c hc => hbin c (List.mem_of_mem_drop (List.mem_of_mem_take hc))⟩
  rw [exp, List.length_take, List.length_drop, hlen]
  rfl

theorem isField_mh : IsField mh mhBits := by
  intro cur hlen hbin
  refine ⟨?_, fun c hc => hbin c (List.mem_of_mem_drop (List.mem_of_mem_take hc))⟩
  rw [mh, List.length_take, List.length_drop, hlen]
  rfl

theorem isField_ml : IsField ml mlBits := by
  intro cur hlen hbin
  refine ⟨?_, fun c hc => hbin c (List.mem_of_mem_drop hc)⟩
  rw [ml, List.length_drop, hlen]
  rfl

theorem IsField.values {f : Str → Str} {width : ℕ} (h : IsField f width)
    {samples : List (List UInt8)} {v : Str} (hv : v ∈ fieldValues f samples) :
    v.length = width ∧ IsBin v := by
  obtain ⟨cur, hcur, rfl⟩ := List.mem_map.1 hv
  obtain ⟨line, -, hmem⟩ := List.mem_flatMap.1 hcur
  exact h cur (mem_convertBinary hmem).1 (mem_convertBinary hmem).2

/-! ## The table of a field -/

section

variable (std : StdOrder) (f : Str → Str) (samples : List (List UInt8))

/-- The table of a field after sampling. -/
def fieldTracker : List (Str × Str) :=
  tracker std fileSize (countWords (fieldValues f samples))

theorem genericInit_eq : genericInit std (sampleLines samples) =
    ⟨fieldTracker std exp samples, fieldTracker std mh samples, fieldTracker std ml samples⟩ := by
  rw [sampleLines_fields]
  rfl

variable {std f samples} {width : ℕ}

theorem IsField.noBlank (h : IsField f width) :
    ∀ p ∈ countWords (fieldValues f samples), ' ' ∉ p.1 := by
  intro p hp hmem
  have hv := (((countWords_spec (fieldValues f samples)).mem_iff p.1 p.2).1 hp).1
  rcases (h.values hv).2 ' ' hmem with h | h
  · exact absurd h (by decide)
  · exact absurd h (by decide)

theorem IsField.codeTable (h : IsField f width) : CodeTable (fieldTracker std f samples) :=
  codeTable_tracker (countWords_spec _).nodup h.noBlank

/-- **The table of a field is empty** exactly when fewer than two values were sampled. -/
theorem IsField.tracker_eq_nil_iff (std : StdOrder) (h : IsField f width) :
    fieldTracker std f samples = [] ↔ Constant (fieldValues f samples) := by
  rw [constant_iff (countWords_spec _)]
  exact Sampling.tracker_eq_nil_iff (countWords_spec _).nodup h.noBlank (by decide)

theorem IsField.mem_tracker (h : IsField f width) {p : Str × Str}
    (hp : p ∈ fieldTracker std f samples) : p.1.length = width ∧ IsBin p.1 := by
  have hmem := ((Sampling.mem_tracker (countWords_spec _).nodup h.noBlank).1 hp).1
  have hword : p.1 ∈ fieldValues f samples := by
    refine (countWords_spec _).mem_keys.1 ?_
    exact mem_table_of_mem_codeTable (countWords_spec _).nodup hmem
  exact h.values hword

end

/-! ## Kraft sums of a field -/

/-- The Kraft sum of what the encoder sends for the values of a field. -/
noncomputable def fieldSum (tr : List (Str × Str)) (width : ℕ) : ℝ :=
  ∑ n ∈ Finset.range (2 ^ width), kraftTerm (fieldCode tr (getBinary n width)).length

/-- Raw values alone fill the field. -/
theorem fieldSum_nil (width : ℕ) : fieldSum [] width = 1 := by
  have hterm : ∀ n ∈ Finset.range (2 ^ width),
      (1 / 2 : ℝ) ^ (fieldCode [] (getBinary n width)).length = (1 / 2) ^ width := fun n _ => by
    simp [fieldCode]
  rw [fieldSum, Finset.sum_congr rfl hterm, Finset.sum_const, Finset.card_range, nsmul_eq_mul]
  push_cast
  rw [← mul_pow]
  norm_num

/-- **Codes and raw values together are too many.** -/
theorem one_lt_fieldSum {tr : List (Str × Str)} {width : ℕ} (hnd : (tr.map Prod.fst).Nodup)
    (hwidth : ∀ p ∈ tr, p.1.length = width ∧ IsBin p.1) (hlen : tr.length < 2 ^ width)
    (hsum : (tr.map fun p => (1 / 2 : ℝ) ^ p.2.length).sum = 1) : 1 < fieldSum tr width := by
  -- the numbers of the values in the table
  have hns : (tr.map fun p => binaryValue p.1).Nodup := by
    have hmap : (tr.map fun p => binaryValue p.1) = (tr.map Prod.fst).map binaryValue := by
      rw [List.map_map]
      rfl
    rw [hmap]
    refine hnd.map_on fun v hv w hw heq => ?_
    obtain ⟨p, hp, rfl⟩ := List.mem_map.1 hv
    obtain ⟨q, hq, rfl⟩ := List.mem_map.1 hw
    exact binaryValue_inj (hwidth p hp).2 (hwidth q hq).2
      ((hwidth p hp).1.trans (hwidth q hq).1.symm) heq
  have hcoded : ∑ n ∈ (tr.map fun p => binaryValue p.1).toFinset,
      (1 / 2 : ℝ) ^ (fieldCode tr (getBinary n width)).length = 1 := by
    rw [List.sum_toFinset _ hns, List.map_map]
    refine Eq.trans ?_ hsum
    refine congrArg List.sum (List.map_congr_left fun p hp => ?_)
    have hval : getBinary (binaryValue p.1) width = p.1 := by
      rw [← (hwidth p hp).1]
      exact getBinary_binaryValue (hwidth p hp).2
    rw [Function.comp_apply, hval, fieldCode, lookup_eq_of_mem hnd hp]
    rfl
  have hsubset : (tr.map fun p => binaryValue p.1).toFinset ⊆ Finset.range (2 ^ width) := by
    intro n hn
    obtain ⟨p, hp, rfl⟩ := List.mem_map.1 (List.mem_toFinset.1 hn)
    have hlt := binaryValue_lt p.1
    rw [(hwidth p hp).1] at hlt
    exact Finset.mem_range.2 hlt
  -- one value at least is sent raw
  obtain ⟨n, hn, hraw⟩ : ∃ n ∈ Finset.range (2 ^ width),
      n ∉ (tr.map fun p => binaryValue p.1).toFinset := by
    refine Finset.exists_mem_notMem_of_card_lt_card ?_
    rw [List.toFinset_card_of_nodup hns, List.length_map, Finset.card_range]
    exact hlen
  have hterm : ∀ m ∈ Finset.range (2 ^ width),
      0 < (1 / 2 : ℝ) ^ (fieldCode tr (getBinary m width)).length := fun m _ => by positivity
  have hlt := Finset.sum_lt_sum_of_subset hsubset hn hraw (hterm n hn)
    fun m hm _ => (hterm m hm).le
  rwa [hcoded] at hlt

/-- The Kraft sum of a sampled field is at least 1, and greater unless the table is empty. -/
theorem IsField.fieldSum {f : Str → Str} {width : ℕ} (h : IsField f width) (std : StdOrder)
    (samples : List (List UInt8)) (hlen : fileSize < 2 ^ width) :
    1 ≤ Fph.fieldSum (fieldTracker std f samples) width ∧
      (fieldTracker std f samples ≠ [] →
        1 < Fph.fieldSum (fieldTracker std f samples) width) := by
  have hlt : fieldTracker std f samples ≠ [] →
      1 < Fph.fieldSum (fieldTracker std f samples) width := by
    intro hne
    refine one_lt_fieldSum h.codeTable.nodup (fun p hp => h.mem_tracker hp) ?_ ?_
    · exact (length_tracker_le (countWords_spec _).nodup h.noBlank).trans_lt hlen
    · exact sum_tracker (countWords_spec _).nodup h.noBlank (by decide) hne
  refine ⟨?_, hlt⟩
  by_cases hnil : fieldTracker std f samples = []
  · rw [hnil, fieldSum_nil]
  · exact (hlt hnil).le

end CompressionWork.Fph
