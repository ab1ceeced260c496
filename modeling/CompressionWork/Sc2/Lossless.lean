import CompressionWork.Codec.TokenStream
import CompressionWork.Sampling.Optimal
import CompressionWork.Sampling.Tracker
import CompressionWork.Sc2.Compress

/-!
# SC2: an optimal code and a decodable line

* `writeDataFile_optimal` — the code map has the most frequent words of the sample and an
  optimal prefix code for them.
* `formTracker_eq_codeMap_iff` — the table survives the file, unless it has one word only.
* `parse_bitString` — the bits of an encoded line give its words back.
* `ssEncode_bits` — `ss_encode` counts exactly these bits.
* `ssEncode_lossless_sized` — both, for every sampled table and every line.
-/

namespace CompressionWork.Sc2

open Codec Sampling

/-! ## The code map -/

/-- **The Huffman table of SC2** covers the most frequent words and is an optimal prefix
code for them. -/
theorem writeDataFile_optimal (std : StdOrder) (words : List Str) (h : words.length < 2 ^ 31) :
    MostFrequent words maxVftEntries (codeMap std (countWords words)) ∧
      OptimalCode words (codeMap std (countWords words)) :=
  ⟨codeTable_mostFrequent (countWords_spec words) h, codeTable_optimal (countWords_spec words) h⟩

theorem writeDataFile_optimal_twoWords :
    MostFrequent [['A'], ['B'], ['A']] maxVftEntries
        (codeMap StdOrder.stable (countWords [['A'], ['B'], ['A']])) ∧
      OptimalCode [['A'], ['B'], ['A']]
        (codeMap StdOrder.stable (countWords [['A'], ['B'], ['A']])) :=
  writeDataFile_optimal StdOrder.stable [['A'], ['B'], ['A']] (by decide)

/-! ## The sampled words -/

/-- Sampling line by line counts the words of all lines. -/
theorem sampleLines_eq (lines : List (List UInt8)) :
    sampleLines lines = countWords (lines.flatMap lineWords) := by
  rw [countWords, List.foldl_flatMap]
  rfl

theorem blank_not_mem_lineWords {line : List UInt8} {w : Str} (h : w ∈ lineWords line) :
    ' ' ∉ w := by
  intro hmem
  obtain ⟨i, -, rfl⟩ := List.mem_map.1 h
  have hhex := isHex_decomposeData line ' ' (List.mem_of_mem_drop (List.mem_of_mem_take hmem))
  exact absurd hhex (by decide)

theorem nodup_sampleLines (lines : List (List UInt8)) :
    ((sampleLines lines).map Prod.fst).Nodup := by
  rw [sampleLines_eq]
  exact (countWords_spec _).nodup

theorem blank_not_mem_sampleLines (lines : List (List UInt8)) :
    ∀ p ∈ sampleLines lines, ' ' ∉ p.1 := by
  intro p hp
  rw [sampleLines_eq] at hp
  have hmem := ((countWords_spec _).mem_iff p.1 p.2).1 hp
  obtain ⟨line, -, hw⟩ := List.mem_flatMap.1 hmem.1
  exact blank_not_mem_lineWords hw

/-- The table of the encoder is a prefix code without empty codes, whatever was sampled. -/
theorem codeTable_formTracker (std : StdOrder) (lines : List (List UInt8)) :
    CodeTable (formTracker std (sampleLines lines)) :=
  codeTable_tracker (nodup_sampleLines lines) (blank_not_mem_sampleLines lines)

/-! ## Saving and reloading the table -/

/-- `form_tracker` reads the map that `write_file` wrote, unless one word alone was sampled. -/
theorem formTracker_eq_codeMap_iff (std : StdOrder) (lines : List (List UInt8)) :
    (∀ w, (formTracker std (sampleLines lines)).lookup w =
        (codeMap std (sampleLines lines)).lookup w) ↔
      (sampleLines lines).length ≠ 1 :=
  lookup_tracker_iff (nodup_sampleLines lines) (blank_not_mem_sampleLines lines) (by decide)

/-- The code of a single word is empty, and its line has one piece only. -/
theorem formTracker_ne_codeMap : ¬ ∀ (std : StdOrder) (lines : List (List UInt8)),
    1 ≤ (codeMap std (sampleLines lines)).length →
      ∀ w, (formTracker std (sampleLines lines)).lookup w =
        (codeMap std (sampleLines lines)).lookup w := by
  intro h
  have hsame := h StdOrder.stable [[7, 0, 0, 0]] (by decide) "00000007".toList
  exact absurd hsame (by decide)

/-! ## The decoder -/

/-- Reads one word: `0` and a code of the table, or `1` and 32 bits. -/
def readWord (tr : List (Str × Str)) : Reader Char Str
  | '0' :: s => (readCode tr s).map fun p => ([p.1], p.2)
  | '1' :: s => some ([binToHex (s.take 32)], s.drop 32)
  | _ => none

/-- The words of an encoded line. -/
def parse (tr : List (Str × Str)) (s : Str) : Option (List Str) := decode (readWord tr) s

variable {tr : List (Str × Str)}

theorem reads_wordBits (h : CodeTable tr) {w : Str} (hw : IsWord w) :
    Reads (readWord tr) (wordBits tr w) [w] := by
  unfold wordBits
  cases hlook : tr.lookup w with
  | some code =>
      refine ⟨List.cons_ne_nil _ _, fun r => ?_⟩
      rw [List.cons_append, readWord, readCode_append h (mem_of_lookup_eq hlook)]
      rfl
  | none =>
      refine ⟨List.cons_ne_nil _ _, fun r => ?_⟩
      have hlen : (hexToBin w).length = 32 := by rw [length_hexToBin, hw.1]
      rw [List.cons_append, readWord, List.take_left' hlen, List.drop_left' hlen,
        binToHex_hexToBin hw.2]

/-- **The bits of a line give its words back.** -/
theorem parse_bitString (h : CodeTable tr) {m : ℕ} {cacheData : List UInt8}
    (hline : cacheData.length = 4 * m) :
    parse tr (bitString tr cacheData) = some (lineWords cacheData) := by
  have hreads : ∀ p ∈ (lineWords cacheData).map fun w => (wordBits tr w, [w]),
      Reads (readWord tr) p.1 p.2 := by
    intro p hp
    obtain ⟨w, hw, rfl⟩ := List.mem_map.1 hp
    exact reads_wordBits h (isWord_of_mem_lineWords hline hw)
  have htok := decode_flatten _ hreads
  rw [List.flatMap_map, List.flatMap_map, List.flatMap_singleton'] at htok
  exact htok

/-! ## The accumulated bits -/

theorem length_wordBits {w : Str} (hw : IsWord w) :
    (wordBits tr w).length = (ssEncodeWord tr w).2 := by
  unfold wordBits ssEncodeWord
  cases tr.lookup w with
  | some code => simp only [List.length_cons, Nat.add_comm]
  | none => simp only [List.length_cons, length_hexToBin, hw.1]

/-- **`ss_encode` counts the bits of the line.** -/
theorem ssEncode_bits {m : ℕ} {cacheData : List UInt8} (hline : cacheData.length = 4 * m) :
    (ssEncode (decomposeData cacheData) tr).2 = (bitString tr cacheData).length := by
  have hfold : ∀ (ws : List Str) (acc : Str × ℕ), (∀ w ∈ ws, IsWord w) →
      (ws.foldl (fun acc ss =>
        (acc.1 ++ (ssEncodeWord tr ss).1, acc.2 + (ssEncodeWord tr ss).2)) acc).2 =
          acc.2 + (ws.flatMap (wordBits tr)).length := by
    intro ws
    induction ws with
    | nil => intro acc _; rfl
    | cons w ws ih =>
        intro acc hws
        rw [List.foldl_cons, ih _ fun v hv => hws v (List.mem_cons_of_mem _ hv),
          List.flatMap_cons, List.length_append, length_wordBits (hws w (by simp))]
        omega
  rw [ssEncode, bitString, ← lineWords, hfold _ _ fun w hw => isWord_of_mem_lineWords hline hw]
  exact Nat.zero_add _

/-- **SC2's lines are decodable and their bits are counted**, for every sampled table; what
`run` reports is this number rounded up to whole bytes. -/
theorem ssEncode_lossless_sized (std : StdOrder) (samples : List (List UInt8)) {m : ℕ}
    {cacheData : List UInt8} (hline : cacheData.length = 4 * m) :
    let tr := formTracker std (sampleLines samples)
    parse tr (bitString tr cacheData) = some (lineWords cacheData) ∧
      (ssEncode (decomposeData cacheData) tr).2 = (bitString tr cacheData).length ∧
      (cacheData ≠ [] → run tr cacheData = some ⟨((bitString tr cacheData).length + 7) / 8,
        ((bitString tr cacheData).length + 7) / 8 * 8⟩) := by
  intro tr
  refine ⟨parse_bitString (codeTable_formTracker std samples) hline, ssEncode_bits hline, ?_⟩
  intro hne
  rw [run, if_neg hne, ssEncode_bits hline]
  rfl

theorem ssEncode_lossless_sized_oneWord :
    let tr := formTracker StdOrder.stable (sampleLines [[0, 0, 0, 0], [1, 0, 0, 0]])
    parse tr (bitString tr [1, 0, 0, 0]) = some (lineWords [1, 0, 0, 0]) ∧
      (ssEncode (decomposeData [1, 0, 0, 0]) tr).2 = (bitString tr [1, 0, 0, 0]).length ∧
      ([1, 0, 0, 0] ≠ ([] : List UInt8) →
        run tr [1, 0, 0, 0] = some ⟨((bitString tr [1, 0, 0, 0]).length + 7) / 8,
          ((bitString tr [1, 0, 0, 0]).length + 7) / 8 * 8⟩) :=
  ssEncode_lossless_sized StdOrder.stable [[0, 0, 0, 0], [1, 0, 0, 0]] (m := 1) rfl

/-- A raw word takes 33 bits, but 40 are reported. -/
theorem reported_bits_exceed_bitString :
    ¬ ∀ (std : StdOrder) (samples : List (List UInt8)) (cacheData : List UInt8) (m : ℕ),
      cacheData.length = 4 * m → cacheData ≠ [] →
        (run (formTracker std (sampleLines samples)) cacheData).map Fpc.Sizes.compDataBits =
          some (bitString (formTracker std (sampleLines samples)) cacheData).length := by
  intro h
  exact absurd (h StdOrder.stable [] [0, 0, 0, 0] 1 rfl (by decide)) (by decide)

end CompressionWork.Sc2
