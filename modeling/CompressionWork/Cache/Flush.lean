import CompressionWork.Cache.Occupancy
import CompressionWork.Cache.Probe

/-!
# What a flush leaves

`flush` of a segmented array clears twice the lines of the configuration, whatever the tag
multiplier is; `probe` visits as many tags for each line as the multiplier says.

* `Emptied` — no probe hits, and every set of a segmented array has an empty layout.
* `flush_lines` — the lines after a flush.
* `lt_of_mem_setLines` — the lines that a probe visits.
* `flush_emptied_iff` — when a flush empties the array.
-/

namespace CompressionWork.Cache.TagParams

variable (p : TagParams)

/-- No probe of any address is a hit, and in a segmented array every set has an empty layout:
all its ways are free, from the first segment to the last. -/
structure Emptied (lines : Lines) : Prop where
  noHit : ∀ addr segNo idx, p.probe lines addr segNo ≠ some (.hit idx)
  layout : p.isCompressed = true → ∀ set < p.config.nset, p.Layout lines set p.tagAssocNo

/-- A line as the constructor of a segmented array leaves it. -/
structure Fresh (line : CacheBlock) : Prop where
  invalid : line.status = .invalid
  start : line.startSegIdx = 0
  last : line.endSegIdx = p.maxSegIdx

variable {p} {t : TagArray} {lines : Lines}

/-! ## The lines -/

/-- The lines that a flush clears. -/
theorem flush_lines (i : ℕ) :
    (i < p.config.getNumLines → ((p.flush t).lines i).status = .invalid) ∧
      (p.isCompressed = true →
        (i < p.config.getNumLines * 2 → p.Fresh ((p.flush t).lines i)) ∧
        (p.config.getNumLines * 2 ≤ i → (p.flush t).lines i = t.lines i)) := by
  by_cases hcomp : p.isL1D = true ∧ p.comp.hpclCacheCompEn ≠ 0
  · rw [flush, if_pos hcomp]
    dsimp only
    refine ⟨fun hi => by rw [if_pos (by omega)]; rfl, fun _ => ⟨fun hi => ?_, fun hi => ?_⟩⟩
    · rw [if_pos hi]
      exact ⟨rfl, rfl, rfl⟩
    · rw [if_neg (Nat.not_lt.2 hi)]
  · rw [flush, if_neg hcomp]
    dsimp only
    refine ⟨fun hi => by rw [if_pos hi], fun hc => absurd ?_ hcomp⟩
    obtain ⟨hl1d, hen⟩ := isL1D_of_isCompressed hc
    exact ⟨hl1d, by omega⟩

/-- A probe visits the lines of one set. -/
theorem lt_of_mem_setLines {set i : ℕ} (hset : set < p.config.nset) (hi : i ∈ p.setLines set) :
    i < p.config.nset * p.assocNo := by
  obtain ⟨way, hway, rfl⟩ := List.mem_map.1 hi
  have hway := List.mem_range.1 hway
  calc set * p.assocNo + way < (set + 1) * p.assocNo := by rw [Nat.succ_mul]; omega
    _ ≤ p.config.nset * p.assocNo := Nat.mul_le_mul_right _ hset

/-- Nothing is hit when all lines that a probe can visit are invalid. -/
theorem noHit_of_invalid (hnset : 0 < p.config.nset)
    (h : ∀ i < p.config.nset * p.assocNo, (lines i).status = .invalid) (addr : NewAddrType)
    (segNo idx : ℕ) : p.probe lines addr segNo ≠ some (.hit idx) := by
  intro hprobe
  obtain ⟨set, hset, ⟨i, hi, -, ⟨heq, -⟩ | ⟨-, hlive, -⟩⟩ | ⟨-, hchoose⟩⟩ := probe_cases hprobe
  · cases heq
  · exact hlive (h i (lt_of_mem_setLines (p.config.setIndex_lt hnset hset) hi))
  · exact absurd rfl ((chooseLine_ne_hit hchoose).1 idx)

/-- A set of fresh lines has an empty layout, and only such a set. -/
theorem layout_empty_iff {set : ℕ} :
    p.Layout lines set p.tagAssocNo ↔ ∀ w < p.tagAssocNo, p.Fresh (p.way lines set w) := by
  have hbehind : p.behind lines set p.tagAssocNo = 0 := if_neg (Nat.lt_irrefl _)
  constructor
  · intro h w hw
    obtain ⟨hst, hs, he⟩ := h.free_eq w hw
    exact ⟨hst, by rw [hs, hbehind], he⟩
  · intro h
    refine ⟨Nat.le_refl _, fun w hw hle => by omega, fun w hw => ?_, fun w hw => ?_,
      fun w hw => Nat.le_of_eq (h w hw).last⟩
    · exact ⟨(h w hw).invalid, by rw [(h w hw).start, hbehind], (h w hw).last⟩
    · rw [(h w hw).start]
      exact Nat.zero_le _

/-! ## The flush -/

/-- **When a flush empties the array**: it is not segmented, or has at most two tags for a line,
or every line that the flush does not reach is fresh already. -/
theorem flush_emptied_iff (hnset : 0 < p.config.nset) (t : TagArray) :
    p.Emptied (p.flush t).lines ↔
      p.isCompressed = false ∨ p.comp.hpclCompTagSizeMultiplier ≤ 2 ∨
        ∀ i, p.config.getNumLines * 2 ≤ i → i < p.config.nset * p.tagAssocNo →
          p.Fresh (t.lines i) := by
  have hlines := fun i => @flush_lines p t i
  cases hcomp : p.isCompressed with
  | false =>
      refine iff_of_true ⟨noHit_of_invalid hnset fun i hi => ?_, fun h => ?_⟩ (Or.inl rfl)
      · rw [assocNo, hcomp, if_neg (by simp)] at hi
        exact (hlines i).1 hi
      · rw [hcomp] at h
        cases h
  | true =>
      have hassoc : p.assocNo = p.tagAssocNo := by rw [assocNo, hcomp, if_pos rfl]; rfl
      -- a line of a set is one of the array
      have hindex : ∀ set < p.config.nset, ∀ w < p.tagAssocNo,
          set * p.tagAssocNo + w < p.config.nset * p.tagAssocNo := by
        intro set hset w hw
        calc set * p.tagAssocNo + w < (set + 1) * p.tagAssocNo := by rw [Nat.succ_mul]; omega
          _ ≤ p.config.nset * p.tagAssocNo := Nat.mul_le_mul_right _ hset
      constructor
      · intro h
        refine Or.inr (Or.inr fun i hge hlt => ?_)
        have hN : 0 < p.tagAssocNo := Nat.pos_of_ne_zero fun h0 => by
          rw [h0, Nat.mul_zero] at hlt
          exact Nat.not_lt_zero _ hlt
        have hway := layout_empty_iff.1 (h.layout hcomp (i / p.tagAssocNo)
          (Nat.div_lt_of_lt_mul (by rwa [Nat.mul_comm]))) (i % p.tagAssocNo) (Nat.mod_lt _ hN)
        rw [way, Nat.mul_comm, Nat.div_add_mod] at hway
        rwa [((hlines i).2 hcomp).2 hge] at hway
      · intro h
        have hfresh : ∀ i < p.config.nset * p.tagAssocNo, p.Fresh ((p.flush t).lines i) := by
          intro i hi
          rcases Nat.lt_or_ge i (p.config.getNumLines * 2) with hlt | hge
          · exact ((hlines i).2 hcomp).1 hlt
          · rw [((hlines i).2 hcomp).2 hge]
            rcases h with h | hmul | h
            · cases h
            · -- with two tags for a line there is no line behind
              have hle : p.config.nset * p.tagAssocNo ≤ p.config.getNumLines * 2 := by
                rw [tagAssocNo, CacheConfig.getNumLines, ← Nat.mul_assoc]
                exact Nat.mul_le_mul_left _ hmul
              omega
            · exact h i hge hi
        refine ⟨noHit_of_invalid hnset fun i hi => (hfresh i (hassoc ▸ hi)).invalid, fun _ set hset => ?_⟩
        exact layout_empty_iff.2 fun w hw => hfresh _ (hindex set hset w hw)

/-- A cache of one line with two tags, with any contents. -/
theorem flush_emptied_iff_twoTags : 0 < (oneLine 2).config.nset ∧
    ((oneLine 2).Emptied ((oneLine 2).flush { lines := fun _ => { status := .valid } }).lines ↔
      (oneLine 2).isCompressed = false ∨ (oneLine 2).comp.hpclCompTagSizeMultiplier ≤ 2 ∨
        ∀ i, (oneLine 2).config.getNumLines * 2 ≤ i →
          i < (oneLine 2).config.nset * (oneLine 2).tagAssocNo →
            (oneLine 2).Fresh { status := .valid }) :=
  have hnset : 0 < (oneLine 2).config.nset := by decide
  ⟨hnset, flush_emptied_iff hnset { lines := fun _ => { status := .valid } }⟩

/-- **With four tags for a line** the line that was filled last is still hit after the flush. -/
theorem not_flush_emptied : ¬ ∀ (p : TagParams) (ops : List Op) (s : SegmentedRun),
    0 < p.config.nset → p.run ops = some s → p.Emptied (p.flush s.array).lines := by
  intro h
  obtain ⟨s, hs⟩ := Option.isSome_iff_exists.1
    (show ((oneLine 4).run [.fill 0x80 1 32 1]).isSome = true by decide)
  have hprobe : ((oneLine 4).run [.fill 0x80 1 32 1]).bind (fun s =>
      (oneLine 4).probe ((oneLine 4).flush s.array).lines 0x80 1) = some (.hit 3) := by rfl
  rw [hs] at hprobe
  exact (h (oneLine 4) _ s (by decide) hs).noHit 0x80 1 3 hprobe

end CompressionWork.Cache.TagParams
