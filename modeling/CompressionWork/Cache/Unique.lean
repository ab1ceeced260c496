import CompressionWork.Cache.Probe
import CompressionWork.Cache.Segments

/-!
# One line for a block

What an access and a fill do to the tags of a set, for every configuration: a line is given to a block
only when no line of the set holds it, and the lines that move in a segmented set keep their tags.

* `OneWay`, `Absent` — no two lines of a set hold a block; no line of its set holds a block.
* `probe_miss_cases` — the line that a miss replaces.
* `Touched`, `Rearranged` — what an access and what a fill leaves of the lines.
* `fillAddr_cases` — a fill of an address.
-/

namespace CompressionWork.Cache.TagParams

open Transition

variable {p : TagParams} {lines lines' : Lines} {addr b tag : NewAddrType}
  {segNo idx set k : ℕ} {time : UInt32} {t t' : TagArray} {result : ProbeResult}

/-! ## Sets -/

variable (p) in
/-- No two lines of a set hold one tag. -/
def OneWay (lines : Lines) : Prop :=
  ∀ set, ∀ i ∈ p.setLines set, ∀ j ∈ p.setLines set, (lines i).status ≠ .invalid →
    (lines j).status ≠ .invalid → (lines i).tag = (lines j).tag → i = j

variable (p) in
/-- No line of its set holds the block. -/
def Absent (lines : Lines) (addr : NewAddrType) : Prop :=
  ∀ set, p.config.setIndex addr = some set → ∀ i ∈ p.setLines set,
    (lines i).tag = p.config.tag addr → (lines i).status = .invalid

theorem mem_setLines {i : ℕ} : i ∈ p.setLines set ↔ ∃ w < p.assocNo, i = set * p.assocNo + w := by
  simp only [setLines, List.mem_map, List.mem_range]
  exact exists_congr fun w => and_congr_right fun _ => eq_comm

/-- A line is in one set. -/
theorem set_eq_of_mem {i set' : ℕ} (h : i ∈ p.setLines set) (h' : i ∈ p.setLines set') :
    set = set' := by
  obtain ⟨w, hw, rfl⟩ := mem_setLines.1 h
  obtain ⟨w', hw', heq⟩ := mem_setLines.1 h'
  have hdiv : ∀ {s v}, v < p.assocNo → (s * p.assocNo + v) / p.assocNo = s := by
    intro s v hv
    rw [Nat.mul_comm, Nat.mul_add_div (by omega), Nat.div_eq_of_lt hv, Nat.add_zero]
  rw [← hdiv (s := set) hw, heq, hdiv hw']

/-! ## The line that a miss replaces -/

/-- A line of the set that is not waiting for its data. -/
def Replaceable (lines : Lines) (ways : List ℕ) (i : ℕ) : Prop :=
  i ∈ ways ∧ (lines i).status ≠ .reserved

variable (p) in
/-- The candidates are lines of the set; without a size every line of a segmented set has space. -/
structure Found (lines : Lines) (segNo : ℕ) (ways : List ℕ) (c : Candidates) : Prop where
  invalidLine : ∀ i, c.invalidLine = some i → Replaceable lines ways i
  validLine : ∀ i, c.validLine = some i → Replaceable lines ways i
  invalidFit : ∀ i, c.invalidLineWithAvailSpace = some i → Replaceable lines ways i
  validFit : ∀ i, c.validLineWithAvailSpace = some i → Replaceable lines ways i
  short : p.isCompressed = true → segNo = 0 → c.invalidLine = none ∧ c.validLine = none

theorem Found.note {ways : List ℕ} {c : Candidates} {index : ℕ} (h : p.Found lines segNo ways c)
    (hindex : index ∈ ways) : p.Found lines segNo ways (p.noteLine lines segNo c index) := by
  by_cases hres : (lines index).status = .reserved
  · unfold noteLine
    rw [if_pos hres]
    exact h
  have hnew : ∀ i, some index = some i → Replaceable lines ways i := by
    intro i hi
    obtain rfl := Option.some.inj hi
    exact ⟨hindex, hres⟩
  have hspace : ∀ {q : Prop}, ¬ segNo ≤ getAvailSpace (lines index) → segNo = 0 → q :=
    fun hnot h0 => absurd (h0 ▸ Nat.zero_le _) hnot
  unfold noteLine
  dsimp only
  split_ifs with h1 h2 h3 h4 h5
  · exact ⟨h.invalidLine, h.validLine, hnew, h.validFit, h.short⟩
  · refine ⟨hnew, h.validLine, h.invalidFit, h.validFit, fun hcomp h0 => ?_⟩
    exact absurd ⟨hcomp, h0 ▸ Nat.zero_le _⟩ h2
  · exact ⟨h.invalidLine, h.validLine, h.invalidFit, hnew, h.short⟩
  · exact ⟨h.invalidLine, hnew, h.invalidFit, h.validFit, fun _ h0 => hspace h5 h0⟩
  · exact ⟨h.invalidLine, hnew, h.invalidFit, h.validFit, fun hcomp _ => absurd hcomp h4⟩
  · exact ⟨h.invalidLine, h.validLine, h.invalidFit, h.validFit, h.short⟩

theorem found_foldl {ways rest : List ℕ} {c : Candidates} (h : p.Found lines segNo ways c)
    (hrest : ∀ i ∈ rest, i ∈ ways) :
    p.Found lines segNo ways (rest.foldl (p.noteLine lines segNo) c) := by
  induction rest generalizing c with
  | nil => exact h
  | cons index rest ih =>
      exact ih (h.note (hrest index (List.mem_cons_self ..)))
        fun i hi => hrest i (List.mem_cons_of_mem _ hi)

theorem found_start (ways : List ℕ) : p.Found lines segNo ways {} :=
  ⟨fun _ => nofun, fun _ => nofun, fun _ => nofun, fun _ => nofun, fun _ _ => ⟨rfl, rfl⟩⟩

/-- The line taken is a candidate, or the one that an eviction of several lines starting at a candidate
names. -/
theorem chooseLine_miss {ways evictIdx : List ℕ} {c : Candidates} (hc : p.Found lines segNo ways c)
    (h : p.chooseLine lines segNo c = some (.miss idx evictIdx)) :
    (Replaceable lines ways idx ∧ evictIdx = []) ∨
      (p.isCompressed = true ∧ segNo ≠ 0 ∧ ∃ v, Replaceable lines ways v ∧
        p.doMultiLineEviction lines v segNo = some (idx, evictIdx)) := by
  unfold chooseLine at h
  split at h
  · split at h
    · cases h
    · cases h
  · split at h
    · next hcomp =>
      split at h
      · next i _ hfit =>
        cases h
        exact Or.inl ⟨hc.invalidFit _ hfit, rfl⟩
      · next i _ _ hfit =>
        cases h
        exact Or.inl ⟨hc.validFit _ hfit, rfl⟩
      · next _ i _ _ hline =>
        obtain ⟨r, hr, heq⟩ := Option.map_eq_some_iff.1 h
        cases heq
        refine Or.inr ⟨hcomp, fun h0 => ?_, i, hc.invalidLine i hline, hr⟩
        rw [(hc.short hcomp h0).1] at hline
        cases hline
      · next i _ _ _ hline =>
        obtain ⟨r, hr, heq⟩ := Option.map_eq_some_iff.1 h
        cases heq
        refine Or.inr ⟨hcomp, fun h0 => ?_, i, hc.validLine i hline, hr⟩
        rw [(hc.short hcomp h0).2] at hline
        cases hline
      · cases h
    · split at h
      · next i _ hline =>
        cases h
        exact Or.inl ⟨hc.invalidLine _ hline, rfl⟩
      · next i _ _ hline =>
        cases h
        exact Or.inl ⟨hc.validLine _ hline, rfl⟩
      · cases h

variable (p) in
/-- What a miss says about the lines and the one that it names. -/
structure MissLine (lines : Lines) (addr : NewAddrType) (segNo idx : ℕ) (evictIdx : List ℕ) : Prop where
  pos : 0 < p.assocNo
  absent : p.Absent lines addr
  /-- With a single way the eviction leaves the set, and there is nothing to find twice in it. -/
  mem : (∃ set, p.config.setIndex addr = some set ∧ idx ∈ p.setLines set) ∨ p.assocNo ≤ 1
  alone : p.isCompressed = false → evictIdx = []
  below : 2 ≤ p.tagAssocNo → evictIdx = linesBelow idx evictIdx.length
  live : segNo = 0 → (lines idx).status ≠ .reserved

theorem assocNo_of_isCompressed (h : p.isCompressed = true) : p.assocNo = p.tagAssocNo :=
  if_pos h

theorem isCompressed_of_plain (h : p.comp.hpclCacheCompEn = 0 ∨ ¬ p.isL1D) :
    p.isCompressed = false := by
  unfold isCompressed
  rcases h with h | h
  · simp [h]
  · simp [h]

theorem assocNo_pos_of_mem {i : ℕ} (h : i ∈ p.setLines set) : 0 < p.assocNo := by
  obtain ⟨w, hw, -⟩ := mem_setLines.1 h
  omega

/-- An eviction of several lines stays in a set of several ways. -/
theorem doMultiLineEviction_mem {v : ℕ} {r : ℕ × List ℕ} (hcomp : p.isCompressed = true)
    (hv : v ∈ p.setLines set) (h : p.doMultiLineEviction lines v segNo = some r) :
    r.1 ∈ p.setLines set ∨ p.assocNo ≤ 1 := by
  have hassoc := assocNo_of_isCompressed hcomp
  obtain ⟨w, hw, rfl⟩ := mem_setLines.1 hv
  rw [hassoc] at hw h
  by_cases hmany : 2 ≤ p.tagAssocNo
  · obtain ⟨a, _, -, ha, -, hr, -⟩ := doMultiLineEviction_spec hw (Or.inl hmany) h
    refine Or.inl (mem_setLines.2 ⟨a, ?_, ?_⟩)
    · rw [hassoc]
      exact ha
    · rw [hassoc]
      exact hr
  · right
    rw [hassoc]
    omega

theorem probe_miss_cases {evictIdx : List ℕ}
    (h : p.probe lines addr segNo = some (.miss idx evictIdx)) :
    p.MissLine lines addr segNo idx evictIdx := by
  obtain ⟨set, hset, ⟨i, -, -, ⟨heq, -⟩ | ⟨heq, -⟩⟩ | ⟨habsent, hchoose⟩⟩ := probe_cases h
  · cases heq
  · cases heq
  have habsent : p.Absent lines addr := by
    intro set' hset'
    obtain rfl : set = set' := Option.some.inj (hset.symm.trans hset')
    exact habsent
  have hfound : p.Found lines segNo (p.setLines set)
      ((p.setLines set).foldl (p.noteLine lines segNo) {}) :=
    found_foldl (found_start _) fun _ hi => hi
  rcases chooseLine_miss hfound hchoose with ⟨hline, rfl⟩ | ⟨hcomp, h0, v, hv, hevict⟩
  · exact ⟨assocNo_pos_of_mem hline.1, habsent, Or.inl ⟨set, hset, hline.1⟩, fun _ => rfl,
      fun _ => rfl, fun _ => hline.2⟩
  · refine ⟨assocNo_pos_of_mem hv.1, habsent, ?_, fun hnot => ?_, fun hmany => ?_,
      fun heq => absurd heq h0⟩
    · exact (doMultiLineEviction_mem hcomp hv.1 hevict).imp_left fun hmem => ⟨set, hset, hmem⟩
    · simp [hcomp] at hnot
    · obtain ⟨w, hw, rfl⟩ := mem_setLines.1 hv.1
      rw [assocNo_of_isCompressed hcomp] at hw hevict
      obtain ⟨_, k, -, -, -, -, hbelow⟩ := doMultiLineEviction_spec hw (Or.inl hmany) hevict
      dsimp only at hbelow
      rw [hbelow]
      simp [linesBelow]

/-- A probe for a block that is absent, with no line waiting for data, ends in a miss. -/
theorem probe_of_absent (habsent : p.Absent lines addr)
    (hnone : ∀ i, (lines i).status ≠ .reserved) (hpolicy : p.config.allocPolicy = .onFill)
    (h : p.probe lines addr segNo = some result) : result.status = .miss := by
  obtain ⟨set, hset, ⟨i, hi, htag, ⟨-, hstatus⟩ | ⟨-, hstatus, -⟩⟩ | ⟨-, hchoose⟩⟩ := probe_cases h
  · exact absurd hstatus (hnone i)
  · exact absurd (habsent set hset i hi htag) hstatus
  · cases result with
    | hit idx => exact absurd rfl ((chooseLine_ne_hit hchoose).1 idx)
    | hitReserved idx => exact absurd rfl ((chooseLine_ne_hit hchoose).2 idx)
    | miss idx evictIdx => rfl
    | reservationFail =>
        -- only a cache that allocates on a miss gives up
        unfold chooseLine at hchoose
        rw [hpolicy] at hchoose
        split at hchoose
        · cases hchoose
        · split at hchoose
          · split at hchoose
            · cases hchoose
            · cases hchoose
            · obtain ⟨_, -, heq⟩ := Option.map_eq_some_iff.1 hchoose
              cases heq
            · obtain ⟨_, -, heq⟩ := Option.map_eq_some_iff.1 hchoose
              cases heq
            · cases hchoose
          · split at hchoose <;> cases hchoose

/-! ## Lines that change -/

/-- Tags stay, and no line comes back. -/
def Kept (lines lines' : Lines) : Prop :=
  ∀ i, (lines' i).tag = (lines i).tag ∧ ((lines i).status = .invalid → (lines' i).status = .invalid)

/-- Moreover the same lines wait for data. -/
def Touched (lines lines' : Lines) : Prop :=
  Kept lines lines' ∧ ∀ i, (lines' i).status = .reserved ↔ (lines i).status = .reserved

theorem touched_refl : Touched lines lines :=
  ⟨fun _ => ⟨rfl, id⟩, fun _ => Iff.rfl⟩

theorem Touched.trans {lines'' : Lines} (h : Touched lines lines') (h' : Touched lines' lines'') :
    Touched lines lines'' :=
  ⟨fun i => ⟨(h'.1 i).1.trans (h.1 i).1, fun hi => (h'.1 i).2 ((h.1 i).2 hi)⟩,
    fun i => (h'.2 i).trans (h.2 i)⟩

/-- One line that is in use changes, and keeps its tag. -/
theorem kept_update {block : CacheBlock} (htag : block.tag = (lines idx).tag)
    (hlive : (lines idx).status ≠ .invalid ∨ block.status = .invalid) :
    Kept lines (Function.update lines idx block) := by
  intro i
  by_cases hi : i = idx
  · subst hi
    rw [Function.update_self]
    exact ⟨htag, fun hinv => hlive.resolve_left fun hne => hne hinv⟩
  · rw [Function.update_of_ne hi]
    exact ⟨rfl, id⟩

theorem touched_update {block : CacheBlock} (htag : block.tag = (lines idx).tag)
    (hlive : (lines idx).status ≠ .invalid ∨ block.status = .invalid)
    (hreserved : block.status = .reserved ↔ (lines idx).status = .reserved) :
    Touched lines (Function.update lines idx block) := by
  refine ⟨kept_update htag hlive, fun i => ?_⟩
  by_cases hi : i = idx
  · subst hi
    rw [Function.update_self]
    exact hreserved
  · rw [Function.update_of_ne hi]

theorem OneWay.kept (h : p.OneWay lines) (hkept : Kept lines lines') : p.OneWay lines' := by
  intro set i hi j hj hlive hlive' htag
  rw [(hkept i).1, (hkept j).1] at htag
  exact h set i hi j hj (fun hinv => hlive ((hkept i).2 hinv)) (fun hinv => hlive' ((hkept j).2 hinv))
    htag

theorem Absent.kept (h : p.Absent lines addr) (hkept : Kept lines lines') : p.Absent lines' addr := by
  intro set hset i hi htag
  rw [(hkept i).1] at htag
  exact (hkept i).2 (h set hset i hi htag)

/-! ## A line for a block -/

/-- A block that no line holds gets one. -/
theorem OneWay.allocate {block : CacheBlock} {evictIdx : List ℕ} (h : p.OneWay lines)
    (hmiss : p.MissLine lines addr segNo idx evictIdx) (htag : block.tag = p.config.tag addr) :
    p.OneWay (Function.update lines idx block) := by
  intro set i hi j hj hlive hlive' heq
  rcases hmiss.mem with ⟨set', hset', hmem⟩ | hone
  · -- a second line with the tag would have been found
    have hother : ∀ {k}, k ∈ p.setLines set → idx ∈ p.setLines set → (lines k).tag =
        p.config.tag addr → (lines k).status = .invalid := by
      intro k hk hidx hk_tag
      obtain rfl := set_eq_of_mem hmem hidx
      exact hmiss.absent _ hset' k hk hk_tag
    by_cases hi' : i = idx
    · subst hi'
      by_contra hne
      rw [Function.update_self, Function.update_of_ne (Ne.symm hne), htag] at heq
      rw [Function.update_of_ne (Ne.symm hne)] at hlive'
      exact hlive' (hother hj hi heq.symm)
    by_cases hj' : j = idx
    · subst hj'
      rw [Function.update_self, Function.update_of_ne hi', htag] at heq
      rw [Function.update_of_ne hi'] at hlive
      exact absurd (hother hi hj heq) hlive
    rw [Function.update_of_ne hi', Function.update_of_ne hj'] at heq
    rw [Function.update_of_ne hi'] at hlive
    rw [Function.update_of_ne hj'] at hlive'
    exact h set i hi j hj hlive hlive' heq
  · obtain ⟨w, hw, rfl⟩ := mem_setLines.1 hi
    obtain ⟨w', hw', rfl⟩ := mem_setLines.1 hj
    omega

/-- The other blocks stay absent. -/
theorem Absent.allocate {block : CacheBlock} (h : p.Absent lines b)
    (htag : block.tag ≠ p.config.tag b) : p.Absent (Function.update lines idx block) b := by
  intro set hset i hi
  by_cases hi' : i = idx
  · subst hi'
    rw [Function.update_self]
    exact fun heq => absurd heq htag
  · rw [Function.update_of_ne hi']
    exact h set hset i hi

/-! ## Lines that move -/

variable (p) in
/-- Every line in use was in its set before, and no line is there twice; `idx` stays where it is. -/
def Rearranged (lines lines' : Lines) (idx : ℕ) : Prop :=
  ∃ f : ℕ → ℕ, f idx = idx ∧
    (∀ i, (lines' i).status ≠ .invalid → (lines' i).tag = (lines (f i)).tag ∧
      (lines' i).status = (lines (f i)).status ∧ ∀ set, i ∈ p.setLines set → f i ∈ p.setLines set) ∧
    ∀ i j, (lines' i).status ≠ .invalid → (lines' j).status ≠ .invalid → f i = f j → i = j

theorem OneWay.rearranged (h : p.OneWay lines) (hmoved : p.Rearranged lines lines' idx) :
    p.OneWay lines' := by
  obtain ⟨f, -, hf, hinj⟩ := hmoved
  intro set i hi j hj hlive hlive' heq
  obtain ⟨htag, hstatus, hset⟩ := hf i hlive
  obtain ⟨htag', hstatus', hset'⟩ := hf j hlive'
  apply hinj i j hlive hlive'
  apply h set _ (hset set hi) _ (hset' set hj)
  · rw [← hstatus]
    exact hlive
  · rw [← hstatus']
    exact hlive'
  · rw [← htag, ← htag']
    exact heq

theorem Absent.rearranged (h : p.Absent lines b) (hmoved : p.Rearranged lines lines' idx) :
    p.Absent lines' b := by
  obtain ⟨f, -, hf, -⟩ := hmoved
  intro set hset i hi htag
  by_contra hlive
  obtain ⟨htag', hstatus, hmem⟩ := hf i hlive
  rw [htag'] at htag
  rw [hstatus] at hlive
  exact hlive (h set hset (f i) (hmem set hi) htag)

/-- When only `idx` waited for data, only `idx` does. -/
theorem Rearranged.reserved (hmoved : p.Rearranged lines lines' idx)
    (hidx : (lines' idx).status = .reserved) (h : ∀ i ≠ idx, (lines i).status ≠ .reserved) :
    ∀ i ≠ idx, (lines' i).status ≠ .reserved := by
  obtain ⟨f, hfidx, hf, hinj⟩ := hmoved
  intro i hi hres
  have hlive : (lines' i).status ≠ .invalid := by simp [hres]
  obtain ⟨-, hstatus, -⟩ := hf i hlive
  rw [hres] at hstatus
  have hfi : f i = idx := by
    by_contra hne
    exact h _ hne hstatus.symm
  exact hi (hinj i idx hlive (by simp [hidx]) (hfi.trans hfidx.symm))

/-- The line holds the block of the other, in the same state. -/
structure Alike (line line' : CacheBlock) : Prop where
  tag : line'.tag = line.tag
  status : line'.status = line.status
  blockAddr : line'.blockAddr = line.blockAddr

theorem alike_refl {line : CacheBlock} : Alike line line := ⟨rfl, rfl, rfl⟩

theorem Alike.trans {line line' line'' : CacheBlock} (h : Alike line line') (h' : Alike line' line'') :
    Alike line line'' :=
  ⟨h'.tag.trans h.tag, h'.status.trans h.status, h'.blockAddr.trans h.blockAddr⟩

/-- The compact case moves segments only. -/
theorem compact_alike (h : p.compact lines idx = some lines') (i : ℕ) :
    Alike (lines i) (lines' i) := by
  refine foldlM_keeps (fun s : Lines => ∀ i, Alike (lines i) (s i)) h (fun i => alike_refl) ?_ i
  intro s n s' hs hstep i
  have hupdate : ∀ {line : CacheBlock}, Alike (s (idx - n)) line →
      Alike (lines i) (Function.update s (idx - n) line i) := by
    intro line hline
    by_cases hi : i = idx - n
    · subst hi
      rw [Function.update_self]
      exact (hs _).trans hline
    · rw [Function.update_of_ne hi]
      exact hs i
  unfold compactStep at hstep
  dsimp only at hstep
  split_ifs at hstep
  · rw [← Option.some.inj hstep]
    exact hupdate ⟨rfl, rfl, rfl⟩
  · rw [← Option.some.inj hstep]
    exact hupdate ⟨rfl, rfl, rfl⟩
  · rw [← Option.some.inj hstep]
    exact hupdate ⟨rfl, rfl, rfl⟩

theorem rearranged_of_alike (h : ∀ i, Alike (lines i) (lines' i)) : p.Rearranged lines lines' idx :=
  ⟨id, rfl, fun i _ => ⟨(h i).tag, (h i).status, fun _ hi => hi⟩, fun _ _ _ _ heq => heq⟩

theorem shiftStep_fst (s : Lines × ℤ) (i : ℕ) :
    ∃ line, Alike (s.1 i) line ∧ (p.shiftStep k s i).1 = Function.update s.1 (i + k) line := by
  unfold shiftStep
  dsimp only
  split_ifs
  · refine ⟨_, ?_, rfl⟩
    exact ⟨rfl, rfl, rfl⟩
  · refine ⟨_, ?_, rfl⟩
    exact ⟨rfl, rfl, rfl⟩
  · refine ⟨_, ?_, rfl⟩
    exact ⟨rfl, rfl, rfl⟩

/-- The lines that move up by `k` ways, the lowest one last. -/
theorem shiftLoop_alike {c w : ℕ} (s : Lines × ℤ) :
    ∀ i, Alike (s.1 (if c + k ≤ i ∧ i < c + w then i - k else i))
      (((List.range (w - k)).foldl (fun s j => p.shiftStep k s (c + w - k - 1 - j)) s).1 i) := by
  -- after `n` rounds, the `n` ways below the new line have moved
  have hloop := foldl_range (fun n (t : Lines × ℤ) =>
    ∀ i, Alike (s.1 (if c + w - n ≤ i ∧ i < c + w then i - k else i)) (t.1 i))
    (f := fun s j => p.shiftStep k s (c + w - k - 1 - j)) (s := s) (w - k) ?_ ?_
  · intro i
    have hi := hloop i
    by_cases hk : k ≤ w
    · rw [show c + w - (w - k) = c + k by omega] at hi
      exact hi
    · rw [if_neg (by omega)] at hi ⊢
      exact hi
  · intro i
    rw [if_neg (by omega)]
    exact alike_refl
  · intro n t hn ht i
    obtain ⟨line, hline, heq⟩ := shiftStep_fst (p := p) (k := k) t (c + w - k - 1 - n)
    rw [heq]
    by_cases hi : i = c + w - k - 1 - n + k
    · subst hi
      rw [Function.update_self, if_pos (by omega)]
      have hsrc := ht (c + w - k - 1 - n)
      by_cases hmoved : c + w - n ≤ c + w - k - 1 - n
      · omega
      · rw [if_neg (by omega)] at hsrc
        rw [show c + w - k - 1 - n + k - k = c + w - k - 1 - n by omega]
        exact hsrc.trans hline
    · rw [Function.update_of_ne hi]
      have hti := ht i
      by_cases hmoved : c + w - n ≤ i ∧ i < c + w
      · rw [if_pos hmoved] at hti
        rw [if_pos (by omega)]
        exact hti
      · rw [if_neg hmoved] at hti
        rw [if_neg (by omega)]
        exact hti

/-- The ways that become free. -/
theorem freeLoop_status {c : ℕ} {updateSegIdx : ℤ} :
    ∀ i, (¬ (c ≤ i ∧ i < c + k) → (List.range k).foldl
        (fun lines j => p.freeStep updateSegIdx lines (c + k - 1 - j)) lines i = lines i) ∧
      (c ≤ i ∧ i < c + k → ((List.range k).foldl
        (fun lines j => p.freeStep updateSegIdx lines (c + k - 1 - j)) lines i).status = .invalid) := by
  have hloop := foldl_range (fun n (t : Lines) =>
    ∀ i, (¬ (c + k - n ≤ i ∧ i < c + k) → t i = lines i) ∧
      (c + k - n ≤ i ∧ i < c + k → (t i).status = .invalid))
    (f := fun lines j => p.freeStep updateSegIdx lines (c + k - 1 - j)) (s := lines) k ?_ ?_
  · intro i
    have hi := hloop i
    rw [Nat.add_sub_cancel] at hi
    exact hi
  · exact fun i => ⟨fun _ => rfl, fun hi => by omega⟩
  · intro n t hn ht i
    unfold freeStep
    by_cases hi : i = c + k - 1 - n
    · subst hi
      rw [Function.update_self]
      exact ⟨fun hnot => absurd (by omega) hnot, fun _ => rfl⟩
    · rw [Function.update_of_ne hi]
      exact ⟨fun hnot => (ht i).1 (by omega), fun hin => (ht i).2 (by omega)⟩

/-- The shift case: the lines below the evicted ones move up by `k` ways, and the last `k` ways are free. -/
theorem shift_alike {c w endSegIdx : ℕ} (hw : p.getWayIdx (c + w) = w) (i : ℕ) :
    (c ≤ i ∧ i < c + k → (p.shift lines (c + w) endSegIdx k i).status = .invalid) ∧
      (¬ (c ≤ i ∧ i < c + k) →
        Alike (lines (if c + k ≤ i ∧ i < c + w then i - k else i))
          (p.shift lines (c + w) endSegIdx k i)) := by
  unfold shift
  rw [hw, Nat.add_sub_cancel]
  refine ⟨fun hfree => (freeLoop_status i).2 hfree, fun hfree => ?_⟩
  rw [(freeLoop_status i).1 hfree]
  exact shiftLoop_alike (lines, (endSegIdx : ℤ) + 1) i

/-- A line is as many lines behind the start of its set as its way says. -/
theorem exists_start (idx : ℕ) : ∃ set w, p.getWayIdx idx = w ∧ idx = set * p.tagAssocNo + w :=
  ⟨idx / p.tagAssocNo, _, rfl, (Nat.div_add_mod' idx p.tagAssocNo).symm⟩

/-- The lines between a line and the start of its set are of this set only. -/
theorem mem_of_between {c w i j : ℕ} (hcomp : p.isCompressed = true) (hc : c = set * p.tagAssocNo)
    (hw : w < p.tagAssocNo) (hi : c ≤ i ∧ i < c + w) (hj : c ≤ j ∧ j < c + w) {set' : ℕ}
    (hmem : i ∈ p.setLines set') : j ∈ p.setLines set' := by
  have hin : ∀ {n}, c ≤ n ∧ n < c + w → n ∈ p.setLines set := by
    intro n hn
    refine mem_setLines.2 ⟨n - c, ?_, ?_⟩
    · rw [assocNo_of_isCompressed hcomp]
      omega
    · rw [assocNo_of_isCompressed hcomp, ← hc]
      omega
  rw [set_eq_of_mem hmem (hin hi)]
  exact hin hj

/-- The shift case moves lines inside the set, and frees as many as it evicts. -/
theorem shift_rearranged {endSegIdx : ℕ} (hcomp : p.isCompressed = true) (hpos : 0 < p.tagAssocNo) :
    p.Rearranged lines (p.shift lines idx endSegIdx k) idx := by
  obtain ⟨set, w, hw, rfl⟩ := exists_start (p := p) idx
  obtain ⟨c, hc⟩ : ∃ c, c = set * p.tagAssocNo := ⟨_, rfl⟩
  rw [← hc] at hw ⊢
  have hlt : w < p.tagAssocNo := hw ▸ Nat.mod_lt _ hpos
  have hcases : ∀ i, (p.shift lines (c + w) endSegIdx k i).status ≠ .invalid →
      Alike (lines (if c + k ≤ i ∧ i < c + w then i - k else i))
          (p.shift lines (c + w) endSegIdx k i) ∧ ¬ (c ≤ i ∧ i < c + k) := by
    intro i hlive
    have hfree : ¬ (c ≤ i ∧ i < c + k) := fun hin => hlive ((shift_alike hw i).1 hin)
    exact ⟨(shift_alike hw i).2 hfree, hfree⟩
  refine ⟨fun i => if c + k ≤ i ∧ i < c + w then i - k else i, if_neg (by omega), ?_, ?_⟩
  · intro i hlive
    obtain ⟨⟨htag, hstatus, -⟩, -⟩ := hcases i hlive
    refine ⟨htag, hstatus, fun set hi => ?_⟩
    dsimp only
    split_ifs with hmoved
    · exact mem_of_between hcomp hc hlt (by omega) (by omega) hi
    · exact hi
  · intro i j hlive hlive' heq
    have hi := (hcases i hlive).2
    have hj := (hcases j hlive').2
    dsimp only at heq
    split_ifs at heq <;> omega

/-! ## A fill -/

variable (p) in
/-- The lines of a set with a new one, before and after the others have moved. -/
def Settled (lines lines' : Lines) (idx : ℕ) (evictIdx : List ℕ) : Prop :=
  (evictIdx = [] ∧ ∀ i, Alike (lines i) (lines' i)) ∨
    (p.isCompressed = true ∧ ∃ endSegIdx, lines' = p.shift lines idx endSegIdx evictIdx.length)

theorem Settled.rearranged {evictIdx : List ℕ} (h : p.Settled lines lines' idx evictIdx)
    (hpos : 0 < p.assocNo) : p.Rearranged lines lines' idx := by
  rcases h with ⟨-, halike⟩ | ⟨hcomp, _, rfl⟩
  · exact rearranged_of_alike halike
  · rw [assocNo_of_isCompressed hcomp] at hpos
    exact shift_rearranged hcomp hpos

/-- The new line takes its place, and the lines that stay move. -/
theorem fillSegments_cases {evictIdx : List ℕ} {compressed : ℕ}
    (halone : p.isCompressed = false → evictIdx = [])
    (h : p.fillSegments lines idx evictIdx addr time segNo compressed = some lines') :
    ∃ block : CacheBlock, block.tag = p.config.tag addr ∧ block.blockAddr = p.config.blockAddr addr ∧
      p.Settled (Function.update lines idx block) lines' idx evictIdx := by
  simp only [fillSegments, Option.bind_eq_bind, Option.bind_eq_some_iff, Option.guard_eq_some',
    exists_const, Option.pure_def] at h
  obtain ⟨-, -, h⟩ := h
  split at h
  case isTrue hnil => exact ⟨_, rfl, rfl, Or.inl ⟨hnil, compact_alike h⟩⟩
  case isFalse hevict =>
    have hcomp : p.isCompressed = true := by
      by_contra hnot
      exact hevict (halone (by simpa using hnot))
    exact ⟨_, rfl, rfl, Or.inr ⟨hcomp, _, (Option.some.inj h).symm⟩⟩

variable (p) in
/-- The segments that a fill asks for. -/
def fillSegNo (size : ℕ) : ℕ :=
  if p.comp.hpclCacheCompEn = 0 ∨ ¬ p.isL1D then 0 else p.segNo size

/-- A fill of an address: a line is given to the block, lines move, and the line has its data. -/
theorem fillAddr_cases {size compressed : ℕ} (h : p.fillAddr t addr time size compressed = some t') :
    ∃ idx evictIdx lines, ∃ block : CacheBlock,
      p.probe t.lines addr (p.fillSegNo size) = some (.miss idx evictIdx) ∧
      block.tag = p.config.tag addr ∧ block.blockAddr = p.config.blockAddr addr ∧
      p.Settled (Function.update t.lines idx block) lines idx evictIdx ∧
      (lines idx).status = .reserved ∧
      t'.lines = Function.update lines idx { lines idx with status := .valid, fillTime := time } := by
  simp only [fillAddr, Option.bind_eq_bind, Option.bind_eq_some_iff, Option.guard_eq_some',
    exists_const, Option.pure_def] at h
  obtain ⟨-, h⟩ := h
  unfold fillSegNo
  split at h
  case isTrue hplain =>
    rw [if_pos hplain]
    obtain ⟨result, hprobe, h⟩ := Option.bind_eq_some_iff.1 h
    cases result with
    | miss idx evictIdx =>
        obtain ⟨lines, hlines, h⟩ := Option.bind_eq_some_iff.1 h
        obtain ⟨hres, hlines⟩ := fillLine_cases hlines
        have hnil : evictIdx = [] := (probe_miss_cases hprobe).alone (isCompressed_of_plain hplain)
        rw [← Option.some.inj h]
        exact ⟨idx, evictIdx, _, _, hprobe, rfl, rfl, Or.inl ⟨hnil, fun _ => alike_refl⟩, hres, hlines⟩
    | hit idx => cases h
    | hitReserved idx => cases h
    | reservationFail => cases h
  case isFalse hplain =>
    rw [if_neg hplain]
    obtain ⟨result, hprobe, h⟩ := Option.bind_eq_some_iff.1 h
    cases result with
    | miss idx evictIdx =>
        obtain ⟨lines₁, hsegments, h⟩ := Option.bind_eq_some_iff.1 h
        obtain ⟨lines, hlines, h⟩ := Option.bind_eq_some_iff.1 h
        obtain ⟨hres, hlines⟩ := fillLine_cases hlines
        obtain ⟨block, htag, hblock, hsettled⟩ :=
          fillSegments_cases (probe_miss_cases hprobe).alone hsegments
        rw [← Option.some.inj h]
        exact ⟨idx, evictIdx, lines₁, block, hprobe, htag, hblock, hsettled, hres, hlines⟩
    | hit idx => cases h
    | hitReserved idx => cases h
    | reservationFail => cases h

/-- **A fill gives one line to its block**, and no line of another block. -/
theorem fillAddr_once {size compressed : ℕ} (hway : p.OneWay t.lines)
    (hnone : ∀ i, (t.lines i).status ≠ .reserved)
    (h : p.fillAddr t addr time size compressed = some t') :
    p.OneWay t'.lines ∧ (∀ i, (t'.lines i).status ≠ .reserved) ∧
      ∀ b, p.Absent t.lines b → p.config.tag b ≠ p.config.tag addr → p.Absent t'.lines b := by
  obtain ⟨idx, _, lines, block, hprobe, htag, -, hsettled, hres, hlines⟩ := fillAddr_cases h
  have hmiss := probe_miss_cases hprobe
  have hmoved := hsettled.rearranged hmiss.pos
  have hkept : Kept lines (Function.update lines idx
      { lines idx with status := .valid, fillTime := time }) :=
    kept_update rfl (Or.inl (by simp [hres]))
  rw [hlines]
  refine ⟨((hway.allocate hmiss htag).rearranged hmoved).kept hkept, fun i => ?_, fun b hb hne => ?_⟩
  · by_cases hi : i = idx
    · subst hi
      rw [Function.update_self]
      exact nofun
    · rw [Function.update_of_ne hi]
      refine hmoved.reserved hres (fun j hj => ?_) i hi
      rw [Function.update_of_ne hj]
      exact hnone j
  · apply Absent.kept _ hkept
    apply Absent.rearranged _ hmoved
    apply hb.allocate
    rw [htag]
    exact hne.symm

end CompressionWork.Cache.TagParams
