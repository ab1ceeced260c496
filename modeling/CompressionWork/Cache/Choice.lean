import CompressionWork.Cache.Victim
import Mathlib.Data.Option.Basic

/-!
# Which line gives way

The choice of `probe`, told from the lines of the set alone.

* `highest` — the highest way with a property.
* `dueTime`, `Due` — the live ways that the pass over the set notes for replacement.
* `victim` — the way that a new line takes, or that the multi-line eviction starts from.
* `probe_eq` — `probe` returns the victim, or what the eviction makes of it.
-/

namespace CompressionWork.Cache

namespace TagParams

/-! ## The highest way -/

/-- The highest number below `n` with a property. -/
def highest (q : ℕ → Prop) [DecidablePred q] : ℕ → Option ℕ
  | 0 => none
  | n + 1 => if q n then some n else highest q n

theorem highest_eq_some {q : ℕ → Prop} [DecidablePred q] {n w : ℕ} (h : highest q n = some w) :
    w < n ∧ q w ∧ ∀ w' < n, w < w' → ¬ q w' := by
  induction n with
  | zero => exact absurd h nofun
  | succ n ih =>
    unfold highest at h
    split_ifs at h with hq
    · obtain rfl := Option.some.inj h
      exact ⟨n.lt_succ_self, hq, fun w' hw' hlt => by omega⟩
    · obtain ⟨hw, hqw, habove⟩ := ih h
      refine ⟨Nat.lt_succ_of_lt hw, hqw, fun w' hw' hlt => ?_⟩
      rcases Nat.lt_succ_iff_lt_or_eq.1 hw' with hw' | rfl
      · exact habove w' hw' hlt
      · exact hq

theorem highest_eq_none_iff {q : ℕ → Prop} [DecidablePred q] {n : ℕ} :
    highest q n = none ↔ ∀ w < n, ¬ q w := by
  induction n with
  | zero => exact iff_of_true rfl fun _ hw => absurd hw (Nat.not_lt_zero _)
  | succ n ih =>
    unfold highest
    split_ifs with hq
    · exact iff_of_false nofun fun h => h n n.lt_succ_self hq
    · rw [ih]
      constructor
      · intro h w hw
        rcases Nat.lt_succ_iff_lt_or_eq.1 hw with hw | rfl
        · exact h w hw
        · exact hq
      · exact fun h w hw => h w (Nat.lt_succ_of_lt hw)

theorem highest_eq_some_iff {q : ℕ → Prop} [DecidablePred q] {n w : ℕ} :
    highest q n = some w ↔ w < n ∧ q w ∧ ∀ w' < n, w < w' → ¬ q w' := by
  refine ⟨highest_eq_some, fun ⟨hw, hq, habove⟩ => ?_⟩
  cases h : highest q n with
  | none => exact absurd hq (highest_eq_none_iff.1 h w hw)
  | some w' =>
      obtain ⟨hw', hq', habove'⟩ := highest_eq_some h
      rcases Nat.lt_trichotomy w w' with hlt | rfl | hlt
      · exact absurd hq' (habove w' hw' hlt)
      · rfl
      · exact absurd hq (habove' w hw hlt)

instance (segNo : ℕ) : DecidablePred (InvalidFit segNo) := fun line =>
  inferInstanceAs (Decidable (line.status = .invalid ∧ segNo ≤ getAvailSpace line))

instance (segNo : ℕ) : DecidablePred (InvalidShort segNo) := fun line =>
  inferInstanceAs (Decidable (line.status = .invalid ∧ getAvailSpace line < segNo))

/-! ## The lines that are due -/

variable (p : TagParams)

/-- A line that can be replaced. -/
def Live (line : CacheBlock) : Prop := line.status = .valid ∨ line.status = .modified

instance : DecidablePred Live := fun line =>
  inferInstanceAs (Decidable (line.status = .valid ∨ line.status = .modified))

/-- The time that way `w` has to lie below: that of the last access of the highest due way below it. -/
def dueTime (lines : Lines) (set : ℕ) : ℕ → UInt32
  | 0 => 0xFFFFFFFF
  | w + 1 =>
      if Live (p.way lines set w) ∧ p.stamp (p.way lines set w) < dueTime lines set w then
        (p.way lines set w).lastAccessTime
      else dueTime lines set w

/-- A live way is due when it is older than the due ways below it. -/
def Due (lines : Lines) (set w : ℕ) : Prop :=
  Live (p.way lines set w) ∧ p.stamp (p.way lines set w) < p.dueTime lines set w

instance (lines : Lines) (set : ℕ) : DecidablePred (p.Due lines set) := fun w =>
  inferInstanceAs (Decidable (Live (p.way lines set w) ∧
    p.stamp (p.way lines set w) < p.dueTime lines set w))

/-- The way that gives way to a line of `segNo` segments: an invalid one with room, or one that is due
and has room; without either, an invalid one, or one that is due. -/
def victim (lines : Lines) (set segNo : ℕ) : Option ℕ :=
  (highest (fun w => InvalidFit segNo (p.way lines set w)) p.tagAssocNo).or
    ((highest (fun w => p.Due lines set w ∧ segNo ≤ getAvailSpace (p.way lines set w)) p.tagAssocNo).or
      ((highest (fun w => InvalidShort segNo (p.way lines set w)) p.tagAssocNo).or
        (highest (fun w => p.Due lines set w ∧ getAvailSpace (p.way lines set w) < segNo)
          p.tagAssocNo)))

variable {p} {lines : Lines} {set segNo n v : ℕ} {addr : NewAddrType}

/-! ## The pass over the set -/

/-- **The candidates** after the lowest `n` ways. -/
theorem scan_eq (hcomp : p.isCompressed = true)
    (hfree : ∀ w < n, (p.way lines set w).status ≠ .reserved) :
    p.scan lines set segNo n =
      { invalidLine := (highest (fun w => InvalidShort segNo (p.way lines set w)) n).map
          (set * p.tagAssocNo + ·)
        validLine := (highest (fun w => p.Due lines set w ∧
          getAvailSpace (p.way lines set w) < segNo) n).map (set * p.tagAssocNo + ·)
        validTimestamp := p.dueTime lines set n
        allReserved := n == 0
        invalidLineWithAvailSpace := (highest (fun w => InvalidFit segNo (p.way lines set w)) n).map
          (set * p.tagAssocNo + ·)
        validLineWithAvailSpace := (highest (fun w => p.Due lines set w ∧
          segNo ≤ getAvailSpace (p.way lines set w)) n).map (set * p.tagAssocNo + ·) } := by
  induction n with
  | zero => rfl
  | succ n ih =>
    have hprev := ih fun w hw => hfree w (Nat.lt_succ_of_lt hw)
    have hstatus := hfree n n.lt_succ_self
    have hline : lines (set * p.tagAssocNo + n) = p.way lines set n := rfl
    rw [scan, List.range_succ, List.foldl_append, List.foldl_cons, List.foldl_nil]
    change p.noteLine lines segNo (p.scan lines set segNo n) _ = _
    rw [hprev]
    unfold noteLine
    simp only [hline, hcomp, true_and, if_true, if_neg hstatus]
    by_cases hinvalid : (p.way lines set n).status = .invalid
    · have hlive : ¬ Live (p.way lines set n) := by
        simp [Live, hinvalid]
      have hdue : ¬ p.Due lines set n := fun h => hlive h.1
      by_cases hfit : segNo ≤ getAvailSpace (p.way lines set n)
      · simp [highest, dueTime, InvalidFit, InvalidShort, hinvalid, hfit, hlive, hdue,
          Nat.not_lt.2 hfit]
      · simp [highest, dueTime, InvalidFit, InvalidShort, hinvalid, hfit, hlive, hdue,
          Nat.not_le.1 hfit]
    · have hlive : Live (p.way lines set n) := by
        unfold Live
        cases hst : (p.way lines set n).status <;> simp_all
      rw [if_neg hinvalid]
      by_cases hstamp : p.stamp (p.way lines set n) < p.dueTime lines set n
      · have hdue : p.Due lines set n := ⟨hlive, hstamp⟩
        by_cases hfit : segNo ≤ getAvailSpace (p.way lines set n)
        · simp [highest, dueTime, InvalidFit, InvalidShort, hinvalid, hfit, hlive, hdue, hstamp,
            Nat.not_lt.2 hfit]
        · simp [highest, dueTime, InvalidFit, InvalidShort, hinvalid, hfit, hlive, hdue, hstamp,
            Nat.not_le.1 hfit]
      · have hdue : ¬ p.Due lines set n := fun h => hstamp h.2
        simp [highest, dueTime, InvalidFit, InvalidShort, hinvalid, hdue, hstamp]

/-- The victim is a way of the set that can be replaced. -/
theorem victim_spec (h : p.victim lines set segNo = some v) :
    v < p.tagAssocNo ∧ ((p.way lines set v).status = .invalid ∨ p.Due lines set v) := by
  unfold victim at h
  rcases Option.or_eq_some_iff.1 h with h | ⟨-, h⟩
  · obtain ⟨hv, hkind, -⟩ := highest_eq_some h
    exact ⟨hv, Or.inl hkind.1⟩
  rcases Option.or_eq_some_iff.1 h with h | ⟨-, h⟩
  · obtain ⟨hv, hkind, -⟩ := highest_eq_some h
    exact ⟨hv, Or.inr hkind.1⟩
  rcases Option.or_eq_some_iff.1 h with h | ⟨-, h⟩
  · obtain ⟨hv, hkind, -⟩ := highest_eq_some h
    exact ⟨hv, Or.inl hkind.1⟩
  · obtain ⟨hv, hkind, -⟩ := highest_eq_some h
    exact ⟨hv, Or.inr hkind.1⟩

/-- What the end of the search makes of its candidates. -/
theorem chooseLine_eq (hcomp : p.isCompressed = true) (hfill : p.config.allocPolicy = .onFill)
    (hfree : ∀ w < p.tagAssocNo, (p.way lines set w).status ≠ .reserved) :
    p.chooseLine lines segNo (p.scan lines set segNo p.tagAssocNo) =
      (p.victim lines set segNo).bind fun v =>
        if segNo ≤ getAvailSpace (p.way lines set v) then some (.miss (set * p.tagAssocNo + v) [])
        else (p.doMultiLineEviction lines (set * p.tagAssocNo + v) segNo).map
          fun r => .miss r.1 r.2 := by
  rw [scan_eq hcomp hfree]
  unfold chooseLine victim
  by_cases hN : p.tagAssocNo = 0
  · simp [hN, hfill, highest]
  rw [if_neg (by simpa using hN), if_pos hcomp]
  dsimp only
  cases hif : highest (fun w => InvalidFit segNo (p.way lines set w)) p.tagAssocNo with
  | some v =>
    obtain ⟨-, ⟨-, hroom⟩, -⟩ := highest_eq_some hif
    simp [hroom]
  | none =>
    cases hvf : highest (fun w => p.Due lines set w ∧ segNo ≤ getAvailSpace (p.way lines set w))
      p.tagAssocNo with
    | some v =>
      obtain ⟨-, ⟨-, hroom⟩, -⟩ := highest_eq_some hvf
      simp [hroom]
    | none =>
      cases his : highest (fun w => InvalidShort segNo (p.way lines set w)) p.tagAssocNo with
      | some v =>
        obtain ⟨-, ⟨-, hshort⟩, -⟩ := highest_eq_some his
        simp [Nat.not_le.2 hshort]
      | none =>
        cases hvs : highest (fun w => p.Due lines set w ∧ getAvailSpace (p.way lines set w) < segNo)
          p.tagAssocNo with
        | some v =>
          obtain ⟨-, ⟨-, hshort⟩, -⟩ := highest_eq_some hvs
          simp [Nat.not_le.2 hshort]
        | none => rfl

/-- **The search** for a line that the set does not hold. -/
theorem probe_eq (hcomp : p.isCompressed = true) (hfill : p.config.allocPolicy = .onFill)
    (hset : p.config.setIndex addr = some set)
    (hfree : ∀ w < p.tagAssocNo, (p.way lines set w).status ≠ .reserved)
    (habsent : ∀ w < p.tagAssocNo, (p.way lines set w).tag = p.config.tag addr →
      (p.way lines set w).status = .invalid) :
    p.probe lines addr segNo =
      (p.victim lines set segNo).bind fun v =>
        if segNo ≤ getAvailSpace (p.way lines set v) then some (.miss (set * p.tagAssocNo + v) [])
        else (p.doMultiLineEviction lines (set * p.tagAssocNo + v) segNo).map
          fun r => .miss r.1 r.2 := by
  have hassoc : p.assocNo = p.tagAssocNo := if_pos hcomp
  have hloop : p.probeLoop lines (p.config.tag addr) segNo (p.setLines set) {} =
      .inr (p.scan lines set segNo p.tagAssocNo) := by
    rw [probeLoop_of_absent, setLines, hassoc, List.foldl_map]
    · rfl
    · intro i hi
      rw [setLines, hassoc] at hi
      obtain ⟨w, hw, rfl⟩ := List.mem_map.1 hi
      exact habsent w (List.mem_range.1 hw)
  rw [probe, hset, ← chooseLine_eq hcomp hfill hfree]
  simp only [Option.bind_eq_bind, Option.bind_some, hloop]

end TagParams

end CompressionWork.Cache
