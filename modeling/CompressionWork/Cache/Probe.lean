import CompressionWork.Cache.Victim

/-!
# What a probe says about the lines

The results of `probe`, `access` and `fill`, for every configuration: which line they name and what it
holds.

* `probe_hit`, `probe_hitReserved` — the line of a hit holds the block.
* `probe_absent` — a miss or a failure comes when no line of the set holds the block.
* `access_cases`, `fillIdx_cases` — what an access and the fill of a line change.
-/

namespace CompressionWork.Cache.TagParams

variable {p : TagParams} {lines : Lines} {addr tag : NewAddrType} {segNo idx : ℕ} {time : UInt32}
  {t t' : TagArray} {result : ProbeResult}

/-- What the loop over the ways finds. -/
theorem probeLoop_inl {ways : List ℕ} {c : Candidates}
    (h : p.probeLoop lines tag segNo ways c = .inl result) :
    ∃ i ∈ ways, (lines i).tag = tag ∧
      ((result = .hitReserved i ∧ (lines i).status = .reserved) ∨
        (result = .hit i ∧ (lines i).status ≠ .invalid ∧ (lines i).status ≠ .reserved)) := by
  induction ways generalizing c with
  | nil => cases h
  | cons index rest ih =>
      unfold probeLoop at h
      split_ifs at h with hreserved hhit
      · exact ⟨index, by simp, hreserved.1, Or.inl ⟨(Sum.inl.inj h).symm, hreserved.2⟩⟩
      · exact ⟨index, by simp, hhit.1, Or.inr ⟨(Sum.inl.inj h).symm, hhit.2,
          fun hres => hreserved ⟨hhit.1, hres⟩⟩⟩
      · obtain ⟨i, hi, hrest⟩ := ih h
        exact ⟨i, by simp [hi], hrest⟩

/-- The choice at the end is a miss or a failure. -/
theorem chooseLine_ne_hit {c : Candidates} (h : p.chooseLine lines segNo c = some result) :
    (∀ i, result ≠ .hit i) ∧ ∀ i, result ≠ .hitReserved i := by
  unfold chooseLine at h
  split at h
  · split at h
    · obtain rfl := Option.some.inj h
      exact ⟨fun _ => nofun, fun _ => nofun⟩
    · cases h
  · split at h
    · split at h
      · obtain rfl := Option.some.inj h
        exact ⟨fun _ => nofun, fun _ => nofun⟩
      · obtain rfl := Option.some.inj h
        exact ⟨fun _ => nofun, fun _ => nofun⟩
      · obtain ⟨r, -, rfl⟩ := Option.map_eq_some_iff.1 h
        exact ⟨fun _ => nofun, fun _ => nofun⟩
      · obtain ⟨r, -, rfl⟩ := Option.map_eq_some_iff.1 h
        exact ⟨fun _ => nofun, fun _ => nofun⟩
      · cases h
    · split at h
      · obtain rfl := Option.some.inj h
        exact ⟨fun _ => nofun, fun _ => nofun⟩
      · obtain rfl := Option.some.inj h
        exact ⟨fun _ => nofun, fun _ => nofun⟩
      · cases h

/-- A probe ends in the loop, or chooses a line when the block is not there. -/
theorem probe_cases (h : p.probe lines addr segNo = some result) :
    ∃ set, p.config.setIndex addr = some set ∧
      ((∃ i ∈ p.setLines set, (lines i).tag = p.config.tag addr ∧
          ((result = .hitReserved i ∧ (lines i).status = .reserved) ∨
            (result = .hit i ∧ (lines i).status ≠ .invalid ∧ (lines i).status ≠ .reserved))) ∨
        ((∀ i ∈ p.setLines set, (lines i).tag = p.config.tag addr → (lines i).status = .invalid) ∧
          p.chooseLine lines segNo
            ((p.setLines set).foldl (p.noteLine lines segNo) {}) = some result)) := by
  simp only [probe, Option.bind_eq_bind, Option.bind_eq_some_iff] at h
  obtain ⟨set, hset, h⟩ := h
  refine ⟨set, hset, ?_⟩
  cases hloop : p.probeLoop lines (p.config.tag addr) segNo (p.setLines set) {} with
  | inl found =>
      rw [hloop] at h
      obtain rfl := Option.some.inj h
      exact Or.inl (probeLoop_inl hloop)
  | inr c =>
      rw [hloop] at h
      obtain ⟨habsent, rfl⟩ := probeLoop_inr hloop
      exact Or.inr ⟨habsent, h⟩

theorem probe_hit (h : p.probe lines addr segNo = some (.hit idx)) :
    (lines idx).tag = p.config.tag addr ∧ (lines idx).status ≠ .invalid ∧
      (lines idx).status ≠ .reserved := by
  obtain ⟨set, -, ⟨i, -, htag, ⟨heq, -⟩ | ⟨heq, hstatus⟩⟩ | ⟨-, hchoose⟩⟩ := probe_cases h
  · cases heq
  · obtain rfl : idx = i := ProbeResult.hit.inj heq
    exact ⟨htag, hstatus⟩
  · exact absurd rfl ((chooseLine_ne_hit hchoose).1 idx)

theorem probe_hitReserved (h : p.probe lines addr segNo = some (.hitReserved idx)) :
    (lines idx).tag = p.config.tag addr ∧ (lines idx).status = .reserved := by
  obtain ⟨set, -, ⟨i, -, htag, ⟨heq, hstatus⟩ | ⟨heq, -⟩⟩ | ⟨-, hchoose⟩⟩ := probe_cases h
  · obtain rfl : idx = i := ProbeResult.hitReserved.inj heq
    exact ⟨htag, hstatus⟩
  · cases heq
  · exact absurd rfl ((chooseLine_ne_hit hchoose).2 idx)

/-- What an access changes. -/
theorem access_cases {evicted : Option CacheBlock}
    (h : p.access t addr time = some (result, evicted, t')) :
    p.probe t.lines addr 0 = some result ∧
      match result with
      | .hit idx | .hitReserved idx =>
          t'.lines = Function.update t.lines idx { t.lines idx with lastAccessTime := time }
      | .miss idx _ =>
          t'.lines = if p.config.allocPolicy = .onMiss then
            Function.update t.lines idx ((t.lines idx).allocate (p.config.tag addr)
              (p.config.blockAddr addr) time 0 0 0)
          else t.lines
      | .reservationFail => t'.lines = t.lines := by
  simp only [access, Option.bind_eq_bind, Option.bind_eq_some_iff, Option.pure_def] at h
  obtain ⟨result', hprobe, h⟩ := h
  cases result' with
  | hit idx =>
      obtain ⟨rfl, -, rfl⟩ := Prod.mk.inj (Option.some.inj h) |>.imp id Prod.mk.inj
      exact ⟨hprobe, rfl⟩
  | hitReserved idx =>
      obtain ⟨rfl, -, rfl⟩ := Prod.mk.inj (Option.some.inj h) |>.imp id Prod.mk.inj
      exact ⟨hprobe, rfl⟩
  | miss idx evict =>
      dsimp only at h
      split at h
      case isTrue hmiss =>
        obtain ⟨rfl, -, rfl⟩ := Prod.mk.inj (Option.some.inj h) |>.imp id Prod.mk.inj
        exact ⟨hprobe, (if_pos hmiss).symm⟩
      case isFalse hmiss =>
        obtain ⟨rfl, -, rfl⟩ := Prod.mk.inj (Option.some.inj h) |>.imp id Prod.mk.inj
        exact ⟨hprobe, (if_neg hmiss).symm⟩
  | reservationFail =>
      obtain ⟨rfl, -, rfl⟩ := Prod.mk.inj (Option.some.inj h) |>.imp id Prod.mk.inj
      exact ⟨hprobe, rfl⟩

/-- An access that expects no write-back is an access. -/
theorem access_of_accessNoWb (h : p.accessNoWb t addr time = some (result, t')) :
    p.access t addr time = some (result, none, t') := by
  simp only [accessNoWb, Option.bind_eq_bind, Option.bind_eq_some_iff, Option.guard_eq_some',
    Option.pure_def, Option.some.injEq, exists_const] at h
  obtain ⟨⟨result', evicted, t₁⟩, haccess, rfl, heq⟩ := h
  obtain ⟨rfl, rfl⟩ := Prod.mk.inj heq
  exact haccess

/-- A line is filled when it is reserved. -/
theorem fillLine_cases {lines' : Lines} (h : fillLine lines idx time = some lines') :
    (lines idx).status = .reserved ∧
      lines' = Function.update lines idx { lines idx with status := .valid, fillTime := time } := by
  obtain ⟨block, hblock, rfl⟩ := Option.map_eq_some_iff.1 h
  unfold CacheBlock.fill at hblock
  split at hblock
  case isTrue hres => exact ⟨hres, by rw [← Option.some.inj hblock]⟩
  case isFalse => cases hblock

theorem fillIdx_cases (h : p.fillIdx t idx time = some t') :
    p.config.allocPolicy = .onMiss ∧ (t.lines idx).status = .reserved ∧
      t'.lines = Function.update t.lines idx
        { t.lines idx with status := .valid, fillTime := time } := by
  simp only [fillIdx, Option.bind_eq_bind, Option.bind_eq_some_iff, Option.guard_eq_some',
    Option.pure_def, Option.some.injEq, exists_const] at h
  obtain ⟨hmiss, lines, hlines, rfl⟩ := h
  exact ⟨hmiss, fillLine_cases hlines⟩

end CompressionWork.Cache.TagParams
