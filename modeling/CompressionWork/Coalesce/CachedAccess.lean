import CompressionWork.Coalesce.Exact

/-!
# Constant and texture accesses

The part of `generate_mem_accesses` for the spaces with a cache of their own: one access for each line that
the warp touches.

* `generateCachedAccesses` — the threads of a line are collected in a map, the bytes in one mask.
* `AccessesOf` — accesses with given lines, threads and bytes.
* `accessesOf_generateCachedAccesses` — every access has the bytes of all lines together.
* `generateCachedAccesses_exact_iff` — when every access has the bytes of its own line.
-/

namespace CompressionWork.Coalesce

open SortedMap

namespace WarpInst

variable (w : WarpInst)

/-- The threads of the loop that are not skipped. -/
def activeThreads : List ℕ := (List.range w.warpSize).filter w.active

/-- `block_address`. -/
def lineAddress (cacheBlockSize thread : ℕ) : ℕ :=
  lineSizeBasedTagFunc (w.memreqaddr thread 0) cacheBlockSize

/-- `idx`, an `unsigned`. -/
def lineIdx (cacheBlockSize thread : ℕ) : ℕ :=
  (w.memreqaddr thread 0 - w.lineAddress cacheBlockSize thread) % 2 ^ 32

/-- The mask has 128 bits, and `set` throws beyond them. -/
def fitsMask (cacheBlockSize thread : ℕ) : Bool := w.lineIdx cacheBlockSize thread + w.dataSize ≤ 128

/-- The body of the loop: the mask of the bytes and the map of the threads. -/
def gather (cacheBlockSize : ℕ) (s : (ℕ → Bool) × List (ℕ × (ℕ → Bool))) (thread : ℕ) :
    (ℕ → Bool) × List (ℕ × (ℕ → Bool)) :=
  (setBits s.1 (w.lineIdx cacheBlockSize thread) w.dataSize,
    alter (w.lineAddress cacheBlockSize thread) (fun mask => setBits (mask.getD fun _ => false) thread 1) s.2)

/-- `generate_mem_accesses` for a cached space. -/
def generateCachedAccesses (cacheBlockSize : ℕ) : Option (List MemAccess) := do
  let (byteMask, accesses) ← w.activeThreads.foldlM (fun s thread =>
    if w.fitsMask cacheBlockSize thread then some (w.gather cacheBlockSize s thread) else none)
    (fun _ => false, [])
  pure (accesses.map fun a => {
    accessType := w.accessType
    addr := a.1
    reqSize := cacheBlockSize
    write := w.isWrite
    active := a.2
    bytes := byteMask
    threadIdAccessAddr := [] })

/-! ## Lines -/

/-- The address of the line that a thread touches. -/
def line (cacheBlockSize thread : ℕ) : ℕ :=
  w.memreqaddr thread 0 - w.memreqaddr thread 0 % cacheBlockSize

/-- A thread touches byte `i` of its line. -/
def Touches (cacheBlockSize thread i : ℕ) : Prop :=
  w.memreqaddr thread 0 % cacheBlockSize ≤ i ∧ i < w.memreqaddr thread 0 % cacheBlockSize + w.dataSize

/-- Some thread touches byte `i` of the line at `k`. -/
def TouchesLine (cacheBlockSize k i : ℕ) : Prop :=
  ∃ t ∈ w.activeThreads, w.line cacheBlockSize t = k ∧ w.Touches cacheBlockSize t i

end WarpInst

/-- One access for each line of an active thread, with the threads of the line and with given bytes. -/
structure AccessesOf (w : WarpInst) (cacheBlockSize : ℕ) (lineOf : ℕ → ℕ) (bytes : ℕ → ℕ → Prop)
    (out : List MemAccess) : Prop where
  distinct : out.Pairwise (·.addr ≠ ·.addr)
  lines : ∀ k, (∃ m ∈ out, m.addr = k) ↔ ∃ t ∈ w.activeThreads, lineOf t = k
  size : ∀ m ∈ out, m.reqSize = cacheBlockSize
  threads : ∀ m ∈ out, ∀ t, m.active t = true ↔ t ∈ w.activeThreads ∧ lineOf t = m.addr
  bytes : ∀ m ∈ out, ∀ i, m.bytes i = true ↔ bytes m.addr i

/-- The accesses have their own bytes. -/
def CachedExact (w : WarpInst) (cacheBlockSize : ℕ) (out : List MemAccess) : Prop :=
  AccessesOf w cacheBlockSize (w.line cacheBlockSize) (w.TouchesLine cacheBlockSize) out

/-- What two active threads touch of their lines is the same. -/
def SameBytes (w : WarpInst) (cacheBlockSize : ℕ) : Prop :=
  ∀ t ∈ w.activeThreads, ∀ t' ∈ w.activeThreads, ∀ i,
    w.TouchesLine cacheBlockSize (w.line cacheBlockSize t) i →
    w.TouchesLine cacheBlockSize (w.line cacheBlockSize t') i

variable {w : WarpInst} {s t k i : ℕ}

/-! ## Addresses -/

theorem lineIdx_eq (hs : s ∣ 128) : w.lineIdx s t = w.memreqaddr t 0 % s := by
  have hpos : 0 < s := Nat.pos_of_dvd_of_pos hs (by decide)
  have hle : s ≤ 128 := Nat.le_of_dvd (by decide) hs
  have hlt := Nat.mod_lt (w.memreqaddr t 0) hpos
  have hrest := Nat.mod_le (w.memreqaddr t 0) s
  unfold WarpInst.lineIdx WarpInst.lineAddress lineSizeBasedTagFunc
  omega

theorem lineAddress_eq (h : w.memreqaddr t 0 < 2 ^ 32) : w.lineAddress s t = w.line s t := tag_eq h

/-- The lines of an address from `2 ^ 32` on are there too. -/
theorem lt_of_line_lt (hs : s ∣ 128) (h : w.line s t < 2 ^ 32) : w.memreqaddr t 0 < 2 ^ 32 := by
  have hpos : 0 < s := Nat.pos_of_dvd_of_pos hs (by decide)
  have hline : s ∣ w.line s t := Nat.dvd_sub_mod _
  have hend : w.line s t + s ≤ 2 ^ 32 := add_le_of_dvd hline (Nat.dvd_trans hs (by decide)) h
  have hlt := Nat.mod_lt (w.memreqaddr t 0) hpos
  unfold WarpInst.line at hend
  omega

/-! ## The loop -/

theorem bytes_foldl_gather (hs : s ∣ 128) (L : List ℕ) :
    (L.foldl (w.gather s) (fun _ => false, [])).1 i = true ↔ ∃ t ∈ L, w.Touches s t i := by
  induction L using List.reverseRecOn with
  | nil => simp
  | append_singleton L t ih =>
    rw [List.foldl_append]
    simp only [List.foldl_cons, List.foldl_nil, WarpInst.gather, setBits, Bool.or_eq_true, ih, lineIdx_eq hs,
      Bool.and_eq_true, decide_eq_true_eq, List.mem_append, List.mem_singleton, or_and_right, exists_or,
      exists_eq_left]
    exact Iff.rfl

theorem lines_foldl_gather (L : List ℕ) :
    (L.foldl (w.gather s) (fun _ => false, [])).2 =
      group (w.lineAddress s) (fun t mask => setBits (mask.getD fun _ => false) t 1) L := by
  induction L using List.reverseRecOn with
  | nil => rfl
  | append_singleton L t ih =>
    rw [List.foldl_append, group_concat, ← ih]
    rfl

/-- The threads of a line. -/
theorem fold_threads (L : List ℕ) :
    (∀ t, ((fold (fun t mask => setBits (mask.getD fun _ => false) t 1) L).getD fun _ => false) t = true ↔
      t ∈ L) ∧ (L = [] ↔ fold (fun t mask => setBits (mask.getD fun _ => false) t 1) L = none) := by
  induction L using List.reverseRecOn with
  | nil => simp [fold]
  | append_singleton L a ih =>
    rw [fold_concat]
    refine ⟨fun t => ?_, by simp⟩
    have ht := ih.1 t
    simp only [Option.getD_some, setBits, Bool.or_eq_true, ht, Bool.and_eq_true, decide_eq_true_eq,
      List.mem_append, List.mem_singleton]
    exact or_congr_right ⟨by omega, by omega⟩

/-- A line is in the map when a thread touches it. -/
theorem exists_fold_threads {L : List ℕ} :
    (∃ mask, fold (fun t mask => setBits (mask.getD fun _ => false) t 1) L = some mask) ↔ L ≠ [] := by
  rw [Ne, (fold_threads L).2, ← Ne, Option.ne_none_iff_exists']

/-- **What the code does**: the threads are those of the line, the bytes those of all lines. -/
theorem accessesOf_generateCachedAccesses (hs : s ∣ 128)
    (hin : ∀ t ∈ w.activeThreads, w.memreqaddr t 0 % s + w.dataSize ≤ s) :
    ∃ out, w.generateCachedAccesses s = some out ∧
      AccessesOf w s (w.lineAddress s) (fun _ i => ∃ t ∈ w.activeThreads, w.Touches s t i) out := by
  have hle : s ≤ 128 := Nat.le_of_dvd (by decide) hs
  have hfits : ∀ t ∈ w.activeThreads, w.fitsMask s t = true := fun t ht => by
    have := hin t ht
    rw [WarpInst.fitsMask, lineIdx_eq hs, decide_eq_true_eq]
    omega
  have hfold := foldlM_eq_foldl (g := w.gather s) hfits (fun _ => false, [])
  have hsorted := sorted_group (w.lineAddress s)
    (fun t mask => setBits (mask.getD fun _ => false) t 1) w.activeThreads
  -- the entries of the map
  have hentry : ∀ k mask, (k, mask) ∈ (w.activeThreads.foldl (w.gather s) (fun _ => false, [])).2 ↔
      fold (fun t mask => setBits (mask.getD fun _ => false) t 1)
        (w.activeThreads.filter (w.lineAddress s · = k)) = some mask := by
    intro k mask
    rw [lines_foldl_gather]
    exact mem_group _ _ _
  rw [← lines_foldl_gather] at hsorted
  refine ⟨_, by rw [WarpInst.generateCachedAccesses, hfold]; rfl, ?_⟩
  constructor
  · exact List.pairwise_map.2 (hsorted.imp fun hlt => ne_of_lt hlt)
  · intro k
    constructor
    · rintro ⟨m, hm, rfl⟩
      obtain ⟨⟨k, mask⟩, he, rfl⟩ := List.mem_map.1 hm
      obtain ⟨t, ht⟩ := List.exists_mem_of_ne_nil _ (exists_fold_threads.1 ⟨mask, (hentry k mask).1 he⟩)
      exact ⟨t, List.mem_of_mem_filter ht, of_decide_eq_true (List.mem_filter.1 ht).2⟩
    · rintro ⟨t, ht, rfl⟩
      have hmem : t ∈ w.activeThreads.filter (w.lineAddress s · = w.lineAddress s t) :=
        List.mem_filter.2 ⟨ht, decide_eq_true rfl⟩
      obtain ⟨mask, hmask⟩ := exists_fold_threads.2 (List.ne_nil_of_mem hmem)
      exact ⟨_, List.mem_map_of_mem ((hentry _ _).2 hmask), rfl⟩
  · intro m hm
    obtain ⟨e, -, rfl⟩ := List.mem_map.1 hm
    rfl
  · intro m hm t
    obtain ⟨⟨k, mask⟩, he, rfl⟩ := List.mem_map.1 hm
    have hthreads := (fold_threads (w.activeThreads.filter (w.lineAddress s · = k))).1 t
    rw [(hentry k mask).1 he, List.mem_filter, decide_eq_true_eq] at hthreads
    exact hthreads
  · intro m hm i
    obtain ⟨e, -, rfl⟩ := List.mem_map.1 hm
    exact bytes_foldl_gather hs _

/-! ## The bytes of the lines -/

/-- **Constant and texture accesses** have the threads and the bytes of their own lines just when no address
needs more than 32 bits and all lines are touched at the same bytes. -/
theorem generateCachedAccesses_exact_iff (w : WarpInst) (s : ℕ) (hs : s ∣ 128)
    (hin : ∀ t ∈ w.activeThreads, w.memreqaddr t 0 % s + w.dataSize ≤ s) :
    (∃ out, w.generateCachedAccesses s = some out ∧ CachedExact w s out) ↔
      (∀ t ∈ w.activeThreads, w.memreqaddr t 0 < 2 ^ 32) ∧ SameBytes w s := by
  obtain ⟨out, hout, hof⟩ := accessesOf_generateCachedAccesses hs hin
  constructor
  · rintro ⟨out', hout', hexact⟩
    obtain rfl : out = out' := Option.some.inj (hout.symm.trans hout')
    refine ⟨fun t ht => ?_, fun t ht t' ht' i hi => ?_⟩
    · obtain ⟨m, hm, hline⟩ := (hexact.lines _).2 ⟨t, ht, rfl⟩
      obtain ⟨t', -, htag⟩ := (hof.lines _).1 ⟨m, hm, rfl⟩
      refine lt_of_line_lt hs ?_
      rw [← hline, ← htag]
      exact Nat.mod_lt _ (Nat.two_pow_pos 32)
    · -- the two accesses have one mask
      obtain ⟨m, hm, hline⟩ := (hexact.lines _).2 ⟨t, ht, rfl⟩
      obtain ⟨m', hm', hline'⟩ := (hexact.lines _).2 ⟨t', ht', rfl⟩
      rw [← hline] at hi
      rw [← hline']
      have hmask := (hof.bytes m hm i).1 ((hexact.bytes m hm i).2 hi)
      exact (hexact.bytes m' hm' i).1 ((hof.bytes m' hm' i).2 hmask)
  · rintro ⟨haddr, hsame⟩
    have hline : ∀ t ∈ w.activeThreads, w.lineAddress s t = w.line s t := fun t ht =>
      lineAddress_eq (haddr t ht)
    have hlines : ∀ k, (∃ t ∈ w.activeThreads, w.lineAddress s t = k) ↔
        ∃ t ∈ w.activeThreads, w.line s t = k := fun k =>
      exists_congr fun t => and_congr_right fun ht => by rw [hline t ht]
    refine ⟨out, hout, hof.distinct, fun k => (hof.lines k).trans (hlines k), hof.size, fun m hm t => ?_,
      fun m hm i => ?_⟩
    · exact (hof.threads m hm t).trans (and_congr_right fun ht => by rw [hline t ht])
    · rw [hof.bytes m hm i]
      obtain ⟨t₀, ht₀, hk⟩ := (hlines _).1 ((hof.lines _).1 ⟨m, hm, rfl⟩)
      constructor
      · rintro ⟨t, ht, hi⟩
        rw [← hk]
        exact hsame t ht t₀ ht₀ i ⟨t, ht, rfl, hi⟩
      · rintro ⟨t, ht, -, hi⟩
        exact ⟨t, ht, hi⟩

/-- Two threads with words of two lines at different places. -/
def twoLines : WarpInst where
  warpSize := 2
  memWarpParts := 1
  dataSize := 4
  isLocal := false
  isAtomic := false
  isWrite := false
  accessType := .constAccR
  active _ := true
  memreqaddr thread _ := 132 * thread

theorem generateCachedAccesses_exact_iff_twoLines :
    (∃ out, twoLines.generateCachedAccesses 128 = some out ∧ CachedExact twoLines 128 out) ↔
      (∀ t ∈ twoLines.activeThreads, twoLines.memreqaddr t 0 < 2 ^ 32) ∧ SameBytes twoLines 128 :=
  generateCachedAccesses_exact_iff twoLines 128 (by decide) (by decide)

theorem not_exact_generateCachedAccesses :
    ¬ ∃ out, twoLines.generateCachedAccesses 128 = some out ∧ CachedExact twoLines 128 out := by
  rintro ⟨out, hout, hexact⟩
  obtain ⟨out', hout', hof⟩ := accessesOf_generateCachedAccesses (w := twoLines) (s := 128) (by decide)
    (by decide)
  obtain rfl : out' = out := Option.some.inj (hout'.symm.trans hout)
  obtain ⟨m, hm, hline⟩ := (hexact.lines 0).2 ⟨0, by decide, rfl⟩
  -- byte 4 is touched in the second line only
  have hmask : m.bytes 4 = true := (hof.bytes m hm 4).2 ⟨1, by decide, by decide, by decide⟩
  obtain ⟨t, ht, hk, hle, hlt⟩ := (hexact.bytes m hm 4).1 hmask
  rw [hline] at hk
  have ht2 : t < 2 := List.mem_range.1 (List.mem_of_mem_filter ht)
  obtain rfl | rfl : t = 0 ∨ t = 1 := by omega
  · exact absurd hlt (by decide)
  · exact absurd hk (by decide)

end CompressionWork.Coalesce
