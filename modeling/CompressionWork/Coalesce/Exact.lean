import CompressionWork.Coalesce.Access

/-!
# The transactions of a warp

* `InfoOf` — a transaction has the threads, the bytes and the chunks of its accesses.
* `reduceAndSend_spec` — it shrinks to a part of its segment that all its accesses lie in.
* `Exact` — what the transactions of a subwarp cover.
* `exact_coalesceSubwarp` — the transactions of its loads and stores are exact.
-/

namespace CompressionWork.Coalesce

open SortedMap

variable {w : WarpInst} {width : ℕ} {L : List (ℕ × ℕ)} {info : TransactionInfo}

/-! ## Segments -/

theorem add_le_of_dvd {d r s : ℕ} (hr : d ∣ r) (hs : d ∣ s) (h : r < s) : r + d ≤ s := by
  obtain ⟨x, rfl⟩ := hr
  obtain ⟨y, rfl⟩ := hs
  have hxy : x < y := Nat.lt_of_mul_lt_mul_left h
  calc d * x + d = d * (x + 1) := (Nat.mul_succ d x).symm
    _ ≤ d * y := Nat.mul_le_mul_left d hxy

theorem tag_eq {a s : ℕ} (ha : a < 2 ^ 32) : lineSizeBasedTagFunc a s = a - a % s :=
  Nat.mod_eq_of_lt (Nat.lt_of_le_of_lt (Nat.sub_le _ _) ha)

theorem tag_last {a s d : ℕ} (hd : d ∣ a) (hs : d ∣ s) (hs32 : s ∣ 2 ^ 32) (hpos : 0 < d) (ha : a < 2 ^ 32) :
    lineSizeBasedTagFunc (a + d - 1) s = lineSizeBasedTagFunc a s := by
  have hspos : 0 < s := Nat.pos_of_dvd_of_pos hs32 (Nat.two_pow_pos 32)
  have hfit : a + d ≤ 2 ^ 32 := add_le_of_dvd hd (Nat.dvd_trans hs hs32) ha
  have hrest : a % s + d ≤ s := add_le_of_dvd ((Nat.dvd_mod_iff hs).2 hd) hs (Nat.mod_lt a hspos)
  have hsplit := Nat.div_add_mod a s
  have hlast : a + d - 1 = s * (a / s) + (a % s + d - 1) := by omega
  have hmod : (a + d - 1) % s = a % s + d - 1 := by
    rw [hlast, Nat.mul_add_mod]
    exact Nat.mod_eq_of_lt (by omega)
  rw [tag_eq (by omega), tag_eq ha, hmod]
  omega

/-! ## Transactions -/

/-- The chunks, bytes and threads of a list of accesses. -/
structure InfoOf (width : ℕ) (L : List (ℕ × ℕ)) (info : TransactionInfo) : Prop where
  chunks : ∀ c, info.chunks c = true ↔ ∃ a ∈ L, a.2 % 128 / 32 = c
  bytes : ∀ i, info.bytes i = true ↔ ∃ a ∈ L, a.2 % 128 ≤ i ∧ i < a.2 % 128 + width
  active : ∀ t, info.active t = true ↔ ∃ a ∈ L, a.1 = t

theorem infoOf_nil : InfoOf width [] {} := by
  constructor <;> simp

theorem InfoOf.set (h : InfoOf width L info) (a : ℕ × ℕ) :
    InfoOf width (L ++ [a]) (info.set width a.1 a.2) := by
  constructor
  · intro c
    have hc := h.chunks c
    simp only [TransactionInfo.set, setBits, Bool.or_eq_true, hc, Bool.and_eq_true, decide_eq_true_eq,
      List.mem_append, List.mem_singleton, or_and_right, exists_or, exists_eq_left]
    exact or_congr_right ⟨by omega, by omega⟩
  · intro i
    have hi := h.bytes i
    simp only [TransactionInfo.set, setBits, Bool.or_eq_true, hi, Bool.and_eq_true, decide_eq_true_eq,
      List.mem_append, List.mem_singleton, or_and_right, exists_or, exists_eq_left]
  · intro t
    have ht := h.active t
    simp only [TransactionInfo.set, setBits, Bool.or_eq_true, ht, Bool.and_eq_true, decide_eq_true_eq,
      List.mem_append, List.mem_singleton, or_and_right, exists_or, exists_eq_left]
    exact or_congr_right ⟨by omega, by omega⟩

theorem reduceHalves_spec {addr : ℕ} {h0 h1 : Bool} (hne : L ≠ []) (haddr : 64 ∣ addr)
    (hin : ∀ a ∈ L, addr ≤ a.2 ∧ a.2 < addr + 64) (hlow : h0 = true ↔ ∃ a ∈ L, a.2 < addr + 32)
    (hhigh : h1 = true ↔ ∃ a ∈ L, addr + 32 ≤ a.2) :
    ∃ r, reduceHalves addr h0 h1 = some r ∧ (r.2 = 32 ∨ r.2 = 64) ∧ r.2 ∣ r.1 ∧ addr ≤ r.1 ∧
      r.1 + r.2 ≤ addr + 64 ∧ ∀ a ∈ L, r.1 ≤ a.2 ∧ a.2 < r.1 + r.2 := by
  cases h0 with
  | false =>
    have hup : ∀ a ∈ L, addr + 32 ≤ a.2 := fun a ha => by
      by_contra hlt
      exact absurd (hlow.2 ⟨a, ha, by omega⟩) nofun
    have h1 : h1 = true := by
      obtain ⟨a, ha⟩ := List.exists_mem_of_ne_nil L hne
      exact hhigh.2 ⟨a, ha, hup a ha⟩
    subst h1
    refine ⟨(addr + 32, 32), rfl, Or.inl rfl, by dsimp only; omega, by dsimp only; omega,
      by dsimp only; omega, fun a ha => ?_⟩
    have := hin a ha
    have := hup a ha
    exact ⟨by dsimp only; omega, by dsimp only; omega⟩
  | true =>
    cases h1 with
    | false =>
      refine ⟨(addr, 32), rfl, Or.inl rfl, by dsimp only; omega, Nat.le_refl _, by dsimp only; omega,
        fun a ha => ?_⟩
      have := hin a ha
      have hlt : ¬ addr + 32 ≤ a.2 := fun hle => absurd (hhigh.2 ⟨a, ha, hle⟩) nofun
      exact ⟨by dsimp only; omega, by dsimp only; omega⟩
    | true => exact ⟨(addr, 64), rfl, Or.inr rfl, haddr, Nat.le_refl _, Nat.le_refl _, hin⟩

theorem segmentSize_cases (h : w.dataSize = 1 ∨ w.dataSize = 2 ∨ w.dataSize = 4 ∨ w.dataSize = 8 ∨
    w.dataSize = 16) : w.segmentSize = 32 ∨ w.segmentSize = 64 ∨ w.segmentSize = 128 := by
  unfold WarpInst.segmentSize
  rcases h with h | h | h | h | h <;> simp [h]

theorem reduceSegment_spec {q : ℕ → Bool} {addr s : ℕ} (hq : ∀ c, q c = true ↔ ∃ a ∈ L, a.2 % 128 / 32 = c)
    (hne : L ≠ []) (hs : s = 32 ∨ s = 64 ∨ s = 128) (haddr : s ∣ addr)
    (hin : ∀ a ∈ L, addr ≤ a.2 ∧ a.2 < addr + s) :
    ∃ r, reduceSegment q addr s = some r ∧ (r.2 = 32 ∨ r.2 = 64 ∨ r.2 = 128) ∧ r.2 ∣ r.1 ∧ addr ≤ r.1 ∧
      r.1 + r.2 ≤ addr + s ∧ ∀ a ∈ L, r.1 ≤ a.2 ∧ a.2 < r.1 + r.2 := by
  -- the two chunks from `c` on are the halves of the 64 bytes at `base`
  have hhalves : ∀ base c, 64 ∣ base → base % 128 / 32 = c → (∀ a ∈ L, base ≤ a.2 ∧ a.2 < base + 64) →
      ∃ r, reduceHalves base (q c) (q (c + 1)) = some r ∧ (r.2 = 32 ∨ r.2 = 64) ∧ r.2 ∣ r.1 ∧
        base ≤ r.1 ∧ r.1 + r.2 ≤ base + 64 ∧ ∀ a ∈ L, r.1 ≤ a.2 ∧ a.2 < r.1 + r.2 := by
    intro base c hbase hc hin'
    refine reduceHalves_spec hne hbase hin' ((hq c).trans ?_) ((hq (c + 1)).trans ?_)
    · refine exists_congr fun a => and_congr_right fun ha => ?_
      have := hin' a ha
      omega
    · refine exists_congr fun a => and_congr_right fun ha => ?_
      have := hin' a ha
      omega
  rcases hs with rfl | rfl | rfl
  · exact ⟨(addr, 32), rfl, Or.inl rfl, haddr, Nat.le_refl _, Nat.le_refl _, hin⟩
  · have hmod : addr % 128 = 0 ∨ addr % 128 = 64 := by omega
    rcases hmod with hmod | hmod
    · obtain ⟨r, hr, hsize, hrest⟩ := hhalves addr 0 haddr (by omega) hin
      refine ⟨r, ?_, hsize.imp_right Or.inl, hrest⟩
      rw [reduceSegment, if_neg (by decide), if_pos rfl, if_pos hmod, hr]
    · obtain ⟨r, hr, hsize, hrest⟩ := hhalves addr 2 haddr (by omega) hin
      refine ⟨r, ?_, hsize.imp_right Or.inl, hrest⟩
      rw [reduceSegment, if_neg (by decide), if_pos rfl, if_neg (by omega), if_pos hmod, hr]
  · have hlow : (q 0 || q 1) = true ↔ ∃ a ∈ L, a.2 < addr + 64 := by
      rw [Bool.or_eq_true, hq, hq, ← exists_or]
      refine exists_congr fun a => ?_
      rw [← and_or_left]
      refine and_congr_right fun ha => ?_
      have := hin a ha
      omega
    have hhigh : (q 2 || q 3) = true ↔ ∃ a ∈ L, addr + 64 ≤ a.2 := by
      rw [Bool.or_eq_true, hq, hq, ← exists_or]
      refine exists_congr fun a => ?_
      rw [← and_or_left]
      refine and_congr_right fun ha => ?_
      have := hin a ha
      omega
    rw [reduceSegment, if_pos rfl]
    cases hl : (q 0 || q 1) with
    | true =>
      cases hh : (q 2 || q 3) with
      | true => exact ⟨(addr, 128), rfl, Or.inr (Or.inr rfl), haddr, Nat.le_refl _, Nat.le_refl _, hin⟩
      | false =>
        have hin' : ∀ a ∈ L, addr ≤ a.2 ∧ a.2 < addr + 64 := fun a ha => by
          refine ⟨(hin a ha).1, Nat.lt_of_not_le fun hle => ?_⟩
          rw [hhigh.2 ⟨a, ha, hle⟩] at hh
          exact absurd hh nofun
        obtain ⟨r, hr, hsize, hdvd, hle, hend, hall⟩ := hhalves addr 0 (by omega) (by omega) hin'
        exact ⟨r, hr, hsize.imp_right Or.inl, hdvd, hle, by omega, hall⟩
    | false =>
      have hup : ∀ a ∈ L, addr + 64 ≤ a.2 := fun a ha => by
        refine Nat.le_of_not_lt fun hlt => ?_
        rw [hlow.2 ⟨a, ha, hlt⟩] at hl
        exact absurd hl nofun
      have hh : (q 2 || q 3) = true := by
        obtain ⟨a, ha⟩ := List.exists_mem_of_ne_nil L hne
        exact hhigh.2 ⟨a, ha, hup a ha⟩
      have hin' : ∀ a ∈ L, addr + 64 ≤ a.2 ∧ a.2 < addr + 64 + 64 := fun a ha =>
        ⟨hup a ha, by have := hin a ha; omega⟩
      obtain ⟨r, hr, hsize, hdvd, hle, hend, hall⟩ := hhalves (addr + 64) 2 (by omega) (by omega) hin'
      rw [hh]
      exact ⟨r, hr, hsize.imp_right Or.inl, hdvd, by omega, by omega, hall⟩

/-- **A transaction** shrinks to a part of its segment that has all its accesses. -/
theorem reduceAndSend_spec {addr s : ℕ} (hinfo : InfoOf width L info) (hne : L ≠ [])
    (hs : s = 32 ∨ s = 64 ∨ s = 128) (haddr : s ∣ addr) (hin : ∀ a ∈ L, addr ≤ a.2 ∧ a.2 < addr + s) :
    ∃ m, w.reduceAndSend info addr s = some m ∧ (m.reqSize = 32 ∨ m.reqSize = 64 ∨ m.reqSize = 128) ∧
      m.reqSize ∣ m.addr ∧ addr ≤ m.addr ∧ m.addr + m.reqSize ≤ addr + s ∧ m.active = info.active ∧
      m.bytes = info.bytes ∧ ∀ a ∈ L, m.addr ≤ a.2 ∧ a.2 < m.addr + m.reqSize := by
  obtain ⟨r, hr, hsize, hdvd, hle, hend, hall⟩ := reduceSegment_spec hinfo.chunks hne hs haddr hin
  have hcount : (info.chunks 0 || info.chunks 1 || info.chunks 2 || info.chunks 3) = true := by
    obtain ⟨a, ha⟩ := List.exists_mem_of_ne_nil L hne
    have hc : info.chunks (a.2 % 128 / 32) = true := (hinfo.chunks _).2 ⟨a, ha, rfl⟩
    have hcases : a.2 % 128 / 32 = 0 ∨ a.2 % 128 / 32 = 1 ∨ a.2 % 128 / 32 = 2 ∨ a.2 % 128 / 32 = 3 := by
      omega
    rcases hcases with h | h | h | h <;> rw [h] at hc <;> simp [hc]
  refine ⟨⟨w.accessType, r.1, r.2, w.isWrite, info.active, info.bytes, info.threadIdAccessAddr⟩, ?_, hsize,
    hdvd, hle, hend, rfl, rfl, hall⟩
  simp only [WarpInst.reduceAndSend, Nat.mod_eq_zero_of_dvd haddr, hcount, hr, guard_true]
  rfl

/-! ## Lists -/

theorem foldlM_eq_foldl {α β : Type*} {p : α → Bool} {g : β → α → β} {l : List α} (h : ∀ a ∈ l, p a = true)
    (b : β) : l.foldlM (fun b a => if p a then some (g b a) else none) b = some (l.foldl g b) := by
  induction l generalizing b with
  | nil => rfl
  | cons a l ih =>
    rw [List.foldlM_cons, if_pos (h a List.mem_cons_self)]
    exact ih (fun a' ha' => h a' (List.mem_cons_of_mem _ ha')) _

theorem mapM_eq_map {α β : Type*} {f : α → Option β} {g : α → β} {l : List α}
    (h : ∀ a ∈ l, f a = some (g a)) : l.mapM f = some (l.map g) := by
  induction l with
  | nil => rfl
  | cons a l ih =>
    rw [List.mapM_cons, h a List.mem_cons_self, ih fun a' ha' => h a' (List.mem_cons_of_mem _ ha')]
    rfl

theorem countP_eq_one {α : Type*} {p : α → Bool} {l : List α} (hex : ∃ x ∈ l, p x = true)
    (honce : l.Pairwise fun x y => ¬ (p x = true ∧ p y = true)) : l.countP p = 1 := by
  induction l with
  | nil => exact absurd hex (by simp)
  | cons x l ih =>
    obtain ⟨hx, hl⟩ := List.pairwise_cons.1 honce
    by_cases hp : p x = true
    · have hzero : l.countP p = 0 := List.countP_eq_zero.2 fun y hy hpy => hx y hy ⟨hp, hpy⟩
      rw [List.countP_cons_of_pos hp, hzero]
    · rw [List.countP_cons_of_neg hp]
      obtain ⟨y, hy, hpy⟩ := hex
      rcases List.mem_cons.1 hy with rfl | hy
      · exact absurd hpy hp
      · exact ih ⟨y, hy, hpy⟩ hl

/-! ## Loads and stores -/

/-- The bytes of an access lie in a transaction. -/
def MemAccess.Contains (m : MemAccess) (width addr : ℕ) : Prop :=
  m.addr ≤ addr ∧ addr + width ≤ m.addr + m.reqSize

/-- What the transactions of a subwarp cover, whose threads access `addr` where `accessed t addr`. -/
structure Exact (width : ℕ) (accessed : ℕ → ℕ → Prop) (out : List MemAccess) : Prop where
  size : ∀ m ∈ out, (m.reqSize = 32 ∨ m.reqSize = 64 ∨ m.reqSize = 128) ∧ m.reqSize ∣ m.addr
  apart : out.Pairwise fun m m' => m.addr + m.reqSize ≤ m'.addr ∨ m'.addr + m'.reqSize ≤ m.addr
  covered : ∀ t addr, accessed t addr → ∀ b, addr ≤ b → b < addr + width →
    out.countP (fun m => m.addr ≤ b ∧ b < m.addr + m.reqSize) = 1
  active : ∀ m ∈ out, ∀ t, m.active t = true ↔ ∃ addr, accessed t addr ∧ m.Contains width addr
  bytes : ∀ m ∈ out, ∀ i, m.bytes i = true ↔ ∃ t addr, accessed t addr ∧ m.Contains width addr ∧
    addr ≤ m.addr / 128 * 128 + i ∧ m.addr / 128 * 128 + i < addr + width

/-- The width of the accesses and the size of the segments fit together, and so do the addresses. -/
structure Aligned (w : WarpInst) (width : ℕ) (L : List (ℕ × ℕ)) : Prop where
  segment : w.segmentSize = 32 ∨ w.segmentSize = 64 ∨ w.segmentSize = 128
  pos : 0 < width
  chunk : width ∣ 32
  natural : ∀ a ∈ L, width ∣ a.2
  address : ∀ a ∈ L, a.2 < 2 ^ 32

theorem Aligned.oneSegment (h : Aligned w width L) : ∀ a ∈ L, w.oneSegment width a = true := by
  intro a ha
  have hs : 32 ∣ w.segmentSize ∧ w.segmentSize ∣ 2 ^ 32 := by
    rcases h.segment with hs | hs | hs <;> rw [hs] <;> decide
  rw [WarpInst.oneSegment, WarpInst.blockAddress, beq_iff_eq]
  exact (tag_last (h.natural a ha) (Nat.dvd_trans h.chunk hs.1) hs.2 h.pos (h.address a ha)).symm

/-- The segment of an access. -/
theorem Aligned.block (h : Aligned w width L) {a : ℕ × ℕ} (ha : a ∈ L) (k : ℕ) :
    w.blockAddress a = k ↔ w.segmentSize ∣ k ∧ k ≤ a.2 ∧ a.2 < k + w.segmentSize := by
  rw [WarpInst.blockAddress, tag_eq (h.address a ha)]
  rcases h.segment with hs | hs | hs <;> rw [hs] <;> omega

theorem infoOf_join (L : List (ℕ × ℕ)) :
    InfoOf w.dataSizeCoales L ((fold w.join L).getD {}) ∧ (L = [] ↔ fold w.join L = none) := by
  induction L using List.reverseRecOn with
  | nil => exact ⟨infoOf_nil, by simp [fold]⟩
  | append_singleton L a ih =>
    rw [fold_concat]
    have hset := ih.1.set a
    exact ⟨⟨hset.chunks, hset.bytes, hset.active⟩, by simp⟩

/-- What a transaction of the segment at `k` is to be. -/
structure Served (w : WarpInst) (width : ℕ) (L : List (ℕ × ℕ)) (k : ℕ) (m : MemAccess) : Prop where
  size : m.reqSize = 32 ∨ m.reqSize = 64 ∨ m.reqSize = 128
  dvd : m.reqSize ∣ m.addr
  inSegment : k ≤ m.addr ∧ m.addr + m.reqSize ≤ k + w.segmentSize
  contains : ∀ a ∈ L, m.Contains width a.2
  active : ∀ t, m.active t = true ↔ ∃ a ∈ L, a.1 = t
  bytes : ∀ i, m.bytes i = true ↔ ∃ a ∈ L, a.2 ≤ m.addr / 128 * 128 + i ∧
    m.addr / 128 * 128 + i < a.2 + width

theorem served (h : Aligned w width L) {k : ℕ} (hinfo : InfoOf width L info) (hne : L ≠ [])
    (hblock : ∀ a ∈ L, w.blockAddress a = k) :
    ∃ m, w.reduceAndSend info k w.segmentSize = some m ∧ Served w width L k m := by
  have hin : ∀ a ∈ L, w.segmentSize ∣ k ∧ k ≤ a.2 ∧ a.2 < k + w.segmentSize :=
    fun a ha => (h.block ha k).1 (hblock a ha)
  obtain ⟨a₀, ha₀⟩ := List.exists_mem_of_ne_nil L hne
  obtain ⟨m, hm, hsize, hdvd, hle, hend, hactive, hbytes, hall⟩ :=
    reduceAndSend_spec hinfo hne h.segment (hin a₀ ha₀).1 fun a ha => (hin a ha).2
  refine ⟨m, hm, hsize, hdvd, ⟨hle, hend⟩, fun a ha => ⟨(hall a ha).1, ?_⟩, ?_, fun i => ?_⟩
  · have h32 : 32 ∣ m.reqSize := by rcases hsize with h | h | h <;> rw [h] <;> decide
    have hwidth : width ∣ m.addr + m.reqSize :=
      Nat.dvd_trans h.chunk (Nat.dvd_add (Nat.dvd_trans h32 hdvd) h32)
    exact add_le_of_dvd (h.natural a ha) hwidth (hall a ha).2
  · rw [hactive]
    exact hinfo.active
  · rw [hbytes, hinfo.bytes]
    refine exists_congr fun a => and_congr_right fun ha => ?_
    -- the segment lies in one block of 128 bytes
    have hsame : a.2 / 128 = m.addr / 128 := by
      have hseg := hin a ha
      have hpos : 0 < m.reqSize := by omega
      rcases h.segment with hs | hs | hs <;> rw [hs] at hseg hend <;> omega
    omega

theorem Aligned.filter (h : Aligned w width L) (p : ℕ × ℕ → Bool) : Aligned w width (L.filter p) :=
  ⟨h.segment, h.pos, h.chunk, fun a ha => h.natural a (List.mem_of_mem_filter ha),
    fun a ha => h.address a (List.mem_of_mem_filter ha)⟩

/-- An access that lies in a transaction of a segment is one of the segment. -/
theorem Served.mem_iff {k : ℕ} {m : MemAccess} (h : Aligned w width L) (hk : w.segmentSize ∣ k)
    (hm : Served w width (L.filter (w.blockAddress · = k)) k m) {a : ℕ × ℕ} (ha : a ∈ L) :
    a ∈ L.filter (w.blockAddress · = k) ↔ m.Contains width a.2 := by
  refine ⟨hm.contains a, fun hc => List.mem_filter.2 ⟨ha, decide_eq_true ?_⟩⟩
  obtain ⟨hle, hend⟩ := hm.inSegment
  obtain ⟨hle', hend'⟩ := hc
  have hpos := h.pos
  exact (h.block ha k).2 ⟨hk, by omega, by omega⟩

/-- **The loads and stores of a subwarp.** -/
theorem exact_transactions (h : Aligned w w.dataSizeCoales L) :
    ∃ out, (group w.blockAddress w.join L).mapM (fun t => w.reduceAndSend t.2 t.1 w.segmentSize) = some out ∧
      Exact w.dataSizeCoales (fun t addr => (t, addr) ∈ L) out := by
  have hserved : ∀ e ∈ group w.blockAddress w.join L, ∃ m, w.segmentSize ∣ e.1 ∧
      w.reduceAndSend e.2 e.1 w.segmentSize = some m ∧
      Served w w.dataSizeCoales (L.filter (w.blockAddress · = e.1)) e.1 m := by
    rintro ⟨k, info⟩ he
    have hfold := (mem_group w.blockAddress w.join L).1 he
    obtain ⟨hinfo, hnil⟩ := infoOf_join (w := w) (L.filter (w.blockAddress · = k))
    rw [hfold] at hinfo hnil
    have hne : L.filter (w.blockAddress · = k) ≠ [] := fun h' => absurd (hnil.1 h') nofun
    have hblock : ∀ a ∈ L.filter (w.blockAddress · = k), w.blockAddress a = k := fun a ha =>
      of_decide_eq_true (List.mem_filter.1 ha).2
    obtain ⟨m, hm, hserved⟩ := served (h.filter _) hinfo hne hblock
    obtain ⟨a, ha⟩ := List.exists_mem_of_ne_nil _ hne
    exact ⟨m, ((h.block (List.mem_of_mem_filter ha) k).1 (hblock a ha)).1, hm, hserved⟩
  choose! g hg using hserved
  refine ⟨_, mapM_eq_map fun e he => (hg e he).2.1, ?_⟩
  have hmem : ∀ m ∈ (group w.blockAddress w.join L).map g, ∃ k, w.segmentSize ∣ k ∧
      Served w w.dataSizeCoales (L.filter (w.blockAddress · = k)) k m := by
    intro m hm
    obtain ⟨e, he, rfl⟩ := List.mem_map.1 hm
    exact ⟨e.1, (hg e he).1, (hg e he).2.2⟩
  have hapart : ((group w.blockAddress w.join L).map g).Pairwise fun m m' =>
      m.addr + m.reqSize ≤ m'.addr ∨ m'.addr + m'.reqSize ≤ m.addr := by
    refine List.pairwise_map.2 ((sorted_group w.blockAddress w.join L).imp_of_mem ?_)
    intro e e' he he' hlt
    have hle := add_le_of_dvd (hg e he).1 (hg e' he').1 hlt
    have hend := (hg e he).2.2.inSegment.2
    have hstart := (hg e' he').2.2.inSegment.1
    exact Or.inl (by omega)
  refine ⟨fun m hm => ?_, hapart, fun t addr ha b hle hlt => ?_, fun m hm t => ?_, fun m hm i => ?_⟩
  · obtain ⟨k, -, hserved⟩ := hmem m hm
    exact ⟨hserved.size, hserved.dvd⟩
  · refine countP_eq_one ?_ (hapart.imp fun hor hboth => ?_)
    · have hfilter : (t, addr) ∈ L.filter (w.blockAddress · = w.blockAddress (t, addr)) :=
        List.mem_filter.2 ⟨ha, decide_eq_true rfl⟩
      obtain ⟨info, hinfo⟩ : ∃ info,
          fold w.join (L.filter (w.blockAddress · = w.blockAddress (t, addr))) = some info := by
        refine Option.ne_none_iff_exists'.1 fun hnone => ?_
        have hnil := (infoOf_join (w := w) _).2.2 hnone
        rw [hnil] at hfilter
        exact absurd hfilter List.not_mem_nil
      have he := (mem_group w.blockAddress w.join L).2 hinfo
      obtain ⟨hle', hend'⟩ := (hg _ he).2.2.contains (t, addr) hfilter
      exact ⟨_, List.mem_map_of_mem he, decide_eq_true ⟨by omega, by omega⟩⟩
    · simp only [decide_eq_true_eq] at hboth
      omega
  · obtain ⟨k, hk, hserved⟩ := hmem m hm
    rw [hserved.active]
    constructor
    · rintro ⟨⟨t, addr⟩, ha, rfl⟩
      exact ⟨addr, List.mem_of_mem_filter ha, hserved.contains _ ha⟩
    · rintro ⟨addr, ha, hc⟩
      exact ⟨(t, addr), (hserved.mem_iff h hk ha).2 hc, rfl⟩
  · obtain ⟨k, hk, hserved⟩ := hmem m hm
    rw [hserved.bytes]
    constructor
    · rintro ⟨⟨t, addr⟩, ha, hbytes⟩
      exact ⟨t, addr, List.mem_of_mem_filter ha, hserved.contains _ ha, hbytes⟩
    · rintro ⟨t, addr, ha, hc, hbytes⟩
      exact ⟨(t, addr), (hserved.mem_iff h hk ha).2 hc, hbytes⟩

theorem exact_coalesceSubwarp {subwarp : ℕ} (hnum : w.numAccesses ≤ 8)
    (h : Aligned w w.dataSizeCoales (w.accesses (w.warpSize / w.memWarpParts) w.numAccesses subwarp)) :
    ∃ out, w.coalesceSubwarp subwarp = some out ∧ Exact w.dataSizeCoales (fun t addr =>
      (t, addr) ∈ w.accesses (w.warpSize / w.memWarpParts) w.numAccesses subwarp) out := by
  obtain ⟨out, hout, hexact⟩ := exact_transactions h
  refine ⟨out, ?_, hexact⟩
  have hfold := foldlM_eq_foldl (g := fun transactions access =>
    alter (w.blockAddress access) (w.join access) transactions) h.oneSegment []
  simp only [WarpInst.coalesceSubwarp, hnum, guard_true, hfold]
  exact hout

end CompressionWork.Coalesce
