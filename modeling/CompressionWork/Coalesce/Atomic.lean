import CompressionWork.Coalesce.Exact
import Mathlib

/-!
# The transactions of atomics

* `Splits` — the accesses of a segment are split up among its transactions, without a conflict.
* `atomic_subwarp` — each thread of a subwarp is in one transaction.
* `coalesced_iff` — every warp instruction is coalesced exactly, but for the last thread of an odd warp,
  which the atomics leave out.
-/

namespace CompressionWork.Coalesce

open SortedMap

variable {w : WarpInst} {width : ℕ} {L : List (ℕ × ℕ)} {infos : List TransactionInfo}

/-! ## Conflicts -/

/-- Two accesses of one segment use no common byte. -/
def Apart (width : ℕ) (a a' : ℕ × ℕ) : Prop :=
  a.2 % 128 + width ≤ a'.2 % 128 ∨ a'.2 % 128 + width ≤ a.2 % 128

/-- The accesses of `L` are split up among transactions. -/
def Splits (width : ℕ) (L : List (ℕ × ℕ)) (infos : List TransactionInfo) : Prop :=
  ∃ parts : List (List (ℕ × ℕ) × TransactionInfo), parts.map Prod.snd = infos ∧
    (parts.map Prod.fst).flatten.Perm L ∧
    ∀ p ∈ parts, p.1 ≠ [] ∧ InfoOf width p.1 p.2 ∧ p.1.Pairwise (Apart width)

theorem testBytes_eq_false {info : TransactionInfo} {G : List (ℕ × ℕ)} (hinfo : InfoOf width G info)
    (hpos : 0 < width) {addr : ℕ}
    (h : info.testBytes (addr % 128) (addr % 128 + width - 1) = false) (t : ℕ) :
    ∀ a ∈ G, Apart width a (t, addr) := by
  intro a ha
  unfold Apart
  by_contra hnot
  rw [not_or] at hnot
  dsimp only at hnot
  -- the greater one of the two starts is a common byte
  have hbyte : info.bytes (max (a.2 % 128) (addr % 128)) = true :=
    (hinfo.bytes _).2 ⟨a, ha, by omega, by omega⟩
  rw [TransactionInfo.testBytes, List.any_eq_false] at h
  refine h _ (List.mem_range'_1.2 ⟨by omega, by omega⟩) hbyte

theorem splits_joinFirst (hpos : 0 < w.dataSize) (h : Splits w.dataSize L infos) (a : ℕ × ℕ) :
    Splits w.dataSize (L ++ [a]) (w.joinFirst a infos) := by
  obtain ⟨parts, rfl, hperm, hparts⟩ := h
  induction parts generalizing L with
  | nil =>
    obtain rfl : L = [] := List.nil_perm.1 hperm
    refine ⟨[([a], ({} : TransactionInfo).set w.dataSize a.1 a.2)], rfl, .refl _, fun p hp => ?_⟩
    obtain rfl := List.mem_singleton.1 hp
    exact ⟨List.cons_ne_nil _ _, infoOf_nil.set a, List.pairwise_singleton _ _⟩
  | cons p parts ih =>
    obtain ⟨G, info⟩ := p
    obtain ⟨hne, hinfo, hapart⟩ := hparts (G, info) List.mem_cons_self
    have hperm' : (G ++ (parts.map Prod.fst).flatten).Perm L := hperm
    cases htest : info.testBytes (a.2 % 128) (a.2 % 128 + w.dataSize - 1) with
    | true =>
      obtain ⟨parts', hinfos, hflat, hall⟩ :=
        ih (.refl _) fun p hp => hparts p (List.mem_cons_of_mem _ hp)
      refine ⟨(G, info) :: parts', ?_, ?_, fun p hp => ?_⟩
      · simp [WarpInst.joinFirst, htest, hinfos]
      · refine (hflat.append_left G).trans ?_
        rw [← List.append_assoc]
        exact hperm'.append_right _
      · rcases List.mem_cons.1 hp with rfl | hp
        · exact ⟨hne, hinfo, hapart⟩
        · exact hall p hp
    | false =>
      refine ⟨(G ++ [a], info.set w.dataSize a.1 a.2) :: parts, ?_, ?_, fun p hp => ?_⟩
      · simp [WarpInst.joinFirst, htest]
      · refine List.Perm.trans ?_ (hperm'.append_right _)
        change (G ++ [a] ++ (parts.map Prod.fst).flatten).Perm _
        rw [List.append_assoc, List.append_assoc]
        exact List.perm_append_comm.append_left G
      · rcases List.mem_cons.1 hp with rfl | hp
        · refine ⟨by simp, hinfo.set a, List.pairwise_append.2 ⟨hapart, List.pairwise_singleton _ _, ?_⟩⟩
          intro x hx y hy
          obtain rfl := List.mem_singleton.1 hy
          exact testBytes_eq_false hinfo hpos htest y.1 x hx
        · exact hparts p (List.mem_cons_of_mem _ hp)

theorem splits_fold (hpos : 0 < w.dataSize) (L : List (ℕ × ℕ)) :
    Splits w.dataSize L ((fold (fun a list => w.joinFirst a (list.getD [])) L).getD []) ∧
      (L = [] ↔ fold (fun a list => w.joinFirst a (list.getD [])) L = none) := by
  induction L using List.reverseRecOn with
  | nil => exact ⟨⟨[], rfl, .refl _, nofun⟩, by simp [fold]⟩
  | append_singleton L a ih =>
    rw [fold_concat]
    exact ⟨splits_joinFirst hpos ih.1 a, by simp⟩

/-! ## Threads -/

/-- What transactions do for accesses, one for each thread. -/
structure Shared (width : ℕ) (L : List (ℕ × ℕ)) (out : List MemAccess) : Prop where
  only : ∀ m ∈ out, ∀ t, m.active t = true → ∃ a ∈ L, a.1 = t
  covered : ∀ a ∈ L, ∃ m ∈ out, m.active a.1 = true
  once : out.Pairwise fun m m' => ∀ t, ¬ (m.active t = true ∧ m'.active t = true)
  noConflict : ∀ m ∈ out, ∀ a ∈ L, ∀ a' ∈ L, a.1 ≠ a'.1 → m.active a.1 = true → m.active a'.1 = true →
    ∀ b, ¬ ((a.2 ≤ b ∧ b < a.2 + width) ∧ (a'.2 ≤ b ∧ b < a'.2 + width))

instance : Std.Symm (Apart width) := ⟨fun _ _ => Or.symm⟩

theorem atomic_segment {k : ℕ} (h : Aligned w w.dataSize L) (hthreads : (L.map Prod.fst).Nodup)
    (hblock : ∀ a ∈ L, w.blockAddress a = k) (hsplit : Splits w.dataSize L infos) :
    ∃ out, infos.mapM (fun info => w.reduceAndSend info k w.segmentSize) = some out ∧
      Shared w.dataSize L out := by
  obtain ⟨parts, rfl, hperm, hparts⟩ := hsplit
  have hsub : ∀ p ∈ parts, ∀ a ∈ p.1, a ∈ L := fun p hp a ha =>
    hperm.mem_iff.1 (List.mem_flatten.2 ⟨p.1, List.mem_map_of_mem hp, ha⟩)
  have hserved : ∀ p ∈ parts, ∃ m, w.reduceAndSend p.2 k w.segmentSize = some m ∧
      Served w w.dataSize p.1 k m := by
    intro p hp
    obtain ⟨hne, hinfo, -⟩ := hparts p hp
    have haligned : Aligned w w.dataSize p.1 := ⟨h.segment, h.pos, h.chunk,
      fun a ha => h.natural a (hsub p hp a ha), fun a ha => h.address a (hsub p hp a ha)⟩
    exact served haligned hinfo hne fun a ha => hblock a (hsub p hp a ha)
  choose! g hg using hserved
  refine ⟨parts.map g, ?_, ?_⟩
  · rw [List.mapM_map]
    exact mapM_eq_map fun p hp => (hg p hp).1
  have hinj : ∀ a ∈ L, ∀ a' ∈ L, a.1 = a'.1 → a = a' := fun a ha a' ha' =>
    List.inj_on_of_nodup_map hthreads ha ha'
  constructor
  · intro m hm t ht
    obtain ⟨p, hp, rfl⟩ := List.mem_map.1 hm
    obtain ⟨a, ha, rfl⟩ := ((hg p hp).2.active t).1 ht
    exact ⟨a, hsub p hp a ha, rfl⟩
  · intro a ha
    obtain ⟨G, hG, ha⟩ := List.mem_flatten.1 (hperm.mem_iff.2 ha)
    obtain ⟨p, hp, rfl⟩ := List.mem_map.1 hG
    exact ⟨g p, List.mem_map_of_mem hp, ((hg p hp).2.active a.1).2 ⟨a, ha, rfl⟩⟩
  · have hflat := (hperm.map Prod.fst).nodup_iff.2 hthreads
    rw [List.map_flatten, List.map_map] at hflat
    have hdisjoint := List.pairwise_map.1 (List.nodup_flatten.1 hflat).2
    refine List.pairwise_map.2 (hdisjoint.imp_of_mem fun {p p'} hp hp' hdis t ht => ?_)
    obtain ⟨a, ha, rfl⟩ := ((hg p hp).2.active t).1 ht.1
    obtain ⟨a', ha', heq⟩ := ((hg p' hp').2.active a.1).1 ht.2
    exact hdis (List.mem_map_of_mem ha) (heq ▸ List.mem_map_of_mem ha')
  · intro m hm a ha a' ha' hne hactive hactive' b hb
    obtain ⟨p, hp, rfl⟩ := List.mem_map.1 hm
    have hmem : ∀ x ∈ L, (g p).active x.1 = true → x ∈ p.1 := fun x hx hxa => by
      obtain ⟨y, hy, hxy⟩ := ((hg p hp).2.active x.1).1 hxa
      rwa [hinj x hx y (hsub p hp y hy) hxy.symm]
    have hapart : Apart w.dataSize a a' :=
      (hparts p hp).2.2.forall (hmem a ha hactive) (hmem a' ha' hactive')
        fun heq => hne (congrArg _ heq)
    have hseg := (h.block ha k).1 (hblock a ha)
    have hseg' := (h.block ha' k).1 (hblock a' ha')
    unfold Apart at hapart
    rcases h.segment with hs | hs | hs <;> rw [hs] at hseg hseg' <;> omega

/-- **The atomics of a subwarp.** -/
theorem atomic_transactions (h : Aligned w w.dataSize L) (hthreads : (L.map Prod.fst).Nodup) :
    ∃ out, (group w.blockAddress (fun a list => w.joinFirst a (list.getD [])) L).mapM (fun t =>
        t.2.mapM fun info => w.reduceAndSend info t.1 w.segmentSize) = some out ∧
      Shared w.dataSize L out.flatten := by
  have hserved : ∀ e ∈ group w.blockAddress (fun a list => w.joinFirst a (list.getD [])) L, ∃ out,
      e.2.mapM (fun info => w.reduceAndSend info e.1 w.segmentSize) = some out ∧
      Shared w.dataSize (L.filter (w.blockAddress · = e.1)) out := by
    rintro ⟨k, infos⟩ he
    have hfold := (mem_group w.blockAddress _ L).1 he
    have hsplit := (splits_fold (w := w) h.pos (L.filter (w.blockAddress · = k))).1
    rw [hfold] at hsplit
    exact atomic_segment (h.filter _) (hthreads.sublist (List.filter_sublist.map _))
      (fun a ha => of_decide_eq_true (List.mem_filter.1 ha).2) hsplit
  choose! g hg using hserved
  refine ⟨_, mapM_eq_map fun e he => (hg e he).1, ?_⟩
  have hinj : ∀ a ∈ L, ∀ a' ∈ L, a.1 = a'.1 → a = a' := fun a ha a' ha' =>
    List.inj_on_of_nodup_map hthreads ha ha'
  constructor
  · intro m hm t ht
    obtain ⟨ms, hms, hm⟩ := List.mem_flatten.1 hm
    obtain ⟨e, he, rfl⟩ := List.mem_map.1 hms
    obtain ⟨a, ha, hat⟩ := (hg e he).2.only m hm t ht
    exact ⟨a, List.mem_of_mem_filter ha, hat⟩
  · intro a ha
    have hfilter : a ∈ L.filter (w.blockAddress · = w.blockAddress a) :=
      List.mem_filter.2 ⟨ha, decide_eq_true rfl⟩
    obtain ⟨infos, hinfos⟩ : ∃ infos, fold (fun a list => w.joinFirst a (list.getD []))
        (L.filter (w.blockAddress · = w.blockAddress a)) = some infos := by
      refine Option.ne_none_iff_exists'.1 fun hnone => ?_
      rw [(splits_fold (w := w) h.pos _).2.2 hnone] at hfilter
      exact absurd hfilter List.not_mem_nil
    have he := (mem_group w.blockAddress _ L).2 hinfos
    obtain ⟨m, hm, hactive⟩ := (hg _ he).2.covered a hfilter
    exact ⟨m, List.mem_flatten.2 ⟨_, List.mem_map_of_mem he, hm⟩, hactive⟩
  · refine List.pairwise_flatten.2 ⟨fun ms hms => ?_, ?_⟩
    · obtain ⟨e, he, rfl⟩ := List.mem_map.1 hms
      exact (hg e he).2.once
    · refine List.pairwise_map.2 ((sorted_group w.blockAddress _ L).imp_of_mem ?_)
      intro e e' he he' hlt m hm m' hm' t ht
      obtain ⟨a, ha, rfl⟩ := (hg e he).2.only m hm t ht.1
      obtain ⟨a', ha', heq⟩ := (hg e' he').2.only m' hm' a.1 ht.2
      obtain ⟨ha, hk⟩ := List.mem_filter.1 ha
      obtain ⟨ha', hk'⟩ := List.mem_filter.1 ha'
      rw [hinj a' ha' a ha heq] at hk'
      have : e.1 = e'.1 := (of_decide_eq_true hk).symm.trans (of_decide_eq_true hk')
      omega
  · intro m hm a ha a' ha' hne hactive hactive'
    obtain ⟨ms, hms, hm⟩ := List.mem_flatten.1 hm
    obtain ⟨e, he, rfl⟩ := List.mem_map.1 hms
    have hmem : ∀ x ∈ L, m.active x.1 = true → x ∈ L.filter (w.blockAddress · = e.1) := fun x hx hxa => by
      obtain ⟨y, hy, hxy⟩ := (hg e he).2.only m hm x.1 hxa
      rwa [hinj x hx y (List.mem_of_mem_filter hy) hxy.symm]
    exact (hg e he).2.noConflict m hm a (hmem a ha hactive) a' (hmem a' ha' hactive') hne hactive hactive'

theorem shared_coalesceSubwarpAtomic {subwarp : ℕ}
    (h : Aligned w w.dataSize (w.accesses (w.warpSize / 2) 1 subwarp)) :
    ∃ out, w.coalesceSubwarpAtomic subwarp = some out ∧
      Shared w.dataSize (w.accesses (w.warpSize / 2) 1 subwarp) out := by
  have hthreads : ((w.accesses (w.warpSize / 2) 1 subwarp).map Prod.fst).Nodup := by
    have hmap : (w.accesses (w.warpSize / 2) 1 subwarp).map Prod.fst =
        (List.range' (subwarp * (w.warpSize / 2)) (w.warpSize / 2)).filter w.active := by
      simp [WarpInst.accesses, List.map_flatMap]
    rw [hmap]
    exact List.Nodup.filter _ List.nodup_range'
  obtain ⟨out, hout, hshared⟩ := atomic_transactions h hthreads
  refine ⟨out.flatten, ?_, hshared⟩
  have hfold := foldlM_eq_foldl (g := fun transactions access =>
    alter (w.blockAddress access) (fun list => w.joinFirst access (list.getD [])) transactions)
    h.oneSegment []
  simp only [WarpInst.coalesceSubwarpAtomic, hfold]
  have hout' : ((group w.blockAddress (fun a list => w.joinFirst a (list.getD []))
      (w.accesses (w.warpSize / 2) 1 subwarp)).mapM fun t =>
        t.2.mapM fun info => w.reduceAndSend info t.1 w.segmentSize) = some out := hout
  exact congrArg (fun o => o.bind fun o => some o.flatten) hout'

/-! ## Every warp instruction -/

/-- The instructions that the coalescer gets: the parts divide the warp, and each access is aligned to its
width. -/
structure WarpInst.Accepted (w : WarpInst) : Prop where
  warpSize : 0 < w.warpSize
  parts : w.memWarpParts ∣ w.warpSize
  dataSize : w.dataSize = 1 ∨ w.dataSize = 2 ∨ w.dataSize = 4 ∨ w.dataSize = 8 ∨ w.dataSize = 16
  atomic : w.isAtomic = true → w.isLocal = false
  aligned : ∀ t < w.warpSize, w.active t = true → ∀ access < w.numAccesses,
    w.dataSizeCoales ∣ w.memreqaddr t access ∧ w.memreqaddr t access < 2 ^ 32

/-- An active thread of a subwarp accesses `addr`. -/
def WarpInst.Accessed (w : WarpInst) (subwarp t addr : ℕ) : Prop :=
  t < w.warpSize ∧ t / (w.warpSize / w.memWarpParts) = subwarp ∧ w.active t = true ∧
    ∃ access < w.numAccesses, w.memreqaddr t access = addr

/-- Every active thread is in one transaction, and no byte is used by two threads of a transaction. -/
structure AtomicExact (w : WarpInst) (out : List MemAccess) : Prop where
  once : ∀ t < w.warpSize, w.active t = true → out.countP (·.active t) = 1
  noConflict : ∀ m ∈ out, ∀ t t', t ≠ t' → m.active t = true → m.active t' = true → ∀ b,
    ¬ ((w.memreqaddr t 0 ≤ b ∧ b < w.memreqaddr t 0 + w.dataSize) ∧
      (w.memreqaddr t' 0 ≤ b ∧ b < w.memreqaddr t' 0 + w.dataSize))

/-- The transactions cover exactly what was accessed. -/
structure Coalesced (w : WarpInst) : Prop where
  access : w.isAtomic = false → ∃ outs : ℕ → List MemAccess,
    w.generateMemAccesses = some ((List.range w.memWarpParts).flatMap outs) ∧
      ∀ subwarp < w.memWarpParts, Exact w.dataSizeCoales (w.Accessed subwarp) (outs subwarp)
  atomic : w.isAtomic = true → ∃ out, w.generateMemAccesses = some out ∧ AtomicExact w out

theorem mem_accesses {subwarpSize num subwarp t addr : ℕ} :
    (t, addr) ∈ w.accesses subwarpSize num subwarp ↔
      (subwarp * subwarpSize ≤ t ∧ t < subwarp * subwarpSize + subwarpSize) ∧ w.active t = true ∧
        ∃ access < num, w.memreqaddr t access = addr := by
  simp only [WarpInst.accesses, List.mem_flatMap, List.mem_filter, List.mem_range'_1, List.mem_map,
    List.mem_range, Prod.mk.injEq]
  constructor
  · rintro ⟨x, ⟨hx, hactive⟩, access, haccess, rfl, haddr⟩
    exact ⟨hx, hactive, access, haccess, haddr⟩
  · rintro ⟨ht, hactive, access, haccess, haddr⟩
    exact ⟨t, ⟨ht, hactive⟩, access, haccess, rfl, haddr⟩

theorem WarpInst.Accepted.widthFits (h : w.Accepted) : 0 < w.dataSizeCoales ∧ w.dataSizeCoales ∣ 32 := by
  unfold WarpInst.dataSizeCoales
  rcases h.dataSize with hd | hd | hd | hd | hd <;> rw [hd] <;> cases w.isLocal <;> decide

theorem WarpInst.Accepted.numAccesses (h : w.Accepted) : w.numAccesses ≤ 8 := by
  unfold WarpInst.numAccesses
  rcases h.dataSize with hd | hd | hd | hd | hd <;> rw [hd] <;> cases w.isLocal <;> decide

/-- The accesses of a subwarp of the warp are aligned. -/
theorem WarpInst.Accepted.alignedAccesses (h : w.Accepted) {subwarpSize num subwarp : ℕ}
    (hnum : num = w.numAccesses) (hfit : subwarp * subwarpSize + subwarpSize ≤ w.warpSize) :
    Aligned w w.dataSizeCoales (w.accesses subwarpSize num subwarp) := by
  have hall : ∀ a ∈ w.accesses subwarpSize num subwarp, w.dataSizeCoales ∣ a.2 ∧ a.2 < 2 ^ 32 := by
    rintro ⟨t, addr⟩ ha
    obtain ⟨ht, hactive, access, haccess, rfl⟩ := mem_accesses.1 ha
    exact h.aligned t (by omega) hactive access (hnum ▸ haccess)
  exact ⟨segmentSize_cases h.dataSize, h.widthFits.1, h.widthFits.2, fun a ha => (hall a ha).1,
    fun a ha => (hall a ha).2⟩

theorem coalesced_access (h : w.Accepted) : ∃ outs : ℕ → List MemAccess,
    w.memoryCoalescingArch13 = some ((List.range w.memWarpParts).flatMap outs) ∧
      ∀ subwarp < w.memWarpParts, Exact w.dataSizeCoales (w.Accessed subwarp) (outs subwarp) := by
  obtain ⟨size, hsize⟩ := h.parts
  have hpos : 0 < w.memWarpParts * size := hsize ▸ h.warpSize
  have hparts : 0 < w.memWarpParts := Nat.pos_of_mul_pos_right hpos
  have hdiv : w.warpSize / w.memWarpParts = size := by rw [hsize, Nat.mul_div_cancel_left _ hparts]
  have hsizepos : 0 < size := Nat.pos_of_mul_pos_left hpos
  have hfit : ∀ i < w.memWarpParts, i * size + size ≤ w.warpSize := fun i hi => by
    rw [← Nat.succ_mul, hsize]
    exact Nat.mul_le_mul_right _ hi
  have hout : ∀ i ∈ List.range w.memWarpParts, ∃ out, w.coalesceSubwarp i = some out ∧
      Exact w.dataSizeCoales (w.Accessed i) out := by
    intro i hi
    have hi := hfit i (List.mem_range.1 hi)
    have haligned : Aligned w w.dataSizeCoales
        (w.accesses (w.warpSize / w.memWarpParts) w.numAccesses i) :=
      h.alignedAccesses rfl (by rw [hdiv]; exact hi)
    obtain ⟨out, hout, hexact⟩ := exact_coalesceSubwarp h.numAccesses haligned
    refine ⟨out, hout, ?_⟩
    have heq : w.Accessed i = fun t addr =>
        (t, addr) ∈ w.accesses (w.warpSize / w.memWarpParts) w.numAccesses i := by
      funext t addr
      rw [mem_accesses, WarpInst.Accessed, hdiv, eq_iff_iff, ← and_assoc]
      refine and_congr_left fun _ => ⟨?_, fun ht => ⟨by omega, ?_⟩⟩
      · rintro ⟨-, rfl⟩
        exact ⟨Nat.div_mul_le_self t size, Nat.lt_div_mul_add hsizepos⟩
      · exact Nat.div_eq_of_lt_le ht.1 (by rw [Nat.succ_mul]; exact ht.2)
    rw [heq]
    exact hexact
  choose! outs houts using hout
  refine ⟨outs, ?_, fun i hi => (houts i (List.mem_range.2 hi)).2⟩
  rw [WarpInst.memoryCoalescingArch13, mapM_eq_map fun i hi => (houts i hi).1]
  rfl

/-- The two subwarps of an atomic: all but the last thread of an odd warp. -/
theorem atomic_accesses {t addr : ℕ} :
    (t, addr) ∈ w.accesses (w.warpSize / 2) 1 0 ++ w.accesses (w.warpSize / 2) 1 1 ↔
      t < w.warpSize / 2 * 2 ∧ w.active t = true ∧ w.memreqaddr t 0 = addr := by
  rw [List.mem_append, mem_accesses, mem_accesses]
  constructor
  · rintro (⟨ht, hactive, access, haccess, haddr⟩ | ⟨ht, hactive, access, haccess, haddr⟩)
    all_goals
      obtain rfl : access = 0 := Nat.lt_one_iff.1 haccess
      exact ⟨by omega, hactive, haddr⟩
  · rintro ⟨ht, hactive, haddr⟩
    by_cases hlow : t < w.warpSize / 2
    · exact Or.inl ⟨⟨by omega, by omega⟩, hactive, 0, Nat.one_pos, haddr⟩
    · exact Or.inr ⟨⟨by omega, by omega⟩, hactive, 0, Nat.one_pos, haddr⟩

/-- A thread of the transactions of one side is a thread of that side. -/
theorem Shared.of_active {L₀ L₁ : List (ℕ × ℕ)} {out : List MemAccess} {m : MemAccess} {x : ℕ × ℕ}
    (h : Shared width L₀ out) (hdisjoint : ∀ a ∈ L₀, ∀ a' ∈ L₁, a.1 ≠ a'.1) (hm : m ∈ out)
    (hx : x ∈ L₀ ∨ x ∈ L₁) (hactive : m.active x.1 = true) : x ∈ L₀ := by
  refine hx.resolve_right fun hx => ?_
  obtain ⟨y, hy, hyx⟩ := h.only m hm x.1 hactive
  exact hdisjoint y hy x hx hyx

/-- Accesses of different threads are served side by side. -/
theorem Shared.append {L₀ L₁ : List (ℕ × ℕ)} {out₀ out₁ : List MemAccess}
    (h₀ : Shared width L₀ out₀) (h₁ : Shared width L₁ out₁)
    (hdisjoint : ∀ a ∈ L₀, ∀ a' ∈ L₁, a.1 ≠ a'.1) : Shared width (L₀ ++ L₁) (out₀ ++ out₁) := by
  refine ⟨?_, ?_, ?_, ?_⟩
  · intro m hm t ht
    rcases List.mem_append.1 hm with hm | hm
    · obtain ⟨a, ha, hat⟩ := h₀.only m hm t ht
      exact ⟨a, List.mem_append_left _ ha, hat⟩
    · obtain ⟨a, ha, hat⟩ := h₁.only m hm t ht
      exact ⟨a, List.mem_append_right _ ha, hat⟩
  · intro a ha
    rcases List.mem_append.1 ha with ha | ha
    · obtain ⟨m, hm, hactive⟩ := h₀.covered a ha
      exact ⟨m, List.mem_append_left _ hm, hactive⟩
    · obtain ⟨m, hm, hactive⟩ := h₁.covered a ha
      exact ⟨m, List.mem_append_right _ hm, hactive⟩
  · refine List.pairwise_append.2 ⟨h₀.once, h₁.once, fun m hm m' hm' t ht => ?_⟩
    obtain ⟨a, ha, hat⟩ := h₀.only m hm t ht.1
    obtain ⟨a', ha', hat'⟩ := h₁.only m' hm' t ht.2
    exact hdisjoint a ha a' ha' (hat.trans hat'.symm)
  · intro m hm a ha a' ha' hne hactive hactive'
    have hside := List.mem_append.1 ha
    have hside' := List.mem_append.1 ha'
    rcases List.mem_append.1 hm with hm | hm
    · exact h₀.noConflict m hm a (h₀.of_active hdisjoint hm hside hactive) a'
        (h₀.of_active hdisjoint hm hside' hactive') hne hactive hactive'
    · have hswap : ∀ a ∈ L₁, ∀ a' ∈ L₀, a.1 ≠ a'.1 := fun a ha a' ha' => (hdisjoint a' ha' a ha).symm
      exact h₁.noConflict m hm a (h₁.of_active hswap hm hside.symm hactive) a'
        (h₁.of_active hswap hm hside'.symm hactive') hne hactive hactive'

/-- Both subwarps together. -/
theorem shared_atomic (h : w.Accepted) (hatomic : w.isAtomic = true) :
    ∃ out, w.memoryCoalescingArch13Atomic = some out ∧
      Shared w.dataSize (w.accesses (w.warpSize / 2) 1 0 ++ w.accesses (w.warpSize / 2) 1 1) out := by
  have hlocal := h.atomic hatomic
  have hwidth : w.dataSizeCoales = w.dataSize := by simp [WarpInst.dataSizeCoales, hlocal]
  have hnum : 1 = w.numAccesses := by simp [WarpInst.numAccesses, hlocal]
  have haligned : ∀ i < 2, Aligned w w.dataSize (w.accesses (w.warpSize / 2) 1 i) := fun i hi => by
    rw [← hwidth]
    refine h.alignedAccesses hnum ?_
    have : i = 0 ∨ i = 1 := by omega
    rcases this with rfl | rfl <;> omega
  obtain ⟨out₀, hout₀, h₀⟩ := shared_coalesceSubwarpAtomic (haligned 0 (by decide))
  obtain ⟨out₁, hout₁, h₁⟩ := shared_coalesceSubwarpAtomic (haligned 1 (by decide))
  have hdisjoint : ∀ a ∈ w.accesses (w.warpSize / 2) 1 0, ∀ a' ∈ w.accesses (w.warpSize / 2) 1 1,
      a.1 ≠ a'.1 := by
    rintro ⟨t, addr⟩ ha ⟨t', addr'⟩ ha' heq
    have ht := (mem_accesses.1 ha).1
    have ht' := (mem_accesses.1 ha').1
    dsimp only at heq
    omega
  refine ⟨out₀ ++ out₁, ?_, h₀.append h₁ hdisjoint⟩
  simp [WarpInst.memoryCoalescingArch13Atomic, hlocal, List.range_succ, hout₀, hout₁]

/-- The atomics leave out the last thread of an odd warp. -/
theorem last_left_out (h : w.Accepted) (hatomic : w.isAtomic = true) (hodd : w.warpSize % 2 = 1)
    (hactive : w.active (w.warpSize - 1) = true) : ¬ Coalesced w := by
  intro hc
  have hpos := h.warpSize
  obtain ⟨out, hout, hexact⟩ := hc.atomic hatomic
  obtain ⟨out', hout', hshared⟩ := shared_atomic h hatomic
  rw [WarpInst.generateMemAccesses, if_pos hatomic, hout'] at hout
  obtain rfl := Option.some.inj hout
  have hone := hexact.once (w.warpSize - 1) (by omega) hactive
  obtain ⟨m, hm, hma⟩ := List.countP_pos_iff.1 (hone ▸ Nat.one_pos)
  -- but no subwarp has it
  obtain ⟨⟨t, addr⟩, ha, hlast⟩ := hshared.only m hm _ hma
  have ht := (atomic_accesses.1 ha).1
  dsimp only at hlast
  omega

/-- **Every warp instruction** is coalesced exactly if and only if it is no atomic, or the warp is even, or
its last thread is not active. -/
theorem coalesced_iff (h : w.Accepted) :
    Coalesced w ↔ (w.isAtomic = true → w.warpSize % 2 = 1 → w.active (w.warpSize - 1) = false) := by
  constructor
  · intro hc hatomic hodd
    by_contra hactive
    exact last_left_out h hatomic hodd (by simpa using hactive) hc
  · intro hlast
    refine ⟨fun hatomic => ?_, fun hatomic => ?_⟩
    · obtain ⟨outs, houts, hexact⟩ := coalesced_access h
      exact ⟨outs, by rw [WarpInst.generateMemAccesses, hatomic]; exact houts, hexact⟩
    · obtain ⟨out, hout, hshared⟩ := shared_atomic h hatomic
      refine ⟨out, by rw [WarpInst.generateMemAccesses, if_pos hatomic, hout], fun t ht hactive => ?_, ?_⟩
      · have hmem : (t, w.memreqaddr t 0) ∈
            w.accesses (w.warpSize / 2) 1 0 ++ w.accesses (w.warpSize / 2) 1 1 := by
          refine atomic_accesses.2 ⟨?_, hactive, rfl⟩
          by_contra hge
          have hlastThread : t = w.warpSize - 1 := by omega
          rw [hlastThread, hlast hatomic (by omega)] at hactive
          exact absurd hactive nofun
        refine countP_eq_one (hshared.covered _ hmem) (hshared.once.imp fun hnot => hnot t)
      · intro m hm t t' hne ht ht' b
        obtain ⟨⟨x, addr⟩, ha, rfl⟩ := hshared.only m hm t ht
        obtain ⟨⟨x', addr'⟩, ha', rfl⟩ := hshared.only m hm t' ht'
        obtain ⟨-, -, rfl⟩ := atomic_accesses.1 ha
        obtain ⟨-, -, rfl⟩ := atomic_accesses.1 ha'
        exact hshared.noConflict m hm _ ha _ ha' hne ht ht' b

/-- An access of each thread to its own word. -/
def ownWord (warpSize : ℕ) (isAtomic : Bool) : WarpInst where
  warpSize
  memWarpParts := 1
  dataSize := 4
  isLocal := false
  isAtomic
  isWrite := false
  accessType := .globalAccR
  active t := t < warpSize
  memreqaddr t _ := 4 * t

theorem accepted_ownWord {warpSize : ℕ} (hpos : 0 < warpSize) (hle : warpSize ≤ 32) (isAtomic : Bool) :
    (ownWord warpSize isAtomic).Accepted where
  warpSize := hpos
  parts := Nat.one_dvd _
  dataSize := by simp [ownWord]
  atomic _ := rfl
  aligned t ht _ access _ := by
    have ht : t < warpSize := ht
    refine ⟨Nat.dvd_mul_right 4 t, ?_⟩
    simp only [ownWord]
    omega

theorem coalesced_ownWord : Coalesced (ownWord 32 true) :=
  (coalesced_iff (accepted_ownWord (by decide) (by decide) true)).2 fun _ => by decide

/-- A warp of 31 threads. -/
theorem not_coalesced : (ownWord 31 true).Accepted ∧ ¬ Coalesced (ownWord 31 true) := by
  have haccepted : (ownWord 31 true).Accepted := accepted_ownWord (by decide) (by decide) true
  exact ⟨haccepted, last_left_out haccepted rfl rfl rfl⟩

end CompressionWork.Coalesce
