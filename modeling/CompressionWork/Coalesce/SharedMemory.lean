import CompressionWork.Coalesce.Exact
import Mathlib

/-!
# Conflicts in shared memory

The part of `generate_mem_accesses` for the shared space: how many cycles the banks need.

* `bankAccs` — the accesses of a subwarp, counted by bank and word.
* `sharedMemoryCycles` — the cycles, with one word broadcast or with all of them.
* `words`, `mostWords` — the words that are requested from a bank, and how many at most.
* `sharedMemoryCycles_bounds` — the cycles are between 1 and the number of active threads.

Where an assertion of the source fails, the result is `none`.
-/

namespace CompressionWork.Coalesce

open SortedMap

/-- Step 2: the first word with more than one access, in the order of the maps. -/
def broadcast (bankAccs : List (ℕ × List (ℕ × ℕ))) : Option (ℕ × ℕ) :=
  bankAccs.findSome? fun b => (b.2.find? fun w => 1 < w.2).map fun w => (b.1, w.1)

/-- Step 3, for one bank. -/
def bankAccesses (detected : Option (ℕ × ℕ)) (b : ℕ × List (ℕ × ℕ)) : Option ℕ :=
  let accesses := (b.2.map Prod.snd).sum
  match detected with
  | none => some accesses
  | some (broadcastBank, broadcastWord) =>
      if broadcastBank = b.1 then
        match b.2.find? fun w => w.1 = broadcastWord with
        | none => some accesses
        | some w => do
            guard (1 < w.2)
            guard (w.2 - 1 ≤ accesses)
            pure (accesses - (w.2 - 1))
      else some accesses

/-- `max_bank_accesses`. -/
def maxBankAccesses (accesses : List ℕ) : ℕ := accesses.foldl max 0

/-- What a subwarp adds to `total_accesses`. -/
def subwarpAccesses (limitedBroadcast : Bool) (bankAccs : List (ℕ × List (ℕ × ℕ))) : Option ℕ :=
  if limitedBroadcast then (bankAccs.mapM (bankAccesses (broadcast bankAccs))).map maxBankAccesses
  else some (maxBankAccesses (bankAccs.map fun b => b.2.length))

namespace WarpInst

variable (w : WarpInst) (numShmemBank : ℕ)

/-- `shmem_bank_func`; the address is an `address_type`. -/
def shmemBankFunc (addr : ℕ) : ℕ := addr % 2 ^ 32 / 4 % numShmemBank

/-- The bank of a thread's address. -/
def bankOf (thread : ℕ) : ℕ := shmemBankFunc numShmemBank (w.memreqaddr thread 0)

/-- The address of the word of a thread, also an `address_type`. -/
def wordOf (thread : ℕ) : ℕ := lineSizeBasedTagFunc (w.memreqaddr thread 0) 4

/-- The active threads of a warp part. -/
def subwarpThreads (subwarp : ℕ) : List ℕ :=
  (List.range' (subwarp * (w.warpSize / w.memWarpParts)) (w.warpSize / w.memWarpParts)).filter w.active

/-- Step 1: bank, word address, access count. -/
def bankAccs (threads : List ℕ) : List (ℕ × List (ℕ × ℕ)) :=
  group (w.bankOf numShmemBank)
    (fun thread accs => alter (w.wordOf thread) (fun n => n.getD 0 + 1) (accs.getD [])) threads

/-- `generate_mem_accesses` for the shared space.  The bank of an access to no banks is a division by zero, and
without accesses the first assertion fails. -/
def sharedMemoryCycles (limitedBroadcast : Bool) : Option ℕ := do
  guard (0 < numShmemBank)
  let accesses ← (List.range w.memWarpParts).mapM fun subwarp =>
    subwarpAccesses limitedBroadcast (w.bankAccs numShmemBank (w.subwarpThreads subwarp))
  guard (0 < accesses.sum)
  guard (accesses.sum ≤ w.warpSize)
  pure accesses.sum

/-! ## Words and banks -/

/-- The active threads of the warp. -/
def activeCount : ℕ := ((List.range w.warpSize).filter w.active).length

/-- The words that threads request from a bank. -/
def words (threads : List ℕ) (bank : ℕ) : Finset ℕ :=
  ((threads.filter (w.bankOf numShmemBank · = bank)).map fun t => w.memreqaddr t 0 % 2 ^ 32 / 4).toFinset

/-- The largest number of words that are requested from one bank. -/
def mostWords (threads : List ℕ) : ℕ :=
  (threads.map (w.bankOf numShmemBank)).toFinset.sup fun bank => (w.words numShmemBank threads bank).card

end WarpInst

variable {w : WarpInst} {numShmemBank : ℕ} {threads : List ℕ} {b : ℕ × List (ℕ × ℕ)}

theorem maxBankAccesses_le_iff {l : List ℕ} {n : ℕ} : maxBankAccesses l ≤ n ↔ ∀ x ∈ l, x ≤ n := by
  have hfold : ∀ (l : List ℕ) (m : ℕ), l.foldl max m ≤ n ↔ m ≤ n ∧ ∀ x ∈ l, x ≤ n := by
    intro l
    induction l with
    | nil => simp
    | cons x l ih =>
      intro m
      rw [List.foldl_cons, ih, max_le_iff, and_assoc, List.forall_mem_cons]
  rw [maxBankAccesses, hfold]
  exact and_iff_right (Nat.zero_le n)

/-! ## One bank -/

/-- The inner map of a bank is made of its threads one by one. -/
theorem fold_counts (L : List ℕ) : (fold (fun thread accs => alter (w.wordOf thread)
    (fun n => n.getD 0 + 1) (accs.getD [])) L).getD [] = counts w.wordOf L ∧
    (L = [] ↔ fold (fun thread (accs : Option (List (ℕ × ℕ))) => alter (w.wordOf thread)
      (fun n => n.getD 0 + 1) (accs.getD [])) L = none) := by
  induction L using List.reverseRecOn with
  | nil => simp [fold, counts, group]
  | append_singleton L t ih =>
    rw [fold_concat, counts, group_concat, ← counts, Option.getD_some, ih.1]
    exact ⟨rfl, by simp⟩

/-- The entries of the map: each bank with the counts of its words. -/
theorem mem_bankAccs : b ∈ w.bankAccs numShmemBank threads ↔
    threads.filter (w.bankOf numShmemBank · = b.1) ≠ [] ∧
      b.2 = counts w.wordOf (threads.filter (w.bankOf numShmemBank · = b.1)) := by
  obtain ⟨k, accs⟩ := b
  obtain ⟨hcounts, hnil⟩ := fold_counts (w := w) (threads.filter (w.bankOf numShmemBank · = k))
  rw [WarpInst.bankAccs, mem_group, Ne, hnil, ← Ne, Option.ne_none_iff_exists', ← hcounts]
  constructor
  · intro h
    exact ⟨⟨accs, h⟩, by rw [h]; rfl⟩
  · rintro ⟨⟨accs', h⟩, haccs⟩
    rw [h, Option.getD_some] at haccs
    rw [h, ← haccs]

/-- A count and the other words together are at most all accesses. -/
theorem add_length_le_sum {l : List (ℕ × ℕ)} (hpos : ∀ e ∈ l, 0 < e.2) :
    l.length ≤ (l.map Prod.snd).sum ∧ ∀ e ∈ l, e.2 + l.length ≤ (l.map Prod.snd).sum + 1 := by
  induction l with
  | nil => simp
  | cons a l ih =>
    obtain ⟨hle, hall⟩ := ih fun e he => hpos e (List.mem_cons_of_mem _ he)
    have ha := hpos a List.mem_cons_self
    simp only [List.map_cons, List.sum_cons, List.length_cons]
    refine ⟨by omega, fun e he => ?_⟩
    rcases List.mem_cons.1 he with rfl | he
    · omega
    · have := hall e he
      omega

theorem broadcast_spec {accs : List (ℕ × List (ℕ × ℕ))} {bank word : ℕ}
    (h : broadcast accs = some (bank, word)) :
    ∃ set n, (bank, set) ∈ accs ∧ (word, n) ∈ set ∧ 1 < n := by
  obtain ⟨b, hb, hfound⟩ := List.exists_of_findSome?_eq_some h
  obtain ⟨e, he, heq⟩ := Option.map_eq_some_iff.1 hfound
  obtain ⟨rfl, rfl⟩ := Prod.mk.inj heq
  exact ⟨b.2, e.2, hb, List.mem_of_find?_eq_some he, by simpa using List.find?_some he⟩

/-- With or without the broadcast word, a bank needs a cycle for each word, and not more than it has
accesses. -/
theorem bankAccesses_spec (hb : b ∈ w.bankAccs numShmemBank threads) :
    ∃ n, bankAccesses (broadcast (w.bankAccs numShmemBank threads)) b = some n ∧ b.2.length ≤ n ∧
      n ≤ threads.length := by
  obtain ⟨k, set⟩ := b
  obtain ⟨-, hset⟩ := mem_bankAccs.1 hb
  have hsum : (set.map Prod.snd).sum ≤ threads.length := by
    rw [show set = _ from hset, sum_counts]
    exact List.length_filter_le _ _
  have hpos : ∀ e ∈ set, 0 < e.2 := fun e he => by
    rw [show set = _ from hset] at he
    exact ((mem_counts _ _).1 he).1
  obtain ⟨hlength, hother⟩ := add_length_le_sum hpos
  have hplain : ∃ n, some (set.map Prod.snd).sum = some n ∧ set.length ≤ n ∧ n ≤ threads.length :=
    ⟨_, rfl, hlength, hsum⟩
  cases hdetected : broadcast (w.bankAccs numShmemBank threads) with
  | none => exact hplain
  | some d =>
    obtain ⟨bank, word⟩ := d
    simp only [bankAccesses]
    split_ifs with hbank
    · subst hbank
      split
      · exact hplain
      · rename_i e he
        -- the word that was found has more than one access
        obtain ⟨set', n, hb', hn, hgt⟩ := broadcast_spec hdetected
        obtain rfl : set' = set := (sorted_group _ _ threads).entry_unique hb' hb
        have hemem : (word, e.2) ∈ set' := by
          have hword : e.1 = word := by simpa using List.find?_some he
          rw [← hword]
          exact List.mem_of_find?_eq_some he
        have hsorted : Sorted set' := by
          rw [show set' = _ from hset]
          exact sorted_group _ _ _
        obtain rfl : e.2 = n := hsorted.entry_unique hemem hn
        have hle := hother _ hn
        have hn2 : 0 < set'.length := List.length_pos_of_mem hn
        refine ⟨(set'.map Prod.snd).sum - (e.2 - 1), ?_, by omega, by omega⟩
        simp only [hgt, guard_true, show e.2 - 1 ≤ (set'.map Prod.snd).sum by omega]
        rfl
    · exact hplain

/-! ## One subwarp -/

theorem length_eq_card_words (hb : b ∈ w.bankAccs numShmemBank threads) :
    b.2.length = (w.words numShmemBank threads b.1).card := by
  have himage : ((threads.filter (w.bankOf numShmemBank · = b.1)).map w.wordOf).toFinset =
      (w.words numShmemBank threads b.1).image (4 * ·) := by
    have hword : w.wordOf = (4 * ·) ∘ fun t => w.memreqaddr t 0 % 2 ^ 32 / 4 := by
      funext t
      simp only [WarpInst.wordOf, lineSizeBasedTagFunc, Function.comp_apply]
      omega
    rw [WarpInst.words, hword, ← List.map_map]
    ext x
    simp
  rw [(mem_bankAccs.1 hb).2, length_counts, himage]
  exact Finset.card_image_of_injective _ fun x y h => Nat.eq_of_mul_eq_mul_left (by decide) h

theorem subwarpAccesses_full :
    subwarpAccesses false (w.bankAccs numShmemBank threads) = some (w.mostWords numShmemBank threads) := by
  refine congrArg some (eq_of_forall_ge_iff fun n => ?_)
  rw [maxBankAccesses_le_iff, WarpInst.mostWords, Finset.sup_le_iff]
  constructor
  · intro h bank hbank
    obtain ⟨t, ht, rfl⟩ := List.mem_map.1 (List.mem_toFinset.1 hbank)
    have hmem : (w.bankOf numShmemBank t, counts w.wordOf (threads.filter
        (w.bankOf numShmemBank · = w.bankOf numShmemBank t))) ∈ w.bankAccs numShmemBank threads :=
      mem_bankAccs.2 ⟨List.ne_nil_of_mem (List.mem_filter.2 ⟨ht, decide_eq_true rfl⟩), rfl⟩
    rw [← length_eq_card_words hmem]
    exact h _ (List.mem_map_of_mem hmem)
  · intro h n' hn'
    obtain ⟨b, hb, rfl⟩ := List.mem_map.1 hn'
    rw [length_eq_card_words hb]
    obtain ⟨t, ht⟩ := List.exists_mem_of_ne_nil _ (mem_bankAccs.1 hb).1
    refine h _ (List.mem_toFinset.2 (List.mem_map.2 ⟨t, List.mem_of_mem_filter ht, ?_⟩))
    exact of_decide_eq_true (List.mem_filter.1 ht).2

theorem subwarpAccesses_limited :
    ∃ n, subwarpAccesses true (w.bankAccs numShmemBank threads) = some n ∧
      w.mostWords numShmemBank threads ≤ n ∧ n ≤ threads.length := by
  have hspec : ∀ b ∈ w.bankAccs numShmemBank threads, ∃ n,
      bankAccesses (broadcast (w.bankAccs numShmemBank threads)) b = some n ∧ b.2.length ≤ n ∧
        n ≤ threads.length := fun b hb => bankAccesses_spec hb
  choose! g hg using hspec
  refine ⟨maxBankAccesses ((w.bankAccs numShmemBank threads).map g), ?_, ?_, ?_⟩
  · rw [subwarpAccesses, if_pos rfl, mapM_eq_map fun b hb => (hg b hb).1]
    rfl
  · have hfull : maxBankAccesses ((w.bankAccs numShmemBank threads).map fun b => b.2.length) =
        w.mostWords numShmemBank threads := Option.some.inj subwarpAccesses_full
    rw [← hfull, maxBankAccesses_le_iff]
    intro n hn
    obtain ⟨b, hb, rfl⟩ := List.mem_map.1 hn
    exact (hg b hb).2.1.trans (maxBankAccesses_le_iff.1 le_rfl _ (List.mem_map_of_mem hb))
  · rw [maxBankAccesses_le_iff]
    intro n hn
    obtain ⟨b, hb, rfl⟩ := List.mem_map.1 hn
    exact (hg b hb).2.2

theorem mostWords_pos (h : threads ≠ []) : 0 < w.mostWords numShmemBank threads := by
  obtain ⟨t, ht⟩ := List.exists_mem_of_ne_nil _ h
  have hword : (w.words numShmemBank threads (w.bankOf numShmemBank t)).Nonempty :=
    ⟨_, List.mem_toFinset.2 (List.mem_map_of_mem (List.mem_filter.2 ⟨ht, decide_eq_true rfl⟩))⟩
  exact (Finset.card_pos.2 hword).trans_le
    (Finset.le_sup (f := fun bank => (w.words numShmemBank threads bank).card)
      (List.mem_toFinset.2 (List.mem_map_of_mem ht)))

/-! ## The warp -/

theorem flatMap_range' (n size : ℕ) :
    (List.range n).flatMap (fun p => List.range' (p * size) size) = List.range (n * size) := by
  induction n with
  | zero => simp
  | succ n ih =>
    rw [List.range_succ, List.flatMap_append, ih, List.flatMap_singleton, Nat.add_one_mul,
      List.range_eq_range', List.range_eq_range', ← List.range'_append_1, Nat.zero_add]

/-- The subwarps are parts of the warp. -/
theorem flatMap_subwarpThreads (hdvd : w.memWarpParts ∣ w.warpSize) :
    (List.range w.memWarpParts).flatMap w.subwarpThreads = (List.range w.warpSize).filter w.active := by
  rw [← Nat.mul_div_cancel' hdvd, ← flatMap_range', List.filter_flatMap]
  rfl

/-- The assertion on the total, once what the subwarps need is known. -/
theorem sharedMemoryCycles_eq {limitedBroadcast : Bool} {g : ℕ → ℕ}
    (hbank : 0 < numShmemBank)
    (hg : ∀ p, subwarpAccesses limitedBroadcast (w.bankAccs numShmemBank (w.subwarpThreads p)) = some (g p))
    (hpos : 0 < ∑ p ∈ Finset.range w.memWarpParts, g p)
    (hle : ∑ p ∈ Finset.range w.memWarpParts, g p ≤ w.warpSize) :
    w.sharedMemoryCycles numShmemBank limitedBroadcast = some (∑ p ∈ Finset.range w.memWarpParts, g p) := by
  have hsum : ((List.range w.memWarpParts).map g).sum = ∑ p ∈ Finset.range w.memWarpParts, g p := rfl
  rw [WarpInst.sharedMemoryCycles, mapM_eq_map fun p _ => hg p]
  simp only [Option.bind_eq_bind, Option.bind_some, hbank, hsum, hpos, hle, guard_true]
  rfl

/-- **The cycles of a shared memory instruction** are at least one and at most the active threads; those of
limited broadcast are not fewer, and full broadcast needs one for each word of the bank with the most. -/
theorem sharedMemoryCycles_bounds (w : WarpInst) (numShmemBank : ℕ) (hbank : 0 < numShmemBank)
    (hdvd : w.memWarpParts ∣ w.warpSize) (hactive : ∃ t < w.warpSize, w.active t = true) :
    ∃ full limited, w.sharedMemoryCycles numShmemBank false = some full ∧
      w.sharedMemoryCycles numShmemBank true = some limited ∧
      1 ≤ full ∧ full ≤ limited ∧ limited ≤ w.activeCount ∧
      full = ∑ subwarp ∈ Finset.range w.memWarpParts,
        w.mostWords numShmemBank (w.subwarpThreads subwarp) := by
  have hlimited : ∀ p, ∃ n, subwarpAccesses true (w.bankAccs numShmemBank (w.subwarpThreads p)) = some n ∧
      w.mostWords numShmemBank (w.subwarpThreads p) ≤ n ∧ n ≤ (w.subwarpThreads p).length :=
    fun p => subwarpAccesses_limited
  choose g hg hmost hlength using hlimited
  have hcount : ∑ p ∈ Finset.range w.memWarpParts, (w.subwarpThreads p).length = w.activeCount := by
    rw [WarpInst.activeCount, ← flatMap_subwarpThreads hdvd, List.length_flatMap]
    rfl
  have hwarp : w.activeCount ≤ w.warpSize := by
    have := List.length_filter_le w.active (List.range w.warpSize)
    rwa [List.length_range] at this
  have hfull : ∑ p ∈ Finset.range w.memWarpParts, w.mostWords numShmemBank (w.subwarpThreads p) ≤
      ∑ p ∈ Finset.range w.memWarpParts, g p := Finset.sum_le_sum fun p _ => hmost p
  have hall : ∑ p ∈ Finset.range w.memWarpParts, g p ≤ w.activeCount :=
    hcount ▸ Finset.sum_le_sum fun p _ => hlength p
  have hpos : 0 < ∑ p ∈ Finset.range w.memWarpParts, w.mostWords numShmemBank (w.subwarpThreads p) := by
    obtain ⟨t, ht, hact⟩ := hactive
    have hmem : t ∈ (List.range w.memWarpParts).flatMap w.subwarpThreads := by
      rw [flatMap_subwarpThreads hdvd]
      exact List.mem_filter.2 ⟨List.mem_range.2 ht, hact⟩
    obtain ⟨p, hp, htp⟩ := List.mem_flatMap.1 hmem
    have hone : 0 < w.mostWords numShmemBank (w.subwarpThreads p) := mostWords_pos (List.ne_nil_of_mem htp)
    exact hone.trans_le (Finset.single_le_sum (f := fun p => w.mostWords numShmemBank (w.subwarpThreads p))
      (fun _ _ => Nat.zero_le _) (Finset.mem_range.2 (List.mem_range.1 hp)))
  refine ⟨_, _, sharedMemoryCycles_eq hbank (fun p => subwarpAccesses_full) hpos (by omega),
    sharedMemoryCycles_eq hbank hg (by omega) (by omega), hpos, hfull, hall, rfl⟩

/-- Four threads in two subwarps; two threads of the first read one word. -/
def sharedLoad : WarpInst where
  warpSize := 4
  memWarpParts := 2
  dataSize := 4
  isLocal := false
  isAtomic := false
  isWrite := false
  accessType := .globalAccR
  active thread := thread != 3
  memreqaddr _ _ := 8

theorem sharedMemoryCycles_bounds_sharedLoad :
    ∃ full limited, sharedLoad.sharedMemoryCycles 2 false = some full ∧
      sharedLoad.sharedMemoryCycles 2 true = some limited ∧
      1 ≤ full ∧ full ≤ limited ∧ limited ≤ sharedLoad.activeCount ∧
      full = ∑ subwarp ∈ Finset.range sharedLoad.memWarpParts,
        sharedLoad.mostWords 2 (sharedLoad.subwarpThreads subwarp) :=
  sharedMemoryCycles_bounds sharedLoad 2 (by decide) (by decide) ⟨0, by decide, rfl⟩

end CompressionWork.Coalesce
