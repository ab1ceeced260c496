/-
# The functional memory is a flat array

`Represents` relates the map of blocks to a flat array. Every write keeps it and every read agrees
with it, except where the 32-bit arithmetic wraps around: the limit of the topmost block is 0, so a
read that reaches it throws, and the access limit of a write from the lowest block to the end of the
address space is 0.
-/
import CompressionWork.FuncMem.Space
import Mathlib.Tactic.Common
import Mathlib.Data.Nat.Bitwise

namespace CompressionWork
namespace FuncMem

variable {k addr n offset remain : ℕ} {s s' : Space} {f : Flat} {data : List UInt8}
  {calls : List Call}

/-! ## Blocks -/

theorem page_eq (k a : ℕ) : a >>> k = a / 2 ^ k := Nat.shiftRight_eq_div_pow a k

theorem offset_eq (k a : ℕ) : a &&& (2 ^ k - 1) = a % 2 ^ k := Nat.and_two_pow_sub_one_eq_mod a k

/-- The byte of the memory at an address. -/
def Space.byte (k : ℕ) (s : Space) (a : ℕ) : UInt8 := ((s (a / 2 ^ k)).getD Storage.zero) (a % 2 ^ k)

/-- The blocks hold the bytes of the array. -/
def Represents (k : ℕ) (s : Space) (f : Flat) : Prop := ∀ a, s.byte k a = f a

theorem represents_empty : Represents k Space.empty Flat.zero := fun _ => rfl

/-- An access inside one block has the addresses with its page and its offsets. -/
theorem inBlock_iff (a : ℕ) (hin : addr % 2 ^ k + n ≤ 2 ^ k) :
    (a / 2 ^ k = addr / 2 ^ k ∧ addr % 2 ^ k ≤ a % 2 ^ k ∧ a % 2 ^ k < addr % 2 ^ k + n) ↔
      addr ≤ a ∧ a < addr + n := by
  have ha := Nat.div_add_mod a (2 ^ k)
  have haddr := Nat.div_add_mod addr (2 ^ k)
  have hlt := Nat.mod_lt a (Nat.two_pow_pos k)
  constructor
  · rintro ⟨hpage, hlow, hhigh⟩
    rw [hpage] at ha
    omega
  · rintro ⟨hlow, hhigh⟩
    have hpage : a / 2 ^ k = addr / 2 ^ k := by
      apply le_antisymm
      · rw [← Nat.lt_succ_iff]
        refine Nat.div_lt_of_lt_mul ?_
        rw [Nat.mul_succ]
        omega
      · exact Nat.div_le_div_right hlow
    rw [hpage] at ha
    omega

theorem Represents.writeBlock (h : Represents k s f) (hin : addr % 2 ^ k + n ≤ 2 ^ k)
    (hn : n ≤ data.length) :
    ∃ s', s.writeBlock k (addr / 2 ^ k) (addr % 2 ^ k) n data = some s' ∧
      Represents k s' (f.write addr (data.take n)) := by
  simp only [Space.writeBlock, Storage.write, if_pos hin, Option.map_some]
  refine ⟨_, rfl, fun a => ?_⟩
  have hiff := inBlock_iff a hin
  have hlen : (data.take n).length = n := by
    rw [List.length_take]
    exact Nat.min_eq_left hn
  simp only [Space.byte, Flat.write, hlen]
  by_cases hpage : a / 2 ^ k = addr / 2 ^ k
  · rw [if_pos hpage, Option.getD_some]
    by_cases ha : addr ≤ a ∧ a < addr + n
    · obtain ⟨-, hoff⟩ := hiff.2 ha
      have hshift : a % 2 ^ k - addr % 2 ^ k = a - addr := by
        have h₁ := Nat.div_add_mod a (2 ^ k)
        have h₂ := Nat.div_add_mod addr (2 ^ k)
        rw [hpage] at h₁
        omega
      rw [if_pos ha, if_pos hoff, hshift]
      simp only [List.getD_eq_getElem?_getD]
      rw [List.getElem?_take_of_lt (by omega)]
    · rw [if_neg ha, if_neg fun hoff => ha (hiff.1 ⟨hpage, hoff⟩), ← hpage]
      exact h a
  · rw [if_neg hpage, if_neg fun ha => hpage (hiff.2 ha).1]
    exact h a

/-- An access inside one block that ends below the topmost block is below the limit of its block. -/
theorem le_blockLimit (hk : k < 32) (hin : addr % 2 ^ k + n ≤ 2 ^ k)
    (htop : addr + n ≤ addrSpace - 2 ^ k) (hn : 0 < n) : addr + n ≤ blockLimit k (addr / 2 ^ k) := by
  have hsize : (2 : ℕ) ^ 32 = 2 ^ k * 2 ^ (32 - k) := by rw [← Nat.pow_add]; congr 1; omega
  have hdiv := Nat.div_add_mod addr (2 ^ k)
  have hpos := Nat.two_pow_pos k
  have hpage : addr / 2 ^ k + 1 < 2 ^ (32 - k) := by
    by_contra hge
    have := Nat.mul_le_mul_left (2 ^ k) (Nat.le_of_not_lt hge)
    rw [← hsize, Nat.mul_succ] at this
    unfold addrSpace at htop
    omega
  have hlt : (addr / 2 ^ k + 1) * 2 ^ k < 2 ^ 32 := by
    rw [hsize, Nat.mul_comm]
    exact Nat.mul_lt_mul_of_pos_left hpage hpos
  rw [blockLimit, addrSpace, Nat.mod_eq_of_lt hlt, Nat.succ_mul, Nat.mul_comm]
  omega

theorem Represents.readSingleBlock (h : Represents k s f) (hin : addr % 2 ^ k + n ≤ 2 ^ k)
    (hk : k < 32) (hlimit : addr + n ≤ blockLimit k (addr / 2 ^ k)) :
    s.readSingleBlock k (addr / 2 ^ k) addr n = some (f.read addr n) := by
  have hn : n % addrSpace = n := by
    have : (2 : ℕ) ^ k < 2 ^ 32 := Nat.pow_lt_pow_right (by decide) hk
    exact Nat.mod_eq_of_lt (by unfold addrSpace; omega)
  have hbyte : ∀ i < n, ((s (addr / 2 ^ k)).getD Storage.zero) (addr % 2 ^ k + i) = f (addr + i) := by
    intro i hi
    obtain ⟨hpage, -, -⟩ := (inBlock_iff (addr + i) hin).2 ⟨by omega, by omega⟩
    have h₁ := Nat.div_add_mod (addr + i) (2 ^ k)
    have h₂ := Nat.div_add_mod addr (2 ^ k)
    rw [hpage] at h₁
    have hoff : (addr + i) % 2 ^ k = addr % 2 ^ k + i := by omega
    rw [← h (addr + i), Space.byte, hpage, hoff]
  rw [Space.readSingleBlock, if_neg (by omega), hn, offset_eq]
  cases hs : s (addr / 2 ^ k) with
  | none =>
      rw [hs] at hbyte
      refine congrArg some (List.ext_getElem (by simp [Flat.read]) fun i hi _ => ?_)
      rw [List.length_replicate] at hi
      simpa [Flat.read, Storage.zero] using hbyte i hi
  | some b =>
      rw [hs] at hbyte
      simp only [Storage.read, if_pos hin, Flat.read]
      exact congrArg some (List.map_congr_left fun i hi => hbyte i (List.mem_range.1 hi))

/-! ## Several blocks -/

theorem txBytes_eq (hk : k < 32) (hoff : offset < 2 ^ k) (h : offset + remain < addrSpace) :
    txBytes k offset remain = min remain (2 ^ k - offset) := by
  have hlt : (2 : ℕ) ^ k < 2 ^ 32 := Nat.pow_lt_pow_right (by decide) hk
  unfold txBytes addrSpace at *
  rw [Nat.mod_eq_of_lt h]
  dsimp only
  split <;> omega

theorem Flat.write_append (f : Flat) (addr : ℕ) (l₁ l₂ : List UInt8) :
    f.write addr (l₁ ++ l₂) = (f.write addr l₁).write (addr + l₁.length) l₂ := by
  funext a
  simp only [Flat.write, List.length_append, List.getD_eq_getElem?_getD, List.getElem?_append]
  split_ifs <;> first | omega | rfl | (congr 2; omega)

theorem Flat.write_nil (f : Flat) (addr : ℕ) : f.write addr [] = f := by
  funext a
  simp only [Flat.write, List.length_nil]
  rw [if_neg (by omega)]

theorem Flat.read_zero (f : Flat) (addr : ℕ) : f.read addr 0 = [] := rfl

theorem Flat.read_add (f : Flat) (addr m n : ℕ) :
    f.read addr (m + n) = f.read addr m ++ f.read (addr + m) n := by
  simp only [Flat.read, List.range_add, List.map_append, List.map_map]
  congr 1
  exact List.map_congr_left fun i _ => by simp [Nat.add_assoc]

/-- A round moves to the start of the next block, or to the end of the access. -/
theorem next_offset (hn : 0 < n) (hrange : addr + n ≤ addrSpace) (tx : ℕ) (htx : tx = min n (2 ^ k - addr % 2 ^ k)) :
    0 < tx ∧ tx ≤ n ∧ addr % 2 ^ k + tx ≤ 2 ^ k ∧
      (tx < n → (addr + tx) % addrSpace = addr + tx ∧ (addr + tx) % 2 ^ k = 0) := by
  have hlt := Nat.mod_lt addr (Nat.two_pow_pos k)
  refine ⟨by omega, by omega, by omega, fun hmore => ⟨Nat.mod_eq_of_lt (by omega), ?_⟩⟩
  have hfull : addr % 2 ^ k + tx = 2 ^ k := by omega
  have hdiv := Nat.div_add_mod addr (2 ^ k)
  have : addr + tx = 2 ^ k * (addr / 2 ^ k + 1) := by rw [Nat.mul_succ]; omega
  rw [this]
  exact Nat.mul_mod_right _ _

/-- The loop writes the rest of the access. -/
theorem Represents.writeLoop (hk : k < 32) {fuel : ℕ} (h : Represents k s f)
    (hfuel : data.length ≤ fuel)
    (hrange : data ≠ [] → addr + data.length ≤ addrSpace ∧ addr % 2 ^ k + data.length < addrSpace) :
    ∃ s', s.writeLoop k fuel addr data = some s' ∧ Represents k s' (f.write addr data) := by
  induction fuel generalizing s f addr data with
  | zero =>
      obtain rfl := List.length_eq_zero_iff.1 (Nat.le_zero.1 hfuel)
      exact ⟨s, rfl, by rwa [Flat.write_nil]⟩
  | succ fuel ih =>
      by_cases hdata : data = []
      · subst hdata
        exact ⟨s, rfl, by rwa [Flat.write_nil]⟩
      obtain ⟨hend, hwrap⟩ := hrange hdata
      have hpos : 0 < data.length := List.length_pos_iff.2 hdata
      have htx := txBytes_eq hk (Nat.mod_lt addr (Nat.two_pow_pos k)) hwrap
      obtain ⟨htx₀, hle, hin, hnext⟩ := next_offset hpos hend _ htx
      generalize htx' : txBytes k (addr % 2 ^ k) data.length = tx at htx htx₀ hle hin hnext
      obtain ⟨t, ht, hrep⟩ := h.writeBlock hin hle
      have hlen : (data.take tx).length = tx := by
        rw [List.length_take]
        exact Nat.min_eq_left hle
      have hsplit : f.write addr data =
          (f.write addr (data.take tx)).write (addr + tx) (data.drop tx) := by
        have := f.write_append addr (data.take tx) (data.drop tx)
        rwa [List.take_append_drop, hlen] at this
      have hdrop : (data.drop tx).length = data.length - tx := List.length_drop
      rw [Space.writeLoop, if_neg hdata]
      simp only [page_eq, offset_eq]
      rw [htx', ht, hsplit]
      by_cases hmore : tx < data.length
      · obtain ⟨hmod, hzero⟩ := hnext hmore
        rw [hmod]
        refine ih hrep (by omega) fun _ => ⟨by omega, ?_⟩
        rw [hzero]
        unfold addrSpace at *
        omega
      · have hnil : data.drop tx = [] := List.length_eq_zero_iff.1 (by omega)
        obtain ⟨s', hs', hrep'⟩ :
            ∃ s', t.writeLoop k fuel ((addr + tx) % addrSpace) (data.drop tx) = some s' ∧
              Represents k s' ((f.write addr (data.take tx)).write ((addr + tx) % addrSpace)
                (data.drop tx)) :=
          ih hrep (by omega) fun hne => absurd hnil hne
        refine ⟨s', hs', ?_⟩
        rwa [hnil, Flat.write_nil] at hrep' ⊢

/-- The loop reads the rest of the access, when it does not reach the topmost block. -/
theorem Represents.readLoop (hk : k < 32) {fuel : ℕ} (h : Represents k s f) (hfuel : n ≤ fuel)
    (hrange : 0 < n → addr + n ≤ addrSpace - 2 ^ k) :
    s.readLoop k fuel addr n = some (f.read addr n) := by
  induction fuel generalizing addr n with
  | zero =>
      obtain rfl := Nat.le_zero.1 hfuel
      rfl
  | succ fuel ih =>
      by_cases hn : n = 0
      · subst hn
        rfl
      have hpos : 0 < n := Nat.pos_of_ne_zero hn
      have htop := hrange hpos
      have hblock := Nat.mod_lt addr (Nat.two_pow_pos k)
      have hend : addr + n ≤ addrSpace := by omega
      have hwrap : addr % 2 ^ k + n < addrSpace := by
        have := Nat.mod_le addr (2 ^ k)
        have := Nat.two_pow_pos k
        omega
      have htx := txBytes_eq hk hblock hwrap
      obtain ⟨htx₀, hle, hin, hnext⟩ := next_offset hpos hend _ htx
      generalize htx' : txBytes k (addr % 2 ^ k) n = tx at htx htx₀ hle hin hnext
      have hread := h.readSingleBlock hin hk (le_blockLimit hk hin (by omega) htx₀)
      have hrest : s.readLoop k fuel ((addr + tx) % addrSpace) (n - tx) =
          some (f.read (addr + tx) (n - tx)) := by
        by_cases hmore : tx < n
        · rw [(hnext hmore).1]
          exact ih (by omega) fun _ => by omega
        · have hnil : n - tx = 0 := by omega
          rw [hnil, ih (Nat.zero_le _) fun h => absurd h (Nat.lt_irrefl 0)]
          simp only [Flat.read_zero]
      have hsum : tx + (n - tx) = n := by omega
      rw [Space.readLoop, if_neg hn]
      simp only [page_eq, offset_eq]
      rw [htx', hread, hrest]
      simp only [Option.bind_eq_bind, Option.bind_some, ← f.read_add addr tx, hsum]

/-! ## Calls -/

/-- A read of some bytes ends below the topmost block; a write does not go from the lowest block to the
end of the address space. -/
def Call.Safe (k : ℕ) : Call → Prop
  | .read addr length => length = 0 ∨ addr + length ≤ addrSpace - 2 ^ k
  | .write addr data => 2 ^ k ≤ addr ∨ addr + data.length < addrSpace

instance (k : ℕ) (c : Call) : Decidable (c.Safe k) := by
  cases c <;> unfold Call.Safe <;> infer_instance

instance (c : Call) : Decidable c.InRange := by
  unfold Call.InRange
  infer_instance

theorem mod_of_lt (h : n < addrSpace) : n % addrSpace = n := Nat.mod_eq_of_lt h

theorem Represents.write (hk : k < 32) (h : Represents k s f)
    (hin : (Call.write addr data).InRange) (hsafe : (Call.write addr data).Safe k) :
    ∃ s', s.write k addr data = some s' ∧ Represents k s' (f.write addr data) := by
  obtain ⟨haddr, hend⟩ := hin
  simp only [Call.addr, Call.length] at haddr hend
  have hblock := Nat.mod_lt addr (Nat.two_pow_pos k)
  have hwrap : addr % 2 ^ k + data.length < addrSpace := by
    have := Nat.mod_le addr (2 ^ k)
    rcases hsafe with hsafe | hsafe <;> omega
  have hlen : data.length % addrSpace = data.length := mod_of_lt (by omega)
  simp only [Space.write, hlen, page_eq, offset_eq, List.take_length]
  split
  case isTrue hfast =>
    have hdiv := Nat.div_add_mod addr (2 ^ k)
    have hlimit : blockLimit k (addr / 2 ^ k) ≤ (addr / 2 ^ k + 1) * 2 ^ k := Nat.mod_le _ _
    rw [Nat.succ_mul, Nat.mul_comm] at hlimit
    obtain ⟨s', hs', hrep⟩ :
        ∃ s', s.writeBlock k (addr / 2 ^ k) (addr % 2 ^ k) data.length data = some s' ∧
          Represents k s' (f.write addr (data.take data.length)) :=
      h.writeBlock (by omega) (Nat.le_refl _)
    rw [List.take_length] at hrep
    exact ⟨s', hs', hrep⟩
  case isFalse => exact h.writeLoop hk (Nat.le_refl _) fun _ => ⟨hend, hwrap⟩

theorem Represents.read (hk : k < 32) (h : Represents k s f)
    (hin : (Call.read addr n).InRange) (hsafe : (Call.read addr n).Safe k) :
    s.read k addr n = some (f.read addr n) := by
  obtain ⟨haddr, hend⟩ := hin
  simp only [Call.addr, Call.length] at haddr hend
  have hlen : n % addrSpace = n := by
    have := Nat.two_pow_pos k
    rcases hsafe with rfl | hsafe
    · rfl
    · refine mod_of_lt ?_
      unfold addrSpace at *
      omega
  simp only [Space.read, hlen, page_eq]
  split
  case isTrue hfast =>
    have hdiv := Nat.div_add_mod addr (2 ^ k)
    have hlimit : blockLimit k (addr / 2 ^ k) ≤ (addr / 2 ^ k + 1) * 2 ^ k := Nat.mod_le _ _
    rw [Nat.succ_mul, Nat.mul_comm] at hlimit
    exact h.readSingleBlock (by omega) hk hfast
  case isFalse =>
    refine h.readLoop hk (Nat.le_refl _) fun hpos => ?_
    rcases hsafe with rfl | hsafe
    · exact absurd hpos (Nat.lt_irrefl 0)
    · exact hsafe

theorem Represents.run (hk : k < 32) (h : Represents k s f) (hin : ∀ c ∈ calls, c.InRange)
    (hsafe : ∀ c ∈ calls, c.Safe k) : s.run k calls = some (f.run calls) := by
  induction calls generalizing s f with
  | nil => rfl
  | cons c calls ih =>
      have hin' := fun d hd => hin d (List.mem_cons_of_mem c hd)
      have hsafe' := fun d hd => hsafe d (List.mem_cons_of_mem c hd)
      cases c with
      | write addr data =>
          obtain ⟨t, ht, hrep⟩ := h.write hk (hin _ List.mem_cons_self) (hsafe _ List.mem_cons_self)
          simp only [Space.run, Flat.run, ht]
          exact ih hrep hin' hsafe'
      | read addr length =>
          have hread := h.read hk (hin _ List.mem_cons_self) (hsafe _ List.mem_cons_self)
          simp only [Space.run, Flat.run, hread, ih h hin' hsafe']
          rfl

/-- **In every sequence of calls whose reads end below the topmost block, and whose writes do not go from
the lowest block to the end, the memory is a flat array.** -/
theorem run_flat (k : ℕ) (hk : k < 32) (calls : List Call) (hin : ∀ c ∈ calls, c.InRange)
    (hsafe : ∀ c ∈ calls, c.Safe k) : Space.empty.run k calls = some (Flat.zero.run calls) :=
  represents_empty.run hk hin hsafe

/-- A write over two blocks, and reads of it. -/
def mixedCalls : List Call :=
  [.write 30 [1, 2, 3, 4], .read 28 8, .write 4294967288 [9, 9], .read 31 2, .write 31 [7], .read 31 2]

theorem run_flat_mixed :
    Space.empty.run 5 mixedCalls = some [[0, 0, 1, 2, 3, 4, 0, 0], [2, 3], [7, 3]] :=
  run_flat 5 (by decide) mixedCalls (by decide) (by decide)

/-- A byte of the topmost block can be written but not read. -/
theorem not_flat : (∀ c ∈ [Call.write 4294967295 [1], .read 4294967295 1], c.InRange) ∧
    Space.empty.run 5 [.write 4294967295 [1], .read 4294967295 1] = none ∧
    Flat.zero.run [.write 4294967295 [1], .read 4294967295 1] = [[1]] :=
  ⟨by decide, by decide +kernel, by decide +kernel⟩

end FuncMem
end CompressionWork
