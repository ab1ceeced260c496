import CompressionWork.Approx.Words
import Mathlib.Tactic.IntervalCases
import Mathlib.Data.Nat.Bitwise

/-!
# Approximation and the bits of a word

* `Confined`, `Cleared` — what an approximation may change, and what it makes zero.
* `Agree` — the words of a block have the same bits in some range.
* `limited_iff` — `SET_ZERO` is confined to its bits; the other types replace `r` nibbles, and not `r` bits,
  so they are confined just when the words agree on the bits between.
-/

namespace CompressionWork.Approx

variable {data data' : List UInt8} {interval i j k b n : ℕ} {x v : UInt8} {r : UInt32}

/-- Bit `b` of a byte. -/
def bit (x : UInt8) (b : ℕ) : Bool := x.toNat.testBit b

/-- Bit `b` of byte `k` is this bit of its word. -/
def position (interval k b : ℕ) : ℕ := 8 * (k % interval) + b

/-- Only the `r` low-order bits of the words have changed. -/
def Confined (interval r : ℕ) (data data' : List UInt8) : Prop :=
  data'.length = data.length ∧ ∀ k < data.length, ∀ b < 8, r ≤ position interval k b →
    bit (byteAt data' k) b = bit (byteAt data k) b

/-- The `r` low-order bits of the words are zero. -/
def Cleared (interval r : ℕ) (data : List UInt8) : Prop :=
  ∀ k < data.length, ∀ b < 8, position interval k b < r → bit (byteAt data k) b = false

/-- The words have the same bits from `r` to `4 * r`. -/
def Agree (interval r : ℕ) (data : List UInt8) : Prop :=
  ∀ k < data.length, ∀ k' < data.length, k % interval = k' % interval → ∀ b < 8,
    r ≤ position interval k b → position interval k b < 4 * r → bit (byteAt data k) b = bit (byteAt data k') b

/-- What is asked of an approximation. -/
def Limited (config : ApproxConfig) (interval : ℕ) (data : List UInt8) (type : CompDataType) : Prop :=
  ∃ data', approximateData config data type = some data' ∧
    Confined interval config.floatApproxRange.toNat data data' ∧
    (config.approxType = .setZero → Cleared interval config.floatApproxRange.toNat data')

/-- The nibbles that are replaced are in the words, and the words agree on their bits past the range. -/
def Uniform (config : ApproxConfig) (interval : ℕ) (data : List UInt8) : Prop :=
  match config.approxType with
  | .setZero => True
  | .setAvg => data ≠ [] ∧ config.floatApproxRange.toNat ≤ 2 * interval ∧
      Agree interval config.floatApproxRange.toNat data
  | .setFreq => data = [] ∨ config.floatApproxRange.toNat ≤ 2 * interval ∧
      Agree interval config.floatApproxRange.toNat data

/-! ## `SET_ZERO` -/

theorem halfRange (htwo : 2 ≤ r.toNat) : (r / 2 - 1).toNat = r.toNat / 2 - 1 := by
  have hhalf : (r / 2).toNat = r.toNat / 2 := UInt32.toNat_div r 2
  have hone : (1 : UInt32) ≤ r / 2 := by
    rw [UInt32.le_iff_toNat_le, hhalf]
    show 1 ≤ r.toNat / 2
    omega
  rw [UInt32.toNat_sub_of_le _ _ hone, hhalf]
  rfl

theorem lastByteIndex_eq (htwo : 2 ≤ r.toNat) : lastByteIndex r = (r.toNat / 2 - 1) / 4 := by
  rw [lastByteIndex, UInt32.toNat_div, halfRange htwo]
  rfl

theorem bit_lastByteMask (htwo : 2 ≤ r.toNat) (hb : b < 8) :
    bit (x &&& lastByteMask r) b = (bit x b && decide (2 * ((r.toNat / 2 - 1) % 4) + 2 ≤ b)) := by
  have hmod : ((r / 2 - 1) % 4).toNat = (r.toNat / 2 - 1) % 4 := by
    rw [UInt32.toNat_mod, halfRange htwo]
    rfl
  have hlt : (r.toNat / 2 - 1) % 4 < 4 := Nat.mod_lt _ (by omega)
  rw [lastByteMask, hmod, bit, bit, UInt8.toNat_and, Nat.testBit_and]
  congr 1
  generalize (r.toNat / 2 - 1) % 4 = t at hlt
  interval_cases t <;> interval_cases b <;> rfl

theorem zeroByte_spec (heven : r.toNat % 2 = 0) (htwo : 2 ≤ r.toNat) (w : ℕ → UInt8) (c : ℕ) (hb : b < 8) :
    bit (zeroByte r w c) b = (bit (w c) b && decide (r.toNat ≤ 8 * c + b)) := by
  unfold zeroByte
  rw [lastByteIndex_eq htwo]
  by_cases hbelow : c < (r.toNat / 2 - 1) / 4
  · rw [if_pos hbelow, decide_eq_false (by omega), Bool.and_false]
    exact Nat.zero_testBit b
  · rw [if_neg hbelow]
    by_cases hlast : c = (r.toNat / 2 - 1) / 4
    · rw [if_pos hlast, bit_lastByteMask htwo hb]
      congr 2
      rw [eq_iff_iff]
      omega
    · rw [if_neg hlast, decide_eq_true (by omega), Bool.and_true]

/-- `SET_ZERO` clears the low-order bits and leaves the others. -/
theorem setZero_limited (hpos : 0 < interval) (hdvd : interval ∣ data.length) (heven : r.toNat % 2 = 0)
    (htwo : 2 ≤ r.toNat) (hle : r.toNat ≤ 8 * interval) :
    ∃ data', forWords interval (setZeroWord r) data = some data' ∧
      Confined interval r.toNat data data' ∧ Cleared interval r.toNat data' := by
  have hlast : lastByteIndex r < interval := by
    rw [lastByteIndex_eq htwo]
    omega
  obtain ⟨data', hdata', hlen, hbyte⟩ := pass_spec hpos hdvd (setZeroWord_spec hlast)
  have hword : ∀ k, wordAt data (k / interval * interval) (k % interval) = byteAt data k := fun k => by
    rw [wordAt, Nat.mul_comm, Nat.div_add_mod]
  refine ⟨data', hdata', ⟨hlen, fun k hk b hb hpast => ?_⟩, fun k hk b hb hin => ?_⟩
  · rw [position] at hpast
    rw [hbyte k hk, zeroByte_spec heven htwo _ _ hb, hword, decide_eq_true hpast, Bool.and_true]
  · rw [position] at hin
    rw [hbyte k (hlen ▸ hk), zeroByte_spec heven htwo _ _ hb, decide_eq_false (Nat.not_le.2 hin), Bool.and_false]

/-! ## Nibbles -/

theorem bit_nibble (hb : b < 4) : (nibble j x).testBit b = bit x (4 * (j % 2) + b) := by
  unfold nibble bit
  rcases Nat.mod_two_eq_zero_or_one j with hj | hj
  · rw [if_pos hj, hj, UInt8.toNat_and, Nat.testBit_and, Nat.mul_zero, Nat.zero_add]
    interval_cases b <;> exact Bool.and_true _
  · rw [if_neg (by omega), hj, UInt8.toNat_shiftRight, UInt8.toNat_and, Nat.testBit_shiftRight, Nat.testBit_and]
    interval_cases b <;> exact Bool.and_true _

theorem nibble_lt : nibble j x < 16 := by
  unfold nibble
  split
  · rw [UInt8.toNat_and]
    exact Nat.and_lt_two_pow (n := 4) _ (by decide)
  · rw [UInt8.toNat_shiftRight, UInt8.toNat_and, Nat.shiftRight_eq_div_pow]
    have hlt : x.toNat &&& 240 < 256 := Nat.and_lt_two_pow (n := 8) _ (by decide)
    exact Nat.div_lt_of_lt_mul hlt

theorem bit_highMask (hb : b < 8) : (0xf0 : UInt8).toNat.testBit b = decide (4 ≤ b) := by
  interval_cases b <;> rfl

theorem bit_lowMask (hb : b < 8) : (0x0f : UInt8).toNat.testBit b = decide (b < 4) := by
  interval_cases b <;> rfl

theorem bit_shiftLeft_four (hb : b < 8) :
    (v <<< 4).toNat.testBit b = (decide (4 ≤ b) && v.toNat.testBit (b - 4)) := by
  rw [UInt8.toNat_shiftLeft, Nat.testBit_mod_two_pow, decide_eq_true hb, Bool.true_and, Nat.testBit_shiftLeft]
  rfl

theorem bit_putNibble (hv : v.toNat < 16) (hb : b < 8) :
    bit (putNibble j x v) b = if b / 4 = j % 2 then v.toNat.testBit (b % 4) else bit x b := by
  unfold putNibble bit
  rcases Nat.mod_two_eq_zero_or_one j with hj | hj
  · rw [if_pos hj, hj, UInt8.toNat_or, UInt8.toNat_and, Nat.testBit_or, Nat.testBit_and, bit_highMask hb]
    by_cases hlow : b < 4
    · rw [if_pos (by omega), Nat.mod_eq_of_lt hlow, decide_eq_false (by omega), Bool.and_false, Bool.false_or]
    · have hhigh : v.toNat.testBit b = false :=
        Nat.testBit_lt_two_pow (Nat.lt_of_lt_of_le hv (Nat.pow_le_pow_right Nat.two_pos (by omega : 4 ≤ b)))
      rw [if_neg (by omega), hhigh, Bool.or_false, decide_eq_true (by omega), Bool.and_true]
  · rw [if_neg (by omega), hj, UInt8.toNat_or, UInt8.toNat_and, Nat.testBit_or, Nat.testBit_and,
      bit_lowMask hb, bit_shiftLeft_four hb]
    by_cases hlow : b < 4
    · rw [if_neg (by omega), decide_eq_true hlow, decide_eq_false (by omega : ¬ 4 ≤ b), Bool.and_true,
        Bool.false_and, Bool.or_false]
    · have hmod : b % 4 = b - 4 := by omega
      rw [if_pos (by omega), hmod, decide_eq_false hlow, decide_eq_true (by omega : 4 ≤ b), Bool.and_false,
        Bool.false_or, Bool.true_and]

/-! ## The value of a column -/

theorem approxVal_lt {type : ApproxType} {track : List ℕ} {val : ℕ} (h : approxVal type track = some val) :
    val < 16 := by
  unfold approxVal at h
  split at h
  · split at h
    · exact absurd h nofun
    · exact Option.some.inj h ▸ Nat.and_lt_two_pow (n := 4) _ (by decide)
  · exact Option.some.inj h ▸ Nat.and_lt_two_pow (n := 4) _ (by decide)
  · exact Option.some.inj h ▸ (by decide)

/-- The value with the largest count has come up. -/
theorem foldl_count (l : List ℕ) : (l ≠ [] → 0 < (l.foldl Frequencies.count {}).maxC) ∧
    (0 < (l.foldl Frequencies.count {}).maxC → (l.foldl Frequencies.count {}).maxVal ∈ l) := by
  induction l using List.reverseRecOn with
  | nil => exact ⟨fun h => absurd rfl h, fun h => absurd h (Nat.lt_irrefl 0)⟩
  | append_singleton l v ih =>
    rw [List.foldl_append, List.foldl_cons, List.foldl_nil]
    generalize l.foldl Frequencies.count {} = s at ih ⊢
    unfold Frequencies.count
    dsimp only
    rw [Function.update_self]
    split
    · exact ⟨fun _ => Nat.succ_pos _, fun _ => List.mem_append_right _ List.mem_cons_self⟩
    · dsimp only
      exact ⟨fun _ => by omega, fun hpos => List.mem_append_left _ (ih.2 hpos)⟩

theorem mostFrequent_mem {track : List ℕ} (hne : track ≠ []) : mostFrequent track ∈ track :=
  (foldl_count track).2 ((foldl_count track).1 hne)

theorem sum_bounds {track : List ℕ} {lo hi : ℕ} (h : ∀ x ∈ track, lo ≤ x ∧ x ≤ hi) :
    track.length * lo ≤ track.sum ∧ track.sum ≤ track.length * hi := by
  induction track with
  | nil => simp
  | cons x track ih =>
    obtain ⟨hlo, hhi⟩ := h x List.mem_cons_self
    obtain ⟨hlo', hhi'⟩ := ih fun y hy => h y (List.mem_cons_of_mem _ hy)
    rw [List.sum_cons, List.length_cons, Nat.succ_mul, Nat.succ_mul]
    omega

/-- Nibbles that agree on their upper bits agree on them with their average and the most frequent one. -/
theorem approxVal_div {type : ApproxType} {track : List ℕ} {d u : ℕ} (htype : type ≠ .setZero)
    (hne : track ≠ []) (hd : 0 < d) (h : ∀ x ∈ track, x < 16 ∧ x / d = u) :
    ∃ val, approxVal type track = some val ∧ val / d = u := by
  have hlow : ∀ x < 16, x &&& 0x0f = x := fun x hx =>
    (Nat.and_two_pow_sub_one_eq_mod x 4).trans (Nat.mod_eq_of_lt hx)
  cases type with
  | setZero => exact absurd rfl htype
  | setFreq =>
    obtain ⟨hlt, hdiv⟩ := h _ (mostFrequent_mem hne)
    exact ⟨mostFrequent track &&& 0x0f, rfl, by rw [hlow _ hlt, hdiv]⟩
  | setAvg =>
    have hlen : 0 < track.length := List.length_pos_iff.2 hne
    have hbounds := sum_bounds fun x hx =>
      show d * u ≤ x ∧ x ≤ d * u + (d - 1) by
        have hdiv := Nat.div_add_mod x d
        rw [(h x hx).2] at hdiv
        have := Nat.mod_lt x hd
        omega
    have hfifteen := (sum_bounds fun x hx => show 0 ≤ x ∧ x ≤ 15 from ⟨Nat.zero_le _, by
      have := (h x hx).1
      omega⟩).2
    have havg : track.sum / track.length < 16 := by
      rw [Nat.div_lt_iff_lt_mul hlen]
      omega
    refine ⟨track.sum / track.length &&& 0x0f, if_neg (Nat.ne_of_gt hlen), ?_⟩
    rw [hlow _ havg]
    refine Nat.div_eq_of_lt_le ?_ ?_
    · rw [Nat.le_div_iff_mul_le hlen, Nat.mul_comm, Nat.mul_comm u d]
      exact hbounds.1
    · rw [Nat.div_lt_iff_lt_mul hlen, Nat.succ_mul, Nat.mul_comm u d]
      refine Nat.lt_of_le_of_lt hbounds.2 ?_
      rw [Nat.mul_comm]
      exact Nat.mul_lt_mul_of_pos_right (by omega) hlen

/-! ## The loop over the nibbles -/

/-- Nibble `j` of every word. -/
def column (interval j : ℕ) (data : List UInt8) : List ℕ :=
  (List.range (data.length / interval)).map fun i => nibble j (byteAt data (i * interval + j / 2))

theorem mapM_eq_some {α β : Type*} {f : α → Option β} {g : α → β} {l : List α}
    (h : ∀ x ∈ l, f x = some (g x)) : l.mapM f = some (l.map g) := by
  induction l with
  | nil => rfl
  | cons x l ih =>
    rw [List.mapM_cons, h x List.mem_cons_self, ih fun y hy => h y (List.mem_cons_of_mem _ hy)]
    rfl

theorem wordStarts_of_dvd (hpos : 0 < interval) (hdvd : interval ∣ data.length) :
    wordStarts interval data.length = (List.range (data.length / interval)).map (· * interval) := by
  obtain ⟨n, hn⟩ := hdvd
  rw [hn, Nat.mul_div_cancel_left _ hpos, Nat.mul_comm, wordStarts_eq hpos]

/-- A place in a word of the block. -/
theorem place_lt (hdvd : interval ∣ data.length) (hi : i < data.length / interval) (hk : k < interval) :
    i * interval + k < data.length := by
  obtain ⟨n, hn⟩ := hdvd
  have hpos : 0 < interval := by omega
  rw [hn, Nat.mul_div_cancel_left _ hpos] at hi
  have hle : (i + 1) * interval ≤ n * interval := Nat.mul_le_mul_right _ hi
  rw [hn, Nat.mul_comm interval n]
  rw [Nat.succ_mul] at hle
  omega

theorem nibTrack_eq (hj : j / 2 < interval) (hdvd : interval ∣ data.length) :
    nibTrack interval j data = some (column interval j data) := by
  rw [nibTrack, wordStarts_of_dvd (by omega) hdvd, column, mapM_eq_some (g := fun i => nibble j (byteAt data (i + j / 2))),
    List.map_map]
  · rfl
  · intro x hx
    obtain ⟨i, hi, rfl⟩ := List.mem_map.1 hx
    rw [getElem?_of_lt (place_lt hdvd (List.mem_range.1 hi) hj), Option.map_some]

/-- Past the words the last one is read outside the block. -/
theorem nibTrack_none (hpos : 0 < interval) (hj : interval ≤ j / 2) (hdvd : interval ∣ data.length)
    (hne : data ≠ []) : nibTrack interval j data = none := by
  have hlen : 0 < data.length := List.length_pos_iff.2 hne
  obtain ⟨n, hn⟩ := id hdvd
  obtain ⟨m, rfl⟩ := Nat.exists_eq_add_one_of_ne_zero (n := n) fun hzero => by
    rw [hzero] at hn
    omega
  have hout : data.length ≤ m * interval + j / 2 := by
    rw [hn, Nat.mul_succ, Nat.mul_comm]
    omega
  rw [nibTrack, wordStarts_of_dvd hpos hdvd, hn, Nat.mul_div_cancel_left _ hpos, List.range_succ, List.map_append,
    List.mapM_append]
  simp [getElem?_of_le hout]

/-- A step of the loop: the nibbles of a column get one value. -/
theorem approximateNibble_spec {type : ApproxType} {val : ℕ} (hj : j / 2 < interval)
    (hdvd : interval ∣ data.length) (hval : approxVal type (column interval j data) = some val) :
    ∃ data', approximateNibble type interval data j = some data' ∧ data'.length = data.length ∧
      ∀ k < data.length, ∀ b < 8, bit (byteAt data' k) b =
        if 2 * (k % interval) + b / 4 = j then val.testBit (b % 4) else bit (byteAt data k) b := by
  have hpos : 0 < interval := by omega
  have hsmall : (UInt8.ofNat val).toNat = val := by
    rw [UInt8.toNat_ofNat']
    exact Nat.mod_eq_of_lt (Nat.lt_trans (approxVal_lt hval) (by decide))
  obtain ⟨data', hdata', hlen, hbyte⟩ := pass_spec hpos hdvd (putNibble_spec (v := UInt8.ofNat val) hj)
  refine ⟨data', ?_, hlen, fun k hk b hb => ?_⟩
  · rw [approximateNibble, nibTrack_eq hj hdvd, Option.bind_some, hval, Option.bind_some]
    exact hdata'
  · have hword : wordAt data (k / interval * interval) (k % interval) = byteAt data k := by
      rw [wordAt, Nat.mul_comm, Nat.div_add_mod]
    rw [hbyte k hk, replaceNibble, hword]
    by_cases hcol : k % interval = j / 2
    · rw [if_pos hcol, bit_putNibble (hsmall.symm ▸ approxVal_lt hval) hb, hsmall]
      by_cases hnib : b / 4 = j % 2
      · rw [if_pos hnib, if_pos (by omega)]
      · rw [if_neg hnib, if_neg (by omega)]
    · rw [if_neg hcol, if_neg (by omega)]

theorem column_ne_nil (hdvd : interval ∣ data.length) (hne : data ≠ []) : column interval j data ≠ [] := by
  have hlen : 0 < data.length := List.length_pos_iff.2 hne
  obtain ⟨n, hn⟩ := hdvd
  have hpos : 0 < interval := Nat.pos_of_ne_zero fun hzero => by
    rw [hzero] at hn
    omega
  rw [column, Ne, List.map_eq_nil_iff, List.range_eq_nil, hn, Nat.mul_div_cancel_left _ hpos]
  rintro rfl
  omega

/-- Columns with the same bits are the same. -/
theorem column_congr (hj : j / 2 < interval) (hdvd : interval ∣ data.length) (hlen : data'.length = data.length)
    (h : ∀ k < data.length, ∀ b < 8, 2 * (k % interval) + b / 4 = j →
      bit (byteAt data' k) b = bit (byteAt data k) b) : column interval j data' = column interval j data := by
  rw [column, column, hlen]
  refine List.map_congr_left fun i hi => Nat.eq_of_testBit_eq fun b => ?_
  have hk := place_lt hdvd (List.mem_range.1 hi) hj
  by_cases hb : b < 4
  · rw [bit_nibble hb, bit_nibble hb]
    refine h _ hk _ (by omega) ?_
    rw [Nat.mul_add_mod', Nat.mod_eq_of_lt hj]
    omega
  · have hhigh : ∀ x, (nibble j x).testBit b = false := fun x =>
      Nat.testBit_lt_two_pow (Nat.lt_of_lt_of_le nibble_lt (Nat.pow_le_pow_right Nat.two_pos (Nat.le_of_not_lt hb)))
    rw [hhigh, hhigh]

/-- The value that a column gets. -/
def columnVal (type : ApproxType) (interval j : ℕ) (data : List UInt8) : ℕ :=
  (approxVal type (column interval j data)).getD 0

theorem approxVal_column {type : ApproxType} (hdvd : interval ∣ data.length) (hne : data ≠ []) :
    approxVal type (column interval j data) = some (columnVal type interval j data) := by
  have hcol := column_ne_nil (j := j) hdvd hne
  unfold columnVal approxVal
  cases type with
  | setZero => rfl
  | setFreq => rfl
  | setAvg => rw [if_neg (Nat.ne_of_gt (List.length_pos_iff.2 hcol))]; rfl

/-- The loop after `m` rounds. -/
theorem foldlM_nibbles (type : ApproxType) (hdvd : interval ∣ data.length) (hne : data ≠ []) {m : ℕ}
    (hm : m ≤ 2 * interval) :
    ∃ data', (List.range m).foldlM (approximateNibble type interval) data = some data' ∧
      data'.length = data.length ∧ ∀ k < data.length, ∀ b < 8, bit (byteAt data' k) b =
        if 2 * (k % interval) + b / 4 < m then
          (columnVal type interval (2 * (k % interval) + b / 4) data).testBit (b % 4)
        else bit (byteAt data k) b := by
  induction m with
  | zero => exact ⟨data, rfl, rfl, fun k _ b _ => by rw [if_neg (Nat.not_lt_zero _)]⟩
  | succ m ih =>
    obtain ⟨mid, hmid, hmidLen, hmidBit⟩ := ih (by omega)
    have hj : m / 2 < interval := by omega
    -- the column has not been touched yet
    have hcol : column interval m mid = column interval m data :=
      column_congr hj hdvd hmidLen fun k hk b hb heq => by rw [hmidBit k hk b hb, if_neg (by omega)]
    have hval : approxVal type (column interval m mid) = some (columnVal type interval m data) := by
      rw [hcol, approxVal_column hdvd hne]
    obtain ⟨data', hdata', hlen, hbit⟩ := approximateNibble_spec hj (hmidLen ▸ hdvd) hval
    refine ⟨data', ?_, hlen.trans hmidLen, fun k hk b hb => ?_⟩
    · rw [List.range_succ, List.foldlM_append, hmid]
      simp [hdata']
    · rw [hbit k (hmidLen ▸ hk) b hb, hmidBit k hk b hb]
      by_cases heq : 2 * (k % interval) + b / 4 = m
      · rw [if_pos heq, if_pos (by omega), heq]
      · rw [if_neg heq]
        by_cases hlt : 2 * (k % interval) + b / 4 < m
        · rw [if_pos hlt, if_pos (by omega)]
        · rw [if_neg hlt, if_neg (by omega)]

/-! ## Which blocks are approximated within the range -/

/-- A bit past the range on which the words agree is left as it is. -/
theorem columnVal_testBit {type : ApproxType} {n : ℕ} (htype : type ≠ .setZero) (hdvd : interval ∣ data.length)
    (hne : data ≠ []) (hagree : Agree interval n data) (hk : k < data.length) (hb : b < 8)
    (hpast : n ≤ position interval k b) (hj : 2 * (k % interval) + b / 4 < n) :
    (columnVal type interval (2 * (k % interval) + b / 4) data).testBit (b % 4) = bit (byteAt data k) b := by
  generalize hjdef : 2 * (k % interval) + b / 4 = j at hj ⊢
  have hpos : 0 < interval := Nat.pos_of_ne_zero fun hzero => by
    rw [hzero, zero_dvd_iff] at hdvd
    omega
  have hcol : k % interval < interval := Nat.mod_lt _ hpos
  have hhalf : j / 2 = k % interval := by omega
  have hodd : j % 2 = b / 4 := by omega
  -- the words agree on the nibble from bit `t` on
  obtain ⟨t, ht⟩ : ∃ t, t = n - 4 * j := ⟨_, rfl⟩
  have hsame : ∀ x ∈ column interval j data, x < 16 ∧ x / 2 ^ t = nibble j (byteAt data k) / 2 ^ t := by
    intro x hx
    obtain ⟨i, hi, rfl⟩ := List.mem_map.1 hx
    have hplace := place_lt hdvd (List.mem_range.1 hi) (hhalf ▸ hcol)
    have hmod : (i * interval + j / 2) % interval = k % interval := by
      rw [Nat.mul_add_mod', hhalf, Nat.mod_mod]
    refine ⟨nibble_lt, Nat.eq_of_testBit_eq fun c => ?_⟩
    rw [Nat.testBit_div_two_pow, Nat.testBit_div_two_pow]
    by_cases hc : c + t < 4
    · rw [bit_nibble hc, bit_nibble hc]
      refine hagree _ hplace k hk hmod _ (by omega) ?_ ?_
      all_goals
        rw [position, hmod]
        omega
    · have hhigh : ∀ y, (nibble j y).testBit (c + t) = false := fun y => Nat.testBit_lt_two_pow
        (Nat.lt_of_lt_of_le nibble_lt (Nat.pow_le_pow_right Nat.two_pos (Nat.le_of_not_lt hc)))
      rw [hhigh, hhigh]
  obtain ⟨val, hval, hdiv⟩ := approxVal_div htype (column_ne_nil hdvd hne) (Nat.two_pow_pos t) hsame
  rw [columnVal, hval, Option.getD_some]
  -- the bit is one of those
  rw [position] at hpast
  have hge : t ≤ b % 4 := by omega
  have hbit := congrArg (fun y => y.testBit (b % 4 - t)) hdiv
  rw [Nat.testBit_div_two_pow, Nat.testBit_div_two_pow, Nat.sub_add_cancel hge,
    bit_nibble (Nat.mod_lt _ (by decide)), hodd] at hbit
  rw [hbit]
  congr 1
  omega

/-- `SET_AVG` and `SET_FREQ` for a block that is not empty. -/
theorem nibbles_limited (type : ApproxType) (htype : type ≠ .setZero) (hdvd : interval ∣ data.length)
    (hne : data ≠ []) :
    (∃ data', approximateNibbles type r interval data = some data' ∧ Confined interval r.toNat data data') ↔
      r.toNat ≤ 2 * interval ∧ Agree interval r.toNat data := by
  have hpos : 0 < interval := Nat.pos_of_ne_zero fun hzero => by
    rw [hzero, zero_dvd_iff] at hdvd
    exact hne (List.length_eq_zero_iff.1 hdvd)
  unfold approximateNibbles
  by_cases hin : r.toNat ≤ 2 * interval
  · obtain ⟨data', hdata', hlen, hbit⟩ := foldlM_nibbles type hdvd hne hin
    constructor
    · rintro ⟨result, hresult, -, hconfined⟩
      obtain rfl : data' = result := Option.some.inj (hdata'.symm.trans hresult)
      refine ⟨hin, fun k hk k' hk' hmod b hb hpast hnear => ?_⟩
      -- the words get the same value, and keep the bit
      have hpast' : r.toNat ≤ position interval k' b := by rwa [position, ← hmod]
      rw [position] at hnear
      rw [← hconfined k hk b hb hpast, ← hconfined k' hk' b hb hpast', hbit k hk b hb, hbit k' hk' b hb, hmod,
        if_pos (by omega), if_pos (by omega)]
    · rintro ⟨-, hagree⟩
      refine ⟨data', hdata', hlen, fun k hk b hb hpast => ?_⟩
      rw [hbit k hk b hb]
      split
      case isTrue hj => exact columnVal_testBit htype hdvd hne hagree hk hb hpast hj
      case isFalse => rfl
  · constructor
    · rintro ⟨result, hresult, -⟩
      obtain ⟨mid, hmid, hmidLen, -⟩ := foldlM_nibbles type hdvd hne (Nat.le_refl (2 * interval))
      obtain ⟨rest, hrest⟩ := Nat.exists_eq_add_of_lt (Nat.lt_of_not_le hin)
      have hmidNe : mid ≠ [] := by
        rw [← List.length_pos_iff, hmidLen]
        exact List.length_pos_iff.2 hne
      have habort : approximateNibble type interval mid (2 * interval) = none := by
        rw [approximateNibble, nibTrack_none hpos (by omega) (hmidLen ▸ hdvd) hmidNe, Option.bind_none]
      rw [hrest, Nat.add_assoc, List.range_add, List.foldlM_append, hmid, Nat.add_comm rest, List.range_add] at hresult
      simp [habort] at hresult
    · exact fun h => absurd h.1 hin

theorem wordStarts_zero (hpos : 0 < interval) : wordStarts interval 0 = [] := by
  rw [wordStarts, Nat.zero_add, Nat.div_eq_of_lt (Nat.sub_lt hpos Nat.one_pos)]
  rfl

/-- **Approximation is confined to its bits** for `SET_ZERO`; for the other types just when the words agree on
the bits past the range. -/
theorem limited_iff {config : ApproxConfig} {type : CompDataType} (hinterval : type.interval = some interval)
    (hdvd : interval ∣ data.length) (heven : config.floatApproxRange.toNat % 2 = 0)
    (htwo : 2 ≤ config.floatApproxRange.toNat) (hle : config.floatApproxRange.toNat ≤ 8 * interval)
    (hcompen : config.approxType = .setZero → config.errCompenEn = false) :
    Limited config interval data type ↔ Uniform config interval data := by
  have hpos : 0 < interval := by omega
  obtain ⟨approxType, range, errCompenEn⟩ := config
  dsimp only at *
  unfold Limited Uniform approximateData
  rw [hinterval, Option.bind_some]
  cases approxType with
  | setZero =>
    rw [hcompen rfl]
    obtain ⟨data', hdata', hconfined, hcleared⟩ := setZero_limited hpos hdvd heven htwo hle
    exact ⟨fun _ => trivial, fun _ => ⟨data', hdata', hconfined, fun _ => hcleared⟩⟩
  | setAvg =>
    dsimp only
    by_cases hne : data = []
    · -- the average of no nibbles is a division by zero
      subst hne
      have hnone : approximateNibbles .setAvg range interval [] = none := by
        obtain ⟨n, hn⟩ := Nat.exists_eq_add_of_le' (Nat.le_of_succ_le htwo)
        have hstep : approximateNibble .setAvg interval [] 0 = none := by
          simp [approximateNibble, nibTrack, wordStarts_zero hpos, approxVal]
        rw [approximateNibbles, hn, List.range_succ_eq_map, List.foldlM_cons, hstep]
        rfl
      rw [hnone]
      simp
    · rw [and_iff_right hne, ← nibbles_limited .setAvg (by decide) hdvd hne]
      simp
  | setFreq =>
    dsimp only
    by_cases hne : data = []
    · subst hne
      have hempty : ∀ l : List ℕ, l.foldlM (approximateNibble .setFreq interval) [] = some [] := by
        intro l
        induction l with
        | nil => rfl
        | cons j l ih =>
          have hstep : approximateNibble .setFreq interval [] j = some [] := by
            simp [approximateNibble, nibTrack, forWords, wordStarts_zero hpos, approxVal]
          rw [List.foldlM_cons, hstep]
          exact ih
      refine ⟨fun _ => Or.inl rfl, fun _ => ⟨[], hempty _, ⟨rfl, fun k hk => absurd hk (Nat.not_lt_zero k)⟩,
        fun h => by simp at h⟩⟩
    · rw [or_iff_right hne, ← nibbles_limited .setFreq (by decide) hdvd hne]
      simp

/-- Six bits of two words are cleared. -/
theorem limited_iff_six :
    Limited ⟨.setZero, 6, false⟩ 4 [0xff, 0x12, 0, 0x40, 0x35, 0xff, 0, 0x41] .remappedData2 := by
  have hiff : Limited ⟨.setZero, 6, false⟩ 4 [0xff, 0x12, 0, 0x40, 0x35, 0xff, 0, 0x41] .remappedData2 ↔
      Uniform ⟨.setZero, 6, false⟩ 4 [0xff, 0x12, 0, 0x40, 0x35, 0xff, 0, 0x41] :=
    limited_iff rfl (by decide) (by decide) (by decide) (by decide) fun _ => rfl
  exact hiff.2 trivial

/-- The average of two words with a range of two bits: bit 4 of the second word is lost. -/
theorem not_limited : ¬ Limited ⟨.setAvg, 2, false⟩ 4 [0, 0, 0, 0, 0x10, 0, 0, 0] .remappedData2 := by
  rintro ⟨data', hdata', hconfined, -⟩
  have hzero : approximateData ⟨.setAvg, 2, false⟩ [0, 0, 0, 0, 0x10, 0, 0, 0] .remappedData2 =
      some [0, 0, 0, 0, 0, 0, 0, 0] := by decide
  obtain rfl := Option.some.inj (hzero.symm.trans hdata')
  exact absurd (hconfined.2 4 (by decide) 4 (by decide) (by decide)) (by decide)

end CompressionWork.Approx
