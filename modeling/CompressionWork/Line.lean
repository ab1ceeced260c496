import CompressionWork.Codec.Chunks
import CompressionWork.Codec.Digits

/-!
# Cache lines as strings of hexadecimal digits

Every compressor of the simulator starts from the bytes of a `mem_fetch` and works on
strings: `decompose_data` turns each little-endian 4-byte word into eight hexadecimal
digits, which `transform(…, ::toupper)` makes upper case, and `get_binary` writes
numbers as strings of `'0'` and `'1'`.

A `std::string` is a list of characters here, `substr(i, n)` is `(s.drop i).take n`.
The compressors are instantiated at `unsigned int` only, so `sizeof(K)` is 4.
-/

namespace CompressionWork

open Codec

/-- A `std::string`. -/
abbrev Str := List Char

instance : LawfulBEq Str := inferInstance

/-! ## Hexadecimal digits -/

/-- The digits in the order of their values (`lut_bpc`). -/
def hexLut : Str :=
  ['0', '1', '2', '3', '4', '5', '6', '7', '8', '9', 'A', 'B', 'C', 'D', 'E', 'F']

/-- The character of a nibble. -/
def hexDigit (v : ℕ) : Char := hexLut.getD v '0'

/-- The value of a digit (`lc_cmp`, or `c - '0'` for a decimal digit). -/
def hexVal (c : Char) : ℕ := hexLut.idxOf c

/-- All characters are upper-case hexadecimal digits. -/
def IsHex (s : Str) : Prop := ∀ c ∈ s, c ∈ hexLut

instance (s : Str) : Decidable (IsHex s) := List.decidableBAll (fun c => c ∈ hexLut) s

theorem hexVal_hexDigit {v : ℕ} (h : v < 16) : hexVal (hexDigit v) = v := by
  revert v
  decide

/-- A fact about every digit is checked digit by digit. -/
theorem forall_hexLut (p : Char → Prop) [DecidablePred p] (h : hexLut.all fun c => decide (p c))
    {c : Char} (hc : c ∈ hexLut) : p c :=
  of_decide_eq_true (List.all_eq_true.1 h c hc)

theorem hexDigit_hexVal {c : Char} (h : c ∈ hexLut) : hexDigit (hexVal c) = c :=
  forall_hexLut (fun c => hexDigit (hexVal c) = c) (by decide) h

theorem hexVal_lt {c : Char} (h : c ∈ hexLut) : hexVal c < 16 :=
  forall_hexLut (fun c => hexVal c < 16) (by decide) h

theorem hexDigit_mem {v : ℕ} (h : v < 16) : hexDigit v ∈ hexLut := by
  revert v
  decide

theorem IsHex.take {s : Str} (h : IsHex s) (n : ℕ) : IsHex (s.take n) :=
  fun c hc => h c (List.mem_of_mem_take hc)

theorem IsHex.drop {s : Str} (h : IsHex s) (n : ℕ) : IsHex (s.drop n) :=
  fun c hc => h c (List.mem_of_mem_drop hc)

theorem IsHex.append {s t : Str} (hs : IsHex s) (ht : IsHex t) : IsHex (s ++ t) := by
  intro c hc
  rcases List.mem_append.1 hc with h | h
  · exact hs c h
  · exact ht c h

/-! ## Binary strings -/

/-- The character `'0' + d` of a binary digit. -/
def bitChar (d : ℕ) : Char := if d = 0 then '0' else '1'

/-- The value `c - '0'` of a binary digit. -/
def bitVal (c : Char) : ℕ := if c = '0' then 0 else 1

/-- `get_binary`, `get_bin_str`: `limit` times the digit `num % 2` is inserted at the front
and `num` is halved. -/
def getBinary (num limit : ℕ) : Str := (digits 2 limit num).map bitChar

/-- The number a binary string stands for. -/
def binaryValue (s : Str) : ℕ := value 2 (s.map bitVal)

@[simp] theorem length_getBinary (num limit : ℕ) : (getBinary num limit).length = limit := by
  simp [getBinary]

theorem bitVal_bitChar {d : ℕ} (h : d < 2) : bitVal (bitChar d) = d := by
  revert d
  decide

theorem map_bitVal_getBinary (num limit : ℕ) :
    (getBinary num limit).map bitVal = digits 2 limit num := by
  rw [getBinary, List.map_map]
  refine (List.map_congr_left fun d hd => ?_).trans (List.map_id _)
  exact bitVal_bitChar (digits_lt (by decide) hd)

theorem binaryValue_getBinary (num limit : ℕ) :
    binaryValue (getBinary num limit) = num % 2 ^ limit := by
  rw [binaryValue, map_bitVal_getBinary, value_digits]

theorem getBinary_inj {limit m n : ℕ} (hm : m < 2 ^ limit) (hn : n < 2 ^ limit)
    (h : getBinary m limit = getBinary n limit) : m = n := by
  have hv := congrArg binaryValue h
  rwa [binaryValue_getBinary, binaryValue_getBinary, Nat.mod_eq_of_lt hm,
    Nat.mod_eq_of_lt hn] at hv

/-- The four binary digits of every hexadecimal digit (`get_binary_hexa`, and
`get_bin_str(get_dec(tmp), 4)` for each character). -/
def hexToBin (cur : Str) : Str := cur.flatMap fun c => getBinary (hexVal c) 4

/-- All characters are binary digits. -/
def IsBin (s : Str) : Prop := ∀ c ∈ s, c = '0' ∨ c = '1'

theorem isBin_getBinary (num limit : ℕ) : IsBin (getBinary num limit) := by
  intro c hc
  obtain ⟨d, -, rfl⟩ := List.mem_map.1 hc
  unfold bitChar
  split
  · exact Or.inl rfl
  · exact Or.inr rfl

theorem IsBin.tail {s : Str} (h : IsBin s) : IsBin s.tail :=
  fun c hc => h c (List.mem_of_mem_tail hc)

theorem IsBin.drop {s : Str} (h : IsBin s) (n : ℕ) : IsBin (s.drop n) :=
  fun c hc => h c (List.mem_of_mem_drop hc)

theorem IsBin.getD {s : Str} (h : IsBin s) (i : ℕ) : s.getD i '0' = '0' ∨ s.getD i '0' = '1' := by
  rw [List.getD_eq_getElem?_getD]
  cases hi : s[i]? with
  | none => exact Or.inl rfl
  | some c => exact h c (List.mem_of_getElem? hi)

theorem isBin_hexToBin (s : Str) : IsBin (hexToBin s) := by
  intro c hc
  obtain ⟨d, -, hd⟩ := List.mem_flatMap.1 hc
  exact isBin_getBinary _ _ c hd

theorem bitVal_lt (c : Char) : bitVal c < 2 := by
  unfold bitVal
  split <;> omega

theorem bitVal_inj {c d : Char} (hc : c = '0' ∨ c = '1') (hd : d = '0' ∨ d = '1')
    (h : bitVal c = bitVal d) : c = d := by
  rcases hc with rfl | rfl <;> rcases hd with rfl | rfl <;> simp_all [bitVal]

theorem binaryValue_lt (s : Str) : binaryValue s < 2 ^ s.length := by
  have hbits : ∀ d ∈ s.map bitVal, d < 2 := by
    intro d hd
    obtain ⟨c, -, rfl⟩ := List.mem_map.1 hd
    exact bitVal_lt c
  have h := value_lt hbits
  rwa [List.length_map] at h

/-- Binary strings of one length are told apart by their values. -/
theorem binaryValue_inj {s t : Str} (hs : IsBin s) (ht : IsBin t) (hlen : s.length = t.length)
    (h : binaryValue s = binaryValue t) : s = t := by
  have hdig : ∀ u : Str, ∀ d ∈ u.map bitVal, d < 2 := by
    intro u d hd
    obtain ⟨c, -, rfl⟩ := List.mem_map.1 hd
    exact bitVal_lt c
  have hmap : s.map bitVal = t.map bitVal :=
    value_inj (hdig s) (hdig t) (by simp [hlen]) h
  clear h hdig
  induction s generalizing t with
  | nil => exact (List.eq_nil_of_length_eq_zero hlen.symm).symm
  | cons c s ih =>
      cases t with
      | nil => simp at hlen
      | cons d t =>
          rw [List.map_cons, List.map_cons, List.cons.injEq] at hmap
          have hcd : c = d := bitVal_inj (hs c (by simp)) (ht d (by simp)) hmap.1
          have hst : s = t := ih (fun e he => hs e (by simp [he])) (fun e he => ht e (by simp [he]))
            (by simpa using hlen) hmap.2
          rw [hcd, hst]

theorem binaryValue_cons (c : Char) (s : Str) :
    binaryValue (c :: s) = bitVal c * 2 ^ s.length + binaryValue s := by
  have h := value_append 2 [bitVal c] (s.map bitVal)
  rw [List.length_map] at h
  rw [binaryValue, List.map_cons, ← List.singleton_append, h, binaryValue]
  simp [value]

theorem length_hexToBin (s : Str) : (hexToBin s).length = 4 * s.length := by
  induction s with
  | nil => rfl
  | cons c s ih =>
      rw [hexToBin, List.flatMap_cons, List.length_append, ← hexToBin, ih, length_getBinary,
        List.length_cons]
      omega

theorem hexToBin_map_hexDigit {ds : List ℕ} (h : ∀ d ∈ ds, d < 16) :
    hexToBin (ds.map hexDigit) = (ds.flatMap (digits 2 4)).map bitChar := by
  induction ds with
  | nil => rfl
  | cons d ds ih =>
      rw [hexToBin] at ih
      rw [List.map_cons, hexToBin, List.flatMap_cons, ih fun e he => h e (by simp [he]),
        hexVal_hexDigit (h d (by simp)), List.flatMap_cons, List.map_append]
      rfl

/-- The digits that groups of four bits stand for. -/
def binToHex (s : Str) : Str := (chunks 4 s).map fun b => hexDigit (binaryValue b)

theorem binToHex_hexToBin {s : Str} (h : IsHex s) : binToHex (hexToBin s) = s := by
  have hchunks : chunks 4 (hexToBin s) = s.map fun c => getBinary (hexVal c) 4 := by
    rw [hexToBin, List.flatMap_def]
    refine chunks_flatten (by decide) fun b hb => ?_
    obtain ⟨c, -, rfl⟩ := List.mem_map.1 hb
    exact length_getBinary _ _
  rw [binToHex, hchunks, List.map_map]
  refine (List.map_congr_left fun c hc => ?_).trans (List.map_id _)
  have hlt := hexVal_lt (h c hc)
  rw [Function.comp_apply, binaryValue_getBinary, Nat.mod_eq_of_lt (by omega),
    hexDigit_hexVal (h c hc)]
  rfl

theorem hexToBin_inj {s t : Str} (hs : IsHex s) (ht : IsHex t) (h : hexToBin s = hexToBin t) :
    s = t := by
  rw [← binToHex_hexToBin hs, ← binToHex_hexToBin ht, h]

/-! ## The packet of a line -/

/-- `int_to_hex`: eight digits of a 4-byte word, in upper case. -/
def intToHex (i : ℕ) : Str := (digits 16 8 i).map hexDigit

/-- `decompose_data`: each group of four bytes is one little-endian word.  The loop would
read past the end of a line that is not made of whole words; the model stops there. -/
def decomposeData : List UInt8 → Str
  | b₀ :: b₁ :: b₂ :: b₃ :: rest =>
      intToHex (b₀.toNat + b₁.toNat * 2 ^ 8 + b₂.toNat * 2 ^ 16 + b₃.toNat * 2 ^ 24)
        ++ decomposeData rest
  | _ => []

/-- A word of a packet: eight hexadecimal digits. -/
def IsWord (w : Str) : Prop := w.length = 8 ∧ IsHex w

instance (w : Str) : Decidable (IsWord w) := inferInstanceAs (Decidable (_ ∧ _))

theorem isHex_intToHex (i : ℕ) : IsHex (intToHex i) := by
  intro c hc
  obtain ⟨d, hd, rfl⟩ := List.mem_map.1 hc
  exact hexDigit_mem (digits_lt (by decide) hd)

theorem isWord_intToHex (i : ℕ) : IsWord (intToHex i) :=
  ⟨by simp [intToHex], isHex_intToHex i⟩

theorem intToHex_inj {m n : ℕ} (hm : m < 2 ^ 32) (hn : n < 2 ^ 32)
    (h : intToHex m = intToHex n) : m = n := by
  have hdig : digits 16 8 m = digits 16 8 n := by
    have hmap := congrArg (List.map hexVal) h
    have hid : ∀ i, (intToHex i).map hexVal = digits 16 8 i := by
      intro i
      rw [intToHex, List.map_map]
      refine (List.map_congr_left fun d hd => ?_).trans (List.map_id _)
      exact hexVal_hexDigit (digits_lt (by decide) hd)
    rwa [hid, hid] at hmap
  exact digits_inj (by simpa using hm) (by simpa using hn) hdig

/-- The words of a line, as the compressors cut them out of the packet. -/
def lineWords (cacheData : List UInt8) : List Str := chunks 8 (decomposeData cacheData)

/-- Four bytes are one word of the packet. -/
theorem length_decomposeData : ∀ {m : ℕ} {cacheData : List UInt8}, cacheData.length = 4 * m →
    (decomposeData cacheData).length = 8 * m
  | 0, [], _ => rfl
  | m + 1, b₀ :: b₁ :: b₂ :: b₃ :: rest, h => by
      have hrest : rest.length = 4 * m := by simp at h; omega
      rw [decomposeData, List.length_append, (isWord_intToHex _).1, length_decomposeData hrest]
      omega
  | m + 1, [], h => by simp at h
  | m + 1, [_], h => by simp at h; omega
  | m + 1, [_, _], h => by simp at h; omega
  | m + 1, [_, _, _], h => by simp at h; omega

theorem isHex_decomposeData (cacheData : List UInt8) : IsHex (decomposeData cacheData) := by
  induction cacheData using decomposeData.induct with
  | case1 b₀ b₁ b₂ b₃ rest ih => exact (isHex_intToHex _).append ih
  | case2 s h =>
      rw [decomposeData]
      · intro c hc; simp at hc
      · exact h

/-- The packet of a line of whole words consists of words of eight digits. -/
theorem isWord_of_mem_lineWords {m : ℕ} {cacheData : List UInt8} (h : cacheData.length = 4 * m)
    {w : Str} (hw : w ∈ lineWords cacheData) : IsWord w := by
  have hlen := length_decomposeData h
  refine ⟨length_of_mem_chunks (by decide) hlen hw, fun c hc => ?_⟩
  refine isHex_decomposeData cacheData c ?_
  rw [← flatten_chunks (k := 8) (by decide) hlen]
  exact List.mem_flatten.2 ⟨w, hw, hc⟩

theorem flatten_lineWords {m : ℕ} {cacheData : List UInt8} (h : cacheData.length = 4 * m) :
    (lineWords cacheData).flatten = decomposeData cacheData :=
  flatten_chunks (by decide) (length_decomposeData h)

/-- **A packet determines its line**, byte for byte. -/
theorem decomposeData_inj : ∀ {m : ℕ} {l₁ l₂ : List UInt8}, l₁.length = 4 * m →
    l₂.length = 4 * m → decomposeData l₁ = decomposeData l₂ → l₁ = l₂
  | 0, [], [], _, _, _ => rfl
  | m + 1, a₀ :: a₁ :: a₂ :: a₃ :: s, b₀ :: b₁ :: b₂ :: b₃ :: t, h₁, h₂, h => by
      have hs : s.length = 4 * m := by simp at h₁; omega
      have ht : t.length = 4 * m := by simp at h₂; omega
      rw [decomposeData, decomposeData] at h
      have hsplit := List.append_inj h (by rw [(isWord_intToHex _).1, (isWord_intToHex _).1])
      have hrest : s = t := decomposeData_inj hs ht hsplit.2
      have ha₀ := a₀.toNat_lt
      have ha₁ := a₁.toNat_lt
      have ha₂ := a₂.toNat_lt
      have ha₃ := a₃.toNat_lt
      have hb₀ := b₀.toNat_lt
      have hb₁ := b₁.toNat_lt
      have hb₂ := b₂.toNat_lt
      have hb₃ := b₃.toNat_lt
      have hword := intToHex_inj (by omega) (by omega) hsplit.1
      have h₀ : a₀ = b₀ := UInt8.toNat_inj.1 (by omega)
      have h₁ : a₁ = b₁ := UInt8.toNat_inj.1 (by omega)
      have h₂ : a₂ = b₂ := UInt8.toNat_inj.1 (by omega)
      have h₃ : a₃ = b₃ := UInt8.toNat_inj.1 (by omega)
      rw [h₀, h₁, h₂, h₃, hrest]
  | m + 1, [], _, h, _, _ => by simp at h
  | m + 1, [_], _, h, _, _ => by simp at h; omega
  | m + 1, [_, _], _, h, _, _ => by simp at h; omega
  | m + 1, [_, _, _], _, h, _, _ => by simp at h; omega
  | m + 1, _, [], _, h, _ => by simp at h
  | m + 1, _, [_], _, h, _ => by simp at h; omega
  | m + 1, _, [_, _], _, h, _ => by simp at h; omega
  | m + 1, _, [_, _, _], _, h, _ => by simp at h; omega

/-- Every word is the packet of four bytes. -/
theorem exists_bytes {w : Str} (h : IsWord w) :
    ∃ b₀ b₁ b₂ b₃ : UInt8, intToHex
      (b₀.toNat + b₁.toNat * 2 ^ 8 + b₂.toNat * 2 ^ 16 + b₃.toNat * 2 ^ 24) = w := by
  have hdigit : ∀ d ∈ w.map hexVal, d < 16 := by
    intro d hd
    obtain ⟨c, hc, rfl⟩ := List.mem_map.1 hd
    exact hexVal_lt (h.2 c hc)
  have hlt := value_lt hdigit
  rw [List.length_map, h.1] at hlt
  have hback := digits_value hdigit
  rw [List.length_map, h.1] at hback
  generalize value 16 (w.map hexVal) = n at hlt hback
  refine ⟨UInt8.ofNat (n % 256), UInt8.ofNat (n / 2 ^ 8 % 256), UInt8.ofNat (n / 2 ^ 16 % 256),
    UInt8.ofNat (n / 2 ^ 24 % 256), ?_⟩
  have hbyte : ∀ k, (UInt8.ofNat (k % 256)).toNat = k % 256 := fun k =>
    UInt8.toNat_ofNat_of_lt' (Nat.mod_lt k (by decide))
  have hsum : n % 256 + n / 2 ^ 8 % 256 * 2 ^ 8 + n / 2 ^ 16 % 256 * 2 ^ 16 +
      n / 2 ^ 24 % 256 * 2 ^ 24 = n := by omega
  rw [hbyte, hbyte, hbyte, hbyte, hsum, intToHex, hback, List.map_map]
  exact (List.map_congr_left fun c hc => hexDigit_hexVal (h.2 c hc)).trans (List.map_id w)

/-- **Every sequence of words is the packet of a line.** -/
theorem exists_line {words : List Str} (h : ∀ w ∈ words, IsWord w) :
    ∃ line : List UInt8, line.length = 4 * words.length ∧ lineWords line = words := by
  have hpacket : ∃ line : List UInt8, line.length = 4 * words.length ∧
      decomposeData line = words.flatten := by
    induction words with
    | nil => exact ⟨[], rfl, rfl⟩
    | cons w words ih =>
        obtain ⟨line, hlen, hline⟩ := ih fun v hv => h v (by simp [hv])
        obtain ⟨b₀, b₁, b₂, b₃, hw⟩ := exists_bytes (h w (by simp))
        refine ⟨b₀ :: b₁ :: b₂ :: b₃ :: line, ?_, ?_⟩
        · simp only [List.length_cons, hlen]
          omega
        · rw [decomposeData, hw, hline, List.flatten_cons]
  obtain ⟨line, hlen, hline⟩ := hpacket
  exact ⟨line, hlen, by rw [lineWords, hline, chunks_flatten (by decide) fun w hw => (h w hw).1]⟩

end CompressionWork
