/-
# The address decoder

`linear_to_raw_address_translation` reads a mapping string into one mask for each part of a DRAM
address, inserts the chip number, and decodes addresses with the masks.

* `parseoption`, `init` — how the masks are made;
* `addrdecTlx`, `partitionAddress` — what is made of an address.

`(mask & (1ULL << i)) != 0` is `mask.testBit i`. Addresses and masks are numbers below `2 ^ 64`.
-/
import Mathlib.Data.List.Basic
import Mathlib.Data.Nat.Bitwise

namespace CompressionWork
namespace AddrDec

/-- The fields of a decoded address. -/
inductive Field where
  | chip | bk | row | col | burst
  deriving DecidableEq, Repr

/-! ## The mapping string -/

/-- The masks in which a character of the mapping string sets a bit. -/
def fieldsOf : Char → List Field
  | 'D' => [.chip]
  | 'd' => [.chip]
  | 'B' => [.bk]
  | 'b' => [.bk]
  | 'R' => [.row]
  | 'r' => [.row]
  | 'C' => [.col]
  | 'c' => [.col]
  | 'S' => [.burst, .col]
  | 's' => [.burst, .col]
  | _ => []

/-- The characters that stand for a bit. The others are skipped, the unknown ones after a message. -/
def isMark (c : Char) : Bool := c = '0' || fieldsOf c ≠ []

/-- The number that `sscanf` reads with `dramid@%d`. -/
def scanDramid (option : List Char) : Option ℤ :=
  if ['d', 'r', 'a', 'm', 'i', 'd', '@'].isPrefixOf option then
    let number := (option.drop 7).dropWhile Char.isWhitespace
    let unsigned := if number.head? = some '-' ∨ number.head? = some '+' then number.tail else number
    let digits := unsigned.takeWhile Char.isDigit
    let value : ℤ := digits.foldl (fun v c => 10 * v + (c.toNat - 48 : ℕ)) (0 : ℤ)
    if digits = [] then none else some (if number.head? = some '-' then -value else value)
  else none

/-- The part of the option behind the first `;`, or all of it. -/
def cmapping (option : List Char) : List Char :=
  match option.dropWhile (· ≠ ';') with
  | [] => option
  | _ :: cs => cs

/-- The loop of `addrdec_parseoption`, with `ofs + 1` bits left. It fails when an assertion does: a
chip bit beside `dramid@`, or a string that does not have 64 marks. -/
def parseMapping (dramid : Bool) : ℕ → (Field → ℕ) → List Char → Option (Field → ℕ)
  | left, mask, [] => if left = 0 then some mask else none
  | left, mask, c :: cs =>
      if dramid ∧ .chip ∈ fieldsOf c then none
      else if isMark c then
        match left with
        | 0 => none
        | ofs + 1 => parseMapping dramid ofs
            (fun f => if f ∈ fieldsOf c then mask f ||| 1 <<< ofs else mask f) cs
      else parseMapping dramid left mask cs

/-- `ADDR_CHIP_S` and `addrdec_mask`. -/
structure Parsed where
  chipS : ℤ
  mask : Field → ℕ

/-- `addrdec_parseoption`. -/
def parseoption (option : List Char) : Option Parsed :=
  (parseMapping (scanDramid option).isSome 64 (fun _ => 0) (cmapping option)).map fun mask =>
    ⟨(scanDramid option).getD (-1), mask⟩

/-! ## Packing bits -/

/-- `addrdec_packbits`. -/
def packbits (mask val high low : ℕ) : ℕ :=
  ((List.range' low (high - low)).foldl (fun (s : ℕ × ℕ) i =>
    if mask.testBit i then (s.1 + 1, s.2 ||| (val.testBit i).toNat <<< s.1) else s) (0, 0)).2

/-- The values of `addrdec_getmasklimit`. -/
structure Limit where
  high : ℕ
  low : ℕ
  found : Bool

/-- `addrdec_getmasklimit`. -/
def getmasklimit (mask : ℕ) : Limit :=
  (List.range 64).foldl (fun l i =>
    if mask.testBit i then
      if l.found then { l with high := i + 1 } else { high := i + 1, low := i, found := true }
    else l) ⟨64, 0, false⟩

/-! ## Setting up -/

/-- `LOGB2_32`. -/
def logb2 (v : ℕ) : ℕ :=
  let shift4 := if v &&& 0xFFFF0000 ≠ 0 then 16 else 0
  let v := v >>> shift4
  let shift3 := if v &&& 0xFF00 ≠ 0 then 8 else 0
  let v := v >>> shift3
  let shift2 := if v &&& 0xF0 ≠ 0 then 4 else 0
  let v := v >>> shift2
  let shift1 := if v &&& 0xC ≠ 0 then 2 else 0
  let v := v >>> shift1
  let shift0 := if v &&& 0x2 ≠ 0 then 1 else 0
  shift4 ||| shift3 ||| shift2 ||| shift1 ||| shift0

/-- The bits of a mask from `s` on move up by `k`, in 64 bits. -/
def shiftMask (s k mask : ℕ) : ℕ :=
  let low := 1 <<< s - 1
  (((mask &&& ((2 ^ 64 - 1) ^^^ low)) <<< k) ||| (mask &&& low)) % 2 ^ 64

/-- The chip number goes to the `k` bits from `s` on. The burst mask is not moved. -/
def insertChip (s k : ℕ) (mask : Field → ℕ) : Field → ℕ
  | .chip => (List.range' s k).foldl (fun m i => m ||| 1 <<< i) (mask .chip)
  | .burst => mask .burst
  | f => shiftMask s k (mask f)

/-- The loop for `sub_partition_id_mask`: it stops after `log` bits. -/
def subMaskLoop (bk log : ℕ) : List ℕ → ℕ → ℕ → ℕ
  | [], _, acc => acc
  | i :: is, pos, acc =>
      if bk.testBit i then
        if log ≤ pos + 1 then acc ||| 1 <<< i else subMaskLoop bk log is (pos + 1) (acc ||| 1 <<< i)
      else subMaskLoop bk log is pos acc

/-- The fields of `linear_to_raw_address_translation` that the decoder reads. -/
structure Translation where
  chipS : ℤ
  nChannel : ℕ
  nSub : ℕ
  gap : Bool
  mask : Field → ℕ
  limit : Field → Limit
  subMask : ℕ

/-- What `init` makes of the masks, when its assertions hold. `none` stands for a shift by less than
zero or by the width of its operand or more: of `1ULL` here and, when the number of channels is no
power of two, of the `int` 1 in `addrdec_tlx` and `partition_address`. -/
def init (p : Parsed) (nChannel nSub : ℕ) : Option Translation :=
  let nchipbits := logb2 nChannel
  let gap : Bool := nChannel ≠ 2 ^ nchipbits
  let s := p.chipS.toNat
  let mask :=
    if p.chipS = -1 then some p.mask
    else if gap then if 0 ≤ p.chipS ∧ s < 31 then some p.mask else none
    else if 0 ≤ p.chipS ∧ s < 64 ∧ (nchipbits = 0 ∨ s + nchipbits ≤ 64) then
      some (insertChip s nchipbits p.mask)
    else none
  mask.map fun mask =>
    let limit := getmasklimit (mask .bk)
    { chipS := p.chipS
      nChannel := nChannel
      nSub := nSub
      gap := gap
      mask := mask
      limit := fun f => getmasklimit (mask f)
      subMask :=
        if 1 < nSub then
          subMaskLoop (mask .bk) (logb2 nSub) (List.range' limit.low (limit.high - limit.low)) 0 0
        else 0 }

/-! ## Decoding -/

/-- The quotient of the upper part by the number of channels, stitched to the lower part. -/
def restOf (s n addr : ℕ) : ℕ := (((addr >>> s) / n) <<< s) ||| (addr &&& (1 <<< s - 1))

namespace Translation

variable (t : Translation)

/-- A field of `addrdec_t` is an `unsigned`. -/
def field (f : Field) (addr : ℕ) : ℕ :=
  packbits (t.mask f) addr (t.limit f).high (t.limit f).low % 2 ^ 32

/-- `addrdec_tlx`, for the fields other than `sub_partition`. -/
def addrdecTlx (addr : ℕ) (f : Field) : ℕ :=
  if t.gap then
    if f = .chip then ((addr >>> t.chipS.toNat) % t.nChannel) % 2 ^ 32
    else t.field f (restOf t.chipS.toNat t.nChannel addr)
  else t.field f addr

/-- The `sub_partition` of `addrdec_tlx`. -/
def subPartition (addr : ℕ) : ℕ :=
  (t.addrdecTlx addr .chip * t.nSub + (t.addrdecTlx addr .bk &&& (t.nSub - 1))) % 2 ^ 32

/-- `partition_address`. -/
def partitionAddress (addr : ℕ) : ℕ :=
  if t.gap then
    packbits ((2 ^ 64 - 1) ^^^ t.subMask) (restOf t.chipS.toNat t.nChannel addr) 64 0
  else packbits ((2 ^ 64 - 1) ^^^ (t.mask .chip ||| t.subMask)) addr 64 0

end Translation

/-! ## What the mapping is for -/

/-- The mapping string uses the bit `i`: the mark for it is not `0`. -/
def Marked (option : List Char) (i : ℕ) : Prop :=
  ∃ c, ((cmapping option).filter isMark).reverse[i]? = some c ∧ c ≠ '0'

/-- Two addresses are the same up to the bits that the string ignores or that the masks lose above bit
63. Without `dramid@` bit `i` has the mark `i`. With it the marks are those of the address without
its chip number: for a power of two the chip number is the `k` bits from `ADDR_CHIP_S` on, otherwise
the remainder of the upper part. -/
def SameCell (option : List Char) (t : Translation) (a b : ℕ) : Prop :=
  if t.chipS = -1 then ∀ i, Marked option i → a.testBit i = b.testBit i
  else if t.gap then
    (a >>> t.chipS.toNat) % t.nChannel = (b >>> t.chipS.toNat) % t.nChannel ∧
      ∀ i, Marked option i →
        (restOf t.chipS.toNat t.nChannel a).testBit i = (restOf t.chipS.toNat t.nChannel b).testBit i
  else ∀ i < 64,
    (if i < t.chipS.toNat then Marked option i
      else t.chipS.toNat + logb2 t.nChannel ≤ i → Marked option (i - logb2 t.nChannel)) →
    a.testBit i = b.testBit i

/-- The mapping loses nothing. -/
structure Faithful (option : List Char) (t : Translation) : Prop where
  cell : ∀ a < 2 ^ 64, ∀ b < 2 ^ 64, t.addrdecTlx a = t.addrdecTlx b → SameCell option t a b
  chip : (scanDramid option).isSome → ∀ a < 2 ^ 64, t.addrdecTlx a .chip < t.nChannel
  partition : ∀ a < 2 ^ 64, ∀ b < 2 ^ 64, t.subPartition a = t.subPartition b →
    t.partitionAddress a = t.partitionAddress b → a = b

end AddrDec
end CompressionWork
