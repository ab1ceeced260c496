import CompressionWork.Line

/-!
# Base-delta-immediate compression: the model

The model of `hpcl_comp_bdi_pl_proc.h` and of the block table in `hpcl_comp_bdi_pl.h`.
`run` tries to write the packet as one base and small differences: a chunk of the packet
whose high digits are zero, or those of the base, is replaced by a mask digit and its low
digits or its difference from the base.  The smallest block wins; `convert_output` then
packs the chosen encoding string into bytes.

Sizes are natural numbers here; the source counts them in `unsigned` and starts from
`INT_MAX`, which stands for "no size yet".  `get_int` adds powers of two in `double`, so
its partial sums are rounded to 53 bits.
-/

namespace CompressionWork.Bdi

open Codec

/-! ## The block table -/

/-- `Blocker`: the code of a block and its base and delta in bytes. -/
structure Blocker where
  code : Str
  base : ℕ
  delta : ℕ
  deriving DecidableEq

/-- The blocks of `init_blocks`, in this order. -/
def tracker : List Blocker :=
  [⟨['0', '0', '1', '0'], 8, 1⟩, ⟨['0', '0', '1', '1'], 8, 2⟩, ⟨['0', '1', '0', '0'], 8, 4⟩,
    ⟨['0', '1', '1', '0'], 4, 2⟩, ⟨['0', '1', '0', '1'], 4, 1⟩, ⟨['0', '1', '1', '1'], 2, 1⟩]

/-! ## Integers -/

/-- A number as a `double`: 53 significant bits, rounded to nearest, ties to even. -/
def roundDouble (z : ℤ) : ℤ :=
  let m := z.natAbs
  let e := Nat.log2 m - 52
  let q := m / 2 ^ e
  let r := m % 2 ^ e
  let q' := if 2 * r > 2 ^ e ∨ (2 * r = 2 ^ e ∧ q % 2 = 1) then q + 1 else q
  z.sign * (q' * 2 ^ e : ℕ)

/-- A `double` as a `long long`; outside its range the conversion gives the lowest value. -/
def toLongLong (z : ℤ) : ℤ := if -2 ^ 63 ≤ z ∧ z < 2 ^ 63 then z else -2 ^ 63

/-- The loop of `get_int` over the bits after the first. -/
def getIntLoop : Str → ℤ → ℤ
  | [], val => val
  | c :: binary, val =>
      getIntLoop binary
        (toLongLong (roundDouble (roundDouble val + bitVal c * 2 ^ binary.length)))

/-- `get_int`. -/
def getInt (binary : Str) (isNeg : Bool) : ℤ :=
  match binary with
  | [] => 0
  | c :: rest =>
      getIntLoop rest
        (if isNeg then -2 ^ rest.length else toLongLong (bitVal c * 2 ^ rest.length))

/-- The sign test before each call of `get_int`. -/
def getSigned (binary : Str) : ℤ := getInt binary (binary.headD '0' = '1')

/-- `get_binary_c`: complement the bits and add one, from the last bit to the first.  The
pair is the carry and the digits so far. -/
def getBinaryC (b : Str) : ℕ × Str :=
  b.foldr (fun c p => if c = '0' then (p.1, bitChar (1 ^^^ p.1) :: p.2)
    else (0, bitChar (0 ^^^ p.1) :: p.2)) (1, [])

/-- `convert_hexa`: the last `delta` hexadecimal digits of a signed number. -/
def convertHexa (num : ℤ) (delta : ℕ) : Str :=
  let binary := getBinary num.natAbs (delta * 4)
  let twoC := if num < 0 then (getBinaryC binary).2 else binary
  (chunks 4 twoC).map fun g => hexDigit (binaryValue g)

/-! ## One block -/

/-- `zero_diff`: the low digits behind the mask digit `'0'`, when the high digits agree. -/
def zeroDiff (src dst : Str) (delta : ℕ) : Option Str :=
  if src.take (src.length - delta) = dst.take (dst.length - delta) then
    some ('0' :: src.drop (src.length - delta))
  else none

/-- `check_zero`: each chunk of the packet against a zero base; a chunk that does not fit is
kept behind a `'#'`. -/
def checkZero (packet : Str) (base delta : ℕ) : Bool × List Str :=
  let subs := chunks base packet
  (subs.all fun sub => (zeroDiff sub (List.replicate base '0') delta).isSome,
    subs.map fun sub => (zeroDiff sub (List.replicate base '0') delta).getD ('#' :: sub))

/-- `convert_base`: the difference from the base, when the high digits agree. -/
def convertBase (src dst : Str) (delta : ℕ) : Option Str :=
  if src.take (src.length - delta) = dst.take (dst.length - delta) then
    let a := getSigned (hexToBin dst)
    let b := getSigned (hexToBin (src.drop (src.length - delta)))
    -- a signed overflow here wraps around
    let twoC := Int.bmod (-a) (2 ^ 64)
    some (convertHexa (Int.bmod (b + twoC) (2 ^ 64)) delta)
  else none

/-- The loop of `check_base`; `baseStr` is set by the first chunk behind a `'#'`. -/
def checkBaseLoop (delta : ℕ) : List Str → Option Str → Option (List Str × Option Str)
  | [], baseStr => some ([], baseStr)
  | cur :: parts, baseStr =>
      if cur.headD ' ' = '#' then
        let sub := cur.drop 1
        let base := baseStr.getD sub
        (convertBase sub base delta).bind fun processed =>
          (checkBaseLoop delta parts (some base)).map fun r => (('1' :: processed) :: r.1, r.2)
      else (checkBaseLoop delta parts baseStr).map fun r => (cur :: r.1, r.2)

/-- `check_base`: the new parts and the base. -/
def checkBase (partOutput : List Str) (delta : ℕ) : Option (List Str × Str) :=
  (checkBaseLoop delta partOutput none).map fun r => (r.1, r.2.getD [])

/-- `comp_bit_size` of an encoding string: the loop adds the bits of one part in steps of
`usedDelta + 1` characters, then come the code and the base. -/
def compBitSize (output : Str) (usedBase usedDelta : ℕ) : ℕ :=
  (output.length - (4 + usedBase) + usedDelta) / (usedDelta + 1) * (1 + usedDelta * 4) +
    (4 + usedBase * 4)

/-- The encoding string of a packet under a block, when the block applies. -/
def encodeBlock (packet : Str) (t : Blocker) : Option Str :=
  match checkZero packet (t.base * 2) (t.delta * 2) with
  | (true, parts) => some (t.code ++ List.replicate (t.base * 2) '0' ++ parts.flatten)
  | (false, parts) =>
      (checkBase parts (t.delta * 2)).map fun r => t.code ++ r.2 ++ r.1.flatten

/-! ## The choice of a block -/

/-- The locals of `run` that the choice sets; `newCompBitSize` is `none` for `INT_MAX`, and
without a block the used base and delta are `-1`, which nothing reads. -/
structure Choice where
  newOut : Str
  newCompBitSize : Option ℕ
  newUsedBase : ℕ
  newUsedDelta : ℕ
  deriving DecidableEq

/-- One round of the loop over the tracker. -/
def tryBlock (packet : Str) (c : Choice) (t : Blocker) : Choice :=
  match encodeBlock packet t with
  | none => c
  | some output =>
      let compBits := compBitSize output (t.base * 2) (t.delta * 2)
      if ∀ s ∈ c.newCompBitSize, compBits < s then
        ⟨output, some compBits, t.base * 2, t.delta * 2⟩
      else c

/-- `all_zero_check`. -/
def allZeroCheck (packet : Str) : Bool := packet = List.replicate packet.length '0'

/-- `all_same_val`: all chunks of sixteen digits equal the first one. -/
def allSameVal (packet : Str) : Bool :=
  (chunks 16 (packet.drop 16)).all fun tmp => packet.take 16 = tmp

/-- The part of `run` that fixes the encoding string and its bits. -/
def choose (packet : Str) : Choice :=
  if allZeroCheck packet then ⟨['0', '0', '0', '0'] ++ ['0', '0'], some (4 + 1 * 8), 0, 0⟩
  else if allSameVal packet then
    ⟨['0', '0', '0', '1'] ++ packet.take 16, some (4 + 8 * 8), 0, 0⟩
  else
    let c := tracker.foldl (tryBlock packet) ⟨[], none, 0, 0⟩
    -- `is_last_ex`: no block applied
    if c.newCompBitSize = none then
      ⟨['1', '1', '1', '1'] ++ packet, some (4 + packet.length * 4), 0, 0⟩
    else c

/-! ## The payload -/

/-- The bytes of a string of hexadecimal digits; a last single digit is one byte. -/
def hexBytes (decode : Str) : List ℕ := (chunks 2 decode).map fun sub => value 16 (sub.map hexVal)

/-- `binary` in the last branch of `convert_output`: the code, the bits of the base, and for
every part its mask digit and the bits of its delta. -/
def toBinary (output : Str) (delta base : ℕ) : Str :=
  output.take 4 ++ hexToBin ((output.drop 4).take base) ++
    (chunks (delta + 1) (output.drop (4 + base))).flatMap fun part =>
      part.take 1 ++ hexToBin (part.drop 1)

/-- The byte pushed for the bits of `binary` at `i`: `to_send` is filled with `binary[i]`
eight times. -/
def sampledByte (binary : Str) (i : ℕ) : ℕ :=
  (getInt (List.replicate 8 (binary.getD i '0')) false).toNat

/-- The end of `convert_output`: one byte for every eight bits, and one for the bits that are
left, filled up with zeros in front. -/
def packBits (binary : Str) : List ℕ :=
  let i := binary.length / 8 * 8
  let last := binary.drop i
  ((List.range (binary.length / 8)).map fun j => sampledByte binary (8 * j)) ++
    if last = [] then []
    else [(getInt (List.replicate (8 - last.length) '0' ++ last) false).toNat]

/-- `convert_output`. -/
def convertOutput (output : Str) (delta base : ℕ) : List ℕ :=
  if output.take 4 = ['0', '0', '0', '0'] then ['0'.toNat, '0'.toNat]
  else if output.take 4 = ['0', '0', '0', '1'] then List.replicate (8 + 1) '0'.toNat
  else if output.take 4 = ['1', '1', '1', '1'] then hexBytes ('F' :: output.drop 4)
  else packBits (toBinary output delta base)

/-- What `run` stores in the `mem_fetch`. -/
structure Result where
  compDataSize : ℕ
  compDataBits : ℕ
  compData : List ℕ
  deriving DecidableEq

/-- The end of `run`: `none` when the assertion on the byte count fails. -/
def finish (c : Choice) : Option Result :=
  let bits := c.newCompBitSize.getD 0
  let dataToSend := convertOutput c.newOut c.newUsedDelta c.newUsedBase
  if (bits + 7) / 8 = dataToSend.length then some ⟨(bits + 7) / 8, bits, dataToSend⟩ else none

/-- `run`: a `mem_fetch` without data is left alone. -/
def run (cacheData : List UInt8) : Option Result :=
  if cacheData = [] then none else finish (choose (decomposeData cacheData))

end CompressionWork.Bdi
