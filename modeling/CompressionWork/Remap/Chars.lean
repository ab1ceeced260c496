import CompressionWork.Codec.Chunks
import CompressionWork.Remap.Permute

/-!
# Data remapping of character lines

`hpcl_comp::remap_char_data`: the high nibbles of a line are brought together, and after them the low
ones. The options split the high nibbles further, or replace the whole by the eight bit planes.

* `remapCharData` — the remapped line.
* `length_remapCharData` — it is as long as the line, and an eighth longer with the extra bits.

`hpcl_char_remap_1bit_swap_en` changes a list whose entries are never read, so it is left out.
-/

namespace CompressionWork.Remap

open Codec

/-- The options `hpcl_char_remap_extrabit_en`, `hpcl_char_remap_2bit_en` and
`hpcl_char_remap_1bit_en`. -/
structure CharRemap where
  extrabit : Bool
  twoBit : Bool
  oneBit : Bool
  deriving DecidableEq, Repr

/-- The bytes of a loop with step 2; `get_real_data` asserts that the second is there. -/
def bytePairs : List UInt8 → Option (List (UInt8 × UInt8))
  | [] => some []
  | [_] => none
  | byte1 :: byte2 :: data => (bytePairs data).map ((byte1, byte2) :: ·)

/-- `low_nibble` -/
def lowNibbles (p : UInt8 × UInt8) : UInt8 := joinNib (lowNib p.1) (lowNib p.2)

/-- `high_nibble`; its lowest bits go to the extra bits. -/
def highNibbles (extrabit : Bool) (p : UInt8 × UInt8) : UInt8 :=
  if extrabit then joinNib (highNib p.1 / 2) (highNib p.2 / 2) else joinNib (highNib p.1) (highNib p.2)

/-- `lsb` after eight bytes. -/
def extraBits (bytes : List UInt8) : UInt8 :=
  UInt8.ofNat (bytes.foldr (fun b lsb => highNib b % 2 + 2 * lsb) 0)

/-- `extranibble_clus`: a byte for every eight bytes. -/
def extraNibbles (data : List UInt8) : List UInt8 :=
  (List.range (data.length / 8)).map fun g => extraBits ((data.drop (g * 8)).take 8)

/-- `high2bit_clus`: bits 2, 3, 6 and 7 of two bytes. -/
def high2bit (p : UInt8 × UInt8) : UInt8 :=
  let a : UInt8 := p.1 &&& 0x0C
  let b : UInt8 := p.1 &&& 0xC0
  let c : UInt8 := p.2 &&& 0x0C
  let d : UInt8 := p.2 &&& 0xC0
  a >>> 2 ||| b >>> 4 ||| c <<< 2 ||| d

/-- `low2bit_clus`: bits 0, 1, 4 and 5. -/
def low2bit (p : UInt8 × UInt8) : UInt8 :=
  let a : UInt8 := p.1 &&& 0x03
  let b : UInt8 := p.1 &&& 0x30
  let c : UInt8 := p.2 &&& 0x03
  let d : UInt8 := p.2 &&& 0x30
  a ||| b >>> 2 ||| c <<< 4 ||| d <<< 2

/-- `highnibble_clus` -/
def highClusters (opts : CharRemap) (pairs : List (UInt8 × UInt8)) : Option (List UInt8) :=
  let clus := pairs.map (highNibbles opts.extrabit)
  if opts.twoBit then
    (bytePairs clus).map fun ps => ps.map high2bit ++ ps.map low2bit
  else some clus

/-- `remapped_byte`: bit `m` of eight bytes. -/
def bitPlane (m : ℕ) (bytes : List UInt8) : UInt8 :=
  UInt8.ofNat (bytes.foldr (fun b plane => b.toNat / 2 ^ m % 2 + 2 * plane) 0)

/-- `remap_char_data`; the bit planes exclude the other options, and read eight bytes at a time. -/
def remapCharData (opts : CharRemap) (data : List UInt8) : Option (List UInt8) :=
  (bytePairs data).bind fun pairs =>
    (highClusters opts pairs).bind fun high =>
      if opts.oneBit then
        if opts.twoBit = false ∧ opts.extrabit = false ∧ data.length % 8 = 0 then
          some ((List.range 8).flatMap fun m =>
            (List.range (data.length / 8)).map fun g => bitPlane m ((data.drop (g * 8)).take 8))
        else none
      else
        some (high ++ (if opts.extrabit then extraNibbles data else []) ++ pairs.map lowNibbles)

theorem length_bytePairs {data : List UInt8} {pairs : List (UInt8 × UInt8)}
    (h : bytePairs data = some pairs) : data.length = 2 * pairs.length := by
  induction data using bytePairs.induct generalizing pairs with
  | case1 =>
      obtain rfl := Option.some.inj h
      rfl
  | case2 => cases h
  | case3 byte1 byte2 data ih =>
      rw [bytePairs] at h
      obtain ⟨ps, hps, rfl⟩ := Option.map_eq_some_iff.1 h
      have := ih hps
      simp only [List.length_cons]
      omega

theorem length_highClusters {opts : CharRemap} {pairs : List (UInt8 × UInt8)} {high : List UInt8}
    (h : highClusters opts pairs = some high) : high.length = pairs.length := by
  unfold highClusters at h
  split at h
  · obtain ⟨ps, hps, rfl⟩ := Option.map_eq_some_iff.1 h
    have hlen := length_bytePairs hps
    simp only [List.length_map] at hlen
    simp only [List.length_append, List.length_map]
    omega
  · obtain rfl := Option.some.inj h
    exact List.length_map _

/-- **The size of a remapped line.** -/
theorem length_remapCharData {opts : CharRemap} {data out : List UInt8}
    (h : remapCharData opts data = some out) :
    out.length = data.length + if opts.extrabit then data.length / 8 else 0 := by
  obtain ⟨pairs, hpairs, h⟩ := Option.bind_eq_some_iff.1 h
  obtain ⟨high, hhigh, h⟩ := Option.bind_eq_some_iff.1 h
  have hlen := length_bytePairs hpairs
  have hhigh := length_highClusters hhigh
  split at h
  · split at h
    case isTrue hopts =>
      obtain rfl := Option.some.inj h
      rw [hopts.2.1]
      simp [List.length_flatMap]
      omega
    case isFalse => cases h
  · obtain rfl := Option.some.inj h
    simp only [List.length_append, List.length_map]
    split
    · simp only [extraNibbles, List.length_map, List.length_range]
      omega
    · simp only [List.length_nil]
      omega

end CompressionWork.Remap
