import CompressionWork.Remap.Ops
import CompressionWork.Remap.Planes

/-!
# Character remapping loses nothing

Two different lines stay different under `convert_char_symbols` and `remap_char_data`, whatever
the symbol table and the options are.  Each step is undone on its own: the symbols by
converting them once more, the clusters by the nibbles or the bits they were made of.

* `convertCharSymbol_convertCharSymbol` — every table swaps its symbols in pairs.
* `map_eq_of_map_eq` — what two images of a list determine between them.
* `map_lowNib_eq`, `highClusters_eq`, `map_highNib_eq`, `extraNibbles_eq` — the three clusters.
* `bitPlanes_injective` — the bit planes.
* `remapChars_injective` — both steps, for all modes.
-/

namespace CompressionWork.Remap

open Codec

/-! ## The symbol tables -/

/-- `m_symbol_table` for each `hpcl_char_symbol_tbl`; any other number leaves it empty. -/
def symbolTable : ℕ → List (UInt8 × UInt8)
  | 0 => [(0x00, 0x60), (0x0A, 0x7B), (0x0D, 0x7C), (0x20, 0x7D), (0x2C, 0x7E), (0x2E, 0x7F),
      (0x60, 0x00), (0x7B, 0x0A), (0x7C, 0x0D), (0x7D, 0x20), (0x7E, 0x2C), (0x7F, 0x2E)]
  | 1 => [(0x00, 0x5B), (0x71, 0x5C), (0x5B, 0x00), (0x5C, 0x71)]
  | 2 => [(0x20, 0x60), (0x22, 0x7B), (0x3D, 0x7C), (0x3C, 0x7D), (0x3E, 0x7E), (0x2E, 0x7F),
      (0xA0, 0x5B), (0xC2, 0x5C),
      (0x60, 0x20), (0x7B, 0x22), (0x7C, 0x3D), (0x7D, 0x3C), (0x7E, 0x3E), (0x7F, 0x2E),
      (0x5B, 0xA0), (0x5C, 0xC2)]
  | 3 => [(0x00, 0x60), (0x09, 0x7B), (0x0A, 0x7C), (0x0D, 0x7D), (0x20, 0x7F),
      (0x60, 0x00), (0x7B, 0x09), (0x7C, 0x0A), (0x7D, 0x0D), (0x7F, 0x20)]
  | _ => []

/-- A byte that is not in the table stays. -/
def convertCharSymbol (tbl : ℕ) (b : UInt8) : UInt8 := ((symbolTable tbl).lookup b).getD b

/-- `convert_char_symbols` -/
def convertCharSymbols (tbl : ℕ) (data : List UInt8) : List UInt8 :=
  data.map (convertCharSymbol tbl)

/-- The two steps for a character line; the first one only under
`hpcl_char_symbol_conv_en`. -/
def remapChars (symbolConvEn : Bool) (tbl : ℕ) (opts : CharRemap) (data : List UInt8) :
    Option (List UInt8) :=
  remapCharData opts (if symbolConvEn then convertCharSymbols tbl data else data)

/-- Every entry of a table has its opposite there. -/
theorem symbolTable_swap (tbl : ℕ) :
    ∀ p ∈ symbolTable tbl, (symbolTable tbl).lookup p.2 = some p.1 := by
  have hall : (symbolTable tbl).all
      (fun p => decide ((symbolTable tbl).lookup p.2 = some p.1)) = true := by
    match tbl with
    | 0 => decide
    | 1 => decide
    | 2 => decide
    | 3 => decide
    | _ + 4 => rfl
  exact fun p hp => of_decide_eq_true (List.all_eq_true.1 hall p hp)

theorem mem_of_lookup {α β : Type*} [BEq α] [LawfulBEq α] {l : List (α × β)} {a : α} {b : β}
    (h : l.lookup a = some b) : (a, b) ∈ l := by
  obtain ⟨l₁, l₂, rfl, -⟩ := List.lookup_eq_some_iff.1 h
  simp

theorem convertCharSymbol_convertCharSymbol (tbl : ℕ) (b : UInt8) :
    convertCharSymbol tbl (convertCharSymbol tbl b) = b := by
  cases h : (symbolTable tbl).lookup b with
  | none =>
      have hb : convertCharSymbol tbl b = b := by rw [convertCharSymbol, h, Option.getD_none]
      rw [hb, hb]
  | some v =>
      have hb : convertCharSymbol tbl b = v := by rw [convertCharSymbol, h, Option.getD_some]
      have hv := symbolTable_swap tbl _ (mem_of_lookup h)
      rw [hb, convertCharSymbol, hv, Option.getD_some]

theorem convertCharSymbols_injective (tbl : ℕ) {data data' : List UInt8}
    (h : convertCharSymbols tbl data = convertCharSymbols tbl data') : data = data' := by
  have hcancel : ∀ l, convertCharSymbols tbl (convertCharSymbols tbl l) = l := by
    intro l
    simp [convertCharSymbols, Function.comp_def, convertCharSymbol_convertCharSymbol]
  rw [← hcancel data, h, hcancel]

/-! ## Images of a list -/

/-- What two images of an element determine, the images of a list determine. -/
theorem map_eq_of_map_eq {α β γ δ : Type*} {f : α → β} {g : α → γ} {k : α → δ} {xs ys : List α}
    (hf : xs.map f = ys.map f) (hg : xs.map g = ys.map g)
    (h : ∀ a b, f a = f b → g a = g b → k a = k b) : xs.map k = ys.map k := by
  induction xs generalizing ys with
  | nil =>
      obtain rfl : ys = [] := List.map_eq_nil_iff.1 hf.symm
      rfl
  | cons x xs ih =>
      cases ys with
      | nil => simp at hf
      | cons y ys =>
          simp only [List.map_cons, List.cons.injEq] at hf hg ⊢
          exact ⟨h x y hf.1 hg.1, ih hf.2 hg.2⟩

/-- The pairs make up the line. -/
theorem bytePairs_flatMap {data : List UInt8} {pairs : List (UInt8 × UInt8)}
    (h : bytePairs data = some pairs) : pairs.flatMap (fun p => [p.1, p.2]) = data := by
  induction data using bytePairs.induct generalizing pairs with
  | case1 =>
      obtain rfl := Option.some.inj h
      rfl
  | case2 => cases h
  | case3 byte1 byte2 data ih =>
      rw [bytePairs] at h
      obtain ⟨ps, hps, rfl⟩ := Option.map_eq_some_iff.1 h
      rw [List.flatMap_cons, ih hps]
      rfl

theorem exists_bytePairs {data : List UInt8} (h2 : 2 ∣ data.length) :
    ∃ pairs, bytePairs data = some pairs := by
  induction data using bytePairs.induct with
  | case1 => exact ⟨[], rfl⟩
  | case2 b => exact absurd h2 (by simp)
  | case3 byte1 byte2 data ih =>
      obtain ⟨ps, hps⟩ := ih (by rw [List.length_cons, List.length_cons] at h2; omega)
      exact ⟨(byte1, byte2) :: ps, by rw [bytePairs, hps, Option.map_some]⟩

/-- An image of the bytes, from an image of the pairs. -/
theorem map_of_pairs {β : Type*} {f : UInt8 → β} {data data' : List UInt8}
    {pairs pairs' : List (UInt8 × UInt8)} (h : bytePairs data = some pairs)
    (h' : bytePairs data' = some pairs')
    (heq : pairs.map (fun p => [f p.1, f p.2]) = pairs'.map fun p => [f p.1, f p.2]) :
    data.map f = data'.map f := by
  have hflat : ∀ ps : List (UInt8 × UInt8), (ps.flatMap fun p => [p.1, p.2]).map f =
      (ps.map fun p => [f p.1, f p.2]).flatten := by
    intro ps
    rw [List.map_flatMap, List.flatMap_def]
    rfl
  rw [← bytePairs_flatMap h, ← bytePairs_flatMap h', hflat, hflat, heq]

/-! ## The nibble clusters -/

theorem map_lowNib_eq {data data' : List UInt8} {pairs pairs' : List (UInt8 × UInt8)}
    (h : bytePairs data = some pairs) (h' : bytePairs data' = some pairs')
    (heq : pairs.map lowNibbles = pairs'.map lowNibbles) : data.map lowNib = data'.map lowNib := by
  refine map_of_pairs h h' (map_eq_of_map_eq heq heq fun p q hpq _ => ?_)
  have hlo := congrArg lowNib hpq
  have hhi := congrArg highNib hpq
  simp only [lowNibbles, lowNib_joinNib (lowNib_lt _) (lowNib_lt _)] at hlo
  simp only [lowNibbles, highNib_joinNib (lowNib_lt _) (lowNib_lt _)] at hhi
  rw [hlo, hhi]

/-- The high nibbles as the cluster keeps them: without their lowest bits when these are extra
bits. -/
def keptNib (extrabit : Bool) (b : UInt8) : ℕ := if extrabit then highNib b / 2 else highNib b

theorem keptNib_lt (extrabit : Bool) (b : UInt8) : keptNib extrabit b < 16 := by
  have := highNib_lt b
  unfold keptNib
  split <;> omega

theorem highNibbles_keptNib (extrabit : Bool) (p : UInt8 × UInt8) :
    highNibbles extrabit p = joinNib (keptNib extrabit p.1) (keptNib extrabit p.2) := by
  cases extrabit <;> rfl

theorem map_keptNib_eq {extrabit : Bool} {data data' : List UInt8}
    {pairs pairs' : List (UInt8 × UInt8)} (h : bytePairs data = some pairs)
    (h' : bytePairs data' = some pairs')
    (heq : pairs.map (highNibbles extrabit) = pairs'.map (highNibbles extrabit)) :
    data.map (keptNib extrabit) = data'.map (keptNib extrabit) := by
  refine map_of_pairs h h' (map_eq_of_map_eq heq heq fun p q hpq _ => ?_)
  rw [highNibbles_keptNib, highNibbles_keptNib] at hpq
  have hlo := congrArg lowNib hpq
  have hhi := congrArg highNib hpq
  rw [lowNib_joinNib (keptNib_lt _ _) (keptNib_lt _ _),
    lowNib_joinNib (keptNib_lt _ _) (keptNib_lt _ _)] at hlo
  rw [highNib_joinNib (keptNib_lt _ _) (keptNib_lt _ _),
    highNib_joinNib (keptNib_lt _ _) (keptNib_lt _ _)] at hhi
  rw [hlo, hhi]

/-! ## The 2-bit clusters -/

/-- The first of the two bytes behind a byte of each cluster. -/
def first2bit (high low : UInt8) : UInt8 :=
  let a : UInt8 := high &&& 0x03
  let b : UInt8 := high &&& 0x0C
  let c : UInt8 := low &&& 0x03
  let d : UInt8 := low &&& 0x0C
  a <<< 2 ||| b <<< 4 ||| c ||| d <<< 2

/-- The second one. -/
def second2bit (high low : UInt8) : UInt8 :=
  let a : UInt8 := high &&& 0x30
  let b : UInt8 := high &&& 0xC0
  let c : UInt8 := low &&& 0x30
  let d : UInt8 := low &&& 0xC0
  a >>> 2 ||| b ||| c >>> 4 ||| d >>> 2

/-- Bytes with the same eight bits are the same. -/
theorem eq_of_getLsbD {a b : UInt8} (h : ∀ i < 8, a.toBitVec.getLsbD i = b.toBitVec.getLsbD i) :
    a = b :=
  UInt8.eq_of_toBitVec_eq (BitVec.eq_of_getLsbD_eq h)

theorem forall_lt_eight {P : ℕ → Prop} (h0 : P 0) (h1 : P 1) (h2 : P 2) (h3 : P 3) (h4 : P 4)
    (h5 : P 5) (h6 : P 6) (h7 : P 7) : ∀ i < 8, P i := by
  intro i hi
  match i with
  | 0 => exact h0
  | 1 => exact h1
  | 2 => exact h2
  | 3 => exact h3
  | 4 => exact h4
  | 5 => exact h5
  | 6 => exact h6
  | 7 => exact h7

theorem first2bit_high2bit (p : UInt8 × UInt8) : first2bit (high2bit p) (low2bit p) = p.1 := by
  refine eq_of_getLsbD ?_
  simp only [first2bit, high2bit, low2bit, UInt8.toBitVec_or, UInt8.toBitVec_and,
    UInt8.toBitVec_shiftLeft, UInt8.toBitVec_shiftRight]
  refine forall_lt_eight ?_ ?_ ?_ ?_ ?_ ?_ ?_ ?_ <;> simp

theorem second2bit_high2bit (p : UInt8 × UInt8) : second2bit (high2bit p) (low2bit p) = p.2 := by
  refine eq_of_getLsbD ?_
  simp only [second2bit, high2bit, low2bit, UInt8.toBitVec_or, UInt8.toBitVec_and,
    UInt8.toBitVec_shiftLeft, UInt8.toBitVec_shiftRight]
  refine forall_lt_eight ?_ ?_ ?_ ?_ ?_ ?_ ?_ ?_ <;> simp

theorem pair_eq_of_2bit (p q : UInt8 × UInt8) (hhigh : high2bit p = high2bit q)
    (hlow : low2bit p = low2bit q) : p = q := by
  refine Prod.ext ?_ ?_
  · rw [← first2bit_high2bit p, hhigh, hlow, first2bit_high2bit]
  · rw [← second2bit_high2bit p, hhigh, hlow, second2bit_high2bit]

theorem exists_highClusters (opts : CharRemap) {pairs : List (UInt8 × UInt8)}
    (h2 : 2 ∣ pairs.length) : ∃ high, highClusters opts pairs = some high := by
  obtain ⟨ps, hps⟩ : ∃ ps, bytePairs (pairs.map (highNibbles opts.extrabit)) = some ps :=
    exists_bytePairs (by rwa [List.length_map])
  simp only [highClusters, hps, Option.map_some]
  split <;> exact ⟨_, rfl⟩

/-- The clusters of the high nibbles come from one line of high nibbles only. -/
theorem highClusters_eq {opts : CharRemap} {pairs pairs' : List (UInt8 × UInt8)}
    {high : List UInt8} (h : highClusters opts pairs = some high)
    (h' : highClusters opts pairs' = some high) :
    pairs.map (highNibbles opts.extrabit) = pairs'.map (highNibbles opts.extrabit) := by
  unfold highClusters at h h'
  by_cases htwo : opts.twoBit
  · rw [if_pos htwo] at h h'
    obtain ⟨ps, hps, rfl⟩ := Option.map_eq_some_iff.1 h
    obtain ⟨qs, hqs, heq⟩ := Option.map_eq_some_iff.1 h'
    have hlen := congrArg List.length heq
    simp only [List.length_append, List.length_map] at hlen
    obtain ⟨hhigh, hlow⟩ := List.append_inj heq (by simp only [List.length_map]; omega)
    have hpq : qs.map id = ps.map id := map_eq_of_map_eq hhigh hlow pair_eq_of_2bit
    rw [List.map_id, List.map_id] at hpq
    rw [← bytePairs_flatMap hps, ← bytePairs_flatMap hqs, hpq]
  · rw [if_neg htwo] at h h'
    rw [Option.some.inj h, Option.some.inj h']

/-! ## The extra bits and the bit planes -/

theorem extraNibbles_bit {data : List UInt8} (h8 : 8 ∣ data.length) {i : ℕ}
    (hi : i < data.length) :
    ∃ byte, (extraNibbles data)[i / 8]? = some byte ∧ bit (i % 8) byte = highNib data[i] % 2 := by
  have hg : i / 8 < data.length / 8 := Nat.div_lt_div_of_lt_of_dvd h8 hi
  refine ⟨extraBits ((data.drop (i / 8 * 8)).take 8), ?_, bit_pack_slice highNib hi⟩
  simp [extraNibbles, hg]

theorem extraNibbles_eq {data data' : List UInt8} (hlen : data.length = data'.length)
    (h8 : 8 ∣ data.length) (h : extraNibbles data = extraNibbles data') :
    data.map (highNib · % 2) = data'.map (highNib · % 2) := by
  refine List.ext_getElem (by simpa using hlen) fun i hi hi' => ?_
  rw [List.length_map] at hi hi'
  obtain ⟨byte, hbyte, hbit⟩ := extraNibbles_bit h8 hi
  obtain ⟨byte', hbyte', hbit'⟩ := extraNibbles_bit (hlen ▸ h8) hi'
  rw [h, hbyte'] at hbyte
  rw [List.getElem_map, List.getElem_map, ← hbit, ← hbit', Option.some.inj hbyte]

theorem eq_of_bit {a b : UInt8} (h : ∀ m < 8, bit m a = bit m b) : a = b := by
  refine eq_of_getLsbD fun i hi => ?_
  have hi' : a.toNat / 2 ^ i % 2 = b.toNat / 2 ^ i % 2 := h i hi
  simp only [BitVec.getLsbD, UInt8.toNat_toBitVec, Nat.testBit_eq_decide_div_mod_eq, hi']

theorem bitPlanes_injective {remapp : List ℕ} (h8r : remapp.length = 8)
    {data data' : List UInt8} (hlen : data.length = data'.length) (h8 : 8 ∣ data.length)
    (h : bitPlanes remapp data = bitPlanes remapp data') : data = data' := by
  refine List.ext_getElem hlen fun i hi hi' => eq_of_bit fun m hm => ?_
  obtain ⟨byte, hbyte, hbit⟩ := bitPlanes_bit remapp h8 (h8r ▸ hm) hi
  obtain ⟨byte', hbyte', hbit'⟩ := bitPlanes_bit remapp (hlen ▸ h8) (h8r ▸ hm) hi'
  rw [h, hlen, hbyte'] at hbyte
  rw [← hbit, ← hbit', Option.some.inj hbyte]

/-! ## The remapped line -/

/-- A byte is its low nibble and its high one, which the extra bits complete. -/
theorem eq_of_nibbles {opts : CharRemap} {data data' : List UInt8}
    (hlow : data.map lowNib = data'.map lowNib)
    (hkept : data.map (keptNib opts.extrabit) = data'.map (keptNib opts.extrabit))
    (hextra : opts.extrabit = true → data.map (highNib · % 2) = data'.map (highNib · % 2)) :
    data = data' := by
  have hhigh : data.map highNib = data'.map highNib := by
    cases hex : opts.extrabit with
    | false =>
        rw [hex] at hkept
        exact hkept
    | true =>
        refine map_eq_of_map_eq hkept (hextra hex) fun a b hk hm => ?_
        simp only [keptNib, hex, if_true] at hk
        omega
  have hid : data.map id = data'.map id := by
    refine map_eq_of_map_eq hlow hhigh fun a b hl hh => ?_
    rw [id, id, ← joinNib_nibs a, hl, hh, joinNib_nibs]
  rwa [List.map_id, List.map_id] at hid

theorem remapCharData_injective {opts : CharRemap} {data data' out : List UInt8}
    (hlen : data.length = data'.length) (h8 : 8 ∣ data.length)
    (h : remapCharData opts data = some out) (h' : remapCharData opts data' = some out) :
    data = data' := by
  by_cases hone : opts.oneBit
  · -- the bit planes, with the other options off
    obtain ⟨pairs, hpairs, h⟩ := Option.bind_eq_some_iff.1 h
    obtain ⟨pairs', hpairs', h'⟩ := Option.bind_eq_some_iff.1 h'
    obtain ⟨high, -, h⟩ := Option.bind_eq_some_iff.1 h
    obtain ⟨high', -, h'⟩ := Option.bind_eq_some_iff.1 h'
    rw [if_pos hone] at h h'
    split at h
    case isFalse => cases h
    case isTrue =>
      split at h'
      case isFalse => cases h'
      case isTrue =>
        have hplanes : bitPlanes (remappList false) data = bitPlanes (remappList false) data' :=
          (Option.some.inj h).trans (Option.some.inj h').symm
        exact bitPlanes_injective rfl hlen h8 hplanes
  · obtain ⟨pairs, hpairs, h⟩ := Option.bind_eq_some_iff.1 h
    obtain ⟨pairs', hpairs', h'⟩ := Option.bind_eq_some_iff.1 h'
    obtain ⟨high, hhigh, h⟩ := Option.bind_eq_some_iff.1 h
    obtain ⟨high', hhigh', h'⟩ := Option.bind_eq_some_iff.1 h'
    rw [if_neg hone] at h h'
    have hcat := (Option.some.inj h).trans (Option.some.inj h').symm
    -- the three parts of the two outputs have the same lengths
    have hp := length_bytePairs hpairs
    have hp' := length_bytePairs hpairs'
    have hh := length_highClusters hhigh
    have hh' := length_highClusters hhigh'
    obtain ⟨hfront, hlow⟩ := List.append_inj' hcat (by simp only [List.length_map]; omega)
    obtain ⟨hclus, hextra⟩ := List.append_inj hfront (by omega)
    subst hclus
    refine eq_of_nibbles (map_lowNib_eq hpairs hpairs' hlow)
      (map_keptNib_eq hpairs hpairs' (highClusters_eq hhigh hhigh')) fun hex => ?_
    rw [if_pos hex, if_pos hex] at hextra
    exact extraNibbles_eq hlen h8 hextra

/-- The modes that pass the assertions have an output for every line. -/
theorem exists_remapCharData {opts : CharRemap} {data : List UInt8} (h8 : 8 ∣ data.length)
    (hmode : opts.oneBit = true → opts.twoBit = false ∧ opts.extrabit = false) :
    ∃ out, remapCharData opts data = some out := by
  obtain ⟨pairs, hpairs⟩ : ∃ pairs, bytePairs data = some pairs := exists_bytePairs (by omega)
  have hlen := length_bytePairs hpairs
  obtain ⟨high, hhigh⟩ : ∃ high, highClusters opts pairs = some high :=
    exists_highClusters opts (by omega)
  rw [remapCharData, hpairs, Option.bind_some, hhigh, Option.bind_some]
  split
  · rename_i hone
    exact ⟨_, if_pos ⟨(hmode hone).1, (hmode hone).2, Nat.mod_eq_zero_of_dvd h8⟩⟩
  · exact ⟨_, rfl⟩

/-- **Character remapping is injective**: in every mode that the assertions admit, with or
without symbol conversion, two different lines of one length have different outputs, extra
bits included. -/
theorem remapChars_injective (symbolConvEn : Bool) (tbl : ℕ) {opts : CharRemap}
    (hmode : opts.oneBit = true → opts.twoBit = false ∧ opts.extrabit = false)
    {data data' : List UInt8} (hlen : data.length = data'.length) (h8 : 8 ∣ data.length)
    (hne : data ≠ data') :
    ∃ out out', remapChars symbolConvEn tbl opts data = some out ∧
      remapChars symbolConvEn tbl opts data' = some out' ∧ out ≠ out' := by
  have hconv : ∀ l : List UInt8,
      (if symbolConvEn then convertCharSymbols tbl l else l).length = l.length := by
    intro l
    cases symbolConvEn <;> simp [convertCharSymbols]
  obtain ⟨out, hout⟩ : ∃ out, remapChars symbolConvEn tbl opts data = some out :=
    exists_remapCharData (by rwa [hconv]) hmode
  obtain ⟨out', hout'⟩ : ∃ out', remapChars symbolConvEn tbl opts data' = some out' :=
    exists_remapCharData (by rwa [hconv, ← hlen]) hmode
  refine ⟨out, out', hout, hout', fun heq => hne ?_⟩
  subst heq
  have hsame := remapCharData_injective (by rwa [hconv, hconv]) (by rwa [hconv]) hout hout'
  cases symbolConvEn with
  | false => exact hsame
  | true => exact convertCharSymbols_injective tbl hsame

theorem remapChars_injective_space :
    (List.replicate 8 (0x20 : UInt8)).length = (List.replicate 8 (0x60 : UInt8)).length ∧
      8 ∣ (List.replicate 8 (0x20 : UInt8)).length ∧
      List.replicate 8 (0x20 : UInt8) ≠ List.replicate 8 0x60 ∧
      ∃ out out', remapChars true 2 ⟨true, true, false⟩ (List.replicate 8 0x20) = some out ∧
        remapChars true 2 ⟨true, true, false⟩ (List.replicate 8 0x60) = some out' ∧
        out ≠ out' :=
  have hlen : (List.replicate 8 (0x20 : UInt8)).length =
      (List.replicate 8 (0x60 : UInt8)).length := rfl
  have h8 : 8 ∣ (List.replicate 8 (0x20 : UInt8)).length := by decide
  have hne : List.replicate 8 (0x20 : UInt8) ≠ List.replicate 8 0x60 := by decide
  ⟨hlen, h8, hne, remapChars_injective true 2 (fun h => absurd h (by decide)) hlen h8 hne⟩

end CompressionWork.Remap
