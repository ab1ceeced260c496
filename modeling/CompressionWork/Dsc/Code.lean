import CompressionWork.Codec.Chunks
import CompressionWork.Codec.Digits
import CompressionWork.Codec.Kraft
import CompressionWork.Dsc.Compress
import CompressionWork.Remap.Ops

/-!
# A code for the compressed lines of one resolution

The segments of a line, written as `run_ds_comp` counts them: which segments are encoded, and
four bits, one bit or all bytes for each segment.

* `body` — the bit string of a line.
* `length_body` — it has the length that `run_ds_comp` counts, but for the header.
* `body_prefixFree` — no such string starts another one.

When the number of encoded segments is sent with the line, it is at least one, and the last
segment it counts is encoded; so the field and the last status bit together have room for
twice as many numbers.
-/

namespace CompressionWork.Dsc

open Codec Remap

variable {cfg : Config} {r m : ℕ} {data : List UInt8}

/-! ## Segments -/

theorem segments_eq_chunks (hr : 0 < r) (h : data.length = r * m) :
    segments r data = chunks r data := by
  have hdiv : (r * m + r - 1) / r = m := by
    rw [Nat.add_sub_assoc hr, Nat.mul_add_div hr, Nat.div_eq_of_lt (by omega), Nat.add_zero]
  rw [segments, chunks, h, hdiv, Nat.mul_div_cancel_left m hr]

theorem length_segments (hr : 0 < r) (h : data.length = r * m) :
    (segments r data).length = m := by
  rw [segments_eq_chunks hr h, length_chunks hr h]

theorem length_of_mem_segments (hr : 0 < r) (h : data.length = r * m) {seg : List UInt8}
    (hseg : seg ∈ segments r data) : seg.length = r :=
  length_of_mem_chunks hr h (segments_eq_chunks hr h ▸ hseg)

theorem flatten_segments (hr : 0 < r) (h : data.length = r * m) :
    (segments r data).flatten = data := by
  rw [segments_eq_chunks hr h, flatten_chunks hr h]

/-! ## The number of encoded segments -/

@[simp] theorem encodedUpTo_nil : encodedUpTo [] = 0 := rfl

theorem encodedUpTo_concat (enc : List Bool) (b : Bool) :
    encodedUpTo (enc ++ [b]) = if b then enc.length + 1 else encodedUpTo enc := by
  rw [encodedUpTo, List.zipIdx_append, List.foldl_append, encodedUpTo]
  simp

theorem encodedUpTo_le (enc : List Bool) : encodedUpTo enc ≤ enc.length := by
  induction enc using List.reverseRecOn with
  | nil => exact Nat.le_refl _
  | append_singleton enc b ih =>
      rw [encodedUpTo_concat, List.length_append, List.length_singleton]
      split <;> omega

/-- Nothing is encoded from there on. -/
theorem take_encodedUpTo (enc : List Bool) :
    enc = enc.take (encodedUpTo enc) ++ List.replicate (enc.length - encodedUpTo enc) false := by
  induction enc using List.reverseRecOn with
  | nil => rfl
  | append_singleton enc b ih =>
      have hle := encodedUpTo_le enc
      rw [encodedUpTo_concat, List.length_append, List.length_singleton]
      cases b with
      | true => simp
      | false =>
          rw [if_neg (by decide), List.take_append_of_le_length hle,
            show enc.length + 1 - encodedUpTo enc = enc.length - encodedUpTo enc + 1 by omega,
            List.replicate_succ', ← List.append_assoc, ← ih]

/-- The last of the segments counted is encoded. -/
theorem take_encodedUpTo_succ {enc : List Bool} {k : ℕ} (h : encodedUpTo enc = k + 1) :
    enc.take (k + 1) = enc.take k ++ [true] := by
  induction enc using List.reverseRecOn with
  | nil => cases h
  | append_singleton enc b ih =>
      rw [encodedUpTo_concat] at h
      cases b with
      | true =>
          obtain rfl : enc.length = k := by simpa using h
          simp
      | false =>
          rw [if_neg (by decide)] at h
          have hle := encodedUpTo_le enc
          rw [List.take_append_of_le_length (by omega), List.take_append_of_le_length (by omega),
            ih h]

theorem encodedUpTo_eq_zero {enc : List Bool} (h : encodedUpTo enc = 0) :
    ∀ b ∈ enc, b = false := by
  intro b hb
  rw [take_encodedUpTo enc, h, List.take_zero, List.nil_append] at hb
  exact List.eq_of_mem_replicate hb

/-! ## The status bits -/

/-- The status bits: one for each segment, or the field and those up to the last encoded segment,
whose own bit is known. -/
def statusCode (cfg : Config) (field : ℕ) (enc : List Bool) : List Bool :=
  if cfg.dyn then
    bits (field + 1) (encodedUpTo enc - 1) ++ enc.take (encodedUpTo enc - 1)
  else enc

/-- What is counted for the status. -/
def statusBits (cfg : Config) (field : ℕ) (enc : List Bool) : ℕ :=
  if cfg.dyn then field + encodedUpTo enc else enc.length

theorem length_statusCode {field : ℕ} {enc : List Bool} (h : cfg.dyn = true → 0 < encodedUpTo enc) :
    (statusCode cfg field enc).length = statusBits cfg field enc := by
  rw [statusCode, statusBits]
  cases hdyn : cfg.dyn with
  | false => simp
  | true =>
      have hpos := h hdyn
      have hle := encodedUpTo_le enc
      simp only [if_true, List.length_append, length_bits, List.length_take]
      omega

/-- The status bits can be split off. -/
theorem statusCode_prefixFree {field : ℕ} (hroom : cfg.dyn = true → m ≤ 2 * 2 ^ field) :
    PrefixFree (statusCode cfg field)
      {enc | enc.length = m ∧ (cfg.dyn = true → 0 < encodedUpTo enc)} := by
  rintro enc ⟨hlen, hpos⟩ enc' ⟨hlen', hpos'⟩ hpre
  rw [statusCode, statusCode] at hpre
  cases hdyn : cfg.dyn with
  | false =>
      rw [hdyn] at hpre
      exact hpre.eq_of_length (hlen.trans hlen'.symm)
  | true =>
      rw [hdyn, if_pos rfl, if_pos rfl] at hpre
      have hpos := hpos hdyn
      have hpos' := hpos' hdyn
      have hle := encodedUpTo_le enc
      have hle' := encodedUpTo_le enc'
      have hm := hroom hdyn
      -- the fields are equal, so the same number of status bits follows
      have hfields : bits (field + 1) (encodedUpTo enc - 1) =
          bits (field + 1) (encodedUpTo enc' - 1) := by
        have hfirst := (List.prefix_append _ _).trans hpre
        refine (List.prefix_of_prefix_length_le hfirst (List.prefix_append _ _) ?_).eq_of_length ?_
          <;> simp
      have hcount := bits_inj (by rw [pow_succ]; omega) (by rw [pow_succ]; omega) hfields
      rw [hfields, List.prefix_append_right_inj] at hpre
      have htake := hpre.eq_of_length (by
        rw [List.length_take, List.length_take]
        omega)
      have hsame : encodedUpTo enc = encodedUpTo enc' := by omega
      obtain ⟨k, hk⟩ : ∃ k, encodedUpTo enc = k + 1 := ⟨encodedUpTo enc - 1, by omega⟩
      rw [← hsame, hk, Nat.add_sub_cancel] at htake
      rw [take_encodedUpTo enc, take_encodedUpTo enc', hlen, hlen', ← hsame, hk,
        take_encodedUpTo_succ hk, take_encodedUpTo_succ (hsame ▸ hk), htake]

/-! ## The segments -/

/-- All bits of a list of bytes. -/
def rawBits (data : List UInt8) : List Bool := data.flatMap fun b => bits 8 b.toNat

/-- The bits of a segment: the nibble, which of the two bytes, or all bytes. -/
def segCode (cfg : Config) (seg : List UInt8) : List Bool :=
  if isCompressed cfg seg then
    match cfg.algo with
    | .dataSegMatching => bits 4 (lowNib (seg.headD 0))
    | .dataSegMatching2 => [seg.headD 0 == 0xff]
  else rawBits seg

theorem length_rawBits (data : List UInt8) : (rawBits data).length = data.length * 8 := by
  rw [rawBits, List.length_flatMap]
  simp

theorem length_segCode {seg : List UInt8} (h : seg.length = r) :
    (segCode cfg seg).length = dataBits cfg r seg := by
  rw [segCode, dataBits]
  cases isCompressed cfg seg with
  | true => cases hcfg : cfg.algo <;> simp [Config.encodingBits, hcfg]
  | false => simp [length_rawBits, h]

theorem rawBits_prefix_inj {s t : List UInt8} (hlen : s.length = t.length)
    (h : rawBits s <+: rawBits t) : s = t :=
  flatMap_prefix_inj (s := Set.univ) (π := fun _ => ()) (by simp)
    (fun a _ b _ _ hab => UInt8.toNat_inj.1 (bits_inj a.toNat_lt b.toNat_lt hab)) (by simp)
    (by simp) (by simp [hlen]) h

theorem eq_replicate_of_isAllByteSame {seg : List UInt8} (h : isAllByteSame seg = true) :
    seg = List.replicate seg.length (seg.headD 0) := by
  cases seg with
  | nil => rfl
  | cons b rest =>
      rw [isAllByteSame, List.all_eq_true] at h
      refine List.eq_replicate_of_mem fun c hc => ?_
      rcases List.mem_cons.1 hc with rfl | hc
      · rfl
      · simpa using h c hc

/-- A segment comes back from its bits, when it is known whether it is encoded. -/
theorem segCode_inj {s t : List UInt8} (hlen : s.length = t.length)
    (hcls : isCompressed cfg s = isCompressed cfg t) (h : segCode cfg s = segCode cfg t) :
    s = t := by
  rw [segCode, segCode, ← hcls] at h
  cases hs : isCompressed cfg s with
  | false =>
      rw [hs, if_neg (by decide), if_neg (by decide)] at h
      exact rawBits_prefix_inj hlen (h ▸ List.prefix_rfl)
  | true =>
      have ht := hcls ▸ hs
      rw [hs, if_pos rfl, if_pos rfl] at h
      rw [isCompressed, Bool.and_eq_true] at hs ht
      -- both are one byte repeated
      have hhead : s.headD 0 = t.headD 0 := by
        cases halgo : cfg.algo with
        | dataSegMatching =>
            rw [halgo] at hs ht h
            have hnib := bits_inj (lowNib_lt _) (lowNib_lt _) h
            rw [← joinNib_nibs (s.headD 0), ← joinNib_nibs (t.headD 0), beq_iff_eq.1 hs.2,
              beq_iff_eq.1 ht.2, hnib]
        | dataSegMatching2 =>
            rw [halgo] at hs ht h
            simp only [Bool.or_eq_true, beq_iff_eq] at hs ht
            rcases hs.2 with hs | hs <;> rcases ht.2 with ht | ht <;> rw [hs, ht] at h ⊢ <;>
              exact absurd h (by decide)
      rw [eq_replicate_of_isAllByteSame hs.1, eq_replicate_of_isAllByteSame ht.1, hlen, hhead]

/-! ## The line -/

/-- The line without its header. -/
def body (cfg : Config) (r field : ℕ) (data : List UInt8) : List Bool :=
  statusCode cfg field ((segments r data).map (isCompressed cfg)) ++
    (segments r data).flatMap (segCode cfg)

/-- What is counted for the line without its header. -/
def bodyBits (cfg : Config) (r field : ℕ) (data : List UInt8) : ℕ :=
  statusBits cfg field ((segments r data).map (isCompressed cfg)) +
    ((segments r data).map (dataBits cfg r)).sum

/-- The lines with `m` segments; some segment is encoded when the number is sent. -/
def Lines (cfg : Config) (r m : ℕ) : Set (List UInt8) :=
  {data | data.length = r * m ∧
    (cfg.dyn = true → 0 < encodedUpTo ((segments r data).map (isCompressed cfg)))}

theorem length_body {field : ℕ} (hr : 0 < r) (h : data ∈ Lines cfg r m) :
    (body cfg r field data).length = bodyBits cfg r field data := by
  rw [body, bodyBits, List.length_append, length_statusCode h.2, List.length_flatMap]
  refine congrArg (_ + List.sum ·) (List.map_congr_left fun seg hseg => ?_)
  exact length_segCode (length_of_mem_segments hr h.1 hseg)

/-- **No body starts another one.** -/
theorem body_prefixFree {field : ℕ} (hr : 0 < r) (hroom : cfg.dyn = true → m ≤ 2 * 2 ^ field) :
    PrefixFree (body cfg r field) (Lines cfg r m) := by
  refine PrefixFree.append (π := fun data => (segments r data).map (isCompressed cfg))
    (c := statusCode cfg field) ?_ ?_
  · refine (statusCode_prefixFree hroom).subset ?_
    rintro enc ⟨data, ⟨hlen, hpos⟩, rfl⟩
    exact ⟨by rw [List.length_map, length_segments hr hlen], hpos⟩
  · rintro s ⟨hs, -⟩ t ⟨ht, -⟩ henc hpre
    have hsegs := flatMap_prefix_inj (s := {seg | seg.length = r}) (π := isCompressed cfg)
      (fun a ha b hb hcls => by
        rw [length_segCode ha, length_segCode hb, dataBits, dataBits, hcls])
      (fun a ha b hb hcls => segCode_inj (ha.trans hb.symm) hcls)
      (fun _ => length_of_mem_segments hr hs) (fun _ => length_of_mem_segments hr ht) henc hpre
    rw [← flatten_segments hr hs, ← flatten_segments hr ht, hsegs]

end CompressionWork.Dsc
