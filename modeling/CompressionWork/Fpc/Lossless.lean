import CompressionWork.Codec.TokenStream
import CompressionWork.Fpc.Compress

/-!
# Frequent-pattern compression loses nothing

A left-to-right decoder for the token strings of `compress`, and the proof that it gives
back the words of the packet.

* `ValidToken w t` — `t` is a token the decoder reads as the word `w`, and `convert_output`
  counts its bits right.
* `eachCompress_valid` — the encoder's choice is a valid token, whatever pattern it is.
* `decode_compress` — the whole token string decodes to the words of the packet.
* `convertOutput_compress` — `convert_output` adds up the bits of the tokens.
* `run_lossless_sized` — both, for the packet of any line, with the size that is reported.
-/

namespace CompressionWork.Fpc

open Codec

/-! ## The decoder -/

/-- The word of `n` digits with the last digits `payload`, all others copies of its sign. -/
def signExtend (n : ℕ) (payload : Str) : Str :=
  List.replicate (n - payload.length) (if payload.headD '0' ∈ lcCmp then 'F' else '0') ++ payload

/-- The word that a pattern and its payload stand for. -/
def rebuild (pattern payload : Str) : Str :=
  if pattern = ['1', '0', '0'] then payload ++ genZero 4
  else if pattern = ['1', '0', '1'] then
    signExtend 4 (payload.take 2) ++ signExtend 4 (payload.drop 2)
  else if pattern = ['1', '1', '0'] then payload ++ payload ++ payload ++ payload
  else if pattern = ['1', '1', '1'] then payload
  else signExtend 8 payload

/-- Reads one token: a zero run with its 3-bit length, or a pattern with its payload. -/
def readToken : Reader Char Str := fun s =>
  if s.take 3 = ['0', '0', '0'] then
    some (List.replicate (binaryValue ((s.drop 3).take 3) + 1) (genZero 8), s.drop 6)
  else
    (getPatternLen (s.take 3) tracker).map fun len =>
      ([rebuild (s.take 3) ((s.drop 3).take len)], s.drop (len + 3))

/-- The bits of a token: 6 for a zero run, else 3 and 4 for each digit of the payload. -/
def tokenBits (t : Str) : ℕ :=
  if t.take 3 = ['0', '0', '0'] then 6 else 3 + 4 * (t.length - 3)

/-! ## Tokens of single words -/

/-- `t` is a pattern of the table other than the zero run and a payload of the length the
table gives, and together they stand for `w`. -/
def ValidToken (w t : Str) : Prop :=
  ∃ pattern payload, t = pattern ++ payload ∧ pattern.length = 3 ∧ pattern ≠ ['0', '0', '0'] ∧
    getPatternLen pattern tracker = some payload.length ∧ rebuild pattern payload = w

theorem take_pattern {pattern : Str} (h : pattern.length = 3) (s : Str) :
    (pattern ++ s).take 3 = pattern := by
  rw [← h, List.take_left]

theorem drop_pattern {pattern : Str} (h : pattern.length = 3) (s : Str) :
    (pattern ++ s).drop 3 = s := by
  rw [← h, List.drop_left]

theorem ValidToken.reads {w t : Str} (h : ValidToken w t) : Reads readToken t [w] := by
  obtain ⟨pattern, payload, rfl, hlen, hne, hpl, hw⟩ := h
  refine ⟨?_, fun r => ?_⟩
  · intro h
    rw [List.append_eq_nil_iff] at h
    rw [h.1] at hlen
    simp at hlen
  · rw [List.append_assoc, readToken, take_pattern hlen, drop_pattern hlen, if_neg hne, hpl]
    have hdrop : (pattern ++ (payload ++ r)).drop (payload.length + 3) = r := by
      rw [Nat.add_comm, ← List.drop_drop, drop_pattern hlen, List.drop_left]
    simp only [Option.map_some, List.take_left, hw, hdrop]

/-- The first digit of a hexadecimal string decides the sign test of `check_str`. -/
theorem charDiff_cases {c : Char} (h : c ∈ hexLut) :
    (0 ≤ charDiff c ∧ charDiff c ≤ 7 ∧ c ∉ lcCmp) ∨ (7 < charDiff c ∧ c ∈ lcCmp) :=
  forall_hexLut (fun c => (0 ≤ charDiff c ∧ charDiff c ≤ 7 ∧ c ∉ lcCmp) ∨
    (7 < charDiff c ∧ c ∈ lcCmp)) (by decide) h

/-- When `check_str` accepts, it appends the last digits, and the word is their sign
extension. -/
theorem checkStr_spec {input out processed : Str} {index n : ℕ} (hhex : IsHex input)
    (hlen : input.length = n) (hpos : 0 < index) (hle : index ≤ n)
    (h : checkStr input index processed n = (true, out)) :
    out = processed ++ input.drop (n - index) ∧ signExtend n (input.drop (n - index)) = input := by
  have hdl : (input.drop (n - index)).length = index := by rw [List.length_drop]; omega
  obtain ⟨c, rest, hdrop⟩ : ∃ c rest, input.drop (n - index) = c :: rest :=
    List.exists_cons_of_ne_nil fun hnil => by rw [hnil] at hdl; simp at hdl; omega
  have hc : c ∈ hexLut := hhex.drop (n - index) c (by rw [hdrop]; simp)
  have hsplit : input.take (n - index) ++ (c :: rest) = input := by
    rw [← hdrop, List.take_append_drop]
  have hrest : (c :: rest).length = index := by rw [← hdrop, hdl]
  simp only [checkStr, hdrop, List.headD_cons] at h
  simp only [hdrop, signExtend, List.headD_cons, hrest]
  rcases charDiff_cases hc with ⟨h0, h7, hcm⟩ | ⟨h7, hcm⟩
  · by_cases hz : input.take (n - index) = genZero (n - index)
    · rw [if_pos ⟨hz, h7⟩, if_pos ⟨h0, h7⟩] at h
      refine ⟨(Prod.mk.inj h).2.symm, ?_⟩
      rw [if_neg hcm]
      rwa [hz] at hsplit
    · rw [if_neg (fun h => hz h.1), if_neg (fun h => by omega)] at h
      exact absurd (Prod.mk.inj h).1 (by simp)
  · rw [if_neg (fun h => by omega)] at h
    by_cases hf : input.take (n - index) = genF (n - index)
    · rw [if_pos ⟨hf, h7⟩, if_pos hcm] at h
      refine ⟨(Prod.mk.inj h).2.symm, ?_⟩
      rw [if_pos hcm]
      rwa [hf] at hsplit
    · rw [if_neg (fun h => hf h.1)] at h
      exact absurd (Prod.mk.inj h).1 (by simp)

/-- When `check_str` rejects, it leaves `processed` alone. -/
theorem checkStr_false {input out processed : Str} {index n : ℕ}
    (h : checkStr input index processed n = (false, out)) : out = processed := by
  simp only [checkStr] at h
  split at h
  · exact absurd (Prod.mk.inj h).1 (by simp)
  · split at h
    · exact absurd (Prod.mk.inj h).1 (by simp)
    · exact (Prod.mk.inj h).2.symm

/-- The sign-extended patterns: `pattern` with the last `index` digits of the word. -/
theorem checkStr_valid {w pattern : Str} {index : ℕ} (hw : IsWord w) (hpos : 0 < index)
    (hle : index ≤ 8) (hp : pattern ∈ [['0', '0', '1'], ['0', '1', '0'], ['0', '1', '1']])
    (hidx : getPatternLen pattern tracker = some index) {out : Str}
    (h : checkStr w index [] dataSize = (true, out)) : ValidToken w (pattern ++ out) := by
  obtain ⟨rfl, hw'⟩ := checkStr_spec hw.2 hw.1 hpos hle h
  have hlen : (w.drop (8 - index)).length = index := by rw [List.length_drop, hw.1]; omega
  have hreb : rebuild pattern (w.drop (8 - index)) = signExtend 8 (w.drop (8 - index)) ∧
      pattern.length = 3 ∧ pattern ≠ ['0', '0', '0'] := by
    simp only [List.mem_cons, List.not_mem_nil, or_false] at hp
    rcases hp with rfl | rfl | rfl <;> simp [rebuild]
  exact ⟨pattern, w.drop (8 - index), rfl, hreb.2.1, hreb.2.2, by rw [hlen]; exact hidx,
    hreb.1.trans hw'⟩

theorem checkRep_valid {w rep : Str} (hw : IsWord w) (h : checkRep w = (true, rep)) :
    ValidToken w (['1', '1', '0'] ++ rep) := by
  obtain ⟨ws, hws, hlen, rfl⟩ := exists_slices (k := 2) (m := 4) hw.1
  obtain ⟨a, b, c, d, rfl⟩ : ∃ a b c d, ws = [a, b, c, d] := by
    match ws, hws with
    | [a, b, c, d], _ => exact ⟨a, b, c, d, rfl⟩
  have ha : a.length = 2 := hlen a (by simp)
  have htake : [a, b, c, d].flatten.take 2 = a := by
    rw [List.flatten_cons, ← ha, List.take_left]
  rw [checkRep, chunks_flatten (by decide) hlen, htake] at h
  split at h
  · rename_i hall
    have hrep : a = rep := (Prod.mk.inj h).2
    simp only [List.drop_one, List.tail_cons, List.all_cons, List.all_nil, Bool.and_true,
      Bool.and_eq_true, decide_eq_true_eq] at hall
    obtain ⟨hb, hc, hd⟩ := hall
    refine ⟨['1', '1', '0'], rep, rfl, rfl, by decide, ?_, ?_⟩
    · rw [← hrep, ha]
      decide
    · rw [← hrep, hb, hc, hd]
      simp [rebuild]
  · exact absurd (Prod.mk.inj h).1 (by simp)

theorem halves_valid {w pO pT : Str} (hw : IsWord w)
    (hO : checkStr (w.take (dataSize - 4)) 2 [] (dataSize / 2) = (true, pO))
    (hT : checkStr (w.drop (dataSize - 4)) 2 [] (dataSize / 2) = (true, pT)) :
    ValidToken w (['1', '0', '1'] ++ pO ++ pT) := by
  have hlO : (w.take 4).length = 4 := by rw [List.length_take, hw.1]; rfl
  have hlT : (w.drop 4).length = 4 := by rw [List.length_drop, hw.1]
  obtain ⟨hpO, heO⟩ := checkStr_spec (hw.2.take 4) hlO (by decide) (by decide) hO
  obtain ⟨hpT, heT⟩ := checkStr_spec (hw.2.drop 4) hlT (by decide) (by decide) hT
  rw [List.nil_append] at hpO hpT
  have hO2 : pO.length = 2 := by rw [hpO, List.length_drop]; omega
  have hT2 : pT.length = 2 := by rw [hpT, List.length_drop]; omega
  refine ⟨['1', '0', '1'], pO ++ pT, by rw [List.append_assoc], rfl, by decide, ?_, ?_⟩
  · rw [List.length_append, hO2, hT2]
    decide
  · have htake : (pO ++ pT).take 2 = pO := by rw [← hO2, List.take_left]
    have hdrop : (pO ++ pT).drop 2 = pT := by rw [← hO2, List.drop_left]
    have hreb : rebuild ['1', '0', '1'] (pO ++ pT) = signExtend 4 pO ++ signExtend 4 pT := by
      simp [rebuild, htake, hdrop]
    rw [hreb, hpO, hpT, heO, heT, List.take_append_drop]

theorem comparePattern_halves (w : Str) : comparePattern w ['1', '0', '1'] [] =
    (match checkStr (w.take (dataSize - 4)) 2 [] (dataSize / 2),
      checkStr (w.drop (dataSize - 4)) 2 [] (dataSize / 2) with
    | (true, pO), (true, pT) => ['1', '0', '1'] ++ pO ++ pT
    | _, _ => []) := rfl

theorem comparePattern_rep (w : Str) : comparePattern w ['1', '1', '0'] [] =
    (match checkRep w with
    | (true, rep) => ['1', '1', '0'] ++ rep
    | (false, _) => []) := rfl

/-- The token of a sign-extended word. -/
theorem signToken_valid {w : Str} (hw : IsWord w) {pattern : Str} (index : ℕ) (hpos : 0 < index)
    (hle : index ≤ 8) (hmem : pattern ∈ [['0', '0', '1'], ['0', '1', '0'], ['0', '1', '1']])
    (hidx : getPatternLen pattern tracker = some index)
    (heq : comparePattern w pattern [] =
      (match checkStr w index [] dataSize with
      | (true, out) => pattern ++ out
      | (false, out) => out)) :
    comparePattern w pattern [] = [] ∨ ValidToken w (comparePattern w pattern []) := by
  rw [heq]
  cases hcs : checkStr w index [] dataSize with
  | mk ok out =>
      cases ok with
      | false => exact Or.inl (checkStr_false hcs)
      | true => exact Or.inr (checkStr_valid hw hpos hle hmem hidx hcs)

/-- One pattern of the table either leaves the token empty or gives a valid one. -/
theorem comparePattern_valid {w : Str} (hw : IsWord w) (hne : w ≠ genZero dataSize)
    {p : Str × ℕ} (hp : p ∈ tracker) :
    comparePattern w p.1 [] = [] ∨ ValidToken w (comparePattern w p.1 []) := by
  simp only [tracker, List.mem_cons, List.not_mem_nil, or_false] at hp
  rcases hp with rfl | rfl | rfl | rfl | rfl | rfl | rfl | rfl
  · left
    simp only [comparePattern, if_pos, if_neg hne]
  · exact signToken_valid hw 1 (by decide) (by decide) (by simp) (by decide) rfl
  · exact signToken_valid hw 2 (by decide) (by decide) (by simp) (by decide) rfl
  · exact signToken_valid hw 4 (by decide) (by decide) (by simp) (by decide) rfl
  · -- a half word padded with zeros
    by_cases hz : w.drop (dataSize - 4) = genZero (dataSize - 4)
    · right
      have heq : comparePattern w ['1', '0', '0'] [] = ['1', '0', '0'] ++ w.take 4 := if_pos hz
      have hl : (w.take 4).length = 4 := by rw [List.length_take, hw.1]; rfl
      rw [heq]
      refine ⟨['1', '0', '0'], w.take 4, rfl, rfl, by decide, by rw [hl]; decide, ?_⟩
      have hz' : w.drop 4 = genZero 4 := hz
      rw [rebuild, if_pos rfl, ← hz', List.take_append_drop]
    · left
      exact if_neg hz
  · -- two sign-extended half words
    rw [comparePattern_halves]
    cases hO : checkStr (w.take (dataSize - 4)) 2 [] (dataSize / 2) with
    | mk okO pO =>
        cases hT : checkStr (w.drop (dataSize - 4)) 2 [] (dataSize / 2) with
        | mk okT pT =>
            cases okO <;> cases okT
            · exact Or.inl rfl
            · exact Or.inl rfl
            · exact Or.inl rfl
            · exact Or.inr (halves_valid hw hO hT)
  · -- one byte repeated
    rw [comparePattern_rep]
    cases hr : checkRep w with
    | mk ok rep =>
        cases ok with
        | false => exact Or.inl rfl
        | true => exact Or.inr (checkRep_valid hw hr)
  · right
    have heq : comparePattern w ['1', '1', '1'] [] = ['1', '1', '1'] ++ w := rfl
    rw [heq]
    exact ⟨['1', '1', '1'], w, rfl, rfl, by decide, by rw [hw.1]; decide, by simp [rebuild]⟩

/-- The search through the table stops at a valid token: the last pattern matches all
words. -/
theorem eachCompress_valid {w : Str} (hw : IsWord w) (hne : w ≠ genZero dataSize) :
    ValidToken w (eachCompress w tracker []) := by
  have search : ∀ ps : List (Str × ℕ), (∀ p ∈ ps, p ∈ tracker) →
      (['1', '1', '1'], 8) ∈ ps → ValidToken w (eachCompress w ps []) := by
    intro ps
    induction ps with
    | nil => intro _ h; simp at h
    | cons p ps ih =>
        intro hsub hlast
        simp only [eachCompress]
        by_cases hout : comparePattern w p.1 [] = []
        · rw [hout, if_neg (by simp)]
          refine ih (fun q hq => hsub q (List.mem_cons_of_mem _ hq)) ?_
          rcases List.mem_cons.1 hlast with h | h
          · rw [← h] at hout
            exact absurd hout (by simp [comparePattern])
          · exact h
        · rw [if_pos hout]
          exact (comparePattern_valid hw hne (hsub p (List.mem_cons_self ..))).resolve_left hout
  exact search tracker (fun _ h => h) (by simp [tracker])

/-! ## Zero runs -/

theorem zeroRun_le (n : ℕ) (ws : List Str) : zeroRun n ws ≤ n := by
  induction n generalizing ws with
  | zero => simp [zeroRun]
  | succ n ih =>
      cases ws with
      | nil => simp [zeroRun]
      | cons w ws =>
          rw [zeroRun]
          split
          · exact Nat.succ_le_succ (ih ws)
          · exact Nat.zero_le _

/-- The words a run covers are zero words. -/
theorem zeroRun_append (n : ℕ) (ws : List Str) :
    List.replicate (zeroRun n ws) (genZero dataSize) ++ ws.drop (zeroRun n ws) = ws := by
  induction n generalizing ws with
  | zero => simp [zeroRun]
  | succ n ih =>
      cases ws with
      | nil => simp [zeroRun]
      | cons w ws =>
          rw [zeroRun]
          split
          · rename_i hw
            rw [List.replicate_succ, List.drop_succ_cons, List.cons_append, ih, hw]
          · simp

theorem reads_zeroRun {ct : ℕ} (h : ct < 8) :
    Reads readToken (['0', '0', '0'] ++ getBinary ct 3)
      (List.replicate (ct + 1) (genZero dataSize)) := by
  refine ⟨by simp, fun r => ?_⟩
  have htake : (getBinary ct 3 ++ r).take 3 = getBinary ct 3 :=
    List.take_left' (length_getBinary ct 3)
  have hdrop : (getBinary ct 3 ++ r).drop 3 = r := List.drop_left' (length_getBinary ct 3)
  have h3 : (['0', '0', '0'] ++ (getBinary ct 3 ++ r)).drop 6 = r := by
    rw [show (6 : ℕ) = 3 + 3 from rfl, ← List.drop_drop, drop_pattern rfl, hdrop]
  have hmod : ct % 2 ^ 3 = ct := Nat.mod_eq_of_lt h
  rw [List.append_assoc, readToken, take_pattern rfl, if_pos rfl, drop_pattern rfl, htake, h3,
    binaryValue_getBinary, hmod]
  rfl

/-! ## Counting bits -/

/-- The words `convert_output` counts for a token. -/
def tokenWords (t : Str) : ℕ :=
  if t.take 3 = ['0', '0', '0'] then zeroCt ((t.drop 3).take 3) + 1 else 1

/-- One round of `convert_output` takes exactly the token `t` off and counts it. -/
def Counted (t : Str) : Prop :=
  ∀ fuel r c, convertOutputAux tracker (fuel + 1) (t ++ r) c =
    convertOutputAux tracker fuel r ⟨c.ct + tokenWords t, c.bits + tokenBits t⟩

theorem ValidToken.counted {w t : Str} (h : ValidToken w t) : Counted t := by
  obtain ⟨pattern, payload, rfl, hlen, hne, hpl, -⟩ := h
  intro fuel r c
  obtain ⟨a, s, hs⟩ : ∃ a s, pattern ++ payload ++ r = a :: s := by
    refine List.exists_cons_of_ne_nil fun hnil => ?_
    rw [List.append_assoc, List.append_eq_nil_iff] at hnil
    rw [hnil.1] at hlen
    simp at hlen
  have htake : (pattern ++ payload ++ r).take 3 = pattern := by
    rw [List.append_assoc, take_pattern hlen]
  have hdrop : (pattern ++ payload ++ r).drop (payload.length + 3) = r := by
    rw [Nat.add_comm, ← List.drop_drop, List.append_assoc, drop_pattern hlen, List.drop_left]
  have hwords : tokenWords (pattern ++ payload) = 1 := by
    rw [tokenWords, take_pattern hlen, if_neg hne]
  have hbits : tokenBits (pattern ++ payload) = payload.length * 4 + 3 := by
    rw [tokenBits, take_pattern hlen, if_neg hne, List.length_append, hlen]
    omega
  rw [hs] at htake hdrop ⊢
  simp only [convertOutputAux]
  rw [htake, if_neg hne, hpl, Option.bind_some, hdrop, hwords, hbits, Nat.add_assoc]

theorem counted_zeroRun (ct : ℕ) : Counted (['0', '0', '0'] ++ getBinary ct 3) := by
  intro fuel r c
  have hnum : (getBinary ct 3).take 3 = getBinary ct 3 :=
    List.take_of_length_le (by rw [length_getBinary])
  have hnum' : (getBinary ct 3 ++ r).take 3 = getBinary ct 3 :=
    List.take_left' (length_getBinary ct 3)
  have htake : (['0', '0', '0'] ++ getBinary ct 3 ++ r).take 3 = ['0', '0', '0'] := by
    rw [List.append_assoc, take_pattern rfl]
  have hpat2 : ((['0', '0', '0'] ++ getBinary ct 3 ++ r).drop 3).take 3 = getBinary ct 3 := by
    rw [List.append_assoc, drop_pattern rfl, hnum']
  have hdrop : (['0', '0', '0'] ++ getBinary ct 3 ++ r).drop 6 = r :=
    List.drop_left' (by simp)
  have hwords : tokenWords (['0', '0', '0'] ++ getBinary ct 3) =
      zeroCt (getBinary ct 3) + 1 := by
    rw [tokenWords, take_pattern rfl, if_pos rfl, drop_pattern rfl, hnum]
  have hbits : tokenBits (['0', '0', '0'] ++ getBinary ct 3) = 6 := by
    rw [tokenBits, take_pattern rfl, if_pos rfl]
  obtain ⟨s, hs⟩ : ∃ s, ['0', '0', '0'] ++ getBinary ct 3 ++ r = '0' :: s := ⟨_, rfl⟩
  rw [hs] at hdrop htake hpat2 ⊢
  simp only [convertOutputAux]
  rw [htake, if_pos rfl, hpat2, hdrop, hwords, hbits]

/-- A token the decoder reads as the words `v` and `convert_output` counts right. -/
def IsToken (t : Str) (v : List Str) : Prop := Reads readToken t v ∧ Counted t

theorem isToken_zeroRun {ct : ℕ} (h : ct < 8) :
    IsToken (['0', '0', '0'] ++ getBinary ct 3) (List.replicate (ct + 1) (genZero dataSize)) :=
  ⟨reads_zeroRun h, counted_zeroRun ct⟩

theorem isToken_eachCompress {w : Str} (hw : IsWord w) (hne : w ≠ genZero dataSize) :
    IsToken (eachCompress w tracker []) [w] :=
  ⟨(eachCompress_valid hw hne).reads, (eachCompress_valid hw hne).counted⟩

/-- Enough rounds count a whole token string. -/
theorem convertOutputAux_flatten (ts : List Str) (hts : ∀ t ∈ ts, t ≠ [] ∧ Counted t) :
    ∀ fuel c, ts.flatten.length ≤ fuel →
      convertOutputAux tracker fuel ts.flatten c =
        some ⟨c.ct + (ts.map tokenWords).sum, c.bits + (ts.map tokenBits).sum⟩ := by
  induction ts with
  | nil => intro fuel c _; cases fuel <;> rfl
  | cons t ts ih =>
      intro fuel c hfuel
      obtain ⟨hne, hcount⟩ := hts t (List.mem_cons_self ..)
      have hpos : 0 < t.length := List.length_pos_of_ne_nil hne
      rw [List.flatten_cons, List.length_append] at hfuel
      obtain ⟨n, rfl⟩ : ∃ n, fuel = n + 1 := ⟨fuel - 1, by omega⟩
      rw [List.flatten_cons, hcount,
        ih (fun u hu => hts u (List.mem_cons_of_mem _ hu)) n _ (by omega)]
      simp only [List.map_cons, List.sum_cons, Nat.add_assoc]

/-! ## The token string -/

/-- What the encoder's loop leaves to be read: tokens, each with the words it stands for. -/
theorem tempOuts_tokens (ws : List Str) (hws : ∀ w ∈ ws, IsWord w) :
    ∀ skip, ∃ ts : List (Str × List Str), ts.map Prod.fst = tempOuts tracker skip ws ∧
      (∀ p ∈ ts, IsToken p.1 p.2) ∧ ts.flatMap Prod.snd = ws.drop skip := by
  induction ws with
  | nil => intro skip; exact ⟨[], by cases skip <;> rfl, by simp, by simp⟩
  | cons w ws ih =>
      have hrest : ∀ v ∈ ws, IsWord v := fun v hv => hws v (List.mem_cons_of_mem _ hv)
      intro skip
      cases skip with
      | succ skip =>
          obtain ⟨ts, hts, hr, hv⟩ := ih hrest skip
          exact ⟨ts, by rw [hts, tempOuts], hr, by rw [hv, List.drop_succ_cons]⟩
      | zero =>
          by_cases hz : w = genZero dataSize
          · obtain ⟨ts, hts, hr, hv⟩ := ih hrest (zeroRun 7 ws)
            refine ⟨(['0', '0', '0'] ++ getBinary (zeroRun 7 ws) 3,
              List.replicate (zeroRun 7 ws + 1) (genZero dataSize)) :: ts, ?_, ?_, ?_⟩
            · rw [List.map_cons, hts, tempOuts, if_pos hz]
              rfl
            · intro p hp
              rcases List.mem_cons.1 hp with rfl | hp
              · exact isToken_zeroRun (Nat.lt_succ_of_le (zeroRun_le 7 ws))
              · exact hr p hp
            · rw [List.flatMap_cons, hv, List.replicate_succ, List.cons_append, zeroRun_append,
                List.drop_zero, hz]
          · obtain ⟨ts, hts, hr, hv⟩ := ih hrest 0
            refine ⟨(eachCompress w tracker [], [w]) :: ts, ?_, ?_, ?_⟩
            · rw [List.map_cons, hts, tempOuts, if_neg hz]
            · intro p hp
              rcases List.mem_cons.1 hp with rfl | hp
              · exact isToken_eachCompress (hws w (List.mem_cons_self ..)) hz
              · exact hr p hp
            · rw [List.flatMap_cons, hv]
              rfl

theorem compress_flatten {words : List Str} (hw : ∀ w ∈ words, IsWord w) :
    compress words.flatten tracker = (tempOuts tracker 0 words).flatten := by
  have hlen : ∀ w ∈ words, w.length = dataSize := fun w h => (hw w h).1
  rw [compress, chunks_flatten (by decide) hlen]

/-- **Decoding gives the words of the packet back.** -/
theorem decode_compress {words : List Str} (hw : ∀ w ∈ words, IsWord w) :
    decode readToken (compress words.flatten tracker) = some words := by
  obtain ⟨ts, hts, htok, hv⟩ := tempOuts_tokens words hw 0
  have hdec := decode_flatten ts fun p hp => (htok p hp).1
  rw [compress_flatten hw, ← hts, ← List.flatMap_def, hdec, hv, List.drop_zero]

/-- **`convert_output` adds up the bits of the tokens.** -/
theorem convertOutput_compress {words : List Str} (hw : ∀ w ∈ words, IsWord w) :
    convertOutput (compress words.flatten tracker) tracker =
      some ⟨((tempOuts tracker 0 words).map tokenWords).sum,
        ((tempOuts tracker 0 words).map tokenBits).sum⟩ := by
  obtain ⟨ts, hts, htok, -⟩ := tempOuts_tokens words hw 0
  have hall : ∀ t ∈ tempOuts tracker 0 words, t ≠ [] ∧ Counted t := by
    intro t ht
    rw [← hts] at ht
    obtain ⟨p, hp, rfl⟩ := List.mem_map.1 ht
    exact ⟨(htok p hp).1.1, (htok p hp).2⟩
  rw [compress_flatten hw, convertOutput,
    convertOutputAux_flatten _ hall _ _ (Nat.le_refl _), Nat.zero_add, Nat.zero_add]

/-- **Frequent-pattern compression is lossless, and `run` reports the bits of its tokens**,
rounded up to whole bytes. -/
theorem run_lossless_sized {words : List Str} (hw : ∀ w ∈ words, IsWord w) :
    decode readToken (compress words.flatten tracker) = some words ∧
      (convertOutput (compress words.flatten tracker) tracker).map Counts.bits =
        some ((tempOuts tracker 0 words).map tokenBits).sum ∧
      runPacket words.flatten =
        some ⟨(((tempOuts tracker 0 words).map tokenBits).sum + 7) / 8,
          (((tempOuts tracker 0 words).map tokenBits).sum + 7) / 8 * 8⟩ := by
  rw [runPacket, convertOutput_compress hw]
  exact ⟨decode_compress hw, rfl, rfl⟩

theorem run_lossless_sized_ninety :
    decode readToken (compress [['0', '0', '0', '0', '0', '0', '5', 'A']].flatten tracker) =
        some [['0', '0', '0', '0', '0', '0', '5', 'A']] ∧
      (convertOutput (compress [['0', '0', '0', '0', '0', '0', '5', 'A']].flatten tracker)
        tracker).map Counts.bits = some 11 ∧
      runPacket [['0', '0', '0', '0', '0', '0', '5', 'A']].flatten = some ⟨2, 16⟩ :=
  @run_lossless_sized [['0', '0', '0', '0', '0', '0', '5', 'A']] (by decide)

/-- The tokens of one zero word take six bits, but eight are reported. -/
theorem reported_bits_exceed_tokens :
    ¬ ∀ words : List Str, (∀ w ∈ words, IsWord w) →
      (runPacket words.flatten).map Sizes.compDataBits =
        some ((tempOuts tracker 0 words).map tokenBits).sum := by
  intro h
  exact absurd (h [genZero 8] (by decide)) (by decide)

/-- The same for the bytes of a line, of any number of words. -/
theorem run_line {m : ℕ} {cacheData : List UInt8} (h : cacheData.length = 4 * m)
    (hne : cacheData ≠ []) :
    decode readToken (compress (decomposeData cacheData) tracker) = some (lineWords cacheData) ∧
      run cacheData =
        some (report ((tempOuts tracker 0 (lineWords cacheData)).map tokenBits).sum) := by
  have hw : ∀ w ∈ lineWords cacheData, IsWord w := fun w => isWord_of_mem_lineWords h
  rw [run, if_neg hne, runPacket, ← flatten_lineWords h, convertOutput_compress hw]
  exact ⟨decode_compress hw, rfl⟩

end CompressionWork.Fpc
