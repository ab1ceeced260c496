import CompressionWork.Bpc.Encode
import CompressionWork.Codec.TokenStream
import Mathlib.Data.List.Forall2

/-!
# Bit-plane compression: when the codes can be told apart

A plane that no test accepts is stored without a prefix.  As long as every such plane
begins with a one, and a position fits its five bits, the planes can still be read back.

* `Stands m p x s` — the plane `x` of `dbx`, over the plane `p` of `dbp`, is what the
  symbol `s` says.
* `encode_reads` — the codes are read back as one such symbol for each plane.
* `dbp_eq_of_symbols` — equal symbols mean equal planes: a symbol determines the plane of
  `dbx`, or says that the plane of `dbp` is zero.
* `encodeWords_inj_of_rawOne` — so words with the same output are equal.
-/

namespace CompressionWork.Bpc

open Codec

/-! ## Searching -/

theorem find_isSome_iff {s pat : Str} (h : s.length = pat.length) :
    (find s pat).isSome ↔ s = pat := by
  rw [find, List.find?_isSome]
  constructor
  · rintro ⟨i, -, hi⟩
    have hpre := List.isPrefixOf_iff_prefix.1 hi
    have hlen := hpre.length_le
    rw [List.length_drop, h] at hlen
    have hi0 : i = 0 ∨ pat = [] := by
      rcases Nat.eq_zero_or_pos pat.length with h0 | h0
      · exact Or.inr (List.eq_nil_of_length_eq_zero h0)
      · exact Or.inl (by omega)
    rcases hi0 with rfl | rfl
    · rw [List.drop_zero] at hpre
      exact (hpre.eq_of_length h.symm).symm
    · exact List.eq_nil_of_length_eq_zero h
  · rintro rfl
    refine ⟨0, by simp, ?_⟩
    rw [List.drop_zero]
    exact List.isPrefixOf_iff_prefix.2 (List.prefix_refl s)

/-- A found pattern is there. -/
theorem prefix_of_find {s pat : Str} {i : ℕ} (h : find s pat = some i) : pat <+: s.drop i := by
  have hi := List.find?_some h
  exact List.isPrefixOf_iff_prefix.1 hi

theorem find_zeros (s : Str) :
    (find s (List.replicate s.length '0')).isSome ↔ s = List.replicate s.length '0' :=
  find_isSome_iff (by simp)

/-! ## Symbols -/

/-- What a reader learns about a plane. -/
inductive Sym where
  | zero
  | ones
  | two (pos : ℕ)
  | one (pos : ℕ)
  | dbpZero
  | raw (act : Str)

/-- The plane `x` of `dbx`, over the plane `p` of `dbp`, is what the symbol says; `m` is
the length of a plane. -/
def Stands (m : ℕ) (p x : Str) : Sym → Prop
  | .zero => x = List.replicate m '0'
  | .ones => x = List.replicate m '1'
  | .two pos => x = List.replicate pos '0' ++ ['1', '1'] ++ List.replicate (m - pos - 2) '0'
  | .one pos => x = List.replicate pos '0' ++ ['1'] ++ List.replicate (m - pos - 1) '0'
  | .dbpZero => p = List.replicate m '0'
  | .raw act => x = act

/-- Reads the code of one plane, or of a run of zero planes. -/
def readSym (m : ℕ) : Reader Char Sym
  | '1' :: r => some ([.raw (('1' :: r).take m)], ('1' :: r).drop m)
  | '0' :: '1' :: r => some (List.replicate (binaryValue (r.take 5) + 2) .zero, r.drop 5)
  | '0' :: '0' :: '1' :: r => some ([.zero], r)
  | '0' :: '0' :: '0' :: '0' :: '0' :: r => some ([.ones], r)
  | '0' :: '0' :: '0' :: '0' :: '1' :: r => some ([.dbpZero], r)
  | '0' :: '0' :: '0' :: '1' :: '0' :: r => some ([.two (binaryValue (r.take 5))], r.drop 5)
  | '0' :: '0' :: '0' :: '1' :: '1' :: r => some ([.one (binaryValue (r.take 5))], r.drop 5)
  | _ => none

theorem take_getBinary (v k : ℕ) (r : Str) : (getBinary v k ++ r).take k = getBinary v k :=
  List.take_left' (length_getBinary v k)

theorem drop_getBinary (v k : ℕ) (r : Str) : (getBinary v k ++ r).drop k = r :=
  List.drop_left' (length_getBinary v k)

theorem reads_zeroCode {m k : ℕ} (h1 : 1 ≤ k) (h33 : k ≤ 33) :
    Reads (readSym m) (zeroCode k) (List.replicate k .zero) := by
  rcases Nat.eq_or_lt_of_le h1 with rfl | h2
  · exact ⟨by simp [zeroCode], fun _ => rfl⟩
  · have hne : k ≠ 1 := by omega
    have hk : (k - 2) % 2 ^ 5 = k - 2 := Nat.mod_eq_of_lt (by omega)
    rw [zeroCode, if_neg hne]
    refine ⟨by simp, fun r => ?_⟩
    rw [List.append_assoc]
    show readSym m ('0' :: '1' :: (getBinary (k - 2) 5 ++ r)) = _
    rw [readSym, take_getBinary, drop_getBinary, binaryValue_getBinary, hk,
      Nat.sub_add_cancel h2]

theorem reads_two {m pos : ℕ} (h : pos < 32) :
    Reads (readSym m) (['0', '0', '0', '1', '0'] ++ getBinary pos 5) [.two pos] := by
  have hpos : pos % 2 ^ 5 = pos := Nat.mod_eq_of_lt h
  refine ⟨by simp, fun r => ?_⟩
  rw [List.append_assoc]
  show readSym m ('0' :: '0' :: '0' :: '1' :: '0' :: (getBinary pos 5 ++ r)) = _
  rw [readSym, take_getBinary, drop_getBinary, binaryValue_getBinary, hpos]

theorem reads_one {m pos : ℕ} (h : pos < 32) :
    Reads (readSym m) (['0', '0', '0', '1', '1'] ++ getBinary pos 5) [.one pos] := by
  have hpos : pos % 2 ^ 5 = pos := Nat.mod_eq_of_lt h
  refine ⟨by simp, fun r => ?_⟩
  rw [List.append_assoc]
  show readSym m ('0' :: '0' :: '0' :: '1' :: '1' :: (getBinary pos 5 ++ r)) = _
  rw [readSym, take_getBinary, drop_getBinary, binaryValue_getBinary, hpos]

theorem reads_raw {m : ℕ} {act : Str} (hm : act.length = m) (h : act.head? = some '1') :
    Reads (readSym m) act [.raw act] := by
  cases act with
  | nil => simp at h
  | cons c act =>
      obtain rfl : c = '1' := by simpa using h
      refine ⟨by simp, fun r => ?_⟩
      rw [List.cons_append, readSym, ← List.cons_append, List.take_left' hm, List.drop_left' hm]

/-! ## One plane -/

/-- When `one_check` accepts, everything around the match is zero. -/
theorem oneCheck_spec {code pat act out : Str} {it : ℕ}
    (hfind : find act pat = some it) (h : oneCheck code pat.length act it = some out) :
    out = code ++ getBinary it 5 ∧ it + pat.length ≤ act.length ∧
      act = List.replicate it '0' ++ pat ++ List.replicate (act.length - it - pat.length) '0' := by
  rw [oneCheck] at h
  split at h
  · rename_i hz
    rw [find_zeros, find_zeros] at hz
    have hpre := prefix_of_find hfind
    obtain ⟨t, ht⟩ := hpre
    have hit : it ≤ act.length := by
      have hmem := List.mem_of_find?_eq_some hfind
      rw [List.mem_range] at hmem
      omega
    have hlen := congrArg List.length ht
    rw [List.length_append, List.length_drop] at hlen
    have htake : (act.take it).length = it := by rw [List.length_take]; omega
    have htail : act.drop (it + pat.length) = t := by
      rw [← List.drop_drop, ← ht, List.drop_left]
    have hdrop : (act.drop (it + pat.length)).length = act.length - it - pat.length := by
      rw [List.length_drop]
      omega
    rw [htake, hdrop, htail] at hz
    refine ⟨(Option.some.inj h).symm, by omega, ?_⟩
    rw [← hz.1, ← hz.2, List.append_assoc, ht, List.take_append_drop]
  · exact absurd h (by simp)

/-- The code of a plane is read as a symbol the plane stands for, when a plane without a
code begins with a one. -/
theorem rowCode_reads {m : ℕ} (hm : m ≤ 32) {p x : Str} (hp : p.length = m) (hx : x.length = m)
    (hraw : rowCode m p x = none → x.head? = some '1') :
    ∃ s, Stands m p x s ∧ Reads (readSym m) ((rowCode m p x).getD x) [s] := by
  cases hcode : rowCode m p x with
  | none => exact ⟨.raw x, rfl, reads_raw hx (hraw hcode)⟩
  | some code =>
      rw [rowCode] at hcode
      split at hcode
      · rename_i hones
        rw [find_isSome_iff (by simp [hx])] at hones
        refine ⟨.ones, hones, ?_⟩
        rw [← Option.some.inj hcode]
        exact ⟨by simp, fun _ => rfl⟩
      · rw [Option.or_eq_some_iff, Option.or_eq_some_iff] at hcode
        rcases hcode with (htwo | ⟨-, hone⟩) | ⟨-, hzero⟩
        · obtain ⟨it, hfind, hcheck⟩ := Option.bind_eq_some_iff.1 htwo
          obtain ⟨rfl, hle, heq⟩ := oneCheck_spec hfind hcheck
          rw [hx] at hle heq
          exact ⟨.two it, heq, reads_two (by simp at hle; omega)⟩
        · obtain ⟨it, hfind, hcheck⟩ := Option.bind_eq_some_iff.1 hone
          obtain ⟨rfl, hle, heq⟩ := oneCheck_spec hfind hcheck
          rw [hx] at hle heq
          exact ⟨.one it, heq, reads_one (by simp at hle; omega)⟩
        · split at hzero
          · rename_i hz
            rw [zeroCheck, find_isSome_iff (by simp [hp])] at hz
            refine ⟨.dbpZero, hz, ?_⟩
            rw [← Option.some.inj hzero]
            exact ⟨by simp, fun _ => rfl⟩
          · exact absurd hzero (by simp)

/-! ## All planes -/

theorem traverse_createLookup (i : ℕ) (xs : List Str) :
    traverse (createLookup i xs) ≤ xs.length := by
  induction xs generalizing i with
  | nil => simp [createLookup, traverse]
  | cons x xs ih =>
      rw [createLookup, traverse]
      split
      · exact Nat.succ_le_succ (ih (i + 1))
      · exact Nat.zero_le _

/-- The planes a run covers are zero. -/
theorem zero_of_traverse {i k : ℕ} {xs : List Str} {x : Str}
    (h : k < traverse (createLookup i xs)) (hx : xs[k]? = some x) :
    x = List.replicate x.length '0' := by
  induction xs generalizing i k with
  | nil => simp at hx
  | cons y xs ih =>
      rw [createLookup, traverse] at h
      split at h
      · rename_i hy
        cases k with
        | zero =>
            obtain rfl : y = x := by simpa using hx
            exact (find_zeros y).1 hy
        | succ k => exact ih (Nat.lt_of_succ_lt_succ h) (by simpa using hx)
      · exact absurd h (Nat.not_lt_zero k)

/-- Every plane that is stored as it is begins with a one. -/
def RawOne (m : ℕ) (dbp dbx : List Str) : Prop :=
  ∀ p x, (p, x) ∈ dbp.zip dbx → x ≠ List.replicate m '0' → rowCode m p x = none →
    x.head? = some '1'

theorem forall₂_zero {m : ℕ} {ps xs : List Str} (hlen : ps.length = xs.length) (k : ℕ)
    (h : ∀ j < k, ∀ x, xs[j]? = some x → x = List.replicate m '0') {syms : List Sym}
    (hs : List.Forall₂ (fun (q : Str × Str) s => Stands m q.1 q.2 s)
      ((ps.zip xs).drop k) syms) (hk : k ≤ xs.length) :
    List.Forall₂ (fun (q : Str × Str) s => Stands m q.1 q.2 s) (ps.zip xs)
      (List.replicate k .zero ++ syms) := by
  induction k generalizing ps xs with
  | zero => simpa using hs
  | succ k ih =>
      cases xs with
      | nil => simp at hk
      | cons x xs =>
          cases ps with
          | nil => simp at hlen
          | cons p ps =>
              rw [List.replicate_succ, List.cons_append, List.zip_cons_cons]
              refine List.Forall₂.cons (h 0 (by omega) x rfl) ?_
              refine ih (by simpa using hlen) (fun j hj y hy => ?_) ?_ (by simpa using hk)
              · exact h (j + 1) (by omega) y (by simpa using hy)
              · simpa using hs

/-- **The codes are read back**: the encoder's output from any point is a sequence of codes
whose symbols the remaining planes stand for. -/
theorem encode_reads {m : ℕ} (hm : m ≤ 32) {dbp : List Str} (hdbp : ∀ p ∈ dbp, p.length = m)
    (xs : List Str) : ∀ (i : ℕ) (skip : ℕ), xs.length ≤ 33 → (∀ x ∈ xs, x.length = m) →
      (dbp.drop i).length = xs.length → RawOne m (dbp.drop i) xs → skip ≤ xs.length →
      ∃ ts : List (Str × List Sym),
        ts.map Prod.fst = encodeOthers dbp m (encodeRunLen skip (createLookup i xs)) ∧
        (∀ q ∈ ts, Reads (readSym m) q.1 q.2) ∧
        List.Forall₂ (fun (q : Str × Str) s => Stands m q.1 q.2 s)
          (((dbp.drop i).zip xs).drop skip) (ts.flatMap Prod.snd) := by
  induction xs with
  | nil =>
      intro i skip _ _ _ _ _
      refine ⟨[], ?_, by simp, by simp⟩
      cases skip <;> rfl
  | cons x xs ih =>
      intro i skip hn hx hlen hraw hskip
      obtain ⟨p, ps, hps⟩ : ∃ p ps, dbp.drop i = p :: ps :=
        List.exists_cons_of_length_pos (by rw [hlen]; simp)
      have hrest : dbp.drop (i + 1) = ps := by rw [← List.drop_drop, hps]; rfl
      have hget : dbp.getD i [] = p := by
        have h0 : (dbp.drop i)[0]? = some p := by rw [hps]; rfl
        rw [List.getElem?_drop, Nat.add_zero] at h0
        rw [List.getD_eq_getElem?_getD, h0, Option.getD_some]
      have hp : p.length = m := hdbp p (List.mem_of_mem_drop (by rw [hps]; simp))
      have hxm : x.length = m := hx x (List.mem_cons_self ..)
      have ih' := ih (i + 1)
      rw [hrest] at ih'
      rw [hps] at hlen hraw ⊢
      have hlen' : ps.length = xs.length := by simpa using hlen
      have hraw' : RawOne m ps xs :=
        fun q y hq => hraw q y (by rw [List.zip_cons_cons]; exact List.mem_cons_of_mem _ hq)
      have hn' : xs.length ≤ 33 := by simp at hn; omega
      have hx' : ∀ y ∈ xs, y.length = m := fun y hy => hx y (List.mem_cons_of_mem _ hy)
      cases skip with
      | succ skip =>
          obtain ⟨ts, hts, hr, hs⟩ := ih' skip hn' hx' hlen' hraw' (by simpa using hskip)
          exact ⟨ts, hts, hr, by simpa using hs⟩
      | zero =>
          by_cases hrun : 1 ≤ traverse (createLookup i (x :: xs))
          · -- a run of zero planes
            have hle := traverse_createLookup i (x :: xs)
            obtain ⟨k, hk⟩ : ∃ k, traverse (createLookup i (x :: xs)) = k + 1 :=
              ⟨traverse (createLookup i (x :: xs)) - 1, by omega⟩
            rw [hk, List.length_cons] at hle
            obtain ⟨ts, hts, hr, hs⟩ := ih' k hn' hx' hlen' hraw' (by omega)
            refine ⟨(zeroCode (k + 1), List.replicate (k + 1) .zero) :: ts, ?_, ?_, ?_⟩
            · rw [createLookup] at hk
              rw [List.map_cons, hts, createLookup, encodeRunLen]
              simp only [hk, if_pos (Nat.succ_le_succ (Nat.zero_le k)), Nat.add_sub_cancel]
              rfl
            · intro q hq
              rcases List.mem_cons.1 hq with rfl | hq
              · exact reads_zeroCode (by omega) (by simp at hn; omega)
              · exact hr q hq
            · rw [List.flatMap_cons, List.drop_zero]
              refine forall₂_zero (by simp [hlen']) (k + 1) (fun j hj y hy => ?_) (by simpa using hs)
                (by simp; omega)
              have hy0 := zero_of_traverse (by rw [hk]; exact hj) hy
              rwa [hx y (List.mem_of_getElem? hy)] at hy0
          · -- a plane with a code of its own
            have hnz : x ≠ List.replicate m '0' := by
              intro h0
              refine hrun ?_
              rw [createLookup, traverse, if_pos]
              · exact Nat.succ_le_succ (Nat.zero_le _)
              · exact (find_zeros x).2 (by rw [hxm]; exact h0)
            obtain ⟨s, hst, hrd⟩ := rowCode_reads hm hp hxm
              (hraw p x (by rw [List.zip_cons_cons]; exact List.mem_cons_self ..) hnz)
            obtain ⟨ts, hts, hr, hs⟩ := ih' 0 hn' hx' hlen' hraw' (Nat.zero_le _)
            refine ⟨((rowCode m p x).getD x, [s]) :: ts, ?_, ?_, ?_⟩
            · rw [createLookup] at hrun
              rw [List.map_cons, hts, createLookup, encodeRunLen]
              simp only [if_neg hrun]
              rw [encodeOthers, encodeOthers, List.map_cons, encodeOther, hget]
            · intro q hq
              rcases List.mem_cons.1 hq with rfl | hq
              · exact hrd
              · exact hr q hq
            · rw [List.flatMap_cons, List.drop_zero, List.zip_cons_cons]
              exact List.Forall₂.cons hst (by simpa using hs)

/-! ## From the symbols back to the planes -/

theorem getXor_inj {a b c : Str} (ha : IsBin a) (hb : IsBin b) (hab : a.length = b.length)
    (hac : a.length = c.length) (h : getXor a c = getXor b c) : a = b := by
  induction a generalizing b c with
  | nil => exact (List.eq_nil_of_length_eq_zero hab.symm).symm
  | cons x a ih =>
      cases b with
      | nil => simp at hab
      | cons y b =>
          cases c with
          | nil => simp at hac
          | cons z c =>
              rw [getXor, getXor, List.zipWith_cons_cons, List.zipWith_cons_cons,
                List.cons.injEq] at h
              have hab' : a = b := ih (fun e he => ha e (List.mem_cons_of_mem _ he))
                (fun e he => hb e (List.mem_cons_of_mem _ he)) (by simpa using hab)
                (by simpa using hac) h.2
              have hxy : x = y := by
                have hv := h.1
                rcases ha x (by simp) with rfl | rfl <;> rcases hb y (by simp) with rfl | rfl
                · rfl
                · rcases Nat.lt_or_ge (bitVal z) 1 with hz | hz
                  · rw [show bitVal z = 0 by omega] at hv; exact absurd hv (by decide)
                  · rw [show bitVal z = 1 by have := bitVal_lt z; omega] at hv
                    exact absurd hv (by decide)
                · rcases Nat.lt_or_ge (bitVal z) 1 with hz | hz
                  · rw [show bitVal z = 0 by omega] at hv; exact absurd hv (by decide)
                  · rw [show bitVal z = 1 by have := bitVal_lt z; omega] at hv
                    exact absurd hv (by decide)
                · rfl
              rw [hxy, hab']

/-- A symbol that is not about `dbp` determines the plane of `dbx`. -/
theorem Stands.eq_or_zero {m : ℕ} {p q x y : Str} {s : Sym} (hx : Stands m p x s)
    (hy : Stands m q y s) : x = y ∨ (p = List.replicate m '0' ∧ q = List.replicate m '0') := by
  cases s with
  | dbpZero => exact Or.inr ⟨hx, hy⟩
  | zero => exact Or.inl (Eq.trans hx (Eq.symm hy))
  | ones => exact Or.inl (Eq.trans hx (Eq.symm hy))
  | two pos => exact Or.inl (Eq.trans hx (Eq.symm hy))
  | one pos => exact Or.inl (Eq.trans hx (Eq.symm hy))
  | raw act => exact Or.inl (Eq.trans hx (Eq.symm hy))

/-- The plane of `dbx` for the plane `p` of `dbp` and the planes below it. -/
def xorNext (p : Str) : List Str → Str
  | [] => p
  | q :: _ => getXor p q

theorem getDbx_cons (p : Str) (ps : List Str) : getDbx (p :: ps) = xorNext p ps :: getDbx ps := by
  cases ps <;> rfl

theorem xorNext_inj {m : ℕ} {p q : Str} {ps : List Str} (hp : IsBin p ∧ p.length = m)
    (hq : IsBin q ∧ q.length = m) (hps : ∀ r ∈ ps, IsBin r ∧ r.length = m)
    (h : xorNext p ps = xorNext q ps) : p = q := by
  cases ps with
  | nil => exact h
  | cons r ps =>
      have hr := hps r (List.mem_cons_self ..)
      exact getXor_inj hp.1 hq.1 (by rw [hp.2, hq.2]) (by rw [hp.2, hr.2]) h

/-- **Equal symbols mean equal planes.**  The planes are rebuilt from the last one, which
`dbx` leaves as it is, up to the first. -/
theorem dbp_eq_of_symbols {m : ℕ} {ps qs : List Str} (hps : ∀ p ∈ ps, IsBin p ∧ p.length = m)
    (hqs : ∀ q ∈ qs, IsBin q ∧ q.length = m) (hlen : ps.length = qs.length) {syms : List Sym}
    (hp : List.Forall₂ (fun (q : Str × Str) s => Stands m q.1 q.2 s) (ps.zip (getDbx ps)) syms)
    (hq : List.Forall₂ (fun (q : Str × Str) s => Stands m q.1 q.2 s) (qs.zip (getDbx qs)) syms) :
    ps = qs := by
  induction ps generalizing qs syms with
  | nil => exact (List.eq_nil_of_length_eq_zero hlen.symm).symm
  | cons p ps ih =>
      cases qs with
      | nil => simp at hlen
      | cons q qs =>
          rw [getDbx_cons, List.zip_cons_cons, List.forall₂_cons_left_iff] at hp hq
          obtain ⟨s, syms', hs, hps', rfl⟩ := hp
          obtain ⟨s', syms'', hs', hqs', heq⟩ := hq
          obtain ⟨rfl, rfl⟩ := List.cons.inj heq
          have hrest : ps = qs := ih (fun r hr => hps r (List.mem_cons_of_mem _ hr))
            (fun r hr => hqs r (List.mem_cons_of_mem _ hr)) (by simpa using hlen) hps' hqs'
          subst hrest
          have hhead : p = q := by
            rcases hs.eq_or_zero hs' with h | ⟨h₁, h₂⟩
            · exact xorNext_inj (hps p (List.mem_cons_self ..)) (hqs q (List.mem_cons_self ..))
                (fun r hr => hps r (List.mem_cons_of_mem _ hr)) h
            · exact Eq.trans h₁ (Eq.symm h₂)
          rw [hhead]

/-! ## The base word -/

/-- Reads the code of the base word. -/
def readBase : Reader Char Str
  | '0' :: '0' :: '0' :: r => some ([List.replicate 32 '0'], r)
  | '0' :: '0' :: '1' :: r => some ([List.replicate 28 '0' ++ r.take 4], r.drop 4)
  | '0' :: '1' :: '0' :: r => some ([List.replicate 24 '0' ++ r.take 8], r.drop 8)
  | '0' :: '1' :: '1' :: r => some ([List.replicate 16 '0' ++ r.take 16], r.drop 16)
  | '1' :: r => some ([r.take 32], r.drop 32)
  | _ => none

theorem reads_compressBase {base : Str} (h : base.length = 32) :
    Reads readBase (compressBase base) [base] := by
  have hdrop : ∀ k, k ≤ 32 → (base.drop (32 - k)).length = k := by
    intro k hk
    rw [List.length_drop, h]
    omega
  have hread : ∀ k, k ≤ 32 → base.take (32 - k) = List.replicate (32 - k) '0' → ∀ r : Str,
      List.replicate (32 - k) '0' ++ (base.drop (32 - k) ++ r).take k = base := by
    intro k hk hz r
    rw [List.take_left' (hdrop k hk), ← hz, List.take_append_drop]
  rw [compressBase]
  split
  · rename_i hz
    exact ⟨by simp, fun r => by rw [hz]; rfl⟩
  · split
    · rename_i hz
      refine ⟨by simp, fun r => ?_⟩
      show readBase ('0' :: '0' :: '1' :: (base.drop 28 ++ r)) = _
      rw [readBase, hread 4 (by omega) hz r, List.drop_left' (hdrop 4 (by omega))]
    · split
      · rename_i hz
        refine ⟨by simp, fun r => ?_⟩
        show readBase ('0' :: '1' :: '0' :: (base.drop 24 ++ r)) = _
        rw [readBase, hread 8 (by omega) hz r, List.drop_left' (hdrop 8 (by omega))]
      · split
        · rename_i hz
          refine ⟨by simp, fun r => ?_⟩
          show readBase ('0' :: '1' :: '1' :: (base.drop 16 ++ r)) = _
          rw [readBase, hread 16 (by omega) hz r, List.drop_left' (hdrop 16 (by omega))]
        · refine ⟨by simp, fun r => ?_⟩
          show readBase ('1' :: (base ++ r)) = _
          rw [readBase, List.take_left' h, List.drop_left' h]

/-- The code of the base word says where it ends. -/
theorem compressBase_append_inj {a b : Str} (ha : a.length = 32) (hb : b.length = 32) {s t : Str}
    (h : compressBase a ++ s = compressBase b ++ t) : a = b ∧ s = t := by
  have hreadA := (reads_compressBase ha).2 s
  rw [h, (reads_compressBase hb).2 t, Option.some.injEq, Prod.mk.injEq] at hreadA
  obtain ⟨hab, hst⟩ := hreadA
  exact ⟨(List.cons.inj hab).1.symm, hst.symm⟩

/-! ## Lines -/

/-- The planes of the differences of a list of words. -/
def planes (words : List Str) : List Str :=
  (List.range 33).map fun r => (deltas words).map fun row => row.getD (33 - 1 - r) '0'

theorem deltas_ne_nil {words : List Str} (h : 2 ≤ words.length) : deltas words ≠ [] := by
  intro hnil
  have hlen := length_deltas words
  rw [hnil, List.length_nil] at hlen
  omega

theorem rotateMat90_deltas {words : List Str} (h : 2 ≤ words.length) :
    rotateMat90 (deltas words) = some (planes words) :=
  rotateMat90_eq (deltas_ne_nil h) fun _ hs => length_of_mem_deltas hs

theorem encodeWords_eq {words : List Str} (h : 2 ≤ words.length) :
    encodeWords words =
      some (compressBase (words.headD []) ++
        doActualEncode (planes words) (getDbx (planes words))) := by
  have hrot := rotateMat90_deltas h
  obtain ⟨w, ws, rfl⟩ := List.exists_cons_of_length_pos (l := words) (by omega)
  simp only [encodeWords, getDeltaValue_cons, List.tail_cons, List.headD_cons, hrot,
    Option.map_some]

theorem length_of_mem_planes {words : List Str} {p : Str} (h : p ∈ planes words) :
    p.length = words.length - 1 := by
  obtain ⟨r, -, rfl⟩ := List.mem_map.1 h
  rw [List.length_map, length_deltas]

theorem isBin_of_mem_planes {words : List Str} {p : Str} (h : p ∈ planes words) : IsBin p := by
  obtain ⟨r, hr, rfl⟩ := List.mem_map.1 h
  intro c hc
  obtain ⟨row, hrow, rfl⟩ := List.mem_map.1 hc
  exact (isBin_of_mem_deltas hrow).getD _

@[simp] theorem length_planes (words : List Str) : (planes words).length = 33 := by
  simp [planes]

theorem length_getXor (a b : Str) : (getXor a b).length = min a.length b.length := by
  rw [getXor, List.length_zipWith]

theorem length_getDbx (ps : List Str) : (getDbx ps).length = ps.length := by
  induction ps with
  | nil => rfl
  | cons p ps ih => rw [getDbx_cons, List.length_cons, ih, List.length_cons]

theorem length_of_mem_getDbx {m : ℕ} {ps : List Str} (hps : ∀ p ∈ ps, p.length = m) :
    ∀ x ∈ getDbx ps, x.length = m := by
  induction ps with
  | nil => simp [getDbx]
  | cons p ps ih =>
      intro x hx
      rw [getDbx_cons] at hx
      rcases List.mem_cons.1 hx with rfl | hx
      · cases ps with
        | nil => exact hps p (List.mem_cons_self ..)
        | cons q ps =>
            rw [xorNext, length_getXor, hps p (by simp), hps q (by simp), Nat.min_self]
      · exact ih (fun q hq => hps q (List.mem_cons_of_mem _ hq)) x hx

/-- The codes of the planes of `words` are read as symbols the planes stand for. -/
theorem planes_symbols {n : ℕ} (hn : n ≤ 33) {words : List Str} (hlen : words.length = n)
    (hraw : RawOne (n - 1) (planes words) (getDbx (planes words))) :
    ∃ ts : List (Str × List Sym),
      ts.flatMap Prod.fst = doActualEncode (planes words) (getDbx (planes words)) ∧
      (∀ q ∈ ts, Reads (readSym (n - 1)) q.1 q.2) ∧
      List.Forall₂ (fun (q : Str × Str) s => Stands (n - 1) q.1 q.2 s)
        ((planes words).zip (getDbx (planes words))) (ts.flatMap Prod.snd) := by
  have hp : ∀ p ∈ planes words, p.length = n - 1 := by
    intro p hp
    rw [length_of_mem_planes hp, hlen]
  have hx := length_of_mem_getDbx hp
  have hsize : (getDbx (planes words)).length = 33 := by rw [length_getDbx, length_planes]
  obtain ⟨ts, hts, hr, hs⟩ := encode_reads (m := n - 1) (by omega) hp (getDbx (planes words)) 0 0
    (by rw [hsize]) hx (by rw [List.drop_zero, length_planes, hsize])
    (by rwa [List.drop_zero]) (Nat.zero_le _)
  refine ⟨ts, ?_, hr, by simpa using hs⟩
  have hrow : ((getDbx (planes words)).headD []).length = n - 1 := by
    obtain ⟨x, xs, hxs⟩ := List.exists_cons_of_length_pos (l := getDbx (planes words))
      (by rw [hsize]; omega)
    rw [hxs, List.headD_cons]
    exact hx x (by rw [hxs]; exact List.mem_cons_self ..)
  rw [List.flatMap_def, hts, doActualEncode, hrow]

/-- **Words whose raw planes begin with a one are determined by the output.** -/
theorem encodeWords_inj_of_rawOne {n : ℕ} (h2 : 2 ≤ n) (h33 : n ≤ 33) {ws vs : List Str}
    (hws : ∀ w ∈ ws, IsBinWord w) (hvs : ∀ v ∈ vs, IsBinWord v) (hwn : ws.length = n)
    (hvn : vs.length = n) (hw : RawOne (n - 1) (planes ws) (getDbx (planes ws)))
    (hv : RawOne (n - 1) (planes vs) (getDbx (planes vs)))
    (h : encodeWords ws = encodeWords vs) : ws = vs := by
  rw [encodeWords_eq (by omega), encodeWords_eq (by omega), Option.some.injEq] at h
  obtain ⟨w, ws, rfl⟩ := List.exists_cons_of_length_pos (l := ws) (by omega)
  obtain ⟨v, vs, rfl⟩ := List.exists_cons_of_length_pos (l := vs) (by omega)
  obtain ⟨hbase, hcodes⟩ := compressBase_append_inj (hws w (by simp)).1 (hvs v (by simp)).1 h
  obtain ⟨ts, htsfst, htsr, htss⟩ := planes_symbols h33 hwn hw
  obtain ⟨us, husfst, husr, huss⟩ := planes_symbols h33 hvn hv
  have hsyms : ts.flatMap Prod.snd = us.flatMap Prod.snd :=
    flatten_symbols_inj htsr husr (by rw [htsfst, husfst, hcodes])
  rw [hsyms] at htss
  have hplanes : planes (w :: ws) = planes (v :: vs) :=
    dbp_eq_of_symbols (m := n - 1)
      (fun p hp => ⟨isBin_of_mem_planes hp, by rw [length_of_mem_planes hp, hwn]⟩)
      (fun q hq => ⟨isBin_of_mem_planes hq, by rw [length_of_mem_planes hq, hvn]⟩)
      (by simp) htss huss
  have hdeltas : deltas (w :: ws) = deltas (v :: vs) := by
    refine rotateMat90_inj (deltas_ne_nil (by omega)) (deltas_ne_nil (by omega))
      (fun _ => length_of_mem_deltas) (fun _ => length_of_mem_deltas) ?_ ?_
    · rw [length_deltas, length_deltas, hwn, hvn]
    · rw [rotateMat90_deltas (by omega), rotateMat90_deltas (by omega), hplanes]
  refine getDeltaValue_inj hws hvs (by rw [hwn, hvn]) ?_
  rw [getDeltaValue_cons, getDeltaValue_cons, hdeltas, show w = v from hbase]

end CompressionWork.Bpc
