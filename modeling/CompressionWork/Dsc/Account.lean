import CompressionWork.Dsc.Paid
import CompressionWork.Remap.Chars

/-!
# What the reported size of a line accounts for

The size of a line is the sum of a header, of what is charged for the status of the segments, and of
what is charged for their content.  Two things can go wrong: a resolution that does not divide the
data leaves bytes that are in no segment, and with the dynamic status the number of status bits may
not fit its field.

* `runDsCompMultiRes` — `run_ds_comp_multi_res`, which chooses a resolution for each segment.
* `report` — `run`, with either of the two (`hpcl_dsc_lwm_rep_opt_en`).
* `Account`, `compOf_account` — the size as a sum over the segments.
* `allData_iff_divides` — every byte is in one segment exactly when the resolutions divide the data.
* `consistent_iff_fieldFits` — the sums and the counter of the content agree, and the numbers of the
  dynamic mode fit their fields, exactly when no segment is encoded beyond the last number of the
  field and, with a resolution for each segment, there is no content that is not counted.
-/

namespace CompressionWork.Dsc

open Remap

/-! ## One resolution for each segment -/

/-- `csn_seg_no`: the parts of a segment that consist of one byte of two equal nibbles. -/
def csnSegNo (res : ℕ) (seg : List UInt8) : ℕ :=
  ((segments res seg).filter fun part =>
    isAllByteSame part && highNib (part.headD 0) == lowNib (part.headD 0)).length

/-- The resolution and the status of the parts; nothing for a segment that is left as it is. -/
def partStatusBits (maxRes res : ℕ) (seg : List UInt8) : ℕ :=
  if csnSegNo res seg = 0 then 0 else 2 + maxRes / res

/-- The content of the parts. -/
def partDataBits (cfg : Config) (maxRes res : ℕ) (seg : List UInt8) : ℕ :=
  if csnSegNo res seg = 0 then maxRes * 8
  else csnSegNo res seg * cfg.encodingBits + (maxRes / res - csnSegNo res seg) * res * 8

/-- `encoding_data`; it is still 0 when it is compared with the size of the segment. -/
def encodingData (cfg : Config) (maxRes res : ℕ) (seg : List UInt8) : ℕ :=
  if csnSegNo res seg = 0 then maxRes * 8
  else 2 + maxRes / res + csnSegNo res seg * cfg.encodingBits +
    (maxRes / res - csnSegNo res seg) * res * 8

/-- `min_encoding_data` and `min_res`; `none` stands for -1. -/
def minEncoding (cfg : Config) (maxRes : ℕ) (seg : List UInt8) : Option (ℕ × ℕ) :=
  (doublings maxRes maxRes 1).foldl (fun best res =>
    match best with
    | none => some (encodingData cfg maxRes res seg, res)
    | some b =>
        if encodingData cfg maxRes res seg < b.1 then some (encodingData cfg maxRes res seg, res)
        else some b) none

/-- `run_ds_comp_multi_res`; the header is empty for the two algorithms, and the bits of the content
are not summed up. -/
def runDsCompMultiRes (cfg : Config) (maxRes dataType : ℕ) (view : View) : Option DsComp :=
  if maxRes = 0 then none
  else
    let mins := (segments maxRes view.data).map (minEncoding cfg maxRes)
    some
      { encStatus := mins.map Option.isSome
        compBits := (mins.map fun min => (min.map Prod.fst).getD 0).sum + opBits cfg dataType view
        compDataBitsOnly := opBits cfg dataType view }

/-! ## The line -/

/-- `run_ds_comp` or `run_ds_comp_multi_res` -/
def compOf (cfg : Config) (repOptEn : Bool) (res dataType : ℕ) (view : View) : Option DsComp :=
  if repOptEn then runDsCompMultiRes cfg res dataType view else runDsComp cfg res dataType view

/-- The resolutions that are tried for a line of `n` bytes. -/
def resTried (cfg : Config) (repOptEn : Bool) (n : ℕ) : List ℕ :=
  if repOptEn then [16] else dscResCandi cfg n

/-- The forms of the data that are tried, with their types. -/
def tried (cfg : Config) (views : List View) : List (View × ℕ) :=
  views.zipIdx.drop (if cfg.remapDataUseOnly then 1 else 0)

/-- The best resolution for a form of the data. -/
def bestOf (cfg : Config) (repOptEn : Bool) (n m : ℕ) (view : View) : Option Best :=
  if repOptEn then
    (runDsCompMultiRes cfg 16 m view).map fun c => ⟨c.compBits, 16, m, c.compDataBitsOnly⟩
  else bestRes cfg (dscResCandi cfg n) m view

/-- `run`; `views` holds the line and its remapped forms, and `repOptEn` is
`hpcl_dsc_lwm_rep_opt_en`. -/
def report (cfg : Config) (repOptEn : Bool) : List View → Option Report
  | [] => none
  | org :: transData =>
      if org.data.length = 0 then none
      else
        ((tried cfg (org :: transData)).mapM fun p =>
            bestOf cfg repOptEn org.data.length p.2 p.1).map fun bests =>
          let best := bestView bests
          if best.compDataBits > org.data.length * 8 then
            ⟨org.data.length * 8 + 1, 0, none, org.data.length * 8⟩
          else ⟨best.compDataBits, best.dsSize, some best.index, best.compDataBitsOnly⟩

/-! ## Accounts -/

/-- A size: the header, and the bits of the status and of the content of every segment. -/
structure Account where
  header : ℕ
  encBits : List ℕ
  dataBits : List ℕ
  deriving DecidableEq, Repr

/-- The three parts together. -/
def Account.total (a : Account) : ℕ := a.header + a.encBits.sum + a.dataBits.sum

/-- The status bits of segment `i`: one, or none after the last encoded segment. -/
def segStatusBits (cfg : Config) (enc : List Bool) (i : ℕ) : ℕ :=
  if cfg.dyn = true ∧ encodedUpTo enc ≤ i then 0 else 1

/-- The account of a line at one resolution. -/
def account (cfg : Config) (res field dataType : ℕ) (view : View) : Account where
  header := 1 + field + opBits cfg dataType view
  encBits := (List.range (segments res view.data).length).map
    (segStatusBits cfg ((segments res view.data).map (isCompressed cfg)))
  dataBits := (segments res view.data).map (dataBits cfg res)

/-- The account of a line with a resolution for each segment. -/
def accountMultiRes (cfg : Config) (maxRes dataType : ℕ) (view : View) : Account where
  header := opBits cfg dataType view
  encBits := (segments maxRes view.data).map fun seg =>
    ((minEncoding cfg maxRes seg).map fun min => partStatusBits maxRes min.2 seg).getD 0
  dataBits := (segments maxRes view.data).map fun seg =>
    ((minEncoding cfg maxRes seg).map fun min => partDataBits cfg maxRes min.2 seg).getD 0

/-- The bits of the content of the segments, each at its own resolution. -/
def contentBits (cfg : Config) (maxRes : ℕ) (data : List UInt8) : ℕ :=
  ((segments maxRes data).map fun seg =>
    ((minEncoding cfg maxRes seg).map fun min => partDataBits cfg maxRes min.2 seg).getD 0).sum

/-- The account in either mode. -/
def accountOf (cfg : Config) (repOptEn : Bool) (res dataType : ℕ) (view : View) : Option Account :=
  if repOptEn then some (accountMultiRes cfg res dataType view)
  else (fieldBits cfg res).map fun field => account cfg res field dataType view

section Sums

variable {cfg : Config} {repOptEn : Bool} {res dataType : ℕ} {view : View} {c : DsComp}

/-- The chosen size is that of the chosen resolution. -/
theorem minEncoding_eq (cfg : Config) (maxRes : ℕ) (seg : List UInt8) :
    ∀ min ∈ minEncoding cfg maxRes seg, min.1 = encodingData cfg maxRes min.2 seg := by
  have hfold : ∀ (l : List ℕ) (best : Option (ℕ × ℕ)),
      (∀ min ∈ best, min.1 = encodingData cfg maxRes min.2 seg) →
      ∀ min ∈ l.foldl (fun best res =>
        match best with
        | none => some (encodingData cfg maxRes res seg, res)
        | some b =>
            if encodingData cfg maxRes res seg < b.1 then some (encodingData cfg maxRes res seg, res)
            else some b) best, min.1 = encodingData cfg maxRes min.2 seg := by
    intro l
    induction l with
    | nil => exact fun best h => h
    | cons res l ih =>
        intro best h
        apply ih
        intro min hmin
        cases best with
        | none =>
            obtain rfl := Option.mem_some.1 hmin
            rfl
        | some b =>
            dsimp only at hmin
            split at hmin
            · obtain rfl := Option.mem_some.1 hmin
              rfl
            · exact h min hmin
  exact hfold _ none (by simp)

theorem encodingData_eq (cfg : Config) (maxRes res : ℕ) (seg : List UInt8) :
    encodingData cfg maxRes res seg =
      partStatusBits maxRes res seg + partDataBits cfg maxRes res seg := by
  unfold encodingData partStatusBits partDataBits
  split <;> omega

/-- There is always a best resolution, since the first one has no rival. -/
theorem minEncoding_isSome (cfg : Config) {maxRes : ℕ} (hres : 0 < maxRes) (seg : List UInt8) :
    (minEncoding cfg maxRes seg).isSome = true := by
  have hfold : ∀ (l : List ℕ) (best : ℕ × ℕ),
      (l.foldl (fun best res =>
        match best with
        | none => some (encodingData cfg maxRes res seg, res)
        | some b =>
            if encodingData cfg maxRes res seg < b.1 then some (encodingData cfg maxRes res seg, res)
            else some b) (some best)).isSome = true := by
    intro l
    induction l with
    | nil => exact fun best => rfl
    | cons res l ih =>
        intro best
        rw [List.foldl_cons]
        dsimp only
        split
        · exact ih _
        · exact ih _
  rw [minEncoding, doublings, if_neg (by omega), List.foldl_cons]
  exact hfold _ _

theorem partDataBits_pos (cfg : Config) {maxRes : ℕ} (hres : 0 < maxRes) (res : ℕ) (seg : List UInt8) :
    0 < partDataBits cfg maxRes res seg := by
  have henc : 0 < cfg.encodingBits := by
    unfold Config.encodingBits
    split <;> decide
  unfold partDataBits
  split
  case isTrue => omega
  case isFalse hno =>
    have := Nat.mul_pos (Nat.pos_of_ne_zero hno) henc
    omega

/-- A whole segment has content. -/
theorem contentBits_eq_zero_iff (cfg : Config) {maxRes : ℕ} (hres : 0 < maxRes) (data : List UInt8) :
    contentBits cfg maxRes data = 0 ↔ data.length < maxRes := by
  have hpos : ∀ seg, ((minEncoding cfg maxRes seg).map fun min =>
      partDataBits cfg maxRes min.2 seg).getD 0 ≠ 0 := by
    intro seg
    obtain ⟨min, hmin⟩ := Option.isSome_iff_exists.1 (minEncoding_isSome cfg hres seg)
    rw [hmin]
    exact Nat.ne_of_gt (partDataBits_pos cfg hres min.2 seg)
  have hnil : segments maxRes data = [] ↔ data.length < maxRes := by
    rw [segments, List.map_eq_nil_iff, List.range_eq_nil, Nat.div_eq_zero_iff]
    omega
  rw [← hnil, contentBits, List.sum_eq_zero_iff]
  constructor
  · intro hzero
    rw [List.eq_nil_iff_forall_not_mem]
    exact fun seg hseg => hpos seg (hzero _ (List.mem_map_of_mem hseg))
  · intro hsegs
    simp [hsegs]

/-- The status bits of all segments. -/
theorem sum_segStatusBits (cfg : Config) (enc : List Bool) :
    ((List.range enc.length).map (segStatusBits cfg enc)).sum =
      if cfg.dyn then encodedUpTo enc else enc.length := by
  have hle := encodedUpTo_le enc
  have hpart : ∀ k, k ≤ enc.length → ((List.range k).map (segStatusBits cfg enc)).sum =
      if cfg.dyn then min k (encodedUpTo enc) else k := by
    intro k
    induction k with
    | zero => intro _; simp
    | succ k ih =>
        intro hk
        rw [List.range_succ, List.map_append, List.sum_append, ih (by omega), List.map_singleton,
          List.sum_singleton, segStatusBits]
        cases cfg.dyn with
        | false => simp
        | true =>
            simp only [if_true, true_and]
            split <;> omega
  rw [hpart _ (Nat.le_refl _), Nat.min_eq_right hle]

/-- The counter of the content: with a resolution for each segment, the content is left out. -/
theorem compOf_dataBitsOnly (h : compOf cfg repOptEn res dataType view = some c) {a : Account}
    (ha : accountOf cfg repOptEn res dataType view = some a) :
    c.compDataBitsOnly = a.dataBits.sum ↔
      (repOptEn = true → opBits cfg dataType view = contentBits cfg res view.data) := by
  cases repOptEn with
  | true =>
      simp only [compOf, if_true, runDsCompMultiRes] at h
      split at h
      case isTrue => cases h
      case isFalse =>
        obtain rfl := Option.some.inj h
        obtain rfl := Option.some.inj ha
        simp [accountMultiRes, contentBits]
  | false =>
      simp only [compOf, Bool.false_eq_true, if_false, runDsComp] at h
      split at h
      case isTrue => cases h
      case isFalse =>
        obtain ⟨field, -, rfl⟩ := Option.map_eq_some_iff.1 h
        obtain ⟨field, -, rfl⟩ := Option.map_eq_some_iff.1 ha
        simp [account]

/-- **The size is its account**, and the account has an entry for every segment. -/
theorem compOf_account (h : compOf cfg repOptEn res dataType view = some c) :
    ∃ a, accountOf cfg repOptEn res dataType view = some a ∧ c.compBits = a.total ∧
      0 < res ∧ c.encStatus.length = view.data.length / res ∧
      a.encBits.length = c.encStatus.length ∧ a.dataBits.length = c.encStatus.length := by
  cases repOptEn with
  | true =>
      simp only [compOf, if_true, runDsCompMultiRes] at h
      split at h
      case isTrue => cases h
      case isFalse hres =>
        obtain rfl := Option.some.inj h
        refine ⟨_, rfl, ?_, Nat.pos_of_ne_zero hres, by simp [segments], by simp [accountMultiRes],
          by simp [accountMultiRes]⟩
        have hsum : ∀ l : List (List UInt8),
            ((l.map (minEncoding cfg res)).map fun min => (min.map Prod.fst).getD 0).sum =
              (l.map fun seg => ((minEncoding cfg res seg).map fun min =>
                partStatusBits res min.2 seg).getD 0).sum +
              (l.map fun seg => ((minEncoding cfg res seg).map fun min =>
                partDataBits cfg res min.2 seg).getD 0).sum := by
          intro l
          rw [List.map_map, ← List.sum_map_add]
          refine congrArg List.sum (List.map_congr_left fun seg _ => ?_)
          have hmin := minEncoding_eq cfg res seg
          cases hcase : minEncoding cfg res seg with
          | none => simp [hcase]
          | some min =>
              have heq := hmin min hcase
              rw [encodingData_eq] at heq
              simpa only [Function.comp_apply, hcase, Option.map_some, Option.getD_some] using heq
        simp only [Account.total, accountMultiRes, hsum]
        omega
  | false =>
      simp only [compOf, Bool.false_eq_true, if_false] at h
      have hres : 0 < res := by
        apply Nat.pos_of_ne_zero
        rintro rfl
        simp [runDsComp] at h
      have h' := h
      rw [runDsComp, if_neg (Nat.ne_of_gt hres)] at h
      obtain ⟨field, hfield, rfl⟩ := Option.map_eq_some_iff.1 h
      have hbits := @runDsComp_compBits cfg res field dataType hres hfield view
      rw [h', Option.map_some] at hbits
      have hbits := Option.some.inj hbits
      refine ⟨account cfg res field dataType view, by simp [accountOf, hfield], ?_, hres,
        by simp [segments], by simp [account], by simp [account]⟩
      have hstatus := sum_segStatusBits cfg ((segments res view.data).map (isCompressed cfg))
      rw [List.length_map] at hstatus
      rw [hbits, bodyBits, statusBits, Account.total, account]
      simp only [hstatus, List.length_map]
      cases hdyn : cfg.dyn with
      | true =>
          simp only [if_true]
          omega
      | false =>
          have hzero : field = 0 := by
            rw [fieldBits, hdyn, if_neg (by decide)] at hfield
            exact (Option.some.inj hfield).symm
          simp only [hzero, Bool.false_eq_true, if_false]
          omega

end Sums

/-! ## Every byte in one segment -/

/-- The size of the line. -/
def lineSize (views : List View) : ℕ := (views.headD ⟨[], 0⟩).data.length

/-- Every byte of the forms that are tried is in exactly one of the segments that are accounted for. -/
def AllData (cfg : Config) (repOptEn : Bool) (views : List View) : Prop :=
  ∀ p ∈ tried cfg views, ∀ res ∈ resTried cfg repOptEn (lineSize views), ∀ c,
    compOf cfg repOptEn res p.2 p.1 = some c →
      (∀ b < p.1.data.length, ∃! i, i < c.encStatus.length ∧ i * res ≤ b ∧ b < (i + 1) * res) ∧
      ∃ a, accountOf cfg repOptEn res p.2 p.1 = some a ∧ c.compBits = a.total ∧
        a.encBits.length = c.encStatus.length ∧ a.dataBits.length = c.encStatus.length

/-- The resolutions that are tried divide the forms that are tried. A resolution of 0 divides nothing,
and with the dynamic status the width of the field is defined up to 128. -/
def Divides (cfg : Config) (repOptEn : Bool) (views : List View) : Prop :=
  ∀ p ∈ tried cfg views, ∀ res ∈ resTried cfg repOptEn (lineSize views), 0 < res →
    (repOptEn = false → cfg.dyn = true → res ≤ 128) → res ∣ p.1.data.length

/-- The slices of `res` bytes cover `n` bytes exactly when `res` divides `n`. -/
theorem slices_cover_iff {res n : ℕ} (hres : 0 < res) :
    (∀ b < n, ∃! i, i < n / res ∧ i * res ≤ b ∧ b < (i + 1) * res) ↔ res ∣ n := by
  constructor
  · intro h
    by_contra hdvd
    -- the first byte after the last segment
    have hlt : n / res * res < n := by
      apply Nat.lt_of_le_of_ne (Nat.div_mul_le_self n res)
      exact fun heq => hdvd (Nat.dvd_of_mod_eq_zero (by
        have := Nat.div_add_mod' n res
        omega))
    obtain ⟨i, ⟨hi, -, hend⟩, -⟩ := h _ hlt
    have := Nat.mul_le_mul_right res (show i + 1 ≤ n / res from hi)
    omega
  · intro hdvd b hb
    have hn : n / res * res = n := Nat.div_mul_cancel hdvd
    refine ⟨b / res, ⟨?_, Nat.div_mul_le_self b res, ?_⟩, ?_⟩
    · apply Nat.div_lt_of_lt_mul
      rw [Nat.mul_comm]
      omega
    · have hmod := Nat.mod_lt b hres
      have hsplit := Nat.div_add_mod' b res
      rw [Nat.add_mul, Nat.one_mul]
      omega
    · rintro i ⟨-, hle, hlt⟩
      symm
      apply Nat.div_eq_of_lt_le hle hlt

/-- When a size is computed. -/
theorem exists_compOf_iff {cfg : Config} {repOptEn : Bool} {res dataType : ℕ} {view : View} :
    (∃ c, compOf cfg repOptEn res dataType view = some c) ↔
      0 < res ∧ (repOptEn = false → cfg.dyn = true → res ≤ 128) := by
  cases repOptEn with
  | true =>
      simp only [compOf, if_true, runDsCompMultiRes]
      split <;> simp <;> omega
  | false =>
      simp only [compOf, Bool.false_eq_true, if_false, runDsComp]
      split
      case isTrue h => simp [h]
      case isFalse h =>
        have hdiv : 128 / res = 0 ↔ ¬ res ≤ 128 := by
          rw [Nat.div_eq_zero_iff]
          omega
        cases hdyn : cfg.dyn with
        | false =>
            simp [fieldBits, hdyn]
            omega
        | true =>
            by_cases hle : res ≤ 128
            · simp [fieldBits, hdyn, maxDsNoBitNo, hdiv, hle]
              omega
            · simp [fieldBits, hdyn, maxDsNoBitNo, hdiv, hle]

/-- For every line and its forms, in both modes: every byte that is tried is accounted for in exactly
one segment exactly when the resolutions divide the forms. -/
theorem allData_iff_divides (cfg : Config) (repOptEn : Bool) (views : List View) :
    AllData cfg repOptEn views ↔ Divides cfg repOptEn views := by
  constructor
  · intro h p hp res hres hpos hdyn
    obtain ⟨c, hc⟩ := exists_compOf_iff.2 ⟨hpos, hdyn⟩
    obtain ⟨a, -, -, -, hlen, -, -⟩ := compOf_account hc
    have hcover := (h p hp res hres c hc).1
    rw [hlen] at hcover
    exact (slices_cover_iff hpos).1 hcover
  · intro h p hp res hres c hc
    obtain ⟨hpos, hdyn⟩ := exists_compOf_iff.1 ⟨c, hc⟩
    obtain ⟨a, ha, htotal, -, hlen, henc, hdata⟩ := compOf_account hc
    refine ⟨?_, a, ha, htotal, henc, hdata⟩
    rw [hlen]
    exact (slices_cover_iff hpos).2 (h p hp res hres hpos hdyn)

/-- A line of 128 characters with the extra bits has 144 bytes; resolution 32 leaves 16 of them out. -/
theorem not_allData : ¬ ∀ (cfg : Config) (repOptEn : Bool) (opts : CharRemap) (line remapped : List UInt8),
    remapCharData opts line = some remapped →
      AllData cfg repOptEn [⟨line, 0⟩, ⟨remapped, 0⟩] := by
  intro h
  let line : List UInt8 := List.replicate 128 0x20
  have hsome : (remapCharData ⟨true, false, false⟩ line).isSome = true := by decide +kernel
  obtain ⟨remapped, hremap⟩ := Option.isSome_iff_exists.1 hsome
  have hlen : remapped.length = 144 := by
    rw [length_remapCharData hremap]
    simp [line]
  have hdvd := (allData_iff_divides ⟨.dataSegMatching, 16, 128, false, false, false⟩ false _).1
    (h ⟨.dataSegMatching, 16, 128, false, false, false⟩ false ⟨true, false, false⟩ line remapped hremap)
    (⟨remapped, 0⟩, 1) (by simp [tried]) 32 (by
      simp only [lineSize, List.headD_cons, line, List.length_replicate]
      simp [resTried, dscResCandi, doublings]) (by decide) (by decide)
  rw [hlen] at hdvd
  exact absurd hdvd (by decide)

/-! ## The sums and the fields -/

/-- The reported size is one bit and the bits of the line, or the account of one of the forms that
are tried; the reported bits of the content are those of the line or of that account. -/
def Reported (cfg : Config) (repOptEn : Bool) (views : List View) (r : Report) : Prop :=
  (r.dataType = none ∧ r.compDataBits = 1 + 8 * lineSize views ∧
      r.compressedBitsOnly = 8 * lineSize views) ∨
    ∃ p ∈ tried cfg views, ∃ a, r.dataType = some p.2 ∧
      accountOf cfg repOptEn r.dscCompRes p.2 p.1 = some a ∧ r.compDataBits = a.total ∧
      r.compressedBitsOnly = a.dataBits.sum

/-- The reported size, all sizes that are computed for it with their counters of the content, and the
numbers of the dynamic mode. -/
def Consistent (cfg : Config) (repOptEn : Bool) (views : List View) : Prop :=
  (∀ r, report cfg repOptEn views = some r →
    Reported cfg repOptEn views r ∧ r.compDataBits ≤ 8 * lineSize views + 1) ∧
  ∀ p ∈ tried cfg views, ∀ res ∈ resTried cfg repOptEn (lineSize views), ∀ c,
    compOf cfg repOptEn res p.2 p.1 = some c →
      (∃ a, accountOf cfg repOptEn res p.2 p.1 = some a ∧ c.compBits = a.total ∧
        c.compDataBitsOnly = a.dataBits.sum) ∧
      (repOptEn = false → cfg.dyn = true → ∀ field, fieldBits cfg res = some field →
        encodedUpTo c.encStatus < 2 ^ field)

/-- Some form is tried; in the dynamic mode no segment is encoded whose number, counted from 1, is too
great for the field; with a resolution for each segment, a form has no whole segment, or undoing its
remapping happens to take as many bits as its content. -/
def FieldFits (cfg : Config) (repOptEn : Bool) (views : List View) : Prop :=
  (tried cfg views = [] → lineSize views = 0) ∧
  (repOptEn = false → cfg.dyn = true →
    ∀ p ∈ tried cfg views, ∀ res ∈ resTried cfg repOptEn (lineSize views), 0 < res → res ≤ 128 →
      ∀ (i : ℕ) (seg : List UInt8), (segments res p.1.data)[i]? = some seg →
        isCompressed cfg seg = true → i + 1 < 2 ^ Nat.clog 2 (128 / res)) ∧
  (repOptEn = true → ∀ p ∈ tried cfg views,
    if cfg.dataRemapOp = true ∧ 0 < p.2 then p.1.opBits = contentBits cfg 16 p.1.data
    else p.1.data.length < 16)

/-- When the bits for undoing a remapping are as many as those of the content. -/
theorem opBits_eq_contentBits_iff (cfg : Config) (dataType : ℕ) (view : View) :
    opBits cfg dataType view = contentBits cfg 16 view.data ↔
      if cfg.dataRemapOp = true ∧ 0 < dataType then view.opBits = contentBits cfg 16 view.data
      else view.data.length < 16 := by
  unfold opBits
  by_cases hop : cfg.dataRemapOp = true ∧ 0 < dataType
  · simp [hop]
  · have hoff : (cfg.dataRemapOp && decide (0 < dataType)) = false := by
      rw [Bool.and_eq_false_imp]
      intro hremap
      exact decide_eq_false fun hpos => hop ⟨hremap, hpos⟩
    rw [hoff, if_neg Bool.false_ne_true, if_neg hop, eq_comm]
    exact contentBits_eq_zero_iff cfg (by decide) view.data

theorem encodedUpTo_lt_iff {k : ℕ} (hk : 0 < k) (enc : List Bool) :
    encodedUpTo enc < k ↔ ∀ i, enc[i]? = some true → i + 1 < k := by
  induction enc using List.reverseRecOn with
  | nil => simpa using hk
  | append_singleton enc b ih =>
      have hle := encodedUpTo_le enc
      rw [encodedUpTo_concat]
      constructor
      · intro h i hi
        rcases Nat.lt_or_ge i enc.length with hlt | hge
        · rw [List.getElem?_append_left hlt] at hi
          cases b with
          | true =>
              simp only [if_true] at h
              omega
          | false =>
              simp only [Bool.false_eq_true, if_false] at h
              exact ih.1 h i hi
        · rw [List.getElem?_append_right hge] at hi
          have hlast := (List.getElem?_eq_some_iff.1 hi).1
          simp only [List.length_singleton] at hlast
          obtain rfl : i = enc.length := by omega
          obtain rfl : b = true := by simpa using hi
          simpa using h
      · intro h
        cases b with
        | true =>
            have := h enc.length (by simp)
            simpa using this
        | false =>
            simp only [Bool.false_eq_true, if_false]
            apply ih.2
            intro i hi
            have hlt := (List.getElem?_eq_some_iff.1 hi).1
            exact h i (by rw [List.getElem?_append_left hlt]; exact hi)

section Best

variable {cfg : Config} {repOptEn : Bool} {n m : ℕ} {view : View} {best : Best}

theorem exists_of_mem_mapM {ε δ : Type} {f : ε → Option δ} {l : List ε} {ys : List δ}
    (h : l.mapM f = some ys) : ∀ y ∈ ys, ∃ x ∈ l, f x = some y := by
  induction l generalizing ys with
  | nil =>
      obtain rfl : [] = ys := by simpa using h
      simp
  | cons x l ih =>
      rw [List.mapM_cons] at h
      obtain ⟨y, hy, h⟩ := Option.bind_eq_some_iff.1 h
      obtain ⟨ys', hys, h⟩ := Option.bind_eq_some_iff.1 h
      obtain rfl := Option.some.inj h
      intro z hz
      rcases List.mem_cons.1 hz with rfl | hz
      · exact ⟨x, by simp, hy⟩
      · obtain ⟨x', hx', heq⟩ := ih hys z hz
        exact ⟨x', by simp [hx'], heq⟩

/-- A loop that keeps one of the two gives one of the list. -/
theorem foldl_choose_mem {δ : Type} {f : δ → δ → δ} (hf : ∀ b x, f b x = b ∨ f b x = x) (b : δ)
    (l : List δ) : l.foldl f b = b ∨ l.foldl f b ∈ l := by
  induction l generalizing b with
  | nil => exact Or.inl rfl
  | cons x l ih =>
      rw [List.foldl_cons]
      rcases ih (f b x) with heq | hmem
      · rcases hf b x with hb | hx
        · exact Or.inl (heq.trans hb)
        · exact Or.inr (by rw [heq, hx]; simp)
      · exact Or.inr (by simp [hmem])

theorem bestView_mem {bests : List Best} (h : bests ≠ []) : bestView bests ∈ bests := by
  cases bests with
  | nil => exact absurd rfl h
  | cons b bests =>
      rw [bestView, List.foldl_cons, if_pos (Or.inl rfl)]
      rcases foldl_choose_mem (f := fun best b : Best =>
        if best.compDataBits = 0 ∨ b.compDataBits < best.compDataBits then b else best)
        (fun best x => by split <;> simp) b bests with heq | hmem
      · rw [heq]
        simp
      · simp [hmem]

/-- The best resolution is one that was tried. -/
theorem bestOf_mem (h : bestOf cfg repOptEn n m view = some best) :
    ∃ res ∈ resTried cfg repOptEn n, ∃ c, compOf cfg repOptEn res m view = some c ∧
      best = ⟨c.compBits, res, m, c.compDataBitsOnly⟩ := by
  cases repOptEn with
  | true =>
      simp only [bestOf, if_true] at h
      obtain ⟨c, hc, rfl⟩ := Option.map_eq_some_iff.1 h
      exact ⟨16, by simp [resTried], c, by simpa [compOf] using hc, rfl⟩
  | false =>
      simp only [bestOf, Bool.false_eq_true, if_false, bestRes] at h
      obtain ⟨recs, hrecs, h⟩ := Option.bind_eq_some_iff.1 h
      have hmem : best ∈ recs := by
        cases recs with
        | nil => cases h
        | cons b bs =>
            obtain rfl := Option.some.inj h
            rcases foldl_choose_mem (f := fun best x : Best =>
              if x.compDataBits < best.compDataBits then x else best)
              (fun best x => by split <;> simp) b bs with heq | hmem
            · rw [heq]
              simp
            · simp [hmem]
      obtain ⟨res, hres, hmap⟩ := exists_of_mem_mapM hrecs best hmem
      obtain ⟨c, hc, rfl⟩ := Option.map_eq_some_iff.1 hmap
      exact ⟨res, by simpa [resTried] using hres, c, by simpa [compOf] using hc, rfl⟩

/-- **The reported size** is accounted for and at most one bit above the line. -/
theorem report_accounted {views : List View} {r : Report} (htried : tried cfg views ≠ [])
    (hcount : repOptEn = true → ∀ p ∈ tried cfg views,
      opBits cfg p.2 p.1 = contentBits cfg 16 p.1.data)
    (h : report cfg repOptEn views = some r) :
    Reported cfg repOptEn views r ∧ r.compDataBits ≤ 8 * lineSize views + 1 := by
  cases views with
  | nil => cases h
  | cons org transData =>
      rw [report] at h
      split at h
      case isTrue => cases h
      case isFalse =>
        obtain ⟨bests, hbests, rfl⟩ := Option.map_eq_some_iff.1 h
        dsimp only
        by_cases hraw : (bestView bests).compDataBits > org.data.length * 8
        · rw [if_pos hraw]
          refine ⟨Or.inl ⟨rfl, ?_, ?_⟩, ?_⟩
          · simp only [lineSize, List.headD_cons]
            omega
          · simp only [lineSize, List.headD_cons]
            omega
          · simp only [lineSize, List.headD_cons]
            omega
        · rw [if_neg hraw]
          have hne : bests ≠ [] := by
            rintro rfl
            obtain ⟨p, ps, hps⟩ := List.exists_cons_of_ne_nil htried
            rw [hps, List.mapM_cons] at hbests
            obtain ⟨y, -, hbests⟩ := Option.bind_eq_some_iff.1 hbests
            obtain ⟨ys, -, hbests⟩ := Option.bind_eq_some_iff.1 hbests
            simp at hbests
          obtain ⟨p, hp, hbest⟩ := exists_of_mem_mapM hbests _ (bestView_mem hne)
          obtain ⟨res, hres, c, hc, heq⟩ := bestOf_mem hbest
          obtain ⟨a, ha, htotal, -⟩ := compOf_account hc
          have hcontent : c.compDataBitsOnly = a.dataBits.sum := by
            rw [compOf_dataBitsOnly hc ha]
            rintro rfl
            obtain rfl : res = 16 := by simpa [resTried] using hres
            exact hcount rfl p hp
          refine ⟨Or.inr ⟨p, hp, a, ?_, ?_, ?_, ?_⟩, ?_⟩
          · rw [heq]
          · rw [heq]
            exact ha
          · rw [heq]
            exact htotal
          · rw [heq]
            exact hcontent
          · simp only [lineSize, List.headD_cons]
            omega

/-- Without a form to try, 0 bits are reported. -/
theorem not_reported_of_tried_eq_nil {views : List View} (htried : tried cfg views = [])
    (hsize : lineSize views ≠ 0) :
    ∃ r, report cfg repOptEn views = some r ∧ ¬ Reported cfg repOptEn views r := by
  cases views with
  | nil => exact absurd rfl hsize
  | cons org transData =>
      have hlen : org.data.length ≠ 0 := hsize
      rw [report, if_neg hlen, htried]
      refine ⟨_, rfl, ?_⟩
      simp [Reported, htried, bestView]

end Best

/-! ## The condition -/

theorem fieldBits_of_dyn {res : ℕ} (hdyn : cfg.dyn = true) (hpos : 0 < res) (hle : res ≤ 128) :
    fieldBits cfg res = some (Nat.clog 2 (128 / res)) := by
  have hdiv : 128 / res ≠ 0 := Nat.ne_of_gt (Nat.div_pos hle hpos)
  rw [fieldBits, if_pos hdyn, maxDsNoBitNo, if_neg hdiv]

/-- The number of the last encoded segment fits its field just when that of every encoded one does. -/
theorem encodedUpTo_compOf_iff {res m width : ℕ} {view : View} {c : DsComp} (hwidth : 0 < width)
    (hc : compOf cfg false res m view = some c) :
    encodedUpTo c.encStatus < width ↔ ∀ (i : ℕ) (seg : List UInt8),
      (segments res view.data)[i]? = some seg → isCompressed cfg seg = true → i + 1 < width := by
  have hstatus : c.encStatus = (segments res view.data).map (isCompressed cfg) := by
    simp only [compOf, Bool.false_eq_true, if_false, runDsComp] at hc
    split at hc
    · cases hc
    · obtain ⟨field, -, rfl⟩ := Option.map_eq_some_iff.1 hc
      rfl
  rw [hstatus, encodedUpTo_lt_iff hwidth]
  constructor
  · intro hall i seg hseg hcomp
    apply hall i
    rw [List.getElem?_map, hseg, Option.map_some, hcomp]
  · intro hall i hi
    rw [List.getElem?_map] at hi
    obtain ⟨seg, hseg, hcomp⟩ := Option.map_eq_some_iff.1 hi
    exact hall i seg hseg hcomp

/-- A line that is reported is not empty. -/
theorem lineSize_of_report {views : List View} {r : Report} (hr : report cfg repOptEn views = some r) :
    lineSize views ≠ 0 := by
  intro hsize
  cases views with
  | nil => cases hr
  | cons org transData =>
      have hlen : org.data.length = 0 := hsize
      rw [report, if_pos hlen] at hr
      cases hr

theorem Consistent.fieldFits {views : List View} (h : Consistent cfg repOptEn views) :
    FieldFits cfg repOptEn views := by
  obtain ⟨hreport, hall⟩ := h
  refine ⟨fun htried => ?_, ?_, ?_⟩
  · by_contra hsize
    obtain ⟨r, hr, hnot⟩ := @not_reported_of_tried_eq_nil cfg repOptEn views htried hsize
    exact hnot (hreport r hr).1
  · rintro rfl hdyn p hp res hres hpos hle
    obtain ⟨c, hc⟩ := exists_compOf_iff.2 ⟨hpos, fun _ _ => hle⟩
    have hlt := (hall p hp res hres c hc).2 rfl hdyn _ (fieldBits_of_dyn hdyn hpos hle)
    exact (encodedUpTo_compOf_iff (by positivity) hc).1 hlt
  · rintro rfl p hp
    have hres : 16 ∈ resTried cfg true (lineSize views) := by simp [resTried]
    have hsize : ∃ c, compOf cfg true 16 p.2 p.1 = some c := by
      rw [exists_compOf_iff]
      simp
    obtain ⟨c, hc⟩ := hsize
    obtain ⟨a, ha, -, hcontent⟩ := (hall p hp 16 hres c hc).1
    exact (opBits_eq_contentBits_iff cfg p.2 p.1).1 ((compOf_dataBitsOnly hc ha).1 hcontent rfl)

theorem FieldFits.consistent {views : List View} (h : FieldFits cfg repOptEn views) :
    Consistent cfg repOptEn views := by
  obtain ⟨htried, hfits, hmulti⟩ := h
  have hcount : repOptEn = true → ∀ p ∈ tried cfg views,
      opBits cfg p.2 p.1 = contentBits cfg 16 p.1.data := by
    intro hrep p hp
    exact (opBits_eq_contentBits_iff cfg p.2 p.1).2 (hmulti hrep p hp)
  refine ⟨fun r hr => report_accounted (fun hnil => lineSize_of_report hr (htried hnil)) hcount hr,
    fun p hp res hres c hc => ?_⟩
  obtain ⟨a, ha, htotal, -⟩ := compOf_account hc
  refine ⟨⟨a, ha, htotal, ?_⟩, ?_⟩
  · rw [compOf_dataBitsOnly hc ha]
    rintro rfl
    obtain rfl : res = 16 := by simpa [resTried] using hres
    exact hcount rfl p hp
  · rintro rfl hdyn field hwidth
    obtain ⟨hpos, hle⟩ := exists_compOf_iff.1 ⟨c, hc⟩
    rw [fieldBits_of_dyn hdyn hpos (hle rfl hdyn)] at hwidth
    obtain rfl := Option.some.inj hwidth
    exact (encodedUpTo_compOf_iff (by positivity) hc).2 (hfits rfl hdyn p hp res hres hpos (hle rfl hdyn))

/-- For every line and its forms, in both modes: sizes, counters and sums agree, no more than one bit
above the line is reported, and the numbers of the dynamic mode are smaller than two to the width of
their field, exactly when `FieldFits`. -/
theorem consistent_iff_fieldFits (cfg : Config) (repOptEn : Bool) (views : List View) :
    Consistent cfg repOptEn views ↔ FieldFits cfg repOptEn views :=
  ⟨Consistent.fieldFits, FieldFits.consistent⟩

/-- 128 zero bytes at resolution 16: eight segments, all encoded, and a field of three bits. -/
theorem not_consistent : ¬ ∀ (cfg : Config) (repOptEn : Bool) (views : List View),
    tried cfg views ≠ [] → Consistent cfg repOptEn views := by
  intro h
  let line : List UInt8 := List.replicate 128 0
  have hfits := (consistent_iff_fieldFits ⟨.dataSegMatching2, 16, 16, true, false, false⟩ false
    [⟨line, 0⟩]).1 (h _ false _ (by simp [tried]))
  have hlt := hfits.2.1 rfl rfl (⟨line, 0⟩, 0) (by simp [tried]) 16 (by simp [resTried, dscResCandi])
    (by decide) (by decide) 7 (List.replicate 16 0) (by decide +kernel) (by decide)
  exact absurd hlt (by decide)

end CompressionWork.Dsc
