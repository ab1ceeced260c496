import Mathlib

/-!
# The dictionary: replacement and holds

The model of `hpcl_dict<K>` with the fields that its replacement reads: the last use time,
the frequency, the valid flag and the hold flag of every element, the size limit and the
policy.

* `Dict.updateDict`, `Dict.step` — the operations of the class; `none` stands for a failed
  assertion or an access out of range.
* `TrueVictim` — what a replaced element should be: not held, and used least among those
  that are not held.
* `Picks` — what the elements before a replacement must look like for the loop to pick it.
* `right_iff_meets` — a step does what it should exactly when its condition holds.
* `replaceRight_iff` — the same along a run.
* `heldWord_kept` — along such a run a held word stays until its release.

The found flag and the location of a word are left out: no operation here reads them.
-/

namespace CompressionWork.HpclDict

/-- `enum hpcl_dict_rep_policy` -/
inductive RepPolicy where
  | lru
  | lfu
  deriving DecidableEq, Repr

/-- `hpcl_dict_elem<K>` -/
structure Elem (K : Type) where
  word : K
  lastUseTime : ℕ
  freq : ℕ
  valid : Bool
  hold : Bool
  deriving DecidableEq, Repr

variable {K : Type}

/-- `hpcl_dict_elem::init` -/
def Elem.init (word : K) (time : ℕ) : Elem K := ⟨word, time, 1, false, false⟩

/-- `update_last_use_time` and `update_freq`; the frequency is an `unsigned int`. -/
def Elem.touch (e : Elem K) (time : ℕ) : Elem K :=
  { e with lastUseTime := time, freq := (e.freq + 1) % 2 ^ 32 }

/-- The use that a policy compares. -/
def RepPolicy.use : RepPolicy → Elem K → ℕ
  | .lru, e => e.lastUseTime
  | .lfu, e => e.freq

/-- The test of the loop: used less than element 0 and, for LFU alone, not held. -/
def RepPolicy.Below : RepPolicy → Elem K → Elem K → Prop
  | .lru, e, e₀ => e.lastUseTime < e₀.lastUseTime
  | .lfu, e, e₀ => e.freq < e₀.freq ∧ e.hold = false

instance (policy : RepPolicy) (e e₀ : Elem K) : Decidable (policy.Below e e₀) := by
  cases policy <;> unfold RepPolicy.Below <;> infer_instance

/-- `hpcl_dict<K>` -/
structure Dict (K : Type) where
  maxDictSize : ℕ
  repPolicy : RepPolicy
  mDict : List (Elem K)
  deriving DecidableEq, Repr

/-- The loop `for (i = 1; i < m_dict.size(); i++)` over the elements after the first: the
last one that passes the test. Its minimum is element 0 all along. -/
def victimFrom (policy : RepPolicy) (e₀ : Elem K) : ℕ → ℕ → List (Elem K) → ℕ
  | _, victim, [] => victim
  | i, victim, e :: l => victimFrom policy e₀ (i + 1) (if policy.Below e e₀ then i else victim) l

namespace Dict

/-- The constructor: all places are filled with the word 0. -/
def create [Zero K] (dictSize : ℕ) (policy : RepPolicy) : Dict K :=
  ⟨dictSize, policy, List.replicate dictSize (Elem.init 0 0)⟩

/-- `search_word` -/
def searchWord [DecidableEq K] (d : Dict K) (word : K) : Option ℕ :=
  d.mDict.findIdx? fun e => e.word = word

/-- `update_elem_by_LRU` and `update_elem_by_LFU`: the index, and the new dictionary.
`m_dict[0]` is read first. -/
def updateElem (d : Dict K) (word : K) (time : ℕ) : Option (ℕ × Dict K) :=
  match d.mDict with
  | [] => none
  | e₀ :: l =>
      let victim := victimFrom d.repPolicy e₀ 1 0 l
      some (victim, { d with mDict := d.mDict.set victim (Elem.init word time) })

/-- `update_dict(word, use_time, index)` -/
def updateDict [DecidableEq K] (d : Dict K) (word : K) (time : ℕ) (index : ℤ) :
    Option (ℕ × Dict K) :=
  if 0 ≤ index then
    if index.toNat < d.mDict.length then
      some (index.toNat, { d with mDict := d.mDict.set index.toNat (Elem.init word time) })
    else none
  else
    match d.searchWord word with
    | some i => some (i, { d with mDict := d.mDict.modify i fun e => e.touch time })
    | none =>
        if d.mDict.length < d.maxDictSize then
          some (d.mDict.length, { d with mDict := d.mDict ++ [Elem.init word time] })
        else d.updateElem word time

/-- A change of the element at `index`, which must hold `word`. -/
def atWord [DecidableEq K] (f : Elem K → Elem K) (d : Dict K) (index : ℕ) (word : K) :
    Option (Dict K) :=
  match d.mDict[index]? with
  | some e => if e.word = word then some { d with mDict := d.mDict.set index (f e) } else none
  | none => none

/-- `validate_word` -/
def validateWord [DecidableEq K] : Dict K → ℕ → K → Option (Dict K) :=
  atWord fun e => { e with valid := true }

/-- `hold_word` -/
def holdWord [DecidableEq K] : Dict K → ℕ → K → Option (Dict K) :=
  atWord fun e => { e with hold := true }

/-- `release_word` -/
def releaseWord [DecidableEq K] : Dict K → ℕ → K → Option (Dict K) :=
  atWord fun e => { e with hold := false }

/-- `erase_dict` -/
def eraseDict [DecidableEq K] (d : Dict K) (word : K) : Option (Dict K) :=
  match d.searchWord word with
  | some i => some { d with mDict := d.mDict.modify i fun e => { e with valid := false } }
  | none => none

end Dict

/-- The operations. -/
inductive Op (K : Type) where
  | update (word : K) (time : ℕ) (index : ℤ)
  | hold (index : ℕ) (word : K)
  | release (index : ℕ) (word : K)
  | validate (index : ℕ) (word : K)
  | erase (word : K)
  | search (word : K)
  deriving DecidableEq, Repr

/-- One operation. -/
def Dict.step [DecidableEq K] (d : Dict K) : Op K → Option (Dict K)
  | .update word time index => (d.updateDict word time index).map Prod.snd
  | .hold index word => d.holdWord index word
  | .release index word => d.releaseWord index word
  | .validate index word => d.validateWord index word
  | .erase word => d.eraseDict word
  | .search _ => some d

/-- The states and operations of a run, up to the first that fails. -/
def trace [DecidableEq K] (d : Dict K) : List (Op K) → List (Dict K × Op K)
  | [] => []
  | op :: ops =>
      (d, op) :: match d.step op with
        | some d' => trace d' ops
        | none => []

/-! ## What a replacement should do -/

/-- The element at `k` is not held and used least among those that are not held. -/
def TrueVictim (policy : RepPolicy) (l : List (Elem K)) (k : ℕ) : Prop :=
  ∃ e, l[k]? = some e ∧ e.hold = false ∧
    ∀ (j : ℕ) (e' : Elem K), l[j]? = some e' → e'.hold = false → policy.use e ≤ policy.use e'

/-- A full dictionary that takes a new word puts it at the place of a true victim. -/
def TakesTrueVictim [DecidableEq K] (d : Dict K) : Op K → Prop
  | .update word time index =>
      ∀ k d', d.updateDict word time index = some (k, d') → d.maxDictSize ≤ d.mDict.length →
        d.searchWord word = none →
          d'.mDict = d.mDict.set k (Elem.init word time) ∧ TrueVictim d.repPolicy d.mDict k
  | _ => True

/-- A held element stays, and stays held, unless it is released. -/
def KeepsHeld [DecidableEq K] (d : Dict K) (op : Op K) : Prop :=
  ∀ d', d.step op = some d' → ∀ (j : ℕ) (e : Elem K), d.mDict[j]? = some e → e.hold = true →
    (∀ word, op ≠ .release j word) →
      ∃ e', d'.mDict[j]? = some e' ∧ e'.word = e.word ∧ e'.hold = true

/-- What a step should do. -/
def Right [DecidableEq K] (d : Dict K) (op : Op K) : Prop := TakesTrueVictim d op ∧ KeepsHeld d op

/-! ## When it does -/

/-- The loop picks a true victim: the last element that passes the test is not held and is
used no more than any earlier one that is not held; where none passes it, element 0 is not
held. -/
def Picks (policy : RepPolicy) (l : List (Elem K)) : Prop :=
  ∀ e₀, l[0]? = some e₀ →
    (∀ (i : ℕ) (e : Elem K), l[i]? = some e → policy.Below e e₀ →
      (∀ (j : ℕ) (e' : Elem K), i < j → l[j]? = some e' → ¬ policy.Below e' e₀) →
        e.hold = false ∧ ∀ (j : ℕ) (e' : Elem K), j < i → l[j]? = some e' → e'.hold = false →
          policy.use e ≤ policy.use e') ∧
    ((∀ (i : ℕ) (e : Elem K), l[i]? = some e → ¬ policy.Below e e₀) → e₀.hold = false)

/-- The condition of a step: where the dictionary chooses, `Picks`; where the caller names
the place, what is there is not held and, if a word has to go for a new one, used least. -/
def Meets [DecidableEq K] (d : Dict K) : Op K → Prop
  | .update word _ index =>
      if 0 ≤ index then
        ∀ e, d.mDict[index.toNat]? = some e → e.hold = false ∧
          (d.maxDictSize ≤ d.mDict.length → d.searchWord word = none →
            ∀ (j : ℕ) (e' : Elem K), d.mDict[j]? = some e' → e'.hold = false →
              d.repPolicy.use e ≤ d.repPolicy.use e')
      else d.maxDictSize ≤ d.mDict.length → d.searchWord word = none →
        Picks d.repPolicy d.mDict
  | _ => True

/-! ## The loop -/

section Loop

variable {policy : RepPolicy} {e₀ : Elem K}

theorem RepPolicy.not_below_self : ¬ policy.Below e₀ e₀ := by
  cases policy <;> simp [RepPolicy.Below]

theorem RepPolicy.Below.use_lt {e : Elem K} (h : policy.Below e e₀) :
    policy.use e < policy.use e₀ := by
  cases policy with
  | lru => exact h
  | lfu => exact h.1

/-- An element that is not held and fails the test is used at least as much as element 0. -/
theorem RepPolicy.use_le_of_not_below {e : Elem K} (h : ¬ policy.Below e e₀)
    (hhold : e.hold = false) : policy.use e₀ ≤ policy.use e := by
  cases policy with
  | lru => exact Nat.le_of_not_lt h
  | lfu => exact Nat.le_of_not_lt fun hlt => h ⟨hlt, hhold⟩

/-- The result of the loop from place `i` on: the last element that passes the test, or the
value it started from. -/
theorem victimFrom_cases (i victim : ℕ) (l : List (Elem K)) :
    (∃ n e, l[n]? = some e ∧ policy.Below e e₀ ∧ victimFrom policy e₀ i victim l = i + n ∧
      ∀ (m : ℕ) (e' : Elem K), n < m → l[m]? = some e' → ¬ policy.Below e' e₀) ∨
    ((∀ (m : ℕ) (e' : Elem K), l[m]? = some e' → ¬ policy.Below e' e₀) ∧
      victimFrom policy e₀ i victim l = victim) := by
  induction l generalizing i victim with
  | nil => exact Or.inr ⟨by simp, rfl⟩
  | cons e l ih =>
      rw [victimFrom]
      obtain ⟨n, e', hn, hbelow, heq, hlast⟩ | ⟨hnone, heq⟩ :=
        ih (i + 1) (if policy.Below e e₀ then i else victim)
      · refine Or.inl ⟨n + 1, e', by simpa using hn, hbelow, by omega, fun m e'' hm hget => ?_⟩
        obtain ⟨m, rfl⟩ : ∃ m', m = m' + 1 := ⟨m - 1, by omega⟩
        exact hlast m e'' (by omega) (by simpa using hget)
      · by_cases hbelow : policy.Below e e₀
        · refine Or.inl ⟨0, e, rfl, hbelow, by rw [heq, if_pos hbelow, Nat.add_zero], ?_⟩
          intro m e'' hm hget
          obtain ⟨m, rfl⟩ : ∃ m', m = m' + 1 := ⟨m - 1, by omega⟩
          exact hnone m e'' (by simpa using hget)
        · refine Or.inr ⟨fun m e'' hget => ?_, by rw [heq, if_neg hbelow]⟩
          cases m with
          | zero =>
              obtain rfl : e = e'' := by simpa using hget
              exact hbelow
          | succ m => exact hnone m e'' (by simpa using hget)

/-- The victim is a true one exactly when the elements are as `Picks` says. -/
theorem trueVictim_iff_picks (l : List (Elem K)) :
    TrueVictim policy (e₀ :: l) (victimFrom policy e₀ 1 0 l) ↔ Picks policy (e₀ :: l) := by
  obtain ⟨n, e, hn, hbelow, heq, hlast⟩ | ⟨hnone, heq⟩ :=
    @victimFrom_cases K policy e₀ 1 0 l
  · -- place `n + 1` is the last that passes the test
    have hget : (e₀ :: l)[1 + n]? = some e := by rw [Nat.add_comm]; simpa using hn
    have hlast' : ∀ (j : ℕ) (e' : Elem K), 1 + n < j → (e₀ :: l)[j]? = some e' →
        ¬ policy.Below e' e₀ := by
      intro j e' hj hj'
      obtain ⟨j, rfl⟩ : ∃ k, j = k + 1 := ⟨j - 1, by omega⟩
      exact hlast j e' (by omega) (by simpa using hj')
    rw [heq]
    constructor
    · rintro ⟨e', he', hhold, hmin⟩ e₁ he₁
      obtain rfl : e = e' := by simpa [hget] using he'
      obtain rfl : e₀ = e₁ := by simpa using he₁
      refine ⟨fun i d hi hd hlast_i => ?_, fun hall => absurd hbelow (hall _ _ hget)⟩
      obtain hlt | rfl | hlt := Nat.lt_trichotomy i (1 + n)
      · exact absurd hbelow (hlast_i _ _ hlt hget)
      · obtain rfl : e = d := by simpa [hget] using hi
        exact ⟨hhold, fun j e' _ hj hh => hmin j e' hj hh⟩
      · exact absurd hd (hlast' _ _ hlt hi)
    · intro hpicks
      obtain ⟨hhold, hmin⟩ := (hpicks e₀ rfl).1 (1 + n) e hget hbelow hlast'
      refine ⟨e, hget, hhold, fun j e' hj hh => ?_⟩
      obtain hlt | rfl | hlt := Nat.lt_trichotomy j (1 + n)
      · exact hmin j e' hlt hj hh
      · obtain rfl : e = e' := by simpa [hget] using hj
        exact Nat.le_refl _
      · have := RepPolicy.use_le_of_not_below (hlast' j e' hlt hj) hh
        exact Nat.le_of_lt (Nat.lt_of_lt_of_le hbelow.use_lt this)
  · -- no element passes it, and the default stays
    have hnone' : ∀ (j : ℕ) (e' : Elem K), (e₀ :: l)[j]? = some e' → ¬ policy.Below e' e₀ := by
      intro j e' hj
      cases j with
      | zero =>
          obtain rfl : e₀ = e' := by simpa using hj
          exact RepPolicy.not_below_self
      | succ j => exact hnone j e' (by simpa using hj)
    rw [heq]
    constructor
    · rintro ⟨e', he', hhold, -⟩ e₁ he₁
      obtain rfl : e₀ = e' := by simpa using he'
      obtain rfl : e₀ = e₁ := by simpa using he₁
      exact ⟨fun i d hi hd _ => absurd hd (hnone' i d hi), fun _ => hhold⟩
    · intro hpicks
      refine ⟨e₀, rfl, (hpicks e₀ rfl).2 hnone', fun j e' hj hh => ?_⟩
      exact RepPolicy.use_le_of_not_below (hnone' j e' hj) hh

theorem victimFrom_lt (l : List (Elem K)) : victimFrom policy e₀ 1 0 l < l.length + 1 := by
  obtain ⟨n, e, hn, -, heq, -⟩ | ⟨-, heq⟩ :=
    @victimFrom_cases K policy e₀ 1 0 l
  · have := (List.getElem?_eq_some_iff.1 hn).1
    omega
  · omega

end Loop

/-! ## One step -/

section Step

variable [DecidableEq K] {d : Dict K} {word : K} {time : ℕ} {index : ℤ} {k : ℕ}

/-- An update that overwrites place `k` keeps what is held exactly when `k` is not held. -/
theorem keepsHeld_update_iff (hk : k < d.mDict.length)
    (h : d.updateDict word time index =
      some (k, { d with mDict := d.mDict.set k (Elem.init word time) })) :
    KeepsHeld d (.update word time index) ↔ ∀ e, d.mDict[k]? = some e → e.hold = false := by
  have hstep : d.step (.update word time index) =
      some { d with mDict := d.mDict.set k (Elem.init word time) } := by
    rw [Dict.step, h]
    rfl
  constructor
  · intro hkeep e he
    by_contra hhold
    obtain ⟨e', he', -, hhold'⟩ := hkeep _ hstep k e he (by simpa using hhold) (by simp)
    rw [List.getElem?_set_self hk] at he'
    obtain rfl : Elem.init word time = e' := by simpa using he'
    simp [Elem.init] at hhold'
  · intro hfree d' hd' j e he hhold _
    rw [hstep] at hd'
    obtain rfl := Option.some.inj hd'
    by_cases hj : k = j
    · subst hj
      simp [hfree e he] at hhold
    · exact ⟨e, by rw [List.getElem?_set_ne hj]; exact he, rfl, hhold⟩

/-- An update that overwrites no element keeps what is held. -/
theorem keepsHeld_update_of_kept
    (h : ∀ d', d.step (.update word time index) = some d' → ∀ (j : ℕ) (e : Elem K),
      d.mDict[j]? = some e → ∃ e', d'.mDict[j]? = some e' ∧ e'.word = e.word ∧ e'.hold = e.hold) :
    KeepsHeld d (.update word time index) := by
  intro d' hd' j e he hhold _
  obtain ⟨e', he', hword, hhold'⟩ := h d' hd' j e he
  exact ⟨e', he', hword, hhold'.trans hhold⟩

/-- A caller names the place. -/
theorem right_update_at (hindex : 0 ≤ index) :
    Right d (.update word time index) ↔ Meets d (.update word time index) := by
  rw [Meets, if_pos hindex]
  by_cases hlt : index.toNat < d.mDict.length
  · have hupdate : d.updateDict word time index = some
        (index.toNat, { d with mDict := d.mDict.set index.toNat (Elem.init word time) }) := by
      rw [Dict.updateDict, if_pos hindex, if_pos hlt]
    have hget : d.mDict[index.toNat]? = some d.mDict[index.toNat] := List.getElem?_eq_getElem hlt
    rw [Right, keepsHeld_update_iff hlt hupdate]
    constructor
    · rintro ⟨htake, hfree⟩ e he
      refine ⟨hfree e he, fun hfull hnew => ?_⟩
      obtain ⟨-, e', he', -, hmin⟩ := htake _ _ hupdate hfull hnew
      obtain rfl : e = e' := by simpa [he] using he'
      exact hmin
    · intro hmeets
      refine ⟨?_, fun e he => (hmeets e he).1⟩
      intro k d' hd' hfull hnew
      rw [hupdate] at hd'
      obtain ⟨rfl, rfl⟩ := Prod.mk.inj (Option.some.inj hd')
      exact ⟨rfl, _, hget, (hmeets _ hget).1, (hmeets _ hget).2 hfull hnew⟩
  · have hupdate : d.updateDict word time index = none := by
      rw [Dict.updateDict, if_pos hindex, if_neg hlt]
    have hnone : d.mDict[index.toNat]? = none := List.getElem?_eq_none (by omega)
    simp [Right, TakesTrueVictim, KeepsHeld, Dict.step, hupdate, hnone]

/-- The dictionary is full and chooses the place of a new word. -/
theorem right_updateElem (hindex : ¬ 0 ≤ index) (hfull : d.maxDictSize ≤ d.mDict.length)
    (hnew : d.searchWord word = none) :
    Right d (.update word time index) ↔ Picks d.repPolicy d.mDict := by
  have hupdate : d.updateDict word time index = d.updateElem word time := by
    rw [Dict.updateDict, if_neg hindex, hnew]
    exact if_neg (Nat.not_lt.2 hfull)
  obtain ⟨maxDictSize, policy, l⟩ := d
  cases l with
  | nil =>
      have hnone : Dict.updateDict ⟨maxDictSize, policy, []⟩ word time index = none := hupdate
      simp [Right, TakesTrueVictim, KeepsHeld, Dict.step, hnone, Picks]
  | cons e₀ l =>
      have hlt := @victimFrom_lt K policy e₀ l
      rw [Right, keepsHeld_update_iff (by simpa using hlt) hupdate, ← trueVictim_iff_picks]
      constructor
      · rintro ⟨htake, -⟩
        exact (htake _ _ hupdate hfull hnew).2
      · intro htrue
        obtain ⟨e, he, hhold, -⟩ := id htrue
        refine ⟨?_, fun e' he' => ?_⟩
        · intro k d' hd' _ _
          rw [hupdate] at hd'
          obtain ⟨rfl, rfl⟩ := Prod.mk.inj (Option.some.inj hd')
          exact ⟨rfl, htrue⟩
        · obtain rfl : e = e' := by simpa [he] using he'
          exact hhold

/-- A word that is there, or that finds a free place: nothing is replaced. -/
theorem right_update_of_room (hindex : ¬ 0 ≤ index)
    (hroom : ¬ (d.maxDictSize ≤ d.mDict.length ∧ d.searchWord word = none)) :
    Right d (.update word time index) := by
  constructor
  · intro k d' _ hfull hnew
    exact absurd ⟨hfull, hnew⟩ hroom
  · apply keepsHeld_update_of_kept
    intro d' hd' j e he
    rw [Dict.step, Dict.updateDict, if_neg hindex] at hd'
    cases hsearch : d.searchWord word with
    | some i =>
        rw [hsearch] at hd'
        obtain rfl := Option.some.inj hd'
        refine ⟨if i = j then e.touch time else e, ?_, ?_⟩
        · simp [List.getElem?_modify, he]
        · split <;> exact ⟨rfl, rfl⟩
    | none =>
        have hlt : d.mDict.length < d.maxDictSize := by
          apply Nat.lt_of_not_le
          exact fun hle => hroom ⟨hle, hsearch⟩
        simp only [hsearch, if_pos hlt] at hd'
        obtain rfl := Option.some.inj hd'
        have hj := (List.getElem?_eq_some_iff.1 he).1
        exact ⟨e, by rw [List.getElem?_append_left hj]; exact he, rfl, rfl⟩

/-- `validate_word`, `hold_word` and `release_word` touch the element at their index. -/
theorem getElem?_atWord {f : Elem K → Elem K} {d' : Dict K} {i j : ℕ} {e : Elem K}
    (h : Dict.atWord f d i word = some d') (he : d.mDict[j]? = some e) :
    d'.mDict[j]? = some (if i = j then f e else e) := by
  rw [Dict.atWord] at h
  cases hget : d.mDict[i]? with
  | none => simp [hget] at h
  | some e₁ =>
      simp only [hget] at h
      split at h
      · obtain rfl := Option.some.inj h
        by_cases hij : i = j
        · subst hij
          obtain rfl : e = e₁ := by simpa [he] using hget
          rw [List.getElem?_set_self (List.getElem?_eq_some_iff.1 he).1, if_pos rfl]
        · rw [List.getElem?_set_ne hij, if_neg hij]
          exact he
      · simp at h

/-- An operation does what it should exactly when its condition holds. -/
theorem right_iff_meets (d : Dict K) (op : Op K) : Right d op ↔ Meets d op := by
  cases op with
  | update word time index =>
      by_cases hindex : 0 ≤ index
      · exact right_update_at hindex
      · rw [Meets, if_neg hindex]
        by_cases hfull : d.maxDictSize ≤ d.mDict.length ∧ d.searchWord word = none
        · rw [right_updateElem hindex hfull.1 hfull.2]
          exact ⟨fun h _ _ => h, fun h => h hfull.1 hfull.2⟩
        · have hright := @right_update_of_room K _ d word time index hindex hfull
          exact ⟨fun _ hle hnew => absurd ⟨hle, hnew⟩ hfull, fun _ => hright⟩
  | hold i word =>
      refine ⟨fun _ => trivial, fun _ => ⟨trivial, fun d' hd' j e he hhold _ => ?_⟩⟩
      refine ⟨_, getElem?_atWord hd' he, ?_⟩
      split <;> exact ⟨rfl, by simp [hhold]⟩
  | release i word =>
      refine ⟨fun _ => trivial, fun _ => ⟨trivial, fun d' hd' j e he hhold hne => ?_⟩⟩
      refine ⟨_, getElem?_atWord hd' he, ?_⟩
      rw [if_neg fun hij => hne word (by rw [hij])]
      exact ⟨rfl, hhold⟩
  | validate i word =>
      refine ⟨fun _ => trivial, fun _ => ⟨trivial, fun d' hd' j e he hhold _ => ?_⟩⟩
      refine ⟨_, getElem?_atWord hd' he, ?_⟩
      split <;> exact ⟨rfl, by simp [hhold]⟩
  | erase word =>
      refine ⟨fun _ => trivial, fun _ => ⟨trivial, fun d' hd' j e he hhold _ => ?_⟩⟩
      rw [Dict.step, Dict.eraseDict] at hd'
      cases hsearch : d.searchWord word with
      | none => simp [hsearch] at hd'
      | some i =>
          rw [hsearch] at hd'
          obtain rfl := Option.some.inj hd'
          refine ⟨if i = j then { e with valid := false } else e, ?_, ?_⟩
          · simp [List.getElem?_modify, he]
          · split <;> exact ⟨rfl, by simp [hhold]⟩
  | search word =>
      refine ⟨fun _ => trivial, fun _ => ⟨trivial, fun d' hd' j e he hhold _ => ?_⟩⟩
      obtain rfl := Option.some.inj hd'
      exact ⟨e, he, rfl, hhold⟩

end Step

/-! ## Runs -/

section Runs

variable [DecidableEq K]

/-- From every state, for every sequence of operations: all replacements take a true victim
and no held word goes before its release, exactly when every step meets its condition. -/
theorem replaceRight_iff (d : Dict K) (ops : List (Op K)) :
    (∀ s ∈ trace d ops, TakesTrueVictim s.1 s.2 ∧ KeepsHeld s.1 s.2) ↔
      ∀ s ∈ trace d ops, Meets s.1 s.2 := by
  constructor
  · intro h s hs
    exact (right_iff_meets s.1 s.2).1 (h s hs)
  · intro h s hs
    exact (right_iff_meets s.1 s.2).2 (h s hs)

/-- Three places, no one held: word 1 is used three times, word 2 twice, the place between them
once. A new word takes the place of word 2. -/
theorem not_replaceRight : ¬ ∀ (ops : List (Op ℕ)),
    ∀ s ∈ trace (Dict.create 3 .lfu) ops, TakesTrueVictim s.1 s.2 ∧ KeepsHeld s.1 s.2 := by
  intro h
  let ops : List (Op ℕ) :=
    [.update 1 0 (-1), .update 1 0 (-1), .update 2 0 (-1), .update 1 0 (-1), .update 2 0 (-1),
      .update 9 0 (-1)]
  let d : Dict ℕ :=
    ⟨3, .lfu, [⟨1, 0, 3, false, false⟩, ⟨0, 0, 1, false, false⟩, ⟨2, 0, 2, false, false⟩]⟩
  have hmem : (d, Op.update 9 0 (-1)) ∈ trace (Dict.create 3 .lfu) ops := by decide
  have hpicks : Picks .lfu d.mDict :=
    (right_iff_meets d (.update 9 0 (-1))).1 (h ops _ hmem) (by decide) (by decide)
  have hmin := ((hpicks _ rfl).1 2 _ rfl (by decide) fun j e' hj he' => by
    have := (List.getElem?_eq_some_iff.1 he').1
    simp [d] at this
    omega).2 1 _ (by decide) rfl rfl
  simp [RepPolicy.use] at hmin

/-- The states of a run. -/
def runDict (d : Dict K) : List (Op K) → Option (Dict K)
  | [] => some d
  | op :: ops => (d.step op).bind fun d' => runDict d' ops

/-- Along a run whose steps meet their conditions, an element that is held stays where it is
with its word, as long as its place is not released. -/
theorem heldWord_kept {d d' : Dict K} {ops : List (Op K)} (hrun : runDict d ops = some d')
    (hmeets : ∀ s ∈ trace d ops, Meets s.1 s.2) {j : ℕ} {e : Elem K} (he : d.mDict[j]? = some e)
    (hhold : e.hold = true) (hfree : ∀ word, Op.release j word ∉ ops) :
    ∃ e', d'.mDict[j]? = some e' ∧ e'.word = e.word ∧ e'.hold = true := by
  induction ops generalizing d e with
  | nil =>
      obtain rfl := Option.some.inj hrun
      exact ⟨e, he, rfl, hhold⟩
  | cons op ops ih =>
      cases hstep : d.step op with
      | none => simp [runDict, hstep] at hrun
      | some d₁ =>
          simp only [runDict, hstep, Option.bind_some] at hrun
          simp only [trace, hstep, List.mem_cons, forall_eq_or_imp] at hmeets
          have hkeep := ((right_iff_meets d op).2 hmeets.1).2
          obtain ⟨e₁, he₁, hword, hhold₁⟩ := hkeep d₁ hstep j e he hhold
            fun word heq => hfree word (by simp [heq])
          obtain ⟨e', he', hword', hhold'⟩ := ih hrun hmeets.2 he₁ hhold₁
            fun word hmem => hfree word (by simp [hmem])
          exact ⟨e', he', hword'.trans hword, hhold'⟩

end Runs

end CompressionWork.HpclDict
