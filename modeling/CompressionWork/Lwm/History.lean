import CompressionWork.Lwm.Compress

/-!
# Local word matching: a line after other lines

`hpcl_comp_lwm_pl_proc::run` takes its dictionaries from the packet: `mem_fetch` holds one for the
original data and one for each remapped form, made by the first run that needs it. `clear` empties
the entries and keeps `m_last_max_word_loc`, which decides the width of the pointers under
`hpcl_dict_size_opt_en`.

* `runForms`, `run` — one packet: its data and its remapped data.
* `runAll` — the packets that a compressor has seen.
* `runLwmAlgo_raise` — a greater location to start from raises the greatest location at the end and
  does nothing else.
* `runLwmAlgo_again` — the dictionary that a line leaves changes nothing for that line.
* `reports_history_independent` — so a history of packets leaves no trace in a later report.

The compressor's own `m_loc_dict` is never read by `run`, so it is left out.
-/

namespace CompressionWork.Lwm

/-! ## The packets -/

/-- The switches of the configuration; `hybridParl` leaves the remapped data alone. -/
structure LwmConfig where
  k : ℕ
  dataSegmentSize : ℕ
  dictSizeOptEn : Bool
  hybridParl : Bool

/-- The line of a `mem_fetch` and its remapped forms. -/
structure PacketData where
  realData : List UInt8
  transData : List (List UInt8)

/-- `get_loc_dict` (form 0) and `get_trans_loc_dict` (form `i + 1`) of every packet; `none` is the
null pointer. -/
abbrev DictStore := ℕ → ℕ → Option (Dict ℕ)

/-- What a run sets in the packet for one form. -/
structure Report where
  tokens : List (Token ℕ)
  compDataBits : ℤ

/-- The loop on one form, with the dictionary of the packet or a new one. -/
def formState (cfg : LwmConfig) (locDict : Option (Dict ℕ)) (cacheData : List UInt8) : LwmState ℕ :=
  runLwmAlgo cfg.k cfg.dataSegmentSize (locDict.getD Dict.empty).clear
    (decomposeData cfg.k cacheData)

/-- `run_comp_for_org_data`, `run_comp_for_remapped_data` -/
def formReport (cfg : LwmConfig) (locDict : Option (Dict ℕ)) (cacheData : List UInt8) : Report where
  tokens := (formState cfg locDict cacheData).tokens
  compDataBits := runComp cfg.k cfg.dataSegmentSize cfg.dictSizeOptEn (locDict.getD Dict.empty)
    (decomposeData cfg.k cacheData)

/-- The forms that `run` compresses, with their data. -/
def PacketData.forms (cfg : LwmConfig) (p : PacketData) : List (List UInt8 × ℕ) :=
  if p.realData = [] then []
  else (p.realData :: if cfg.hybridParl then [] else p.transData).zipIdx

/-- The forms of packet `id` one by one. -/
def runForms (cfg : LwmConfig) (id : ℕ) :
    DictStore → List (List UInt8 × ℕ) → List Report × DictStore
  | store, [] => ([], store)
  | store, f :: forms =>
      let report := formReport cfg (store id f.2) f.1
      let locDict := (formState cfg (store id f.2) f.1).locDict
      let rest := runForms cfg id
        (fun i j => if i = id ∧ j = f.2 then some locDict else store i j) forms
      (report :: rest.1, rest.2)

/-- `run` on packet `id`. -/
def run (cfg : LwmConfig) (packets : ℕ → PacketData) (store : DictStore) (id : ℕ) :
    List Report × DictStore :=
  runForms cfg id store ((packets id).forms cfg)

/-- The dictionaries after the packets of a history, in this order. -/
def runAll (cfg : LwmConfig) (packets : ℕ → PacketData) (store : DictStore) (history : List ℕ) :
    DictStore :=
  history.foldl (fun store id => (run cfg packets store id).2) store

/-- The reports of a line that comes without dictionaries. -/
def lineReports (cfg : LwmConfig) (p : PacketData) : List Report :=
  (p.forms cfg).map fun f => formReport cfg none f.1

/-! ## The greatest location -/

section Raise

variable {K : Type} [DecidableEq K]

/-- The same dictionary, started from a greater location. -/
def Dict.raise (a : ℤ) (d : Dict K) : Dict K := { d with lastMaxWordLoc := max a d.lastMaxWordLoc }

/-- The places in the dictionary move up by `a`. -/
def LwmState.raise (a : ℤ) (st : LwmState K) : LwmState K :=
  { st with locDict := st.locDict.raise a }

theorem updateDict_raise (a : ℤ) (d : Dict K) (word : K) :
    (d.raise a).updateDict word = ((d.updateDict word).1, (d.updateDict word).2.raise a) := by
  have hsearch : (d.raise a).searchWord word = d.searchWord word := rfl
  have hused : (d.raise a).leastUsedIndex = d.leastUsedIndex := rfl
  unfold Dict.updateDict
  rw [hsearch]
  cases d.searchWord word with
  | some i => rfl
  | none =>
      dsimp only
      rw [hused]
      by_cases hlt : d.mDict.length < maxDictSize
      · rw [if_pos hlt, if_pos (show (d.raise a).mDict.length < maxDictSize from hlt)]
        rfl
      · rw [if_neg hlt, if_neg (show ¬ (d.raise a).mDict.length < maxDictSize from hlt)]
        rfl

/-- One word: the same token, and the greater of the two locations. -/
theorem matchWord_raise (a : ℤ) (d : Dict K) (i : ℕ) (word : K) :
    matchWord (d.raise a) i word = ((matchWord d i word).1, (matchWord d i word).2.raise a) := by
  have hsearch : (d.raise a).searchWord word = d.searchWord word := rfl
  unfold matchWord
  rw [hsearch, updateDict_raise]
  cases d.searchWord word with
  | none => rfl
  | some j =>
      have hloc : ((d.updateDict word).2.raise a).getWordLoc j =
          (d.updateDict word).2.getWordLoc j := rfl
      simp only [hloc]
      refine Prod.ext rfl ?_
      generalize (d.updateDict word).2 = d', (d.updateDict word).2.getWordLoc j = loc
      simp only [Dict.raise]
      by_cases hlt : d'.lastMaxWordLoc < loc <;> by_cases hmax : max a d'.lastMaxWordLoc < loc <;>
        simp only [hlt, hmax, if_true, if_false, Dict.mk.injEq, true_and] <;> omega

theorem round_raise (a : ℤ) (k dataSegmentSize ptrBits : ℕ) (st : LwmState K) (p : ℕ × K) :
    round k dataSegmentSize ptrBits (st.raise a) p =
      (round k dataSegmentSize ptrBits st p).raise a := by
  have hmatch : matchWord (st.raise a).locDict p.1 p.2 =
      ((matchWord st.locDict p.1 p.2).1, (matchWord st.locDict p.1 p.2).2.raise a) :=
    matchWord_raise a st.locDict p.1 p.2
  simp only [round, hmatch]
  rfl

theorem runLwmAlgo_raise (a : ℤ) (k dataSegmentSize : ℕ) (d : Dict K) (words : List K) :
    runLwmAlgo k dataSegmentSize (d.raise a) words =
      (runLwmAlgo k dataSegmentSize d words).raise a := by
  have hfold : ∀ (ps : List (ℕ × K)) (st : LwmState K),
      ps.foldl (round k dataSegmentSize (dataPtrBits words.length)) (st.raise a) =
        (ps.foldl (round k dataSegmentSize (dataPtrBits words.length)) st).raise a := by
    intro ps
    induction ps with
    | nil => intro st; rfl
    | cons p ps ih =>
        intro st
        rw [List.foldl_cons, List.foldl_cons, round_raise, ih]
  exact hfold _
    { locDict := d
      tokens := []
      compBitSize := 1 + 3 + 2
      compBitsOnly := 0
      matchingWordNo := 0
      compDsBits := List.replicate (words.length * k / dataSegmentSize) (-1)
      compDsMatchWordNo := List.replicate (words.length * k / dataSegmentSize) 0
      noCompDsRatio := List.replicate (words.length * k / dataSegmentSize) 1 }

/-- The greatest location at the end is not less than the one at the start. -/
theorem lastMaxWordLoc_le_runLwmAlgo (k dataSegmentSize : ℕ) (d : Dict K) (words : List K) :
    d.lastMaxWordLoc ≤ (runLwmAlgo k dataSegmentSize d words).locDict.lastMaxWordLoc := by
  have hself : d.raise d.lastMaxWordLoc = d := by
    simp [Dict.raise]
  have hraise := runLwmAlgo_raise d.lastMaxWordLoc k dataSegmentSize d words
  rw [hself] at hraise
  rw [hraise]
  exact Int.le_max_left _ _

/-- **The dictionary that a line leaves** changes nothing when the same line comes again. -/
theorem runLwmAlgo_again (k dataSegmentSize : ℕ) (d : Dict K) (words : List K) :
    runLwmAlgo k dataSegmentSize (runLwmAlgo k dataSegmentSize d.clear words).locDict.clear words =
      runLwmAlgo k dataSegmentSize d.clear words := by
  have hle := lastMaxWordLoc_le_runLwmAlgo k dataSegmentSize d.clear words
  generalize hst : runLwmAlgo k dataSegmentSize d.clear words = st at hle
  have hclear : st.locDict.clear = d.clear.raise st.locDict.lastMaxWordLoc := by
    simp only [Dict.clear, Dict.raise, Dict.mk.injEq, true_and]
    exact (Int.max_eq_left hle).symm
  rw [hclear, runLwmAlgo_raise, hst]
  simp [LwmState.raise, Dict.raise]

end Raise

/-! ## Histories -/

section History

variable {cfg : LwmConfig} {packets : ℕ → PacketData} {store₀ store : DictStore}

/-- The data of a form. -/
def PacketData.form (p : PacketData) (j : ℕ) : List UInt8 := ((p.realData :: p.transData)[j]?).getD []

theorem form_of_mem_forms {p : PacketData} {f : List UInt8 × ℕ} (h : f ∈ p.forms cfg) :
    p.form f.2 = f.1 := by
  unfold PacketData.forms at h
  split at h
  · simp at h
  · rw [List.mem_zipIdx_iff_getElem?] at h
    cases hybrid : cfg.hybridParl with
    | true =>
        rw [hybrid] at h
        obtain ⟨data, j⟩ := f
        cases j with
        | zero => simpa [PacketData.form] using h
        | succ j => simp at h
    | false =>
        simp only [hybrid, Bool.false_eq_true, if_false] at h
        rw [PacketData.form, h]
        rfl

/-- The loop does the same on every form as it did from the first store. -/
def SameStates (cfg : LwmConfig) (packets : ℕ → PacketData) (store₀ store : DictStore) : Prop :=
  ∀ id j, formState cfg (store id j) ((packets id).form j) =
    formState cfg (store₀ id j) ((packets id).form j)

/-- The reported bits are read off the state of the loop. -/
theorem formReport_congr {d d' : Option (Dict ℕ)} {data : List UInt8}
    (h : formState cfg d data = formState cfg d' data) :
    formReport cfg d data = formReport cfg d' data := by
  unfold formState at h
  simp only [formReport, formState, runComp, h]

/-- One run keeps what the loop does, and reports what it would have reported. -/
theorem SameStates.runForms (h : SameStates cfg packets store₀ store) (id : ℕ)
    {forms : List (List UInt8 × ℕ)} (hforms : ∀ f ∈ forms, (packets id).form f.2 = f.1) :
    SameStates cfg packets store₀ (runForms cfg id store forms).2 ∧
      (Lwm.runForms cfg id store forms).1 =
        forms.map fun f => formReport cfg (store₀ id f.2) f.1 := by
  induction forms generalizing store with
  | nil => exact ⟨h, rfl⟩
  | cons f forms ih =>
      have hdata := hforms f (by simp)
      have hreport : formReport cfg (store id f.2) f.1 = formReport cfg (store₀ id f.2) f.1 := by
        apply formReport_congr
        rw [← hdata]
        exact h id f.2
      have hnext : SameStates cfg packets store₀ fun i j => if i = id ∧ j = f.2 then
          some (formState cfg (store id f.2) f.1).locDict else store i j := by
        intro i j
        dsimp only
        by_cases hij : i = id ∧ j = f.2
        · obtain ⟨rfl, rfl⟩ := hij
          rw [if_pos ⟨rfl, rfl⟩, ← h, hdata]
          exact runLwmAlgo_again ..
        · rw [if_neg hij]
          exact h i j
      obtain ⟨hsame, hreports⟩ := ih hnext fun g hg => hforms g (by simp [hg])
      refine ⟨hsame, ?_⟩
      simp only [Lwm.runForms, List.map_cons, hreports, hreport]

theorem sameStates_runAll (h : SameStates cfg packets store₀ store) (history : List ℕ) :
    SameStates cfg packets store₀ (runAll cfg packets store history) := by
  induction history generalizing store with
  | nil => exact h
  | cons id history ih =>
      apply ih
      exact (h.runForms id fun f hf => form_of_mem_forms hf).1

/-- After every history the reports of a packet are those of a compressor that has seen none; for a
packet without dictionaries they depend on its line alone. -/
theorem reports_history_independent (cfg : LwmConfig) (packets : ℕ → PacketData)
    (store : DictStore) (history : List ℕ) (id : ℕ) :
    (run cfg packets (runAll cfg packets store history) id).1 = (run cfg packets store id).1 ∧
      ((∀ j, store id j = none) →
        (run cfg packets (runAll cfg packets store history) id).1 =
          lineReports cfg (packets id)) := by
  have hforms : ∀ f ∈ (packets id).forms cfg, (packets id).form f.2 = f.1 :=
    fun f hf => form_of_mem_forms hf
  have hfirst : SameStates cfg packets store store := fun _ _ => rfl
  have hlater := ((sameStates_runAll hfirst history).runForms id hforms).2
  refine ⟨hlater.trans (hfirst.runForms id hforms).2.symm, fun hnew => ?_⟩
  rw [run, hlater, lineReports]
  simp only [hnew]

theorem reports_history_independent_twoLines :
    (run ⟨2, 32, true, true⟩ (fun id => ⟨if id = 0 then [1, 0, 2, 0, 2, 0, 1, 0] else [1, 0, 1, 0], []⟩)
        (runAll ⟨2, 32, true, true⟩
          (fun id => ⟨if id = 0 then [1, 0, 2, 0, 2, 0, 1, 0] else [1, 0, 1, 0], []⟩)
          (fun _ _ => none) [0]) 1).1 =
      lineReports ⟨2, 32, true, true⟩ ⟨[1, 0, 1, 0], []⟩ :=
  (reports_history_independent ⟨2, 32, true, true⟩
    (fun id => ⟨if id = 0 then [1, 0, 2, 0, 2, 0, 1, 0] else [1, 0, 1, 0], []⟩)
    (fun _ _ => none) [0] 1).2 fun _ => rfl

end History

end CompressionWork.Lwm
