import CompressionWork.Codec.TokenStream
import CompressionWork.Lwm.Compress

/-!
# LWM is lossless and its pointers fit

The decoder keeps a dictionary of its own and updates it with every word it has decoded.

* `tokenBits` — a flag bit and a raw word, or a flag bit and a pointer.  `Kind` says which
  pointer is sent: the index in the dictionary or the location in the line.
* `resolve_matchWord` — one token under the encoder's dictionary gives its word back.
* `ptr_bounds` — every pointer lies before the word it stands for, and below the greatest
  matched location.
* `runLwmAlgo_lossless` — the whole line, for every word size and either pointer width.
-/

namespace CompressionWork.Lwm

open Codec

/-! ## The words of a line -/

/-- The `k` bytes of a word, least significant byte first. -/
def bytesOfWord : ℕ → ℕ → List UInt8
  | 0, _ => []
  | k + 1, w => UInt8.ofNat w :: bytesOfWord k (w / 2 ^ 8)

theorem wordOfBytes_cons (b : UInt8) (bytes : List UInt8) :
    wordOfBytes (b :: bytes) = b.toNat + wordOfBytes bytes * 2 ^ 8 := rfl

theorem wordOfBytes_lt (bytes : List UInt8) : wordOfBytes bytes < 2 ^ (8 * bytes.length) := by
  induction bytes with
  | nil => simp [wordOfBytes]
  | cons b bytes ih =>
      have hb := b.toNat_lt
      rw [wordOfBytes_cons, List.length_cons, Nat.mul_succ, Nat.pow_add]
      omega

theorem bytesOfWord_wordOfBytes (bytes : List UInt8) :
    bytesOfWord bytes.length (wordOfBytes bytes) = bytes := by
  induction bytes with
  | nil => rfl
  | cons b bytes ih =>
      have hb := b.toNat_lt
      have hdiv : (b.toNat + wordOfBytes bytes * 2 ^ 8) / 2 ^ 8 = wordOfBytes bytes := by omega
      have hlow : UInt8.ofNat (b.toNat + wordOfBytes bytes * 2 ^ 8) = b := by
        apply UInt8.toNat_inj.1
        rw [UInt8.toNat_ofNat']
        omega
      rw [List.length_cons, wordOfBytes_cons, bytesOfWord, hdiv, ih, hlow]

/-- The words of a line make up the line. -/
theorem flatMap_decomposeData {k n : ℕ} (hk : 0 < k) {cacheData : List UInt8}
    (h : cacheData.length = k * n) :
    (decomposeData k cacheData).flatMap (bytesOfWord k) = cacheData := by
  rw [decomposeData, List.flatMap_map, List.flatMap_def,
    List.map_congr_left (g := id) fun bytes hb => ?_, List.map_id, flatten_chunks hk h]
  rw [← length_of_mem_chunks hk h hb]
  exact bytesOfWord_wordOfBytes bytes

theorem decomposeData_lt {k n : ℕ} (hk : 0 < k) {cacheData : List UInt8}
    (h : cacheData.length = k * n) {w : ℕ} (hw : w ∈ decomposeData k cacheData) :
    w < 2 ^ (8 * k) := by
  obtain ⟨bytes, hb, rfl⟩ := List.mem_map.1 hw
  have hlt := wordOfBytes_lt bytes
  rwa [length_of_mem_chunks hk h hb] at hlt

theorem length_decomposeData {k n : ℕ} (hk : 0 < k) {cacheData : List UInt8}
    (h : cacheData.length = k * n) : (decomposeData k cacheData).length = n := by
  rw [decomposeData, List.length_map, length_chunks hk h]

/-! ## Encoder and decoder states -/

section

variable {K : Type} [DecidableEq K]

/-- Either side keeps a dictionary and the words so far. -/
abbrev Side (K : Type) := Dict K × List K

/-- One round of the encoder. -/
def encodeWord (s : Side K) (word : K) : Token K × Side K :=
  let m := matchWord s.1 s.2.length word
  (m.1, (m.2, s.2 ++ [word]))

/-- Which pointer is sent for a match. -/
inductive Kind where
  | index
  | location
  deriving DecidableEq

/-- What the decoder receives for a token. -/
inductive Received (K : Type) where
  | raw (word : K)
  | ptr (p : ℕ)

/-- The pointer of a match. -/
def Kind.ptr : Kind → ℕ → ℤ → ℕ
  | .index, wordIndex, _ => wordIndex
  | .location, _, wordLoc => wordLoc.toNat

/-- What the receiver gets for a token. -/
def Kind.send (kind : Kind) : Token K → Received K
  | .raw word => .raw word
  | .ptr wordIndex wordLoc => .ptr (kind.ptr wordIndex wordLoc)

/-- The word a received token stands for. -/
def resolve (kind : Kind) (s : Side K) : Received K → Option K
  | .raw word => some word
  | .ptr p =>
      match kind with
      | .index => (s.1.mDict[p]?).map Elem.word
      | .location => s.2[p]?

/-- One round of the decoder: it looks the word up and updates its dictionary with it. -/
def decodeWord (kind : Kind) (s : Side K) (r : Received K) : Option (K × Side K) :=
  (resolve kind s r).map fun word => (word, (encodeWord s word).2)

variable {d : Dict K} {line : List K} {word : K}

/-- What a match sends. -/
theorem matchWord_found {i wordIndex : ℕ} (h : Located d line)
    (hs : d.searchWord word = some wordIndex) :
    ∃ loc : ℕ, (matchWord d i word).1 = .ptr wordIndex loc ∧ wordIndex ≤ loc ∧
      (line)[loc]? = some word ∧ (loc : ℤ) ≤ (matchWord d i word).2.lastMaxWordLoc := by
  obtain ⟨e, he, rfl⟩ := getElem?_of_searchWord hs
  obtain ⟨loc, hloc, hle, hword⟩ := h wordIndex e he
  have hget : (d.updateDict e.word).2.getWordLoc wordIndex = loc := by
    simp [Dict.updateDict, hs, Dict.getWordLoc, he, hloc]
  refine ⟨loc, ?_, hle, hword, ?_⟩
  · simp only [matchWord, hs, hget]
  · simp only [matchWord, hs, hget]
    split
    · exact le_refl _
    · omega

/-- The invariant after a round. -/
theorem located_encodeWord {s : Side K} (h : Located s.1 s.2) (word : K) :
    Located (encodeWord s word).2.1 (encodeWord s word).2.2 := by
  simp only [encodeWord, matchWord]
  cases hs : s.1.searchWord word with
  | some i =>
      have hseen := located_updateDict_seen h hs
      dsimp only
      split
      · exact hseen
      · exact hseen
  | none => exact located_updateDict_new h hs

/-- **A token gives its word back** under the encoder's own dictionary. -/
theorem resolve_matchWord (kind : Kind) {s : Side K} (h : Located s.1 s.2) (word : K) :
    resolve kind s (kind.send (encodeWord s word).1) = some word := by
  simp only [encodeWord]
  cases hs : s.1.searchWord word with
  | some wordIndex =>
      obtain ⟨loc, htok, -, hword, -⟩ := matchWord_found (i := s.2.length) h hs
      rw [htok]
      cases kind with
      | index =>
          obtain ⟨e, he, rfl⟩ := getElem?_of_searchWord hs
          simp [Kind.send, Kind.ptr, resolve, he]
      | location => simpa [Kind.send, Kind.ptr, resolve] using hword
  | none => simp [matchWord, hs, Kind.send, resolve]

/-- **The decoder follows the encoder** through a whole line. -/
theorem decodeRun_tokens (kind : Kind) (words : List K) {s : Side K} (h : Located s.1 s.2) :
    (decodeRun (decodeWord kind) s (((encodeRun encodeWord s words).1).map kind.send)).map
      Prod.fst = some words := by
  let sendWord : Side K → K → Received K × Side K := fun s w =>
    (kind.send (encodeWord s w).1, (encodeWord s w).2)
  have hdec : ∀ (s : Side K) (w : K), Located s.1 s.2 → True →
      decodeWord kind s (sendWord s w).1 = some (w, (sendWord s w).2) :=
    fun s w hs _ => by simp [sendWord, decodeWord, resolve_matchWord kind hs w]
  have hrun := decodeRun_encodeRun (I := fun s : Side K => Located s.1 s.2) (P := fun _ => True)
    hdec (fun s w hs _ => located_encodeWord hs w) words s h fun _ _ => trivial
  have hmap : ∀ (ws : List K) (s : Side K), (encodeRun sendWord s ws).1 =
      ((encodeRun encodeWord s ws).1).map kind.send := by
    intro ws
    induction ws with
    | nil => intro s; rfl
    | cons w ws ih => intro s; simp [encodeRun, ih, sendWord]
  rw [← hmap, hrun]
  rfl

/-! ## Bounds on the pointers -/

theorem updateDict_lastMaxWordLoc (d : Dict K) (word : K) :
    (d.updateDict word).2.lastMaxWordLoc = d.lastMaxWordLoc := by
  unfold Dict.updateDict
  split
  · rfl
  · split <;> rfl

/-- The greatest matched location stays, or is that of the new match. -/
theorem lastMaxWordLoc_matchWord (d : Dict K) (i : ℕ) (word : K) :
    (matchWord d i word).2.lastMaxWordLoc = d.lastMaxWordLoc ∨
      ∃ wordIndex, d.searchWord word = some wordIndex ∧
        (matchWord d i word).1 = .ptr wordIndex (matchWord d i word).2.lastMaxWordLoc ∧
        d.lastMaxWordLoc < (matchWord d i word).2.lastMaxWordLoc := by
  have hupd := updateDict_lastMaxWordLoc d word
  unfold matchWord
  split
  · rename_i wordIndex hs
    dsimp only
    split
    · rename_i hlt
      rw [hupd] at hlt
      exact Or.inr ⟨wordIndex, hs, rfl, hlt⟩
    · exact Or.inl hupd
  · exact Or.inl hupd

/-- The greatest matched location does not decrease. -/
theorem lastMaxWordLoc_le (d : Dict K) (i : ℕ) (word : K) :
    d.lastMaxWordLoc ≤ (matchWord d i word).2.lastMaxWordLoc := by
  rcases lastMaxWordLoc_matchWord d i word with heq | ⟨-, -, -, hlt⟩
  · exact heq.ge
  · exact hlt.le

theorem lastMaxWordLoc_run (words : List K) : ∀ s : Side K,
    s.1.lastMaxWordLoc ≤ (encodeRun encodeWord s words).2.1.lastMaxWordLoc := by
  induction words with
  | nil => intro s; exact le_refl _
  | cons w words ih =>
      intro s
      exact (lastMaxWordLoc_le s.1 s.2.length w).trans (ih _)

/-- **Every pointer of a line** is at most its location, which lies before the end of the line
and is at most the greatest matched location. -/
theorem ptr_bounds (words : List K) : ∀ {s : Side K}, Located s.1 s.2 →
    ∀ wordIndex wordLoc, Token.ptr wordIndex wordLoc ∈ (encodeRun encodeWord s words).1 →
      ∃ loc : ℕ, wordLoc = loc ∧ wordIndex ≤ loc ∧ loc < s.2.length + words.length ∧
        (loc : ℤ) ≤ (encodeRun encodeWord s words).2.1.lastMaxWordLoc := by
  induction words with
  | nil => intro s _ wordIndex wordLoc hmem; simp [encodeRun] at hmem
  | cons w words ih =>
      intro s h wordIndex wordLoc hmem
      have hlast := lastMaxWordLoc_run words (encodeWord s w).2
      rcases List.mem_cons.1 hmem with heq | hmem
      · -- the first token is a match
        have hsearch : s.1.searchWord w ≠ none := by
          intro hnone
          simp [encodeWord, matchWord, hnone] at heq
        obtain ⟨i, hi⟩ := Option.ne_none_iff_exists'.1 hsearch
        obtain ⟨loc, htok, hle, hword, hmax⟩ := matchWord_found (i := s.2.length) h hi
        rw [encodeWord, htok] at heq
        obtain ⟨rfl, rfl⟩ := Token.ptr.inj heq
        have hlt : loc < s.2.length := (List.getElem?_eq_some_iff.1 hword).1
        exact ⟨loc, rfl, hle, by simp only [List.length_cons]; omega, hmax.trans hlast⟩
      · obtain ⟨loc, hloc, hle, hlt, hmax⟩ := ih (located_encodeWord h w) _ _ hmem
        refine ⟨loc, hloc, hle, ?_, hmax⟩
        simp only [encodeWord, List.length_append, List.length_cons, List.length_nil] at hlt ⊢
        omega

/-- **Every pointer is smaller than 2 to the number of bits charged for it.** -/
theorem ptr_lt_charged {words : List K} {s : Side K} (h : Located s.1 s.2) (hs : s.2 = [])
    (dictSizeOptEn : Bool) {wordIndex : ℕ} {wordLoc : ℤ}
    (hmem : Token.ptr wordIndex wordLoc ∈ (encodeRun encodeWord s words).1) (kind : Kind) :
    kind.ptr wordIndex wordLoc < 2 ^ chargedPtrBits dictSizeOptEn words.length
      (encodeRun encodeWord s words).2.1 := by
  obtain ⟨loc, rfl, hle, hlt, hmax⟩ := ptr_bounds words h _ _ hmem
  rw [hs, List.length_nil, Nat.zero_add] at hlt
  have hkind : kind.ptr wordIndex loc ≤ loc := by
    cases kind with
    | index => exact hle
    | location => exact le_of_eq (Int.toNat_natCast loc)
  refine lt_of_le_of_lt hkind ?_
  unfold chargedPtrBits
  split
  · -- the width of the greatest matched location
    have hpow := Nat.le_pow_clog (b := 2) (by decide)
      ((encodeRun encodeWord s words).2.1.lastMaxWordLoc.toNat + 1)
    have hbits : Nat.clog 2 ((encodeRun encodeWord s words).2.1.lastMaxWordLoc.toNat + 1) ≤
        newDataPtrBits (encodeRun encodeWord s words).2.1.lastMaxWordLoc := by
      unfold newDataPtrBits
      dsimp only
      split <;> omega
    have hmono := Nat.pow_le_pow_right (n := 2) (by decide) hbits
    omega
  · exact lt_of_lt_of_le hlt (Nat.le_pow_clog (by decide) _)

/-! ## The loop of the source -/

/-- **The tokens and the dictionary of `run_lwm_algo`** are those of the encoder. -/
theorem foldl_round (k dataSegmentSize dataPtrBits : ℕ) (words : List K) :
    ∀ (st : LwmState K) (line : List K),
      let st' := ((List.range' line.length words.length).zip words).foldl
        (round k dataSegmentSize dataPtrBits) st
      st'.tokens = st.tokens ++ (encodeRun encodeWord (st.locDict, line) words).1 ∧
      st'.locDict = (encodeRun encodeWord (st.locDict, line) words).2.1 ∧
      st'.compBitSize = st.compBitSize + ((encodeRun encodeWord (st.locDict, line) words).1.map
        fun t => 1 + payloadBits k dataPtrBits t).sum := by
  induction words with
  | nil => intro st line; simp [encodeRun]
  | cons w words ih =>
      intro st line
      have hlen : line.length + 1 = (line ++ [w]).length := by simp
      obtain ⟨htok, hdict, hbits⟩ :=
        ih (round k dataSegmentSize dataPtrBits st (line.length, w)) (line ++ [w])
      simp only [List.length_cons, List.range'_succ, List.zip_cons_cons, List.foldl_cons, hlen]
      refine ⟨?_, hdict, ?_⟩
      · rw [htok]
        simp [encodeRun, encodeWord, round]
      · rw [hbits]
        simp only [encodeRun, encodeWord, round, List.map_cons, List.sum_cons]
        omega

/-- `run_lwm_algo` on a cleared dictionary. -/
theorem runLwmAlgo_spec (k dataSegmentSize : ℕ) (locDict : Dict K) (words : List K) :
    let run := encodeRun encodeWord (locDict.clear, ([] : List K)) words
    (runLwmAlgo k dataSegmentSize locDict.clear words).tokens = run.1 ∧
      (runLwmAlgo k dataSegmentSize locDict.clear words).locDict = run.2.1 ∧
      (runLwmAlgo k dataSegmentSize locDict.clear words).compBitSize =
        6 + (run.1.map fun t => 1 + payloadBits k (dataPtrBits words.length) t).sum := by
  intro run
  obtain ⟨htok, hdict, hbits⟩ := foldl_round k dataSegmentSize (dataPtrBits words.length) words
    { locDict := locDict.clear
      tokens := []
      compBitSize := 1 + 3 + 2
      compBitsOnly := 0
      matchingWordNo := 0
      compDsBits := List.replicate (words.length * k / dataSegmentSize) (-1)
      compDsMatchWordNo := List.replicate (words.length * k / dataSegmentSize) 0
      noCompDsRatio := List.replicate (words.length * k / dataSegmentSize) 1 } []
  rw [runLwmAlgo, List.range_eq_range']
  exact ⟨htok, hdict, hbits⟩

/-- What is left of the greatest location after `clear` has no effect on the tokens. -/
theorem encodeRun_lastMaxWordLoc (words : List K) : ∀ (m : List (Elem K)) (a b : ℤ)
    (line : List K), (encodeRun encodeWord ((⟨m, a⟩ : Dict K), line) words).1 =
      (encodeRun encodeWord ((⟨m, b⟩ : Dict K), line) words).1 := by
  induction words with
  | nil => intro m a b line; rfl
  | cons w words ih =>
      intro m a b line
      -- a round sends the same token and leaves the same entries
      have hstep : (matchWord (⟨m, a⟩ : Dict K) line.length w).1 =
          (matchWord (⟨m, b⟩ : Dict K) line.length w).1 ∧
          (matchWord (⟨m, a⟩ : Dict K) line.length w).2.mDict =
            (matchWord (⟨m, b⟩ : Dict K) line.length w).2.mDict := by
        have hsearch : (⟨m, a⟩ : Dict K).searchWord w = (⟨m, b⟩ : Dict K).searchWord w := rfl
        unfold matchWord Dict.updateDict
        rw [hsearch]
        cases (⟨m, b⟩ : Dict K).searchWord w with
        | some i =>
            refine ⟨rfl, ?_⟩
            dsimp only
            split <;> split <;> rfl
        | none =>
            dsimp only
            split <;> exact ⟨rfl, rfl⟩
      have hrest := ih (matchWord (⟨m, a⟩ : Dict K) line.length w).2.mDict
        (matchWord (⟨m, a⟩ : Dict K) line.length w).2.lastMaxWordLoc
        (matchWord (⟨m, b⟩ : Dict K) line.length w).2.lastMaxWordLoc (line ++ [w])
      simp only [encodeRun, encodeWord, hstep.1]
      refine congrArg _ (hrest.trans ?_)
      rw [hstep.2]

end

/-! ## The bits of a line -/

/-- The bits of a token: a flag, and `8 * k` bits of a word or `width` bits of a pointer. -/
def tokenBits (k width : ℕ) (kind : Kind) : Token ℕ → Str
  | .raw word => '0' :: getBinary word (8 * k)
  | .ptr wordIndex wordLoc => '1' :: getBinary (kind.ptr wordIndex wordLoc) width

/-- Reads one token. -/
def readToken (k width : ℕ) : Reader Char (Received ℕ)
  | '0' :: s => some ([.raw (binaryValue (s.take (8 * k)))], s.drop (8 * k))
  | '1' :: s => some ([.ptr (binaryValue (s.take width))], s.drop width)
  | _ => none

/-- The decoder: tokens, words, bytes. -/
def decodeLine (k width : ℕ) (kind : Kind) (s : Str) : Option (List UInt8) :=
  (decode (readToken k width) s).bind fun rs =>
    (decodeRun (decodeWord kind) (Dict.empty, []) rs).map fun p => p.1.flatMap (bytesOfWord k)

/-- A token whose fields fit. -/
def Fits (k width : ℕ) (kind : Kind) : Token ℕ → Prop
  | .raw word => word < 2 ^ (8 * k)
  | .ptr wordIndex wordLoc => kind.ptr wordIndex wordLoc < 2 ^ width

theorem reads_tokenBits {k width : ℕ} {kind : Kind} {t : Token ℕ} (h : Fits k width kind t) :
    Reads (readToken k width) (tokenBits k width kind t) [kind.send t] := by
  have hval : ∀ {n limit : ℕ}, n < 2 ^ limit → ∀ r : Str,
      binaryValue ((getBinary n limit ++ r).take limit) = n ∧
        (getBinary n limit ++ r).drop limit = r := by
    intro n limit hn r
    rw [List.take_left' (length_getBinary _ _), List.drop_left' (length_getBinary _ _),
      binaryValue_getBinary, Nat.mod_eq_of_lt hn]
    exact ⟨rfl, rfl⟩
  cases t with
  | raw word =>
      refine ⟨List.cons_ne_nil _ _, fun r => ?_⟩
      rw [tokenBits, List.cons_append, readToken, (hval h r).1, (hval h r).2]
      rfl
  | ptr wordIndex wordLoc =>
      refine ⟨List.cons_ne_nil _ _, fun r => ?_⟩
      rw [tokenBits, List.cons_append, readToken, (hval h r).1, (hval h r).2]
      rfl

/-- A raw token carries a word of the line. -/
theorem mem_of_raw {words : List ℕ} : ∀ {s : Side ℕ} {word : ℕ},
    Token.raw word ∈ (encodeRun encodeWord s words).1 → word ∈ words := by
  induction words with
  | nil => intro s word h; simp [encodeRun] at h
  | cons w words ih =>
      intro s word h
      rcases List.mem_cons.1 h with heq | h
      · simp only [encodeWord, matchWord] at heq
        cases hs : s.1.searchWord w with
        | some i => rw [hs] at heq; simp at heq
        | none =>
            rw [hs] at heq
            rw [Token.raw.inj heq]
            exact List.mem_cons_self
      · exact List.mem_cons_of_mem _ (ih h)

/-- **LWM is lossless and its pointers fit**: for every word size, every line of whole words,
both pointer widths, either kind of pointer and whatever the dictionary held before, the
bits of the tokens decode to the line, and every pointer is below 2 to the bits charged. -/
theorem runLwmAlgo_lossless {k n : ℕ} (hk : 0 < k) {cacheData : List UInt8}
    (h : cacheData.length = k * n) (dataSegmentSize : ℕ) (dictSizeOptEn : Bool)
    (locDict : Dict ℕ) (kind : Kind) :
    let st := runLwmAlgo k dataSegmentSize locDict.clear (decomposeData k cacheData)
    let width := chargedPtrBits dictSizeOptEn n st.locDict
    decodeLine k width kind (st.tokens.flatMap (tokenBits k width kind)) = some cacheData ∧
      (∀ wordIndex wordLoc, Token.ptr wordIndex wordLoc ∈ st.tokens →
        kind.ptr wordIndex wordLoc < 2 ^ width) ∧
      st.compBitSize = 6 + (st.tokens.flatMap (tokenBits k (dataPtrBits n) kind)).length := by
  intro st width
  have hlen := length_decomposeData hk h
  obtain ⟨htok, hdict, hbits⟩ := runLwmAlgo_spec k dataSegmentSize locDict
    (decomposeData k cacheData)
  have hlocated : Located locDict.clear ([] : List ℕ) := located_clear locDict
  have hwidth : width = chargedPtrBits dictSizeOptEn (decomposeData k cacheData).length
      (encodeRun encodeWord (locDict.clear, ([] : List ℕ)) (decomposeData k cacheData)).2.1 := by
    rw [hlen, ← hdict]
  have hptr : ∀ wordIndex wordLoc, Token.ptr wordIndex wordLoc ∈ st.tokens →
      kind.ptr wordIndex wordLoc < 2 ^ width := by
    intro wordIndex wordLoc hmem
    rw [hwidth]
    exact ptr_lt_charged (s := (locDict.clear, [])) hlocated rfl dictSizeOptEn (htok ▸ hmem) kind
  have hfits : ∀ t ∈ st.tokens, Fits k width kind t := by
    intro t ht
    cases t with
    | raw word => exact decomposeData_lt hk h (mem_of_raw (htok ▸ ht))
    | ptr wordIndex wordLoc => exact hptr wordIndex wordLoc ht
  refine ⟨?_, hptr, ?_⟩
  · have hreads : ∀ p ∈ st.tokens.map fun t => (tokenBits k width kind t, [kind.send t]),
        Reads (readToken k width) p.1 p.2 := by
      intro p hp
      obtain ⟨t, ht, rfl⟩ := List.mem_map.1 hp
      exact reads_tokenBits (hfits t ht)
    have hdecode := decode_flatten _ hreads
    rw [List.flatMap_map, List.flatMap_map] at hdecode
    have hsent : st.tokens.flatMap (fun t => [kind.send t]) =
        ((encodeRun encodeWord ((Dict.empty : Dict ℕ), ([] : List ℕ))
          (decomposeData k cacheData)).1).map kind.send := by
      rw [← List.map_eq_flatMap, htok]
      exact congrArg _ (encodeRun_lastMaxWordLoc _ [] _ _ [])
    rw [hsent] at hdecode
    have hrun := decodeRun_tokens kind (decomposeData k cacheData)
      (s := ((Dict.empty : Dict ℕ), [])) (located_clear Dict.empty)
    obtain ⟨p, hp, hwords⟩ := Option.map_eq_some_iff.1 hrun
    rw [decodeLine, hdecode, Option.bind_some, hp, Option.map_some, hwords,
      flatMap_decomposeData hk h]
  · have hsum : ∀ ts : List (Token ℕ),
        (ts.flatMap (tokenBits k (dataPtrBits n) kind)).length =
          (ts.map fun t => 1 + payloadBits k (dataPtrBits n) t).sum := by
      intro ts
      rw [List.length_flatMap]
      refine congrArg List.sum (List.map_congr_left fun t _ => ?_)
      cases t with
      | raw word =>
          simp only [tokenBits, payloadBits, List.length_cons, length_getBinary]
          omega
      | ptr wordIndex wordLoc =>
          simp only [tokenBits, payloadBits, List.length_cons, length_getBinary]
          omega
    rw [hbits, hlen, htok, hsum]

theorem runLwmAlgo_lossless_pairs :
    let st := runLwmAlgo 2 32 (Dict.empty : Dict ℕ).clear (decomposeData 2 [1, 0, 2, 0, 1, 0, 2, 0])
    let width := chargedPtrBits true 4 st.locDict
    decodeLine 2 width .location (st.tokens.flatMap (tokenBits 2 width .location)) =
        some [1, 0, 2, 0, 1, 0, 2, 0] ∧
      (∀ wordIndex wordLoc, Token.ptr wordIndex wordLoc ∈ st.tokens →
        Kind.ptr .location wordIndex wordLoc < 2 ^ width) ∧
      st.compBitSize = 6 + (st.tokens.flatMap (tokenBits 2 (dataPtrBits 4) .location)).length :=
  runLwmAlgo_lossless (by decide) (n := 4) (by decide) 32 true Dict.empty .location

end CompressionWork.Lwm
