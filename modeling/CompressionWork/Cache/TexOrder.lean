import CompressionWork.Cache.Probe
import CompressionWork.Cache.Ring
import CompressionWork.Codec.Chunks
import CompressionWork.Transition.Reach

/-!
# The order of the texture cache

The texture cache updates its tags when it accepts an access and its data when the access leaves the
fragment queue.  Memory may answer in any order; a miss waits in the reorder buffer until its data is
there, and everything behind it waits too.

* `TexSys` — the cache with what it has accepted, handed out and sent to memory.
* `next` — accesses, cycles, answers of the memory, and results that are taken.
* `Inv` — the queues hold the accesses that have not left, in order; the tags are those after all
  accesses, the data those after the accesses that have left.
* `inv_access`, `inv_cycle`, `inv_fill`, `inv_nextAccess` — every step keeps it.
* `tex_in_order` — results come in the order of the accesses, no data is used before it has arrived, and
  no assertion of `cycle` or `fill` fails.
-/

namespace CompressionWork.Cache

open Transition

/-! ## The system -/

/-- An access that was accepted: its request, whether it was a miss, and whether its data has come. -/
structure TexAccess where
  request : MemFetch
  miss : Bool
  arrived : Bool

/-- The cache, the accesses it has accepted, the results it has handed out, and the requests that are
at the memory. -/
structure TexSys where
  cache : TexCache
  log : List TexAccess := []
  returned : List MemFetch := []
  sent : List MemFetch := []

/-- What the owner of the cache does: an access, a cycle, a fill, or taking a result. -/
inductive TexEvent
  | access (mf : MemFetch) (time : UInt32)
  | cycle (portFull : Bool)
  | fill (mf : MemFetch) (time : UInt32)
  | nextAccess

/-- The data of a request has come. -/
def markArrived (mf : MemFetch) (log : List TexAccess) : List TexAccess :=
  log.map fun a =>
    if a.miss = true ∧ a.request.requestUid = mf.requestUid then { a with arrived := true } else a

namespace TagParams

variable (p : TagParams)

/-- One event; `none` when an assertion fails. -/
def next (s : TexSys) : TexEvent → Option TexSys
  | .access mf time =>
      (p.texAccess s.cache mf.addr mf time []).map fun o =>
        if o.status = .reservationFail then { s with cache := o.cache }
        else { s with cache := o.cache, log := s.log ++ [⟨mf, o.status == .miss, false⟩] }
  | .cycle portFull =>
      (p.texCycle s.cache portFull).map fun r =>
        { s with cache := r.1, sent := s.sent ++ r.2.toList }
  | .fill mf time =>
      (p.texFill s.cache mf time).map fun c =>
        { s with cache := c, log := markArrived mf s.log, sent := s.sent.erase mf }
  | .nextAccess =>
      s.cache.resultFifo.pop.map fun r =>
        { s with cache := { s.cache with resultFifo := r.2 }, returned := s.returned ++ [r.1] }

/-- A request is accessed when the cache does not hold it already, the memory answers what was sent to
it, and a result is taken when there is one. -/
def TexAllowed (s : TexSys) : TexEvent → Prop
  | .access mf _ =>
      mf.requestUid ∉ (s.log.drop s.returned.length).map fun a => a.request.requestUid
  | .cycle _ => True
  | .fill mf _ => mf ∈ s.sent
  | .nextAccess => s.cache.resultFifo.empty = false

/-- An event that its owner allows. -/
def TexStep (s : TexSys) (e : TexEvent) (s' : TexSys) : Prop := TexAllowed s e ∧ p.next s e = some s'

/-- A new cache, of which nothing was asked. -/
def TexStart (s : TexSys) : Prop := ∃ c, p.newTexCache = some c ∧ s = { cache := c }

/-! ## The invariant -/

/-- An access with the line it was given and the time its data came. -/
structure TexEntry where
  request : MemFetch
  cacheIndex : ℕ
  miss : Bool
  arrived : Bool
  time : UInt32

/-- The access as the log has it. -/
def TexEntry.access (e : TexEntry) : TexAccess := ⟨e.request, e.miss, e.arrived⟩

/-- The access in the fragment queue. -/
def TexEntry.fragment (e : TexEntry) : FragmentEntry :=
  ⟨e.request, e.cacheIndex, e.miss, e.request.dataSize⟩

/-- The block of an access. -/
def block (e : TexEntry) : NewAddrType := p.config.blockAddr e.request.addr

/-- The access in the reorder buffer. -/
def robEntry (e : TexEntry) : RobEntry := ⟨e.arrived, e.time, e.cacheIndex, e.request, p.block e⟩

/-- The block that the last miss on a line has brought there. -/
def resident (es : List TexEntry) (idx : ℕ) : Option NewAddrType :=
  es.foldl (fun r e => if e.miss = true ∧ e.cacheIndex = idx then some (p.block e) else r) none

/-- The misses among the accesses that have not left. -/
def waitingMisses (es : List TexEntry) (moved : ℕ) : List TexEntry :=
  (es.drop moved).filter fun e => e.miss

/-- The accesses in order, of which the first `moved` ones have left the fragment queue. -/
structure Inv (s : TexSys) (es : List TexEntry) (moved : ℕ) : Prop where
  log : s.log = es.map TexEntry.access
  moved_le : moved ≤ es.length
  fragment : s.cache.fragmentFifo.Holds ((es.drop moved).map TexEntry.fragment)
  rob : s.cache.rob.Holds ((waitingMisses es moved).map p.robEntry)
  extra : ∀ (i : ℕ) (e : TexEntry), (waitingMisses es moved)[i]? = some e →
    s.cache.extraMfFields.lookup e.request.requestUid = some (s.cache.rob.slot i)
  requests : ∃ rs, s.cache.requestFifo.Holds rs ∧
    ((rs ++ s.sent).map MemFetch.requestUid).Nodup ∧
    (∀ mf ∈ rs ++ s.sent, ∃ e ∈ waitingMisses es moved,
      e.request.requestUid = mf.requestUid ∧ e.request.addr = mf.addr ∧ e.arrived = false) ∧
    ∀ e ∈ waitingMisses es moved, e.arrived = false →
      ∃ mf ∈ rs ++ s.sent, mf.requestUid = e.request.requestUid
  tags : ∀ idx, (s.cache.tags.lines idx).status = .invalid ∨
    ((s.cache.tags.lines idx).status = .valid ∧
      p.resident es idx = some (s.cache.tags.lines idx).tag)
  hits : ∀ (k : ℕ) (e : TexEntry), es[k]? = some e → e.miss = false →
    p.resident (es.take k) e.cacheIndex = some (p.block e)
  data : ∀ (idx : ℕ) (b : NewAddrType), p.resident (es.take moved) idx = some b →
    s.cache.cache idx = ⟨true, b⟩
  results : ∃ res, s.cache.resultFifo.Holds res ∧
    s.returned ++ res = (es.take moved).map TexEntry.request
  arrived : ∀ (k : ℕ) (e : TexEntry), k < moved → es[k]? = some e → e.miss = true → e.arrived = true

variable {p} {s s' : TexSys} {es : List TexEntry} {moved : ℕ} {mf : MemFetch} {time : UInt32}
  {e : TexEntry} {idx : ℕ}

@[simp] theorem resident_nil (idx : ℕ) : p.resident [] idx = none := rfl

@[simp] theorem resident_concat (es : List TexEntry) (e : TexEntry) (idx : ℕ) :
    p.resident (es ++ [e]) idx =
      if e.miss = true ∧ e.cacheIndex = idx then some (p.block e) else p.resident es idx := by
  simp [resident]

theorem waitingMisses_concat (h : moved ≤ es.length) (e : TexEntry) :
    waitingMisses (es ++ [e]) moved =
      waitingMisses es moved ++ if e.miss then [e] else [] := by
  simp only [waitingMisses, List.drop_append_of_le_length h, List.filter_append]
  cases hmiss : e.miss <;> simp [hmiss]

theorem tag_blockAddr (a : NewAddrType) :
    p.config.tag (p.config.blockAddr a) = p.config.blockAddr a :=
  p.config.blockAddr_blockAddr a

theorem mem_waitingMisses : e ∈ waitingMisses es moved → e.miss = true :=
  fun h => (List.mem_filter.1 h).2

/-! ## Accesses -/

/-- What an access does. -/
theorem texAccess_cases {c : TexCache} {addr : NewAddrType} {o : TexOutcome}
    (h : p.texAccess c addr mf time [] = some o) :
    (o.status = .reservationFail ∧ o.cache = c) ∨
    (∃ idx evict tags tags' n robIndex m fragmentFifo rob requestFifo,
      p.accessNoWb c.tags (p.config.blockAddr addr) time = some (.miss idx evict, tags) ∧
      p.fillIdx tags idx time = some tags' ∧
      c.fragmentFifo.push ⟨mf, idx, true, mf.dataSize⟩ = some (n, fragmentFifo) ∧
      c.rob.push ⟨false, 0, idx, mf, p.config.blockAddr addr⟩ = some (robIndex, rob) ∧
      c.requestFifo.push { mf with dataSize := p.config.lineSz.toNat } = some (m, requestFifo) ∧
      o.status = .miss ∧
      o.cache =
        { c with
          tags := tags', fragmentFifo, rob, requestFifo
          extraMfFields := c.extraMfFields.insert mf.requestUid robIndex }) ∨
    (∃ idx tags n fragmentFifo,
      p.accessNoWb c.tags (p.config.blockAddr addr) time = some (.hit idx, tags) ∧
      c.fragmentFifo.push ⟨mf, idx, false, mf.dataSize⟩ = some (n, fragmentFifo) ∧
      o.status = .hitReserved ∧ o.cache = { c with tags, fragmentFifo }) := by
  unfold texAccess at h
  split at h
  · rw [← Option.some.inj h]
    exact Or.inl ⟨rfl, rfl⟩
  · simp only [Option.bind_eq_bind, Option.bind_eq_some_iff] at h
    obtain ⟨_, -, ⟨result, tags⟩, haccess, h⟩ := h
    cases result with
    | miss idx evict =>
        simp only [Option.bind_eq_some_iff, Option.pure_def, Option.some.injEq] at h
        obtain ⟨⟨n, ff⟩, hff, ⟨robIndex, rob⟩, hrob, tags', htags, ⟨m, rf⟩, hrf, rfl⟩ := h
        exact Or.inr (Or.inl ⟨idx, evict, tags, tags', n, robIndex, m, ff, rob, rf, haccess, htags,
          hff, hrob, hrf, rfl, rfl⟩)
    | hit idx =>
        simp only [Option.bind_eq_some_iff, Option.pure_def, Option.some.injEq] at h
        obtain ⟨⟨n, ff⟩, hff, rfl⟩ := h
        exact Or.inr (Or.inr ⟨idx, tags, n, ff, haccess, hff, rfl, rfl⟩)
    | hitReserved idx => exact absurd h (by simp)
    | reservationFail => exact absurd h (by simp)

/-- The entries that have not returned contain those that wait. -/
theorem Inv.returned_le (h : p.Inv s es moved) : s.returned.length ≤ moved := by
  obtain ⟨res, -, heq⟩ := h.results
  have hlen := congrArg List.length heq
  have hle := h.moved_le
  simp only [List.length_append, List.length_map, List.length_take] at hlen
  omega

/-- A fresh request is not one of the misses that wait. -/
theorem Inv.fresh (h : p.Inv s es moved)
    (hnew : mf.requestUid ∉ (s.log.drop s.returned.length).map fun a => a.request.requestUid) :
    ∀ e ∈ waitingMisses es moved, e.request.requestUid ≠ mf.requestUid := by
  intro e he heq
  apply hnew
  have hmem : e ∈ es.drop s.returned.length := by
    have hwait : e ∈ es.drop moved := (List.mem_filter.1 he).1
    have hle := h.returned_le
    rw [show moved = s.returned.length + (moved - s.returned.length) by omega,
      ← List.drop_drop] at hwait
    exact List.mem_of_mem_drop hwait
  rw [h.log, ← List.map_drop, List.map_map, ← heq]
  exact List.mem_map_of_mem hmem

/-- An access is accepted: it is the last one, and only what concerns it is new. -/
theorem Inv.concat (h : p.Inv s es moved) (hlog : s'.log = s.log ++ [e.access])
    (hreturned : s'.returned = s.returned) (hresultFifo : s'.cache.resultFifo = s.cache.resultFifo)
    (hdata : s'.cache.cache = s.cache.cache)
    (hfragment : s'.cache.fragmentFifo.Holds
      ((es.drop moved).map TexEntry.fragment ++ [e.fragment]))
    (hrob : s'.cache.rob.Holds ((waitingMisses (es ++ [e]) moved).map p.robEntry))
    (hextra : ∀ (i : ℕ) (e' : TexEntry), (waitingMisses (es ++ [e]) moved)[i]? = some e' →
      s'.cache.extraMfFields.lookup e'.request.requestUid = some (s'.cache.rob.slot i))
    (hrequests : ∃ rs, s'.cache.requestFifo.Holds rs ∧
      ((rs ++ s'.sent).map MemFetch.requestUid).Nodup ∧
      (∀ mf ∈ rs ++ s'.sent, ∃ e' ∈ waitingMisses (es ++ [e]) moved,
        e'.request.requestUid = mf.requestUid ∧ e'.request.addr = mf.addr ∧ e'.arrived = false) ∧
      ∀ e' ∈ waitingMisses (es ++ [e]) moved, e'.arrived = false →
        ∃ mf ∈ rs ++ s'.sent, mf.requestUid = e'.request.requestUid)
    (htags : ∀ idx, (s'.cache.tags.lines idx).status = .invalid ∨
      ((s'.cache.tags.lines idx).status = .valid ∧
        p.resident (es ++ [e]) idx = some (s'.cache.tags.lines idx).tag))
    (hhit : e.miss = false → p.resident es e.cacheIndex = some (p.block e)) :
    p.Inv s' (es ++ [e]) moved := by
  have htake : (es ++ [e]).take moved = es.take moved := List.take_append_of_le_length h.moved_le
  constructor
  · rw [hlog, h.log, List.map_append, List.map_singleton]
  · simp only [List.length_append, List.length_singleton]
    exact Nat.le_succ_of_le h.moved_le
  · rw [List.drop_append_of_le_length h.moved_le, List.map_append, List.map_singleton]
    exact hfragment
  · exact hrob
  · exact hextra
  · exact hrequests
  · exact htags
  · intro k e' he' hmiss
    rcases Codec.getElem?_concat_iff.1 he' with he' | ⟨rfl, rfl⟩
    · have hlt := (List.getElem?_eq_some_iff.1 he').1
      rw [List.take_append_of_le_length (Nat.le_of_lt hlt)]
      exact h.hits k e' he' hmiss
    · rw [List.take_left]
      exact hhit hmiss
  · rw [htake, hdata]
    exact h.data
  · rw [htake, hreturned, hresultFifo]
    exact h.results
  · intro k e' hk he'
    rw [List.getElem?_append_left (Nat.lt_of_lt_of_le hk h.moved_le)] at he'
    exact h.arrived k e' hk he'

/-- The requests and the misses that wait, with one more of both. -/
theorem Inv.requests_concat (h : p.Inv s es moved) {requestFifo : Fifo MemFetch} {n : ℕ}
    (hfresh : ∀ e' ∈ waitingMisses es moved, e'.request.requestUid ≠ mf.requestUid)
    (huid : e.request.requestUid = mf.requestUid) (haddr : e.request.addr = mf.addr)
    (harrived : e.arrived = false) (hpush : s.cache.requestFifo.push mf = some (n, requestFifo)) :
    ∃ rs, requestFifo.Holds rs ∧ ((rs ++ s.sent).map MemFetch.requestUid).Nodup ∧
      (∀ mf ∈ rs ++ s.sent, ∃ e' ∈ waitingMisses es moved ++ [e],
        e'.request.requestUid = mf.requestUid ∧ e'.request.addr = mf.addr ∧ e'.arrived = false) ∧
      ∀ e' ∈ waitingMisses es moved ++ [e], e'.arrived = false →
        ∃ mf ∈ rs ++ s.sent, mf.requestUid = e'.request.requestUid := by
  obtain ⟨rs, hrs, hnodup, hrequests, hwaits⟩ := h.requests
  obtain ⟨-, -, hrsHolds, -, -⟩ := hrs.of_push hpush
  have hperm : (rs ++ [mf] ++ s.sent).Perm (mf :: (rs ++ s.sent)) := by
    rw [List.append_assoc]
    exact List.perm_middle
  refine ⟨_, hrsHolds, ?_, ?_, ?_⟩
  · rw [(hperm.map MemFetch.requestUid).nodup_iff, List.map_cons, List.nodup_cons]
    refine ⟨?_, hnodup⟩
    intro hmem
    obtain ⟨mf', hmf', heq⟩ := List.mem_map.1 hmem
    obtain ⟨e', he', huid', -⟩ := hrequests mf' hmf'
    exact hfresh e' he' (huid'.trans heq)
  · intro mf' hmf'
    rcases List.mem_cons.1 (hperm.mem_iff.1 hmf') with rfl | hold
    · exact ⟨e, by simp, huid, haddr, harrived⟩
    · obtain ⟨e', he', hrest⟩ := hrequests mf' hold
      exact ⟨e', by simp [he'], hrest⟩
  · intro e' he' hunready
    rcases List.mem_append.1 he' with he' | he'
    · obtain ⟨mf', hmf', huid'⟩ := hwaits e' he' hunready
      exact ⟨mf', hperm.mem_iff.2 (List.mem_cons_of_mem _ hmf'), huid'⟩
    · obtain rfl := List.mem_singleton.1 he'
      exact ⟨mf, hperm.mem_iff.2 (List.mem_cons_self ..), huid.symm⟩

/-- A miss: the tags change at once, and the request goes to the queues. -/
theorem Inv.accept_miss (h : p.Inv s es moved) {evict : List ℕ} {tags tags' : TagArray}
    {n robIndex m : ℕ} {fragmentFifo : Fifo FragmentEntry} {rob : Fifo RobEntry}
    {requestFifo : Fifo MemFetch}
    (hfresh : ∀ e ∈ waitingMisses es moved, e.request.requestUid ≠ mf.requestUid)
    (haccess : p.accessNoWb s.cache.tags (p.config.blockAddr mf.addr) time =
      some (.miss idx evict, tags))
    (htags : p.fillIdx tags idx time = some tags')
    (hff : s.cache.fragmentFifo.push ⟨mf, idx, true, mf.dataSize⟩ = some (n, fragmentFifo))
    (hrob : s.cache.rob.push ⟨false, 0, idx, mf, p.config.blockAddr mf.addr⟩ = some (robIndex, rob))
    (hrf : s.cache.requestFifo.push { mf with dataSize := p.config.lineSz.toNat } =
      some (m, requestFifo)) :
    p.Inv
      { s with
        cache :=
          { s.cache with
            tags := tags', fragmentFifo, rob, requestFifo
            extraMfFields := s.cache.extraMfFields.insert mf.requestUid robIndex }
        log := s.log ++ [⟨mf, true, false⟩] }
      (es ++ [⟨mf, idx, true, false, 0⟩]) moved := by
  let e : TexEntry := ⟨mf, idx, true, false, 0⟩
  have hwaiting : waitingMisses (es ++ [e]) moved = waitingMisses es moved ++ [e] :=
    waitingMisses_concat h.moved_le e
  obtain ⟨-, -, hffHolds, -, -⟩ := h.fragment.of_push hff
  obtain ⟨-, rfl, hrobHolds, hrobSize, hrobTail⟩ := h.rob.of_push hrob
  have hslot : ∀ i, rob.slot i = s.cache.rob.slot i := by
    intro i
    rw [Fifo.slot, Fifo.slot, hrobSize, hrobTail]
  have hmissed : e.miss ≠ false := by simp [e]
  refine h.concat rfl rfl rfl rfl hffHolds ?_ ?_ ?_ ?_ fun hhit => absurd hhit hmissed
  · rw [hwaiting, List.map_append, List.map_singleton]
    exact hrobHolds
  · intro i e' he'
    rw [hwaiting] at he'
    rcases Codec.getElem?_concat_iff.1 he' with he' | ⟨rfl, rfl⟩
    · have hne := hfresh e' (List.mem_of_getElem? he')
      simp only [AList.lookup_insert_ne hne, hslot]
      exact h.extra i e' he'
    · simp only [e, AList.lookup_insert, hslot, List.length_map]
  · rw [hwaiting]
    refine h.requests_concat ?_ ?_ ?_ ?_ hrf
    · exact hfresh
    · rfl
    · rfl
    · rfl
  · intro j
    obtain ⟨-, hlines⟩ := access_cases (access_of_accessNoWb haccess)
    obtain ⟨hmiss, -, hlines'⟩ := fillIdx_cases htags
    dsimp only at hlines
    rw [if_pos hmiss] at hlines
    rw [resident_concat]
    simp only [hlines', hlines]
    by_cases hj : idx = j
    · subst hj
      right
      simp [CacheBlock.allocate, block, tag_blockAddr]
    · have hj' : j ≠ idx := fun heq => hj heq.symm
      simp only [Function.update_of_ne hj', hj, and_false, if_false]
      exact h.tags j

/-- A hit: the line has been given to the block by an earlier miss. -/
theorem Inv.accept_hit (h : p.Inv s es moved) {tags : TagArray} {n : ℕ}
    {fragmentFifo : Fifo FragmentEntry}
    (haccess : p.accessNoWb s.cache.tags (p.config.blockAddr mf.addr) time = some (.hit idx, tags))
    (hff : s.cache.fragmentFifo.push ⟨mf, idx, false, mf.dataSize⟩ = some (n, fragmentFifo)) :
    p.Inv
      { s with cache := { s.cache with tags, fragmentFifo }, log := s.log ++ [⟨mf, false, false⟩] }
      (es ++ [⟨mf, idx, false, false, 0⟩]) moved := by
  let e : TexEntry := ⟨mf, idx, false, false, 0⟩
  have hwaiting : waitingMisses (es ++ [e]) moved = waitingMisses es moved := by
    rw [waitingMisses_concat h.moved_le e]
    exact List.append_nil _
  obtain ⟨-, -, hffHolds, -, -⟩ := h.fragment.of_push hff
  obtain ⟨hprobe, hlines⟩ := access_cases (access_of_accessNoWb haccess)
  obtain ⟨htag, hvalid, -⟩ := probe_hit hprobe
  refine h.concat rfl rfl rfl rfl hffHolds ?_ ?_ ?_ ?_ fun _ => ?_
  · rw [hwaiting]
    exact h.rob
  · rw [hwaiting]
    exact h.extra
  · rw [hwaiting]
    exact h.requests
  · intro j
    rw [resident_concat, if_neg (by simp)]
    simp only [hlines]
    by_cases hj : j = idx
    · subst hj
      rw [Function.update_self]
      exact h.tags j
    · rw [Function.update_of_ne hj]
      exact h.tags j
  · obtain ⟨-, hres⟩ := (h.tags idx).resolve_left hvalid
    rw [hres, htag, tag_blockAddr]
    rfl

theorem inv_access (h : p.Inv s es moved)
    (hnew : mf.requestUid ∉ (s.log.drop s.returned.length).map fun a => a.request.requestUid)
    (hnext : p.next s (.access mf time) = some s') : ∃ es', p.Inv s' es' moved := by
  obtain ⟨o, ho, rfl⟩ := Option.map_eq_some_iff.1 hnext
  rcases texAccess_cases ho with ⟨hstatus, hcache⟩ |
    ⟨idx, _, _, _, _, _, _, _, _, _, haccess, htags, hff, hrob, hrf, hstatus, hcache⟩ |
    ⟨idx, _, _, _, haccess, hff, hstatus, hcache⟩
  · -- nothing is accepted
    rw [if_pos hstatus, hcache]
    exact ⟨es, h⟩
  · rw [if_neg (by simp [hstatus]), hcache, hstatus]
    exact ⟨_, h.accept_miss (h.fresh hnew) haccess htags hff hrob hrf⟩
  · rw [if_neg (by simp [hstatus]), hcache, hstatus]
    exact ⟨_, h.accept_hit haccess hff⟩

/-! ## Cycles -/

theorem drop_of_getElem? (he : es[moved]? = some e) : es.drop moved = e :: es.drop (moved + 1) := by
  obtain ⟨hlt, rfl⟩ := List.getElem?_eq_some_iff.1 he
  exact List.drop_eq_getElem_cons hlt

theorem take_of_getElem? (he : es[moved]? = some e) : es.take (moved + 1) = es.take moved ++ [e] := by
  rw [List.take_add_one, he]
  rfl

theorem waitingMisses_of_getElem? (he : es[moved]? = some e) :
    waitingMisses es moved = (if e.miss then [e] else []) ++ waitingMisses es (moved + 1) := by
  rw [waitingMisses, drop_of_getElem? he, List.filter_cons]
  cases hmiss : e.miss <;> rfl

/-- The memory port takes a request or not. -/
theorem Inv.send (h : p.Inv s es moved) (portFull : Bool) :
    ∃ c sent, texSend s.cache portFull = some (c, sent) ∧
      p.Inv { s with cache := c, sent := s.sent ++ sent.toList } es moved := by
  by_cases hwait : s.cache.requestFifo.empty ∨ portFull
  · refine ⟨s.cache, none, by rw [texSend, if_pos hwait], ?_⟩
    rw [Option.toList_none, List.append_nil]
    exact h
  · obtain ⟨rs, hrs, hrest⟩ := h.requests
    cases rs with
    | nil => exact absurd (Or.inl (hrs.empty_iff.2 rfl)) hwait
    | cons mf rs =>
        obtain ⟨r, hpop, hr, -, -⟩ := hrs.pop
        refine ⟨{ s.cache with requestFifo := r }, some mf, by rw [texSend, if_neg hwait, hpop]; rfl,
          ?_⟩
        have hperm : (mf :: rs ++ s.sent).Perm (rs ++ (s.sent ++ [mf])) := by
          rw [← List.append_assoc]
          exact (List.perm_append_singleton mf (rs ++ s.sent)).symm
        have hmem : ∀ x, x ∈ rs ++ (s.sent ++ [mf]) ↔ x ∈ mf :: rs ++ s.sent :=
          fun x => hperm.symm.mem_iff
        obtain ⟨hnodup, hrequests, hwaits⟩ := hrest
        refine { h with requests := ⟨rs, hr, ?_, ?_, ?_⟩ }
        · exact (hperm.map _).nodup_iff.1 hnodup
        · exact fun x hx => hrequests x ((hmem x).1 hx)
        · intro e he hunready
          obtain ⟨x, hx, huid⟩ := hwaits e he hunready
          exact ⟨x, (hmem x).2 hx, huid⟩

/-- The oldest access that has not left the fragment queue leaves it: a hit finds its block, a miss
puts its data into the line. -/
theorem Inv.leave {c : TexCache} {res : List MemFetch} (h : p.Inv s es moved)
    (he : es[moved]? = some e) (harrived : e.miss = true → e.arrived = true)
    (htags : c.tags = s.cache.tags) (hrequestFifo : c.requestFifo = s.cache.requestFifo)
    (hextra : c.extraMfFields = s.cache.extraMfFields)
    (hfragment : c.fragmentFifo.Holds ((es.drop (moved + 1)).map TexEntry.fragment))
    (hrob : c.rob.Holds ((waitingMisses es (moved + 1)).map p.robEntry))
    (hslot : ∀ i, c.rob.slot i = s.cache.rob.slot (i + if e.miss then 1 else 0))
    (hcache : c.cache = if e.miss then Function.update s.cache.cache e.cacheIndex ⟨true, p.block e⟩
      else s.cache.cache)
    (hres : c.resultFifo.Holds (res ++ [e.request]))
    (hreturned : s.returned ++ res = (es.take moved).map TexEntry.request) :
    p.Inv { s with cache := c } es (moved + 1) := by
  have hlt := (List.getElem?_eq_some_iff.1 he).1
  have hsplit := waitingMisses_of_getElem? he
  constructor
  · exact h.log
  · exact hlt
  · exact hfragment
  · exact hrob
  · intro i e' he'
    change c.extraMfFields.lookup _ = some (c.rob.slot i)
    rw [hextra, hslot]
    apply h.extra
    rw [hsplit]
    cases e.miss with
    | true => exact he'
    | false => exact he'
  · obtain ⟨rs, hrs, hnodup, hrequests, hwaits⟩ := h.requests
    refine ⟨rs, by rw [hrequestFifo]; exact hrs, hnodup, ?_, ?_⟩
    · intro mf hmf
      obtain ⟨e', he', huid, haddr, hunready⟩ := hrequests mf hmf
      refine ⟨e', ?_, huid, haddr, hunready⟩
      rw [hsplit, List.mem_append] at he'
      rcases he' with he' | he'
      · split at he'
        case isTrue hmiss =>
          obtain rfl := List.mem_singleton.1 he'
          rw [harrived hmiss] at hunready
          cases hunready
        case isFalse => cases he'
      · exact he'
    · intro e' he' hunready
      apply hwaits e' _ hunready
      rw [hsplit]
      exact List.mem_append_right _ he'
  · simp only [htags]
    exact h.tags
  · exact h.hits
  · intro idx b hb
    change c.cache idx = _
    rw [take_of_getElem? he, resident_concat] at hb
    rw [hcache]
    cases hmiss : e.miss with
    | false =>
        rw [hmiss, if_neg (by simp)] at hb
        exact h.data idx b hb
    | true =>
        rw [if_pos rfl]
        by_cases hidx : e.cacheIndex = idx
        · subst hidx
          rw [if_pos ⟨hmiss, rfl⟩] at hb
          rw [Function.update_self, Option.some.inj hb]
        · rw [if_neg fun hand => hidx hand.2] at hb
          rw [Function.update_of_ne fun heq => hidx heq.symm]
          exact h.data idx b hb
  · refine ⟨res ++ [e.request], hres, ?_⟩
    rw [take_of_getElem? he, List.map_append, ← hreturned, List.append_assoc]
    rfl
  · intro k e' hk he' hmiss
    rcases Nat.lt_succ_iff_lt_or_eq.1 hk with hk | rfl
    · exact h.arrived k e' hk he' hmiss
    · obtain rfl := Option.some.inj (he.symm.trans he')
      exact harrived hmiss

/-- The oldest access is read out when its data is there and the results have room. -/
theorem Inv.read_moves {res : List MemFetch} (h : p.Inv s es moved) (he : es[moved]? = some e)
    (harrived : e.miss = true → e.arrived = true) (hres : s.cache.resultFifo.Holds res)
    (hreturned : s.returned ++ res = (es.take moved).map TexEntry.request)
    (hroom : res.length < s.cache.resultFifo.size) :
    ∃ c, p.texRead s.cache = some c ∧ p.Inv { s with cache := c } es (moved + 1) ∧
      c.resultFifo.Holds (res ++ [e.request]) := by
  have hholds := h.fragment
  rw [drop_of_getElem? he, List.map_cons] at hholds
  have hsize : 0 < s.cache.fragmentFifo.size := by
    have hle := hholds.le
    simp only [List.length_cons] at hle
    omega
  have hpeek := hholds.peek (i := 0) rfl
  rw [hholds.slot_zero hsize] at hpeek
  obtain ⟨ff, hff, hffHolds, -⟩ := hholds.pop
  obtain ⟨rf, hrf, hrfHolds, -⟩ := hres.push hroom e.request
  have hgo : ¬ (s.cache.fragmentFifo.empty = true ∨ s.cache.resultFifo.full = true) := by
    rw [hholds.empty_iff, hres.full_iff]
    simp only [List.cons_ne_nil, false_or]
    omega
  have hrob := h.rob
  rw [waitingMisses_of_getElem? he] at hrob
  cases hmiss : e.miss with
  | false =>
      have hline := h.data e.cacheIndex _ (h.hits moved e he hmiss)
      refine ⟨{ s.cache with resultFifo := rf, fragmentFifo := ff }, ?_, ?_, hrfHolds⟩
      · rw [texRead, if_neg hgo, hpeek]
        simp [TexEntry.fragment, hmiss, hline, hrf, hff, block]
      · rw [hmiss] at hrob
        refine h.leave he harrived rfl rfl rfl hffHolds hrob ?_ ?_ hrfHolds hreturned
        · intro i
          rw [hmiss]
          rfl
        · rw [hmiss]
          rfl
  | true =>
      rw [hmiss, if_pos rfl, List.singleton_append, List.map_cons] at hrob
      have hrobSize : 0 < s.cache.rob.size := by
        have hle := hrob.le
        simp only [List.length_cons] at hle
        omega
      have hrobPeek := hrob.peek (i := 0) rfl
      rw [hrob.slot_zero hrobSize] at hrobPeek
      obtain ⟨rob, hpop, hrobHolds, -, hslot⟩ := hrob.pop
      refine ⟨{ s.cache with
        cache := Function.update s.cache.cache e.cacheIndex ⟨true, p.block e⟩
        resultFifo := rf, rob, fragmentFifo := ff }, ?_, ?_, hrfHolds⟩
      · rw [texRead, if_neg hgo, hpeek]
        simp [TexEntry.fragment, hmiss, hrobPeek, robEntry, harrived hmiss, hrf, hff, hpop, block]
      · refine h.leave he harrived rfl rfl rfl hffHolds hrobHolds ?_ ?_ hrfHolds hreturned
        · intro i
          rw [hmiss]
          exact hslot i
        · rw [hmiss]
          rfl

/-- A read keeps the invariant, and its assertions hold. -/
theorem Inv.read (h : p.Inv s es moved) :
    ∃ c moved', p.texRead s.cache = some c ∧ p.Inv { s with cache := c } es moved' := by
  by_cases hstop : s.cache.fragmentFifo.empty = true ∨ s.cache.resultFifo.full = true
  · exact ⟨s.cache, moved, by rw [texRead, if_pos hstop], h⟩
  obtain ⟨hwaiting, hroom⟩ := not_or.1 hstop
  obtain ⟨res, hres, hreturned⟩ := h.results
  have hlt : res.length < s.cache.resultFifo.size := by
    rw [hres.full_iff] at hroom
    exact Nat.lt_of_le_of_ne hres.le hroom
  cases he : es[moved]? with
  | none =>
      rw [h.fragment.empty_iff, List.drop_eq_nil_of_le (List.getElem?_eq_none_iff.1 he)] at hwaiting
      exact absurd rfl hwaiting
  | some e =>
      by_cases harrived : e.miss = true → e.arrived = true
      · obtain ⟨c, hc, hinv, -⟩ := h.read_moves he harrived hres hreturned hlt
        exact ⟨c, moved + 1, hc, hinv⟩
      · -- the data of the oldest miss has not come
        obtain ⟨hmiss, hunready⟩ := Classical.not_imp.1 harrived
        have hholds := h.fragment
        rw [drop_of_getElem? he, List.map_cons] at hholds
        have hrob := h.rob
        rw [waitingMisses_of_getElem? he, hmiss, if_pos rfl, List.singleton_append,
          List.map_cons] at hrob
        have hpeek := hholds.peek (i := 0) rfl
        have hrobPeek := hrob.peek (i := 0) rfl
        rw [hholds.slot_zero (Nat.lt_of_lt_of_le (by simp) hholds.le)] at hpeek
        rw [hrob.slot_zero (Nat.lt_of_lt_of_le (by simp) hrob.le)] at hrobPeek
        refine ⟨s.cache, moved, ?_, h⟩
        rw [texRead, if_neg hstop, hpeek]
        simp [TexEntry.fragment, hmiss, hrobPeek, robEntry, hunready, block]

/-- A cycle keeps the invariant, and its assertions hold. -/
theorem Inv.cycle (h : p.Inv s es moved) (portFull : Bool) :
    ∃ s' moved', p.next s (.cycle portFull) = some s' ∧ p.Inv s' es moved' := by
  obtain ⟨c, sent, hsend, hsent⟩ := h.send portFull
  obtain ⟨c', moved', hread, hinv⟩ := hsent.read
  refine ⟨_, moved', ?_, hinv⟩
  rw [next, texCycle, hsend]
  dsimp only at hread
  simp [hread]

/-! ## Answers of the memory -/

/-- The data of a request has come. -/
def mark (mf : MemFetch) (time : UInt32) (e : TexEntry) : TexEntry :=
  if e.miss = true ∧ e.request.requestUid = mf.requestUid then { e with arrived := true, time } else e

theorem mark_of_ne (h : e.request.requestUid ≠ mf.requestUid) : mark mf time e = e :=
  if_neg fun hand => h hand.2

@[simp] theorem mark_request : (mark mf time e).request = e.request := by
  unfold mark
  split_ifs <;> rfl

@[simp] theorem mark_miss : (mark mf time e).miss = e.miss := by
  unfold mark
  split_ifs <;> rfl

@[simp] theorem mark_cacheIndex : (mark mf time e).cacheIndex = e.cacheIndex := by
  unfold mark
  split_ifs <;> rfl

@[simp] theorem block_mark : p.block (mark mf time e) = p.block e := by
  rw [block, block, mark_request]

theorem arrived_mark (h : e.arrived = true) : (mark mf time e).arrived = true := by
  unfold mark
  split_ifs
  · rfl
  · exact h

theorem resident_map_mark (es : List TexEntry) (idx : ℕ) :
    p.resident (es.map (mark mf time)) idx = p.resident es idx := by
  induction es using List.reverseRecOn with
  | nil => rfl
  | append_singleton es e ih => simp [ih]

theorem waitingMisses_map_mark (es : List TexEntry) (moved : ℕ) :
    waitingMisses (es.map (mark mf time)) moved = (waitingMisses es moved).map (mark mf time) := by
  rw [waitingMisses, waitingMisses, ← List.map_drop, List.filter_map]
  congr 2
  funext e
  exact mark_miss

theorem markArrived_log (es : List TexEntry) :
    markArrived mf (es.map TexEntry.access) = (es.map (mark mf time)).map TexEntry.access := by
  rw [markArrived, List.map_map, List.map_map]
  congr 1
  funext e
  by_cases h : e.miss = true ∧ e.request.requestUid = mf.requestUid
  · simp [TexEntry.access, mark, h]
  · simp [TexEntry.access, mark, h]

/-- Two misses that wait are two requests. -/
theorem Inv.index_inj (h : p.Inv s es moved) {i j : ℕ} {e' : TexEntry}
    (hi : (waitingMisses es moved)[i]? = some e) (hj : (waitingMisses es moved)[j]? = some e')
    (huid : e.request.requestUid = e'.request.requestUid) : i = j := by
  have hle := h.rob.le
  rw [List.length_map] at hle
  have hislot := h.extra i e hi
  rw [huid, h.extra j e' hj] at hislot
  exact Fifo.slot_inj (Nat.lt_of_lt_of_le (List.getElem?_eq_some_iff.1 hi).1 hle)
    (Nat.lt_of_lt_of_le (List.getElem?_eq_some_iff.1 hj).1 hle) (Option.some.inj hislot).symm

/-- The reorder buffer with the entry of the request replaced. -/
theorem robEntries_mark (h : p.Inv s es moved) {i : ℕ} (hi : (waitingMisses es moved)[i]? = some e)
    (huid : e.request.requestUid = mf.requestUid) :
    ((waitingMisses es moved).map p.robEntry).set i (p.robEntry (mark mf time e)) =
      (waitingMisses (es.map (mark mf time)) moved).map p.robEntry := by
  rw [waitingMisses_map_mark, List.map_map]
  apply List.ext_getElem?
  intro j
  by_cases hij : i = j
  · subst hij
    rw [List.getElem?_set_self, List.getElem?_map, hi]
    · rfl
    · rw [List.length_map]
      exact (List.getElem?_eq_some_iff.1 hi).1
  · rw [List.getElem?_set_ne hij, List.getElem?_map, List.getElem?_map]
    cases hj : (waitingMisses es moved)[j]? with
    | none => rfl
    | some e' =>
        have hne : e'.request.requestUid ≠ mf.requestUid :=
          fun heq => hij (h.index_inj hi hj (huid.trans heq.symm))
        rw [Option.map_some, Option.map_some, Function.comp_apply, mark_of_ne hne]

/-- The requests without the one that was answered. -/
theorem Inv.requests_mark (h : p.Inv s es moved) (hsent : mf ∈ s.sent) :
    ∃ rs, s.cache.requestFifo.Holds rs ∧
      ((rs ++ s.sent.erase mf).map MemFetch.requestUid).Nodup ∧
      (∀ x ∈ rs ++ s.sent.erase mf, ∃ e ∈ waitingMisses (es.map (mark mf time)) moved,
        e.request.requestUid = x.requestUid ∧ e.request.addr = x.addr ∧ e.arrived = false) ∧
      ∀ e ∈ waitingMisses (es.map (mark mf time)) moved, e.arrived = false →
        ∃ x ∈ rs ++ s.sent.erase mf, x.requestUid = e.request.requestUid := by
  obtain ⟨rs, hrs, hnodup, hrequests, hwaits⟩ := h.requests
  have hperm : (rs ++ s.sent).Perm (mf :: (rs ++ s.sent.erase mf)) :=
    ((List.perm_cons_erase hsent).append_left rs).trans List.perm_middle
  have hnodup' := (hperm.map MemFetch.requestUid).nodup_iff.1 hnodup
  rw [List.map_cons, List.nodup_cons] at hnodup'
  -- the other requests of the cache are not this one
  have hother : ∀ x ∈ rs ++ s.sent.erase mf, x.requestUid ≠ mf.requestUid := by
    intro x hx heq
    apply hnodup'.1
    rw [← heq]
    exact List.mem_map_of_mem hx
  refine ⟨rs, hrs, hnodup'.2, ?_, ?_⟩
  · intro x hx
    obtain ⟨e', he', huid', hrest⟩ := hrequests x (hperm.mem_iff.2 (List.mem_cons_of_mem mf hx))
    refine ⟨e', ?_, huid', hrest⟩
    have hne : e'.request.requestUid ≠ mf.requestUid := by
      rw [huid']
      exact hother x hx
    rw [waitingMisses_map_mark, ← @mark_of_ne mf time e' hne]
    exact List.mem_map_of_mem he'
  · intro e' he' hwait
    rw [waitingMisses_map_mark] at he'
    obtain ⟨e₀, he₀, rfl⟩ := List.mem_map.1 he'
    have hne : e₀.request.requestUid ≠ mf.requestUid := by
      intro heq
      rw [mark, if_pos ⟨mem_waitingMisses he₀, heq⟩] at hwait
      cases hwait
    rw [mark_of_ne hne] at hwait ⊢
    obtain ⟨x, hx, hxuid⟩ := hwaits e₀ he₀ hwait
    refine ⟨x, ?_, hxuid⟩
    rcases List.mem_cons.1 (hperm.mem_iff.1 hx) with rfl | hx
    · exact absurd hxuid.symm hne
    · exact hx

/-- An answer is put into the entry of its request, and the assertions hold. -/
theorem Inv.fill (h : p.Inv s es moved) (hsent : mf ∈ s.sent) (time : UInt32) :
    ∃ s' es', p.next s (.fill mf time) = some s' ∧ p.Inv s' es' moved := by
  obtain ⟨rs, -, -, hrequests, -⟩ := h.requests
  obtain ⟨e, he, huid, haddr, hunready⟩ := hrequests mf (List.mem_append_right rs hsent)
  obtain ⟨i, hi⟩ := List.mem_iff_getElem?.1 he
  have hlt := (List.getElem?_eq_some_iff.1 hi).1
  have hlookup := h.extra i e hi
  rw [huid] at hlookup
  have hempty : s.cache.rob.empty = false := by
    rw [← Bool.not_eq_true, h.rob.empty_iff, List.map_eq_nil_iff]
    exact List.ne_nil_of_mem he
  have hpeek := h.rob.peek (i := i) (by rw [List.getElem?_map, hi]; rfl)
  refine ⟨{ s with
    cache.rob.data := Function.update s.cache.rob.data (s.cache.rob.slot i)
      (some ⟨true, time, e.cacheIndex, e.request, p.block e⟩)
    log := markArrived mf s.log
    sent := s.sent.erase mf }, es.map (mark mf time), ?_, ?_⟩
  · rw [next, texFill]
    simp [hlookup, hempty, hpeek, robEntry, hunready, block, haddr]
  constructor
  · rw [← markArrived_log, ← h.log]
  · rw [List.length_map]
    exact h.moved_le
  · rw [← List.map_drop, List.map_map]
    have hcomp : TexEntry.fragment ∘ mark mf time = TexEntry.fragment := by
      funext e
      simp [TexEntry.fragment]
    rw [hcomp]
    exact h.fragment
  · rw [← robEntries_mark h hi huid]
    have hentry : p.robEntry (mark mf time e) = ⟨true, time, e.cacheIndex, e.request, p.block e⟩ := by
      rw [mark, if_pos ⟨mem_waitingMisses he, huid⟩]
      rfl
    rw [hentry]
    exact h.rob.write (by rwa [List.length_map]) _
  · intro j e' he'
    rw [waitingMisses_map_mark, List.getElem?_map, Option.map_eq_some_iff] at he'
    obtain ⟨e₀, he₀, rfl⟩ := he'
    rw [mark_request]
    exact h.extra j e₀ he₀
  · exact h.requests_mark hsent
  · intro idx
    rw [resident_map_mark]
    exact h.tags idx
  · intro k e' he' hhit
    rw [List.getElem?_map, Option.map_eq_some_iff] at he'
    obtain ⟨e₀, he₀, rfl⟩ := he'
    rw [mark_miss] at hhit
    rw [← List.map_take, resident_map_mark, mark_cacheIndex, block_mark]
    exact h.hits k e₀ he₀ hhit
  · intro idx b hb
    rw [← List.map_take, resident_map_mark] at hb
    exact h.data idx b hb
  · obtain ⟨res, hres, hreturned⟩ := h.results
    refine ⟨res, hres, ?_⟩
    rw [hreturned, ← List.map_take, List.map_map]
    congr 1
    funext e
    exact mark_request.symm
  · intro k e' hk he' hmiss
    rw [List.getElem?_map, Option.map_eq_some_iff] at he'
    obtain ⟨e₀, he₀, rfl⟩ := he'
    rw [mark_miss] at hmiss
    exact arrived_mark (h.arrived k e₀ hk he₀ hmiss)

/-! ## Runs -/

theorem Inv.nextAccess (h : p.Inv s es moved) (hnext : p.next s .nextAccess = some s') :
    p.Inv s' es moved := by
  obtain ⟨⟨mf, rf⟩, hpop, rfl⟩ := Option.map_eq_some_iff.1 hnext
  obtain ⟨res, hres, hreturned⟩ := h.results
  obtain ⟨res', rfl, hres', -, -⟩ := hres.of_pop hpop
  refine { h with results := ⟨res', hres', ?_⟩ }
  rw [← hreturned, List.append_assoc]
  rfl

theorem inv_start (h : p.TexStart s) : p.Inv s [] 0 := by
  obtain ⟨c, hc, rfl⟩ := h
  simp only [newTexCache, Option.bind_eq_bind, Option.bind_eq_some_iff, Option.guard_eq_some',
    Option.pure_def, Option.some.injEq, exists_const] at hc
  obtain ⟨tags, htags, -, rfl⟩ := hc
  have hlines : ∀ idx, (tags.lines idx).status = .invalid := by
    intro idx
    unfold newArray at htags
    split at htags
    · split at htags
      · rw [← Option.some.inj htags]
      · cases htags
    · rw [← Option.some.inj htags]
  constructor
  · rfl
  · exact Nat.le_refl 0
  · exact Fifo.holds_new _
  · exact Fifo.holds_new _
  · intro i e he
    cases he
  · refine ⟨[], Fifo.holds_new _, List.nodup_nil, ?_, ?_⟩
    · intro mf hmf
      cases hmf
    · intro e he
      cases he
  · exact fun idx => Or.inl (hlines idx)
  · intro k e he
    cases he
  · intro idx b hb
    cases hb
  · exact ⟨[], Fifo.holds_new _, rfl⟩
  · intro k e hk
    cases hk

theorem inv_reach {events : List TexEvent} (h : Reach p.TexStart p.TexStep events s) :
    ∃ es moved, p.Inv s es moved := by
  apply h.invariant (fun _ s => ∃ es moved, p.Inv s es moved)
  · exact fun s hs => ⟨[], 0, inv_start hs⟩
  · rintro - s e s' - ⟨es, moved, hinv⟩ ⟨hallowed, hnext⟩
    cases e with
    | access mf time =>
        obtain ⟨es', hinv'⟩ := inv_access hinv hallowed hnext
        exact ⟨es', moved, hinv'⟩
    | cycle portFull =>
        obtain ⟨s₁, moved', hcycle, hinv'⟩ := hinv.cycle portFull
        obtain rfl := Option.some.inj (hcycle.symm.trans hnext)
        exact ⟨es, moved', hinv'⟩
    | fill mf time =>
        obtain ⟨s₁, es', hfill, hinv'⟩ := hinv.fill hallowed time
        obtain rfl := Option.some.inj (hfill.symm.trans hnext)
        exact ⟨es', moved, hinv'⟩
    | nextAccess => exact ⟨es, moved, hinv.nextAccess hnext⟩

/-- What holds of the cache in a state; the accesses are those of its log. -/
structure InOrder (p : TagParams) (s : TexSys) : Prop where
  /-- Every access has been returned, is a result that can be taken, or waits, in the order of the
  accesses; the data of every miss that does not wait has come. -/
  order : ∃ results waiting, s.cache.resultFifo.Holds results ∧ s.cache.fragmentFifo.Holds waiting ∧
    s.returned ++ results ++ waiting.map FragmentEntry.request = s.log.map TexAccess.request ∧
    ∀ a ∈ s.log.take (s.returned ++ results).length, a.miss = true → a.arrived = true
  /-- The oldest access that waits is a result after the next cycle, when the results have room and its
  data is not outstanding. -/
  progress : ∀ (results : List MemFetch) (a : TexAccess), s.cache.resultFifo.Holds results →
    s.log[(s.returned ++ results).length]? = some a → (a.miss = true → a.arrived = true) →
    results.length < s.cache.resultFifo.size →
    ∀ portFull, ∃ c sent, p.texCycle s.cache portFull = some (c, sent) ∧
      c.resultFifo.Holds (results ++ [a.request])
  /-- The request of a miss that waits for its data is on its way to the memory or there. -/
  outstanding : ∀ a ∈ s.log, a.miss = true → a.arrived = false →
    ∃ requests, s.cache.requestFifo.Holds requests ∧
      ∃ mf ∈ requests ++ s.sent, mf.requestUid = a.request.requestUid
  /-- The oldest request goes to the memory in the next cycle, when the port has room. -/
  sends : ∀ (mf : MemFetch) (requests : List MemFetch), s.cache.requestFifo.Holds (mf :: requests) →
    ∃ c, p.texCycle s.cache false = some (c, some mf) ∧ c.requestFifo.Holds requests
  /-- The oldest result is the next one that is handed out. -/
  returns : ∀ (mf : MemFetch) (results : List MemFetch), s.cache.resultFifo.Holds (mf :: results) →
    ∃ s', p.next s .nextAccess = some s' ∧ s'.returned = s.returned ++ [mf] ∧
      s'.cache.resultFifo.Holds results
  /-- The assertions of `cycle` hold. -/
  cycle : ∀ portFull, (p.texCycle s.cache portFull).isSome = true
  /-- The assertions of `fill` hold. -/
  fill : ∀ mf ∈ s.sent, ∀ time, (p.texFill s.cache mf time).isSome = true

/-- A read leaves the requests alone. -/
theorem requestFifo_texRead {c c' : TexCache} (h : p.texRead c = some c') : c'.requestFifo = c.requestFifo := by
  unfold texRead at h
  split at h
  · rw [← Option.some.inj h]
  · obtain ⟨e, -, h⟩ := Option.bind_eq_some_iff.1 h
    split at h
    · obtain ⟨r, -, h⟩ := Option.bind_eq_some_iff.1 h
      obtain ⟨_, -, h⟩ := Option.bind_eq_some_iff.1 h
      obtain ⟨_, -, h⟩ := Option.bind_eq_some_iff.1 h
      split at h
      · obtain ⟨_, -, h⟩ := Option.bind_eq_some_iff.1 h
        obtain ⟨_, -, h⟩ := Option.bind_eq_some_iff.1 h
        obtain ⟨_, -, h⟩ := Option.bind_eq_some_iff.1 h
        obtain ⟨_, -, h⟩ := Option.bind_eq_some_iff.1 h
        rw [← Option.some.inj h]
      · rw [← Option.some.inj h]
    · obtain ⟨_, -, h⟩ := Option.bind_eq_some_iff.1 h
      obtain ⟨_, -, h⟩ := Option.bind_eq_some_iff.1 h
      obtain ⟨_, -, h⟩ := Option.bind_eq_some_iff.1 h
      obtain ⟨_, -, h⟩ := Option.bind_eq_some_iff.1 h
      rw [← Option.some.inj h]

/-- The oldest request is sent when the port has room. -/
theorem Inv.sends (h : p.Inv s es moved) {rs : List MemFetch} (hrs : s.cache.requestFifo.Holds (mf :: rs)) :
    ∃ c, p.texCycle s.cache false = some (c, some mf) ∧ c.requestFifo.Holds rs := by
  obtain ⟨r, hpop, hr, -, -⟩ := hrs.pop
  obtain ⟨c, sent, hsend, hsent⟩ := h.send false
  have hpushed : texSend s.cache false = some ({ s.cache with requestFifo := r }, some mf) := by
    have hwait : ¬ (s.cache.requestFifo.empty = true ∨ false = true) := by
      rw [hrs.empty_iff]
      simp
    rw [texSend, if_neg hwait, hpop]
    rfl
  obtain ⟨rfl, rfl⟩ := Prod.mk.inj (Option.some.inj (hsend.symm.trans hpushed))
  obtain ⟨c', moved', hread, -⟩ := hsent.read
  dsimp only at hread
  refine ⟨c', by rw [texCycle, hpushed]; simp [hread], ?_⟩
  rw [requestFifo_texRead hread]
  exact hr

/-- The oldest access that waits becomes a result when it can. -/
theorem Inv.oldest_moves (h : p.Inv s es moved) {e : TexEntry} {res : List MemFetch}
    (he : es[moved]? = some e) (harrived : e.miss = true → e.arrived = true)
    (hres : s.cache.resultFifo.Holds res)
    (hreturned : s.returned ++ res = (es.take moved).map TexEntry.request)
    (hroom : res.length < s.cache.resultFifo.size) (portFull : Bool) :
    ∃ c sent, p.texCycle s.cache portFull = some (c, sent) ∧ c.resultFifo.Holds (res ++ [e.request]) := by
  obtain ⟨c, sent, hsend, hsent⟩ := h.send portFull
  have hsame : c.resultFifo = s.cache.resultFifo := by
    unfold texSend at hsend
    split at hsend
    · rw [(Prod.mk.inj (Option.some.inj hsend)).1]
    · obtain ⟨r, -, heq⟩ := Option.map_eq_some_iff.1 hsend
      rw [← (Prod.mk.inj heq).1]
  rw [← hsame] at hres hroom
  obtain ⟨c', hread, -, hresults⟩ := hsent.read_moves he harrived hres hreturned hroom
  refine ⟨c', sent, ?_, hresults⟩
  rw [texCycle, hsend]
  dsimp only at hread
  simp [hread]

/-- A miss without its data still waits, so its request is queued or sent. -/
theorem Inv.on_its_way (h : p.Inv s es moved) {a : TexAccess} (ha : a ∈ s.log) (hmiss : a.miss = true)
    (hunready : a.arrived = false) : ∃ requests, s.cache.requestFifo.Holds requests ∧
      ∃ mf ∈ requests ++ s.sent, mf.requestUid = a.request.requestUid := by
  rw [h.log] at ha
  obtain ⟨e, he, rfl⟩ := List.mem_map.1 ha
  obtain ⟨rs, hrs, -, -, hwaits⟩ := h.requests
  refine ⟨rs, hrs, hwaits e ?_ hunready⟩
  obtain ⟨k, hk⟩ := List.mem_iff_getElem?.1 he
  rcases Nat.lt_or_ge k moved with hlt | hge
  · have harrived := h.arrived k e hlt hk hmiss
    rw [show e.arrived = false from hunready] at harrived
    cases harrived
  · apply List.mem_filter.2
    refine ⟨List.mem_iff_getElem?.2 ⟨k - moved, ?_⟩, hmiss⟩
    rw [List.getElem?_drop, Nat.add_sub_cancel' hge]
    exact hk

theorem Inv.inOrder (h : p.Inv s es moved) : InOrder p s := by
  obtain ⟨res, hres, hreturned⟩ := h.results
  have hlen : (s.returned ++ res).length = moved := by
    rw [hreturned, List.length_map, List.length_take_of_le h.moved_le]
  constructor
  · refine ⟨res, _, hres, h.fragment, ?_, ?_⟩
    · rw [hreturned, h.log, List.map_map, List.map_map]
      change (es.take moved).map TexEntry.request ++ (es.drop moved).map TexEntry.request =
        es.map TexEntry.request
      rw [← List.map_append, List.take_append_drop]
    · intro a ha hmiss
      rw [hlen, h.log, ← List.map_take] at ha
      obtain ⟨e, he, rfl⟩ := List.mem_map.1 ha
      obtain ⟨k, hk⟩ := List.mem_iff_getElem?.1 he
      have hlt : k < moved := by
        have hk' := (List.getElem?_eq_some_iff.1 hk).1
        rw [List.length_take] at hk'
        omega
      rw [List.getElem?_take_of_lt hlt] at hk
      exact h.arrived k e hlt hk hmiss
  · intro res' a hres' ha harrived hroom portFull
    obtain rfl := hres.unique hres'
    rw [hlen, h.log, List.getElem?_map, Option.map_eq_some_iff] at ha
    obtain ⟨e, he, rfl⟩ := ha
    exact h.oldest_moves he harrived hres hreturned hroom portFull
  · exact fun a => h.on_its_way
  · exact fun mf rs hrs => h.sends hrs
  · intro mf results hholds
    obtain ⟨r, hpop, hr, -, -⟩ := hholds.pop
    exact ⟨_, by rw [next, hpop]; rfl, rfl, hr⟩
  · intro portFull
    obtain ⟨s', moved', hcycle, -⟩ := h.cycle portFull
    obtain ⟨r, hr, -⟩ := Option.map_eq_some_iff.1 hcycle
    rw [hr]
    rfl
  · intro mf hmf time
    obtain ⟨s', es', hfill, -⟩ := h.fill hmf time
    obtain ⟨c, hc, -⟩ := Option.map_eq_some_iff.1 hfill
    rw [hc]
    rfl

/-- **The texture cache is in order**, for every interleaving of accesses, cycles, answers in any order,
and results that are taken. -/
theorem tex_in_order {events : List TexEvent} (h : Reach p.TexStart p.TexStep events s) :
    InOrder p s := by
  obtain ⟨es, moved, hinv⟩ := inv_reach h
  exact hinv.inOrder

/-- A texture cache with two lines. -/
def twoTexLines : TagParams where
  config :=
    { cls := .base, nset := 1, lineSz := 128, assoc := 2, replacementPolicy := .lru
      writePolicy := .readOnly, allocPolicy := .onMiss, writeAllocPolicy := .noWriteAllocate
      mshrType := .texFifo, mshrEntries := 4, mshrMaxMerge := 4, missQueueSize := 4
      resultFifoEntries := 2, dataPortWidth := 0, setIndexFunction := .linear }
  comp := ⟨0, 1, 32⟩
  isL1D := false

/-- A texture read of the block at 0. -/
def texelRead (uid : ℕ) : MemFetch :=
  { requestUid := uid, accessType := .textureAccR, isWrite := false, isAtomic := false, addr := 0,
    dataSize := 32 }

/-- A miss and a hit behind it, which waits for the data of the miss. -/
theorem tex_in_order_twoTexLines : ∃ s,
    Reach twoTexLines.TexStart twoTexLines.TexStep
      [.access (texelRead 1) 0, .cycle false, .access (texelRead 2) 1] s ∧ InOrder twoTexLines s := by
  have h₁ : Reach twoTexLines.TexStart twoTexLines.TexStep [.access (texelRead 1) 0] _ :=
    .step (.start ⟨_, rfl, rfl⟩) ⟨by simp [TexAllowed], rfl⟩
  have h₂ : Reach twoTexLines.TexStart twoTexLines.TexStep
      [.access (texelRead 1) 0, .cycle false] _ := .step h₁ ⟨by trivial, rfl⟩
  have h₃ : Reach twoTexLines.TexStart twoTexLines.TexStep
      [.access (texelRead 1) 0, .cycle false, .access (texelRead 2) 1] _ :=
    .step h₂ ⟨by simp [TexAllowed, texelRead], rfl⟩
  exact ⟨_, h₃, tex_in_order h₃⟩

end TagParams

end CompressionWork.Cache
