import CompressionWork.Icnt.Mesh

/-!
# Routing in a torus

The same routers as in a mesh, of which the first and the last one of a dimension are neighbours too.  In every
dimension a packet goes the shorter way round (`dor_next_torus` of `routefunc.cpp`), and it uses one half of the
virtual channels in a ring: the one it was given when it turned into it, with one dateline or, where the halves
are balanced, with two.

* `dorNextTorus` — the output port and the partition.
* `cut`, `Fits` — where the packets of a partition do not pass, and what such a packet has left to go.
* `torus_delivers` — **every packet arrives** by a shortest way, whatever the coins say.
* `torus_no_cycle` — **no cycle of channels and partitions can wait for each other**.
-/

namespace CompressionWork.Icnt

open Codec

/-- A head flit at a router: the input port that it came by, and `ph`. -/
structure TorusFlit where
  node : ℕ
  inPort : ℕ
  ph : ℤ
  deriving DecidableEq

namespace KNCube

variable (net : KNCube)

/-- The loop over the dimensions: what is left of the two numbers, and `dim_left`. -/
def openDim : ℕ → ℕ → ℕ → ℕ → ℕ × ℕ × ℕ
  | 0, cur, dest, dimLeft => (cur, dest, dimLeft)
  | rest + 1, cur, dest, dimLeft =>
    if cur % net.k ≠ dest % net.k then (cur, dest, dimLeft)
    else openDim rest (cur / net.k) (dest / net.k) (dimLeft + 1)

/-- `dir`, where `coin` is the `RandomInt(1)` that decides between two ways of one length. -/
def torusDir (coin : Bool) (cur dest : ℕ) : ℕ :=
  let dist2 : ℤ := (net.k : ℤ) - 2 * ((dest + net.k - cur) % net.k : ℕ)
  if 0 < dist2 ∨ dist2 = 0 ∧ coin = true then 0 else 1

/-- The partition at a turn. With `balance` there are two datelines, one behind the last place of the ring and one
in the middle, and `coin` decides for the packets that pass neither; without it both directions have the same
test. -/
def torusPartition (balance coin : Bool) (dir cur dest : ℕ) : ℤ :=
  if balance = true then
    if dir = 0 ∧ dest < cur ∨ dir = 1 ∧ cur < dest then 1
    else if dir = 0 ∧ cur ≤ (net.k - 1) / 2 ∧ (net.k - 1) / 2 < dest ∨
        dir = 1 ∧ (net.k - 1) / 2 < cur ∧ dest ≤ (net.k - 1) / 2 then 0
    else if coin = true then 1 else 0
  else if dir = 0 ∧ dest < cur ∨ dir = 1 ∧ dest < cur then 1 else 0

/-- `dor_next_torus`: `out_port` and `partition`, with the two coins. -/
def dorNextTorus (balance : Bool) (coin : Bool × Bool) (cur dest inPort : ℕ) (ph : ℤ) : ℕ × ℤ :=
  let r := net.openDim net.n cur dest 0
  if r.2.2 < net.n then
    if inPort / 2 ≠ r.2.2 then
      let dir := net.torusDir coin.1 (r.1 % net.k) (r.2.1 % net.k)
      (2 * r.2.2 + dir, net.torusPartition balance coin.2 dir (r.1 % net.k) (r.2.1 % net.k))
    else (opposite inPort, ph)
  else (2 * net.n, ph)

/-- The output port and the partition of a flit. -/
def torusNext (balance : Bool) (coin : Bool × Bool) (dest : ℕ) (s : TorusFlit) : ℕ × ℤ :=
  net.dorNextTorus balance coin s.node dest s.inPort s.ph

/-- The flit one hop later. -/
def torusHop (balance : Bool) (coin : Bool × Bool) (dest : ℕ) (s : TorusFlit) : TorusFlit :=
  if s.node = dest then s
  else
    let r := net.torusNext balance coin dest s
    ⟨net.neighbor s.node r.1, opposite r.1, r.2⟩

/-- The route from the injection port of a router, with the coins of each hop. -/
def torusRoute (balance : Bool) (coin : ℕ → Bool × Bool) (source dest : ℕ) : ℕ → TorusFlit
  | 0 => ⟨source, 2 * net.n, -1⟩
  | m + 1 => net.torusHop balance (coin m) dest (torusRoute balance coin source dest m)

/-- The steps between two places of a ring, the shorter way round. -/
def ringDistance (x t : ℕ) : ℕ := min ((x : ℤ) - t).natAbs (net.k - ((x : ℤ) - t).natAbs)

/-- The hops that a packet needs at least. -/
def torusDistance (node dest : ℕ) : ℕ :=
  ∑ d ∈ Finset.range net.n, net.ringDistance (digit net.k d node) (digit net.k d dest)

/-- A flit takes a channel and one half of its virtual channels. -/
def TorusTakes (balance : Bool) (coin : Bool × Bool) (dest : ℕ) (s : TorusFlit) (a : ℕ × ℤ) : Prop :=
  s.node ≠ dest ∧ (net.outputChannels s.node)[(net.torusNext balance coin dest s).1]? = some a.1 ∧
    (net.torusNext balance coin dest s).2 = a.2

/-- A packet that has the one may need the other one next. -/
def TorusDepends (balance : Bool) (a b : ℕ × ℤ) : Prop :=
  ∃ source < net.size, ∃ dest < net.size, ∃ (coin : ℕ → Bool × Bool) (m : ℕ),
    net.TorusTakes balance (coin m) dest (net.torusRoute balance coin source dest m) a ∧
      net.TorusTakes balance (coin (m + 1)) dest (net.torusRoute balance coin source dest (m + 1)) b

/-! ## A ring -/

/-- The next place of a ring. -/
def ringNext (dir x : ℕ) : ℕ :=
  if dir = 0 then if x = net.k - 1 then 0 else x + 1 else if x = 0 then net.k - 1 else x - 1

/-- The packets of a partition, in one direction of a ring, do not go from one half of it to the other in the
middle; the others do not pass the end. -/
def cut (balance : Bool) (dir : ℕ) (ph : ℤ) : Bool :=
  if balance = true then ph = 1 else dir = 0 ∧ ph = 1 ∨ dir = 1 ∧ ph = 0

/-- What such a packet can have left to go, from `x` to `t`: half the ring at most. -/
def Fits (cut : Bool) (dir x t : ℕ) : Prop :=
  if cut = true then
    dir = 0 ∧ (x < t ∧ 2 * (t - x) ≤ net.k ∧ (t ≤ (net.k - 1) / 2 ∨ (net.k - 1) / 2 < x) ∨
        t < x ∧ 2 * (t + net.k - x) ≤ net.k) ∨
      dir = 1 ∧ (t < x ∧ 2 * (x - t) ≤ net.k ∧ (x ≤ (net.k - 1) / 2 ∨ (net.k - 1) / 2 < t) ∨
        x < t ∧ 2 * (x + net.k - t) ≤ net.k)
  else dir = 0 ∧ x < t ∧ 2 * (t - x) ≤ net.k ∨ dir = 1 ∧ t < x ∧ 2 * (x - t) ≤ net.k

/-- The places of a ring in an order in which these packets pass them. -/
def ringRank (cut : Bool) (dir x : ℕ) : ℕ :=
  if cut = true then
    if dir = 0 then if x ≤ (net.k - 1) / 2 then x + net.k else x
    else if (net.k - 1) / 2 < x then 2 * net.k - x else net.k - x
  else if dir = 0 then x else net.k - x

variable {net} {balance c : Bool} {coin : Bool × Bool} {node source dest cur dim d e p x t m dir : ℕ} {ph : ℤ}
  {s : TorusFlit}

theorem torusDir_lt (coin : Bool) (x t : ℕ) : net.torusDir coin x t < 2 := by
  simp only [torusDir]
  split_ifs <;> omega

/-- The shorter way round. -/
theorem torusDir_spec (coin : Bool) (hx : x < net.k) (ht : t < net.k) (hdir : net.torusDir coin x t = dir) :
    dir = 0 ∧ 2 * (if x ≤ t then t - x else t + net.k - x) ≤ net.k ∨
      dir = 1 ∧ net.k ≤ 2 * (if x ≤ t then t - x else t + net.k - x) := by
  have hmod : (t + net.k - x) % net.k = if x ≤ t then t - x else t + net.k - x := by
    split_ifs with hle
    · rw [show t + net.k - x = t - x + net.k by omega, Nat.add_mod_right, Nat.mod_eq_of_lt (by omega)]
    · exact Nat.mod_eq_of_lt (by omega)
  rw [torusDir, hmod] at hdir
  split_ifs at hdir ⊢ <;> omega

theorem fits_turn (balance : Bool) (coin : Bool × Bool) (hx : x < net.k) (ht : t < net.k) (hne : x ≠ t) :
    net.Fits (cut balance (net.torusDir coin.1 x t)
        (net.torusPartition balance coin.2 (net.torusDir coin.1 x t) x t))
      (net.torusDir coin.1 x t) x t := by
  generalize hdir : net.torusDir coin.1 x t = dir
  have hshort := torusDir_spec coin.1 hx ht hdir
  unfold Fits
  rcases hshort with ⟨rfl, hshort⟩ | ⟨rfl, hshort⟩
  · by_cases hlt : x < t
    · rw [if_pos hlt.le] at hshort
      split_ifs with hcut
      · refine .inl ⟨rfl, .inl ⟨hlt, hshort, ?_⟩⟩
        unfold cut torusPartition at hcut
        split_ifs at hcut <;> simp_all <;> omega
      · exact .inl ⟨rfl, hlt, hshort⟩
    · rw [if_neg (by omega)] at hshort
      rw [if_pos (by
        unfold cut torusPartition
        split_ifs <;> simp_all <;> omega)]
      exact .inl ⟨rfl, .inr ⟨by omega, hshort⟩⟩
  · by_cases hlt : x < t
    · rw [if_pos hlt.le] at hshort
      rw [if_pos (by
        unfold cut torusPartition
        split_ifs <;> simp_all
        omega)]
      exact .inr ⟨rfl, .inr ⟨hlt, by omega⟩⟩
    · rw [if_neg (by omega)] at hshort
      split_ifs with hcut
      · refine .inr ⟨rfl, .inl ⟨by omega, by omega, ?_⟩⟩
        unfold cut torusPartition at hcut
        split_ifs at hcut <;> simp_all <;> omega
      · exact .inr ⟨rfl, by omega, by omega⟩

theorem fits_next (hx : x < net.k) (ht : t < net.k) (h : net.Fits c dir x t) (hne : net.ringNext dir x ≠ t) :
    net.Fits c dir (net.ringNext dir x) t := by
  unfold ringNext at hne ⊢
  unfold Fits at h ⊢
  by_cases hcut : c = true
  · rw [if_pos hcut] at h ⊢
    rcases h with ⟨hdir, h⟩ | ⟨hdir, h⟩
    · rw [if_pos hdir] at *
      split_ifs at * <;> omega
    · rw [if_neg (by omega)] at *
      split_ifs at * <;> omega
  · rw [if_neg hcut] at h ⊢
    rcases h with ⟨hdir, h⟩ | ⟨hdir, h⟩
    · rw [if_pos hdir] at *
      split_ifs at * <;> omega
    · rw [if_neg (by omega)] at *
      split_ifs at * <;> omega

/-- A step brings the packet nearer. -/
theorem ringDistance_next (hx : x < net.k) (ht : t < net.k) (h : net.Fits c dir x t) :
    net.ringDistance (net.ringNext dir x) t + 1 = net.ringDistance x t := by
  unfold ringNext ringDistance
  unfold Fits at h
  by_cases hcut : c = true
  · rw [if_pos hcut] at h
    rcases h with ⟨hdir, h⟩ | ⟨hdir, h⟩
    · rw [if_pos hdir] at *
      split_ifs at * <;> omega
    · rw [if_neg (by omega)] at *
      split_ifs at * <;> omega
  · rw [if_neg hcut] at h
    rcases h with ⟨hdir, h⟩ | ⟨hdir, h⟩
    · rw [if_pos hdir] at *
      split_ifs at * <;> omega
    · rw [if_neg (by omega)] at *
      split_ifs at * <;> omega

theorem ringRank_next (hx : x < net.k) (ht : t < net.k) (h : net.Fits c dir x t) (hne : net.ringNext dir x ≠ t) :
    net.ringRank c dir x < net.ringRank c dir (net.ringNext dir x) := by
  unfold ringNext at hne ⊢
  unfold Fits at h
  unfold ringRank
  by_cases hcut : c = true
  · rw [if_pos hcut] at h
    rw [if_pos hcut, if_pos hcut]
    rcases h with ⟨hdir, h⟩ | ⟨hdir, h⟩
    · rw [if_pos hdir] at *
      split_ifs at * <;> omega
    · rw [if_neg (by omega)] at *
      split_ifs at * <;> omega
  · rw [if_neg hcut] at h
    rw [if_neg hcut, if_neg hcut]
    rcases h with ⟨hdir, h⟩ | ⟨hdir, h⟩
    · rw [if_pos hdir] at *
      split_ifs at * <;> omega
    · rw [if_neg (by omega)] at *
      split_ifs at * <;> omega

theorem ringRank_le (dir : ℕ) (hx : x < net.k) : net.ringRank c dir x ≤ 2 * net.k := by
  unfold ringRank
  split_ifs <;> omega

/-- No step brings a packet nearer by more than one. -/
theorem ringDistance_le (hx : x < net.k) (ht : t < net.k) :
    net.ringDistance x t ≤ net.ringDistance (net.ringNext dir x) t + 1 := by
  unfold ringNext ringDistance
  split_ifs <;> omega

/-! ## The next port -/

theorem digit_neighbor (hk : 0 < net.k) (e : ℕ) : digit net.k e (net.neighbor node p) =
    if e = p / 2 then net.ringNext (p % 2) (digit net.k e node) else digit net.k e node := by
  have hlt : digit net.k (p / 2) node < net.k := digit_lt hk
  unfold neighbor ringNext
  by_cases heven : p % 2 = 0
  · rw [if_pos heven, if_pos heven]
    by_cases hlast : digit net.k (p / 2) node = net.k - 1
    · rw [rightNode_of_last hlast, digit_sub hk hlast.ge]
      split_ifs with he hne <;> simp_all
    · rw [rightNode_of_lt (by omega), digit_add hk (by omega)]
      split_ifs with he hne <;> simp_all
  · rw [if_neg heven, if_neg heven]
    by_cases hzero : digit net.k (p / 2) node = 0
    · rw [leftNode_of_zero hzero, digit_add hk (by omega)]
      split_ifs with he hne <;> simp_all
    · rw [leftNode_of_pos (by omega), digit_sub hk (by omega)]
      split_ifs with he hne <;> simp_all

variable (net cur dest) in
/-- By induction on the dimensions that are left: those below are done. -/
theorem openDim_spec (rest : ℕ) (h : ∀ e < d, digit net.k e cur = digit net.k e dest) :
    ∃ dim ≤ d + rest, net.openDim rest (cur / net.k ^ d) (dest / net.k ^ d) d =
        (cur / net.k ^ dim, dest / net.k ^ dim, dim) ∧
      (∀ e < dim, digit net.k e cur = digit net.k e dest) ∧
      (dim = d + rest ∨ digit net.k dim cur ≠ digit net.k dim dest) := by
  induction rest generalizing d with
  | zero => exact ⟨d, le_rfl, rfl, h, .inl rfl⟩
  | succ rest ih =>
    by_cases hne : digit net.k d cur ≠ digit net.k d dest
    · exact ⟨d, by omega, if_pos hne, h, .inr hne⟩
    · obtain ⟨dim, hle, hresult, hbelow, hlast⟩ := ih (d := d + 1) fun e he => by
        rcases Nat.lt_succ_iff_lt_or_eq.1 he with hlt | rfl
        · exact h e hlt
        · exact not_not.1 hne
      refine ⟨dim, by omega, ?_, hbelow, hlast.imp (fun heq => by omega) id⟩
      rw [openDim, if_neg (show ¬ cur / net.k ^ d % net.k ≠ dest / net.k ^ d % net.k from hne),
        Nat.div_div_eq_div_mul, Nat.div_div_eq_div_mul, ← pow_succ]
      exact hresult

/-- A flit on its way: the dimensions before the one that it comes along are done, and if that one is not, it
goes on in its ring. -/
structure OnRoute (net : KNCube) (balance : Bool) (dest : ℕ) (s : TorusFlit) : Prop where
  lt : s.node < net.size
  port : s.inPort ≤ 2 * net.n
  done : s.inPort < 2 * net.n → ∀ e < s.inPort / 2, digit net.k e s.node = digit net.k e dest
  fits : s.inPort < 2 * net.n → digit net.k (s.inPort / 2) s.node ≠ digit net.k (s.inPort / 2) dest →
    net.Fits (cut balance (opposite s.inPort % 2) s.ph) (opposite s.inPort % 2) (digit net.k (s.inPort / 2) s.node)
      (digit net.k (s.inPort / 2) dest)

/-- What a flit does at a router: it goes along the dimension `d`, the first that is not done. -/
structure Leaves (net : KNCube) (balance : Bool) (coin : Bool × Bool) (dest : ℕ) (s : TorusFlit) (d : ℕ) :
    Prop where
  lt : d < net.n
  port : (net.torusNext balance coin dest s).1 / 2 = d
  done : ∀ e < d, digit net.k e s.node = digit net.k e dest
  ne : digit net.k d s.node ≠ digit net.k d dest
  fits : net.Fits (cut balance ((net.torusNext balance coin dest s).1 % 2) (net.torusNext balance coin dest s).2)
    ((net.torusNext balance coin dest s).1 % 2) (digit net.k d s.node) (digit net.k d dest)
  straight : s.inPort / 2 = d → net.torusNext balance coin dest s = (opposite s.inPort, s.ph)

theorem torusNext_spec (coin : Bool × Bool) (hk : 0 < net.k) (hdest : dest < net.size) (h : OnRoute net balance dest s)
    (hne : s.node ≠ dest) : ∃ d, Leaves net balance coin dest s d := by
  obtain ⟨d, hle, hopen, hdone, hlast⟩ := openDim_spec net dest s.node (d := 0) net.n fun e he =>
      absurd he e.not_lt_zero
  rw [pow_zero, Nat.div_one, Nat.div_one] at hopen
  have hd : d < net.n := by
    by_contra hno
    exact hne (eq_of_digits h.lt hdest fun e he => hdone e (by omega))
  have hdiff : digit net.k d s.node ≠ digit net.k d dest := hlast.resolve_left (by omega)
  by_cases hsame : s.inPort / 2 = d
  · have hport : s.inPort < 2 * net.n := by omega
    have hnext : net.torusNext balance coin dest s = (opposite s.inPort, s.ph) := by
      rw [torusNext, dorNextTorus, hopen]
      simp only
      rw [if_pos hd, if_neg (not_not.2 hsame)]
    have hfits := h.fits hport (by rwa [hsame])
    rw [hsame] at hfits
    refine ⟨d, hd, ?_, hdone, hdiff, by rwa [hnext], fun _ => hnext⟩
    rw [hnext]
    unfold opposite
    simp only
    split_ifs <;> omega
  · have hnext : net.torusNext balance coin dest s =
        (2 * d + net.torusDir coin.1 (digit net.k d s.node) (digit net.k d dest),
          net.torusPartition balance coin.2 (net.torusDir coin.1 (digit net.k d s.node) (digit net.k d dest))
            (digit net.k d s.node) (digit net.k d dest)) := by
      rw [torusNext, dorNextTorus, hopen]
      simp only
      rw [if_pos hd, if_pos hsame]
      rfl
    have hdir : net.torusDir coin.1 (digit net.k d s.node) (digit net.k d dest) < 2 := torusDir_lt _ _ _
    have hfits := fits_turn balance coin (digit_lt hk) (digit_lt hk) hdiff
    refine ⟨d, hd, ?_, hdone, hdiff, ?_, fun hno => absurd hno hsame⟩
    · rw [hnext]
      simp only
      omega
    · rw [hnext]
      simp only
      rwa [show (2 * d + net.torusDir coin.1 (digit net.k d s.node) (digit net.k d dest)) % 2 =
        net.torusDir coin.1 (digit net.k d s.node) (digit net.k d dest) by omega]

theorem torusHop_of_ne (hne : s.node ≠ dest) : net.torusHop balance coin dest s =
    ⟨net.neighbor s.node (net.torusNext balance coin dest s).1, opposite (net.torusNext balance coin dest s).1,
      (net.torusNext balance coin dest s).2⟩ := if_neg hne

theorem opposite_div (p : ℕ) : opposite p / 2 = p / 2 := by
  unfold opposite
  split_ifs <;> omega

/-- **A hop stays on the route.** -/
theorem OnRoute.hop (coin : Bool × Bool) (hk : 0 < net.k) (hdest : dest < net.size) (h : OnRoute net balance dest s) :
    OnRoute net balance dest (net.torusHop balance coin dest s) := by
  by_cases hne : s.node = dest
  · rwa [torusHop, if_pos hne]
  obtain ⟨d, hleaves⟩ := torusNext_spec coin hk hdest h hne
  have hd := hleaves.lt
  have hport := hleaves.port
  have hlt : (net.torusNext balance coin dest s).1 < 2 * net.n := by omega
  rw [torusHop_of_ne hne]
  refine ⟨neighbor_lt hk hlt h.lt, (opposite_lt hlt).le, fun _ e he => ?_, fun _ hdiff => ?_⟩
  · simp only [opposite_div, hport] at he ⊢
    rw [digit_neighbor hk, if_neg (by omega)]
    exact hleaves.done e he
  · simp only [opposite_div, opposite_opposite, hport] at hdiff ⊢
    rw [digit_neighbor hk, if_pos hport.symm] at hdiff ⊢
    exact fits_next (digit_lt hk) (digit_lt hk) hleaves.fits hdiff

theorem onRoute_route (balance : Bool) (coin : ℕ → Bool × Bool) (hk : 0 < net.k) (hsource : source < net.size)
    (hdest : dest < net.size) (m : ℕ) : OnRoute net balance dest (net.torusRoute balance coin source dest m) := by
  induction m with
  | zero => exact ⟨hsource, le_rfl, fun h => absurd h (lt_irrefl _), fun h => absurd h (lt_irrefl _)⟩
  | succ m ih => exact ih.hop _ hk hdest

/-! ## Arrival -/

theorem distance_torusHop (coin : Bool × Bool) (hk : 0 < net.k) (hdest : dest < net.size)
    (h : OnRoute net balance dest s) (hne : s.node ≠ dest) :
    net.torusDistance (net.torusHop balance coin dest s).node dest + 1 = net.torusDistance s.node dest := by
  obtain ⟨d, hleaves⟩ := torusNext_spec coin hk hdest h hne
  rw [torusHop_of_ne hne]
  refine sum_pred hleaves.lt ?_ fun e he => ?_
  · simp only
    rw [digit_neighbor hk, if_pos hleaves.port.symm]
    exact ringDistance_next (digit_lt hk) (digit_lt hk) hleaves.fits
  · simp only
    rw [digit_neighbor hk, if_neg (by rwa [hleaves.port])]

theorem ringDistance_self (x : ℕ) : net.ringDistance x x = 0 := by simp [ringDistance]

theorem torusDistance_self (node : ℕ) : net.torusDistance node node = 0 := by
  simp [torusDistance, ringDistance_self]

theorem torusDistance_eq_zero (hk : 0 < net.k) (hcur : cur < net.size) (hdest : dest < net.size)
    (h : net.torusDistance cur dest = 0) : cur = dest :=
  eq_of_digits hcur hdest fun d hd => by
    have hterm := Finset.sum_eq_zero_iff.1 h d (Finset.mem_range.2 hd)
    have hx : digit net.k d cur < net.k := digit_lt hk
    have ht : digit net.k d dest < net.k := digit_lt hk
    unfold ringDistance at hterm
    omega

/-- No hop brings a packet nearer by more than one. -/
theorem torusDistance_le (hk : 0 < net.k) (node dest p : ℕ) :
    net.torusDistance node dest ≤ net.torusDistance (net.neighbor node p) dest + 1 := by
  have hrest : ∀ e, e ≠ p / 2 → net.ringDistance (digit net.k e (net.neighbor node p)) (digit net.k e dest) =
      net.ringDistance (digit net.k e node) (digit net.k e dest) := fun e he => by
    rw [digit_neighbor hk, if_neg he]
  unfold torusDistance
  by_cases hmem : p / 2 ∈ Finset.range net.n
  · have hself : net.ringDistance (digit net.k (p / 2) node) (digit net.k (p / 2) dest) ≤
        net.ringDistance (net.ringNext (p % 2) (digit net.k (p / 2) node)) (digit net.k (p / 2) dest) + 1 :=
      ringDistance_le (digit_lt hk) (digit_lt hk)
    rw [← Finset.add_sum_erase _ _ hmem, ← Finset.add_sum_erase _ _ hmem,
      Finset.sum_congr rfl fun e he => hrest e (Finset.ne_of_mem_erase he), digit_neighbor hk, if_pos rfl]
    omega
  · rw [Finset.sum_congr rfl fun e he => hrest e fun heq => hmem (heq ▸ he)]
    omega

theorem torusNext_eq_iff (coin : Bool × Bool) (hk : 0 < net.k) (hdest : dest < net.size)
    (h : OnRoute net balance dest s) : (net.torusNext balance coin dest s).1 = 2 * net.n ↔ s.node = dest := by
  refine ⟨fun heject => ?_, fun heq => ?_⟩
  · by_contra hne
    obtain ⟨d, hleaves⟩ := torusNext_spec coin hk hdest h hne
    have hd := hleaves.lt
    have hport := hleaves.port
    omega
  · obtain ⟨d, hle, hopen, -, hlast⟩ := openDim_spec net dest s.node (d := 0) net.n fun e he =>
      absurd he e.not_lt_zero
    rw [pow_zero, Nat.div_one, Nat.div_one] at hopen
    have hd : ¬ d < net.n := fun hlt => hlast.elim (by omega) fun hdiff => hdiff (by rw [heq])
    rw [torusNext, dorNextTorus, hopen]
    simp only
    rw [if_neg hd]

variable (net) in
/-- **Every packet arrives**, whatever the coins say: it is at its destination, and ejected there, after exactly as
many hops as the destination is away; and no hop of any kind could bring it nearer by more than one. -/
theorem torus_delivers (balance : Bool) (hk : 0 < net.k) (coin : ℕ → Bool × Bool) (hsource : source < net.size)
    (hdest : dest < net.size) :
    (∀ m, (net.torusRoute balance coin source dest m).node = dest ↔ net.torusDistance source dest ≤ m) ∧
      (∀ m, (net.torusNext balance (coin m) dest (net.torusRoute balance coin source dest m)).1 = 2 * net.n ↔
        net.torusDistance source dest ≤ m) ∧
      ∀ node p, net.torusDistance node dest ≤ net.torusDistance (net.neighbor node p) dest + 1 := by
  have hleft : ∀ m, net.torusDistance (net.torusRoute balance coin source dest m).node dest =
      net.torusDistance source dest - m := by
    intro m
    induction m with
    | zero => rfl
    | succ m ih =>
      have hroute := onRoute_route balance coin hk hsource hdest m
      by_cases hne : (net.torusRoute balance coin source dest m).node = dest
      · rw [hne, torusDistance_self] at ih
        rw [torusRoute, torusHop, if_pos hne, hne, torusDistance_self]
        omega
      · have hcloser := distance_torusHop (coin m) hk hdest hroute hne
        rw [torusRoute]
        omega
  have harrived : ∀ m, (net.torusRoute balance coin source dest m).node = dest ↔
      net.torusDistance source dest ≤ m := by
    intro m
    have hm := hleft m
    refine ⟨fun heq => ?_, fun hle => ?_⟩
    · rw [heq, torusDistance_self] at hm
      omega
    · exact torusDistance_eq_zero hk (onRoute_route balance coin hk hsource hdest m).lt hdest (by omega)
  refine ⟨harrived, fun m => ?_, fun node p => torusDistance_le hk node dest p⟩
  rw [torusNext_eq_iff (coin m) hk hdest (onRoute_route balance coin hk hsource hdest m), harrived m]

/-! ## Channels that wait -/

/-- The channels and partitions in an order in which every route goes up. -/
def torusRank (net : KNCube) (balance : Bool) (a : ℕ × ℤ) : ℕ :=
  a.1 % (2 * net.n) / 2 * (2 * net.k + 1) +
    net.ringRank (cut balance (a.1 % (2 * net.n) % 2) a.2) (a.1 % (2 * net.n) % 2)
      (digit net.k (a.1 % (2 * net.n) / 2) (a.1 / (2 * net.n)))

theorem torusRank_eq (hp : p < 2 * net.n) : torusRank net balance (2 * net.n * node + p, ph) =
    p / 2 * (2 * net.k + 1) + net.ringRank (cut balance (p % 2) ph) (p % 2) (digit net.k (p / 2) node) := by
  simp only [torusRank, channel_mod hp, channel_div hp]

/-- **Every route goes up**: further along the ring, or to a later dimension. -/
theorem torusRank_lt (hk : 0 < net.k) {a b : ℕ × ℤ} (h : net.TorusDepends balance a b) :
    torusRank net balance a < torusRank net balance b := by
  obtain ⟨source, hsource, dest, hdest, coin, m, ⟨hne, hchannel, hpart⟩, hne', hchannel', hpart'⟩ := h
  have hroute := onRoute_route balance coin hk hsource hdest m
  have hroute' := onRoute_route balance coin hk hsource hdest (m + 1)
  generalize hs : net.torusRoute balance coin source dest m = s at *
  have hs' : net.torusRoute balance coin source dest (m + 1) = net.torusHop balance (coin m) dest s := by
    rw [torusRoute, hs]
  rw [hs', torusHop_of_ne hne] at hne' hchannel' hpart' hroute'
  obtain ⟨d, hleaves⟩ := torusNext_spec (coin m) hk hdest hroute hne
  obtain ⟨d', hleaves'⟩ := torusNext_spec (coin (m + 1)) hk hdest hroute' hne'
  obtain ⟨hp, ha⟩ := channel_eq hchannel
  obtain ⟨hp', hb⟩ := channel_eq hchannel'
  obtain ⟨a, pa⟩ := a
  obtain ⟨b, pb⟩ := b
  simp only at ha hb hpart hpart'
  have hplace : digit net.k d (net.neighbor s.node (net.torusNext balance (coin m) dest s).1) =
      net.ringNext ((net.torusNext balance (coin m) dest s).1 % 2) (digit net.k d s.node) := by
    rw [digit_neighbor hk, if_pos hleaves.port.symm]
  rw [ha, hb, torusRank_eq hp, torusRank_eq hp', hleaves.port, hleaves'.port, ← hpart, ← hpart']
  by_cases hsame : d' = d
  · -- straight on: the same direction and partition
    have hstraight := hleaves'.straight (by simp only [opposite_div, hleaves.port, hsame])
    have hdiff := hleaves'.ne
    simp only [hsame, hplace] at hdiff
    rw [hstraight, hsame]
    simp only [opposite_opposite, hplace]
    have hup := ringRank_next (digit_lt hk) (digit_lt hk) hleaves.fits hdiff
    omega
  · have hlater : d < d' := by
      by_contra hback
      refine hleaves'.ne ?_
      simp only
      rw [digit_neighbor hk, if_neg (by rwa [hleaves.port])]
      exact hleaves.done d' (by omega)
    have hbound := ringRank_le (c := cut balance ((net.torusNext balance (coin m) dest s).1 % 2)
      (net.torusNext balance (coin m) dest s).2) ((net.torusNext balance (coin m) dest s).1 % 2)
      (digit_lt hk : digit net.k d s.node < net.k)
    calc d * (2 * net.k + 1) + net.ringRank _ _ (digit net.k d s.node)
        < (d + 1) * (2 * net.k + 1) := by
          rw [Nat.succ_mul d]
          omega
      _ ≤ d' * (2 * net.k + 1) := Nat.mul_le_mul_right _ hlater
      _ ≤ _ := Nat.le_add_right _ _

variable (net) in
/-- **No deadlock**: no channel and partition waits for itself, through any chain of packets that each have the one
and want the next one of their route. -/
theorem torus_no_cycle (balance : Bool) (hk : 0 < net.k) (a : ℕ × ℤ) :
    ¬ Relation.TransGen (net.TorusDepends balance) a a := by
  have hup : ∀ a b, Relation.TransGen (net.TorusDepends balance) a b →
      torusRank net balance a < torusRank net balance b := by
    intro a b h
    induction h with
    | single h => exact torusRank_lt hk h
    | tail _ h ih => exact ih.trans (torusRank_lt hk h)
  exact fun h => lt_irrefl _ (hup a a h)

theorem torus_delivers_fourByFour :
    (∀ m, (fourByFour.torusRoute true (fun _ => (true, true)) 1 15 m).node = 15 ↔
        fourByFour.torusDistance 1 15 ≤ m) ∧
      (∀ m, (fourByFour.torusNext true (true, true) 15
          (fourByFour.torusRoute true (fun _ => (true, true)) 1 15 m)).1 = 2 * fourByFour.n ↔
        fourByFour.torusDistance 1 15 ≤ m) ∧
      ∀ node p, fourByFour.torusDistance node 15 ≤ fourByFour.torusDistance (fourByFour.neighbor node p) 15 + 1 :=
  torus_delivers fourByFour true (by decide) (fun _ => (true, true)) (by decide) (by decide)

/-- From 1 to 15: right twice, and left once over the edge. -/
example : (List.range 4).map (fourByFour.torusRoute false (fun _ => (true, true)) 1 15) =
    [⟨1, 4, -1⟩, ⟨2, 1, 0⟩, ⟨3, 1, 0⟩, ⟨15, 2, 0⟩] := by decide

theorem torus_no_cycle_fourByFour : ¬ Relation.TransGen (fourByFour.TorusDepends true) (0, 0) (0, 0) :=
  torus_no_cycle fourByFour true (by decide) (0, 0)

end KNCube

end CompressionWork.Icnt
