import CompressionWork.Codec.Places
import Mathlib

/-!
# Routing in a mesh

The routers of a mesh of `n` dimensions are numbered by their places, in base `k`, and wired along the
dimensions (`kncube.cpp`); a packet goes along one dimension after the other (`dor_next_mesh` of
`routefunc.cpp`), from the lowest on or, where the order is descending, from the highest on.

* `KNCube` — the neighbours and the channels of a router.
* `dorNextMesh` — the output port; `dorNextMesh_spec`: it is the first dimension that is not done yet.
* `mesh_wired_iff` — **a channel leads where the route takes it**, and nowhere else.
* `mesh_delivers` — **every packet arrives**, and no route is shorter.
* `mesh_no_cycle` — **no cycle of channels can wait for each other**.
-/

namespace CompressionWork.Icnt

open Codec Function

/-- `KNCube`: `n` dimensions of `k` routers. -/
structure KNCube where
  k : ℕ
  n : ℕ

namespace KNCube

variable (net : KNCube)

/-- `_size` -/
def size : ℕ := net.k ^ net.n

/-- `_LeftNode` -/
def leftNode (node dim : ℕ) : ℕ :=
  if node / net.k ^ dim % net.k = 0 then node + (net.k - 1) * net.k ^ dim else node - net.k ^ dim

/-- `_RightNode` -/
def rightNode (node dim : ℕ) : ℕ :=
  if node / net.k ^ dim % net.k = net.k - 1 then node - (net.k - 1) * net.k ^ dim else node + net.k ^ dim

/-- `_LeftChannel` -/
def leftChannel (node dim : ℕ) : ℕ := 2 * net.n * node + (2 * dim + 1)

/-- `_RightChannel` -/
def rightChannel (node dim : ℕ) : ℕ := 2 * net.n * node + 2 * dim

/-- The input ports of a router, in the order of `_BuildNet`; the port for injection comes after them. -/
def inputChannels (node : ℕ) : List ℕ :=
  (List.range net.n).flatMap fun dim =>
    [net.leftChannel (net.rightNode node dim) dim, net.rightChannel (net.leftNode node dim) dim]

/-- The output ports; the port for ejection comes after them. -/
def outputChannels (node : ℕ) : List ℕ :=
  (List.range net.n).flatMap fun dim => [net.rightChannel node dim, net.leftChannel node dim]

/-- The loop of `dor_next_mesh` from the lowest dimension on, and the two lines after it. -/
def ascend : ℕ → ℕ → ℕ → ℕ → ℕ × ℕ × ℕ
  | 0, cur, dest, dimLeft => (cur % net.k, dest % net.k, dimLeft)
  | rest + 1, cur, dest, dimLeft =>
    if cur % net.k ≠ dest % net.k then (cur % net.k, dest % net.k, dimLeft)
    else ascend rest (cur / net.k) (dest / net.k) (dimLeft + 1)

/-- The loop from the highest dimension on. -/
def descend : ℕ → ℕ → ℕ → ℕ × ℕ × ℕ
  | 0, cur, dest => (cur * net.k / net.size, dest * net.k / net.size, 0)
  | dimLeft + 1, cur, dest =>
    if cur * net.k / net.size ≠ dest * net.k / net.size then
      (cur * net.k / net.size, dest * net.k / net.size, dimLeft + 1)
    else descend dimLeft (cur * net.k % net.size) (dest * net.k % net.size)

/-- `dor_next_mesh` -/
def dorNextMesh (descending : Bool) (cur dest : ℕ) : ℕ :=
  if cur = dest then 2 * net.n
  else
    let r := if descending then net.descend (net.n - 1) cur dest else net.ascend (net.n - 1) cur dest 0
    if r.1 < r.2.1 then 2 * r.2.2 else 2 * r.2.2 + 1

/-- The router at the other end of an output port. -/
def neighbor (node port : ℕ) : ℕ :=
  if port % 2 = 0 then net.rightNode node (port / 2) else net.leftNode node (port / 2)

/-- The input port there. -/
def opposite (port : ℕ) : ℕ := if port % 2 = 0 then port + 1 else port - 1

/-- The router where a packet is one hop later. -/
def hop (descending : Bool) (dest node : ℕ) : ℕ :=
  if node = dest then node else net.neighbor node (net.dorNextMesh descending node dest)

/-- The hops that a packet needs at least. -/
def distance (node dest : ℕ) : ℕ :=
  ∑ d ∈ Finset.range net.n, ((digit net.k d node : ℤ) - digit net.k d dest).natAbs

/-- A packet that has a channel may need another one next. -/
def Depends (descending : Bool) (c c' : ℕ) : Prop :=
  ∃ node < net.size, ∃ dest < net.size, node ≠ dest ∧ net.hop descending dest node ≠ dest ∧
    (net.outputChannels node)[net.dorNextMesh descending node dest]? = some c ∧
    (net.outputChannels (net.hop descending dest node))[net.dorNextMesh descending
      (net.hop descending dest node) dest]? = some c'

/-! ## The neighbours -/

variable {net} {node dest cur dim d e p q m c c' : ℕ} {descending : Bool}

theorem rightNode_of_lt (h : digit net.k dim node + 1 < net.k) : net.rightNode node dim = node + 1 * net.k ^ dim := by
  rw [rightNode, if_neg (by
    have hlt : node / net.k ^ dim % net.k + 1 < net.k := h
    omega), Nat.one_mul]

theorem rightNode_of_last (h : digit net.k dim node = net.k - 1) :
    net.rightNode node dim = node - (net.k - 1) * net.k ^ dim := if_pos h

theorem leftNode_of_pos (h : 1 ≤ digit net.k dim node) : net.leftNode node dim = node - 1 * net.k ^ dim := by
  rw [leftNode, if_neg (by
    have hlt : 1 ≤ node / net.k ^ dim % net.k := h
    omega), Nat.one_mul]

theorem leftNode_of_zero (h : digit net.k dim node = 0) :
    net.leftNode node dim = node + (net.k - 1) * net.k ^ dim := if_pos h

theorem rightNode_lt (hk : 0 < net.k) (hdim : dim < net.n) (h : node < net.size) :
    net.rightNode node dim < net.size := by
  have hdigit : digit net.k dim node < net.k := digit_lt hk
  by_cases hlast : digit net.k dim node = net.k - 1
  · rw [rightNode_of_last hlast]
    exact lt_of_le_of_lt (Nat.sub_le _ _) h
  · rw [rightNode_of_lt (by omega)]
    exact digit_add_lt hk (by omega) hdim h

theorem leftNode_lt (hk : 0 < net.k) (hdim : dim < net.n) (h : node < net.size) :
    net.leftNode node dim < net.size := by
  by_cases hzero : digit net.k dim node = 0
  · rw [leftNode_of_zero hzero]
    exact digit_add_lt hk (by omega) hdim h
  · rw [leftNode_of_pos (by omega)]
    exact lt_of_le_of_lt (Nat.sub_le _ _) h

/-- Left of the right neighbour, also around the edge. -/
theorem leftNode_rightNode (hk : 0 < net.k) : net.leftNode (net.rightNode node dim) dim = node := by
  have hdigit : digit net.k dim node < net.k := digit_lt hk
  by_cases hlast : digit net.k dim node = net.k - 1
  · rw [rightNode_of_last hlast, leftNode_of_zero (by rw [digit_sub_self hk hlast.ge, hlast, Nat.sub_self]),
      Nat.sub_add_cancel (mul_pow_le hlast.ge)]
  · have hroom : digit net.k dim node + 1 < net.k := by omega
    rw [rightNode_of_lt hroom, leftNode_of_pos (by rw [digit_add hk hroom, if_pos rfl]; omega), Nat.add_sub_cancel]

theorem rightNode_leftNode (hk : 0 < net.k) : net.rightNode (net.leftNode node dim) dim = node := by
  by_cases hzero : digit net.k dim node = 0
  · have hroom : digit net.k dim node + (net.k - 1) < net.k := by omega
    rw [leftNode_of_zero hzero, rightNode_of_last (by rw [digit_add hk hroom, if_pos rfl]; omega), Nat.add_sub_cancel]
  · have hpos : 1 ≤ digit net.k dim node := by omega
    have hdigit : digit net.k dim node < net.k := digit_lt hk
    rw [leftNode_of_pos hpos, rightNode_of_lt (by rw [digit_sub_self hk hpos]; omega),
      Nat.sub_add_cancel (mul_pow_le hpos)]

/-! ## The wiring -/

theorem getElem?_pairs {α : Type*} (f g : ℕ → α) (n p : ℕ) :
    ((List.range n).flatMap fun d => [f d, g d])[p]? =
      if p < 2 * n then some (if p % 2 = 0 then f (p / 2) else g (p / 2)) else none := by
  induction n with
  | zero => simp
  | succ n ih =>
    have hlength : ((List.range n).flatMap fun d => [f d, g d]).length = 2 * n := by
      simp [List.length_flatMap, Nat.mul_comm]
    rw [List.range_succ, List.flatMap_append, List.getElem?_append, hlength, ih]
    by_cases hlt : p < 2 * n
    · rw [if_pos hlt, if_pos (show p < 2 * (n + 1) by omega), if_pos hlt]
    · rw [if_neg hlt]
      by_cases heven : p = 2 * n
      · simp [heven]
      · by_cases hodd : p = 2 * n + 1
        · have hhalf : (2 * n + 1) / 2 = n := by omega
          simp [hodd, hhalf]
          omega
        · rw [if_neg (by omega), List.getElem?_eq_none]
          simp
          omega

theorem outputChannels_eq (node p : ℕ) :
    (net.outputChannels node)[p]? = if p < 2 * net.n then some (2 * net.n * node + p) else none := by
  rw [outputChannels, getElem?_pairs]
  split_ifs with hlt heven
  · rw [rightChannel]
    congr 2
    omega
  · rw [leftChannel]
    congr 2
    omega
  · rfl

theorem inputChannels_eq (node p : ℕ) :
    (net.inputChannels node)[p]? =
      if p < 2 * net.n then some (2 * net.n * net.neighbor node p + opposite p) else none := by
  rw [inputChannels, getElem?_pairs]
  unfold neighbor opposite
  split_ifs with hlt heven
  · rw [leftChannel]
    congr 2
    omega
  · rw [rightChannel]
    congr 2
    omega
  · rfl

theorem opposite_lt (h : p < 2 * d) : opposite p < 2 * d := by
  unfold opposite
  split_ifs <;> omega

theorem opposite_opposite (p : ℕ) : opposite (opposite p) = p := by
  unfold opposite
  split_ifs <;> omega

theorem neighbor_lt (hk : 0 < net.k) (hp : p < 2 * net.n) (h : node < net.size) : net.neighbor node p < net.size := by
  unfold neighbor
  split_ifs
  · exact rightNode_lt hk (by omega) h
  · exact leftNode_lt hk (by omega) h

/-- Back through the port that one came in by. -/
theorem neighbor_opposite (hk : 0 < net.k) (node p : ℕ) : net.neighbor (net.neighbor node p) (opposite p) = node := by
  unfold neighbor opposite
  split_ifs with heven hodd hodd
  · omega
  · rw [show (p + 1) / 2 = p / 2 by omega]
    exact leftNode_rightNode hk
  · rw [show (p - 1) / 2 = p / 2 by omega]
    exact rightNode_leftNode hk
  · omega

theorem channel_div (hp : p < 2 * net.n) : (2 * net.n * node + p) / (2 * net.n) = node := by
  rw [Nat.mul_comm (2 * net.n), mul_add_div_of_lt hp]

theorem channel_mod (hp : p < 2 * net.n) : (2 * net.n * node + p) % (2 * net.n) = p := by
  rw [Nat.mul_add_mod, Nat.mod_eq_of_lt hp]

variable (net) in
/-- **The wiring**: the channel at an output port is at one input port of one router. -/
theorem mesh_wired_iff (hk : 0 < net.k) (hp : p < 2 * net.n) (node m q : ℕ) :
    (net.inputChannels m)[q]? = (net.outputChannels node)[p]? ↔ m = net.neighbor node p ∧ q = opposite p := by
  rw [inputChannels_eq, outputChannels_eq, if_pos hp]
  constructor
  · intro h
    have hq : q < 2 * net.n := by
      by_contra hq
      simp [hq] at h
    rw [if_pos hq, Option.some.injEq] at h
    have hop : opposite q < 2 * net.n := opposite_lt hq
    have hnode : net.neighbor m q = node := by
      have hdiv := congrArg (· / (2 * net.n)) h
      simpa only [channel_div hop, channel_div hp] using hdiv
    have hport : opposite q = p := by
      rw [hnode] at h
      omega
    rw [← hport, opposite_opposite]
    exact ⟨by rw [← hnode, neighbor_opposite hk], rfl⟩
  · rintro ⟨rfl, rfl⟩
    rw [if_pos (opposite_lt hp), neighbor_opposite hk, opposite_opposite]

/-! ## The route -/

/-- The order in which a packet is done with the dimensions. -/
def level (net : KNCube) (descending : Bool) (dim : ℕ) : ℕ := if descending then net.n - 1 - dim else dim

theorem level_inj (hd : d < net.n) (he : e < net.n) (h : net.level descending d = net.level descending e) :
    d = e := by
  unfold level at h
  split_ifs at h <;> omega

variable (net cur dest) in
/-- By induction on the dimensions that are left: those below are done. -/
theorem ascend_spec (rest : ℕ) (h : ∀ e < d, digit net.k e cur = digit net.k e dest) :
    ∃ dim, dim ≤ d + rest ∧ net.ascend rest (cur / net.k ^ d) (dest / net.k ^ d) d =
        (digit net.k dim cur, digit net.k dim dest, dim) ∧
      (∀ e < dim, digit net.k e cur = digit net.k e dest) ∧
      (dim = d + rest ∨ digit net.k dim cur ≠ digit net.k dim dest) := by
  induction rest generalizing d with
  | zero => exact ⟨d, le_rfl, rfl, h, .inl rfl⟩
  | succ rest ih =>
    by_cases hne : digit net.k d cur ≠ digit net.k d dest
    · exact ⟨d, by omega, if_pos hne, h, .inr hne⟩
    · obtain ⟨dim, hle, hresult, hbelow, hlast⟩ := ih (d := d + 1) fun e he => by
        rcases Nat.lt_succ_iff_lt_or_eq.1 he with hlt | rfl
        · exact h e hlt
        · exact not_not.1 hne
      refine ⟨dim, by omega, ?_, hbelow, hlast.imp (fun heq => by omega) id⟩
      rw [ascend, if_neg (show ¬ cur / net.k ^ d % net.k ≠ dest / net.k ^ d % net.k from hne),
        Nat.div_div_eq_div_mul, Nat.div_div_eq_div_mul, ← pow_succ]
      exact hresult

/-- The digit that the loop from above looks at. -/
theorem descend_digit (hd : d < net.n) (hk : 0 < net.k) (x : ℕ) :
    x % net.k ^ (d + 1) * net.k ^ (net.n - 1 - d) * net.k / net.size = digit net.k d x := by
  have hsize : net.size = net.k ^ d * (net.k ^ (net.n - 1 - d) * net.k) := by
    rw [size, ← pow_succ, ← pow_add]
    congr 1
    omega
  rw [hsize, Nat.mul_assoc, Nat.mul_div_mul_right _ _ (Nat.mul_pos (Nat.pow_pos hk) hk), pow_succ,
    Nat.mod_mul_right_div_self, digit]

/-- What the loop leaves for the dimensions below. -/
theorem descend_rest (hd : d + 1 < net.n) (x : ℕ) :
    x % net.k ^ (d + 2) * net.k ^ (net.n - 1 - (d + 1)) * net.k % net.size =
      x % net.k ^ (d + 1) * net.k ^ (net.n - 1 - d) := by
  have hpow : net.k ^ (net.n - 1 - (d + 1)) * net.k = net.k ^ (net.n - 1 - d) := by
    rw [← pow_succ]
    congr 1
    omega
  have hsize : net.size = net.k ^ (d + 1) * net.k ^ (net.n - 1 - d) := by
    rw [size, ← pow_add]
    congr 1
    omega
  rw [Nat.mul_assoc, hpow, hsize, Nat.mul_mod_mul_right, Nat.mod_mod_of_dvd _ (pow_dvd_pow _ (by omega))]

variable (cur dest) in
/-- By induction on the dimension: those above are done. -/
theorem descend_spec (hk : 0 < net.k) (hd : d < net.n)
    (h : ∀ e < net.n, d < e → digit net.k e cur = digit net.k e dest) :
    ∃ dim ≤ d, net.descend d (cur % net.k ^ (d + 1) * net.k ^ (net.n - 1 - d))
        (dest % net.k ^ (d + 1) * net.k ^ (net.n - 1 - d)) = (digit net.k dim cur, digit net.k dim dest, dim) ∧
      (∀ e < net.n, dim < e → digit net.k e cur = digit net.k e dest) ∧
      (dim = 0 ∨ digit net.k dim cur ≠ digit net.k dim dest) := by
  induction d with
  | zero =>
    refine ⟨0, le_rfl, ?_, h, .inl rfl⟩
    rw [descend, descend_digit hd hk, descend_digit hd hk]
  | succ d ih =>
    rw [descend, descend_digit hd hk, descend_digit hd hk]
    by_cases hne : digit net.k (d + 1) cur ≠ digit net.k (d + 1) dest
    · exact ⟨d + 1, le_rfl, if_pos hne, h, .inr hne⟩
    · obtain ⟨dim, hle, hresult, habove, hlast⟩ := ih (by omega) fun e he hlt => by
        by_cases heq : e = d + 1
        · rw [heq]
          exact not_not.1 hne
        · exact h e he (by omega)
      refine ⟨dim, by omega, ?_, habove, hlast⟩
      rw [if_neg hne, descend_rest hd, descend_rest hd]
      exact hresult

/-- The dimension that a packet goes along: those before it are done. -/
structure Leads (net : KNCube) (descending : Bool) (cur dest dim : ℕ) : Prop where
  lt : dim < net.n
  ne : digit net.k dim cur ≠ digit net.k dim dest
  done : ∀ e < net.n, net.level descending e < net.level descending dim → digit net.k e cur = digit net.k e dest

/-- **The output port**: of the first dimension that is not done, towards the destination. -/
theorem dorNextMesh_spec (descending : Bool) (hk : 0 < net.k) (hcur : cur < net.size)
    (hdest : dest < net.size) (hne : cur ≠ dest) :
    ∃ dim, Leads net descending cur dest dim ∧ net.dorNextMesh descending cur dest =
      if digit net.k dim cur < digit net.k dim dest then 2 * dim else 2 * dim + 1 := by
  have hn : 0 < net.n := by
    by_contra hzero
    have hsize : net.size = 1 := by rw [size, show net.n = 0 by omega, pow_zero]
    omega
  have hdiffer : ¬ ∀ d < net.n, digit net.k d cur = digit net.k d dest := fun h => hne (eq_of_digits hcur hdest h)
  rw [dorNextMesh, if_neg hne]
  cases descending with
  | false =>
    obtain ⟨dim, hle, hresult, hbelow, hlast⟩ :=
      ascend_spec net dest cur (d := 0) (net.n - 1) fun e he => by omega
    simp only [pow_zero, Nat.div_one] at hresult
    refine ⟨dim, ⟨by omega, ?_, fun e he hlt => hbelow e (by simpa [level] using hlt)⟩, by simp [hresult]⟩
    rcases hlast with heq | hneq
    · refine fun hsame => hdiffer fun e he => ?_
      rcases lt_or_eq_of_le (show e ≤ dim by omega) with hlt | rfl
      · exact hbelow e hlt
      · exact hsame
    · exact hneq
  | true =>
    obtain ⟨dim, hle, hresult, habove, hlast⟩ := descend_spec dest cur hk
      (show net.n - 1 < net.n by omega) fun e he hlt => by omega
    rw [show net.n - 1 + 1 = net.n by omega, Nat.sub_self, pow_zero, Nat.mul_one, Nat.mul_one,
      Nat.mod_eq_of_lt (show cur < net.k ^ net.n from hcur),
      Nat.mod_eq_of_lt (show dest < net.k ^ net.n from hdest)] at hresult
    refine ⟨dim, ⟨by omega, ?_, fun e he hlt => habove e he (by
      simp only [level, if_true] at hlt
      omega)⟩, by simp [hresult]⟩
    rcases hlast with heq | hneq
    · refine fun hsame => hdiffer fun e he => ?_
      rcases Nat.eq_zero_or_pos e with rfl | hpos
      · rwa [heq] at hsame
      · exact habove e he (by omega)
    · exact hneq

/-- **A hop**: one step along the dimension, on the near side of the edge; the other digits stay. -/
theorem hop_spec (descending : Bool) (hk : 0 < net.k) (hcur : cur < net.size)
    (hdest : dest < net.size) (hne : cur ≠ dest) :
    ∃ dim, Leads net descending cur dest dim ∧ net.hop descending dest cur < net.size ∧
      (∀ e, e ≠ dim → digit net.k e (net.hop descending dest cur) = digit net.k e cur) ∧
      (digit net.k dim cur < digit net.k dim dest ∧ net.dorNextMesh descending cur dest = 2 * dim ∧
          digit net.k dim (net.hop descending dest cur) = digit net.k dim cur + 1 ∨
        digit net.k dim dest < digit net.k dim cur ∧ net.dorNextMesh descending cur dest = 2 * dim + 1 ∧
          digit net.k dim (net.hop descending dest cur) + 1 = digit net.k dim cur) := by
  obtain ⟨dim, hleads, hport⟩ := dorNextMesh_spec descending hk hcur hdest hne
  have hlimit : digit net.k dim dest < net.k := digit_lt hk
  refine ⟨dim, hleads, ?_⟩
  by_cases hlt : digit net.k dim cur < digit net.k dim dest
  · rw [if_pos hlt] at hport
    have hroom : digit net.k dim cur + 1 < net.k := by omega
    have hhop : net.hop descending dest cur = cur + 1 * net.k ^ dim := by
      rw [hop, if_neg hne, hport, neighbor, if_pos (by omega), show 2 * dim / 2 = dim by omega, rightNode_of_lt hroom]
    rw [hhop]
    refine ⟨digit_add_lt hk hroom hleads.lt hcur, fun e he => ?_, .inl ⟨hlt, hport, ?_⟩⟩
    · rw [digit_add hk hroom, if_neg he]
    · rw [digit_add hk hroom, if_pos rfl]
  · rw [if_neg hlt] at hport
    have hgt := lt_of_le_of_ne (Nat.not_lt.1 hlt) (Ne.symm hleads.ne)
    have hpos : 1 ≤ digit net.k dim cur := by omega
    have hhop : net.hop descending dest cur = cur - 1 * net.k ^ dim := by
      rw [hop, if_neg hne, hport, neighbor, if_neg (by omega), show (2 * dim + 1) / 2 = dim by omega,
        leftNode_of_pos hpos]
    rw [hhop]
    refine ⟨lt_of_le_of_lt (Nat.sub_le _ _) hcur, fun e he => ?_, .inr ⟨hgt, hport, ?_⟩⟩
    · rw [digit_sub hk hpos, if_neg he]
    · rw [digit_sub hk hpos, if_pos rfl]
      omega

/-! ## Arrival -/

/-- A sum of which one term goes down by one. -/
theorem sum_pred {f g : ℕ → ℕ} (hd : d < q) (hself : g d + 1 = f d) (h : ∀ e, e ≠ d → g e = f e) :
    ∑ e ∈ Finset.range q, g e + 1 = ∑ e ∈ Finset.range q, f e := by
  have hmem := Finset.mem_range.2 hd
  have hrest : ∑ e ∈ (Finset.range q).erase d, g e = ∑ e ∈ (Finset.range q).erase d, f e :=
    Finset.sum_congr rfl fun e he => h e (Finset.ne_of_mem_erase he)
  rw [← Finset.add_sum_erase _ g hmem, ← Finset.add_sum_erase _ f hmem, hrest]
  omega

theorem distance_hop (descending : Bool) (hk : 0 < net.k) (hcur : cur < net.size) (hdest : dest < net.size)
    (hne : cur ≠ dest) : net.distance (net.hop descending dest cur) dest + 1 = net.distance cur dest := by
  obtain ⟨dim, hleads, -, hother, htowards⟩ := hop_spec descending hk hcur hdest hne
  refine sum_pred hleads.lt ?_ fun e he => by rw [hother e he]
  rcases htowards with ⟨hlt, -, hnext⟩ | ⟨hgt, -, hnext⟩ <;> omega

theorem distance_eq_zero (hcur : cur < net.size) (hdest : dest < net.size) (h : net.distance cur dest = 0) :
    cur = dest :=
  eq_of_digits hcur hdest fun d hd => by
    have hterm := Finset.sum_eq_zero_iff.1 h d (Finset.mem_range.2 hd)
    omega

/-- A hop goes to a router next to this one, and not round an edge. -/
theorem distance_next (descending : Bool) (hk : 0 < net.k) (hcur : cur < net.size) (hdest : dest < net.size)
    (hne : cur ≠ dest) : net.distance cur (net.hop descending dest cur) = 1 := by
  obtain ⟨dim, hleads, -, hother, htowards⟩ := hop_spec descending hk hcur hdest hne
  have hself : ((digit net.k dim cur : ℤ) - digit net.k dim (net.hop descending dest cur)).natAbs = 1 := by
    rcases htowards with ⟨-, -, hnext⟩ | ⟨-, -, hnext⟩ <;> omega
  rw [distance, Finset.sum_eq_single dim (fun e _ he => by rw [hother e he, sub_self, Int.natAbs_zero])
    fun hno => absurd (Finset.mem_range.2 hleads.lt) hno, hself]

/-- The port for ejection is for the destination. -/
theorem dorNextMesh_eq_iff (descending : Bool) (hk : 0 < net.k) (hcur : cur < net.size) (hdest : dest < net.size) :
    net.dorNextMesh descending cur dest = 2 * net.n ↔ cur = dest := by
  refine ⟨fun h => ?_, fun h => if_pos h⟩
  by_contra hne
  obtain ⟨dim, hleads, -, -, ⟨-, hport, -⟩ | ⟨-, hport, -⟩⟩ := hop_spec descending hk hcur hdest hne
  · have := hleads.lt
    omega
  · have := hleads.lt
    omega

/-- **Every packet arrives**: after exactly as many hops as the destination is away, each of them to a router next
to the last one, and it is ejected there and nowhere before. -/
theorem mesh_delivers (net : KNCube) (descending : Bool) (hk : 0 < net.k) {node dest : ℕ} (hnode : node < net.size)
    (hdest : dest < net.size) :
    (net.hop descending dest)^[net.distance node dest] node = dest ∧
      (∀ i < net.distance node dest, net.distance ((net.hop descending dest)^[i] node)
        ((net.hop descending dest)^[i + 1] node) = 1) ∧
      ∀ i ≤ net.distance node dest, (net.hop descending dest)^[i] node < net.size ∧
        (net.dorNextMesh descending ((net.hop descending dest)^[i] node) dest = 2 * net.n ↔
          i = net.distance node dest) := by
  have hbefore : ∀ {i cur}, i < net.distance node dest → net.distance cur dest + i = net.distance node dest →
      cur ≠ dest := fun {i cur} hi hleft heq => by
    rw [heq] at hleft
    simp only [distance, sub_self, Int.natAbs_zero, Finset.sum_const_zero] at hleft hi
    omega
  have hroute : ∀ i ≤ net.distance node dest, (net.hop descending dest)^[i] node < net.size ∧
      net.distance ((net.hop descending dest)^[i] node) dest + i = net.distance node dest := by
    intro i
    induction i with
    | zero => exact fun _ => ⟨hnode, rfl⟩
    | succ i ih =>
      intro hi
      obtain ⟨hlt, hleft⟩ := ih (by omega)
      have hne := hbefore hi hleft
      obtain ⟨dim, -, hnext, -⟩ := hop_spec descending hk hlt hdest hne
      have hcloser := distance_hop descending hk hlt hdest hne
      rw [iterate_succ_apply']
      exact ⟨hnext, by omega⟩
  have hend := hroute _ le_rfl
  refine ⟨distance_eq_zero hend.1 hdest (by omega), fun i hi => ?_, fun i hi => ⟨(hroute i hi).1, ?_⟩⟩
  · obtain ⟨hlt, hleft⟩ := hroute i hi.le
    rw [iterate_succ_apply']
    exact distance_next descending hk hlt hdest (hbefore hi hleft)
  rw [dorNextMesh_eq_iff descending hk (hroute i hi).1 hdest]
  refine ⟨fun heq => ?_, fun heq => ?_⟩
  · have hleft := (hroute i hi).2
    rw [heq] at hleft
    simp only [distance, sub_self, Int.natAbs_zero, Finset.sum_const_zero] at hleft ⊢
    omega
  · rw [heq]
    exact distance_eq_zero hend.1 hdest (by omega)

/-! ## Channels that wait -/

/-- The channels in an order in which every route goes up. -/
def channelRank (net : KNCube) (descending : Bool) (c : ℕ) : ℕ :=
  net.level descending (c % (2 * net.n) / 2) * net.k +
    if c % (2 * net.n) % 2 = 0 then digit net.k (c % (2 * net.n) / 2) (c / (2 * net.n))
    else net.k - 1 - digit net.k (c % (2 * net.n) / 2) (c / (2 * net.n))

theorem channelRank_eq (hp : p < 2 * net.n) :
    channelRank net descending (2 * net.n * node + p) = net.level descending (p / 2) * net.k +
      if p % 2 = 0 then digit net.k (p / 2) node else net.k - 1 - digit net.k (p / 2) node := by
  rw [channelRank, channel_mod hp, channel_div hp]

theorem channel_eq (h : (net.outputChannels node)[p]? = some c) : p < 2 * net.n ∧ c = 2 * net.n * node + p := by
  rw [outputChannels_eq] at h
  split_ifs at h with hp
  exact ⟨hp, (Option.some.inj h).symm⟩

theorem channelRank_right (hd : d < net.n) :
    channelRank net descending (2 * net.n * node + 2 * d) = net.level descending d * net.k + digit net.k d node := by
  rw [channelRank_eq (by omega), show 2 * d / 2 = d by omega, if_pos (by omega)]

theorem channelRank_left (hd : d < net.n) :
    channelRank net descending (2 * net.n * node + (2 * d + 1)) =
      net.level descending d * net.k + (net.k - 1 - digit net.k d node) := by
  rw [channelRank_eq (by omega), show (2 * d + 1) / 2 = d by omega, if_neg (by omega)]

/-- The channels of a dimension are in front of those of the later ones. -/
theorem channelRank_bounds (hk : 0 < net.k) (hp : p = 2 * d ∨ p = 2 * d + 1) (hd : d < net.n) :
    net.level descending d * net.k ≤ channelRank net descending (2 * net.n * node + p) ∧
      channelRank net descending (2 * net.n * node + p) < (net.level descending d + 1) * net.k := by
  have hlt : digit net.k d node < net.k := digit_lt hk
  rw [Nat.succ_mul (net.level descending d)]
  rcases hp with rfl | rfl
  · rw [channelRank_right hd]
    omega
  · rw [channelRank_left hd]
    omega

/-- **Every route goes up**: further along the dimension, or to a later one. -/
theorem channelRank_lt (hk : 0 < net.k) (h : net.Depends descending c c') :
    channelRank net descending c < channelRank net descending c' := by
  obtain ⟨node, hnode, dest, hdest, hne, hnext, hc, hc'⟩ := h
  obtain ⟨-, rfl⟩ := channel_eq hc
  obtain ⟨-, rfl⟩ := channel_eq hc'
  obtain ⟨dim, hleads, hlt, hother, htowards⟩ := hop_spec descending hk hnode hdest hne
  obtain ⟨dim', hleads', -, -, htowards'⟩ := hop_spec descending hk hlt hdest hnext
  by_cases hsame : dim' = dim
  · subst hsame
    have hbound : digit net.k dim' node < net.k := digit_lt hk
    rcases htowards with ⟨hless, hport, hdigit⟩ | ⟨hless, hport, hdigit⟩ <;>
      rcases htowards' with ⟨hless', hport', -⟩ | ⟨hless', hport', -⟩
    · rw [hport, hport', channelRank_right hleads.lt, channelRank_right hleads.lt]
      omega
    · omega
    · omega
    · rw [hport, hport', channelRank_left hleads.lt, channelRank_left hleads.lt]
      omega
  · -- the next dimension is not one that was done, nor this one
    have hlevel : net.level descending dim < net.level descending dim' := by
      by_contra hback
      have hold := hleads.done dim' hleads'.lt (lt_of_le_of_ne (Nat.not_lt.1 hback) fun heq =>
        hsame (level_inj hleads'.lt hleads.lt heq))
      rw [← hother dim' hsame] at hold
      exact hleads'.ne hold
    have hport : net.dorNextMesh descending node dest = 2 * dim ∨
        net.dorNextMesh descending node dest = 2 * dim + 1 := htowards.imp (·.2.1) (·.2.1)
    have hport' := htowards'.imp (·.2.1) (·.2.1)
    calc channelRank net descending (2 * net.n * node + net.dorNextMesh descending node dest)
        < (net.level descending dim + 1) * net.k := (channelRank_bounds hk hport hleads.lt).2
      _ ≤ net.level descending dim' * net.k := Nat.mul_le_mul_right _ hlevel
      _ ≤ _ := (channelRank_bounds hk hport' hleads'.lt).1

/-- **No deadlock**: no channel waits for itself, through any chain of packets that each have a channel and
want the next one of their route. -/
theorem mesh_no_cycle (net : KNCube) (descending : Bool) (hk : 0 < net.k) (c : ℕ) :
    ¬ Relation.TransGen (net.Depends descending) c c := by
  have hup : ∀ c c', Relation.TransGen (net.Depends descending) c c' →
      channelRank net descending c < channelRank net descending c' := by
    intro c c' h
    induction h with
    | single h => exact channelRank_lt hk h
    | tail _ h ih => exact ih.trans (channelRank_lt hk h)
  exact fun h => lt_irrefl _ (hup c c h)

/-- A mesh of 4 by 4 routers. -/
def fourByFour : KNCube := ⟨4, 2⟩

theorem mesh_wired_iff_fourByFour : (fourByFour.inputChannels 6)[1]? = (fourByFour.outputChannels 5)[0]? ↔
    6 = fourByFour.neighbor 5 0 ∧ 1 = opposite 0 :=
  mesh_wired_iff fourByFour (by decide) (by decide) 5 6 1

theorem mesh_delivers_fourByFour : (fourByFour.hop true 3)^[fourByFour.distance 12 3] 12 = 3 ∧
    (∀ i < fourByFour.distance 12 3, fourByFour.distance ((fourByFour.hop true 3)^[i] 12)
      ((fourByFour.hop true 3)^[i + 1] 12) = 1) ∧
    ∀ i ≤ fourByFour.distance 12 3, (fourByFour.hop true 3)^[i] 12 < fourByFour.size ∧
      (fourByFour.dorNextMesh true ((fourByFour.hop true 3)^[i] 12) 3 = 2 * fourByFour.n ↔
        i = fourByFour.distance 12 3) :=
  mesh_delivers fourByFour true (by decide) (by decide) (by decide)

theorem mesh_no_cycle_fourByFour : ¬ Relation.TransGen (fourByFour.Depends false) 0 0 :=
  mesh_no_cycle fourByFour false (by decide) 0

end KNCube

end CompressionWork.Icnt
