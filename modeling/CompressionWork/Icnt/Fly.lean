import CompressionWork.Codec.Places
import Mathlib

/-!
# Routing in a butterfly

A butterfly of `n` stages of `k` by `k` switches (`fly.cpp`); with one stage it is a crossbar.  At every stage a
packet leaves by the next digit of its destination (`dest_tag_fly` of `routefunc.cpp`).

* `inChannel`, `outChannel` — the channels at the ports of a switch.
* `fly_wired` — **every channel is at one output port and at one input port**.
* `fly_delivers` — **every packet comes out at its destination**.
* `fly_shares_iff` — when two packets want the same channel.
-/

namespace CompressionWork.Icnt

open Codec

/-- `KNFly`: `k`-ary with `n` stages. -/
structure KNFly where
  k : ℕ
  n : ℕ

namespace KNFly

variable (net : KNFly)

/-- `_nodes` -/
def nodes : ℕ := net.k ^ net.n

/-- `per_stage` -/
def perStage : ℕ := net.k ^ (net.n - 1)

/-- `_channels` -/
def channels : ℕ := (net.n - 1) * net.nodes

/-- The number of a switch. -/
def router (stage addr : ℕ) : ℕ := stage * net.perStage + addr

/-- `_OutChannel` -/
def outChannel (stage addr port : ℕ) : ℕ := stage * net.nodes + addr * net.k + port

/-- `_InChannel`: the digit of the address that belongs to the stage and the port change places. -/
def inChannel (stage addr port : ℕ) : ℕ :=
  let shift := net.k ^ (net.n - stage - 1)
  let zeroDigit := addr / shift % net.k
  (stage - 1) * net.nodes + (addr - zeroDigit * shift + port * shift) * net.k + zeroDigit

/-- The loop of `dest_tag_fly`, with so many stages to go. -/
def destLoop : ℕ → ℕ → ℕ
  | 0, dest => dest
  | rest + 1, dest => destLoop rest (dest / net.k)

/-- `dest_tag_fly`: the output port at a switch. -/
def destTagFly (id dest : ℕ) : ℕ := net.destLoop (net.n - 1 - id * net.k / net.nodes) dest % net.k

/-- The channel that a packet takes from a switch; behind the last stage, where the ejection channels are, they
are counted on from the others. -/
def taken (stage addr dest : ℕ) : ℕ := net.outChannel stage addr (net.destTagFly (net.router stage addr) dest)

/-- A packet enters at the first stage, goes from switch to switch by the channels that it takes, and has left
when it has passed the last stage. -/
structure Walk (source dest : ℕ) (addr : ℕ → ℕ) : Prop where
  start : ∃ port < net.k, addr 0 * net.k + port = source
  next : ∀ stage, stage + 1 < net.n → addr (stage + 1) < net.perStage ∧
    ∃ port < net.k, net.inChannel (stage + 1) (addr (stage + 1)) port = net.taken stage (addr stage) dest

/-- The switch at which a packet is: the digits that it has followed, and those that it has not come to. -/
def place (source dest stage : ℕ) : ℕ :=
  dest / net.k ^ (net.n - stage) * net.k ^ (net.n - 1 - stage) + source / net.k % net.k ^ (net.n - 1 - stage)

/-- An address with another digit in place `d`. -/
def moved (d addr port : ℕ) : ℕ := (addr / net.k ^ (d + 1) * net.k + port) * net.k ^ d + addr % net.k ^ d

variable {net} {stage addr port addr' port' source dest d : ℕ}

/-! ## The wiring -/

theorem nodes_eq (hn : 0 < net.n) : net.nodes = net.perStage * net.k := by
  rw [nodes, perStage, ← pow_succ, Nat.sub_add_cancel hn]

/-- The input port of a channel, for the digit `d` of its stage. -/
theorem inChannel_eq (hstage : stage + 1 < net.n) (hd : d = net.n - stage - 2) :
    net.inChannel (stage + 1) addr port =
      stage * net.nodes + net.moved d addr port * net.k + digit net.k d addr := by
  have hsplit := split_digit net.k d addr
  have hback : addr - addr / net.k ^ d % net.k * net.k ^ d + port * net.k ^ d = net.moved d addr port := by
    have hle : addr / net.k ^ d % net.k * net.k ^ d ≤ addr := mul_pow_le le_rfl
    rw [moved]
    rw [Nat.add_mul] at hsplit ⊢
    unfold digit at hsplit
    omega
  rw [inChannel, show net.n - (stage + 1) - 1 = d by omega, Nat.add_sub_cancel, hback]
  rfl

theorem moved_div (hk : 0 < net.k) :
    net.moved d addr port / net.k ^ d = addr / net.k ^ (d + 1) * net.k + port :=
  mul_add_div_of_lt (Nat.mod_lt _ (Nat.pow_pos hk))

theorem moved_mod : net.moved d addr port % net.k ^ d = addr % net.k ^ d := by
  rw [moved, Nat.mul_add_mod_self_right, Nat.mod_mod]

theorem digit_moved (hk : 0 < net.k) (hport : port < net.k) : digit net.k d (net.moved d addr port) = port := by
  rw [digit, moved_div hk, Nat.mul_add_mod_self_right, Nat.mod_eq_of_lt hport]

theorem moved_div_succ (hk : 0 < net.k) (hport : port < net.k) :
    net.moved d addr port / net.k ^ (d + 1) = addr / net.k ^ (d + 1) := by
  rw [pow_succ, ← Nat.div_div_eq_div_mul, moved_div hk, mul_add_div_of_lt hport, pow_succ]

/-- The digit is put back. -/
theorem moved_moved (hk : 0 < net.k) (hport : port < net.k) :
    net.moved d (net.moved d addr port) (digit net.k d addr) = addr := by
  rw [moved, moved_div_succ hk hport, moved_mod, split_digit]

/-- The switch of the next stage at a channel has the port in place of the digit. -/
theorem inChannel_eq_iff (hk : 0 < net.k) (hstage : stage + 1 < net.n) (hd : d = net.n - stage - 2)
    (hport : port < net.k) (hport' : port' < net.k) :
    net.inChannel (stage + 1) addr' port' = net.outChannel stage addr port ↔
      addr' = net.moved d addr port ∧ port' = digit net.k d addr := by
  rw [inChannel_eq hstage hd, outChannel]
  constructor
  · intro h
    obtain ⟨haddr, hdigit⟩ := eq_of_mul_add (digit_lt hk) hport (Nat.add_left_cancel (by
      rw [Nat.add_assoc, Nat.add_assoc] at h
      exact h))
    refine ⟨?_, ?_⟩
    · rw [← haddr, ← hdigit, moved_moved hk hport']
    · rw [← haddr, digit_moved hk hport']
  · rintro ⟨rfl, rfl⟩
    rw [moved_moved hk hport, digit_moved hk hport]

theorem perStage_eq (hstage : stage + 1 < net.n) (hd : d = net.n - stage - 2) :
    net.perStage = net.k ^ stage * net.k * net.k ^ d := by
  rw [perStage, ← pow_succ, ← pow_add]
  congr 1
  omega

theorem moved_lt (hk : 0 < net.k) (hstage : stage + 1 < net.n) (hd : d = net.n - stage - 2)
    (haddr : addr < net.perStage) (hport : port < net.k) : net.moved d addr port < net.perStage := by
  rw [perStage_eq hstage hd] at haddr ⊢
  have hhigh : addr / net.k ^ (d + 1) < net.k ^ stage := by
    rw [Nat.div_lt_iff_lt_mul (Nat.pow_pos hk), pow_succ, Nat.mul_comm (net.k ^ d), ← Nat.mul_assoc]
    exact haddr
  exact mul_add_lt_mul (mul_add_lt_mul hhigh hport) (Nat.mod_lt _ (Nat.pow_pos hk))

/-- A channel behind a stage is at one output port of that stage and at one input port of the next. -/
theorem stage_wired (hk : 0 < net.k) (hstage : stage + 1 < net.n) {c : ℕ} (hlow : stage * net.nodes ≤ c)
    (hhigh : c < (stage + 1) * net.nodes) :
    (∃! q : ℕ × ℕ, (q.1 < net.perStage ∧ q.2 < net.k) ∧ net.outChannel stage q.1 q.2 = c) ∧
      ∃! q : ℕ × ℕ, (q.1 < net.perStage ∧ q.2 < net.k) ∧ net.inChannel (stage + 1) q.1 q.2 = c := by
  have hnodes : net.nodes = net.perStage * net.k := nodes_eq (by omega)
  obtain ⟨y, rfl⟩ := Nat.exists_eq_add_of_le hlow
  have hy : y < net.perStage * net.k := by
    rw [Nat.succ_mul] at hhigh
    omega
  have haddr : y / net.k < net.perStage := (Nat.div_lt_iff_lt_mul hk).2 hy
  have hport : y % net.k < net.k := Nat.mod_lt _ hk
  have hout : net.outChannel stage (y / net.k) (y % net.k) = stage * net.nodes + y := by
    rw [outChannel, Nat.add_assoc, Nat.div_add_mod']
  refine ⟨⟨(y / net.k, y % net.k), ⟨⟨haddr, hport⟩, hout⟩, ?_⟩, ?_⟩
  · rintro ⟨addr', port'⟩ ⟨⟨-, hport'⟩, heq⟩
    rw [← hout, outChannel, outChannel, Nat.add_assoc, Nat.add_assoc] at heq
    obtain ⟨ha, hp⟩ := eq_of_mul_add hport' hport (Nat.add_left_cancel heq)
    exact Prod.ext ha hp
  · rw [← hout]
    refine ⟨(net.moved (net.n - stage - 2) (y / net.k) (y % net.k), digit net.k (net.n - stage - 2) (y / net.k)),
      ⟨⟨moved_lt hk hstage rfl haddr hport, digit_lt hk⟩,
        (inChannel_eq_iff hk hstage rfl hport (digit_lt hk)).2 ⟨rfl, rfl⟩⟩, ?_⟩
    rintro ⟨addr', port'⟩ ⟨⟨-, hport'⟩, heq⟩
    obtain ⟨ha, hp⟩ := (inChannel_eq_iff hk hstage rfl hport hport').1 heq
    exact Prod.ext ha hp

theorem outChannel_div (hn : 0 < net.n) (haddr : addr < net.perStage) (hport : port < net.k) :
    net.outChannel stage addr port / net.nodes = stage := by
  have hsmall : addr * net.k + port < net.nodes := by
    rw [nodes_eq hn]
    exact mul_add_lt_mul haddr hport
  rw [outChannel, Nat.add_assoc, mul_add_div_of_lt hsmall]

/-- An input port has a channel of an output port one stage before. -/
theorem inChannel_div (hk : 0 < net.k) (hstage : stage + 1 < net.n) (haddr : addr < net.perStage)
    (hport : port < net.k) : net.inChannel (stage + 1) addr port / net.nodes = stage := by
  have hout : net.inChannel (stage + 1) addr port =
      net.outChannel stage (net.moved (net.n - stage - 2) addr port) (digit net.k (net.n - stage - 2) addr) :=
    inChannel_eq hstage rfl
  rw [hout, outChannel_div (by omega) (moved_lt hk hstage rfl haddr hport) (digit_lt hk)]

variable (net) in
/-- **The wiring**: every channel is at one output port, not of the last stage, and at one input port, not of
the first. -/
theorem fly_wired (hk : 0 < net.k) {c : ℕ} (hc : c < net.channels) :
    (∃! q : ℕ × ℕ × ℕ, (q.1 + 1 < net.n ∧ q.2.1 < net.perStage ∧ q.2.2 < net.k) ∧
      net.outChannel q.1 q.2.1 q.2.2 = c) ∧
    ∃! q : ℕ × ℕ × ℕ, (q.1 + 1 < net.n ∧ q.2.1 < net.perStage ∧ q.2.2 < net.k) ∧
      net.inChannel (q.1 + 1) q.2.1 q.2.2 = c := by
  have hstage : c / net.nodes + 1 < net.n :=
    Nat.add_lt_of_lt_sub (Nat.div_lt_of_lt_mul (by rwa [Nat.mul_comm]))
  have hpos : 0 < net.nodes := Nat.pow_pos hk
  have hhigh : c < (c / net.nodes + 1) * net.nodes := by
    rw [Nat.succ_mul]
    exact Nat.lt_div_mul_add hpos
  obtain ⟨⟨p, ⟨⟨hpa, hpp⟩, hp⟩, honly⟩, q, ⟨⟨hqa, hqp⟩, hq⟩, honly'⟩ :=
    stage_wired hk hstage (Nat.div_mul_le_self c net.nodes) hhigh
  refine ⟨⟨(c / net.nodes, p), ⟨⟨hstage, hpa, hpp⟩, hp⟩, ?_⟩, ⟨(c / net.nodes, q), ⟨⟨hstage, hqa, hqp⟩, hq⟩, ?_⟩⟩
  · rintro ⟨stage, r⟩ ⟨⟨hlt, hra, hrp⟩, hr⟩
    have hsame : c / net.nodes = stage := by
      rw [← hr]
      exact outChannel_div (by omega) hra hrp
    rw [hsame] at honly ⊢
    rw [honly r ⟨⟨hra, hrp⟩, hr⟩]
  · rintro ⟨stage, r⟩ ⟨⟨hlt, hra, hrp⟩, hr⟩
    have hsame : c / net.nodes = stage := by
      rw [← hr]
      exact inChannel_div hk hlt hra hrp
    rw [hsame] at honly' ⊢
    rw [honly' r ⟨⟨hra, hrp⟩, hr⟩]

/-! ## The route -/

theorem destLoop_eq (rest dest : ℕ) : net.destLoop rest dest = dest / net.k ^ rest := by
  induction rest generalizing dest with
  | zero => rw [destLoop, pow_zero, Nat.div_one]
  | succ rest ih => rw [destLoop, ih, Nat.div_div_eq_div_mul, pow_succ']

/-- A switch picks the digit of its stage. -/
theorem destTagFly_eq (hk : 0 < net.k) (hstage : stage < net.n) (haddr : addr < net.perStage) (dest : ℕ) :
    net.destTagFly (net.router stage addr) dest = digit net.k (net.n - 1 - stage) dest := by
  have hnodes : net.nodes = net.perStage * net.k := nodes_eq (by omega)
  have hsmall : addr * net.k < net.nodes := by
    rw [hnodes]
    exact Nat.mul_lt_mul_of_pos_right haddr hk
  have hid : net.router stage addr * net.k / net.nodes = stage := by
    rw [router, Nat.add_mul, Nat.mul_assoc, ← hnodes, mul_add_div_of_lt hsmall]
  rw [destTagFly, hid, destLoop_eq, digit]

theorem place_zero (hn : 0 < net.n) (hsource : source < net.nodes) (hdest : dest < net.nodes) :
    net.place source dest 0 = source / net.k := by
  have hlow : source / net.k < net.k ^ (net.n - 1) := by
    rw [nodes_eq hn] at hsource
    exact Nat.div_lt_of_lt_mul (by rwa [Nat.mul_comm])
  have hhigh : dest < net.k ^ net.n := hdest
  rw [place, Nat.sub_zero, Nat.sub_zero, Nat.div_eq_of_lt hhigh, Nat.zero_mul, Nat.zero_add, Nat.mod_eq_of_lt hlow]

theorem place_lt (hk : 0 < net.k) (hstage : stage < net.n) (hdest : dest < net.nodes) :
    net.place source dest stage < net.perStage := by
  have hhigh : dest / net.k ^ (net.n - stage) < net.k ^ stage := by
    rw [Nat.div_lt_iff_lt_mul (Nat.pow_pos hk), ← pow_add, Nat.add_sub_cancel' hstage.le]
    exact hdest
  have hstages : net.perStage = net.k ^ stage * net.k ^ (net.n - 1 - stage) := by
    rw [perStage, ← pow_add]
    congr 1
    omega
  rw [hstages]
  exact mul_add_lt_mul hhigh (Nat.mod_lt _ (Nat.pow_pos hk))

/-- From one stage to the next one more digit of the destination is in place. -/
theorem place_succ (hk : 0 < net.k) (hstage : stage + 1 < net.n) (hd : d = net.n - stage - 2) :
    net.place source dest (stage + 1) =
      net.moved d (net.place source dest stage) (digit net.k (net.n - 1 - stage) dest) := by
  have hlow : source / net.k % net.k ^ (d + 1) < net.k ^ (d + 1) := Nat.mod_lt _ (Nat.pow_pos hk)
  have habove : net.place source dest stage / net.k ^ (d + 1) = dest / net.k ^ (d + 2) := by
    rw [place, show net.n - stage = d + 2 by omega, show net.n - 1 - stage = d + 1 by omega,
      mul_add_div_of_lt hlow]
  have hbelow : net.place source dest stage % net.k ^ d = source / net.k % net.k ^ d := by
    rw [place, show net.n - 1 - stage = d + 1 by omega, pow_succ, ← Nat.mul_assoc, Nat.mul_right_comm,
      Nat.mul_add_mod_self_right, Nat.mod_mod_of_dvd _ (Dvd.intro _ rfl)]
  have hdigits : dest / net.k ^ (d + 2) * net.k + digit net.k (net.n - 1 - stage) dest = dest / net.k ^ (d + 1) := by
    rw [show net.n - 1 - stage = d + 1 by omega, div_mul_add_digit]
  rw [moved, habove, hbelow, hdigits, place, show net.n - (stage + 1) = d + 1 by omega,
    show net.n - 1 - (stage + 1) = d by omega]

/-- **There is one way**: that of the places. -/
theorem Walk.eq_place (hk : 0 < net.k) (hsource : source < net.nodes) (hdest : dest < net.nodes) {addr : ℕ → ℕ}
    (h : net.Walk source dest addr) (hstage : stage < net.n) : addr stage = net.place source dest stage := by
  induction stage with
  | zero =>
    obtain ⟨port, hport, hstart⟩ := h.start
    rw [place_zero hstage hsource hdest, ← hstart, mul_add_div_of_lt hport]
  | succ stage ih =>
    have hhere := ih (by omega)
    obtain ⟨-, port, hport, hchannel⟩ := h.next stage hstage
    rw [taken, hhere, destTagFly_eq hk (by omega) (place_lt hk (by omega) hdest)] at hchannel
    obtain ⟨haddr, -⟩ := (inChannel_eq_iff hk hstage rfl (digit_lt hk) hport).1 hchannel
    rw [haddr, place_succ hk hstage rfl]

theorem walk_place (hk : 0 < net.k) (hn : 0 < net.n) (hsource : source < net.nodes) (hdest : dest < net.nodes) :
    net.Walk source dest (net.place source dest) := by
  refine ⟨⟨source % net.k, Nat.mod_lt _ hk, ?_⟩, fun stage hstage => ⟨place_lt hk hstage hdest, ?_⟩⟩
  · rw [place_zero hn hsource hdest, Nat.div_add_mod']
  · refine ⟨digit net.k (net.n - stage - 2) (net.place source dest stage), digit_lt hk, ?_⟩
    rw [taken, destTagFly_eq hk (by omega) (place_lt hk (by omega) hdest),
      inChannel_eq_iff hk hstage rfl (digit_lt hk) (digit_lt hk)]
    exact ⟨place_succ hk hstage rfl, rfl⟩

variable (net) in
/-- **Every packet comes out at its destination**: there is one way that it can go, and the ejection channel at
its end is that of the destination. -/
theorem fly_delivers (hk : 0 < net.k) (hn : 0 < net.n) (hsource : source < net.nodes) (hdest : dest < net.nodes) :
    (∃ addr, net.Walk source dest addr) ∧ ∀ addr, net.Walk source dest addr →
      addr (net.n - 1) * net.k + net.destTagFly (net.router (net.n - 1) (addr (net.n - 1))) dest = dest := by
  refine ⟨⟨_, walk_place hk hn hsource hdest⟩, fun addr h => ?_⟩
  have hlast : net.n - 1 < net.n := by omega
  rw [h.eq_place hk hsource hdest hlast, destTagFly_eq hk hlast (place_lt hk hlast hdest), place,
    show net.n - (net.n - 1) = 1 by omega, Nat.sub_self, pow_zero, pow_one, Nat.mod_one, Nat.mul_one, Nat.add_zero,
    digit, pow_zero, Nat.div_one, Nat.div_add_mod']

/-! ## Conflicts -/

variable (net) in
/-- **Two packets want the same channel** out of a stage when their destinations have the same digits so far and
their sources the same digits from there on. -/
theorem fly_shares_iff (hk : 0 < net.k) (hstage : stage < net.n) (hsource : source < net.nodes)
    (hdest : dest < net.nodes) {source' dest' : ℕ} (hsource' : source' < net.nodes) (hdest' : dest' < net.nodes)
    {addr addr' : ℕ → ℕ} (h : net.Walk source dest addr) (h' : net.Walk source' dest' addr') :
    net.taken stage (addr stage) dest = net.taken stage (addr' stage) dest' ↔
      dest / net.k ^ (net.n - 1 - stage) = dest' / net.k ^ (net.n - 1 - stage) ∧
        source / net.k % net.k ^ (net.n - 1 - stage) = source' / net.k % net.k ^ (net.n - 1 - stage) := by
  have hdigits : ∀ y, y / net.k ^ (net.n - stage) * net.k + digit net.k (net.n - 1 - stage) y =
      y / net.k ^ (net.n - 1 - stage) := fun y => by
    rw [show net.n - stage = net.n - 1 - stage + 1 by omega, div_mul_add_digit]
  have hlow : ∀ y, y % net.k ^ (net.n - 1 - stage) < net.k ^ (net.n - 1 - stage) := fun y =>
    Nat.mod_lt _ (Nat.pow_pos hk)
  rw [h.eq_place hk hsource hdest hstage, h'.eq_place hk hsource' hdest' hstage, taken, taken,
    destTagFly_eq hk hstage (place_lt hk hstage hdest), destTagFly_eq hk hstage (place_lt hk hstage hdest'),
    outChannel, outChannel, Nat.add_assoc, Nat.add_assoc, Nat.add_left_cancel_iff]
  constructor
  · intro heq
    obtain ⟨hplace, hport⟩ := eq_of_mul_add (digit_lt hk) (digit_lt hk) heq
    obtain ⟨hhigh, hrest⟩ := eq_of_mul_add (hlow _) (hlow _) hplace
    exact ⟨by rw [← hdigits dest, ← hdigits dest', hhigh, hport], hrest⟩
  · rintro ⟨hhigh, hrest⟩
    rw [← hdigits dest, ← hdigits dest'] at hhigh
    obtain ⟨hplace, hport⟩ := eq_of_mul_add (digit_lt hk) (digit_lt hk) hhigh
    rw [place, place, hplace, hport, hrest]

/-- Three stages of 2 by 2 switches. -/
def threeStages : KNFly := ⟨2, 3⟩

theorem fly_wired_threeStages :
    (∃! q : ℕ × ℕ × ℕ, (q.1 + 1 < threeStages.n ∧ q.2.1 < threeStages.perStage ∧ q.2.2 < threeStages.k) ∧
      threeStages.outChannel q.1 q.2.1 q.2.2 = 11) ∧
    ∃! q : ℕ × ℕ × ℕ, (q.1 + 1 < threeStages.n ∧ q.2.1 < threeStages.perStage ∧ q.2.2 < threeStages.k) ∧
      threeStages.inChannel (q.1 + 1) q.2.1 q.2.2 = 11 :=
  fly_wired threeStages (by decide) (by decide)

theorem fly_delivers_threeStages : (∃ addr, threeStages.Walk 5 2 addr) ∧ ∀ addr, threeStages.Walk 5 2 addr →
    addr 2 * threeStages.k + threeStages.destTagFly (threeStages.router 2 (addr 2)) 2 = 2 :=
  fly_delivers threeStages (by decide) (by decide) (by decide) (by decide)

/-- Packets from 4 and 5, which share the first switch, to 2 and 3. -/
theorem fly_shares_iff_threeStages :
    threeStages.taken 1 (threeStages.place 4 2 1) 2 = threeStages.taken 1 (threeStages.place 5 3 1) 3 ↔
      2 / threeStages.k ^ 1 = 3 / threeStages.k ^ 1 ∧
        4 / threeStages.k % threeStages.k ^ 1 = 5 / threeStages.k % threeStages.k ^ 1 :=
  fly_shares_iff threeStages (by decide) (by decide) (by decide) (by decide) (by decide) (by decide)
    (walk_place (by decide) (by decide) (by decide) (by decide))
    (walk_place (by decide) (by decide) (by decide) (by decide))

end KNFly

end CompressionWork.Icnt
