/-
# The blocks of a PTX function

What `create_basic_blocks` makes of an instruction list whose first real instruction is its first or
second element.

* `walk_eq_walkFrom` — the leaders that the first loop collects are the places where the second one
  starts a block, told from the element before;
* `Walked` — what holds after every element of the second loop, and `walked_walkFrom` that a run of
  it keeps it.
-/
import CompressionWork.Codec.Chunks
import CompressionWork.Ptx.Blocks

namespace CompressionWork
namespace Ptx

variable {insts is : List Inst} {k p q t : ℕ} {w : Walk} {leaders : List ℕ}

/-! ## Next real instructions -/

theorem isReal_lt (h : IsReal insts q) : q < insts.length := by
  obtain ⟨r, hr⟩ := h
  exact (List.getElem?_eq_some_iff.1 hr).1

theorem getElem?_of_drop {i : Inst} (hdrop : insts.drop k = i :: is) : insts[k]? = some i := by
  have := @List.getElem?_drop _ insts k 0
  simpa [hdrop] using this.symm

theorem drop_succ_of_drop {i : Inst} (hdrop : insts.drop k = i :: is) : insts.drop (k + 1) = is := by
  rw [← List.drop_drop, hdrop, List.drop_one, List.tail_cons]

/-- What `find_next_real_instruction` finds in the elements from `k` on. -/
theorem findNextReal_spec (hdrop : insts.drop k = is) :
    match findNextReal k is with
    | none => ∀ j, k ≤ j → ¬ IsReal insts j
    | some t => k ≤ t ∧ IsReal insts t ∧ ∀ j, k ≤ j → j < t → ¬ IsReal insts j := by
  induction is generalizing k with
  | nil =>
      intro j hj hreal
      have := isReal_lt hreal
      have := List.drop_eq_nil_iff.1 hdrop
      omega
  | cons i is ih =>
      have hi := getElem?_of_drop hdrop
      have hdrop' := drop_succ_of_drop hdrop
      cases i with
      | label l =>
          have hk : ¬ IsReal insts k := by
            rintro ⟨r, hr⟩
            simp [hi] at hr
          have h := ih hdrop'
          simp only [findNextReal]
          cases hfind : findNextReal (k + 1) is with
          | none =>
              rw [hfind] at h
              intro j hj
              rcases Nat.eq_or_lt_of_le hj with rfl | hlt
              · exact hk
              · exact h j hlt
          | some t =>
              rw [hfind] at h
              obtain ⟨hle, hreal, hlabels⟩ := h
              refine ⟨by omega, hreal, fun j hj hjt => ?_⟩
              rcases Nat.eq_or_lt_of_le hj with rfl | hlt
              · exact hk
              · exact hlabels j hlt hjt
      | real r => exact ⟨Nat.le_refl _, ⟨r, hi⟩, fun j hj hjk => absurd hj (by omega)⟩

theorem findNextReal_drop (insts : List Inst) (k : ℕ) :
    match findNextReal k (insts.drop k) with
    | none => ∀ j, k ≤ j → ¬ IsReal insts j
    | some t => k ≤ t ∧ IsReal insts t ∧ ∀ j, k ≤ j → j < t → ¬ IsReal insts j :=
  findNextReal_spec rfl

theorem findNextReal_eq_some (hdrop : insts.drop k = is) (hle : k ≤ t) (hreal : IsReal insts t)
    (hlabels : ∀ j, k ≤ j → j < t → ¬ IsReal insts j) : findNextReal k is = some t := by
  have h := findNextReal_spec hdrop
  cases hfind : findNextReal k is with
  | none =>
      rw [hfind] at h
      exact absurd hreal (h t hle)
  | some t' =>
      rw [hfind] at h
      obtain ⟨hle', hreal', hlabels'⟩ := h
      have h1 : ¬ t' < t := fun hlt => hlabels t' hle' hlt hreal'
      have h2 : ¬ t < t' := fun hlt => hlabels' t hle hlt hreal
      rw [show t' = t by omega]

theorem nextReal_iff :
    NextReal insts q t ↔ findNextReal (q + 1) (insts.drop (q + 1)) = some t := by
  constructor
  · intro h
    exact findNextReal_eq_some rfl h.after h.real fun j hj => h.labels j hj
  · intro h
    have hspec := findNextReal_drop insts (q + 1)
    rw [h] at hspec
    exact ⟨hspec.1, hspec.2.1, fun j hj => hspec.2.2 j hj⟩

/-! ## The two loops as one -/

/-- What the element before says about the next one: after a label the other labels are passed
over, after the last instruction of a block a block starts. -/
inductive Follow where
  | plain | label | ender
  deriving DecidableEq

/-- What an element says about the next one. -/
def Follow.after : Inst → Follow
  | .label _ => .label
  | .real r => if r.endsBlock then .ender else .plain

/-- A block starts at the element `i`. -/
def Follow.cuts (f : Follow) (i : Inst) : Bool :=
  match f with
  | .plain => i.isLabel
  | .label => false
  | .ender => true

/-- The first loop passes over the labels that follow. -/
def Follow.skips : Follow → Bool
  | .plain => false
  | .label => true
  | .ender => true

/-- Both loops at once: the blocks start where `Follow` cuts. -/
def walkFrom (k : ℕ) (f : Follow) : List Inst → Walk → Walk
  | [], w => w
  | i :: is, w =>
      walkFrom (k + 1) (.after i) is
        ((if f.cuts i then w.startBlock (findNextReal k (i :: is)) else w).assignBb k i)

theorem le_of_mem_scanLeaders {skip : Bool} (h : q ∈ scanLeaders k skip is) : k ≤ q := by
  induction is generalizing k skip with
  | nil => simp [scanLeaders] at h
  | cons i is ih =>
      cases i with
      | label l =>
          cases skip with
          | true => exact Nat.le_of_succ_le (ih (by simpa [scanLeaders] using h))
          | false =>
              rcases (by simpa [scanLeaders] using h : q = k ∨ q ∈ scanLeaders (k + 1) true is) with
                rfl | h
              · exact Nat.le_refl _
              · exact Nat.le_of_succ_le (ih h)
      | real r =>
          simp only [scanLeaders] at h
          split at h
          · rcases List.mem_append.1 h with h | h
            · split at h
              · cases h
              · have := List.mem_singleton.1 h
                omega
            · exact Nat.le_of_succ_le (ih h)
          · exact Nat.le_of_succ_le (ih h)

theorem head?_scanLeaders_ne {skip : Bool} (h : k < q) : (scanLeaders q skip is).head? ≠ some k := by
  intro hhead
  have := le_of_mem_scanLeaders (List.mem_of_head? hhead)
  omega

/-- The leader that the first loop has collected for the element at `k`, from the element before. -/
def Follow.pending (f : Follow) (k : ℕ) (is : List Inst) : List ℕ :=
  if f = .ender ∧ is ≠ [] then [k] else []

theorem leaders_cons (f : Follow) (i : Inst) :
    f.pending k (i :: is) ++ scanLeaders k f.skips (i :: is) =
      (if f.cuts i then [k] else []) ++
        ((Follow.after i).pending (k + 1) is ++ scanLeaders (k + 1) (Follow.after i).skips is) := by
  cases i with
  | label l =>
      cases f <;>
        simp [Follow.pending, Follow.cuts, Follow.after, Follow.skips, scanLeaders, Inst.isLabel]
  | real r =>
      cases hr : r.endsBlock <;> cases f <;>
        simp [Follow.pending, Follow.cuts, Follow.after, Follow.skips, scanLeaders, Inst.isLabel, hr]

theorem le_of_mem_leaders {f : Follow}
    (h : q ∈ f.pending k is ++ scanLeaders k f.skips is) : k ≤ q := by
  rcases List.mem_append.1 h with h | h
  · unfold Follow.pending at h
    split at h
    · exact Nat.le_of_eq (List.mem_singleton.1 h).symm
    · cases h
  · exact le_of_mem_scanLeaders h

theorem walk_eq_walkFrom (f : Follow) :
    walk k is (f.pending k is ++ scanLeaders k f.skips is) w = walkFrom k f is w := by
  induction is generalizing k f w with
  | nil => rfl
  | cons i is ih =>
      rw [leaders_cons, walk, walkFrom]
      cases hcut : f.cuts i with
      | true => simp [ih]
      | false =>
          have hhead : ((Follow.after i).pending (k + 1) is ++
              scanLeaders (k + 1) (Follow.after i).skips is).head? ≠ some k := by
            intro hhead
            have := le_of_mem_leaders (List.mem_of_head? hhead)
            omega
          simp only [Bool.false_eq_true, if_false, List.nil_append, if_neg hhead, ih]

/-! ## What every element keeps -/

/-- The first real instruction, an instruction behind a label, and one behind the end of a block,
unless that end is the first element. -/
def Starts (insts : List Inst) (p q : ℕ) : Prop :=
  q = p ∨ (∃ j l, q = j + 1 ∧ insts[j]? = some (.label l)) ∨
    ∃ j r, q = j + 1 ∧ 0 < j ∧ insts[j]? = some (.real r) ∧ r.endsBlock = true

/-- The blocks made from the elements before `k`. -/
structure Made (insts : List Inst) (p k : ℕ) (w : Walk) : Prop where
  visited : w.bbs.length = k
  ends : ∀ blk ∈ w.all, IsReal insts blk.ptxBegin ∧ IsReal insts blk.ptxEnd ∧
    blk.ptxBegin ≤ blk.ptxEnd
  ordered : w.all.Pairwise fun a b => a.ptxEnd < b.ptxBegin
  placed : ∀ q < k, IsReal insts q → ∃ b blk, w.bbs[q]? = some b ∧ w.all[b]? = some blk ∧
    blk.ptxBegin ≤ q ∧ q ≤ blk.ptxEnd
  first : ∀ q < k, IsReal insts q → Starts insts p q →
    ∃ b blk, w.bbs[q]? = some b ∧ w.all[b]? = some blk ∧ blk.ptxBegin = q

namespace Made

theorem end_le (h : Made insts p k w) {blk : Block} (hmem : blk ∈ w.all) :
    blk.ptxEnd ≤ w.lastReal := by
  rcases List.mem_append.1 hmem with hmem | hmem
  · have hlt := (List.pairwise_append.1 h.ordered).2.2 blk hmem _ (List.mem_singleton.2 rfl)
    have hle := (h.ends ⟨w.ptxBegin, w.lastReal⟩ (by simp [Walk.all])).2.2
    exact Nat.le_trans (Nat.le_of_lt hlt) hle
  · obtain rfl := List.mem_singleton.1 hmem
    exact Nat.le_refl _

theorem startBlock (h : Made insts p k w) {b : ℕ} (hb : IsReal insts b) (hlt : w.lastReal < b) :
    Made insts p k (w.startBlock (some b)) := by
  have hall : (w.startBlock (some b)).all = w.all ++ [⟨b, b⟩] := rfl
  refine ⟨h.visited, ?_, ?_, ?_, ?_⟩
  · intro blk hmem
    rw [hall] at hmem
    rcases List.mem_append.1 hmem with hmem | hmem
    · exact h.ends blk hmem
    · rw [List.mem_singleton.1 hmem]
      exact ⟨hb, hb, Nat.le_refl _⟩
  · rw [hall]
    refine List.pairwise_append.2 ⟨h.ordered, List.pairwise_singleton _ _, fun blk hmem blk' hmem' => ?_⟩
    rw [List.mem_singleton.1 hmem']
    exact Nat.lt_of_le_of_lt (h.end_le hmem) hlt
  · intro q hq hreal
    obtain ⟨n, blk, hn, hblk, hin⟩ := h.placed q hq hreal
    exact ⟨n, blk, hn, hall ▸ Codec.getElem?_concat_iff.2 (Or.inl hblk), hin⟩
  · intro q hq hreal hstarts
    obtain ⟨n, blk, hn, hblk, hbegin⟩ := h.first q hq hreal hstarts
    exact ⟨n, blk, hn, hall ▸ Codec.getElem?_concat_iff.2 (Or.inl hblk), hbegin⟩

theorem assignBb_label (h : Made insts p k w) {l : String} (hk : insts[k]? = some (.label l)) :
    Made insts p (k + 1) (w.assignBb k (.label l)) := by
  have hnot : ¬ IsReal insts k := by
    rintro ⟨r, hr⟩
    simp [hk] at hr
  have hold : ∀ q < k + 1, IsReal insts q → q < k := by
    intro q hq hreal
    rcases Nat.lt_succ_iff_lt_or_eq.1 hq with hlt | rfl
    · exact hlt
    · exact absurd hreal hnot
  refine ⟨by simp [Walk.assignBb, h.visited], h.ends, h.ordered, ?_, ?_⟩
  · intro q hq hreal
    obtain ⟨n, blk, hn, hblk, hin⟩ := h.placed q (hold q hq hreal) hreal
    exact ⟨n, blk, Codec.getElem?_concat_iff.2 (Or.inl hn), hblk, hin⟩
  · intro q hq hreal hstarts
    obtain ⟨n, blk, hn, hblk, hbegin⟩ := h.first q (hold q hq hreal) hreal hstarts
    exact ⟨n, blk, Codec.getElem?_concat_iff.2 (Or.inl hn), hblk, hbegin⟩

/-- A real instruction goes to the last block, which then ends with it. -/
theorem assignBb_real (h : Made insts p k w) {r : Real} (hk : insts[k]? = some (.real r))
    (hbegin : w.ptxBegin ≤ k) (hlast : w.lastReal ≤ k) (hstart : Starts insts p k → w.ptxBegin = k) :
    Made insts p (k + 1) (w.assignBb k (.real r)) := by
  have hall : (w.assignBb k (.real r)).all = w.closed ++ [⟨w.ptxBegin, k⟩] := rfl
  have hopen := h.ends ⟨w.ptxBegin, w.lastReal⟩ (by simp [Walk.all])
  have hself : (w.bbs ++ [w.closed.length])[k]? = some w.closed.length :=
    Codec.getElem?_concat_iff.2 (Or.inr ⟨h.visited.symm, rfl⟩)
  have hlastBlock : (w.assignBb k (.real r)).all[w.closed.length]? = some ⟨w.ptxBegin, k⟩ :=
    hall ▸ Codec.getElem?_concat_iff.2 (Or.inr ⟨rfl, rfl⟩)
  -- a block keeps its begin, and its end only grows
  have hgrow : ∀ (n : ℕ) (blk : Block), w.all[n]? = some blk → ∃ blk', (w.assignBb k (.real r)).all[n]? = some blk' ∧
      blk'.ptxBegin = blk.ptxBegin ∧ blk.ptxEnd ≤ blk'.ptxEnd := by
    intro n blk hblk
    rcases Codec.getElem?_concat_iff.1 hblk with hblk | ⟨rfl, rfl⟩
    · exact ⟨blk, hall ▸ Codec.getElem?_concat_iff.2 (Or.inl hblk), rfl, Nat.le_refl _⟩
    · exact ⟨⟨w.ptxBegin, k⟩, hlastBlock, rfl, hlast⟩
  refine ⟨by simp [Walk.assignBb, h.visited], ?_, ?_, ?_, ?_⟩
  · intro blk hmem
    rw [hall] at hmem
    rcases List.mem_append.1 hmem with hmem | hmem
    · exact h.ends blk (List.mem_append_left _ hmem)
    · rw [List.mem_singleton.1 hmem]
      exact ⟨hopen.1, ⟨r, hk⟩, hbegin⟩
  · rw [hall]
    obtain ⟨hclosed, -, hcross⟩ := List.pairwise_append.1 h.ordered
    refine List.pairwise_append.2 ⟨hclosed, List.pairwise_singleton _ _, fun blk hmem blk' hmem' => ?_⟩
    rw [List.mem_singleton.1 hmem']
    exact hcross blk hmem ⟨w.ptxBegin, w.lastReal⟩ (List.mem_singleton.2 rfl)
  · intro q hq hreal
    rcases Nat.lt_succ_iff_lt_or_eq.1 hq with hlt | rfl
    · obtain ⟨n, blk, hn, hblk, hle, hge⟩ := h.placed q hlt hreal
      obtain ⟨blk', hblk', hb, he⟩ := hgrow n blk hblk
      exact ⟨n, blk', Codec.getElem?_concat_iff.2 (Or.inl hn), hblk', by omega, by omega⟩
    · exact ⟨_, _, hself, hlastBlock, hbegin, Nat.le_refl _⟩
  · intro q hq hreal hstarts
    rcases Nat.lt_succ_iff_lt_or_eq.1 hq with hlt | rfl
    · obtain ⟨n, blk, hn, hblk, hb⟩ := h.first q hlt hreal hstarts
      obtain ⟨blk', hblk', hb', -⟩ := hgrow n blk hblk
      exact ⟨n, blk', Codec.getElem?_concat_iff.2 (Or.inl hn), hblk', hb'.trans hb⟩
    · exact ⟨_, _, hself, hlastBlock, hstart hstarts⟩

end Made

/-- What holds after the elements before `k`: behind a label the block of the next real instruction
is open, elsewhere the element before is the last real instruction. -/
structure Walked (insts : List Inst) (p k : ℕ) (f : Follow) (w : Walk) : Prop where
  made : Made insts p k w
  passed : p < k
  follow : ∃ i, insts[k - 1]? = some i ∧
    (f = .after i ∨ (k = 1 ∧ f = .plain ∧ i.isLabel = false))
  opened : f = .label → ∀ t, findNextReal k (insts.drop k) = some t →
    w.ptxBegin = t ∧ w.lastReal = t
  last : f ≠ .label → w.lastReal + 1 = k

theorem Walked.not_starts (h : Walked insts p k .plain w) : ¬ Starts insts p k := by
  obtain ⟨i, hi, hf⟩ := h.follow
  have hk := h.passed
  rintro (rfl | ⟨j, l, rfl, hj⟩ | ⟨j, r, rfl, hpos, hj, hr⟩)
  · omega
  · obtain rfl : i = .label l := Option.some.inj (hi.symm.trans hj)
    rcases hf with hf | ⟨-, -, hf⟩ <;> cases hf
  · obtain rfl : i = .real r := Option.some.inj (hi.symm.trans hj)
    rcases hf with hf | ⟨hone, -, -⟩
    · simp [Follow.after, hr] at hf
    · omega

theorem Walked.begin_le {f : Follow} (h : Walked insts p k f w) (hf : f ≠ .label) :
    w.ptxBegin ≤ k ∧ w.lastReal ≤ k := by
  have hle := (h.made.ends ⟨w.ptxBegin, w.lastReal⟩ (by simp [Walk.all])).2.2
  have := h.last hf
  simp only at hle
  omega

theorem walked_label {f : Follow} {l : String} (h : Walked insts p k f w)
    (hdrop : insts.drop k = .label l :: is) :
    Walked insts p (k + 1) .label
      ((if f.cuts (.label l) then w.startBlock (findNextReal k (.label l :: is)) else w).assignBb k
        (.label l)) := by
  have hi := getElem?_of_drop hdrop
  have hdrop' := drop_succ_of_drop hdrop
  have hpass := h.passed
  have hfollow : ∃ i, insts[k + 1 - 1]? = some i ∧ (Follow.label = .after i ∨
      (k + 1 = 1 ∧ Follow.label = .plain ∧ i.isLabel = false)) := ⟨_, hi, Or.inl rfl⟩
  by_cases hf : f = .label
  · subst hf
    refine ⟨h.made.assignBb_label hi, by omega, hfollow, fun _ t ht => ?_, fun hne => absurd rfl hne⟩
    refine h.opened rfl t ?_
    rw [hdrop, findNextReal, ← hdrop', ht]
  · have hcut : f.cuts (.label l) = true := by cases f <;> simp_all [Follow.cuts, Inst.isLabel]
    have hspec := findNextReal_spec hdrop
    rw [hcut, if_pos rfl]
    cases hfind : findNextReal k (.label l :: is) with
    | none =>
        refine ⟨h.made.assignBb_label hi, by omega, hfollow, fun _ t ht => ?_, fun hne => absurd rfl hne⟩
        rw [findNextReal, ← hdrop', ht] at hfind
        cases hfind
    | some b =>
        rw [hfind] at hspec
        have hlt : w.lastReal < b := by
          have := h.last hf
          have := hspec.1
          omega
        refine ⟨(h.made.startBlock hspec.2.1 hlt).assignBb_label hi, by omega, hfollow,
          fun _ t ht => ?_, fun hne => absurd rfl hne⟩
        rw [findNextReal, ← hdrop', ht] at hfind
        obtain rfl : t = b := Option.some.inj hfind
        exact ⟨rfl, rfl⟩

theorem walked_real {f : Follow} {r : Real} (h : Walked insts p k f w)
    (hdrop : insts.drop k = .real r :: is) :
    Walked insts p (k + 1) (.after (.real r))
      ((if f.cuts (.real r) then w.startBlock (findNextReal k (.real r :: is)) else w).assignBb k
        (.real r)) := by
  have hi := getElem?_of_drop hdrop
  have hpass := h.passed
  have hafter : Follow.after (.real r) ≠ .label := by
    simp only [Follow.after]
    split <;> simp
  suffices hmade : Made insts p (k + 1)
      ((if f.cuts (.real r) then w.startBlock (findNextReal k (.real r :: is)) else w).assignBb k
        (.real r)) from
    ⟨hmade, by omega, ⟨_, hi, Or.inl rfl⟩, fun hlabel => absurd hlabel hafter, fun _ => rfl⟩
  cases f with
  | plain =>
      obtain ⟨hbegin, hlast⟩ := h.begin_le (by simp)
      exact h.made.assignBb_real hi hbegin hlast fun hs => absurd hs h.not_starts
  | label =>
      obtain ⟨hbegin, hlast⟩ := h.opened rfl k (by rw [hdrop]; rfl)
      exact h.made.assignBb_real hi (Nat.le_of_eq hbegin) (Nat.le_of_eq hlast) fun _ => hbegin
  | ender =>
      have hlast := h.last (by simp)
      have hmade := h.made.startBlock (b := k) ⟨r, hi⟩ (by omega)
      exact hmade.assignBb_real hi (Nat.le_refl _) (Nat.le_refl _) fun _ => rfl

theorem walked_step {f : Follow} {i : Inst} (h : Walked insts p k f w)
    (hdrop : insts.drop k = i :: is) :
    Walked insts p (k + 1) (.after i)
      ((if f.cuts i then w.startBlock (findNextReal k (i :: is)) else w).assignBb k i) := by
  cases i with
  | label l => exact walked_label h hdrop
  | real r => exact walked_real h hdrop

theorem walked_walkFrom {f : Follow} (h : Walked insts p k f w) (hdrop : insts.drop k = is) :
    ∃ f', Walked insts p insts.length f' (walkFrom k f is w) := by
  induction is generalizing k f w with
  | nil =>
      have hlen : k = insts.length := by
        have := List.drop_eq_nil_iff.1 hdrop
        obtain ⟨i, hi, -⟩ := h.follow
        have := (List.getElem?_eq_some_iff.1 hi).1
        have := h.passed
        omega
      subst hlen
      exact ⟨f, h⟩
  | cons i is ih =>
      exact ih (walked_step h hdrop) (drop_succ_of_drop hdrop)

end Ptx
end CompressionWork
