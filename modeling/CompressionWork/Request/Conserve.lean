/-
# Coalescing conserves requests

`Inv` holds between the cycles. A request that leaves the buffers is in the packet of a root that
leaves with it, unless the injection is lazy and holds the root back: then the merged requests leave
alone, and the next attempt clears them.
-/
import CompressionWork.Request.Coalesce
import Mathlib.Data.List.Perm.Basic
import Mathlib.Data.List.Nodup
import Mathlib.Tactic.Common

namespace CompressionWork
namespace Request

variable {cfg : Config} {icnt : Icnt} {b b' : Buffer} {mf m : Mf} {ms rest : List Mf}

/-- What holds between the cycles: the uids count the pushed requests, and only an injected root has
merged requests. -/
structure Inv (b : Buffer) : Prop where
  uids : b.pushed.map (·.uid) = List.range b.pushed.length
  parts : b.pushed.Perm (b.main ++ b.injected.flatMap b.packetOf)
  sameSub : ∀ r ∈ b.injected, ∀ m ∈ b.merged r.uid, m.sub = r.sub
  subs : ∀ i, b.subs i = b.main.filter fun m => m.sub = i
  clear : ∀ u, (∀ r ∈ b.injected, r.uid ≠ u) → b.merged u = []

namespace Inv

theorem empty : Inv Buffer.empty :=
  ⟨rfl, .nil, nofun, fun _ => rfl, fun _ _ => rfl⟩

theorem nodup_uids (h : Inv b) :
    ((b.main ++ b.injected.flatMap b.packetOf).map (·.uid)).Nodup := by
  refine (h.parts.map _).nodup_iff.1 ?_
  rw [h.uids]
  exact List.nodup_range

theorem conserved (h : Inv b) : b.Conserved :=
  ⟨.of_map _ (h.parts.map (·.uid) |>.nodup_iff.2 h.nodup_uids), h.parts, h.sameSub, h.subs⟩

theorem main_nodup (h : Inv b) : b.main.Nodup :=
  (List.nodup_append.1 (List.Nodup.of_map _ h.nodup_uids)).1

/-- A waiting request is no injected root. -/
theorem uid_ne (h : Inv b) (hm : m ∈ b.main) : ∀ r ∈ b.injected, r.uid ≠ m.uid := by
  intro r hr heq
  have hnodup := h.nodup_uids
  rw [List.map_append] at hnodup
  refine (List.nodup_append.1 hnodup).2.2 m.uid (List.mem_map_of_mem hm) r.uid ?_ heq.symm
  exact List.mem_map_of_mem (List.mem_flatMap.2 ⟨r, hr, List.mem_cons_self⟩)

theorem push (h : Inv b) (sub : ℕ) (isWrite : Bool) (size ctrlSize : ℕ) :
    Inv (b.push sub isWrite size ctrlSize) := by
  refine ⟨?_, ?_, h.sameSub, fun i => ?_, h.clear⟩
  · simp [Buffer.push, h.uids, List.range_succ]
  · simp only [Buffer.push, Buffer.setSub]
    refine (h.parts.append_right _).trans ?_
    rw [List.append_assoc, List.append_assoc]
    exact List.Perm.append_left _ List.perm_append_comm
  · simp only [Buffer.push, Buffer.setSub, List.filter_append, List.filter_cons, List.filter_nil]
    by_cases hi : i = sub
    · subst hi
      rw [if_pos rfl, h.subs, if_pos (by simp)]
    · rw [if_neg hi, h.subs, if_neg (by simpa using fun heq => hi heq.symm), List.append_nil]

end Inv

/-! ## The requests to be merged -/

/-- The merged requests wait in the given order, and are neither the root nor writes. -/
theorem chooseMerged_spec (limit : ℕ) (mf : Mf) (size : ℕ) (ws : List Mf) :
    (Buffer.chooseMerged limit mf size ws).1.Sublist ws ∧
      ∀ m ∈ (Buffer.chooseMerged limit mf size ws).1, m ≠ mf := by
  induction ws generalizing size with
  | nil => exact ⟨List.Sublist.refl _, nofun⟩
  | cons w ws ih =>
      unfold Buffer.chooseMerged
      split
      case isTrue hw =>
        split
        case isTrue =>
          obtain ⟨hsub, hne⟩ := ih (size + w.ctrlSize)
          refine ⟨hsub.cons_cons w, fun m hm => ?_⟩
          rcases List.mem_cons.1 hm with rfl | hm
          · exact hw.1
          · exact hne m hm
        case isFalse => exact ⟨List.nil_sublist _, nofun⟩
      case isFalse =>
        obtain ⟨hsub, hne⟩ := ih size
        exact ⟨hsub.cons w, hne⟩

theorem packet_spec (cfg : Config) (b : Buffer) (mf : Mf) :
    (b.packet cfg mf).1.Sublist (b.subs mf.sub) ∧ ∀ m ∈ (b.packet cfg mf).1, m ≠ mf := by
  unfold Buffer.packet
  dsimp only
  split
  · exact chooseMerged_spec _ _ _ _
  · exact ⟨List.nil_sublist _, nofun⟩

/-! ## Leaving the buffers -/

theorem filter_erase_of_ne {p : Mf → Bool} (hp : p m = false) (l : List Mf) :
    (l.erase m).filter p = l.filter p := by
  induction l with
  | nil => rfl
  | cons a l ih =>
      by_cases ha : a = m
      · subst ha
        rw [List.erase_cons_head, List.filter_cons, hp]
        rfl
      · rw [List.erase_cons_tail (by simpa using ha), List.filter_cons, List.filter_cons, ih]

theorem filter_erase_of_pos {p : Mf → Bool} (hp : p m = true) (l : List Mf) :
    (l.erase m).filter p = (l.filter p).erase m := by
  induction l with
  | nil => rfl
  | cons a l ih =>
      by_cases ha : a = m
      · subst ha
        rw [List.erase_cons_head, List.filter_cons, hp, if_pos rfl, List.erase_cons_head]
      · rw [List.erase_cons_tail (by simpa using ha), List.filter_cons, List.filter_cons]
        split
        · rw [List.erase_cons_tail (by simpa using ha), ih]
        · exact ih

/-- `delete_mfs` of waiting requests takes them out of the buffers and changes nothing else. -/
theorem deleteMfs_spec (hms : ms.Nodup) (hmem : ∀ m ∈ ms, m ∈ b.main)
    (hsubs : ∀ i, b.subs i = b.main.filter fun m => m.sub = i) :
    ∃ b', b.deleteMfs ms = some b' ∧ b.main.Perm (ms ++ b'.main) ∧
      (∀ i, b'.subs i = b'.main.filter fun m => m.sub = i) ∧
      b'.merged = b.merged ∧ b'.pushed = b.pushed ∧ b'.injected = b.injected := by
  induction ms generalizing b with
  | nil => exact ⟨b, rfl, .refl _, hsubs, rfl, rfl, rfl⟩
  | cons m ms ih =>
      have hmain : m ∈ b.main := hmem m List.mem_cons_self
      have hsub : m ∈ b.subs m.sub := by
        rw [hsubs]
        exact List.mem_filter.2 ⟨hmain, by simp⟩
      rw [Buffer.deleteMfs, if_pos hmain, if_pos hsub]
      obtain ⟨hnot, hms'⟩ := List.nodup_cons.1 hms
      obtain ⟨b', hb', hperm, hsubs', hmerged, hpushed, hinjected⟩ :=
        ih (b := { b.setSub m.sub ((b.subs m.sub).erase m) with main := b.main.erase m }) hms'
          (fun m' hm' => (List.mem_erase_of_ne fun heq => hnot (by rwa [← heq])).2
            (hmem m' (List.mem_cons_of_mem m hm')))
          (fun i => by
            simp only [Buffer.setSub]
            by_cases hi : i = m.sub
            · subst hi
              rw [if_pos rfl, hsubs, filter_erase_of_pos (by simp)]
            · rw [if_neg hi, hsubs, filter_erase_of_ne (by simpa using fun heq => hi heq.symm)])
      refine ⟨b', hb', ?_, hsubs', hmerged, hpushed, hinjected⟩
      exact (List.perm_cons_erase hmain).trans (hperm.cons m)

theorem pop_spec (hmain : b.main = mf :: rest)
    (hsubs : ∀ i, b.subs i = b.main.filter fun m => m.sub = i) (i : ℕ) :
    (b.pop mf).subs i = rest.filter fun m => m.sub = i := by
  simp only [Buffer.pop, Buffer.setSub, hsubs, hmain]
  by_cases hi : i = mf.sub
  · subst hi
    rw [if_pos rfl, List.filter_cons, if_pos (by simp), List.findIdx?_cons]
    simp
  · rw [if_neg hi, List.filter_cons, if_neg (by simpa using fun heq => hi heq.symm)]

/-! ## The condition -/

/-- The top read is not held back, or no waiting request is merged into it. -/
def Buffer.Leaves (cfg : Config) (icnt : Icnt) (b : Buffer) : Prop :=
  cfg.lazyInj = true → 1 < icnt.occupancy → ∀ mf ∈ b.main.head?, mf.isWrite = false →
    icnt.full (b.packet cfg mf).2 = false → (b.packet cfg mf).1 = []

/-- The condition at one event. -/
def Event.Leaves (cfg : Config) (b : Buffer) : Event → Prop
  | .push .. => True
  | .cycle icnt => b.Leaves cfg icnt

/-- Every step of the run meets the condition. -/
def RunLeaves (cfg : Config) : Buffer → List Event → Prop
  | _, [] => True
  | b, ev :: evs => ev.Leaves cfg b ∧ ∀ b', b.next cfg ev = some b' → RunLeaves cfg b' evs

/-! ## Cycles -/

namespace Inv

/-- The packet of the top request leaves. -/
theorem send (h : Inv b) (hmain : b.main = mf :: rest) (hms : ms.Sublist (b.subs mf.sub))
    (hne : ∀ m ∈ ms, m ≠ mf) :
    ∃ b', ((b.setMerged mf ms).inject mf).deleteMfs ms = some b' ∧ Inv b' ∧
      b'.injected = b.injected ++ [mf] := by
  have hnodup := h.main_nodup
  have hin : ∀ m ∈ ms, m ∈ rest ∧ m.sub = mf.sub := by
    intro m hm
    have hsub := hms.subset hm
    rw [h.subs, List.mem_filter, hmain] at hsub
    exact ⟨(List.mem_cons.1 hsub.1).resolve_left (hne m hm), by simpa using hsub.2⟩
  have hsubs := fun i => pop_spec (b := b.setMerged mf ms) hmain h.subs i
  obtain ⟨b', hb', hperm, hsubs', hmerged, hpushed, hinjected⟩ :=
    deleteMfs_spec (b := (b.setMerged mf ms).inject mf)
      ((hnodup.filter _).sublist (h.subs mf.sub ▸ hms))
      (fun m hm => by simpa [Buffer.inject, Buffer.pop, Buffer.setSub, Buffer.setMerged, hmain]
        using (hin m hm).1)
      (fun i => by
        rw [show ((b.setMerged mf ms).inject mf).subs i = _ from hsubs i]
        simp [Buffer.inject, Buffer.pop, Buffer.setSub, Buffer.setMerged, hmain])
  have hmerged' : b'.merged = fun u => if u = mf.uid then ms else b.merged u := hmerged
  have hinjected' : b'.injected = b.injected ++ [mf] := hinjected
  have hpushed' : b'.pushed = b.pushed := hpushed
  have hrest : rest.Perm (ms ++ b'.main) := by
    simpa [Buffer.inject, Buffer.pop, Buffer.setSub, Buffer.setMerged, hmain] using hperm
  have huid : ∀ r ∈ b.injected, r.uid ≠ mf.uid := h.uid_ne (hmain ▸ List.mem_cons_self)
  have hpackets : b'.injected.flatMap b'.packetOf =
      b.injected.flatMap b.packetOf ++ (mf :: ms) := by
    rw [hinjected', List.flatMap_append]
    congr 1
    · refine List.flatMap_congr fun r hr => ?_
      simp only [Buffer.packetOf, hmerged', if_neg (huid r hr)]
    · simp [Buffer.packetOf, hmerged']
  refine ⟨b', hb', ⟨?_, ?_, ?_, hsubs', ?_⟩, hinjected'⟩
  · rw [hpushed']
    exact h.uids
  · rw [hpushed', hpackets]
    refine h.parts.trans ?_
    rw [hmain, ← List.append_assoc]
    refine ((hrest.cons mf).append_right _).trans ?_
    have hswap : (mf :: (ms ++ b'.main)).Perm (b'.main ++ (mf :: ms)) := by
      rw [← List.cons_append]
      exact List.perm_append_comm
    refine (hswap.append_right _).trans ?_
    rw [List.append_assoc, List.append_assoc]
    exact List.Perm.append_left _ List.perm_append_comm
  · intro r hr m hm
    rw [hinjected'] at hr
    simp only [hmerged'] at hm
    rcases List.mem_append.1 hr with hr | hr
    · rw [if_neg (huid r hr)] at hm
      exact h.sameSub r hr m hm
    · obtain rfl := List.mem_singleton.1 hr
      rw [if_pos rfl] at hm
      exact (hin m hm).2
  · intro u hu
    rw [hinjected'] at hu
    have hne := hu mf (List.mem_append_right _ (List.mem_singleton.2 rfl))
    simp only [hmerged', if_neg hne.symm]
    exact h.clear u fun r hr => hu r (List.mem_append_left _ hr)

theorem setMerged_nil (h : Inv b) (hmf : mf ∈ b.main) (l : List Mf) :
    (b.setMerged mf l).setMerged mf [] = b := by
  have hnil : b.merged mf.uid = [] := h.clear _ (h.uid_ne hmf)
  have hmerged : ((b.setMerged mf l).setMerged mf []).merged = b.merged := by
    funext u
    simp only [Buffer.setMerged]
    split
    case isTrue hu => rw [hu, hnil]
    case isFalse hu => rfl
  calc (b.setMerged mf l).setMerged mf []
      = { b with merged := ((b.setMerged mf l).setMerged mf []).merged } := rfl
    _ = b := by rw [hmerged]

theorem attach_of_write (h : Inv b) (hmf : mf ∈ b.main) (hw : mf.isWrite = true) :
    b.attach cfg mf = (b.setMerged mf [], mf.size) := by
  have := h.setMerged_nil hmf []
  rw [Buffer.attach, if_pos hw]
  congr 1
  rw [← this]
  simp only [Buffer.setMerged]
  congr 1
  funext u
  split <;> rfl

/-- What is attached to the top request; a write is a packet without merged requests. -/
theorem attach_spec (cfg : Config) (h : Inv b) (hmf : mf ∈ b.main) : ∃ ms size,
    b.attach cfg mf = (b.setMerged mf ms, size) ∧ ms.Sublist (b.subs mf.sub) ∧ (∀ m ∈ ms, m ≠ mf) ∧
      (ms = [] ∨ mf.isWrite = false ∧ (ms, size) = b.packet cfg mf) := by
  cases hw : mf.isWrite with
  | true => exact ⟨[], mf.size, h.attach_of_write hmf hw, List.nil_sublist _, nofun, Or.inl rfl⟩
  | false =>
      obtain ⟨hsub, hne⟩ := packet_spec cfg b mf
      refine ⟨(b.packet cfg mf).1, (b.packet cfg mf).2, ?_, hsub, hne, Or.inr ⟨rfl, rfl⟩⟩
      simp [Buffer.attach, hw]

theorem moves (h : Inv b) : b.Moves cfg := by
  intro icnt mf hhead hfull hhold
  obtain ⟨rest, hmain⟩ : ∃ rest, b.main = mf :: rest := by
    cases hmain : b.main with
    | nil =>
        rw [hmain] at hhead
        cases hhead
    | cons mf' rest =>
        rw [hmain] at hhead
        obtain rfl := Option.some.inj hhead
        exact ⟨rest, rfl⟩
  obtain ⟨ms, size, hattach, hsub, hne, -⟩ := h.attach_spec cfg (hmain ▸ List.mem_cons_self)
  obtain ⟨b', hb', -, hinjected⟩ := h.send hmain hsub hne
  have hfree : ¬ (cfg.lazyInj = true ∧ 1 < icnt.occupancy) := by
    rintro ⟨hlazy, hocc⟩
    exact absurd (hhold hlazy) (Nat.not_le.2 hocc)
  have hms : ((b.setMerged mf ms).inject mf).merged mf.uid = ms := if_pos rfl
  refine ⟨b', ?_, hinjected⟩
  rw [hattach] at hfull
  rw [Buffer.coreCycle, hmain]
  simp only [hattach]
  rw [if_pos hfull, if_neg hfree, hms]
  exact hb'

theorem cycle (h : Inv b) (hleaves : b.Leaves cfg icnt) :
    ∃ b', b.coreCycle cfg icnt = some b' ∧ Inv b' := by
  unfold Buffer.coreCycle
  cases hmain : b.main with
  | nil => exact ⟨b, rfl, h⟩
  | cons mf rest =>
      have hmf : mf ∈ b.main := hmain ▸ List.mem_cons_self
      obtain ⟨ms, size, hattach, hsub, hne, hpacket⟩ := h.attach_spec cfg hmf
      have hhold : cfg.lazyInj = true ∧ 1 < icnt.occupancy → icnt.full size = false → ms = [] := by
        intro hlazy hfull
        rcases hpacket with hnil | ⟨hw, hpacket⟩
        · exact hnil
        · obtain ⟨rfl, rfl⟩ := Prod.mk.inj hpacket
          exact hleaves hlazy.1 hlazy.2 mf (by rw [hmain]; rfl) hw hfull
      simp only [hattach]
      split
      case isTrue hfull =>
        split
        case isTrue hlazy =>
          obtain rfl := hhold hlazy hfull
          have hself : b.setMerged mf [] = b := by
            have := h.setMerged_nil hmf (b.merged mf.uid)
            rwa [show b.setMerged mf (b.merged mf.uid) = b from ?_] at this
            simp only [Buffer.setMerged]
            congr 1
            funext u
            split
            case isTrue hu => rw [hu]
            case isFalse => rfl
          refine ⟨b, ?_, h⟩
          rw [hself, h.clear _ (h.uid_ne hmf)]
          rfl
        case isFalse =>
          have hms : ((b.setMerged mf ms).inject mf).merged mf.uid = ms := if_pos rfl
          rw [hms]
          obtain ⟨b', hb', hinv, -⟩ := h.send hmain hsub hne
          exact ⟨b', hb', hinv⟩
      case isFalse => exact ⟨b, by rw [h.setMerged_nil hmf], h⟩

theorem next (h : Inv b) {ev : Event} (hleaves : ev.Leaves cfg b) :
    ∃ b', b.next cfg ev = some b' ∧ Inv b' := by
  cases ev with
  | push sub isWrite size ctrlSize => exact ⟨_, rfl, h.push sub isWrite size ctrlSize⟩
  | cycle icnt => exact h.cycle hleaves

theorem run (h : Inv b) {evs : List Event} (hleaves : RunLeaves cfg b evs) :
    ∃ b', b.run cfg evs = some b' ∧ Inv b' := by
  induction evs generalizing b with
  | nil => exact ⟨b, rfl, h⟩
  | cons ev evs ih =>
      obtain ⟨t, ht, hinv⟩ := h.next hleaves.1
      obtain ⟨b', hb', hinv'⟩ := ih hinv (hleaves.2 t ht)
      refine ⟨b', ?_, hinv'⟩
      rw [Buffer.run, List.foldlM_cons, ht]
      exact hb'

end Inv

/-- **In a run in which no read that others are merged into is held back, no assertion fails, the requests
are conserved in every state, and the top request is sent when it can be.** -/
theorem run_conserves (cfg : Config) (evs : List Event) (hleaves : RunLeaves cfg Buffer.empty evs) :
    ∃ b, Buffer.empty.run cfg evs = some b ∧ b.Conserved ∧ b.Moves cfg := by
  obtain ⟨b, hb, h⟩ := Inv.empty.run hleaves
  exact ⟨b, hb, h.conserved, h.moves⟩

/-- A read that is held back alone, and leaves with the next one. -/
def lazyRun : List Event :=
  [.push 0 false 8 8, .cycle ⟨fun _ => false, 2⟩, .push 0 false 8 8, .cycle ⟨fun _ => false, 1⟩]

theorem run_conserves_lazy :
    ∃ b, Buffer.empty.run ⟨true, 32⟩ lazyRun = some b ∧ b.Conserved ∧ b.Moves ⟨true, 32⟩ :=
  run_conserves ⟨true, 32⟩ lazyRun (by
    refine ⟨trivial, fun b hb => ⟨fun _ _ mf hmf _ _ => ?_, fun b' hb' => ⟨trivial, fun _ _ =>
      ⟨fun _ hocc => absurd hocc (by decide), fun _ _ => trivial⟩⟩⟩⟩
    obtain rfl : _ = b := Option.some.inj hb
    obtain rfl : _ = mf := Option.some.inj hmf
    rfl)

/-- A read that is to be merged leaves the buffers although its root is held back, and the next
attempt sends the root alone. -/
theorem not_conserves :
    (Buffer.empty.run ⟨true, 32⟩
      [.push 0 false 8 8, .push 0 false 8 8, .cycle ⟨fun _ => false, 2⟩, .cycle ⟨fun _ => false, 1⟩]).map
      (fun b => (b.pushed.map (·.uid), b.main, (b.injected.flatMap b.packetOf).map (·.uid))) =
    some ([0, 1], [], [0]) := by
  decide +kernel

end Request
end CompressionWork
