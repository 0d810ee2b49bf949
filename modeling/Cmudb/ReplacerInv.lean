import Mathlib.Data.List.Count
import Mathlib.Data.List.Perm.Subperm
import Cmudb.ReplacerLists

/-!
# What holds of the replacer

Every node on a list is filed under its page and, when it is resident, under
its frame. A page is admitted only while there is room for it, which there
always is when there are as many frames as the capacity.
-/

namespace Cmudb

open Lib

def ArcList.isResident : ArcList → Bool
  | .mru | .mfu => true
  | .ghostMru | .ghostMfu => false

namespace ArcReplacer

def Tracked (L : ArcList → List Nat) (i : Nat) : Prop := ∃ k, i ∈ L k

structure FiledAt (r : ArcReplacer) (L : ArcList → List Nat) (i : Nat) : Prop where
  pages : ∀ p, r.pageIndices p = some i ↔ Tracked L i ∧ ∃ f b, r.data i = some (p, f, b)
  frames : ∀ f, r.frameIndices f = some i ↔ Tracked L i ∧ ∃ p b, r.data i = some (p, some f, b)
  resident : ∀ k p f b, i ∈ L k → r.data i = some (p, f, b) → f.isSome = k.isResident
  evictable : ∀ p f, r.data i = some (p, f, true) → ∃ k, i ∈ L k ∧ k.isResident = true
  stored : i < r.nodes.length ↔ i ∈ r.unusedNodeIndices ∨ Tracked L i
  apart : i ∈ r.unusedNodeIndices → ¬ Tracked L i

def size (L : ArcList → List Nat) : Nat :=
  (L .mru).length + (L .mfu).length + (L .ghostMru).length + (L .ghostMfu).length

structure Frames where
  ids : List FrameId
  capacity : Nat

instance Frames.membership : Membership FrameId Frames := ⟨fun frames f => f ∈ frames.ids⟩

structure Inv (frames : Frames) (r : ArcReplacer) (L : ArcList → List Nat) : Prop where
  lists : r.Spells L
  filed : ∀ i, r.FiledAt L i
  count : r.evictableCount = r.nodes.countP ArcNode.evictable
  unused : r.unusedNodeIndices.Nodup
  allowed : ∀ f i, r.frameIndices f = some i → f ∈ frames
  capacity : frames.capacity = r.capacity
  room : (L .mru).length + (L .mfu).length ≤ r.capacity
  side : (L .mru).length + (L .ghostMru).length ≤ r.capacity
  size : size L ≤ 2 * r.capacity
  target : r.mruTargetSize ≤ r.capacity
  store : r.nodes.length ≤ 2 * r.capacity

section

variable {frames : Frames} {r r' : ArcReplacer} {L L' : ArcList → List Nat} {i j : Nat} {f : FrameId}
  {p : PageId} {k : ArcList}

structure KeepsAt (r r' : ArcReplacer) (L L' : ArcList → List Nat) (j : Nat) : Prop where
  mem : ∀ k, j ∈ L' k ↔ j ∈ L k
  data : r'.data j = r.data j
  pages : ∀ p, r'.pageIndices p = some j ↔ r.pageIndices p = some j
  frames : ∀ f, r'.frameIndices f = some j ↔ r.frameIndices f = some j
  unused : j ∈ r'.unusedNodeIndices ↔ j ∈ r.unusedNodeIndices
  stored : j < r'.nodes.length ↔ j < r.nodes.length

theorem KeepsAt.tracked (h : KeepsAt r r' L L' j) : Tracked L' j ↔ Tracked L j := by
  unfold Tracked
  simp only [h.mem]

theorem KeepsAt.filed (h : KeepsAt r r' L L' j) (hf : r.FiledAt L j) : r'.FiledAt L' j := by
  refine ⟨fun p => ?_, fun f => ?_, fun k p f b hk hd => ?_, fun p f hd => ?_, ?_, fun hu => ?_⟩
  · rw [h.pages, hf.pages, h.tracked, h.data]
  · rw [h.frames, hf.frames, h.tracked, h.data]
  · exact hf.resident k p f b ((h.mem k).mp hk) (h.data ▸ hd)
  · obtain ⟨k, hk, hres⟩ := hf.evictable p f (h.data ▸ hd)
    exact ⟨k, (h.mem k).mpr hk, hres⟩
  · rw [h.stored, hf.stored, h.unused, h.tracked]
  · rw [h.tracked]
    exact hf.apart (h.unused.mp hu)

theorem data_of_node {nd : ArcNode} (h : r.nodes[i]? = some nd) :
    r.data i = some (nd.pageId, nd.frameId, nd.evictable) := by
  rw [data, h]
  rfl

theorem Inv.lt (h : Inv frames r L) (hi : Tracked L i) : i < r.nodes.length := (h.filed i).stored.mpr (.inr hi)

theorem Inv.node (h : Inv frames r L) (hi : i ∈ L k) :
    ∃ nd as bs, r.nodes[i]? = some nd ∧ nd.list = k ∧ L k = as ++ i :: bs := by
  obtain ⟨nd, hnd, hk⟩ := (h.lists k).on i hi
  obtain ⟨as, bs, hL⟩ := List.append_of_mem hi
  exact ⟨nd, as, bs, hnd, hk, hL⟩

theorem Inv.holder (h : Inv frames r L) (hf : r.frameIndices f = some i) :
    ∃ k nd, i ∈ L k ∧ k.isResident = true ∧ r.nodes[i]? = some nd ∧ nd.list = k ∧ nd.frameId = some f := by
  obtain ⟨⟨k, hk⟩, p, b, hd⟩ := ((h.filed i).frames f).mp hf
  obtain ⟨nd, -, -, hnd, hlist, -⟩ := h.node hk
  have hd' := data_of_node hnd
  rw [hd, Option.some.injEq, Prod.mk.injEq, Prod.mk.injEq] at hd'
  refine ⟨k, nd, hk, ?_, hnd, hlist, hd'.2.1.symm⟩
  rw [← (h.filed i).resident k p (some f) b hk hd]
  rfl

theorem Inv.resident_frames (h : Inv frames r L) :
    ∃ gs : List FrameId, gs.Nodup ∧ gs.length = (L .mru).length + (L .mfu).length ∧ ∀ g ∈ gs, g ∈ frames ∧
    r.frameIndices g ≠ none := by
  have hframe : ∀ x ∈ L .mru ++ L .mfu, ∃ g, r.frameIndices g = some x := by
    intro x hx
    have hk : ∃ k, x ∈ L k ∧ k.isResident = true := by
      rcases List.mem_append.mp hx with hx | hx
      · exact ⟨.mru, hx, rfl⟩
      · exact ⟨.mfu, hx, rfl⟩
    obtain ⟨k, hk, hres⟩ := hk
    obtain ⟨nd, -, -, hnd, -⟩ := h.node hk
    have hd := data_of_node hnd
    have hsome := (h.filed x).resident k _ _ _ hk hd
    rw [hres, Option.isSome_iff_exists] at hsome
    obtain ⟨g, hg⟩ := hsome
    rw [hg] at hd
    exact ⟨g, ((h.filed x).frames g).mpr ⟨⟨k, hk⟩, _, _, hd⟩⟩
  choose! g hg using hframe
  have hdistinct : (L .mru ++ L .mfu).Nodup := by
    refine List.Nodup.append (h.lists .mru).distinct (h.lists .mfu).distinct fun x hx hx' => ?_
    cases h.lists.disjoint hx hx'
  refine ⟨(L .mru ++ L .mfu).map g, hdistinct.map_on fun x hx y hy heq =>
    ?_, by rw [List.length_map, List.length_append], fun y hy => ?_⟩
  · have := hg x hx
    rw [heq, hg y hy, Option.some.injEq] at this
    exact this.symm
  · obtain ⟨x, hx, rfl⟩ := List.mem_map.mp hy
    exact ⟨h.allowed _ _ (hg x hx), by rw [hg x hx]; exact Option.some_ne_none x⟩

def Admits (r : ArcReplacer) (L : ArcList → List Nat) (f : FrameId) : Prop :=
  r.frameIndices f = none → (L .mru).length + (L .mfu).length < r.capacity

/-- Where there are as many frames as the capacity, a frame to spare means room for one more resident page. -/
theorem Inv.admits (h : Inv frames r L) (hall : frames.ids.length = frames.capacity) (hf : f ∈ frames) :
    Admits r L f := by
  intro hnone
  obtain ⟨gs, hnodup, hlen, hgs⟩ := h.resident_frames
  have hsub : gs ⊆ frames.ids.erase f := by
    intro g hg
    have hne : g ≠ f := by
      rintro rfl
      exact (hgs g hg).2 hnone
    exact (List.mem_erase_of_ne hne).mpr (hgs g hg).1
  have hle := (List.subperm_of_subset hnodup hsub).length_le
  rw [List.length_erase_of_mem hf, hall, h.capacity] at hle
  have hpos := List.length_pos_of_mem hf
  rw [hall, h.capacity] at hpos
  omega

/-! ## The pages in the frames -/

def held (r : ArcReplacer) (f : FrameId) : Option (PageId × Bool) :=
  (r.frameIndices f).bind fun i => (r.data i).map fun x => (x.1, x.2.2)

def Takes (r r' : ArcReplacer) (f : FrameId) (p : PageId) : Prop :=
  ∀ g, r'.held g = if g = f then some (p, false) else r.held g

theorem Inv.frame_unique (h : Inv frames r L) {g : FrameId} (hf : r.frameIndices f = some i)
    (hg : r.frameIndices g = some i) : f = g := by
  obtain ⟨-, nd, -, -, hnd, -, hframe⟩ := h.holder hf
  obtain ⟨-, nd', -, -, hnd', -, hframe'⟩ := h.holder hg
  rw [hnd, Option.some.injEq] at hnd'
  subst hnd'
  rw [hframe, Option.some.injEq] at hframe'
  exact hframe'

theorem Inv.held_node (h : Inv frames r L) {b : Bool} (hf : r.held f = some (p, b)) :
    ∃ i, r.frameIndices f = some i ∧ r.pageIndices p = some i ∧ r.data i = some (p, some f, b) := by
  obtain ⟨i, hi, hx⟩ := Option.bind_eq_some_iff.mp hf
  obtain ⟨x, hd, hx⟩ := Option.map_eq_some_iff.mp hx
  obtain ⟨hin, q, b', hd'⟩ := ((h.filed i).frames f).mp hi
  rw [hd, Option.some.injEq] at hd'
  subst hd'
  obtain ⟨rfl, rfl⟩ := Prod.mk.injEq _ _ _ _ ▸ hx
  exact ⟨i, hi, ((h.filed i).pages _).mpr ⟨hin, _, _, hd⟩, hd⟩

theorem held_congr (hframes : r'.frameIndices f = r.frameIndices f)
    (hdata : ∀ i, r.frameIndices f = some i → r'.data i = r.data i) :
    r'.held f = r.held f := by
  unfold held
  rw [hframes]
  cases hi : r.frameIndices f with
  | none => rfl
  | some i => simp only [Option.bind_some, hdata i hi]

theorem held_of_frame {x : PageId × Option FrameId × Bool} (hi : r.frameIndices f = some i)
    (hd : r.data i = some x) : r.held f = some (x.1, x.2.2) := by
  rw [held, hi, Option.bind_some, hd, Option.map_some]

theorem held_none : r.held f = none ↔ r.frameIndices f = none ∨ ∃ i, r.frameIndices f = some i ∧
    r.data i = none := by
  unfold held
  cases hi : r.frameIndices f with
  | none => simp
  | some i => simp

theorem Takes.of_update (hno : ∀ g, r.frameIndices g ≠ some i)
    (hframes : r'.frameIndices = Function.update r.frameIndices f (some i))
    (hdata : r'.data i = some (p, some f, false)) (hothers : ∀ j, j ≠ i → r'.data j = r.data j) :
    Takes r r' f p := by
  intro g
  by_cases hg : g = f
  · subst hg
    rw [if_pos rfl]
    exact held_of_frame (by rw [hframes, Function.update_self]) hdata
  · rw [if_neg hg]
    refine held_congr (by rw [hframes, Function.update_of_ne hg]) fun j hj => hothers j ?_
    rintro rfl
    exact hno g hj

/-! ## Changes to one node -/

theorem evictable_of_data {nd : ArcNode} (h : r.nodes[i]? = some nd) {x : PageId × Option FrameId × Bool}
    (hd : r.data i = some x) :
    nd.pageId = x.1 ∧ nd.frameId = x.2.1 ∧ nd.evictable = x.2.2 := by
  rw [data_of_node h, Option.some.injEq] at hd
  subst hd
  exact ⟨rfl, rfl, rfl⟩

theorem map_evictable_getElem? (i : Nat) : (r.nodes.map ArcNode.evictable)[i]? = (r.data i).map fun x => x.2.2 := by
  rw [List.getElem?_map, data, Option.map_map]
  rfl

theorem countP_evictable : r.nodes.countP ArcNode.evictable = (r.nodes.map ArcNode.evictable).countP id := by
  rw [List.countP_map]
  rfl

theorem SameData.countP (h : r.SameData r') :
    r'.nodes.countP ArcNode.evictable = r.nodes.countP ArcNode.evictable := by
  rw [countP_evictable, countP_evictable]
  congr 1
  refine List.ext_getElem? fun j => ?_
  rw [map_evictable_getElem?, map_evictable_getElem?, h.data]

theorem countP_change (r r' : ArcReplacer) (i : Nat) (hother : ∀ j, j ≠ i → r'.data j = r.data j) {p p' : PageId}
    {f f' : Option FrameId} {b b' : Bool} (hd : r.data i = some (p, f, b)) (hd' : r'.data i = some (p', f', b')) :
    r'.nodes.countP ArcNode.evictable + b.toNat = r.nodes.countP ArcNode.evictable + b'.toNat := by
  have hb : (r.nodes.map ArcNode.evictable)[i]? = some b := by rw [map_evictable_getElem?, hd]; rfl
  obtain ⟨hi, hb⟩ := List.getElem?_eq_some_iff.mp hb
  have hset : r'.nodes.map ArcNode.evictable = (r.nodes.map ArcNode.evictable).set i b' := by
    refine List.ext_getElem? fun j => ?_
    rw [map_evictable_getElem?, List.getElem?_set]
    by_cases hj : i = j
    · subst hj
      rw [if_pos rfl, if_pos hi, hd']
      rfl
    · rw [if_neg hj, hother j (Ne.symm hj), map_evictable_getElem?]
  have hpos : b = true → 0 < (r.nodes.map ArcNode.evictable).countP id := fun hbt =>
    List.countP_pos_iff.mpr ⟨b, hb ▸ List.getElem_mem hi, hbt⟩
  rw [countP_evictable, countP_evictable, hset, List.countP_set hi, hb]
  generalize (r.nodes.map ArcNode.evictable).countP id = n at hpos ⊢
  cases b <;> cases b'
    <;> simp only [id, Bool.toNat_true, Bool.toNat_false, if_true, if_false, Bool.false_eq_true, forall_const]
    at hpos ⊢ <;> omega

theorem Spells.of_data (h : r.Spells L) (hlist : ∀ k, r'.list k = r.list k)
    (hnodes : ∀ (j : Nat) (nd : ArcNode), r.nodes[j]? = some nd → ∃ nd' : ArcNode, r'.nodes[j]? = some nd' ∧
      nd'.next = nd.next ∧ nd'.prev = nd.prev ∧ nd'.list = nd.list) :
    r'.Spells L := by
  intro k
  have hnode : ∀ j ∈ L k, r'.next j = r.next j ∧ r'.prev j = r.prev j ∧ ∃ nd, r'.nodes[j]? = some nd ∧
      nd.list = k := by
    intro j hj
    obtain ⟨nd, hnd, hk⟩ := (h k).on j hj
    obtain ⟨nd', hnd', hn, hp, hl⟩ := hnodes j nd hnd
    rw [next, next, prev, prev, hnd, hnd']
    exact ⟨hn, hp, nd', rfl, hl.trans hk⟩
  exact ⟨(h k).linked.congr (fun y hy => (hnode y hy).1) fun y hy => (hnode y hy).2.1, hlist k ▸ (h k).first,
    hlist k ▸ (h k).last, hlist k ▸ (h k).length, (h k).distinct, fun j hj => (hnode j hj).2.2⟩

theorem setData_eq (h : r.Spells L) (hi : i < r.nodes.length) (g : ArcNode → ArcNode)
    (hg : ∀ nd, (g nd).next = nd.next ∧ (g nd).prev = nd.prev ∧ (g nd).list = nd.list) :
    ∃ ns, r.modifyNode i g = some { r with nodes := ns } ∧ ns.length = r.nodes.length ∧
    (∀ nd, r.nodes[i]? = some nd → ns[i]? = some (g nd)) ∧
      (∀ j, j ≠ i → ns[j]? = r.nodes[j]?) ∧ ({ r with nodes := ns } : ArcReplacer).Spells L := by
  obtain ⟨ns, hns, hlen, hget⟩ := modifyNode_eq (r := r) g hi
  have hother : ∀ j, j ≠ i → ns[j]? = r.nodes[j]? := fun j hj => by
    rw [hget j]
    simp [Ne.symm hj]
  have hself : ∀ nd, r.nodes[i]? = some nd → ns[i]? = some (g nd) := fun nd hnd => by
    rw [hget i, hnd]
    simp
  refine ⟨ns, hns, hlen, hself, hother, h.of_data (fun k => list_nodes ns k) fun j nd hnd => ?_⟩
  by_cases hj : j = i
  · subst hj
    exact ⟨g nd, hself nd hnd, (hg nd).1, (hg nd).2.1, (hg nd).2.2⟩
  · exact ⟨nd, by simp only; rw [hother j hj, hnd], rfl, rfl, rfl⟩

end

end ArcReplacer

end Cmudb
