import Cmudb.Lib.Linked
import Cmudb.Replacer

/-!
# The lists of the replacer

The four lists spell lists of node indices, from the most recent to the least
recent. Detaching, pushing and inserting a node do to these what they should
and leave what the nodes stand for alone.
-/

namespace Cmudb

open Lib

namespace ArcReplacer

variable (r : ArcReplacer)

def next (i : Nat) : Option Nat := (r.nodes[i]?).bind ArcNode.next

def prev (i : Nat) : Option Nat := (r.nodes[i]?).bind ArcNode.prev

def data (i : Nat) : Option (PageId × Option FrameId × Bool) :=
  (r.nodes[i]?).map fun nd => (nd.pageId, nd.frameId, nd.evictable)

structure SpellsList (k : ArcList) (xs : List Nat) : Prop where
  linked : Lib.Linked r.next r.prev none xs none
  first : (r.list k).mostRecent = xs.head?
  last : (r.list k).leastRecent = xs.getLast?
  length : (r.list k).length = xs.length
  distinct : xs.Nodup
  on : ∀ i ∈ xs, ∃ nd, r.nodes[i]? = some nd ∧ nd.list = k

def Spells (L : ArcList → List Nat) : Prop := ∀ k, r.SpellsList k (L k)

/-- Nothing but the links has changed. -/
structure SameData (r' : ArcReplacer) : Prop where
  count : r'.nodes.length = r.nodes.length
  data : ∀ i, r'.data i = r.data i
  unused : r'.unusedNodeIndices = r.unusedNodeIndices
  pages : r'.pageIndices = r.pageIndices
  frames : r'.frameIndices = r.frameIndices
  target : r'.mruTargetSize = r.mruTargetSize
  capacity : r'.capacity = r.capacity
  evictable : r'.evictableCount = r.evictableCount

def Untouched (L : ArcList → List Nat) (r' : ArcReplacer) : Prop := ∀ j, (∀ k, j ∉ L k) → r'.nodes[j]? = r.nodes[j]?

variable {r} {r' r'' : ArcReplacer} {L : ArcList → List Nat} {k k' : ArcList} {i j : Nat} {as bs : List Nat}

theorem SameData.trans (h : r.SameData r') (h' : r'.SameData r'') : r.SameData r'' :=
  ⟨h'.count.trans h.count, fun i => (h'.data i).trans (h.data i), h'.unused.trans h.unused, h'.pages.trans h.pages,
    h'.frames.trans h.frames, h'.target.trans h.target, h'.capacity.trans h.capacity,
    h'.evictable.trans h.evictable⟩

@[simp] theorem list_setList_self (k : ArcList) (h : ListHead) : (r.setList k h).list k = h := by
  cases k <;> rfl

theorem list_setList_ne (h : ListHead) (hk : k' ≠ k) : (r.setList k h).list k' = r.list k' := by
  cases k <;> cases k' <;> first | rfl | exact absurd rfl hk

@[simp] theorem nodes_setList (k : ArcList) (h : ListHead) : (r.setList k h).nodes = r.nodes := by
  cases k <;> rfl

theorem list_nodes (ns : List ArcNode) (k : ArcList) :
    ({ r with nodes := ns } : ArcReplacer).list k = r.list k := by
  cases k <;> rfl

theorem setList_nodes (ns : List ArcNode) (k : ArcList) (h : ListHead) :
    ({ r with nodes := ns } : ArcReplacer).setList k h = { r.setList k h with nodes := ns } := by
  cases k <;> rfl

theorem setList_setList (k : ArcList) (h h' : ListHead) : (r.setList k h).setList k h' = r.setList k h' := by
  cases k <;> rfl

theorem sameData_setList (k : ArcList) (h : ListHead) : r.SameData (r.setList k h) := by
  cases k <;> exact ⟨rfl, fun _ => rfl, rfl, rfl, rfl, rfl, rfl, rfl⟩

theorem modifyAt_eq {o : Option Nat} (f : ArcNode → ArcNode) (h : ∀ i, o = some i → i < r.nodes.length) :
    ∃ ns, r.modifyAt o f = some { r with nodes := ns } ∧ ns.length = r.nodes.length ∧
      ∀ j, ns[j]? = (r.nodes[j]?).map fun nd => if o = some j then f nd else nd := by
  cases o with
  | none => exact ⟨r.nodes, rfl, rfl, fun j => by simp⟩
  | some i =>
    refine ⟨r.nodes.modify i f, if_pos (h i rfl), List.length_modify .., fun j => ?_⟩
    rw [List.getElem?_modify]
    simp only [Option.some.injEq]
    rfl

theorem modifyNode_eq (f : ArcNode → ArcNode) (h : i < r.nodes.length) :
    ∃ ns, r.modifyNode i f = some { r with nodes := ns } ∧ ns.length = r.nodes.length ∧
      ∀ j, ns[j]? = (r.nodes[j]?).map fun nd => if i = j then f nd else nd := by
  obtain ⟨ns, hns, hlen, hget⟩ := modifyAt_eq (r := r) (o := some i) f fun j hj => by cases hj; exact h
  refine ⟨ns, hns, hlen, fun j => ?_⟩
  rw [hget]
  simp only [Option.some.injEq]

theorem data_of_nodes {ns : List ArcNode} {f : Nat → ArcNode → ArcNode} (h : ∀ j, ns[j]? = (r.nodes[j]?).map (f j))
    (hf : ∀ j nd, (f j nd).pageId = nd.pageId ∧ (f j nd).frameId = nd.frameId ∧ (f j nd).evictable = nd.evictable)
    (i : Nat) :
    ({ r with nodes := ns } : ArcReplacer).data i = r.data i := by
  unfold data
  simp only
  rw [h i, Option.map_map]
  refine congrFun (congrArg Option.map (funext fun nd => ?_)) _
  obtain ⟨h₁, h₂, h₃⟩ := hf i nd
  simp [h₁, h₂, h₃]

theorem SpellsList.congr {xs : List Nat} (h : r.SpellsList k xs) (hlist : r'.list k = r.list k)
    (hnodes : ∀ j ∈ xs, r'.nodes[j]? = r.nodes[j]?) :
    r'.SpellsList k xs := by
  refine ⟨h.linked.congr (fun y hy => ?_) fun y hy => ?_, hlist ▸ h.first, hlist ▸ h.last, hlist ▸ h.length,
    h.distinct, fun i hi => ?_⟩
  · rw [next, next, hnodes y hy]
  · rw [prev, prev, hnodes y hy]
  · rw [hnodes i hi]
    exact h.on i hi

theorem Spells.lt (h : r.Spells L) (hi : i ∈ L k) : i < r.nodes.length := by
  obtain ⟨nd, hnd, -⟩ := (h k).on i hi
  exact (List.getElem?_eq_some_iff.mp hnd).1

theorem Spells.disjoint (h : r.Spells L) (hi : i ∈ L k) (hi' : i ∈ L k') : k = k' := by
  obtain ⟨nd, hnd, rfl⟩ := (h k).on i hi
  obtain ⟨nd', hnd', rfl⟩ := (h k').on i hi'
  rw [hnd, Option.some.injEq] at hnd'
  rw [hnd']

theorem Spells.node (h : r.Spells L) (hL : L k = as ++ i :: bs) :
    ∃ nd, r.nodes[i]? = some nd ∧ nd.list = k ∧ nd.prev = as.getLast? ∧ nd.next = bs.head? := by
  obtain ⟨nd, hnd, hk⟩ := (h k).on i (by rw [hL]; simp)
  have hlinked := (h k).linked
  rw [hL] at hlinked
  obtain ⟨hp, hn⟩ := hlinked.neighbours
  rw [prev, hnd] at hp
  rw [next, hnd] at hn
  exact ⟨nd, hnd, hk, hp, hn⟩

/-- The lists after a change to one of them, to its head, and to the links of its nodes. -/
theorem Spells.of_change (h : r.Spells L) {ns : List ArcNode} {f : Nat → ArcNode → ArcNode} {head : ListHead}
    {xs : List Nat} (hget : ∀ j, ns[j]? = (r.nodes[j]?).map (f j))
    (hother : ∀ k', k' ≠ k → ∀ j ∈ L k', ∀ nd, f j nd = nd)
    (hnew : ({ r.setList k head with nodes := ns } : ArcReplacer).SpellsList k xs) :
    ({ r.setList k head with nodes := ns } : ArcReplacer).Spells (Function.update L k xs) := by
  intro k'
  by_cases hk' : k' = k
  · subst hk'
    rw [Function.update_self]
    exact hnew
  · rw [Function.update_of_ne hk']
    refine (h k').congr ?_ fun j hj => ?_
    · rw [list_nodes, list_setList_ne _ hk']
    · obtain ⟨nd, hnd, -⟩ := (h k').on j hj
      show ns[j]? = _
      rw [hget j, hnd, Option.map_some, hother k' hk' j hj nd]

theorem sub?_one (n : Nat) : sub? (n + 1) 1 = some n := if_pos (Nat.le_add_left 1 n)

theorem detach_eq (h : r.Spells L) (hL : L k = as ++ i :: bs) :
    ∃ r', r.detach i = some r' ∧ r'.Spells (Function.update L k (as ++ bs)) ∧ r.SameData r' ∧ r.Untouched L r' := by
  obtain ⟨nd, hnd, hk, hp, hn⟩ := h.node hL
  have hmem : ∀ j ∈ as ++ i :: bs, j < r.nodes.length := fun j hj => h.lt (hL ▸ hj)
  have hlen := (h k).length
  rw [hL, List.length_append, List.length_cons, ← Nat.add_assoc] at hlen
  let head : ListHead := ⟨if (r.list k).mostRecent = some i then nd.next else (r.list k).mostRecent,
    if (r.list k).leastRecent = some i then nd.prev else (r.list k).leastRecent, as.length + bs.length⟩
  obtain ⟨ns₁, hns₁, hlen₁, hget₁⟩ :=
    modifyAt_eq (r := r.setList k head) (o := nd.prev) (fun p => { p with next := nd.next }) fun j hj => by
    rw [nodes_setList]
    exact hmem j (List.mem_append_left _ (List.mem_of_getLast? (hp ▸ hj)))
  obtain ⟨ns₂, hns₂, hlen₂, hget₂⟩ :=
    modifyAt_eq (r := { r.setList k head with nodes := ns₁ }) (o := nd.next) (fun n => { n with prev := nd.prev })
    fun j hj => by
      simp only [hlen₁, nodes_setList]
      exact hmem j (List.mem_append_right _ (List.mem_cons_of_mem i (List.mem_of_head? (hn ▸ hj))))
  obtain ⟨ns₃, hns₃, hlen₃, hget₃⟩ := modifyNode_eq (r := { r.setList k head with nodes := ns₂ }) (i := i)
    (fun nd => { nd with prev := none, next := none })
      (by simp only [hlen₂, hlen₁, nodes_setList]; exact hmem i (by simp))
  let f : Nat → ArcNode → ArcNode := fun j nd₀ =>
    let nd₁ := if nd.prev = some j then { nd₀ with next := nd.next } else nd₀
    let nd₂ := if nd.next = some j then { nd₁ with prev := nd.prev } else nd₁
    if i = j then { nd₂ with prev := none, next := none } else nd₂
  have hget : ∀ j, ns₃[j]? = (r.nodes[j]?).map (f j) := by
    intro j
    rw [hget₃, hget₂, hget₁, nodes_setList, Option.map_map, Option.map_map]
    rfl
  have hdata : ∀ j nd₀, (f j nd₀).pageId = nd₀.pageId ∧ (f j nd₀).frameId = nd₀.frameId ∧
      (f j nd₀).evictable = nd₀.evictable ∧
      (f j nd₀).list = nd₀.list := by
    intro j nd₀
    simp only [f]
    split_ifs <;> exact ⟨rfl, rfl, rfl, rfl⟩
  have hdistinct := (h k).distinct
  rw [hL] at hdistinct
  have hi : ∀ j ∈ as ++ bs, i ≠ j := by
    intro j hj he
    rw [List.nodup_middle] at hdistinct
    exact (List.nodup_cons.mp hdistinct).1 (he ▸ hj)
  have hpin : ∀ j, nd.prev = some j → j ∈ as ++ i :: bs :=
    fun j hj => List.mem_append_left _ (List.mem_of_getLast? (hp ▸ hj))
  have hnin : ∀ j, nd.next = some j → j ∈ as ++ i :: bs := fun j hj =>
    List.mem_append_right _ (List.mem_cons_of_mem i (List.mem_of_head? (hn ▸ hj)))
  have houtside : ∀ j nd₀, j ∉ as ++ i :: bs → f j nd₀ = nd₀ := by
    intro j nd₀ hout
    have hij : i ≠ j := fun he => hout (by rw [← he]; simp)
    simp only [f]
    rw [if_neg hij, if_neg fun he => hout (hnin j he), if_neg fun he => hout (hpin j he)]
  refine ⟨{ r.setList k head with nodes := ns₃ }, ?_,
    h.of_change hget (fun k' hk' j hj nd₀ => ?_) ⟨?_, ?_, ?_, ?_, ?_, ?_⟩, ?_, ?_⟩
  · simp only [detach, hnd, Option.bind_eq_bind, Option.bind_some, hk, hlen, sub?_one]
    rw [show (r.setList k _).modifyAt nd.prev _ = _ from hns₁, Option.bind_some, hns₂, Option.bind_some, hns₃]
  · exact houtside j nd₀ fun hin => hk' (h.disjoint hj (hL ▸ hin))
  · have hlinked := (h k).linked
    rw [hL] at hlinked
    have hnode : ∀ y ∈ as ++ bs, ∃ nd₀, r.nodes[y]? = some nd₀ := by
      intro y hy
      have hy' : y ∈ L k := by
        rw [hL]
        exact (List.Sublist.append_left (List.sublist_cons_self i bs) as).subset hy
      obtain ⟨nd₀, hnd₀, -⟩ := (h k).on y hy'
      exact ⟨nd₀, hnd₀⟩
    refine hlinked.detach hdistinct (fun y hy => ?_) fun y hy => ?_
    · obtain ⟨nd₀, hnd₀⟩ := hnode y hy
      simp only [next, hget y, hnd₀, Option.map_some, Option.bind_some, f, if_neg (hi y hy), ← hp, ← hn]
      split_ifs <;> rfl
    · obtain ⟨nd₀, hnd₀⟩ := hnode y hy
      simp only [prev, hget y, hnd₀, Option.map_some, Option.bind_some, f, if_neg (hi y hy), ← hp, ← hn]
      split_ifs <;> rfl
  · rw [list_nodes, list_setList_self]
    show (if (r.list k).mostRecent = some i then nd.next else (r.list k).mostRecent) = (as ++ bs).head?
    rw [(h k).first, hL, hn]
    cases as with
    | nil => simp
    | cons a as =>
      have hne : a ≠ i := fun he => hi a (by simp) he.symm
      simp [hne]
  · rw [list_nodes, list_setList_self]
    show (if (r.list k).leastRecent = some i then nd.prev else (r.list k).leastRecent) = (as ++ bs).getLast?
    rw [(h k).last, hL, hp]
    cases hb : bs.getLast? with
    | none =>
      rw [List.getLast?_eq_none_iff] at hb
      subst hb
      simp
    | some b =>
      have hne : b ≠ i := fun he => hi b (List.mem_append_right _ (List.mem_of_getLast? hb)) he.symm
      simp [List.getLast?_append, List.getLast?_cons, hb, hne]
  · rw [list_nodes, list_setList_self, List.length_append]
  · rw [List.nodup_middle] at hdistinct
    exact (List.nodup_cons.mp hdistinct).2
  · intro j hj
    have hj' : j ∈ L k := by
      rw [hL]
      exact (List.Sublist.append_left (List.sublist_cons_self i bs) as).subset hj
    obtain ⟨nd₀, hnd₀, hk₀⟩ := (h k).on j hj'
    exact ⟨f j nd₀, by rw [hget j, hnd₀]; rfl, (hdata j nd₀).2.2.2.trans hk₀⟩
  · refine (sameData_setList k head).trans ⟨?_, fun j => ?_, rfl, rfl, rfl, rfl, rfl, rfl⟩
    · rw [hlen₃, hlen₂, hlen₁]
    · refine data_of_nodes (r := r.setList k head) (f := f) (by rw [nodes_setList]; exact hget) (fun j nd₀ => ?_) j
      exact ⟨(hdata j nd₀).1, (hdata j nd₀).2.1, (hdata j nd₀).2.2.1⟩
  · intro j hj
    have hid : f j = id := funext fun nd₀ => houtside j nd₀ (hL ▸ hj k)
    show ns₃[j]? = _
    rw [hget j, hid, Option.map_id, id]

/-- What putting node `i` between two others does to node `j`. -/
def splice (k : ArcList) (i : Nat) (before after : Option Nat) (j : Nat) (nd : ArcNode) : ArcNode :=
  if i = j then { nd with list := k, prev := before, next := after }
  else if before = some j then { nd with next := some i }
  else if after = some j then { nd with prev := some i }
  else nd

theorem splice_data (before after : Option Nat) (j : Nat) (nd : ArcNode) :
    (splice k i before after j nd).pageId = nd.pageId ∧
    (splice k i before after j nd).frameId = nd.frameId ∧
    (splice k i before after j nd).evictable = nd.evictable := by
  unfold splice
  split_ifs <;> exact ⟨rfl, rfl, rfl⟩

theorem Spells.insert (h : r.Spells L) (hL : L k = as ++ bs) (hi : i < r.nodes.length) (hout : ∀ k', i ∉ L k')
    {ns : List ArcNode} {head : ListHead}
    (hget : ∀ j, ns[j]? = (r.nodes[j]?).map (splice k i as.getLast? bs.head? j))
    (hfirst : head.mostRecent = (as ++ i :: bs).head?) (hlast : head.leastRecent = (as ++ i :: bs).getLast?)
    (hlen : head.length = (as ++ i :: bs).length) :
    ({ r.setList k head with nodes := ns } : ArcReplacer).Spells (Function.update L k (as ++ i :: bs)) := by
  have hdistinct : (as ++ i :: bs).Nodup :=
    List.nodup_middle.mpr (List.nodup_cons.mpr ⟨hL ▸ hout k, hL ▸ (h k).distinct⟩)
  have hne : ∀ j ∈ as ++ bs, i ≠ j := fun j hj he => hout k (by rw [hL, he]; exact hj)
  have hapart : ∀ j, as.getLast? = some j → bs.head? ≠ some j := by
    intro j ha hb
    have hnd := (h k).distinct
    rw [hL] at hnd
    exact (List.nodup_append.mp hnd).2.2 j (List.mem_of_getLast? ha) j (List.mem_of_head? hb) rfl
  have hnode : ∀ j ∈ as ++ bs, ∃ nd, r.nodes[j]? = some nd ∧ nd.list = k := fun j hj => (h k).on j (hL ▸ hj)
  obtain ⟨ndi, hndi⟩ : ∃ nd, r.nodes[i]? = some nd := ⟨_, List.getElem?_eq_getElem hi⟩
  refine h.of_change hget (fun k' hk' j hj nd => ?_) ⟨?_, ?_, ?_, ?_, hdistinct, ?_⟩
  · have hnot : j ∉ as ++ bs := fun hin => hk' (h.disjoint hj (hL ▸ hin))
    have hij : i ≠ j := fun he => hout k' (he ▸ hj)
    unfold splice
    rw [if_neg hij, if_neg fun he => hnot (List.mem_append_left _ (List.mem_of_getLast? he)),
      if_neg fun he => hnot (List.mem_append_right _ (List.mem_of_head? he))]
  · have hlinked := (h k).linked
    rw [hL] at hlinked
    refine hlinked.insert hdistinct ?_ ?_ (fun y hy => ?_) fun y hy => ?_
    · simp [next, hget i, hndi, splice]
    · simp [prev, hget i, hndi, splice]
    · obtain ⟨nd, hnd, -⟩ := hnode y hy
      simp only [next, hget y, hnd, Option.map_some, Option.bind_some, splice, if_neg (hne y hy)]
      split_ifs <;> rfl
    · obtain ⟨nd, hnd, -⟩ := hnode y hy
      simp only [prev, hget y, hnd, Option.map_some, Option.bind_some, splice, if_neg (hne y hy)]
      by_cases hb : bs.head? = some y
      · rw [if_neg fun ha => hapart y ha hb, if_pos hb, if_pos hb]
      · rw [if_neg hb, if_neg hb]
        split_ifs <;> rfl
  · rw [list_nodes, list_setList_self, hfirst]
  · rw [list_nodes, list_setList_self, hlast]
  · rw [list_nodes, list_setList_self, hlen]
  · intro j hj
    by_cases hij : i = j
    · subst hij
      exact ⟨_, by simp only; rw [hget i, hndi]; rfl, by simp [splice]⟩
    · have hj' : j ∈ as ++ bs := by
        rcases List.mem_append.mp hj with hj | hj
        · exact List.mem_append_left _ hj
        · exact List.mem_append_right _ ((List.mem_cons.mp hj).resolve_left fun he => hij he.symm)
      obtain ⟨nd, hnd, hk⟩ := hnode j hj'
      refine ⟨_, by simp only; rw [hget j, hnd]; rfl, ?_⟩
      unfold splice
      rw [if_neg hij]
      split_ifs <;> exact hk

theorem SameData.of_splice {ns : List ArcNode} {head : ListHead} {before after : Option Nat}
    (hlen : ns.length = r.nodes.length) (hget : ∀ j, ns[j]? = (r.nodes[j]?).map (splice k i before after j)) :
    r.SameData { r.setList k head with nodes := ns } := by
  refine (sameData_setList k head).trans ⟨?_, fun j => ?_, rfl, rfl, rfl, rfl, rfl, rfl⟩
  · rw [nodes_setList]
    exact hlen
  · exact data_of_nodes (r := r.setList k head) (by rw [nodes_setList]; exact hget)
      (fun j nd => splice_data before after j nd) j

theorem Untouched.of_splice {ns : List ArcNode} {head : ListHead}
    (hget : ∀ j, ns[j]? = (r.nodes[j]?).map (splice k i as.getLast? bs.head? j)) :
    r.Untouched (Function.update L k (as ++ i :: bs)) { r.setList k head with nodes := ns } := by
  intro j hj
  have hout := hj k
  rw [Function.update_self] at hout
  have hid : splice k i as.getLast? bs.head? j = id := by
    funext nd
    unfold splice
    rw [if_neg fun he => hout (by rw [← he]; simp),
      if_neg fun he => hout (List.mem_append_left _ (List.mem_of_getLast? he)),
      if_neg fun he => hout (List.mem_append_right _ (List.mem_cons_of_mem i (List.mem_of_head? he)))]
    rfl
  show ns[j]? = _
  rw [hget j, hid, Option.map_id, id]

theorem push_eq (h : r.Spells L) (hi : i < r.nodes.length) (hout : ∀ k', i ∉ L k') :
    ∃ r', r.push i k = some r' ∧ r'.Spells (Function.update L k (i :: L k)) ∧ r.SameData r' ∧
      r.Untouched (Function.update L k (i :: L k)) r' := by
  let head : ListHead :=
    ⟨some i, if (r.list k).mostRecent = none then some i else (r.list k).leastRecent, (r.list k).length + 1⟩
  obtain ⟨ns₁, hns₁, hlen₁, hget₁⟩ := modifyNode_eq (r := r.setList k head) (i := i)
    (fun nd => { nd with list := k, prev := none, next := (r.list k).mostRecent }) (by rw [nodes_setList]; exact hi)
  obtain ⟨ns₂, hns₂, hlen₂, hget₂⟩ :=
    modifyAt_eq (r := { r.setList k head with nodes := ns₁ }) (o := (r.list k).mostRecent)
    (fun h => { h with prev := some i }) fun j hj => by
      simp only [hlen₁, nodes_setList]
      rw [(h k).first] at hj
      exact h.lt (List.mem_of_head? hj)
  have hget : ∀ j, ns₂[j]? = (r.nodes[j]?).map (splice k i none (L k).head? j) := by
    intro j
    rw [hget₂, hget₁, nodes_setList, Option.map_map]
    refine congrFun (congrArg Option.map (funext fun nd => ?_)) _
    have hne : (L k).head? = some j → i ≠ j := fun hj he => hout k (he ▸ List.mem_of_head? hj)
    simp only [Function.comp_apply, splice, (h k).first, reduceCtorEq, if_false]
    by_cases hj : (L k).head? = some j
    · rw [if_pos hj, if_neg (hne hj), if_neg (hne hj), if_pos hj]
    · rw [if_neg hj, if_neg hj]
  refine ⟨{ r.setList k head with nodes := ns₂ }, ?_,
    h.insert (show L k = [] ++ L k from rfl) hi hout hget rfl ?_ ?_, .of_splice ?_ hget,
    @Untouched.of_splice r L k i [] (L k) ns₂ head hget⟩
  · simp only [push, Option.bind_eq_bind]
    rw [show (r.setList k _).modifyNode i _ = _ from hns₁, Option.bind_some, hns₂]
  · show (if (r.list k).mostRecent = none then some i else (r.list k).leastRecent) = _
    rw [(h k).first, (h k).last]
    cases hL : L k with
    | nil => simp
    | cons a xs => simp [List.getLast?_cons]
  · show (r.list k).length + 1 = _
    rw [(h k).length]
    rfl
  · rw [hlen₂, hlen₁, nodes_setList]

theorem insertAfter_eq (h : r.Spells L) (hL : L k = as ++ bs) (hi : i < r.nodes.length) (hout : ∀ k', i ∉ L k') :
    ∃ r', r.insertAfter i k as.getLast? = some r' ∧ r'.Spells (Function.update L k (as ++ i :: bs)) ∧
    r.SameData r' ∧
      r.Untouched (Function.update L k (as ++ i :: bs)) r' := by
  rcases List.eq_nil_or_concat as with rfl | ⟨as, a, rfl⟩
  · obtain ⟨r', hr', hs, hd, hu⟩ := push_eq (k := k) h hi hout
    rw [hL] at hs hu
    exact ⟨r', hr', hs, hd, hu⟩
  rw [List.concat_eq_append] at hL ⊢
  have hL' : L k = as ++ a :: bs := by rw [hL, List.append_assoc]; rfl
  obtain ⟨nda, hnda, -, -, hnext⟩ := h.node hL'
  have ha : a < r.nodes.length := (List.getElem?_eq_some_iff.mp hnda).1
  obtain ⟨ns₁, hns₁, hlen₁, hget₁⟩ := modifyNode_eq (r := r) (fun nd => { nd with next := some i }) ha
  obtain ⟨ns₂, hns₂, hlen₂, hget₂⟩ := modifyNode_eq (r := { r with nodes := ns₁ }) (i := i)
    (fun nd => { nd with list := k, prev := some a, next := bs.head? }) (by simp only [hlen₁]; exact hi)
  obtain ⟨ns₃, hns₃, hlen₃, hget₃⟩ :=
    modifyAt_eq (r := { r with nodes := ns₂ }) (o := bs.head?) (fun nd => { nd with prev := some i }) fun j hj => by
    simp only [hlen₂, hlen₁]
    exact h.lt (k := k) (by rw [hL]; exact List.mem_append_right _ (List.mem_of_head? hj))
  have hlast : (as ++ [a]).getLast? = some a := by simp
  have hia : i ≠ a := fun he => hout k (by rw [hL', he]; simp)
  have hget : ∀ j, ns₃[j]? = (r.nodes[j]?).map (splice k i (as ++ [a]).getLast? bs.head? j) := by
    intro j
    rw [hget₃, hget₂, hget₁, Option.map_map, Option.map_map]
    refine congrFun (congrArg Option.map (funext fun nd => ?_)) _
    have hne : bs.head? = some j → i ≠ j ∧ a ≠ j := fun hj =>
      ⟨fun he => hout k (by rw [hL, he]; exact List.mem_append_right _ (List.mem_of_head? hj)), fun he => by
        have hnd := (h k).distinct
        rw [hL', List.nodup_middle] at hnd
        exact (List.nodup_cons.mp hnd).1 (he ▸ List.mem_append_right _ (List.mem_of_head? hj))⟩
    simp only [Function.comp_apply, splice, hlast, Option.some.injEq]
    by_cases hj : bs.head? = some j
    · rw [if_pos hj, if_neg (hne hj).1, if_neg (hne hj).2, if_neg (hne hj).1, if_neg (hne hj).2, if_pos hj]
    · rw [if_neg hj]
      by_cases hij : i = j
      · subst hij
        rw [if_pos rfl, if_pos rfl, if_neg (Ne.symm hia)]
      · rw [if_neg hij, if_neg hij]
        simp [hj]
  have hlen : (r.list k).length + 1 = (as ++ [a] ++ i :: bs).length := by
    rw [(h k).length, hL]
    simp only [List.length_append, List.length_cons, List.length_nil]
    omega
  let head : ListHead :=
    ⟨(r.list k).mostRecent, if bs.head? = none then some i else (r.list k).leastRecent, (r.list k).length + 1⟩
  refine ⟨{ r.setList k head with nodes := ns₃ }, ?_, h.insert hL hi hout hget ?_ ?_ hlen, .of_splice ?_ hget,
    .of_splice hget⟩
  · rw [hlast]
    simp only [insertAfter, hnda, Option.bind_eq_bind, Option.bind_some, hns₁, hns₂, hnext]
    cases hb : bs.head? with
    | none =>
      have hns : ns₃ = ns₂ := by
        rw [hb] at hns₃
        exact (congrArg ArcReplacer.nodes (Option.some.inj hns₃)).symm
      simp only [Option.pure_def, Option.bind_some, list_setList_self, setList_setList, list_nodes, setList_nodes,
        head, hb, hns, if_true]
    | some b =>
      rw [hb] at hns₃
      simp only [Option.pure_def]
      rw [show ({ r with nodes := ns₂ } : ArcReplacer).modifyNode b _ = _ from hns₃]
      simp only [Option.bind_some, list_nodes, setList_nodes, head, hb, reduceCtorEq, if_false]
  · show (r.list k).mostRecent = _
    rw [(h k).first, hL]
    simp [List.head?_append]
  · show (if bs.head? = none then some i else (r.list k).leastRecent) = _
    rw [(h k).last, hL]
    cases bs with
    | nil => simp
    | cons b bs => simp [List.getLast?_append, List.getLast?_cons]
  · rw [hlen₃, hlen₂, hlen₁]

/-! ## From list to list -/

/-- Node `i` goes from one list to another; either may be missing. -/
structure Moves (L L' : ArcList → List Nat) (i : Nat) (source target : Option ArcList) : Prop where
  others : ∀ j, j ≠ i → ∀ k, j ∈ L' k ↔ j ∈ L k
  self : ∀ k, i ∈ L' k ↔ target = some k
  length : ∀ k, (L' k).length + (if source = some k then 1 else 0) =
    (L k).length + (if target = some k then 1 else 0)

theorem Moves.trans {L₁ L₂ L₃ : ArcList → List Nat} {source target : Option ArcList} (h : Moves L₁ L₂ i source none)
    (h' : Moves L₂ L₃ i none target) :
    Moves L₁ L₃ i source target := by
  refine ⟨fun j hj k => (h'.others j hj k).trans (h.others j hj k), h'.self, fun k => ?_⟩
  have hl := h.length k
  have hl' := h'.length k
  simp only [reduceCtorEq, if_false] at hl hl'
  omega

theorem Spells.detached (h : r.Spells L) (hL : L k = as ++ i :: bs) :
    Moves L (Function.update L k (as ++ bs)) i (some k) none := by
  have hnd := (h k).distinct
  rw [hL, List.nodup_middle, List.nodup_cons] at hnd
  refine ⟨fun j hj k' => ?_, fun k' => ?_, fun k' => ?_⟩
  · by_cases hk : k' = k
    · subst hk
      rw [Function.update_self, hL]
      simp [hj]
    · rw [Function.update_of_ne hk]
  · simp only [reduceCtorEq, iff_false]
    intro hin
    by_cases hk : k' = k
    · subst hk
      rw [Function.update_self] at hin
      exact hnd.1 hin
    · rw [Function.update_of_ne hk] at hin
      exact hk (h.disjoint hin (hL ▸ by simp : i ∈ L k))
  · by_cases hk : k' = k
    · subst hk
      rw [Function.update_self, hL]
      simp [Nat.add_assoc]
    · rw [Function.update_of_ne hk]
      simp [Ne.symm hk]

theorem inserted (hL : L k = as ++ bs) (hout : ∀ k', i ∉ L k') :
    Moves L (Function.update L k (as ++ i :: bs)) i none (some k) := by
  refine ⟨fun j hj k' => ?_, fun k' => ?_, fun k' => ?_⟩
  · by_cases hk : k' = k
    · subst hk
      rw [Function.update_self, hL]
      simp [hj]
    · rw [Function.update_of_ne hk]
  · by_cases hk : k' = k
    · subst hk
      simp
    · rw [Function.update_of_ne hk]
      simp [hout k', Ne.symm hk]
  · by_cases hk : k' = k
    · subst hk
      rw [Function.update_self, hL]
      simp [Nat.add_assoc]
    · rw [Function.update_of_ne hk]
      simp [Ne.symm hk]

theorem detach_moves (h : r.Spells L) (hL : L k = as ++ i :: bs) :
    ∃ r' L', r.detach i = some r' ∧ r'.Spells L' ∧ r.SameData r' ∧ Moves L L' i (some k) none ∧ L' k = as ++ bs ∧
    ∀ k', k' ≠ k → L' k' = L k' := by
  obtain ⟨r', hr', hs, hd, -⟩ := detach_eq h hL
  exact ⟨r', _, hr', hs, hd, h.detached hL, Function.update_self .., fun k' hk => Function.update_of_ne hk ..⟩

theorem push_moves (h : r.Spells L) (hi : i < r.nodes.length) (hout : ∀ k', i ∉ L k') (k : ArcList) :
    ∃ r' L', r.push i k = some r' ∧ r'.Spells L' ∧ r.SameData r' ∧ Moves L L' i none (some k) ∧ ∀ k', k' ≠ k →
    L' k' = L k' := by
  obtain ⟨r', hr', hs, hd, -⟩ := push_eq (k := k) h hi hout
  exact ⟨r', _, hr', hs, hd, inserted (show L k = [] ++ L k from rfl) hout,
    fun k' hk => Function.update_of_ne hk ..⟩

def fronted (L : ArcList → List Nat) (k : ArcList) (as bs : List Nat) (i : Nat) (k' : ArcList) :
    ArcList → List Nat :=
  Function.update (Function.update L k (as ++ bs)) k' (i :: Function.update L k (as ++ bs) k')

theorem moveToFront_eq (h : r.Spells L) (hL : L k = as ++ i :: bs) (k' : ArcList) :
    ∃ r', r.moveToFront i k' = some r' ∧ r'.Spells (fronted L k as bs i k') ∧ r.SameData r' ∧
      Moves L (fronted L k as bs i k') i (some k) (some k') ∧ r.Untouched L r' := by
  obtain ⟨r₁, hr₁, hs₁, hd₁, hu₁⟩ := detach_eq h hL
  have hm₁ := h.detached hL
  have hout : ∀ k'', i ∉ Function.update L k (as ++ bs) k'' := fun k'' hin => by cases (hm₁.self k'').mp hin
  obtain ⟨r₂, hr₂, hs₂, hd₂, hu₂⟩ :=
    push_eq (k := k') hs₁ (by rw [hd₁.count]; exact h.lt (hL ▸ by simp : i ∈ L k)) hout
  have hm₂ :=
    inserted (show Function.update L k (as ++ bs) k' = [] ++ Function.update L k (as ++ bs) k' from rfl) hout
  refine ⟨r₂, by rw [moveToFront, hr₁]; exact hr₂, hs₂, hd₁.trans hd₂, hm₁.trans hm₂, fun j hj => ?_⟩
  refine (hu₂ j fun k'' hin => ?_).trans (hu₁ j hj)
  have hji : j ≠ i := by
    rintro rfl
    exact hj k (hL ▸ by simp)
  exact hj k'' ((hm₁.others j hji k'').mp ((hm₂.others j hji k'').mp hin))

theorem moveToFront_moves (h : r.Spells L) (hL : L k = as ++ i :: bs) (k' : ArcList) :
    ∃ r' L', r.moveToFront i k' = some r' ∧ r'.Spells L' ∧ r.SameData r' ∧ Moves L L' i (some k) (some k') := by
  obtain ⟨r', hr', hs, hd, hm, -⟩ := moveToFront_eq h hL k'
  exact ⟨r', _, hr', hs, hd, hm⟩

end ArcReplacer

end Cmudb
