import Cmudb.ReplacerSteps

/-!
# Evictions

An eviction takes the least recently used page that may go, from the preferred
list if there is one on it. It changes the node of that page alone, and an
eviction that is dropped changes nothing at all.
-/

namespace Cmudb

open Lib

namespace ArcReplacer

def lastEvictable (r : ArcReplacer) (xs : List Nat) : Option Nat :=
  xs.reverse.find? fun i => (r.nodes[i]?).any ArcNode.evictable

def evictionOrder (r : ArcReplacer) (L : ArcList → List Nat) : ResidentList × ResidentList :=
  if (L .mru).length ≥ r.mruTargetSize then (.mru, .mfu) else (.mfu, .mru)

section

variable {frames : Frames} {r r' : ArcReplacer} {L : ArcList → List Nat} {i : Nat} {k : ArcList} {xs : List Nat}
  {nd : ArcNode} {undo : EvictionUndo}

theorem lastEvictable_concat (xs : List Nat) (hnd : r.nodes[i]? = some nd) :
    r.lastEvictable (xs ++ [i]) = if nd.evictable then some i else r.lastEvictable xs := by
  unfold lastEvictable
  rw [List.reverse_append, List.reverse_singleton, List.singleton_append, List.find?_cons, hnd]
  cases hev : nd.evictable <;> simp [hev]

theorem lastEvictable_some (h : r.lastEvictable xs = some i) :
    i ∈ xs ∧ ∃ nd, r.nodes[i]? = some nd ∧ nd.evictable = true := by
  have hev := List.find?_some h
  simp only [Option.any_eq_true] at hev
  exact ⟨List.mem_reverse.mp (List.mem_of_find?_eq_some h), hev⟩

theorem lastEvictable_none (h : r.lastEvictable xs = none) (hi : i ∈ xs) (hnd : r.nodes[i]? = some nd) :
    nd.evictable = false := by
  have hno := List.find?_eq_none.mp h i (List.mem_reverse.mpr hi)
  simpa [hnd] using hno

theorem firstEvictable_eq (h : r.Spells L) :
    ∀ (fuel : Nat) (as : List Nat) (x : Nat) (bs : List Nat), L k = as ++ x :: bs → as.length < fuel →
    r.firstEvictable fuel x = some (r.lastEvictable (as ++ [x]))
  | 0, _, _, _, _, hlt => absurd hlt (Nat.not_lt_zero _)
  | fuel + 1, as, x, bs, hL, hlt => by
    obtain ⟨nd, hnd, -, hprev, -⟩ := h.node hL
    rw [lastEvictable_concat as hnd]
    simp only [firstEvictable, hnd, Option.bind_eq_bind, Option.bind_some]
    by_cases hev : nd.evictable = true
    · rw [if_pos hev, if_pos hev]
      rfl
    · rw [if_neg hev, if_neg hev, hprev]
      rcases List.eq_nil_or_concat as with rfl | ⟨as, a, rfl⟩
      · rfl
      · rw [List.concat_eq_append] at hL hlt ⊢
        rw [List.length_append, List.length_singleton] at hlt
        rw [List.getLast?_append]
        exact firstEvictable_eq h fuel as a (x :: bs) (by rw [hL, List.append_assoc]; rfl) (by omega)

structure Evicts (frames : Frames) (r r' : ArcReplacer) (L : ArcList → List Nat) (undo : EvictionUndo) : Prop where
  frame : r.frameIndices undo.frameId = some undo.nodeIdx
  victim : r.lastEvictable (L undo.list.list) = some undo.nodeIdx
  gives : ∃ as bs, L undo.list.list = as ++ undo.nodeIdx :: bs ∧ undo.moreRecent = as.getLast? ∧
    GivesUp frames r r' L (fronted L undo.list.list as bs undo.nodeIdx undo.list.ghost.list) undo.nodeIdx
      undo.frameId undo.list.list

theorem evictFromList_eq (h : Inv frames r L) (resident : ResidentList) :
    ∃ o, r.evictFromList resident = some o ∧
    (∀ r' undo, o = some (r', undo) → Evicts frames r r' L undo ∧ undo.list = resident) ∧
      (o = none → r.lastEvictable (L resident.list) = none) := by
  have hres : resident.list.isResident = true := by cases resident <;> rfl
  have hghost : ghostOf resident.list = resident.ghost.list := by cases resident <;> rfl
  unfold evictFromList
  rw [(h.lists resident.list).last]
  rcases List.eq_nil_or_concat (L resident.list) with hnil | ⟨as, last, hL⟩
  · rw [hnil]
    exact ⟨none, rfl, (by simp), fun _ => rfl⟩
  rw [List.concat_eq_append] at hL
  have hlen : as.length < r.nodes.length := by
    have hsub : L resident.list ⊆ List.range r.nodes.length := fun i hi => List.mem_range.mpr (h.lists.lt hi)
    have := (List.subperm_of_subset (h.lists resident.list).distinct hsub).length_le
    rw [List.length_range, hL, List.length_append, List.length_singleton] at this
    omega
  have hwalk := firstEvictable_eq h.lists r.nodes.length as last [] hL hlen
  rw [← hL] at hwalk
  have hlast : (L resident.list).getLast? = some last := by rw [hL, List.getLast?_append]; rfl
  simp only [hlast, Option.bind_eq_bind, hwalk, Option.bind_some]
  cases ho : r.lastEvictable (L resident.list) with
  | none => exact ⟨none, rfl, (by simp), fun _ => rfl⟩
  | some current =>
    obtain ⟨hcur, nd, hnd, hev⟩ := lastEvictable_some ho
    have hd := data_of_node hnd
    obtain ⟨frameId, hframe⟩ : ∃ f, nd.frameId = some f := by
      have := (h.filed current).resident _ _ _ _ hcur hd
      rw [hres] at this
      exact Option.isSome_iff_exists.mp this
    rw [hframe] at hd
    have hidx : r.frameIndices frameId = some current :=
      ((h.filed current).frames frameId).mpr ⟨⟨_, hcur⟩, _, _, hd⟩
    obtain ⟨r', L', k, as', bs', hr', hk, hLk, hL', hg⟩ := giveUpFrame_eq h hidx
    have hkk : k = resident.list := h.lists.disjoint (by rw [hLk]; simp) hcur
    subst hkk hL'
    obtain ⟨nd', hnd', -, hprev, -⟩ := h.lists.node hLk
    rw [hnd, Option.some.injEq] at hnd'
    subst hnd'
    simp only [hnd, Option.bind_some, hframe, hr']
    refine ⟨_, rfl, fun r₁ undo hundo => ?_, (by simp)⟩
    cases hundo
    exact ⟨⟨hidx, ho, as', bs', hLk, hprev, hghost ▸ hg⟩, rfl⟩

def evictEither (r : ArcReplacer) (first second : ResidentList) : Option (Option (ArcReplacer × EvictionUndo)) := do
  match ← r.evictFromList first with
  | some x => pure (some x)
  | none => r.evictFromList second

theorem beginEviction_either (h : r.Spells L) :
    r.beginEviction = evictEither r (r.evictionOrder L).1 (r.evictionOrder L).2 := by
  unfold beginEviction evictionOrder
  rw [show r.mruList.length = _ from (h .mru).length]
  by_cases hlong : (L .mru).length ≥ r.mruTargetSize
  · simp only [if_pos hlong]
    rfl
  · simp only [if_neg hlong]
    rfl

/-- The victim is on the preferred list, or on the other one where that has none. -/
theorem beginEviction_eq (h : Inv frames r L) :
    ∃ o, r.beginEviction = some o ∧
      (∀ r' undo, o = some (r', undo) → Evicts frames r r' L undo ∧
        (undo.list = (r.evictionOrder L).1 ∨ r.lastEvictable (L (r.evictionOrder L).1.list) = none ∧
          undo.list = (r.evictionOrder L).2)) ∧
      (o = none → ∀ resident : ResidentList, r.lastEvictable (L resident.list) = none) := by
  rw [beginEviction_either h.lists]
  have hcover : ∀ x : ResidentList, x = (r.evictionOrder L).1 ∨ x = (r.evictionOrder L).2 := by
    intro x
    unfold evictionOrder
    split <;> cases x <;> simp
  generalize (r.evictionOrder L).1 = first at hcover ⊢
  generalize (r.evictionOrder L).2 = second at hcover ⊢
  obtain ⟨o₁, ho₁, he₁, hn₁⟩ := evictFromList_eq h first
  simp only [evictEither, ho₁, Option.bind_eq_bind, Option.bind_some]
  cases o₁ with
  | some x =>
    refine ⟨_, rfl, fun r' undo hx => ?_, (by simp)⟩
    obtain ⟨he, hlist⟩ := he₁ r' undo hx
    exact ⟨he, .inl hlist⟩
  | none =>
    obtain ⟨o₂, ho₂, he₂, hn₂⟩ := evictFromList_eq h second
    refine ⟨o₂, ho₂, fun r' undo hx => ?_, fun hnone x => ?_⟩
    · obtain ⟨he, hlist⟩ := he₂ r' undo hx
      exact ⟨he, .inr ⟨hn₁ rfl, hlist⟩⟩
    · rcases hcover x with rfl | rfl
      · exact hn₁ rfl
      · exact hn₂ hnone

theorem Inv.none_evictable (h : Inv frames r L)
    (hall : ∀ resident : ResidentList, r.lastEvictable (L resident.list) = none) : r.evictableCount = 0 := by
  rw [h.count, List.countP_eq_zero]
  intro nd hmem hev
  obtain ⟨i, hi⟩ := List.getElem?_of_mem hmem
  have hd := data_of_node hi
  rw [hev] at hd
  obtain ⟨k, hk, hres⟩ := (h.filed i).evictable _ _ hd
  cases k with
  | mru => rw [lastEvictable_none (hall .mru) hk hi] at hev; cases hev
  | mfu => rw [lastEvictable_none (hall .mfu) hk hi] at hev; cases hev
  | ghostMru => cases hres
  | ghostMfu => cases hres

theorem Evicts.evictable (h : Inv frames r L) (he : Evicts frames r r' L undo) :
    r'.evictableCount + 1 = r.evictableCount := by
  obtain ⟨as, bs, -, -, hg⟩ := he.gives
  obtain ⟨_, -, -, hedit⟩ := hg.edits
  obtain ⟨-, nd, hnd, hev⟩ := lastEvictable_some he.victim
  have hchange := countP_change r r' undo.nodeIdx hedit.others (data_of_node hnd) hedit.data
  rw [hev] at hchange
  simp only [Bool.toNat_true, Bool.toNat_false] at hchange
  rw [hg.inv.count, h.count]
  exact hchange

/-! ## An eviction that is dropped -/

theorem Spells.ext (h : r.Spells L) (h' : r'.Spells L) (hd : r.SameData r') (hu : r.Untouched L r') : r' = r := by
  have hnodes : r'.nodes = r.nodes := by
    refine List.ext_getElem? fun j => ?_
    by_cases hj : ∀ k, j ∉ L k
    · exact hu j hj
    · obtain ⟨k, hk⟩ := not_forall.mp hj
      obtain ⟨as, bs, hL⟩ := List.append_of_mem (not_not.mp hk)
      obtain ⟨nd, hnd, hlist, hprev, hnext⟩ := h.node hL
      obtain ⟨nd', hnd', hlist', hprev', hnext'⟩ := h'.node hL
      have hdata := hd.data j
      rw [data_of_node hnd, data_of_node hnd', Option.some.injEq, Prod.mk.injEq, Prod.mk.injEq] at hdata
      rw [hnd, hnd', Option.some.injEq]
      cases nd
      cases nd'
      simp_all
  have hlist : ∀ k, r'.list k = r.list k := by
    intro k
    have h₁ := (h' k).first.trans (h k).first.symm
    have h₂ := (h' k).last.trans (h k).last.symm
    have h₃ := (h' k).length.trans (h k).length.symm
    cases hk' : r'.list k
    cases hk : r.list k
    rw [hk, hk'] at h₁ h₂ h₃
    exact ListHead.mk.injEq .. ▸ ⟨h₁, h₂, h₃⟩
  have h₁ := hlist .mru
  have h₂ := hlist .mfu
  have h₃ := hlist .ghostMru
  have h₄ := hlist .ghostMfu
  obtain ⟨-, -, hunused, hpages, hframes, htarget, hcapacity, hcount⟩ := hd
  cases r
  cases r'
  rw [ArcReplacer.mk.injEq]
  exact ⟨hnodes, hunused, hpages, hframes, h₁, h₂, h₃, h₄, htarget, hcapacity, hcount⟩

/-- Taking a node from the front of `k'` back to its place on `k` gives the lists as they were. -/
theorem unfronted {k' : ArcList} {as bs : List Nat} (hL : L k = as ++ i :: bs) (hne : k ≠ k') :
    Function.update (Function.update (fronted L k as bs i k') k' (L k')) k (as ++ i :: bs) = L := by
  funext k''
  by_cases hk : k'' = k
  · subst hk
    rw [Function.update_self, hL]
  · rw [Function.update_of_ne hk]
    by_cases hk' : k'' = k'
    · subst hk'
      rw [Function.update_self]
    · rw [Function.update_of_ne hk', fronted, Function.update_of_ne hk', Function.update_of_ne hk]

theorem undoEviction_eq (h : Inv frames r L) (he : Evicts frames r r' L undo) : r'.undoEviction undo = some r := by
  obtain ⟨as, bs, hL, hmore, hg⟩ := he.gives
  obtain ⟨nd, hnd, hidx, hedit⟩ := hg.edits
  have hev : nd.evictable = true := by
    obtain ⟨-, nd', hnd', hev⟩ := lastEvictable_some he.victim
    rw [hnd, Option.some.injEq] at hnd'
    exact hnd' ▸ hev
  have hne : undo.list.list ≠ undo.list.ghost.list := by
    cases undo.list <;> simp [ResidentList.list, ResidentList.ghost, GhostList.list]
  have hevicted := he.evictable h
  have hframe := he.frame
  obtain ⟨i, f, resident, moreRecent⟩ := undo
  simp only at hL hmore hg hedit hnd hidx hne hframe
  -- the node comes off the front of the ghost list
  let L' := fronted L resident.list as bs i resident.ghost.list
  have hghost : L' resident.ghost.list = [] ++ i :: L resident.ghost.list := by
    simp only [L', fronted]
    rw [Function.update_self, Function.update_of_ne (Ne.symm hne)]
    rfl
  obtain ⟨r₁, hr₁, hs₁, hd₁, hu₁⟩ := detach_eq hg.inv.lists hghost
  have hm₁ := hg.inv.lists.detached hghost
  rw [List.nil_append] at hs₁ hm₁
  let L₁ := Function.update L' resident.ghost.list (L resident.ghost.list)
  have hL₁ : L₁ resident.list = as ++ bs := by
    simp only [L₁, L', fronted]
    rw [Function.update_of_ne hne, Function.update_of_ne hne, Function.update_self]
  have hout : ∀ k, i ∉ L₁ k := fun k hin => by cases (hm₁.self k).mp hin
  have hlt : i < r₁.nodes.length := by
    rw [hd₁.count, hedit.count]
    exact (List.getElem?_eq_some_iff.mp hnd).1
  -- and goes back to its place
  obtain ⟨r₂, hr₂, hs₂, hd₂, hu₂⟩ := insertAfter_eq hs₁ hL₁ hlt hout
  rw [unfronted hL hne] at hs₂ hu₂
  have hd := hd₁.trans hd₂
  have hlt₂ : i < r₂.nodes.length := by
    rw [hd₂.count]
    exact hlt
  obtain ⟨ns, hns, hlen, hself, hother, hs₃⟩ :=
    setData_eq hs₂ hlt₂ (fun nd => { nd with frameId := some f, evictable := true })
    fun _ => ⟨rfl, rfl, rfl⟩
  let r₃ : ArcReplacer := { r₂ with
    nodes := ns
    frameIndices := Function.update r₂.frameIndices f (some i)
    evictableCount := r₂.evictableCount + 1 }
  have hsame : r.SameData r₃ := by
    refine ⟨?_, fun j => ?_, ?_, hd.pages.trans hg.pages, ?_, hd.target.trans hg.target,
      hd.capacity.trans hedit.capacity, ?_⟩
    · exact hlen.trans (hd.count.trans hedit.count)
    · by_cases hj : j = i
      · subst hj
        obtain ⟨nd₂, hnd₂⟩ : ∃ nd₂, r₂.nodes[j]? = some nd₂ := ⟨_, List.getElem?_eq_getElem hlt₂⟩
        have hdata := (hd.data j).trans hedit.data
        rw [data_of_node hnd₂, Option.some.injEq, Prod.mk.injEq] at hdata
        rw [data_of_node hnd, hidx, hev]
        refine (congrArg (Option.map _) (hself nd₂ hnd₂)).trans ?_
        rw [← hdata.1]
        rfl
      · refine (congrArg (Option.map _) (hother j hj)).trans ((hd.data j).trans (hedit.others j hj))
    · exact hd.unused.trans hedit.unused
    · funext f'
      show Function.update r₂.frameIndices f (some i) f' = _
      rw [hd.frames, hg.frames]
      by_cases hf : f' = f
      · subst hf
        rw [Function.update_self, hframe]
      · rw [Function.update_of_ne hf, Function.update_of_ne hf]
    · show r₂.evictableCount + 1 = _
      rw [hd.evictable]
      exact hevicted
  have huntouched : r.Untouched L r₃ := by
    intro j hj
    have hji : j ≠ i := by
      rintro rfl
      exact hj resident.list (hL ▸ by simp)
    refine (hother j hji).trans ((hu₂ j hj).trans ((hu₁ j fun k hin => ?_).trans (hg.untouched j hj)))
    exact hj k ((hg.moves.others j hji k).mp hin)
  have heq : r₃ = r := h.lists.ext (fun k => (hs₃ k).congr (by cases k <;> rfl) fun _ _ => rfl) hsame huntouched
  rw [← heq]
  simp only [undoEviction, hr₁, Option.bind_eq_bind, Option.bind_some, hmore, hr₂, hns]
  rfl

theorem evict_eq (h : Inv frames r L) :
    ∃ r' L' o, r.evict = some (r', o) ∧ Inv frames r' L' ∧ (o = none ↔ r.evictableCount = 0) := by
  obtain ⟨o, ho, he, hnone⟩ := beginEviction_eq h
  unfold evict
  simp only [ho, Option.bind_eq_bind, Option.bind_some]
  cases o with
  | none => exact ⟨r, L, none, rfl, h, iff_of_true rfl (h.none_evictable (hnone rfl))⟩
  | some x =>
    obtain ⟨r', undo⟩ := x
    obtain ⟨he, -⟩ := he r' undo rfl
    have hcount := he.evictable h
    obtain ⟨as, bs, -, -, hg⟩ := he.gives
    exact ⟨r', _, some undo.frameId, rfl, hg.inv, iff_of_false (by simp) (by omega)⟩

theorem tryEvict_eq (h : Inv frames r L) : ∃ o, r.tryEvict = some (r, o) := by
  obtain ⟨o, ho, he, -⟩ := beginEviction_eq h
  unfold tryEvict
  simp only [ho, Option.bind_eq_bind, Option.bind_some]
  cases o with
  | none => exact ⟨none, rfl⟩
  | some x =>
    obtain ⟨r', undo⟩ := x
    simp only [undoEviction_eq h (he r' undo rfl).1, Option.bind_some]
    exact ⟨_, rfl⟩

end

end ArcReplacer

end Cmudb
