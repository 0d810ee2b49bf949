import Cmudb.ReplacerInv

/-!
# The steps of the replacer

Each step changes one node: what it stands for, where it is filed, and the
list it is on.
-/

namespace Cmudb

open Lib

namespace ArcReplacer

/-- Only node `i` stands for something else, and no node is new or unused that was not. -/
structure Edits (r r' : ArcReplacer) (i : Nat) (x : PageId × Option FrameId × Bool) : Prop where
  count : r'.nodes.length = r.nodes.length
  data : r'.data i = some x
  others : ∀ j, j ≠ i → r'.data j = r.data j
  unused : r'.unusedNodeIndices = r.unusedNodeIndices
  capacity : r'.capacity = r.capacity

def ghostOf : ArcList → ArcList
  | .mru => .ghostMru
  | .mfu => .ghostMfu
  | k => k

section

variable {frames : Frames} {r r' r'' : ArcReplacer} {L L' : ArcList → List Nat} {i j : Nat} {f : FrameId}
  {p : PageId} {k k' : ArcList} {as bs : List Nat} {fo : Option FrameId} {b : Bool}
  {x : PageId × Option FrameId × Bool} {nd : ArcNode}

theorem Edits.same (h : Edits r r' i x) (h' : r'.SameData r'') : Edits r r'' i x :=
  ⟨h'.count.trans h.count, (h'.data i).trans h.data, fun j hj => (h'.data j).trans (h.others j hj),
    h'.unused.trans h.unused, h'.capacity.trans h.capacity⟩

theorem Moves.size {source target : Option ArcList} (h : Moves L L' i source target) :
    size L' + source.isSome.toNat = size L + target.isSome.toNat := by
  have h₁ := h.length .mru
  have h₂ := h.length .mfu
  have h₃ := h.length .ghostMru
  have h₄ := h.length .ghostMfu
  unfold ArcReplacer.size
  rcases source with _ | source <;> rcases target with _ | target
  all_goals try cases source
  all_goals try cases target
  all_goals simp at h₁ h₂ h₃ h₄ ⊢; omega

theorem Inv.edit (h : Inv frames r L) (hi : i ∈ L k) (he : Edits r r' i (p, fo, b)) (hs : r'.Spells L')
    (hm : Moves L L' i (some k) (some k')) (hcount : r'.evictableCount = r'.nodes.countP ArcNode.evictable)
    (hpages : r'.pageIndices = r.pageIndices) (hp : ∃ f b, r.data i = some (p, f, b))
    (hframes : ∀ f j, r'.frameIndices f = some j ↔ if j = i then fo = some f else r.frameIndices f = some j)
    (hres : fo.isSome = k'.isResident) (hev : b = true → k'.isResident = true)
    (hallowed : ∀ f, fo = some f → f ∈ frames) (hroom : (L' .mru).length + (L' .mfu).length ≤ r.capacity)
    (hside : (L' .mru).length + (L' .ghostMru).length ≤ r.capacity) (htarget : r'.mruTargetSize ≤ r.capacity) :
    Inv frames r' L' := by
  have hsize := hm.size
  simp only [Option.isSome_some, Bool.toNat_true] at hsize
  refine ⟨hs, fun j => ?_, hcount, he.unused ▸ h.unused, fun f j hf => ?_, h.capacity.trans he.capacity.symm,
    he.capacity ▸ hroom, he.capacity ▸ hside, ?_,
    he.capacity ▸ htarget, ?_⟩
  · by_cases hj : j = i
    · subst hj
      have hin : Tracked L' j := ⟨k', (hm.self k').mpr rfl⟩
      refine ⟨fun q => ?_, fun f => ?_, fun k₁ q fo' b' hk hd => ?_, fun q fo' hd => ?_, ?_, fun hu => ?_⟩
      · rw [hpages, (h.filed j).pages, he.data]
        obtain ⟨f₀, b₀, hd₀⟩ := hp
        simp only [hd₀, Option.some.injEq, Prod.mk.injEq]
        constructor
        · rintro ⟨-, _, _, rfl, -⟩
          exact ⟨hin, fo, b, rfl, rfl, rfl⟩
        · rintro ⟨-, _, _, rfl, -⟩
          exact ⟨⟨k, hi⟩, f₀, b₀, rfl, rfl, rfl⟩
      · rw [hframes, if_pos rfl, he.data]
        simp only [Option.some.injEq, Prod.mk.injEq]
        constructor
        · rintro rfl
          exact ⟨hin, p, b, rfl, rfl, rfl⟩
        · rintro ⟨-, _, _, -, rfl, -⟩
          rfl
      · rw [he.data, Option.some.injEq] at hd
        cases hd
        cases (hm.self k₁).mp hk
        exact hres
      · rw [he.data, Option.some.injEq] at hd
        cases hd
        exact ⟨k', (hm.self k').mpr rfl, hev rfl⟩
      · exact iff_of_true (by rw [he.count]; exact h.lt ⟨k, hi⟩) (.inr hin)
      · exact absurd ⟨k, hi⟩ ((h.filed j).apart (he.unused ▸ hu))
    · refine KeepsAt.filed ⟨hm.others j hj, he.others j hj, fun q => by rw [hpages],
        fun f => ?_, by rw [he.unused], by rw [he.count]⟩ (h.filed j)
      rw [hframes, if_neg hj]
  · rw [hframes] at hf
    split at hf
    · exact hallowed f hf
    · exact h.allowed f j hf
  · rw [he.capacity]
    have := h.size
    omega
  · rw [he.count, he.capacity]
    exact h.store

theorem clearEvictable_eq (h : r.Spells L) (hnd : r.nodes[i]? = some nd) (nd₀ : ArcNode)
    (hev : nd₀.evictable = nd.evictable) (hcount : r.evictableCount = r.nodes.countP ArcNode.evictable) :
    ∃ ns n, r.clearEvictable i nd₀ = some { r with nodes := ns, evictableCount := n } ∧ ns.length = r.nodes.length ∧
      ns[i]? = some { nd with evictable := false } ∧ (∀ j, j ≠ i → ns[j]? = r.nodes[j]?) ∧
      ({ r with nodes := ns, evictableCount := n } : ArcReplacer).Spells L ∧ n = ns.countP ArcNode.evictable := by
  obtain ⟨ns, hns, hlen, hself, hother, hs⟩ :=
    setData_eq h (List.getElem?_eq_some_iff.mp hnd).1 (fun nd => { nd with evictable := false })
    fun _ => ⟨rfl, rfl, rfl⟩
  have hget := hself nd hnd
  have hchange :=
    countP_change r { r with nodes := ns } i (fun j hj => by rw [data, data]; simp only; rw [hother j hj])
    (data_of_node hnd) (data_of_node hget)
  simp only [Bool.toNat_false, Nat.add_zero] at hchange
  refine ⟨ns, ns.countP ArcNode.evictable, ?_, hlen, hget, hother, fun k => (hs k).congr rfl fun _ _ => rfl, rfl⟩
  unfold clearEvictable
  rw [hns]
  simp only [Option.bind_eq_bind, Option.bind_some, hev]
  cases hb : nd.evictable with
  | false =>
    rw [hb] at hchange
    simp only [Bool.toNat_false, Nat.add_zero] at hchange
    simp [hchange, hcount]
  | true =>
    rw [hb] at hchange
    simp only [Bool.toNat_true] at hchange
    simp [hcount, ← hchange, sub?_one]

structure GivesUp (frames : Frames) (r r' : ArcReplacer) (L L' : ArcList → List Nat) (i : Nat) (f : FrameId)
    (k : ArcList) : Prop where
  inv : Inv frames r' L'
  moves : Moves L L' i (some k) (some (ghostOf k))
  edits : ∃ nd, r.nodes[i]? = some nd ∧ nd.frameId = some f ∧ Edits r r' i (nd.pageId, none, false)
  frames : r'.frameIndices = Function.update r.frameIndices f none
  pages : r'.pageIndices = r.pageIndices
  target : r'.mruTargetSize = r.mruTargetSize
  untouched : r.Untouched L r'

theorem giveUpFrame_eq (h : Inv frames r L) (hf : r.frameIndices f = some i) :
    ∃ r' L' k as bs, r.giveUpFrame i = some r' ∧ k.isResident = true ∧ L k = as ++ i :: bs ∧
    L' = fronted L k as bs i (ghostOf k) ∧
      GivesUp frames r r' L L' i f k := by
  obtain ⟨k, nd, hi, hres, hnd, hlist, hframe⟩ := h.holder hf
  obtain ⟨as, bs, hL⟩ := List.append_of_mem hi
  obtain ⟨ns₁, hns₁, hlen₁, hself₁, hother₁, hs₁⟩ :=
    setData_eq h.lists (List.getElem?_eq_some_iff.mp hnd).1 (fun nd => { nd with frameId := none })
    fun _ => ⟨rfl, rfl, rfl⟩
  have hget₁ := hself₁ nd hnd
  let r₂ : ArcReplacer := { r with nodes := ns₁, frameIndices := Function.update r.frameIndices f none }
  have hcount₂ : r₂.evictableCount = r₂.nodes.countP ArcNode.evictable := by
    have hchange :=
      countP_change r r₂ i (fun j hj => by rw [data, data]; simp only [r₂]; rw [hother₁ j hj]) (data_of_node hnd)
      (data_of_node hget₁)
    show r.evictableCount = _
    rw [h.count]
    simp only at hchange
    omega
  obtain ⟨ns₃, n₃, hr₃, hlen₃, hget₃, hother₃, hs₃, hn₃⟩ := clearEvictable_eq (r := r₂) (i := i)
    (show r₂.Spells L from fun k => (hs₁ k).congr (by cases k <;> rfl) fun _ _ => rfl) hget₁ nd rfl hcount₂
  obtain ⟨r₄, hr₄, hs₄, hd₄, hm₄, hu₄⟩ := moveToFront_eq hs₃ hL (ghostOf k)
  have hedit : Edits r { r₂ with nodes := ns₃, evictableCount := n₃ } i (nd.pageId, none, false) := by
    refine ⟨hlen₃.trans hlen₁, congrArg (Option.map _) hget₃, fun j hj => ?_, rfl, rfl⟩
    rw [data, data]
    simp only
    rw [hother₃ j hj]
    simp only [r₂]
    rw [hother₁ j hj]
  have hedit₄ := hedit.same hd₄
  refine ⟨r₄, _, k, as, bs, ?_, hres, hL, rfl, ?_, hm₄, ⟨nd, hnd, hframe, hedit₄⟩, hd₄.frames, hd₄.pages,
    hd₄.target, fun j hj => ?_⟩
  · unfold giveUpFrame
    simp only [hnd, Option.bind_eq_bind, Option.bind_some, hlist]
    cases k with
    | mru => simp only [Option.bind_some, hns₁, hframe]; rw [show clearEvictable _ i nd = _ from hr₃]; exact hr₄
    | mfu => simp only [Option.bind_some, hns₁, hframe]; rw [show clearEvictable _ i nd = _ from hr₃]; exact hr₄
    | ghostMru => cases hres
    | ghostMfu => cases hres
  · refine h.edit hi hedit₄ hs₄ hm₄ ?_ hd₄.pages ⟨_, _, data_of_node hnd⟩ (fun f' j => ?_) ?_ (by simp)
      (by simp) ?_ ?_ ?_
    · rw [hd₄.evictable, hd₄.countP]
      exact hn₃
    · rw [hd₄.frames]
      show Function.update r.frameIndices f none f' = some j ↔ _
      by_cases hf' : f' = f
      · subst hf'
        rw [Function.update_self]
        split
        · simp
        · rename_i hj
          rw [hf]
          simp [Ne.symm hj]
      · rw [Function.update_of_ne hf']
        split
        · rename_i hj
          subst hj
          simp only [reduceCtorEq, iff_false]
          intro hj
          obtain ⟨-, nd', -, -, hnd', -, hframe'⟩ := h.holder hj
          rw [hnd, Option.some.injEq] at hnd'
          rw [← hnd', hframe, Option.some.injEq] at hframe'
          exact hf' hframe'.symm
        · rfl
    · cases k with
      | mru => rfl
      | mfu => rfl
      | ghostMru => cases hres
      | ghostMfu => cases hres
    · have hroom := h.room
      have h₁ := hm₄.length .mru
      have h₂ := hm₄.length .mfu
      cases k <;> simp [ghostOf, ArcList.isResident] at h₁ h₂ hres ⊢ <;> omega
    · have hside := h.side
      have h₁ := hm₄.length .mru
      have h₂ := hm₄.length .ghostMru
      cases k <;> simp [ghostOf, ArcList.isResident] at h₁ h₂ hres ⊢ <;> omega
    · rw [hd₄.target]
      exact h.target
  · have hji : j ≠ i := by
      rintro rfl
      exact hj k hi
    exact (hu₄ j hj).trans ((hother₃ j hji).trans (hother₁ j hji))

structure Frees (frames : Frames) (r r' : ArcReplacer) (L L' : ArcList → List Nat) (f : FrameId) : Prop where
  inv : Inv frames r' L'
  free : r'.frameIndices f = none
  frames : ∀ f', f' ≠ f → r'.frameIndices f' = r.frameIndices f'
  pages : r'.pageIndices = r.pageIndices
  capacity : r'.capacity = r.capacity
  target : r'.mruTargetSize = r.mruTargetSize
  kept : ∀ j, r.frameIndices f ≠ some j → (∀ k, j ∈ L' k ↔ j ∈ L k) ∧ r'.data j = r.data j

theorem Frees.held (h : Inv frames r L) (hfree : Frees frames r r' L L' f) {g : FrameId} (hg : g ≠ f) :
    r'.held g = r.held g := by
  refine held_congr (hfree.frames g hg) fun i hi => (hfree.kept i fun hf => ?_).2
  exact hg (h.frame_unique hi hf)

theorem takeFrameFromItsHolder_eq (h : Inv frames r L) (f : FrameId) :
    ∃ r' L' b, r.takeFrameFromItsHolder f = some (r', b) ∧ Frees frames r r' L L' f ∧
      (Admits r L f → (L' .mru).length + (L' .mfu).length < r'.capacity) := by
  unfold takeFrameFromItsHolder
  cases hf : r.frameIndices f with
  | none =>
    exact ⟨r, L, false, rfl, ⟨h, hf, fun _ _ => rfl, rfl, rfl, rfl, fun _ _ => ⟨fun _ => Iff.rfl, rfl⟩⟩,
      fun ha => ha hf⟩
  | some i =>
    obtain ⟨r', L', k, as, bs, hr', hres, -, -, hg⟩ := giveUpFrame_eq h hf
    obtain ⟨nd, -, -, he⟩ := hg.edits
    refine ⟨r', L', true, by simp only; rw [hr']; rfl,
      ⟨hg.inv, ?_, fun f' hf' => ?_, hg.pages, he.capacity, hg.target, fun j hj => ?_⟩, fun _ => ?_⟩
    · rw [hg.frames, Function.update_self]
    · rw [hg.frames, Function.update_of_ne hf']
    · have hji : j ≠ i := fun he => hj (he ▸ hf)
      exact ⟨hg.moves.others j hji, he.others j hji⟩
    · -- the page that gave up the frame leaves its place
      have hroom := h.room
      have h₁ := hg.moves.length .mru
      have h₂ := hg.moves.length .mfu
      rw [he.capacity]
      cases k <;> simp [ghostOf, ArcList.isResident] at h₁ h₂ hres ⊢ <;> omega

theorem isFull_eq (h : r.Spells L) : r.isFull = decide (r.capacity ≤ (L .mru).length + (L .mfu).length) := by
  have h₁ : r.mruList.length = _ := (h .mru).length
  have h₂ : r.mfuList.length = _ := (h .mfu).length
  simp only [isFull, h₁, h₂]

theorem releaseFrameForAdmission_eq (h : Inv frames r L) (ha : Admits r L f) :
    ∃ r' L', r.releaseFrameForAdmission f = some r' ∧ Frees frames r r' L L' f ∧
    (L' .mru).length + (L' .mfu).length < r'.capacity := by
  obtain ⟨r', L', b, hr', hfree, hroom⟩ := takeFrameFromItsHolder_eq h f
  refine ⟨r', L', ?_, hfree, hroom ha⟩
  have hfull := isFull_eq hfree.inv.lists
  rw [decide_eq_false (Nat.not_le.mpr (hroom ha))] at hfull
  simp [releaseFrameForAdmission, hr', hfull, assert]

theorem frames_update (hnone : r.frameIndices f = none) (hi : ∀ f', r.frameIndices f' ≠ some i)
    (f' : FrameId) (j : Nat) :
    Function.update r.frameIndices f (some i) f' = some j ↔ if j = i then some f = some f'
    else r.frameIndices f' = some j := by
  by_cases hf' : f' = f
  · subst hf'
    rw [Function.update_self, hnone, Option.some.injEq]
    split
    · exact iff_of_true (Eq.symm ‹_›) rfl
    · exact iff_of_false (Ne.symm ‹_›) (by simp)
  · rw [Function.update_of_ne hf']
    split
    · rename_i hj
      subst hj
      exact iff_of_false (hi f') fun he => hf' (Option.some.inj he).symm
    · rfl

theorem reviveGhost_eq (h : Inv frames r L) (hi : i ∈ L k) (hghost : k.isResident = false) (hf : f ∈ frames)
    (ha : Admits r L f) (hp : r.pageIndices p = some i) :
    ∃ r' L', r.reviveGhost i f = some r' ∧ Inv frames r' L' ∧ Takes r r' f p := by
  have hnot : ∀ f', r.frameIndices f' ≠ some i := by
    intro f' hf'
    obtain ⟨k', -, hi', hres, -⟩ := h.holder hf'
    rw [h.lists.disjoint hi' hi, hghost] at hres
    cases hres
  obtain ⟨r₁, L₁, hr₁, hfree, hroom₁⟩ := releaseFrameForAdmission_eq h ha
  have h₁ := hfree.inv
  have hi₁ : i ∈ L₁ k := ((hfree.kept i (hnot f)).1 k).mpr hi
  have hnot₁ : ∀ f', r₁.frameIndices f' ≠ some i := by
    intro f' hf'
    obtain ⟨k', -, hi', hres, -⟩ := h₁.holder hf'
    rw [h₁.lists.disjoint hi' hi₁, hghost] at hres
    cases hres
  obtain ⟨nd, as, bs, hnd, hlist, hL⟩ := h₁.node hi₁
  obtain ⟨ns₂, hns₂, hlen₂, hself₂, hother₂, hs₂⟩ := setData_eq h₁.lists (List.getElem?_eq_some_iff.mp hnd).1
    (fun nd => { nd with frameId := some f, evictable := false }) fun _ => ⟨rfl, rfl, rfl⟩
  have hget₂ := hself₂ nd hnd
  let r₂ : ArcReplacer := { r₁ with nodes := ns₂, frameIndices := Function.update r₁.frameIndices f (some i) }
  have hs₂' : r₂.Spells L₁ := fun k => (hs₂ k).congr (by cases k <;> rfl) fun _ _ => rfl
  obtain ⟨r₃, L₃, hr₃, hs₃, hd₃, hm₃⟩ := moveToFront_moves hs₂' hL .mfu
  have hedit : Edits r₁ r₂ i (nd.pageId, some f, false) := by
    refine ⟨hlen₂, congrArg (Option.map _) hget₂, fun j hj => ?_, rfl, rfl⟩
    rw [data, data]
    simp only [r₂]
    rw [hother₂ j hj]
  have hev : nd.evictable = false := by
    cases hb : nd.evictable with
    | false => rfl
    | true =>
      have hd := data_of_node hnd
      rw [hb] at hd
      obtain ⟨k', hk', hres⟩ := (h₁.filed i).evictable _ _ hd
      rw [h₁.lists.disjoint hk' hi₁, hghost] at hres
      cases hres
  refine ⟨r₃, L₃, ?_,
    h₁.edit hi₁ (hedit.same hd₃) hs₃ hm₃ ?_ hd₃.pages ⟨_, _, data_of_node hnd⟩ (fun f' j => ?_) rfl (by simp)
    (fun f' hf' => Option.some.inj hf' ▸ hf) ?_ ?_ ?_, fun g => ?_⟩
  · unfold reviveGhost
    rw [hr₁]
    simp only [Option.bind_eq_bind, Option.bind_some, hns₂]
    exact hr₃
  · have hchange := countP_change _ _ _ hedit.others (data_of_node hnd) hedit.data
    rw [hd₃.evictable, hd₃.countP]
    show r₁.evictableCount = _
    rw [hev] at hchange
    rw [h₁.count]
    omega
  · rw [hd₃.frames]
    exact frames_update hfree.free hnot₁ f' j
  · have h₂ := hm₃.length .mru
    have h₃ := hm₃.length .mfu
    cases k <;> simp [ArcList.isResident] at h₂ h₃ hghost ⊢ <;> omega
  · have hside := h₁.side
    have h₂ := hm₃.length .mru
    have h₃ := hm₃.length .ghostMru
    simp only [Option.some.injEq, reduceCtorEq, if_false] at h₂ h₃
    omega
  · rw [hd₃.target]
    exact h₁.target
  · obtain ⟨-, f', b, hpage⟩ := ((h₁.filed i).pages p).mp (by rw [hfree.pages]; exact hp)
    have htakes : Takes r₁ r₃ f nd.pageId := .of_update hnot₁ hd₃.frames ((hd₃.data i).trans hedit.data)
      fun j hj => (hd₃.data j).trans (hedit.others j hj)
    rw [htakes g, (evictable_of_data hnd hpage).1]
    split
    · rfl
    · exact hfree.held h ‹_›

theorem moveToNewFrame_eq (h : Inv frames r L) (hi : i ∈ L k) (hres : k.isResident = true)
    (hne : ¬ r.frameIndices f = some i) (hf : f ∈ frames) :
    ∃ r' L', r.moveToNewFrame i f = some r' ∧ Inv frames r' L' ∧ i ∈ L' k := by
  obtain ⟨r₁, L₁, b, hr₁, hfree, -⟩ := takeFrameFromItsHolder_eq h f
  have h₁ := hfree.inv
  have hi₁ : i ∈ L₁ k := ((hfree.kept i hne).1 k).mpr hi
  obtain ⟨nd, as, bs, hnd, hlist, hL⟩ := h₁.node hi₁
  -- the frame the node has so far
  obtain ⟨f₀, hf₀⟩ : ∃ f₀, nd.frameId = some f₀ := by
    have := (h₁.filed i).resident k _ _ _ hi₁ (data_of_node hnd)
    rw [hres] at this
    exact Option.isSome_iff_exists.mp this
  have hd := data_of_node hnd
  rw [hf₀] at hd
  have hidx₀ : r₁.frameIndices f₀ = some i := ((h₁.filed i).frames f₀).mpr ⟨⟨k, hi₁⟩, _, _, hd⟩
  have hff₀ : f₀ ≠ f := by
    rintro rfl
    rw [hfree.free] at hidx₀
    cases hidx₀
  obtain ⟨ns₂, hns₂, hlen₂, hself₂, hother₂, hs₂⟩ :=
    setData_eq h₁.lists (List.getElem?_eq_some_iff.mp hnd).1 (fun nd => { nd with frameId := some f })
    fun _ => ⟨rfl, rfl, rfl⟩
  have hget₂ := hself₂ nd hnd
  let r₂ : ArcReplacer := { r₁ with nodes := ns₂, frameIndices := Function.update r₁.frameIndices f₀ none }
  have hcount₂ : r₂.evictableCount = r₂.nodes.countP ArcNode.evictable := by
    have hchange :=
      countP_change r₁ r₂ i (fun j hj => by rw [data, data]; simp only [r₂]; rw [hother₂ j hj]) (data_of_node hnd)
      (data_of_node hget₂)
    show r₁.evictableCount = _
    rw [h₁.count]
    simp only at hchange
    omega
  obtain ⟨ns₃, n₃, hr₃, hlen₃, hget₃, hother₃, hs₃, hn₃⟩ := clearEvictable_eq (r := r₂) (i := i)
    (show r₂.Spells L₁ from fun k => (hs₂ k).congr (by cases k <;> rfl) fun _ _ => rfl) hget₂ nd rfl hcount₂
  let r₄ : ArcReplacer :=
    { r₂ with nodes := ns₃, evictableCount := n₃, frameIndices := Function.update r₂.frameIndices f (some i) }
  have hedit : Edits r₁ r₄ i (nd.pageId, some f, false) := by
    refine ⟨hlen₃.trans hlen₂, congrArg (Option.map _) hget₃, fun j hj => ?_, rfl, rfl⟩
    rw [data, data]
    simp only [r₄]
    rw [hother₃ j hj]
    simp only [r₂]
    rw [hother₂ j hj]
  have hmoves : Moves L₁ L₁ i (some k) (some k) := by
    refine ⟨fun _ _ _ => Iff.rfl, fun k' => ⟨fun hk' => ?_, fun hk' => ?_⟩, fun _ => rfl⟩
    · rw [h₁.lists.disjoint hi₁ hk']
    · cases hk'
      exact hi₁
  have hnot : ∀ f', r₂.frameIndices f' ≠ some i := by
    intro f' hf'
    by_cases hf'' : f' = f₀
    · subst hf''
      simp only [r₂, Function.update_self] at hf'
      cases hf'
    · simp only [r₂] at hf'
      rw [Function.update_of_ne hf''] at hf'
      obtain ⟨-, nd', -, -, hnd', -, hframe'⟩ := h₁.holder hf'
      rw [hnd, Option.some.injEq] at hnd'
      rw [← hnd', hf₀, Option.some.injEq] at hframe'
      exact hf'' hframe'.symm
  have hfree₂ : r₂.frameIndices f = none := by
    simp only [r₂]
    rw [Function.update_of_ne (Ne.symm hff₀)]
    exact hfree.free
  have hother : ∀ f' j, j ≠ i → (r₂.frameIndices f' = some j ↔ r₁.frameIndices f' = some j) := by
    intro f' j hj
    by_cases hf'' : f' = f₀
    · subst hf''
      simp only [r₂, Function.update_self]
      exact iff_of_false (by simp) fun he => hj (Option.some.inj (he.symm.trans hidx₀))
    · simp only [r₂]
      rw [Function.update_of_ne hf'']
  refine ⟨r₄, L₁, ?_,
    h₁.edit hi₁ hedit (fun k => (hs₃ k).congr (by cases k <;> rfl) fun _ _ => rfl) hmoves hn₃ rfl ⟨_, _,
      data_of_node hnd⟩
    (fun f' j => ?_) hres.symm (by simp) (fun f' hf' => Option.some.inj hf' ▸ hf) h₁.room h₁.side h₁.target, hi₁⟩
  · unfold moveToNewFrame
    simp only [hr₁, hnd, Option.bind_eq_bind, Option.bind_some, hns₂, hf₀]
    rw [show clearEvictable _ i nd = _ from hr₃]
    rfl
  · show Function.update r₂.frameIndices f (some i) f' = some j ↔ _
    rw [frames_update hfree₂ hnot f' j]
    split
    · rfl
    · exact hother f' j ‹_›

theorem Inv.retarget (h : Inv frames r L) {n : Nat} (hn : n ≤ r.capacity) :
    Inv frames { r with mruTargetSize := n } L :=
  ⟨fun k => (h.lists k).congr (by cases k <;> rfl) fun _ _ => rfl,
    fun i => ⟨(h.filed i).pages, (h.filed i).frames, (h.filed i).resident, (h.filed i).evictable,
      (h.filed i).stored, (h.filed i).apart⟩,
    h.count, h.unused, h.allowed, h.capacity, h.room, h.side, h.size, hn, h.store⟩

theorem moveToFront_inv (h : Inv frames r L) (hi : i ∈ L k) (hres : k.isResident = true) :
    ∃ r' L', r.moveToFront i .mfu = some r' ∧ Inv frames r' L' ∧ ∀ g, r'.held g = r.held g := by
  obtain ⟨nd, as, bs, hnd, -, hL⟩ := h.node hi
  obtain ⟨r', L', hr', hs, hd, hm⟩ := moveToFront_moves h.lists hL .mfu
  have hdata := data_of_node hnd
  have hsome := (h.filed i).resident k _ _ _ hi hdata
  refine ⟨r', L', hr',
    h.edit hi (Edits.same ⟨rfl, hdata, fun _ _ => rfl, rfl, rfl⟩ hd) hs hm ?_ hd.pages ⟨_, _,
      hdata⟩ (fun f j => ?_) ?_
    (fun _ => rfl) (fun f hf => ?_) ?_ ?_ ?_, fun g => held_congr (by rw [hd.frames]) fun j _ => hd.data j⟩
  · rw [hd.evictable, hd.countP]
    exact h.count
  · rw [hd.frames]
    split
    · rename_i hj
      subst hj
      rw [(h.filed j).frames, hdata]
      simp only [Option.some.injEq, Prod.mk.injEq]
      constructor
      · rintro ⟨-, _, _, -, hf, -⟩
        exact hf
      · intro hf
        exact ⟨⟨k, hi⟩, _, _, rfl, hf, rfl⟩
    · rfl
  · rw [hsome, hres]
    rfl
  · rw [hf] at hdata
    exact h.allowed f i (((h.filed i).frames f).mpr ⟨⟨k, hi⟩, _, _, hdata⟩)
  · have hroom := h.room
    have h₂ := hm.length .mru
    have h₃ := hm.length .mfu
    cases k <;> simp [ArcList.isResident] at h₂ h₃ hres ⊢ <;> omega
  · have hside := h.side
    have h₂ := hm.length .mru
    have h₃ := hm.length .ghostMru
    simp only [Option.some.injEq, reduceCtorEq, if_false] at h₂ h₃
    omega
  · rw [hd.target]
    exact h.target

/-- What an access to page `p` in frame `f` does to the frames: nothing where the page is there, and otherwise it
comes to the frame. -/
structure Sees (r r' : ArcReplacer) (L : ArcList → List Nat) (f : FrameId) (p : PageId) : Prop where
  again : ∀ b, r.held f = some (p, b) → ∀ g, r'.held g = r.held g
  anew : (∀ i k, r.pageIndices p = some i → i ∈ L k → k.isResident = false) → Takes r r' f p

theorem recordRepeatAccess_eq (h : Inv frames r L) (hi : i ∈ L k) (hf : f ∈ frames)
    (ha : k.isResident = false → Admits r L f) (hp : r.pageIndices p = some i) :
    ∃ r' L', r.recordRepeatAccess i f = some r' ∧ Inv frames r' L' ∧ Sees r r' L f p := by
  obtain ⟨nd, as, bs, hnd, hlist, hL⟩ := h.node hi
  have hother : nd.frameId ≠ some f → r.frameIndices f ≠ some i := by
    intro hne hidx
    obtain ⟨-, nd', -, -, hnd', -, hframe⟩ := h.holder hidx
    rw [hnd, Option.some.injEq] at hnd'
    exact hne (hnd' ▸ hframe)
  have hheld : ∀ b, r.held f = some (p, b) → r.frameIndices f = some i := by
    intro b hb
    obtain ⟨j, hj, hpj, -⟩ := h.held_node hb
    rw [hj, ← hpj, hp]
  have hresident : k.isResident = true →
    ∃ r' L', (if nd.frameId ≠ some f then (r.moveToNewFrame i f).bind fun r => r.moveToFront i .mfu
      else r.moveToFront i .mfu) = some r' ∧ Inv frames r' L' ∧ Sees r r' L f p := by
    intro hres
    have hghost : ¬ ∀ i k, r.pageIndices p = some i → i ∈ L k → k.isResident = false := fun hall => by
      rw [hall i k hp hi] at hres
      cases hres
    split
    · obtain ⟨r₁, L₁, hr₁, h₁, hi₁⟩ := moveToNewFrame_eq h hi hres (hother ‹_›) hf
      obtain ⟨r', L', hr', h', -⟩ := moveToFront_inv h₁ hi₁ hres
      rw [hr₁]
      exact ⟨r', L', hr', h', fun b hb => absurd (hheld b hb) (hother ‹_›), fun hall => absurd hall hghost⟩
    · obtain ⟨r', L', hr', h', hsame⟩ := moveToFront_inv h hi hres
      exact ⟨r', L', hr', h', fun _ _ => hsame, fun hall => absurd hall hghost⟩
  -- a ghost is in no frame
  have hrevived : ∀ n, n ≤ r.capacity → k.isResident = false →
      ∃ r' L', ({ r with mruTargetSize := n } : ArcReplacer).reviveGhost i f = some r' ∧ Inv frames r' L' ∧
      Sees r r' L f p := by
    intro n hn hghost
    obtain ⟨r', L', hr', h', htakes⟩ := reviveGhost_eq (h.retarget hn) hi hghost hf (ha hghost) hp
    refine ⟨r', L', hr', h', fun b hb => ?_, fun _ => htakes⟩
    obtain ⟨k', -, hi', hres, -⟩ := h.holder (hheld b hb)
    rw [h.lists.disjoint hi' hi, hghost] at hres
    cases hres
  have hpos : 0 < (L k).length := List.length_pos_of_mem hi
  unfold recordRepeatAccess
  simp only [hnd, Option.bind_eq_bind, Option.bind_some, hlist]
  cases k with
  | mru => exact hresident rfl
  | mfu => exact hresident rfl
  | ghostMru =>
    have hlen : r.mruGhostList.length = _ := (h.lists .ghostMru).length
    dsimp only
    split
    · exact hrevived _ (Nat.min_le_right _ _) rfl
    · rw [div?, if_neg (by omega)]
      exact hrevived _ (Nat.min_le_right _ _) rfl
  | ghostMfu =>
    have hlen : r.mfuGhostList.length = _ := (h.lists .ghostMfu).length
    dsimp only
    split
    · exact hrevived _ (Nat.le_trans (Nat.sub_le _ _) h.target) rfl
    · rw [div?, if_neg (by omega)]
      exact hrevived _ (Nat.le_trans (Nat.sub_le _ _) h.target) rfl

/-! ## Nodes that come and go -/

theorem Inv.forget (h : Inv frames r L) (hi : i ∈ L k) (he : Edits r r' i (p, fo, false)) (hs : r''.Spells L')
    (hm : Moves L L' i (some k) none) (hcount : r'.evictableCount = r'.nodes.countP ArcNode.evictable)
    (hd : r'.SameData { r'' with
      unusedNodeIndices := r'.unusedNodeIndices, pageIndices :=
  r'.pageIndices }) (hunused : r''.unusedNodeIndices = i :: r.unusedNodeIndices)
    (hpages : ∀ p j, r''.pageIndices p = some j ↔ j ≠ i ∧ r.pageIndices p = some j)
    (hframes : ∀ f j, r'.frameIndices f = some j ↔ j ≠ i ∧ r.frameIndices f = some j)
      (htarget : r'.mruTargetSize = r.mruTargetSize) :
    Inv frames r'' L' := by
  have hsize := hm.size
  simp only [Option.isSome_some, Option.isSome_none, Bool.toNat_true, Bool.toNat_false] at hsize
  have hcap : r''.capacity = r.capacity := hd.capacity.trans he.capacity
  have hframes'' : r''.frameIndices = r'.frameIndices := hd.frames
  have hlen : r''.nodes.length = r.nodes.length := hd.count.trans he.count
  have hdata : ∀ j, r''.data j = r'.data j := hd.data
  have hout : ¬ Tracked L' i := fun hin => by
    obtain ⟨k', hk'⟩ := hin
    cases (hm.self k').mp hk'
  refine ⟨hs, fun j => ?_, ?_, ?_, fun f j hf => ?_, h.capacity.trans hcap.symm, ?_, ?_, ?_, ?_, ?_⟩
  · by_cases hj : j = i
    · subst hj
      refine ⟨fun q => ?_, fun f => ?_, fun k₁ q fo' b' hk hd' => absurd ⟨k₁, hk⟩ hout, fun q fo' hd' => ?_, ?_,
        fun _ => hout⟩
      · exact iff_of_false (fun hq => ((hpages q j).mp hq).1 rfl) fun hq => hout hq.1
      · rw [hframes'']
        exact iff_of_false (fun hq => ((hframes f j).mp hq).1 rfl) fun hq => hout hq.1
      · rw [hdata, he.data] at hd'
        cases hd'
      · exact iff_of_true (by rw [hlen]; exact h.lt ⟨k, hi⟩) (.inl (by rw [hunused]; exact List.mem_cons_self))
    · refine KeepsAt.filed ⟨hm.others j hj, (hdata j).trans (he.others j hj), fun q => ?_, fun f => ?_,
        ?_, by rw [hlen]⟩ (h.filed j)
      · rw [hpages]
        exact and_iff_right hj
      · rw [hframes'', hframes]
        exact and_iff_right hj
      · rw [hunused, List.mem_cons]
        exact or_iff_right hj
  · have hev : r''.evictableCount = r'.evictableCount := hd.evictable
    rw [hev, hcount]
    exact hd.countP.symm
  · rw [hunused]
    exact List.nodup_cons.mpr ⟨fun hin => (h.filed i).apart hin ⟨k, hi⟩, h.unused⟩
  · rw [hframes''] at hf
    exact h.allowed f j ((hframes f j).mp hf).2
  · have hroom := h.room
    have h₁ := hm.length .mru
    have h₂ := hm.length .mfu
    simp only [reduceCtorEq, if_false] at h₁ h₂
    omega
  · have hside := h.side
    have h₁ := hm.length .mru
    have h₂ := hm.length .ghostMru
    simp only [reduceCtorEq, if_false] at h₁ h₂
    omega
  · have := h.size
    omega
  · have htarget' : r''.mruTargetSize = r'.mruTargetSize := hd.target
    rw [hcap, htarget', htarget]
    exact h.target
  · rw [hlen, hcap]
    exact h.store

theorem pages_forget (h : Inv frames r L) (hp : r.pageIndices p = some i) (q : PageId) (j : Nat) :
    Function.update r.pageIndices p none q = some j ↔ j ≠ i ∧ r.pageIndices q = some j := by
  by_cases hq : q = p
  · subst hq
    rw [Function.update_self, hp]
    exact iff_of_false (by simp) fun hj => hj.1 (Option.some.inj hj.2).symm
  · rw [Function.update_of_ne hq]
    refine ⟨fun hj => ⟨?_, hj⟩, And.right⟩
    rintro rfl
    obtain ⟨-, f₁, b₁, hd₁⟩ := ((h.filed j).pages p).mp hp
    obtain ⟨-, f₂, b₂, hd₂⟩ := ((h.filed j).pages q).mp hj
    rw [hd₁, Option.some.injEq, Prod.mk.injEq] at hd₂
    exact hq hd₂.1.symm

theorem Inv.ghost (h : Inv frames r L) (hi : i ∈ L k) (hk : k.isResident = false) (hnd : r.nodes[i]? = some nd) :
    nd.frameId = none ∧ nd.evictable = false := by
  have hd := data_of_node hnd
  constructor
  · have := (h.filed i).resident k _ _ _ hi hd
    rw [hk] at this
    exact Option.not_isSome_iff_eq_none.mp (by rw [this]; simp)
  · cases hb : nd.evictable with
    | false => rfl
    | true =>
      rw [hb] at hd
      obtain ⟨k', hk', hres⟩ := (h.filed i).evictable _ _ hd
      rw [h.lists.disjoint hk' hi, hk] at hres
      cases hres

theorem trimGhostTail_eq (h : Inv frames r L) (ghost : GhostList) (hne : L ghost.list ≠ []) :
    ∃ r' L' i, r.trimGhostTail ghost = some r' ∧ Inv frames r' L' ∧ Moves L L' i (some ghost.list) none ∧
    r'.frameIndices = r.frameIndices ∧
      (∀ q, r.pageIndices q = none → r'.pageIndices q = none) ∧ r'.capacity = r.capacity ∧
      ∀ j, r'.data j = r.data j := by
  have hghost : ghost.list.isResident = false := by cases ghost <;> rfl
  obtain ⟨i, hlast⟩ : ∃ i, (L ghost.list).getLast? = some i :=
    Option.ne_none_iff_exists'.mp fun hnone => hne (List.getLast?_eq_none_iff.mp hnone)
  have hi : i ∈ L ghost.list := List.mem_of_getLast? hlast
  obtain ⟨nd, as, bs, hnd, -, hL⟩ := h.node hi
  obtain ⟨hframe, hev⟩ := h.ghost hi hghost hnd
  obtain ⟨r₁, L₁, hr₁, hs₁, hd₁, hm₁, -⟩ := detach_moves h.lists hL
  have hdata := data_of_node hnd
  have hp : r.pageIndices nd.pageId = some i := ((h.filed i).pages _).mpr ⟨⟨_, hi⟩, _, _, hdata⟩
  rw [hev] at hdata
  refine ⟨{ r₁
    with pageIndices := Function.update r₁.pageIndices nd.pageId none, unusedNodeIndices :=
      i :: r₁.unusedNodeIndices }, L₁, i, ?_,
    h.forget hi (⟨rfl, hdata, fun _ _ => rfl, rfl, rfl⟩ : Edits r r i _)
      (fun k => (hs₁ k).congr (by cases k <;> rfl) fun _ _ => rfl) hm₁ h.count
      ⟨hd₁.count, hd₁.data, rfl, rfl, hd₁.frames, hd₁.target, hd₁.capacity,
        hd₁.evictable⟩ (congrArg _ hd₁.unused) (fun q j => ?_) (fun f j => ?_) rfl,
    hm₁, hd₁.frames, fun q hq => ?_, hd₁.capacity, hd₁.data⟩
  · unfold trimGhostTail
    rw [(h.lists ghost.list).last, hlast]
    simp only [Option.bind_eq_bind, Option.bind_some, hnd, hframe, Option.isNone_none, assert, if_true, hr₁]
    rfl
  · rw [hd₁.pages]
    exact pages_forget h hp q j
  · refine ⟨fun hf => ⟨?_, hf⟩, And.right⟩
    rintro rfl
    obtain ⟨-, nd', -, -, hnd', -, hframe'⟩ := h.holder hf
    rw [hnd, Option.some.injEq] at hnd'
    rw [← hnd', hframe] at hframe'
    cases hframe'
  · simp only
    rw [hd₁.pages]
    by_cases hq' : q = nd.pageId
    · subst hq'
      rw [Function.update_self]
    · rw [Function.update_of_ne hq', hq]

theorem trim_eq (h : Inv frames r L) (hroom : (L .mru).length + (L .mfu).length < r.capacity) :
    ∃ r' L', r.trim = some r' ∧ Inv frames r' L' ∧ r'.frameIndices = r.frameIndices ∧
    (∀ q, r.pageIndices q = none → r'.pageIndices q = none) ∧
      (L' .mru).length + (L' .mfu).length < r'.capacity ∧ (L' .mru).length + (L' .ghostMru).length < r'.capacity ∧
      size L' < 2 * r'.capacity ∧
      ∀ j, r'.data j = r.data j := by
  have hside := h.side
  have hsize := h.size
  have h₁ : r.mruList.length = _ := (h.lists .mru).length
  have h₂ : r.mfuList.length = _ := (h.lists .mfu).length
  have h₃ : r.mruGhostList.length = _ := (h.lists .ghostMru).length
  have h₄ : r.mfuGhostList.length = _ := (h.lists .ghostMfu).length
  unfold trim
  simp only [h₁, h₂, h₃, h₄]
  split
  · rename_i hfull
    obtain ⟨r', L', i, hr', h', hm, hframes, hpages, hcap, hdata⟩ :=
      trimGhostTail_eq h .mru (List.ne_nil_of_length_pos (by
      show 0 < (L .ghostMru).length
      omega))
    have hl₁ := hm.length .mru
    have hl₂ := hm.length .mfu
    have hl₃ := hm.length .ghostMru
    have hsz := hm.size
    simp [GhostList.list] at hl₁ hl₂ hl₃ hsz
    exact ⟨r', L', hr', h', hframes, hpages, by omega, by omega, by omega, hdata⟩
  · have hlt : (L .mru).length + (L .ghostMru).length < r.capacity := by omega
    simp only [assert, hlt, decide_true, if_true, Option.bind_eq_bind, Option.bind_some]
    split
    · rename_i hfull
      obtain ⟨r', L', i, hr', h', hm, hframes, hpages, hcap, hdata⟩ :=
        trimGhostTail_eq h .mfu (List.ne_nil_of_length_pos (by
        show 0 < (L .ghostMfu).length
        omega))
      have hl₁ := hm.length .mru
      have hl₂ := hm.length .mfu
      have hl₃ := hm.length .ghostMru
      have hsz := hm.size
      simp [GhostList.list] at hl₁ hl₂ hl₃ hsz
      exact ⟨r', L', hr', h', hframes, hpages, by omega, by omega, by omega, hdata⟩
    · rename_i hless
      refine ⟨r, L, rfl, h, rfl, fun _ hq => hq, hroom, hlt, ?_, fun _ => rfl⟩
      unfold ArcReplacer.size at hsize ⊢
      omega

theorem Inv.nodes_le (h : Inv frames r L) (hnil : r.unusedNodeIndices = []) :
    r.nodes.length ≤ ArcReplacer.size L := by
  have hall : List.range r.nodes.length ⊆ L .mru ++ L .mfu ++ L .ghostMru ++ L .ghostMfu := by
    intro i hi
    have hin := (h.filed i).stored.mp (List.mem_range.mp hi)
    rw [hnil] at hin
    obtain ⟨k, hk⟩ := hin.resolve_left List.not_mem_nil
    cases k <;> simp [hk]
  have hle := (List.subperm_of_subset List.nodup_range hall).length_le
  rw [List.length_range] at hle
  simpa [ArcReplacer.size, Nat.add_assoc] using hle

theorem Inv.admit (h : Inv frames r L) (hf : f ∈ frames) (hfree : r.frameIndices f = none)
    (hpage : r.pageIndices p = none) (hroom : (L .mru).length + (L .mfu).length < r.capacity)
    (hside : (L .mru).length + (L .ghostMru).length < r.capacity) (hsize : ArcReplacer.size L < 2 * r.capacity)
    (hout : ¬ Tracked L i) (hs : r''.Spells L') (hm : Moves L L' i none (some .mru))
    (hdata : r''.data i = some (p, some f, false)) (hothers : ∀ j, j ≠ i → r''.data j = r.data j)
    (hlen : ∀ j, j < r''.nodes.length ↔ j < r.nodes.length ∨ j = i)
    (hunused : ∀ j, j ∈ r''.unusedNodeIndices ↔ j ≠ i ∧ j ∈ r.unusedNodeIndices)
    (hnodup : r''.unusedNodeIndices.Nodup) (hstore : r''.nodes.length ≤ 2 * r.capacity)
    (hcount : r''.evictableCount = r''.nodes.countP ArcNode.evictable)
    (hpages : r''.pageIndices = Function.update r.pageIndices p (some i))
    (hframes : r''.frameIndices = Function.update r.frameIndices f (some i))
    (hcap : r''.capacity = r.capacity) (htarget : r''.mruTargetSize = r.mruTargetSize) : Inv frames r'' L' := by
  have hin : Tracked L' i := ⟨.mru, (hm.self .mru).mpr rfl⟩
  have hno : ∀ f', r.frameIndices f' ≠ some i := fun f' hf' => hout (((h.filed i).frames f').mp hf').1
  have hsz := hm.size
  simp only [Option.isSome_some, Option.isSome_none, Bool.toNat_true, Bool.toNat_false] at hsz
  refine ⟨hs, fun j => ?_, hcount, hnodup, fun f' j hj => ?_, h.capacity.trans hcap.symm, ?_,
    ?_, by rw [hcap]; omega, ?_, hcap ▸ hstore⟩
  · by_cases hj : j = i
    · subst hj
      refine ⟨fun q => ?_, fun f' => ?_, fun k₁ q fo' b' hk hd => ?_, fun q fo' hd => ?_, ?_,
        fun hu => absurd rfl ((hunused j).mp hu).1⟩
      · rw [hpages, hdata]
        simp only [Option.some.injEq, Prod.mk.injEq]
        by_cases hq : q = p
        · subst hq
          rw [Function.update_self]
          exact iff_of_true rfl ⟨hin, _, _, rfl, rfl, rfl⟩
        · rw [Function.update_of_ne hq]
          refine iff_of_false (fun he => hout (((h.filed j).pages q).mp he).1) ?_
          rintro ⟨-, _, _, rfl, -⟩
          exact hq rfl
      · rw [hframes, frames_update hfree hno, if_pos rfl, hdata]
        simp only [Option.some.injEq, Prod.mk.injEq]
        constructor
        · rintro rfl
          exact ⟨hin, _, _, rfl, rfl, rfl⟩
        · rintro ⟨-, _, _, -, rfl, -⟩
          rfl
      · rw [hdata, Option.some.injEq] at hd
        cases hd
        cases (hm.self k₁).mp hk
        rfl
      · rw [hdata, Option.some.injEq] at hd
        cases hd
      · exact iff_of_true ((hlen j).mpr (.inr rfl)) (.inr hin)
    · refine KeepsAt.filed ⟨hm.others j hj, hothers j hj, fun q => ?_, fun f' => ?_, ?_, ?_⟩ (h.filed j)
      · rw [hpages]
        by_cases hq : q = p
        · subst hq
          rw [Function.update_self, hpage]
          exact iff_of_false (fun he => hj (Option.some.inj he).symm) (by simp)
        · rw [Function.update_of_ne hq]
      · rw [hframes, frames_update hfree hno, if_neg hj]
      · rw [hunused]
        exact and_iff_right hj
      · rw [hlen]
        exact or_iff_left hj
  · rw [hframes, frames_update hfree hno] at hj
    split at hj
    · rw [← Option.some.inj hj]
      exact hf
    · exact h.allowed f' j hj
  · have h₁ := hm.length .mru
    have h₂ := hm.length .mfu
    simp at h₁ h₂
    omega
  · have h₁ := hm.length .mru
    have h₂ := hm.length .ghostMru
    simp at h₁ h₂
    omega
  · rw [htarget, hcap]
    exact h.target

theorem recordFirstAccess_eq (h : Inv frames r L) (hf : f ∈ frames) (ha : Admits r L f)
    (hpage : r.pageIndices p = none) :
    ∃ r' L', r.recordFirstAccess f p = some r' ∧ Inv frames r' L' ∧ Takes r r' f p := by
  obtain ⟨r₁, L₁, hr₁, hfree, hroom₁⟩ := releaseFrameForAdmission_eq h ha
  obtain ⟨r₂, L₂, hr₂, h₂, hframes₂, hpages₂, hroom₂, hside₂, hsize₂, hdata₂⟩ := trim_eq hfree.inv hroom₁
  have hfree₂ : r₂.frameIndices f = none := by rw [hframes₂]; exact hfree.free
  have hpage₂ : r₂.pageIndices p = none := hpages₂ p (by rw [hfree.pages]; exact hpage)
  have hheld₂ : ∀ g, g ≠ f → r₂.held g = r.held g :=
    fun g hg => (held_congr (by rw [hframes₂]) fun j _ => hdata₂ j).trans (hfree.held h hg)
  -- what the new node does to the frames
  have htakes : ∀ {r₄ : ArcReplacer} {i : Nat}, ¬ Tracked L₂ i →
      r₄.frameIndices = Function.update r₂.frameIndices f (some i) →
      r₄.data i = some (p, some f, false) → (∀ j, j ≠ i → r₄.data j = r₂.data j) → Takes r r₄ f p := by
    intro r₄ i hout hframes hdata hothers g
    have hno : ∀ g, r₂.frameIndices g ≠ some i := fun g hg => hout (((h₂.filed i).frames g).mp hg).1
    rw [Takes.of_update hno hframes hdata hothers g]
    split
    · rfl
    · exact hheld₂ g ‹_›
  unfold recordFirstAccess
  simp only [hr₁, hr₂, Option.bind_eq_bind, Option.bind_some]
  let nd : ArcNode := ⟨p, some f, false, .mru, none, none⟩
  cases hu : r₂.unusedNodeIndices with
  | cons i unused =>
    have hiu : i ∈ r₂.unusedNodeIndices := by rw [hu]; exact List.mem_cons_self
    have hout : ¬ Tracked L₂ i := (h₂.filed i).apart hiu
    have hlt : i < r₂.nodes.length := (h₂.filed i).stored.mpr (.inl hiu)
    have hnd := h₂.unused
    rw [hu, List.nodup_cons] at hnd
    obtain ⟨ns, hns, hlen, hget⟩ := modifyNode_eq (r := r₂) (fun _ => nd) hlt
    have hself : ns[i]? = some nd := by
      rw [hget i, List.getElem?_eq_getElem hlt]
      simp
    have hother : ∀ j, j ≠ i → ns[j]? = r₂.nodes[j]? := fun j hj => by
      rw [hget j]
      simp [Ne.symm hj]
    let r₃ : ArcReplacer := { r₂ with
      nodes := ns
      unusedNodeIndices := unused
      pageIndices := Function.update r₂.pageIndices p (some i)
      frameIndices := Function.update r₂.frameIndices f (some i) }
    have hs₃ : r₃.Spells L₂ :=
      fun k => (h₂.lists k).congr (by cases k <;> rfl) fun j hj => hother j fun he => hout ⟨k, he ▸ hj⟩
    obtain ⟨r₄, L₄, hr₄, hs₄, hd₄, hm₄, -⟩ :=
      push_moves hs₃ (by simp only [r₃, hlen]; exact hlt) (fun k hk => hout ⟨k, hk⟩) .mru
    refine ⟨r₄, L₄, ?_,
      h₂.admit hf hfree₂ hpage₂ hroom₂ hside₂ hsize₂ hout hs₄ hm₄
        ((hd₄.data i).trans (congrArg (Option.map _) hself))
      (fun j hj => (hd₄.data j).trans (congrArg (Option.map _) (hother j hj))) (fun j => ?_)
        (fun j => ?_) ?_ ?_ ?_ hd₄.pages hd₄.frames hd₄.capacity hd₄.target,
      htakes hout hd₄.frames ((hd₄.data i).trans (congrArg (Option.map _) hself)) fun j hj =>
      (hd₄.data j).trans (congrArg (Option.map _) (hother j hj))⟩
    · simp only [Option.pure_def, Option.bind_some]
      rw [show (r₂.modifyNode i fun _ => nd) = _ from hns]
      exact hr₄
    · rw [hd₄.count]
      simp only [r₃, hlen]
      exact ⟨.inl, fun hj => hj.elim (fun hj => hj) fun hj => hj ▸ hlt⟩
    · rw [hd₄.unused, hu, List.mem_cons]
      refine ⟨fun hj => ⟨fun he => hnd.1 (he ▸ hj), .inr hj⟩, fun hj => hj.2.resolve_left hj.1⟩
    · rw [hd₄.unused]
      exact hnd.2
    · rw [hd₄.count]
      simp only [r₃, hlen]
      exact h₂.store
    · rw [hd₄.evictable, hd₄.countP]
      obtain ⟨nd₀, hnd₀⟩ : ∃ nd₀, r₂.nodes[i]? = some nd₀ := ⟨_, List.getElem?_eq_getElem hlt⟩
      have hev : nd₀.evictable = false := by
        cases hb : nd₀.evictable with
        | false => rfl
        | true =>
          have hd := data_of_node hnd₀
          rw [hb] at hd
          obtain ⟨k, hk, -⟩ := (h₂.filed i).evictable _ _ hd
          exact absurd ⟨k, hk⟩ hout
      have hd₀ := data_of_node hnd₀
      rw [hev] at hd₀
      have hchange :=
        countP_change r₂ r₃ _ (fun j hj => congrArg (Option.map _) (hother j hj)) hd₀
            (congrArg (Option.map _) hself)
      show r₂.evictableCount = _
      rw [h₂.count]
      simp only [nd] at hchange
      omega
  | nil =>
    have hle := h₂.nodes_le hu
    let i := r₂.nodes.length
    have hout : ¬ Tracked L₂ i := fun hin => Nat.lt_irrefl _ (h₂.lt hin)
    let r₃ : ArcReplacer := { r₂ with
      nodes := r₂.nodes ++ [nd]
      unusedNodeIndices := []
      pageIndices := Function.update r₂.pageIndices p (some i)
      frameIndices := Function.update r₂.frameIndices f (some i) }
    have hself : (r₂.nodes ++ [nd])[i]? = some nd := by simp [i]
    have hother : ∀ j, j ≠ i → (r₂.nodes ++ [nd])[j]? = r₂.nodes[j]? := by
      intro j hj
      rcases Nat.lt_or_gt_of_ne hj with hlt | hgt
      · exact List.getElem?_append_left hlt
      · rw [List.getElem?_eq_none (by simp only [List.length_append, List.length_singleton]; omega),
          List.getElem?_eq_none (by omega)]
    have hs₃ : r₃.Spells L₂ :=
      fun k => (h₂.lists k).congr (by cases k <;> rfl) fun j hj => hother j fun he => hout ⟨k, he ▸ hj⟩
    obtain ⟨r₄, L₄, hr₄, hs₄, hd₄, hm₄, -⟩ := push_moves hs₃ (by simp [r₃, i]) (fun k hk => hout ⟨k, hk⟩) .mru
    refine ⟨r₄, L₄, hr₄,
      h₂.admit hf hfree₂ hpage₂ hroom₂ hside₂ hsize₂ hout hs₄ hm₄
        ((hd₄.data i).trans (congrArg (Option.map _) hself))
      (fun j hj => (hd₄.data j).trans (congrArg (Option.map _) (hother j hj))) (fun j => ?_)
        (fun j => ?_) ?_ ?_ ?_ hd₄.pages hd₄.frames hd₄.capacity hd₄.target,
      htakes hout hd₄.frames ((hd₄.data i).trans (congrArg (Option.map _) hself)) fun j hj =>
      (hd₄.data j).trans (congrArg (Option.map _) (hother j hj))⟩
    · rw [hd₄.count]
      simp only [r₃, List.length_append, List.length_singleton, i]
      omega
    · rw [hd₄.unused, hu]
      exact iff_of_false List.not_mem_nil fun hj => List.not_mem_nil hj.2
    · rw [hd₄.unused]
      exact List.nodup_nil
    · rw [hd₄.count]
      simp only [r₃, List.length_append, List.length_singleton]
      omega
    · rw [hd₄.evictable, hd₄.countP]
      show r₂.evictableCount = (r₂.nodes ++ [nd]).countP ArcNode.evictable
      rw [List.countP_append, h₂.count]
      simp [nd]

theorem recordAccess_eq (h : Inv frames r L) (hf : f ∈ frames) (p : PageId)
    (ha : (∀ i k, r.pageIndices p = some i → i ∈ L k → k.isResident = false) → Admits r L f) :
    ∃ r' L', r.recordAccess f p = some r' ∧ Inv frames r' L' ∧ Sees r r' L f p := by
  unfold recordAccess
  cases hp : r.pageIndices p with
  | some i =>
    obtain ⟨k, hi⟩ := (((h.filed i).pages p).mp hp).1
    refine recordRepeatAccess_eq h hi hf (fun hghost => ha fun j k' hj hk' => ?_) hp
    rw [hp, Option.some.injEq] at hj
    subst hj
    rw [h.lists.disjoint hk' hi]
    exact hghost
  | none =>
    obtain ⟨r', L', hr', h', htakes⟩ := recordFirstAccess_eq h hf (ha fun i k hi => by rw [hp] at hi; cases hi) hp
    refine ⟨r', L', hr', h', fun b hb => ?_, fun _ => htakes⟩
    obtain ⟨j, -, hpj, -⟩ := h.held_node hb
    rw [hp] at hpj
    cases hpj

end

end ArcReplacer

end Cmudb
