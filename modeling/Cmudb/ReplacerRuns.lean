import Cmudb.ReplacerEvictions

/-!
# Runs of the replacer

Whatever is asked of a replacer that is given as many frames as it was built
for, it never panics, and its lists, indices and bounds are in order.
-/

namespace Cmudb

open Lib

namespace ArcReplacer

section

variable {frames : Frames} {r r' : ArcReplacer} {L L' : ArcList → List Nat} {i c : Nat} {f : FrameId}
  {p : PageId} {k : ArcList}

theorem setEvictable_eq (h : Inv frames r L) (f : FrameId) (b : Bool) :
    ∃ r', r.setEvictable f b = some r' ∧ Inv frames r' L ∧ ∀ g, r'.held g = if g = f then (r.held f).map fun x =>
    (x.1, b) else r.held g := by
  unfold setEvictable
  cases hf : r.frameIndices f with
  | none =>
    refine ⟨r, rfl, h, fun g => ?_⟩
    split
    · subst g
      rw [held, hf]
      rfl
    · rfl
  | some i =>
    obtain ⟨k, nd, hi, hres, hnd, hlist, hframe⟩ := h.holder hf
    obtain ⟨ns, hns, hlen, hself, hother, hs⟩ :=
      setData_eq h.lists (List.getElem?_eq_some_iff.mp hnd).1 (fun nd => { nd with evictable := b })
      fun _ => ⟨rfl, rfl, rfl⟩
    have hget := hself nd hnd
    have hdata := data_of_node hnd
    have hchange :=
      countP_change r { r with nodes := ns } i (fun j hj => congrArg (Option.map _) (hother j hj)) hdata
      (congrArg (Option.map _) hget)
    -- the counter follows the marks of the nodes
    have hinv : ∀ n, n = ns.countP ArcNode.evictable →
        Inv frames { r with nodes := ns, evictableCount := n } L := by
      intro n hn
      have hmoves : Moves L L i (some k) (some k) := by
        refine ⟨fun _ _ _ => Iff.rfl, fun k' => ⟨fun hk' => ?_, fun hk' => ?_⟩, fun _ => rfl⟩
        · rw [h.lists.disjoint hi hk']
        · cases hk'
          exact hi
      refine h.edit (p := nd.pageId) (b := b) hi ⟨hlen, congrArg (Option.map _) hget,
        fun j hj => congrArg (Option.map _) (hother j hj), rfl, rfl⟩
        (fun k => (hs k).congr (by cases k <;> rfl) fun _ _ => rfl) hmoves hn rfl ⟨_, _,
          hdata⟩ (fun f' j => ?_) ?_ (fun _ => hres)
        (fun f' hf' => ?_) h.room h.side h.target
      · split
        · rename_i hj
          subst hj
          rw [(h.filed j).frames, hdata]
          simp only [Option.some.injEq, Prod.mk.injEq]
          constructor
          · rintro ⟨-, _, _, -, hf', -⟩
            exact hf'
          · intro hf'
            exact ⟨⟨k, hi⟩, _, _, rfl, hf', rfl⟩
        · rfl
      · exact (h.filed i).resident k _ _ _ hi hdata
      · simp only [hframe, Option.some.injEq] at hf'
        exact hf' ▸ h.allowed f i hf
    have hheld : ∀ n g, ({ r with nodes := ns, evictableCount := n } : ArcReplacer).held g =
        if g = f then (r.held f).map fun x => (x.1, b) else r.held g := by
      intro n g
      split
      · subst g
        rw [held_of_frame hf hdata]
        have hf' : ({ r with nodes := ns, evictableCount := n } : ArcReplacer).frameIndices f = some i := hf
        exact held_of_frame hf' (congrArg (Option.map _) hget)
      · refine held_congr rfl fun j hj => congrArg (Option.map _) (hother j ?_)
        rintro rfl
        exact ‹¬ g = f› (h.frame_unique hj hf)
    simp only [hnd, hns, Option.bind_eq_bind, Option.bind_some]
    have hcount := h.count
    simp only at hchange
    cases hb : nd.evictable <;> cases b <;> simp only [hb, Bool.toNat_true, Bool.toNat_false] at hchange ⊢
    · exact ⟨_, rfl, hinv _ (by omega), hheld _⟩
    · exact ⟨_, rfl, hinv _ (by omega), hheld _⟩
    · simp only [Bool.false_and, Bool.not_false, Bool.and_self, Bool.false_eq_true, if_false, if_true]
      rw [sub?, if_pos (by omega)]
      exact ⟨_, rfl, hinv _ (by omega), hheld _⟩
    · exact ⟨_, rfl, hinv _ (by omega), hheld _⟩

theorem remove_eq (h : Inv frames r L) (p : PageId) :
    ∃ r' L' fo, r.remove p = some (r', fo) ∧ Inv frames r' L' ∧
    ∀ g, r'.held g = (r.held g).filter fun x => x.1 ≠ p := by
  unfold remove
  cases hp : r.pageIndices p with
  | none =>
    refine ⟨r, L, none, rfl, h, fun g => ?_⟩
    cases hg : r.held g with
    | none => rfl
    | some x =>
      obtain ⟨i, -, hi, -⟩ := h.held_node (p := x.1) (b := x.2) hg
      have hne : x.1 ≠ p := fun he => by
        rw [he, hp] at hi
        cases hi
      rw [Option.filter_some_pos (by simp [hne])]
  | some i =>
    obtain ⟨⟨k, hi⟩, f₀, b₀, hd₀⟩ := ((h.filed i).pages p).mp hp
    obtain ⟨nd, as, bs, hnd, hlist, hL⟩ := h.node hi
    let r₁ : ArcReplacer := { r with pageIndices := Function.update r.pageIndices p none }
    obtain ⟨ns₂, hns₂, hlen₂, hself₂, hother₂, hs₂⟩ :=
      setData_eq (r := r₁) (fun k => (h.lists k).congr (by cases k <;> rfl) fun _ _ => rfl)
      (List.getElem?_eq_some_iff.mp hnd).1 (fun nd => { nd with frameId := none }) fun _ => ⟨rfl, rfl, rfl⟩
    have hget₂ := hself₂ nd hnd
    let r₂ : ArcReplacer := { r₁ with nodes := ns₂ }
    have hcount₂ : r₂.evictableCount = r₂.nodes.countP ArcNode.evictable := by
      have hchange := countP_change r r₂ i (fun j hj => congrArg (Option.map _) (hother₂ j hj)) (data_of_node hnd)
        (congrArg (Option.map _) hget₂)
      show r.evictableCount = _
      rw [h.count]
      simp only at hchange
      omega
    obtain ⟨ns₃, n₃, hr₃, hlen₃, hget₃, hother₃, hs₃, hn₃⟩ :=
      clearEvictable_eq (r := r₂) (i := i) hs₂ hget₂ nd rfl hcount₂
    let r₄ : ArcReplacer := { r₂ with
      nodes := ns₃
      evictableCount := n₃
      frameIndices := nd.frameId.elim r.frameIndices fun f => Function.update r.frameIndices f none }
    have hs₄ : r₄.Spells L := fun k => (hs₃ k).congr (by cases k <;> rfl) fun _ _ => rfl
    obtain ⟨r₅, L₅, hr₅, hs₅, hd₅, hm₅, -⟩ := detach_moves hs₄ hL
    have hedit : Edits r r₄ i (nd.pageId, none, false) :=
      ⟨hlen₃.trans hlen₂, congrArg (Option.map _) hget₃,
        fun j hj => congrArg (Option.map _) ((hother₃ j hj).trans (hother₂ j hj)), rfl, rfl⟩
    have hframes : ∀ f j, r₄.frameIndices f = some j ↔ j ≠ i ∧ r.frameIndices f = some j := by
      intro f j
      show nd.frameId.elim r.frameIndices (fun f => Function.update r.frameIndices f none) f = some j ↔ _
      have hown : ∀ f', r.frameIndices f' = some i → nd.frameId = some f' := by
        intro f' hf'
        obtain ⟨-, nd', -, -, hnd', -, hframe'⟩ := h.holder hf'
        rw [hnd, Option.some.injEq] at hnd'
        exact hnd' ▸ hframe'
      cases hfo : nd.frameId with
      | none =>
        refine ⟨fun hj => ⟨?_, hj⟩, And.right⟩
        rintro rfl
        rw [hown f hj] at hfo
        cases hfo
      | some f₁ =>
        have hf₁ : r.frameIndices f₁ = some i := by
          have hd := data_of_node hnd
          rw [hfo] at hd
          exact ((h.filed i).frames f₁).mpr ⟨⟨k, hi⟩, _, _, hd⟩
        simp only [Option.elim_some]
        by_cases hff : f = f₁
        · subst hff
          rw [Function.update_self, hf₁]
          exact iff_of_false (by simp) fun hj => hj.1 (Option.some.inj hj.2).symm
        · rw [Function.update_of_ne hff]
          refine ⟨fun hj => ⟨?_, hj⟩, And.right⟩
          rintro rfl
          rw [hown f hj, Option.some.injEq] at hfo
          exact hff hfo
    refine ⟨{ r₅ with unusedNodeIndices := i :: r₅.unusedNodeIndices }, L₅, nd.frameId, ?_,
      h.forget hi hedit (fun k => (hs₅ k).congr (by cases k <;> rfl) fun _ _ => rfl) hm₅ hn₃
        ⟨hd₅.count, hd₅.data, rfl, rfl, hd₅.frames, hd₅.target, hd₅.capacity,
          hd₅.evictable⟩ (congrArg _ hd₅.unused) (fun q j => ?_) hframes rfl,
      fun g => ?_⟩
    · simp only [Option.bind_eq_bind, hnd, Option.bind_some]
      rw [show ({ r with pageIndices := Function.update r.pageIndices p none } : ArcReplacer).modifyNode i _ = _
        from hns₂, Option.bind_some, show clearEvictable _ i nd = _ from hr₃, Option.bind_some]
      cases hfo : nd.frameId with
      | none =>
        simp only [r₄, hfo, Option.elim_none] at hr₅
        rw [show detach _ i = _ from hr₅]
        rfl
      | some f₁ =>
        simp only [r₄, hfo, Option.elim_some] at hr₅
        rw [show detach _ i = _ from hr₅]
        rfl
    · rw [show ({ r₅ with unusedNodeIndices := i :: r₅.unusedNodeIndices } : ArcReplacer).pageIndices =
        r₄.pageIndices from hd₅.pages]
      exact pages_forget h hp q j
    · -- a frame is filed as before, unless it was filed under the page's node
      cases hg : r.held g with
      | none =>
        rw [Option.filter_none, held_none]
        cases hj : r₄.frameIndices g with
        | none => exact .inl (by rw [← hj]; exact congrFun hd₅.frames g)
        | some j =>
          obtain ⟨-, hgj⟩ := (hframes g j).mp hj
          obtain ⟨-, q, b, hd⟩ := ((h.filed j).frames g).mp hgj
          rw [held_of_frame hgj hd] at hg
          cases hg
      | some x =>
        obtain ⟨j, hj, hpj, hd⟩ := h.held_node (p := x.1) (b := x.2) hg
        by_cases hx : x.1 = p
        · have hnone : r₄.frameIndices g = none := by
            rw [hx, hp, Option.some.injEq] at hpj
            subst hpj
            by_contra hsome
            obtain ⟨j', hj'⟩ := Option.ne_none_iff_exists'.mp hsome
            obtain ⟨hne, hgj⟩ := (hframes g j').mp hj'
            rw [hj, Option.some.injEq] at hgj
            exact hne hgj.symm
          rw [Option.filter_some_neg (by simp [hx])]
          exact held_none.mpr (.inl ((congrFun hd₅.frames g).trans hnone))
        · have hne : j ≠ i := by
            rintro rfl
            rw [((h.filed j).pages p).mp hp |>.2.choose_spec.choose_spec, Option.some.injEq, Prod.mk.injEq] at hd
            exact hx hd.1.symm
          rw [Option.filter_some_pos (by simp [hx])]
          exact held_of_frame ((congrFun hd₅.frames g).trans ((hframes g j).mpr ⟨hne, hj⟩))
            ((hd₅.data j).trans ((hedit.others j hne).trans hd))

theorem Inv.new (ids : List FrameId) (c : Nat) : Inv ⟨ids, c⟩ (ArcReplacer.new c) fun _ => [] := by
  have hlists : (ArcReplacer.new c).Spells fun _ => [] :=
    fun k => ⟨trivial, by cases k <;> rfl, by cases k <;> rfl, by cases k <;> rfl, List.nodup_nil, (by simp)⟩
  have hout : ∀ i, ¬ Tracked (fun _ => []) i := fun i ⟨_, hi⟩ => List.not_mem_nil hi
  refine ⟨hlists,
    fun i => ⟨fun q => ?_, fun f => ?_, (by simp [ArcReplacer.new]), (by simp [ArcReplacer.new, data]), ?_,
      (by simp [ArcReplacer.new])⟩, rfl, List.nodup_nil, (by simp [ArcReplacer.new]), rfl, Nat.zero_le _,
    Nat.zero_le _, Nat.zero_le _, Nat.zero_le _, Nat.zero_le _⟩
  · exact iff_of_false (by simp [ArcReplacer.new]) fun hq => hout i hq.1
  · exact iff_of_false (by simp [ArcReplacer.new]) fun hq => hout i hq.1
  · exact iff_of_false (Nat.not_lt_zero i) fun hi => hi.elim List.not_mem_nil (hout i)

end

/-! ## Whole runs -/

inductive Op where
  | recordAccess (frameId : FrameId) (pageId : PageId)
  | setEvictable (frameId : FrameId) (evictable : Bool)
  | remove (pageId : PageId)
  | evict
  /-- `begin_eviction`, dropped. -/
  | tryEvict

def Op.within (frames : List FrameId) : Op → Prop
  | .recordAccess f _ => f ∈ frames
  | .setEvictable f _ => f ∈ frames
  | _ => True

def Op.apply (r : ArcReplacer) : Op → Option ArcReplacer
  | .recordAccess f p => r.recordAccess f p
  | .setEvictable f b => r.setEvictable f b
  | .remove p => (r.remove p).map Prod.fst
  | .evict => r.evict.map Prod.fst
  | .tryEvict => r.tryEvict.map Prod.fst

/-- The operations one after the other; `none` if one panics. -/
def run (r : ArcReplacer) (ops : List Op) : Option ArcReplacer := ops.foldlM Op.apply r

/-- The lists, the indices, the counts and the bounds of the replacer agree, and it evicts unless nothing is
evictable. -/
structure InOrder (c : Nat) (r : ArcReplacer) (L : ArcList → List Nat) : Prop where
  lists : r.Spells L
  disjoint : ∀ k k' i, i ∈ L k → i ∈ L k' → k = k'
  resident : (L .mru).length + (L .mfu).length ≤ c
  side : (L .mru).length + (L .ghostMru).length ≤ c
  size : ArcReplacer.size L ≤ 2 * c
  target : r.mruTargetSize ≤ c
  store : r.nodes.length ≤ 2 * c
  pages : ∀ i, (∃ k, i ∈ L k) ↔ ∃ p, r.pageIndices p = some i
  pageOf : ∀ p i, r.pageIndices p = some i → ∃ nd, r.nodes[i]? = some nd ∧ nd.pageId = p
  frames : ∀ f i, r.frameIndices f = some i ↔ (i ∈ L .mru ∨ i ∈ L .mfu) ∧ ∃ nd, r.nodes[i]? = some nd ∧
    nd.frameId = some f
  framed : ∀ i, i ∈ L .mru ∨ i ∈ L .mfu → ∃ f, r.frameIndices f = some i
  count : r.evictableCount = r.nodes.countP ArcNode.evictable
  evictable : ∀ (i : Nat) (nd : ArcNode), r.nodes[i]? = some nd → nd.evictable = true → i ∈ L .mru ∨ i ∈ L .mfu
  evicts : ∃ r' o, r.evict = some (r', o) ∧ (o = none ↔ r.evictableCount = 0)

section

variable {frames : Frames} {r : ArcReplacer} {L : ArcList → List Nat} {k : ArcList} {i c : Nat}

theorem isResident_iff (h : i ∈ L k) (hd : ∀ k', i ∈ L k' → k = k') :
    k.isResident = true ↔ i ∈ L .mru ∨ i ∈ L .mfu := by
  constructor
  · intro hres
    cases k with
    | mru => exact .inl h
    | mfu => exact .inr h
    | ghostMru => cases hres
    | ghostMfu => cases hres
  · rintro (hi | hi)
    · rw [hd .mru hi]
      rfl
    · rw [hd .mfu hi]
      rfl

theorem Inv.inOrder (h : Inv frames r L) : r.InOrder r.capacity L := by
  have hres : ∀ {i k}, i ∈ L k → (k.isResident = true ↔ i ∈ L .mru ∨ i ∈ L .mfu) :=
    fun hk => isResident_iff hk fun k' hk' => h.lists.disjoint hk hk'
  refine ⟨h.lists, fun k k' i => h.lists.disjoint, h.room, h.side, h.size, h.target, h.store, fun i => ?_,
    fun p i hp => ?_, fun f i => ?_, fun i hi => ?_, h.count, fun i nd hnd hev => ?_, ?_⟩
  · constructor
    · rintro ⟨k, hk⟩
      obtain ⟨nd, -, -, hnd, -⟩ := h.node hk
      exact ⟨nd.pageId, ((h.filed i).pages _).mpr ⟨⟨k, hk⟩, _, _, data_of_node hnd⟩⟩
    · rintro ⟨p, hp⟩
      exact (((h.filed i).pages p).mp hp).1
  · obtain ⟨⟨k, hk⟩, f, b, hd⟩ := ((h.filed i).pages p).mp hp
    obtain ⟨nd, -, -, hnd, -⟩ := h.node hk
    exact ⟨nd, hnd, (evictable_of_data hnd hd).1⟩
  · constructor
    · intro hf
      obtain ⟨k, nd, hk, hr, hnd, -, hframe⟩ := h.holder hf
      exact ⟨(hres hk).mp hr, nd, hnd, hframe⟩
    · rintro ⟨hi, nd, hnd, hframe⟩
      have hd := data_of_node hnd
      rw [hframe] at hd
      exact ((h.filed i).frames f).mpr ⟨hi.elim (fun hi => ⟨_, hi⟩) fun hi => ⟨_, hi⟩, _, _, hd⟩
  · obtain ⟨k, hk⟩ : ∃ k, i ∈ L k := hi.elim (fun hi => ⟨_, hi⟩) fun hi => ⟨_, hi⟩
    obtain ⟨nd, -, -, hnd, -⟩ := h.node hk
    have hd := data_of_node hnd
    have hsome := (h.filed i).resident k _ _ _ hk hd
    rw [(hres hk).mpr hi] at hsome
    obtain ⟨f, hf⟩ := Option.isSome_iff_exists.mp hsome
    rw [hf] at hd
    exact ⟨f, ((h.filed i).frames f).mpr ⟨⟨k, hk⟩, _, _, hd⟩⟩
  · have hd := data_of_node hnd
    rw [hev] at hd
    obtain ⟨k, hk, hr⟩ := (h.filed i).evictable _ _ hd
    exact (hres hk).mp hr
  · obtain ⟨r', L', o, ho, -, hnone⟩ := evict_eq h
    exact ⟨r', o, ho, hnone⟩

theorem Op.apply_eq (h : Inv frames r L) {op : Op} (hop : op.within frames.ids)
    (hroom : ∀ f p, op = .recordAccess f p → (∀ i k, r.pageIndices p = some i → i ∈ L k → k.isResident = false) →
      Admits r L f) :
    ∃ r' L', op.apply r = some r' ∧ Inv frames r' L' := by
  cases op with
  | recordAccess f p =>
    obtain ⟨r', L', hr', h', -⟩ := recordAccess_eq h hop p (hroom f p rfl)
    exact ⟨r', L', hr', h'⟩
  | setEvictable f b =>
    obtain ⟨r', hr', h', -⟩ := setEvictable_eq h f b
    exact ⟨r', L, hr', h'⟩
  | remove p =>
    obtain ⟨r', L', fo, hr', h', -⟩ := remove_eq h p
    exact ⟨r', L', congrArg (Option.map Prod.fst) hr', h'⟩
  | evict =>
    obtain ⟨r', L', o, hr', h', -⟩ := evict_eq h
    exact ⟨r', L', congrArg (Option.map Prod.fst) hr', h'⟩
  | tryEvict =>
    obtain ⟨o, hr⟩ := tryEvict_eq h
    exact ⟨r, L, congrArg (Option.map Prod.fst) hr, h⟩

theorem run_cons (r : ArcReplacer) (op : Op) (ops : List Op) :
    r.run (op :: ops) = (op.apply r).bind fun r => r.run ops := List.foldlM_cons

theorem run_eq (hall : frames.ids.length = frames.capacity) :
    ∀ (ops : List Op) {r : ArcReplacer} {L : ArcList → List Nat}, Inv frames r L →
    (∀ op ∈ ops, op.within frames.ids) → ∃ r' L', r.run ops = some r' ∧ Inv frames r' L'
  | [], r, L, h, _ => ⟨r, L, rfl, h⟩
  | op :: ops, r, L, h, hops => by
    have hop := hops op List.mem_cons_self
    obtain ⟨r₁, L₁, hr₁, h₁⟩ := Op.apply_eq h hop fun f p heq _ => h.admits hall (by subst heq; exact hop)
    obtain ⟨r', L', hr', h'⟩ := run_eq hall ops h₁ fun op' hop' => hops op' (List.mem_cons_of_mem op hop')
    exact ⟨r', L', by rw [run_cons, hr₁]; exact hr', h'⟩

end

/-- A replacer built for as many frames as it is given never panics, and stays in order. -/
theorem replacer_stays_in_order (frames : List FrameId) (ops : List Op) (hops : ∀ op ∈ ops, op.within frames) :
    ∃ r L, (ArcReplacer.new frames.length).run ops = some r ∧ r.InOrder frames.length L := by
  obtain ⟨r, L, hr, h⟩ :=
    run_eq (show (⟨frames, frames.length⟩ : Frames).ids.length = _ from rfl) ops (Inv.new frames frames.length) hops
  refine ⟨r, L, hr, ?_⟩
  rw [show frames.length = _ from h.capacity]
  exact h.inOrder

theorem two_frames_stay_in_order :
    ∃ r L, (ArcReplacer.new 2).run
      [.recordAccess 0 7, .setEvictable 0 true, .evict, .recordAccess 1 7, .remove 7] = some r ∧ r.InOrder 2 L :=
  replacer_stays_in_order [0, 1] _ (by simp [Op.within])

/-! ## Runs with any frames -/

section

variable {frames : Frames} {r r' : ArcReplacer} {L : ArcList → List Nat} {f : FrameId} {p : PageId}

def Op.frameIds : Op → List FrameId
  | .recordAccess f _ => [f]
  | .setEvictable f _ => [f]
  | _ => []

theorem Op.within_frameIds {op : Op} {ids : List FrameId} (h : ∀ f ∈ op.frameIds, f ∈ ids) : op.within ids := by
  cases op with
  | recordAccess f p => exact h f List.mem_cons_self
  | setEvictable f b => exact h f List.mem_cons_self
  | remove p => trivial
  | evict => trivial
  | tryEvict => trivial

theorem releaseFrameForAdmission_full (hfree : r.frameIndices f = none) (hfull : r.isFull = true) :
    r.releaseFrameForAdmission f = none := by
  simp [releaseFrameForAdmission, takeFrameFromItsHolder, hfree, hfull, assert]

theorem recordAccess_admits (h : Inv frames r L) (hr : r.recordAccess f p = some r')
    (hghost : ∀ i k, r.pageIndices p = some i → i ∈ L k → k.isResident = false) : Admits r L f := by
  intro hfree
  by_contra hroom
  have hfull : r.isFull = true := by
    rw [isFull_eq h.lists]
    exact decide_eq_true (Nat.le_of_not_lt hroom)
  -- the new target size is not looked at
  have hrelease : ∀ n, ({ r with mruTargetSize := n } : ArcReplacer).releaseFrameForAdmission f = none := fun n =>
    releaseFrameForAdmission_full hfree hfull
  unfold recordAccess at hr
  cases hp : r.pageIndices p with
  | none =>
    simp only [hp, recordFirstAccess, hrelease r.mruTargetSize, Option.bind_eq_bind, Option.bind_none] at hr
    cases hr
  | some i =>
    obtain ⟨k, hi⟩ := (((h.filed i).pages p).mp hp).1
    obtain ⟨nd, -, -, hnd, hlist, -⟩ := h.node hi
    have hk := hghost i k hp hi
    have hrevive : ∀ n, ({ r with mruTargetSize := n } : ArcReplacer).reviveGhost i f = none := fun n => by
      rw [reviveGhost, hrelease]
      rfl
    simp only [hp, recordRepeatAccess, hnd, hlist, Option.bind_eq_bind, Option.bind_some] at hr
    cases k with
    | mru => cases hk
    | mfu => cases hk
    | ghostMru =>
      simp [hrevive] at hr
    | ghostMfu =>
      simp [hrevive] at hr

theorem run_inv : ∀ (ops : List Op) {r : ArcReplacer} {L : ArcList → List Nat}, Inv frames r L →
    (∀ op ∈ ops, op.within frames.ids) →
    r.run ops = some r' → ∃ L', Inv frames r' L'
  | [], r, L, h, _, hr => ⟨L, by cases hr; exact h⟩
  | op :: ops, r, L, h, hops, hr => by
    rw [run_cons] at hr
    obtain ⟨r₁, hr₁, hr⟩ := Option.bind_eq_some_iff.mp hr
    obtain ⟨r₁', L₁, hr₁', h₁⟩ := Op.apply_eq h (hops op List.mem_cons_self) fun f p heq hghost => by
      subst heq
      exact recordAccess_admits h hr₁ hghost
    rw [hr₁, Option.some.injEq] at hr₁'
    subst hr₁'
    exact run_inv ops h₁ (fun op' hop' => hops op' (List.mem_cons_of_mem op hop')) hr

/-- Only the victim has changed: it has no frame any more, and is the most recent ghost of its list. -/
structure Committed (r r' : ArcReplacer) (L : ArcList → List Nat) (undo : EvictionUndo) : Prop where
  lists : ∃ as bs, L undo.list.list = as ++ undo.nodeIdx :: bs ∧
    r'.Spells (fronted L undo.list.list as bs undo.nodeIdx undo.list.ghost.list)
  victim : ∃ nd, r.nodes[undo.nodeIdx]? = some nd ∧ nd.frameId = some undo.frameId ∧
    r'.data undo.nodeIdx = some (nd.pageId, none, false)
  others : ∀ j, j ≠ undo.nodeIdx → r'.data j = r.data j
  unused : r'.unusedNodeIndices = r.unusedNodeIndices
  pages : r'.pageIndices = r.pageIndices
  frames : r'.frameIndices = Function.update r.frameIndices undo.frameId none
  evictable : r'.evictableCount + 1 = r.evictableCount
  target : r'.mruTargetSize = r.mruTargetSize
  capacity : r'.capacity = r.capacity

theorem Evicts.committed {undo : EvictionUndo} (h : Inv frames r L) (he : Evicts frames r r' L undo) :
    Committed r r' L undo := by
  have hcount := he.evictable h
  obtain ⟨as, bs, hL, -, hg⟩ := he.gives
  obtain ⟨nd, hnd, hframe, hedit⟩ := hg.edits
  exact ⟨⟨as, bs, hL, hg.inv.lists⟩, ⟨nd, hnd, hframe, hedit.data⟩, hedit.others, hedit.unused, hg.pages, hg.frames,
    hcount, hg.target, hedit.capacity⟩

def IsVictim (r : ArcReplacer) (L : ArcList → List Nat) (undo : EvictionUndo) : Prop :=
  r.lastEvictable (L undo.list.list) = some undo.nodeIdx ∧
    (undo.list = (r.evictionOrder L).1 ∨ r.lastEvictable (L (r.evictionOrder L).1.list) = none ∧
      undo.list = (r.evictionOrder L).2)

end

/-- A dropped eviction leaves the replacer as it was, and one that is committed changes its victim alone. -/
theorem eviction_dropped_or_committed (c : Nat) (ops : List Op) (r : ArcReplacer)
    (hr : (ArcReplacer.new c).run ops = some r) :
    ∃ L o, r.Spells L ∧ r.beginEviction = some o ∧
    (o = none ↔ ∀ resident : ResidentList, r.lastEvictable (L resident.list) = none) ∧
      ∀ r' undo, o = some (r', undo) → r'.undoEviction undo = some r ∧ Committed r r' L undo ∧
      IsVictim r L undo := by
  have hwithin : ∀ op ∈ ops, op.within (ops.flatMap Op.frameIds) := fun op hop =>
    Op.within_frameIds fun f hf => List.mem_flatMap.mpr ⟨op, hop, hf⟩
  obtain ⟨L, h⟩ := run_inv ops (Inv.new (ops.flatMap Op.frameIds) c) hwithin hr
  obtain ⟨o, ho, hsome, hnone⟩ := beginEviction_eq h
  refine ⟨L, o, h.lists, ho, ⟨hnone, fun hall => ?_⟩, fun r' undo hundo => ?_⟩
  · cases o with
    | none => rfl
    | some x =>
      have hvictim := (hsome x.1 x.2 rfl).1.victim
      rw [hall x.2.list] at hvictim
      cases hvictim
  · obtain ⟨he, horder⟩ := hsome r' undo hundo
    exact ⟨undoEviction_eq h he, he.committed h, he.victim, horder⟩

theorem one_of_two_pages_evicted :
    ∃ r, (ArcReplacer.new 2).run [.recordAccess 0 7, .recordAccess 1 8, .setEvictable 0 true] = some r ∧
    r.evictableCount = 1 ∧ ∃ L o, r.Spells L ∧ r.beginEviction = some o ∧
      (o = none ↔ ∀ resident : ResidentList, r.lastEvictable (L resident.list) = none) ∧
      ∀ r' undo, o = some (r', undo) → r'.undoEviction undo = some r ∧ Committed r r' L undo ∧ IsVictim r L undo :=
  ⟨_, rfl, rfl, eviction_dropped_or_committed 2 [.recordAccess 0 7, .recordAccess 1 8, .setEvictable 0 true] _ rfl⟩

end ArcReplacer

end Cmudb
