import Mathlib.Data.List.Nodup
import Cmudb.HeapIter

/-!
# What an iterator visits

A `Route` is the way an iterator has before it: the page links from where it
stands to the slot it stops at, and the record ids on them. No step of another
thread changes a route, since pages that link on are full for good and the last
one only grows, and a pass follows the route. The heap itself is a route from its
first page to its tail, along what inserts returned.
-/

namespace Cmudb

namespace TablePage

variable {p p' : TablePage} {i : Nat}

theorem numTuples_of_view (h : ∀ j, (p'.view j).isSome = (p.view j).isSome) : p'.numTuples = p.numTuples := by
  have key : ∀ j, p'.numTuples ≤ j ↔ p.numTuples ≤ j := by
    intro j
    rw [← view_eq_none, ← view_eq_none, ← Option.isNone_iff_eq_none, ← Option.isNone_iff_eq_none,
      ← Option.not_isSome, ← Option.not_isSome, h j]
  have h1 := (key p.numTuples).mpr (Nat.le_refl _)
  have h2 := (key p'.numTuples).mp (Nat.le_refl _)
  exact Nat.le_antisymm h1 h2

theorem updateMeta_next {m : TupleMeta} (h : p.updateMeta i m = .ok p') : p'.nextPageId = p.nextPageId := by
  obtain ⟨_, _, _, _, rfl⟩ := updateMeta_ok h
  rfl

theorem makeRoom_next (p : TablePage) (i size : Nat) (pl : Placement) :
    (p.makeRoom i size pl).nextPageId = p.nextPageId := by
  cases pl <;> rfl

theorem writeTuple_next (p : TablePage) (i : Nat) (d : Bytes) : (p.writeTuple i d).nextPageId = p.nextPageId := by
  unfold writeTuple
  cases p.slot i <;> rfl

theorem applyWrite_shape (hw : p.Wf) {w : SlotWrite} (h : p.applyWrite i w = .ok p') :
    p'.nextPageId = p.nextPageId ∧ p'.numTuples = p.numTuples := by
  constructor
  · unfold applyWrite at h
    cases hd : w.data with
    | none =>
      rw [hd] at h
      exact updateMeta_next h
    | some d =>
      rw [hd] at h
      obtain ⟨_, pl, q, _, _, _, hq, rfl⟩ := updateInPlace_ok h
      rw [writeTuple_next, makeRoom_next]
      exact updateMeta_next hq
  · apply numTuples_of_view
    intro j
    rw [(applyWrite_spec hw h).2.1 j]
    by_cases hj : j = i
    · subst hj
      simp
    · rw [if_neg hj]

theorem insert_shape {m : TupleMeta} {d : Bytes} (h : p.insertWithMeta m d = .ok (i, p')) :
    i = p.numTuples ∧ p'.nextPageId = p.nextPageId ∧ p'.numTuples = p.numTuples + 1 := by
  obtain ⟨hi, _, rfl⟩ := insertWithMeta_ok h
  exact ⟨hi, rfl, by simp [numTuples]⟩

end TablePage

theorem fetchPage_ok {pages : Nat → Option TablePage} {ok : Bool} {x : Nat} {p : TablePage}
    (h : fetchPage pages ok x = .ok p) : pages x = some p := by
  unfold fetchPage at h
  cases hp : pages x with
  | none =>
    rw [hp] at h
    cases h
  | some page =>
    rw [hp] at h
    cases ok with
    | false => cases h
    | true =>
      dsimp only at h
      split at h
      · cases h
      · cases h
        rfl

theorem fetchPage_of_wf {pages : Nat → Option TablePage} {x : Nat} {p : TablePage}
    (hp : pages x = some p) (hw : p.Wf) :
    fetchPage pages true x = .ok p := by
  unfold fetchPage
  rw [hp]
  dsimp only
  rw [hw.validate]

/-! ## Routes -/

def slotIds (pageId i n : Nat) : List RecordId := (List.range' i n).map (RecordId.mk pageId)

theorem slotIds_succ (pageId i n : Nat) : slotIds pageId i (n + 1) = ⟨pageId, i⟩ :: slotIds pageId (i + 1) n := rfl

theorem slotIds_append (pageId i n : Nat) : slotIds pageId i (n + 1) = slotIds pageId i n ++ [⟨pageId, i + n⟩] := by
  unfold slotIds
  rw [List.range'_1_concat, List.map_append]
  rfl

/-- The way from slot `i` of a page along the links to the tail: the pages on it and the record ids. -/
inductive Route (pages : Nat → Option TablePage) (owned : List Nat) :
    Nat → Nat → Tail → List Nat → List RecordId → Prop
  | last {pageId i n : Nat} {p : TablePage} : pageId ∈ owned → pages pageId = some p → i ≤ n → n ≤ p.numTuples →
      Route pages owned pageId i ⟨pageId, n⟩ [pageId] (slotIds pageId i (n - i))
  | more {pageId i next : Nat} {tail : Tail} {p : TablePage} {route : List Nat} {rids : List RecordId} :
      pageId ∈ owned → pageId ≠ tail.pageId → pages pageId = some p → p.nextPageId = some next → i ≤ p.numTuples →
      Route pages owned next 0 tail route rids →
      Route pages owned pageId i tail (pageId :: route) (slotIds pageId i (p.numTuples - i) ++ rids)

/-- What no step of a thread undoes: pages stay, keep their slots, and a page that links on keeps
its link and gets no more slots. -/
structure Grown (pages : Nat → Option TablePage) (owned : List Nat) (pages' : Nat → Option TablePage)
    (owned' : List Nat) : Prop where
  sub : ∀ x ∈ owned, x ∈ owned'
  page : ∀ x ∈ owned, ∀ p, pages x = some p → ∃ p', pages' x = some p' ∧ p.numTuples ≤ p'.numTuples ∧
    ∀ next, p.nextPageId = some next → p'.nextPageId = some next ∧ p'.numTuples = p.numTuples

section
variable {pages pages' : Nat → Option TablePage} {owned owned' : List Nat} {x i n : Nat} {tail : Tail}
  {route : List Nat} {rids : List RecordId}

theorem Grown.refl (pages : Nat → Option TablePage) (owned : List Nat) : Grown pages owned pages owned :=
  ⟨fun _ h => h, fun _ _ p h => ⟨p, h, Nat.le_refl _, fun _ hn => ⟨hn, rfl⟩⟩⟩

theorem Grown.update {p p' : TablePage} (hsub : ∀ x ∈ owned, x ∈ owned') (hp : pages x = some p)
    (hle : p.numTuples ≤ p'.numTuples)
    (hnext : ∀ next, p.nextPageId = some next → p'.nextPageId = some next ∧ p'.numTuples = p.numTuples) :
    Grown pages owned (Function.update pages x (some p')) owned' := by
  refine ⟨hsub, fun y hy q hq => ?_⟩
  by_cases hyx : y = x
  · subst hyx
    rw [hp] at hq
    cases hq
    exact ⟨p', Function.update_self .., hle, hnext⟩
  · rw [Function.update_of_ne hyx]
    exact ⟨q, hq, Nat.le_refl _, fun _ hn => ⟨hn, rfl⟩⟩

namespace Route

theorem grow (hg : Grown pages owned pages' owned') (h : Route pages owned x i tail route rids) :
    Route pages' owned' x i tail route rids := by
  induction h with
  | last ho hp hi hn =>
    obtain ⟨p', hp', hle, _⟩ := hg.page _ ho _ hp
    exact .last (hg.sub _ ho) hp' hi (Nat.le_trans hn hle)
  | @more _ i _ _ p _ _ ho hne hp hnext hi _ ih =>
    obtain ⟨p', hp', _, hkeep⟩ := hg.page _ ho _ hp
    obtain ⟨hnext', hnum⟩ := hkeep _ hnext
    rw [← hnum]
    exact .more (hg.sub _ ho) hne hp' hnext' (hnum ▸ hi) ih

theorem extend {p : TablePage} (hp : pages tail.pageId = some p) (hn : tail.numTuples + 1 ≤ p.numTuples)
    (h : Route pages owned x i tail route rids) :
    Route pages owned x i ⟨tail.pageId, tail.numTuples + 1⟩ route (rids ++ [⟨tail.pageId, tail.numTuples⟩]) := by
  induction h with
  | @last x i n q ho hq hi hle =>
    have hlast : slotIds x i (n - i) ++ [⟨x, n⟩] = slotIds x i (n + 1 - i) := by
      rw [Nat.succ_sub hi, slotIds_append]
      congr 3
      omega
    dsimp only at hp hn ⊢
    rw [hlast]
    exact .last ho hp (Nat.le_succ_of_le hi) hn
  | more ho hne hq hnext hi _ ih =>
    rw [List.append_assoc]
    exact .more ho hne hq hnext hi (ih hp hn)

/-- The tail page, which is full, links to a page of one slot that nothing follows. -/
theorem goOn {p q : TablePage} {y : Nat} (hp : pages tail.pageId = some p) (hnum : p.numTuples = tail.numTuples)
    (hlink : p.nextPageId = some y) (hy : y ∈ owned) (hq : pages y = some q) (hone : q.numTuples = 1)
    (hend : q.nextPageId = none) (hne : y ≠ tail.pageId) (h : Route pages owned x i tail route rids) :
    Route pages owned x i ⟨y, 1⟩ (route ++ [y]) (rids ++ [⟨y, 0⟩]) := by
  have hstop : Route pages owned y 0 ⟨y, 1⟩ [y] [⟨y, 0⟩] := .last hy hq (Nat.zero_le 1) (Nat.le_of_eq hone.symm)
  induction h with
  | last ho hp' hi hle =>
    dsimp only at hp hnum hne
    rw [← hnum] at hi ⊢
    exact .more ho (fun he => hne he.symm) hp hlink hi hstop
  | @more x _ _ _ r _ _ ho hne' hr hnext hi _ ih =>
    have hxy : x ≠ y := by
      intro he
      subst he
      rw [hq] at hr
      cases hr
      rw [hend] at hnext
      cases hnext
    rw [List.append_assoc]
    exact .more ho hxy hr hnext hi (ih hp hnum hne)

theorem mem_owned (h : Route pages owned x i tail route rids) : ∀ y ∈ route, y ∈ owned := by
  induction h with
  | last ho => simpa using ho
  | more ho _ _ _ _ _ ih =>
    intro y hy
    rcases List.mem_cons.mp hy with rfl | hy
    · exact ho
    · exact ih y hy

theorem start_mem (h : Route pages owned x i tail route rids) : x ∈ owned := by
  cases h with
  | last ho => exact ho
  | more ho => exact ho

theorem not_mem {y : Nat} {q : TablePage} (hq : pages y = some q) (hend : q.nextPageId = none)
    (hne : y ≠ tail.pageId) (h : Route pages owned x i tail route rids) : y ∉ route := by
  induction h with
  | last => simpa using hne
  | more _ _ hp hnext _ _ ih =>
    intro hy
    rcases List.mem_cons.mp hy with rfl | hy
    · rw [hq] at hp
      cases hp
      rw [hend] at hnext
      cases hnext
    · exact ih hne hy

theorem rid_mem (h : Route pages owned x i tail route rids) : ∀ r ∈ rids, r.pageId ∈ route := by
  induction h with
  | last =>
    intro r hr
    obtain ⟨_, _, rfl⟩ := List.mem_map.mp hr
    exact List.mem_singleton.mpr rfl
  | more _ _ _ _ _ _ ih =>
    intro r hr
    rcases List.mem_append.mp hr with hr | hr
    · obtain ⟨_, _, rfl⟩ := List.mem_map.mp hr
      exact List.mem_cons_self
    · exact List.mem_cons_of_mem _ (ih r hr)

theorem nodup (h : Route pages owned x i tail route rids) (hnd : route.Nodup) : rids.Nodup := by
  have hslots : ∀ a b n, (slotIds a b n).Nodup := fun a b n =>
    (List.nodup_range' 1).map fun _ _ he => congrArg RecordId.slotId he
  induction h with
  | last => exact hslots _ _ _
  | @more x _ _ _ _ _ _ _ _ _ _ _ h ih =>
    obtain ⟨hx, hnd⟩ := List.nodup_cons.mp hnd
    refine List.Nodup.append (hslots _ _ _) (ih hnd) fun r hr hr' => ?_
    obtain ⟨_, _, rfl⟩ := List.mem_map.mp hr
    exact hx (h.rid_mem _ hr')

/-! ### Following a route -/

theorem nil_of_end (h : Route pages owned x i tail route rids) (hx : x = tail.pageId) (hi : tail.numTuples ≤ i) :
    rids = [] := by
  cases h with
  | last _ _ hle _ =>
    rw [Nat.sub_eq_zero_of_le hi]
    rfl
  | more _ hne => exact absurd hx hne

theorem advance {p : TablePage} (h : Route pages owned x i tail route rids) (hp : pages x = some p)
    (hi : i < p.numTuples) (hend : x = tail.pageId → i < tail.numTuples) :
    ∃ rids', rids = ⟨x, i⟩ :: rids' ∧ Route pages owned x (i + 1) tail route rids' := by
  cases h with
  | @last _ _ n _ ho hq _ hn =>
    have hin : i < n := hend rfl
    refine ⟨slotIds x (i + 1) (n - (i + 1)), ?_, .last ho hq hin hn⟩
    rw [← slotIds_succ]
    congr 1
    omega
  | @more _ _ _ _ q _ rids ho hne hq hnext _ hr =>
    rw [hp] at hq
    cases hq
    refine ⟨slotIds x (i + 1) (p.numTuples - (i + 1)) ++ rids, ?_, .more ho hne hp hnext hi hr⟩
    rw [← List.cons_append, ← slotIds_succ]
    congr 2
    omega

theorem next_page {p : TablePage} (h : Route pages owned x i tail route rids) (hp : pages x = some p)
    (hi : p.numTuples ≤ i) (hend : x = tail.pageId → i < tail.numTuples) :
    x ≠ tail.pageId ∧ ∃ next route', p.nextPageId = some next ∧ route = x :: route' ∧
    Route pages owned next 0 tail route' rids := by
  cases h with
  | @last _ _ n _ ho hq _ hn =>
    rw [hp] at hq
    cases hq
    have hin : i < n := hend rfl
    omega
  | @more _ _ next _ q route _ ho hne hq hnext _ hr =>
    rw [hp] at hq
    cases hq
    rw [Nat.sub_eq_zero_of_le hi]
    exact ⟨hne, next, route, hnext, rfl, hr⟩

end Route

end

/-! ## The heap is a route -/

namespace HeapWorld

/-- Where the heap's links end, which the tail says once the insert in progress is done. -/
def lastTail (w : HeapWorld) : Tail :=
  match w.pending with
  | some (.placed rid) => ⟨rid.pageId, rid.slotId + 1⟩
  | _ => w.heap.tail

def linkedRids (w : HeapWorld) : List RecordId :=
  match w.pending with
  | some (.placed rid) => w.inserted ++ [rid]
  | _ => w.inserted

structure Inv (w : HeapWorld) : Prop where
  wf : ∀ x ∈ w.owned, ∃ p, w.pages x = some p ∧ p.Wf
  route : ∃ route, Route w.pages w.owned w.heap.firstPageId 0 w.lastTail route w.linkedRids ∧ route.Nodup
  tail : w.lastTail.pageId ∈ w.owned ∧
    ∃ p, w.pages w.lastTail.pageId = some p ∧ p.nextPageId = none ∧ p.numTuples = w.lastTail.numTuples
  made : ∀ rid, w.pending = some (.made rid) → rid.pageId ∈ w.owned ∧ rid.pageId ≠ w.heap.tail.pageId ∧
    rid.slotId = 0 ∧ ∃ p, w.pages rid.pageId = some p ∧ p.nextPageId = none ∧ p.numTuples = 1

structure Alike (w w' : HeapWorld) : Prop where
  sub : ∀ x ∈ w.owned, x ∈ w'.owned
  page : ∀ x ∈ w.owned, ∀ p, w.pages x = some p → p.Wf → ∃ p', w'.pages x = some p' ∧ p'.Wf ∧
    p'.nextPageId = p.nextPageId ∧ p'.numTuples = p.numTuples
  fresh : ∀ x ∈ w'.owned, x ∉ w.owned → ∃ p, w'.pages x = some p ∧ p.Wf
  first : w'.heap.firstPageId = w.heap.firstPageId
  tail : w'.lastTail = w.lastTail
  rids : w'.linkedRids = w.linkedRids

variable {w w' : HeapWorld}

theorem Alike.grown (ha : Alike w w') (hi : w.Inv) : Grown w.pages w.owned w'.pages w'.owned := by
  refine ⟨ha.sub, fun x hx p hp => ?_⟩
  obtain ⟨q, hq, hw⟩ := hi.wf x hx
  rw [hp] at hq
  cases hq
  obtain ⟨p', hp', _, hnext, hnum⟩ := ha.page x hx p hp hw
  exact ⟨p', hp', Nat.le_of_eq hnum.symm, fun _ hn => ⟨hnext.trans hn, hnum⟩⟩

theorem Alike.inv (ha : Alike w w') (hi : w.Inv)
    (hmade : ∀ rid, w'.pending = some (.made rid) → rid.pageId ∈ w'.owned ∧ rid.pageId ≠ w'.heap.tail.pageId ∧
      rid.slotId = 0 ∧ ∃ p, w'.pages rid.pageId = some p ∧ p.nextPageId = none ∧ p.numTuples = 1) : w'.Inv where
  wf := by
    intro x hx
    by_cases hold : x ∈ w.owned
    · obtain ⟨p, hp, hw⟩ := hi.wf x hold
      obtain ⟨p', hp', hw', _⟩ := ha.page x hold p hp hw
      exact ⟨p', hp', hw'⟩
    · exact ha.fresh x hx hold
  route := by
    obtain ⟨route, hr, hnd⟩ := hi.route
    rw [ha.first, ha.tail, ha.rids]
    exact ⟨route, hr.grow (ha.grown hi), hnd⟩
  tail := by
    obtain ⟨hown, p, hp, hend, hnum⟩ := hi.tail
    obtain ⟨q, hq, hw⟩ := hi.wf _ hown
    rw [hp] at hq
    cases hq
    obtain ⟨p', hp', _, hnext, hnum'⟩ := ha.page _ hown p hp hw
    rw [ha.tail]
    exact ⟨ha.sub _ hown, p', hp', hnext.trans hend, hnum'.trans hnum⟩
  made := hmade

theorem Alike.of_pages (hp : w'.pages = w.pages) (ho : w'.owned = w.owned)
    (hf : w'.heap.firstPageId = w.heap.firstPageId) (ht : w'.lastTail = w.lastTail)
    (hr : w'.linkedRids = w.linkedRids) : Alike w w' where
  sub := by rw [ho]; exact fun _ h => h
  page := by rw [hp]; exact fun x _ p h hw => ⟨p, h, hw, rfl, rfl⟩
  fresh := by rw [ho]; exact fun x h hn => absurd h hn
  first := hf
  tail := ht
  rids := hr

/-! ## Each step keeps it -/

structure Kept (w w' : HeapWorld) : Prop where
  grown : Grown w.pages w.owned w'.pages w'.owned
  inv : w'.Inv

theorem Inv.keep_refl (hi : w.Inv) : Kept w w := ⟨Grown.refl _ _, hi⟩

theorem Alike.kept (ha : Alike w w') (hi : w.Inv)
    (hmade : ∀ rid, w'.pending = some (.made rid) → rid.pageId ∈ w'.owned ∧ rid.pageId ≠ w'.heap.tail.pageId ∧
      rid.slotId = 0 ∧ ∃ p, w'.pages rid.pageId = some p ∧ p.nextPageId = none ∧ p.numTuples = 1) : Kept w w' :=
  ⟨ha.grown hi, ha.inv hi hmade⟩

theorem Inv.release (hi : w.Inv) (ht : w.lastTail = w.heap.tail) (hr : w.linkedRids = w.inserted) :
    Kept w w.release := by
  have ha : Alike w w.release := .of_pages rfl rfl rfl ht.symm hr.symm
  exact ha.kept hi fun _ h => by cases h

theorem Inv.tryTail (hi : w.Inv) {m : TupleMeta} {d : Bytes} (hp : w.pending = some (.started m d)) (ok : Bool) :
    Kept w (w.tryTail ok m d) := by
  have ht : w.lastTail = w.heap.tail := by simp only [lastTail, hp]
  have hr : w.linkedRids = w.inserted := by simp only [linkedRids, hp]
  unfold HeapWorld.tryTail
  split
  · exact hi.release ht hr
  rename_i page hf
  have hpage := fetchPage_ok hf
  split
  · split
    · exact hi.release ht hr
    rename_i i page' hins
    obtain ⟨hown, p, hp', hend, hnum⟩ := hi.tail
    rw [ht] at hown hp' hnum
    rw [hpage] at hp'
    cases hp'
    obtain ⟨rfl, hnext', hnum'⟩ := TablePage.insert_shape hins
    obtain ⟨q, hq, hw⟩ := hi.wf _ hown
    rw [hpage] at hq
    cases hq
    have hg : Grown w.pages w.owned (Function.update w.pages w.heap.tail.pageId (some page')) w.owned :=
      .update (fun _ h => h) hpage (by omega) fun next hn => by rw [hend] at hn; cases hn
    refine ⟨hg,
      ⟨fun x hx => ?_, ?_, ⟨hown, page', Function.update_self .., hnext'.trans hend, hnum'⟩, fun _ h => by cases h⟩⟩
    · by_cases hxt : x = w.heap.tail.pageId
      · subst hxt
        exact ⟨page', Function.update_self .., TablePage.insert_wf hw hins⟩
      · obtain ⟨p, hp, hw⟩ := hi.wf x hx
        exact ⟨p, by simpa [putPage, Function.update_of_ne hxt] using hp, hw⟩
    · obtain ⟨route, hroute, hnd⟩ := hi.route
      rw [ht, hr] at hroute
      have := (hroute.grow hg).extend (Function.update_self ..) (by omega)
      rw [← hnum] at this
      exact ⟨route, this, hnd⟩
  · have ha : Alike w { w with pending := some (.full m d) } := .of_pages rfl rfl rfl ht.symm hr.symm
    exact ha.kept hi fun _ h => by cases h

theorem Inv.newPage (hi : w.Inv) {m : TupleMeta} {d : Bytes} (hp : w.pending = some (.full m d))
    (fresh : Option Nat) (buf : Lib.Buf) : Kept w (w.newPage fresh buf m d) := by
  have ht : w.lastTail = w.heap.tail := by simp only [lastTail, hp]
  have hr : w.linkedRids = w.inserted := by simp only [linkedRids, hp]
  unfold HeapWorld.newPage
  split
  · exact hi.release ht hr
  rename_i y
  split
  · exact hi.keep_refl
  rename_i hy
  have hyo : y ∉ w.owned := by
    intro hmem
    obtain ⟨p, hp, _⟩ := hi.wf y hmem
    rw [hp] at hy
    exact hy rfl
  -- the heap's other pages are untouched, whatever the new page holds
  have halike : ∀ (page : TablePage) (pending : Option Pending), page.Wf → (∀ rid, pending ≠ some (.placed rid)) →
      Alike w { w with
        pages := Function.update w.pages y (some page), owned := w.owned ++ [y], pending := pending } := by
    intro page pending hw hpend
    refine ⟨fun x hx => List.mem_append_left _ hx, fun x hx p hp hw => ⟨p, ?_, hw, rfl, rfl⟩,
      fun x hx hn => ?_, rfl, ?_, ?_⟩
    · have hne : x ≠ y := fun he => hyo (he ▸ hx)
      exact (Function.update_of_ne hne ..).trans hp
    · rcases List.mem_append.mp hx with hx | hx
      · exact absurd hx hn
      · rw [List.mem_singleton.mp hx]
        exact ⟨page, Function.update_self .., hw⟩
    · rw [ht]
      unfold lastTail
      split
      · rename_i rid h
        exact absurd h (hpend rid)
      · rfl
    · rw [hr]
      unfold linkedRids
      split
      · rename_i rid h
        exact absurd h (hpend rid)
      · rfl
  dsimp only
  split
  · exact (halike _ none (TablePage.init_wf buf) fun _ h => by cases h).kept hi fun _ h => by cases h
  · rename_i i page hins
    obtain ⟨rfl, hnext, hnum⟩ := TablePage.insert_shape hins
    refine (halike page _ (TablePage.insert_wf (TablePage.init_wf buf) hins) fun _ h => by cases h).kept hi
      fun rid h => ?_
    cases h
    refine ⟨List.mem_append_right _ List.mem_cons_self, ?_, rfl, page, Function.update_self .., hnext, hnum⟩
    intro he
    have hown := hi.tail.1
    rw [ht] at hown
    exact hyo ((show y = w.heap.tail.pageId from he) ▸ hown)

theorem Inv.link (hi : w.Inv) {rid : RecordId} (hp : w.pending = some (.made rid)) (ok : Bool) :
    Kept w (w.link ok rid) := by
  have ht : w.lastTail = w.heap.tail := by simp only [lastTail, hp]
  have hr : w.linkedRids = w.inserted := by simp only [linkedRids, hp]
  unfold HeapWorld.link
  split
  · exact hi.release ht hr
  rename_i page hf
  have hpage := fetchPage_ok hf
  obtain ⟨hown, p, hp', hend, hnum⟩ := hi.tail
  rw [ht] at hown hp' hnum
  rw [hpage] at hp'
  cases hp'
  obtain ⟨hyo, hne, hslot, q, hq, hqend, hone⟩ := hi.made rid hp
  have hg : Grown w.pages w.owned
      (Function.update w.pages w.heap.tail.pageId (some (page.setNextPageId rid.pageId))) w.owned :=
    .update (fun _ h => h) hpage (Nat.le_refl _) fun next hn => by rw [hend] at hn; cases hn
  have hq' : Function.update w.pages w.heap.tail.pageId (some (page.setNextPageId rid.pageId)) rid.pageId =
      some q := by
    rw [Function.update_of_ne hne]
    exact hq
  refine ⟨hg, ⟨fun x hx => ?_, ?_, ⟨hyo, q, hq', hqend, ?_⟩, fun _ h => by cases h⟩⟩
  · by_cases hxt : x = w.heap.tail.pageId
    · subst hxt
      obtain ⟨q, hq, hw⟩ := hi.wf _ hx
      rw [hpage] at hq
      cases hq
      exact ⟨_, Function.update_self .., TablePage.setNextPageId_wf hw _⟩
    · obtain ⟨p, hp, hw⟩ := hi.wf x hx
      exact ⟨p, by simpa [putPage, Function.update_of_ne hxt] using hp, hw⟩
  · obtain ⟨route, hroute, hnd⟩ := hi.route
    rw [ht, hr] at hroute
    have hgoes :=
      @Route.goOn _ _ _ _ _ _ _ (page.setNextPageId rid.pageId) q _
          (Function.update_self ..) hnum rfl hyo hq' hone hqend
      hne (hroute.grow hg)
    have hrid : rid = ⟨rid.pageId, 0⟩ := by rw [← hslot]
    refine ⟨route ++ [rid.pageId], ?_, ?_⟩
    · show Route _ _ _ 0 ⟨rid.pageId, rid.slotId + 1⟩ _ (w.inserted ++ [rid])
      rw [hslot]
      rw [← hrid] at hgoes
      exact hgoes
    · rw [List.nodup_append]
      refine ⟨hnd, List.nodup_singleton _, fun a ha b hb he => ?_⟩
      rw [List.mem_singleton.mp hb] at he
      exact hroute.not_mem hq hqend hne (he ▸ ha)
  · show q.numTuples = rid.slotId + 1
    rw [hslot, hone]

theorem Inv.finish (hi : w.Inv) {rid : RecordId} (hp : w.pending = some (.placed rid)) :
    Kept w { w with
      heap := { w.heap with tail := ⟨rid.pageId, rid.slotId + 1⟩ }
      pending := none
      inserted := w.inserted ++ [rid] } := by
  refine Alike.kept ?_ hi fun _ h => by cases h
  refine Alike.of_pages rfl rfl rfl ?_ ?_
  · simp only [lastTail, hp]
  · simp only [linkedRids, hp]

theorem Alike.made (ha : Alike w w') (hi : w.Inv) (hp : w'.pending = w.pending) (hh : w'.heap = w.heap) :
    Kept w w' := by
  refine ha.kept hi fun rid h => ?_
  rw [hp] at h
  obtain ⟨ho, hne, h0, p, hpage, hend, hone⟩ := hi.made rid h
  obtain ⟨q, hq, hw⟩ := hi.wf _ ho
  rw [hpage] at hq
  cases hq
  obtain ⟨p', hp', _, hnext, hnum⟩ := ha.page _ ho p hpage hw
  exact ⟨ha.sub _ ho, hh ▸ hne, h0, p', hp', hnext.trans hend, hnum.trans hone⟩

theorem Inv.write (hi : w.Inv) (rid : RecordId) (sw : SlotWrite) : Kept w (w.write rid sw) := by
  unfold HeapWorld.write
  split
  · exact hi.keep_refl
  rename_i page hpage
  split
  · exact hi.keep_refl
  rename_i page' hok
  have ha : Alike w (w.putPage rid.pageId page') := by
    refine ⟨fun _ h => h, fun x hx p hp hw => ?_, fun x h hn => absurd h hn, rfl, rfl, rfl⟩
    by_cases hxr : x = rid.pageId
    · subst hxr
      rw [hpage] at hp
      cases hp
      obtain ⟨hnext, hnum⟩ := TablePage.applyWrite_shape hw hok
      exact ⟨page', Function.update_self .., (TablePage.applyWrite_spec hw hok).1, hnext, hnum⟩
    · exact ⟨p, by simpa [putPage, Function.update_of_ne hxr] using hp, hw, rfl, rfl⟩
  exact ha.made hi rfl rfl

theorem Inv.other (hi : w.Inv) {x : Nat} (hx : x ∉ w.owned) (page : Option TablePage) :
    Kept w { w with pages := Function.update w.pages x page } := by
  have ha : Alike w { w with pages := Function.update w.pages x page } := by
    refine ⟨fun _ h => h, fun y hy p hp hw => ⟨p, ?_, hw, rfl, rfl⟩, fun x h hn => absurd h hn, rfl, rfl, rfl⟩
    have hne : y ≠ x := fun he => hx (he ▸ hy)
    exact (Function.update_of_ne hne ..).trans hp
  exact ha.made hi rfl rfl

theorem Inv.step (hi : w.Inv) (a : HeapStep) : Kept w (w.step a) := by
  cases a with
  | begin m d =>
    show Kept w (if _ then w else _)
    split
    · exact hi.keep_refl
    · rename_i h
      have hp : w.pending = none := Option.not_isSome_iff_eq_none.mp fun hs => h (.inl hs)
      refine Alike.kept ?_ hi fun _ h => by cases h
      refine Alike.of_pages rfl rfl rfl ?_ ?_
      · simp only [lastTail, hp]
      · simp only [linkedRids, hp]
  | tryTail ok =>
    dsimp only [HeapWorld.step]
    split
    · exact hi.tryTail ‹_› ok
    · exact hi.keep_refl
  | newPage fresh buf =>
    dsimp only [HeapWorld.step]
    split
    · exact hi.newPage ‹_› fresh buf
    · exact hi.keep_refl
  | link ok =>
    dsimp only [HeapWorld.step]
    split
    · exact hi.link ‹_› ok
    · exact hi.keep_refl
  | finish =>
    dsimp only [HeapWorld.step]
    split
    · exact hi.finish ‹_›
    · exact hi.keep_refl
  | write rid sw => exact hi.write rid sw
  | other x page =>
    show Kept w (if _ then w else _)
    split
    · exact hi.keep_refl
    · exact hi.other ‹_› page

theorem create_inv (pages : Nat → Option TablePage) (x : Nat) (buf : Lib.Buf) (reserve : Nat) :
    (create pages x buf reserve).Inv where
  wf := by
    intro y hy
    rw [List.mem_singleton.mp hy]
    exact ⟨_, Function.update_self .., TablePage.init_wf buf⟩
  route :=
    ⟨[x], .last List.mem_cons_self (Function.update_self ..) (Nat.zero_le 0) (Nat.zero_le _),
        List.nodup_singleton x⟩
  tail := ⟨List.mem_cons_self, _, Function.update_self .., rfl, rfl⟩
  made := fun _ h => by cases h

theorem Inv.run (hi : w.Inv) (steps : List HeapStep) : (w.run steps).Inv := by
  induction steps generalizing w with
  | nil => exact hi
  | cons a as ih => exact ih (hi.step a).inv

end HeapWorld

end Cmudb
