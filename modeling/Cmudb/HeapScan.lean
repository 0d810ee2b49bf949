import Mathlib.Data.List.Perm.Subperm
import Cmudb.HeapIterSound

/-!
# Scans of a changing heap

An iterator's passes follow the route it was created with, so together they visit
the record ids that inserts had returned by then, each once and in that order,
whatever other threads do in between. Reopening the heap walks the same route.
-/

namespace Cmudb

namespace TableHeapIterator

/-- The iterator has `rids` before it, along the pages of `route`. -/
def On (pages : Nat → Option TablePage) (owned : List Nat) (it : TableHeapIterator) (route : List Nat)
    (rids : List RecordId) : Prop :=
  it.finished = false ∧
    Route pages owned it.currentPageId it.currentSlotId ⟨it.lastPageId, it.lastPageSlots⟩ route rids

structure Passed (pages : Nat → Option TablePage) (owned route : List Nat) (rids : List RecordId)
    (r : List Visit × TableHeapIterator × PassEnd) : Prop where
  shown : ∀ v ∈ r.1, ((pages v.rid.pageId).bind fun p => p.view v.rid.slotId) = some (v.tmeta, v.bytes)
  rest : ∃ rids', rids = r.1.map Visit.rid ++ rids' ∧
    ((r.2.2 = .ended ∧ r.2.1.finished = true ∧ rids' = []) ∨
      ((r.2.2 = .yielded ∨ r.2.2 = .moved) ∧
        ∃ route', On pages owned r.2.1 route' rids' ∧ route'.length + rids'.length < route.length + rids.length))

variable {pages : Nat → Option TablePage} {owned route : List Nat} {rids : List RecordId} {f : Visit → Bool}
  {it : TableHeapIterator}

theorem atEnd_iff : it.atEnd = true ↔ it.currentPageId = it.lastPageId ∧ it.lastPageSlots ≤ it.currentSlotId := by
  simp [atEnd]

theorem passed_ended (h : On pages owned it route rids) (hend : it.atEnd = true) :
    Passed pages owned route rids ([], it.finish, .ended) := by
  obtain ⟨hpage, hslot⟩ := atEnd_iff.mp hend
  refine ⟨fun _ hv => absurd hv List.not_mem_nil, [], ?_, .inl ⟨rfl, rfl, rfl⟩⟩
  exact h.2.nil_of_end hpage hslot

theorem visitSlots_passed {page : TablePage} (hw : page.Wf) : ∀ (slots : List Slot) (it : TableHeapIterator)
    {rids : List RecordId}, slots = page.slots.drop it.currentSlotId → pages it.currentPageId = some page →
    On pages owned it route rids → Passed pages owned route rids (visitSlots page f slots it)
  | [], it, rids, hs, hp, h => by
    have hi : page.numTuples ≤ it.currentSlotId := List.drop_eq_nil_iff.mp hs.symm
    unfold visitSlots
    split
    · exact passed_ended h ‹_›
    rename_i hend
    have hbefore : it.currentPageId = it.lastPageId → it.currentSlotId < it.lastPageSlots := by
      intro he
      exact Nat.lt_of_not_le fun hle => hend (atEnd_iff.mpr ⟨he, hle⟩)
    obtain ⟨hne, next, route', hnext, rfl, hr⟩ := h.2.next_page hp hi hbefore
    rw [hnext]
    dsimp only
    rw [if_pos hne]
    refine ⟨fun _ hv => absurd hv List.not_mem_nil, rids, rfl, .inr ⟨.inr rfl, route', ⟨h.1, hr⟩, ?_⟩⟩
    rw [List.length_cons]
    omega
  | s :: rest, it, rids, hs, hp, h => by
    have hi : it.currentSlotId < page.numTuples := by
      apply Nat.lt_of_not_le
      intro hle
      rw [List.drop_eq_nil_of_le hle] at hs
      cases hs
    have hdrop := List.drop_eq_getElem_cons hi
    rw [← hs] at hdrop
    obtain ⟨hs0, hrest⟩ := List.cons.inj hdrop
    have hslot : page.slot it.currentSlotId = some s := by
      rw [hs0]
      exact List.getElem?_eq_getElem hi
    unfold visitSlots
    split
    · exact passed_ended h ‹_›
    rename_i hend
    have hbefore : it.currentPageId = it.lastPageId → it.currentSlotId < it.lastPageSlots := by
      intro he
      exact Nat.lt_of_not_le fun hle => hend (atEnd_iff.mpr ⟨he, hle⟩)
    obtain ⟨rids', rfl, hr⟩ := h.2.advance hp hi hbefore
    have hon : On pages owned { it with currentSlotId := it.currentSlotId + 1 } route rids' := ⟨h.1, hr⟩
    have hview : ((pages it.currentPageId).bind fun p => p.view it.currentSlotId) =
        some (s.tmeta, Lib.readAt page.buf s.regionStart s.size) := by
      rw [hp]
      exact TablePage.view_of_slot hslot
    rw [hw.tupleBytes hslot]
    dsimp only
    split
    · refine ⟨fun v hv => ?_, rids', rfl, .inr ⟨.inl rfl, route, hon, ?_⟩⟩
      · rw [List.mem_singleton.mp hv]
        exact hview
      · rw [List.length_cons]
        omega
    · obtain ⟨hshown, rids'', hrids, hcase⟩ := visitSlots_passed hw rest
        { it with currentSlotId := it.currentSlotId + 1 } hrest hp hon
      refine ⟨fun v hv => ?_, rids'', ?_, ?_⟩
      · rcases List.mem_cons.mp hv with rfl | hv
        · exact hview
        · exact hshown v hv
      · rw [List.map_cons, List.cons_append, ← hrids]
      · rcases hcase with hcase | ⟨hout, route', hon', hlen⟩
        · exact .inl hcase
        · refine .inr ⟨hout, route', hon', ?_⟩
          rw [List.length_cons]
          omega

theorem pass_passed (hwf : ∀ x ∈ owned, ∃ p, pages x = some p ∧ p.Wf) (h : On pages owned it route rids) :
    Passed pages owned route rids (it.pass pages true f) := by
  unfold pass
  rw [h.1, Bool.false_or]
  split
  · exact passed_ended h ‹_›
  obtain ⟨page, hp, hw⟩ := hwf _ h.2.start_mem
  rw [fetchPage_of_wf hp hw]
  exact visitSlots_passed hw _ it rfl hp h

/-- A pass whose page cannot be read fails, unless there is nothing left to read. -/
theorem pass_unread (h : On pages owned it route rids) :
    (it.pass pages false f = ([], it.finish, .ended) ∧ rids = []) ∨
    it.pass pages false f = ([], it.finish, .failed .bpm) := by
  unfold pass fetchPage
  rw [h.1, Bool.false_or]
  split
  · obtain ⟨hpage, hslot⟩ := atEnd_iff.mp ‹_›
    exact .inl ⟨rfl, h.2.nil_of_end hpage hslot⟩
  · right
    cases pages it.currentPageId <;> rfl

theorem pass_finished (ok : Bool) (h : it.finished = true) : it.pass pages ok f = ([], it.finish, .ended) := by
  unfold pass
  rw [h]
  rfl

end TableHeapIterator

/-! ## Whole scans -/

/-- What the passes of an iterator that had `rids` before it, on `size` pages and slots, come to. -/
structure Scanned (rids : List RecordId) (size : Nat) (ps : List PassRecord) : Prop where
  visits : visitedRids ps <+: rids
  shown : ∀ p ∈ ps, ∀ v ∈ p.visits, p.world.slot v.rid = some (v.tmeta, v.bytes)
  failed : ∀ p ∈ ps, ∀ e, p.result = .failed e → p.ok = false
  complete : (∀ p ∈ ps, p.ok = true) → (∃ p ∈ ps, p.result = .ended) → visitedRids ps = rids
  ends : (∀ p ∈ ps, p.ok = true) → size < ps.length → ∃ p ∈ ps, p.result = .ended

theorem Scanned.mono {rids : List RecordId} {size size' : Nat} {ps : List PassRecord} (h : Scanned rids size ps)
    (hle : size ≤ size') : Scanned rids size' ps :=
  { h with ends := fun hok hlt => h.ends hok (Nat.lt_of_le_of_lt hle hlt) }

namespace HeapWorld

theorem scan_pass (w : HeapWorld) (it : TableHeapIterator) (ok : Bool) (f : Visit → Bool) (es : List ScanEvent) :
    w.scan it (.pass ok f :: es) = ⟨w, ok, (it.pass w.pages ok f).1, (it.pass w.pages ok f).2.2⟩ ::
      w.scan (it.pass w.pages ok f).2.1 es := rfl

theorem scan_finished (es : List ScanEvent) : ∀ {w : HeapWorld} {it : TableHeapIterator}, it.finished = true →
    ∀ p ∈ w.scan it es, p.visits = [] ∧ p.result = .ended := by
  induction es with
  | nil => exact fun _ _ hp => absurd hp List.not_mem_nil
  | cons e es ih =>
    intro w it h p hp
    cases e with
    | step a => exact ih h p hp
    | pass ok f =>
      rw [scan_pass, TableHeapIterator.pass_finished ok h] at hp
      rcases List.mem_cons.mp hp with rfl | hp
      · exact ⟨rfl, rfl⟩
      · exact ih rfl p hp

theorem visitedRids_nil {ps : List PassRecord} (h : ∀ p ∈ ps, p.visits = [] ∧ p.result = .ended) :
    visitedRids ps = [] := by
  unfold visitedRids
  rw [List.flatMap_eq_nil_iff]
  intro p hp
  rw [(h p hp).1]
  rfl

theorem visitedRids_cons (p : PassRecord) (ps : List PassRecord) :
    visitedRids (p :: ps) = p.visits.map Visit.rid ++ visitedRids ps := by
  simp [visitedRids]

/-- The pass that finishes the iterator, because it is at its end or because a page cannot be read. -/
theorem Scanned.last {p : PassRecord} {rids : List RecordId} {size : Nat} {ps : List PassRecord}
    (hv : p.visits.map Visit.rid <+: rids) (hshown : ∀ v ∈ p.visits, p.world.slot v.rid = some (v.tmeta, v.bytes))
    (hfail : ∀ e, p.result = .failed e → p.ok = false)
    (hok : p.ok = true → p.result = .ended ∧ p.visits.map Visit.rid = rids)
    (h : ∀ q ∈ ps, q.visits = [] ∧ q.result = .ended) : Scanned rids size (p :: ps) := by
  have hall : visitedRids (p :: ps) = p.visits.map Visit.rid := by
    rw [visitedRids_cons, visitedRids_nil h, List.append_nil]
  refine ⟨hall ▸ hv, fun q hq v hqv => ?_, fun q hq e he => ?_, fun hoks _ => ?_, fun hoks _ => ?_⟩
  · rcases List.mem_cons.mp hq with rfl | hq
    · exact hshown v hqv
    · rw [(h q hq).1] at hqv
      cases hqv
  · rcases List.mem_cons.mp hq with rfl | hq
    · exact hfail e he
    · rw [(h q hq).2] at he
      cases he
  · rw [hall, (hok (hoks p List.mem_cons_self)).2]
  · exact ⟨p, List.mem_cons_self, (hok (hoks p List.mem_cons_self)).1⟩

theorem Scanned.cons {p : PassRecord} {rids rids' : List RecordId} {size size' : Nat} {ps : List PassRecord}
    (hrids : rids = p.visits.map Visit.rid ++ rids')
    (hshown : ∀ v ∈ p.visits, p.world.slot v.rid = some (v.tmeta, v.bytes))
    (hres : p.result = .yielded ∨ p.result = .moved) (hlt : size' < size) (h : Scanned rids' size' ps) :
    Scanned rids size (p :: ps) := by
  have hend : p.result ≠ .ended := by
    rcases hres with hr | hr <;> rw [hr] <;> decide
  refine ⟨?_, fun q hq => ?_, fun q hq e he => ?_, fun hoks hex => ?_, fun hoks hlen => ?_⟩
  · rw [visitedRids_cons, hrids]
    exact (List.prefix_append_right_inj _).mpr h.visits
  · rcases List.mem_cons.mp hq with rfl | hq
    · exact hshown
    · exact h.shown q hq
  · rcases List.mem_cons.mp hq with rfl | hq
    · rcases hres with hr | hr <;> rw [hr] at he <;> cases he
    · exact h.failed q hq e he
  · obtain ⟨q, hq, he⟩ := hex
    have hq' : q ∈ ps := by
      rcases List.mem_cons.mp hq with rfl | hq
      · exact absurd he hend
      · exact hq
    rw [visitedRids_cons, hrids, h.complete (fun q hq => hoks q (List.mem_cons_of_mem p hq)) ⟨q, hq', he⟩]
  · rw [List.length_cons] at hlen
    obtain ⟨q, hq, he⟩ := h.ends (fun q hq => hoks q (List.mem_cons_of_mem p hq)) (by omega)
    exact ⟨q, List.mem_cons_of_mem p hq, he⟩

/-- An iterator visits what it has before it, whatever happens between its passes. -/
theorem scan_scanned (es : List ScanEvent) :
    ∀ {w : HeapWorld} {it : TableHeapIterator} {route : List Nat} {rids : List RecordId},
    w.Inv → it.On w.pages w.owned route rids → Scanned rids (route.length + rids.length) (w.scan it es) := by
  induction es with
  | nil =>
    intro w it route rids _ _
    refine ⟨List.nil_prefix, ?_, ?_, fun _ hex => ?_, fun _ hlen => absurd hlen (Nat.not_lt_zero _)⟩
    · exact fun _ hp => absurd hp List.not_mem_nil
    · exact fun _ hp => absurd hp List.not_mem_nil
    · obtain ⟨_, hp, _⟩ := hex
      exact absurd hp List.not_mem_nil
  | cons e es ih =>
    intro w it route rids hi hon
    cases e with
    | step a => exact ih (hi.step a).inv ⟨hon.1, hon.2.grow (hi.step a).grown⟩
    | pass ok f =>
      rw [scan_pass]
      cases ok with
      | true =>
        obtain ⟨hshown, rids', hrids, ⟨hres, hfin, rfl⟩ | ⟨hres, route', hon', hlt⟩⟩ := it.pass_passed hi.wf hon
        · rw [List.append_nil] at hrids
          refine Scanned.last (hrids ▸ List.prefix_refl _) hshown (fun e he => ?_) (fun _ => ⟨hres, hrids.symm⟩)
            (scan_finished es hfin)
          rw [hres] at he
          cases he
        · exact Scanned.cons hrids hshown hres hlt (ih hi hon')
      | false =>
        have hnil : ∀ v ∈ ([] : List Visit), w.slot v.rid = some (v.tmeta, v.bytes) :=
          fun _ hv => absurd hv List.not_mem_nil
        rcases it.pass_unread hon with ⟨hp, hrids⟩ | hp
        · rw [hp]
          exact Scanned.last List.nil_prefix hnil (fun _ _ => rfl) (fun h => by cases h) (scan_finished es rfl)
        · rw [hp]
          exact Scanned.last List.nil_prefix hnil (fun _ _ => rfl) (fun h => by cases h) (scan_finished es rfl)

end HeapWorld

/-! ## Reopening -/

section
variable {pages : Nat → Option TablePage} {owned route : List Nat} {rids : List RecordId} {x i : Nat} {tail : Tail}

theorem Route.findTail (hwf : ∀ x ∈ owned, ∃ p, pages x = some p ∧ p.Wf)
    (hend : ∃ p, pages tail.pageId = some p ∧ p.nextPageId = none ∧ p.numTuples = tail.numTuples)
    (h : Route pages owned x i tail route rids) :
    ∀ {fuel : Nat} {seen : List Nat}, route.Nodup → (∀ y ∈ route, y ∉ seen) →
    route.length ≤ fuel → TableHeap.findTail pages (fun _ => true) fuel seen x = some (.ok tail) := by
  induction h with
  | @last x _ n _ ho hp =>
    intro fuel seen _ hseen hfuel
    obtain ⟨p, hp', hnext, hnum⟩ := hend
    obtain ⟨q, hq, hw⟩ := hwf x ho
    rw [hp'] at hq
    cases hq
    obtain ⟨fuel, rfl⟩ : ∃ k, fuel = k + 1 := ⟨fuel - 1, by simp at hfuel; omega⟩
    unfold TableHeap.findTail
    rw [if_neg (hseen x List.mem_cons_self), fetchPage_of_wf hp' hw]
    dsimp only
    rw [hnext]
    dsimp only
    rw [hnum]
  | @more x _ next _ p route _ ho _ hp hnext _ hr ih =>
    intro fuel seen hnd hseen hfuel
    obtain ⟨q, hq, hw⟩ := hwf x ho
    rw [hp] at hq
    cases hq
    obtain ⟨hx, hnd⟩ := List.nodup_cons.mp hnd
    obtain ⟨fuel, rfl⟩ : ∃ k, fuel = k + 1 := ⟨fuel - 1, by simp at hfuel; omega⟩
    obtain ⟨r, hrp, _⟩ := hwf next hr.start_mem
    unfold TableHeap.findTail
    rw [if_neg (hseen x List.mem_cons_self), fetchPage_of_wf hp hw]
    dsimp only
    rw [hnext]
    dsimp only
    rw [hrp, if_neg (by simp)]
    apply ih hend hnd
    · intro y hy hys
      rcases List.mem_cons.mp hys with rfl | hys
      · exact hx hy
      · exact hseen y (List.mem_cons_of_mem x hy) hys
    · simpa using hfuel

end

namespace HeapWorld

theorem Inv.idle {w : HeapWorld} (hi : w.Inv) (hq : w.pending = none) :
    ∃ route, Route w.pages w.owned w.heap.firstPageId 0 w.heap.tail route w.inserted ∧ route.Nodup ∧
      ∃ p, w.pages w.heap.tail.pageId = some p ∧ p.nextPageId = none ∧ p.numTuples = w.heap.tail.numTuples := by
  have ht : w.lastTail = w.heap.tail := by simp only [lastTail, hq]
  have hr : w.linkedRids = w.inserted := by simp only [linkedRids, hq]
  obtain ⟨route, hroute, hnd⟩ := hi.route
  rw [ht, hr] at hroute
  exact ⟨route, hroute, hnd, ht ▸ hi.tail.2⟩

theorem step_updateReserve (w : HeapWorld) (a : HeapStep) :
    (w.step a).heap.updateReserve = w.heap.updateReserve := by
  cases a with
  | begin m d =>
    dsimp only [step]
    split <;> rfl
  | tryTail ok =>
    dsimp only [step]
    split
    · unfold tryTail
      split
      · rfl
      · split
        · split <;> rfl
        · rfl
    · rfl
  | newPage fresh buf =>
    dsimp only [step]
    split
    · unfold newPage
      split
      · rfl
      · split
        · rfl
        · dsimp only
          split <;> rfl
    · rfl
  | link ok =>
    dsimp only [step]
    split
    · unfold link
      split <;> rfl
    · rfl
  | finish =>
    dsimp only [step]
    split <;> rfl
  | write rid sw =>
    dsimp only [step]
    unfold write
    split
    · rfl
    · split <;> rfl
  | other x page =>
    dsimp only [step]
    split <;> rfl

theorem run_updateReserve (steps : List HeapStep) :
    ∀ w : HeapWorld, (w.run steps).heap.updateReserve = w.heap.updateReserve := by
  induction steps with
  | nil => exact fun _ => rfl
  | cons a as ih => exact fun w => (ih (w.step a)).trans (step_updateReserve w a)

/-- A heap made by `TableHeap::new` and changed by any steps of any threads: an iterator created
while no insert holds the tail lock visits what inserts had returned by then, whatever happens
between its passes, and `open` finds the same heap. -/
theorem scan_visits_inserted (pages : Nat → Option TablePage) (pageId : Nat) (buf : Lib.Buf) (updateReserve : Nat)
    (steps : List HeapStep) (w : HeapWorld) (hw : w = (create pages pageId buf updateReserve).run steps)
    (hq : w.pending = none) :
    w.inserted.Nodup ∧
    (∀ es, Scanned w.inserted (w.owned.length + w.inserted.length) (w.scan w.heap.iter es)) ∧
    ∀ fuel, w.owned.length ≤ fuel → ∃ th, TableHeap.openHeap w.pages (fun _ => true) fuel w.heap.firstPageId =
      some (.ok th) ∧
      th.tail = w.heap.tail ∧ th.withUpdateReserve updateReserve = w.heap := by
  have hi : w.Inv := hw ▸ (create_inv pages pageId buf updateReserve).run steps
  have hreserve : w.heap.updateReserve = updateReserve := by
    rw [hw, run_updateReserve]
    rfl
  obtain ⟨route, hroute, hnd, hend⟩ := hi.idle hq
  have hlen : route.length ≤ w.owned.length := (List.subperm_of_subset hnd hroute.mem_owned).length_le
  refine ⟨hroute.nodup hnd, fun es => ?_, fun fuel hfuel => ?_⟩
  · have hon : w.heap.iter.On w.pages w.owned route w.inserted := ⟨rfl, hroute⟩
    exact (scan_scanned es hi hon).mono (Nat.add_le_add_right hlen _)
  · have htail := hroute.findTail hi.wf hend hnd (fun _ _ h => absurd h List.not_mem_nil) (Nat.le_trans hlen hfuel)
    refine ⟨w.heap.withUpdateReserve 0, ?_, rfl, ?_⟩
    · unfold TableHeap.openHeap
      rw [htail]
      rfl
    · rw [← hreserve]
      rfl

/-- Two rows on one page, the second inserted after the iterator was created. -/
theorem scan_visits_first_row : ((create (fun _ => none) 1 (fun _ => 0) 0).run
      [.begin ⟨.commit 0, false⟩ [7], .tryTail true, .finish]).inserted = [⟨1, 0⟩] ∧
    visitedRids (((create (fun _ => none) 1 (fun _ => 0) 0).run
        [.begin ⟨.commit 0, false⟩ [7], .tryTail true, .finish]).scan ⟨1, 0, 1, 1, false⟩
      [.step (.begin ⟨.commit 0, false⟩ [8]), .step (.tryTail true), .step .finish,
        .pass true fun _ => false]) = [⟨1, 0⟩] :=
  ⟨by decide, ((scan_visits_inserted (fun _ => none) 1 (fun _ => 0) 0
    [.begin ⟨.commit 0, false⟩ [7], .tryTail true, .finish] _ rfl (by decide)).2.1 _).complete
      (by simp [scan, TableHeapIterator.pass]) ⟨_, List.mem_cons_self, rfl⟩⟩

end HeapWorld

/-! ## Opening any pages -/

namespace TableHeap

section
variable (pages : Nat → Option TablePage) (ok : Nat → Bool)

inductive Walked (first : Nat) : List Nat → Nat → Prop where
  | start : Walked first [] first
  | link {seen : List Nat} {x next : Nat} {p : TablePage} : Walked first seen x → x ∉ seen →
      fetchPage pages (ok x) x = .ok p →
    p.nextPageId = some next → pages next ≠ none → Walked first (x :: seen) next

inductive Ends (seen : List Nat) (x : Nat) : Except TableHeapError Tail → Prop where
  | cycle : x ∈ seen → Ends seen x (.error (.pageChainCycle x))
  | unread {e : TableHeapError} : x ∉ seen → fetchPage pages (ok x) x = .error e → Ends seen x (.error e)
  | unallocated {p : TablePage} {next : Nat} : x ∉ seen → fetchPage pages (ok x) x = .ok p →
      p.nextPageId = some next →
    pages next = none → Ends seen x (.error (.unallocatedPageLink x next))
  | tail {p : TablePage} : x ∉ seen → fetchPage pages (ok x) x = .ok p → p.nextPageId = none →
      Ends seen x (.ok ⟨x, p.numTuples⟩)

end

variable {pages : Nat → Option TablePage} {ok : Nat → Bool} {first : Nat} {allocated : List Nat}

/-- Every page is walked once at most, so the walk ends. -/
theorem findTail_ends (hfinite : ∀ x, pages x ≠ none → x ∈ allocated) :
    ∀ {fuel : Nat} {seen : List Nat} {x : Nat}, Walked pages ok first seen x →
    seen.Nodup → seen ⊆ allocated → allocated.length < fuel + seen.length →
    ∃ seen' x' r, Walked pages ok first seen' x' ∧ Ends pages ok seen' x' r ∧
    findTail pages ok fuel seen x = some r := by
  intro fuel
  induction fuel with
  | zero =>
    intro seen x _ hnd hsub hfuel
    have := (List.subperm_of_subset hnd hsub).length_le
    omega
  | succ fuel ih =>
    intro seen x hw hnd hsub hfuel
    unfold findTail
    split
    · rename_i hx
      exact ⟨seen, x, _, hw, .cycle hx, rfl⟩
    rename_i hx
    cases hfetch : fetchPage pages (ok x) x with
    | error e => exact ⟨seen, x, _, hw, .unread hx hfetch, rfl⟩
    | ok p =>
      dsimp only
      cases hnext : p.nextPageId with
      | none => exact ⟨seen, x, _, hw, .tail hx hfetch hnext, rfl⟩
      | some next =>
        dsimp only
        split
        · rename_i hnone
          exact ⟨seen, x, _, hw, .unallocated hx hfetch hnext (Option.isNone_iff_eq_none.mp hnone), rfl⟩
        · rename_i hsome
          have hmem : x ∈ allocated := hfinite x (by rw [fetchPage_ok hfetch]; exact Option.some_ne_none p)
          refine ih (hw.link hx hfetch hnext (mt Option.isNone_iff_eq_none.mpr hsome))
            (List.nodup_cons.mpr ⟨hx, hnd⟩)
            (List.cons_subset.mpr ⟨hmem, hsub⟩) ?_
          rw [List.length_cons]
          omega

/-- Whatever is on the pages, `open` follows the links from the first page until it can tell what it has found. -/
theorem open_ends (hfinite : ∀ x, pages x ≠ none → x ∈ allocated) {fuel : Nat} (hfuel : allocated.length < fuel) :
    ∃ seen x r, Walked pages ok first seen x ∧ Ends pages ok seen x r ∧
      openHeap pages ok fuel first = some (r.map fun tail => ⟨first, tail, 0⟩) := by
  obtain ⟨seen, x, r, hw, he, hr⟩ :=
    @findTail_ends _ ok _ _ hfinite _ _ _ .start List.nodup_nil (List.nil_subset _) hfuel
  exact ⟨seen, x, r, hw, he, by rw [openHeap, hr]; rfl⟩

def looping (x : Nat) : Option TablePage :=
  if x = 1 then some ((TablePage.init fun _ => 0).setNextPageId 1) else none

theorem open_ends_on_loop : ∃ seen x r, Walked looping (fun _ => true) 1 seen x ∧
    Ends looping (fun _ => true) seen x r ∧
    openHeap looping (fun _ => true) 2 1 = some (r.map fun tail => ⟨1, tail, 0⟩) :=
  @open_ends looping (fun _ => true) 1 [1] (fun x hx => by simpa [looping] using hx) 2 (by decide)

end TableHeap

end Cmudb
