import Cmudb.Calls
import Cmudb.Effects

/-!
# Snapshot reads

A running transaction sees its own latest write of a record id and otherwise
the newest version committed at or before its snapshot, at every point of a
run. Its own commit is the one exception: a slot it has stamped shows it the
snapshot's version again until the commit is published.
-/

namespace Cmudb

/-- `shown` is what the version with the greatest timestamp at or before `readTs` shows. -/
def ShowsNewest (readTs : Nat) (versions : List Version) (shown : Option Bytes) : Prop :=
  (∃ v ∈ versions, v.ts ≤ readTs ∧ (∀ u ∈ versions, u.ts ≤ readTs → u.ts ≤ v.ts) ∧ shown = v.data) ∨
    (∀ v ∈ versions, readTs < v.ts) ∧ shown = none

theorem showsNewest_snapshot {readTs : Nat} {vs : List Version} (h : vs.Pairwise fun v u => u.ts < v.ts) :
    ShowsNewest readTs vs ((snapshot readTs vs).bind Version.data) := by
  unfold snapshot
  induction vs with
  | nil => exact .inr ⟨fun v hv => (by cases hv), rfl⟩
  | cons w vs ih =>
    obtain ⟨hw, hvs⟩ := List.pairwise_cons.mp h
    by_cases hle : w.ts ≤ readTs
    · refine .inl ⟨w, by simp, hle, fun u hu _ => ?_, by simp [hle]⟩
      rcases List.mem_cons.mp hu with rfl | hu
      · exact Nat.le_refl _
      · exact Nat.le_of_lt (hw u hu)
    · rw [List.find?_cons_of_neg (by simpa using hle)]
      rcases ih hvs with ⟨v, hv, h1, h2, h3⟩ | ⟨h1, h2⟩
      · refine .inl ⟨v, List.mem_cons_of_mem _ hv, h1, fun u hu hu' => ?_, h3⟩
        rcases List.mem_cons.mp hu with rfl | hu
        · exact absurd hu' hle
        · exact h2 u hu hu'
      · refine .inr ⟨fun v hv => ?_, h2⟩
        rcases List.mem_cons.mp hv with rfl | hv
        · exact Nat.lt_of_not_le hle
        · exact h1 v hv

theorem snapshot_append {readTs : Nat} {l vs : List Version} (h : ∀ v ∈ l, readTs < v.ts) :
    snapshot readTs (l ++ vs) = snapshot readTs vs := by
  unfold snapshot
  rw [List.find?_append]
  have : l.find? (fun v => v.ts ≤ readTs) = none := by
    rw [List.find?_eq_none]
    intro v hv
    have := h v hv
    simp only [decide_eq_true_eq]
    omega
  rw [this, Option.none_or]

namespace TransactionManager

def visible (s : TransactionManager) (id : Nat) (txn : Transaction) (r : RecordId) : Option Bytes :=
  match s.readVisible id txn r with
  | .ok shown => shown
  | .error _ => none

section
variable {base : RecordId → List Version} {s s' : TransactionManager} {id : Nat} {txn : Transaction}
  {r : RecordId}

theorem visible_of_slot {m : TupleMeta} {b : Bytes} (hs : s.heap.slot r = some (m, b)) :
    s.visible id txn r = visibleVersion id txn (s.versions r) m b := by
  simp only [visible, readVisible, (Heap.readSlot_eq _ _ _).mpr hs]

theorem visible_of_none (hs : s.heap.slot r = none) : s.visible id txn r = none := by
  obtain ⟨e, he⟩ := Heap.readSlot_of_none hs
  simp only [visible, readVisible, he]

theorem visible_own {m : TupleMeta} {b : Bytes} (hs : s.heap.slot r = some (m, b)) (hm : m.ts = .txn id) :
    s.visible id txn r = live m.isDeleted b := by
  rw [visible_of_slot hs]
  simp [visibleVersion, sees, hm]

theorem Covers.shown {l : List Entry} (hc : Covers base s r l) {ρ : Nat} (hρ : s.Reader ρ) :
    (entryAt ρ l).bind Prod.snd = (snapshot ρ (s.versionsOf base r)).bind Version.data := by
  rw [hc.serves ρ hρ, snapshot_entry]
  cases snapshot ρ (s.versionsOf base r) <;> rfl

/-- Any other slot shows a transaction the entry it stops at among committed ones. -/
theorem Inv.visible_covers (h : Inv base s) (ht : s.txns id = some txn)
    (hother : ∀ m b, s.heap.slot r = some (m, b) → m.ts ≠ .txn id) :
    ∃ l, Covers base s r l ∧ s.visible id txn r = (entryAt txn.readTs l).bind Prod.snd := by
  have hread := (h.handles id txn ht).2.1
  have hnone : s.versionsOf base r = [] → Covers base s r [] := fun hv => by
    constructor
    · rw [hv]; exact List.nil_prefix
    · intro ρ _; rw [hv]; rfl
  cases h.rows r with
  | absent slot _ new => exact ⟨[], hnone new, by rw [visible_of_none slot]; rfl⟩
  | dead b slot _ new =>
    refine ⟨[], hnone new, ?_⟩
    rw [visible_of_slot slot]
    simp [visibleVersion, sees, TupleMeta.dead, live, entryAt]
  | idle m b t slot stamp _ covers =>
    refine ⟨_, covers, ?_⟩
    rw [visible_of_slot slot]
    simp only [visibleVersion, sees, stamp, entryAt, List.find?_cons, slotEntry, Stamp.le_commit]
    by_cases hle : t ≤ txn.readTs
    · simp [hle]
    · simp only [hle, decide_false, Bool.or_false]
      rw [visibleUndo_eq]
      rfl
  | owned i t m b slot stamp own =>
    have hsee : sees id txn m.ts = false := by
      have hne := hother m b slot
      unfold sees
      rcases currentStamp_cases s i r with hc | hc
      · rw [stamp, hc] at hne ⊢
        simpa using hne
      · rw [stamp, hc]
        simp; omega
    exact ⟨_, own.covers, by rw [visible_of_slot slot, visibleVersion, if_neg (by simp [hsee]), visibleUndo_eq]⟩

theorem Inv.visible_committed (h : Inv base s) (ht : s.txns id = some txn) (hu : txn.unfinished = true)
    (hother : ∀ m b, s.heap.slot r = some (m, b) → m.ts ≠ .txn id) :
    s.visible id txn r = (snapshot txn.readTs (s.versionsOf base r)).bind Version.data := by
  obtain ⟨l, hcovers, hv⟩ := h.visible_covers ht hother
  rw [hv, hcovers.shown (.inl (h.mem_running ht hu))]

/-- A slot with a transaction's id carries the current stamp of that transaction. -/
theorem Inv.currentStamp_of_txn (h : Inv base s) {m : TupleMeta} {b : Bytes} (hs : s.heap.slot r = some (m, b))
    (hm : m.ts = .txn id) : m.ts = s.currentStamp id r := by
  cases h.rows r with
  | absent slot => rw [hs] at slot; cases slot
  | dead b' slot => rw [hs] at slot; cases slot; cases hm
  | idle m' b' t slot stamp =>
    rw [hs] at slot
    cases slot
    rw [stamp] at hm
    cases hm
  | owned i t m' b' slot stamp own =>
    rw [hs] at slot
    cases slot
    rcases currentStamp_cases s i r with hc | hc
    · rw [stamp, hc] at hm
      cases hm
      exact stamp
    · rw [stamp, hc] at hm; cases hm

/-- A slot that carries an unpublished timestamp is in the write set of the commit under way. -/
theorem Inv.stamped_listed (h : Inv base s) (hr : r ∈ s.stampedRids id) :
    ∃ t, s.txns id = some t ∧ t.state = .running ∧ r ∈ t.writeSet.map Prod.fst := by
  have hlatch := h.latch
  unfold stampedRids at hr
  unfold LatchInv at hlatch
  split at hr
  · rename_i i ts todo done hl
    rw [hl] at hlatch
    split at hr
    · rename_i hi
      subst hi
      obtain ⟨_, t, ht, hrun, hp⟩ := hlatch
      exact ⟨t, ht, hrun, hp.mem_iff.mp (List.mem_append_right _ hr)⟩
    · cases hr
  · rename_i i ts done e hl
    rw [hl] at hlatch
    split at hr
    · rename_i hi
      subst hi
      obtain ⟨_, t, ht, hrun, _, hk⟩ := hlatch
      exact ⟨t, ht, hrun, hk r hr⟩
    · cases hr
  · cases hr

theorem Inv.sees_view (h : Inv base s) (ht : s.txns id = some txn) (hr : txn.state = .running) :
    (r ∉ s.stampedRids id → ∀ new, latestWrite id r s.events = some new → s.visible id txn r = new) ∧
      (r ∈ s.stampedRids id ∨ latestWrite id r s.events = none →
        s.visible id txn r = (snapshot txn.readTs (s.versionsOf base r)).bind Version.data) := by
  have hu := unfinished_of_running hr
  constructor
  · intro hns new hw
    obtain ⟨m, b, hs, hm, own⟩ := h.owned_of_held ht hu (h.written id txn r ht hr (by rw [hw]; rfl))
    have hts : m.ts = .txn id := by rw [hm]; simp [currentStamp, hns]
    rw [visible_own hs hts]
    have := own.latest
    rw [hw] at this
    cases this
    rfl
  · intro hcase
    refine h.visible_committed ht hu fun m b hs hm => ?_
    rcases hcase with hst | hnone
    · -- the slot of a stamped row carries the unpublished timestamp
      obtain ⟨t, ht', _, hkey⟩ := h.stamped_listed hst
      rw [ht] at ht'
      cases ht'
      obtain ⟨m', b', hs', hm'⟩ := h.held id txn r ht hu hkey
      rw [hs] at hs'
      cases hs'
      rw [hm] at hm'
      simp [currentStamp, hst] at hm'
    · obtain ⟨t, own⟩ := h.owner hs (h.currentStamp_of_txn hs hm)
      have := own.latest
      rw [hnone] at this
      cases this

end

end TransactionManager

theorem latestWrite_append {id : Nat} {r : RecordId} {l es : List Event} (h : latestWrite id r (l ++ es) = none) :
    latestWrite id r es = none := by
  induction l with
  | nil => exact h
  | cons ev l ih =>
    cases ev with
    | began => exact ih h
    | committed => exact ih h
    | wrote i rid new old =>
      rw [List.cons_append, latestWrite_wrote] at h
      split at h
      · cases h
      · exact ih h

namespace Engine

def openCalls (e : Engine) (a : Action) : Bool := e.noStorageFailure a && e.onOpen a

theorem openCalls_putBack (e : Engine) (a : Action) (h : e.openCalls a = true) : e.putBack a = true :=
  noStorageFailure_putBack (Bool.and_eq_true_iff.mp h).1

/-- Reads of a running transaction at any point of a run. -/
theorem snapshot_reads {cat : Catalog} {e₀ e : Engine} {id : Nat} {txn : Transaction} (h₀ : e₀.Initial)
    (hr : Lib.Steps (step cat) (fun e a => e.openCalls a = true) e₀ e)
    (ht : e.mgr.txns id = some txn) (hrun : txn.state = .running) (r : RecordId) :
    (∀ new, latestWrite id r e.mgr.events = some new → r ∉ e.mgr.stampedRids id → e.mgr.visible id txn r = new) ∧
    (latestWrite id r e.mgr.events = none ∨ r ∈ e.mgr.stampedRids id →
      ShowsNewest txn.readTs (history e₀.mgr.base r e.mgr.events) (e.mgr.visible id txn r)) ∧
    (∀ e' txn', Lib.Steps (step cat) (fun e a => e.openCalls a = true) e e' → e'.mgr.txns id = some txn' →
      txn'.state = .running → latestWrite id r e'.mgr.events = none →
      e'.mgr.visible id txn' r = e.mgr.visible id txn r) := by
  have hinv := run_inv openCalls_putBack h₀ hr
  obtain ⟨hown, hsnap⟩ := hinv.sees_view (r := r) ht hrun
  refine ⟨fun new hw hns => hown hns new hw, fun hc => ?_, fun e' txn' hr' ht' hrun' hnone' => ?_⟩
  · rw [hsnap hc.symm]
    exact showsNewest_snapshot (hinv.sorted r)
  · have hrm := steps_mgr openCalls_putBack (fun e _ _ ha hs => putBack_mgr (openCalls_putBack e _ ha) hs) hr'
    obtain ⟨hinv', hgrown, hkept⟩ := hinv.run_kept hrm
    obtain ⟨t, h1, h2⟩ := hkept id txn ht
    rw [ht'] at h1
    cases h1
    obtain ⟨l, hl⟩ := TransactionManager.run_events hinv hrm
    have hnone : latestWrite id r e.mgr.events = none := latestWrite_append (l := l) (by rw [← hl]; exact hnone')
    rw [(hinv'.sees_view ht' hrun').2 (.inr hnone'), hsnap (.inr hnone), h2.readTs]
    obtain ⟨l', hl', hgt⟩ := (hgrown r).versions
    rw [hl', snapshot_append fun v hv => Nat.lt_of_le_of_lt (hinv.handles id txn ht).2.1 (hgt v hv)]

/-- A second transaction reads a row that the first one inserted and committed. -/
theorem snapshot_reads_committed_row :
    ∃ e txn, Lib.Steps (step ⟨[], List.nodup_nil⟩) (fun e a => e.openCalls a = true) oneTable e ∧
      e.mgr.txns 1 = some txn ∧ txn.state = .running ∧ latestWrite 1 ⟨0, 0⟩ e.mgr.events = none ∧
      ShowsNewest txn.readTs (history oneTable.mgr.base ⟨0, 0⟩ e.mgr.events) (e.mgr.visible 1 txn ⟨0, 0⟩) := by
  obtain ⟨e, hr, hp⟩ : ∃ e, Lib.Steps (step ⟨[], List.nodup_nil⟩) (fun e a => e.openCalls a = true) oneTable e ∧
      ((e.mgr.txns 1).any (fun txn => txn.state == .running) && latestWrite 1 ⟨0, 0⟩ e.mgr.events == none) = true :=
    Lib.exists_steps [.mgr .begin, .call 0 (.insertTuple 0 [7]), .run 0 1 false, .run 0 1 false, .mgr (.commit 0),
      .mgr (.stamp ⟨0, 0⟩ false), .mgr .publish, .mgr .begin] (by decide)
  obtain ⟨hany, hw⟩ := Bool.and_eq_true_iff.mp hp
  obtain ⟨txn, ht, hrun⟩ := (Option.any_eq_true _ _).mp hany
  have hw : latestWrite 1 ⟨0, 0⟩ e.mgr.events = none := by simpa using hw
  exact ⟨e, txn, hr, ht, by simpa using hrun, hw,
    (snapshot_reads oneTable_initial hr ht (by simpa using hrun) ⟨0, 0⟩).2.1 (.inl hw)⟩

/-- A commit under way: the transaction is still running, and the row it stamped shows it
nothing of its own write. -/
theorem stamped_write_unseen :
    ∃ e, Lib.Steps (step ⟨[], List.nodup_nil⟩) (fun e a => e.openCalls a = true) oneTable e ∧
      (e.mgr.txns 0).any (fun txn => txn.state == .running &&
        latestWrite 0 ⟨0, 0⟩ e.mgr.events == some (some [7]) && e.mgr.visible 0 txn ⟨0, 0⟩ == none) = true :=
  Lib.exists_steps [.mgr .begin, .call 0 (.insertTuple 0 [7]), .run 0 1 false, .run 0 1 false, .mgr (.commit 0),
    .mgr (.stamp ⟨0, 0⟩ false)] (by decide)

end Engine

end Cmudb
