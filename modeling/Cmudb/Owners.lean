import Cmudb.Conflicts

/-!
# Who owns an uncommitted version

A slot stamped with a transaction's id can be released by that transaction's
commit or abort only. The write calls do not look at the state of the handle
they are given, so one that has ended can leave a stamp behind that nobody can
release. In runs that make write calls on open transactions only, every stamp
belongs to an open transaction that has the slot in its write set.
-/

namespace Cmudb

namespace TransactionManager

/-- Every transaction id in the heap is that of an open transaction. -/
def StampsOpen (s : TransactionManager) : Prop :=
  ∀ r m b i, s.heap.slot r = some (m, b) → m.ts = .txn i → s.Open i

section
variable {base : RecordId → List Version} {s s' : TransactionManager} {a : Action} {id : Nat} {txn : Transaction}
  {r : RecordId}

theorem Inv.listed (h : Inv base s) (ht : s.txns id = some txn) (hu : txn.unfinished = true)
    {m : TupleMeta} {b : Bytes} (hs : s.heap.slot r = some (m, b)) (hm : m.ts = .txn id) :
    r ∈ txn.writeSet.map Prod.fst := by
  obtain ⟨t, own⟩ := h.owner hs (h.currentStamp_of_txn hs hm)
  have := own.handle
  rw [ht] at this
  cases this
  cases own.undoable with
  | inserted listed => exact List.mem_map.mpr ⟨_, listed hu, rfl⟩
  | replaced _ _ listed => exact List.mem_map.mpr ⟨_, listed hu, rfl⟩

theorem Inv.ended_no_stamp {es : List Event} {last : Nat} (h : Inv base s) (ht : s.txns id = some txn)
    (how : Ending s s' id txn es last) {m : TupleMeta} {b : Bytes} (hs : s.heap.slot r = some (m, b)) :
    m.ts ≠ .txn id := by
  intro hm
  have hkey := h.listed ht how.unfinished hs hm
  cases how with
  | readOnly _ _ nothing => rw [nothing] at hkey; cases hkey
  | published done latch _ all =>
    have hcur := h.currentStamp_of_txn hs hm
    have : s.currentStamp id r = .commit (s.lastCommitTs + 1) := by
      simp [currentStamp, stampedRids, latch, all.mem_iff.mpr hkey]
    rw [hm, this] at hcur
    cases hcur
  | aborted latch =>
    obtain ⟨t, ht', _, hnil⟩ := h.latch.aborting latch
    rw [ht] at ht'
    cases ht'
    rw [← hnil] at hkey
    cases hkey

theorem restored_stamp {rid : RecordId} {p : Bool} {s₁ : TransactionManager} (h : Inv base s)
    (hok : s.restore id rid p = .ok s₁) {m : TupleMeta} {b : Bytes} (hs : s₁.heap.slot rid = some (m, b)) :
    ∃ t, m.ts = .commit t ∧ t ≤ s.lastCommitTs := by
  obtain ⟨_, m₀, b₀, hs₀, hm₀, hcase⟩ := restore_ok hok
  obtain ⟨t, own⟩ := h.owner hs₀ (h.currentStamp_of_txn hs₀ hm₀)
  rcases hcase with ⟨_, hslot, _⟩ | ⟨_, head, hv, hslot⟩
  · rw [hs] at hslot
    cases hslot
    exact ⟨0, rfl, Nat.zero_le _⟩
  · rw [hs] at hslot
    cases hslot
    have hc := own.covers
    rw [hv] at hc
    exact Covers.published h hc

theorem StampsOpen.change (ho : StampsOpen s) (h : Inv base s) (hc : Change a s s')
    (hw : ∀ id, a.writer = some id → s.Open id) : StampsOpen s' := by
  intro r m b i hs hm
  have hkeep : s.Open i → (s.ending i = true ∨ a = .commit i → False) → s'.Open i := fun ho hn =>
    (hc.isOpen h.handles.fresh ho).resolve_right hn
  cases hc with
  | quiet hq =>
    rw [hq.heap] at hs
    exact (hq.isOpen i).mpr (ho r m b i hs hm)
  | begun hb =>
    subst hb
    obtain ⟨t, ht, hu⟩ := ho r m b i hs hm
    have hne : i ≠ s.nextTxnId := by rintro rfl; rw [h.handles.fresh] at ht; cases ht
    exact ⟨t, by simp [begin, Function.update_of_ne hne, ht], hu⟩
  | updated id txn txn' rid new s₁ m₀ b₀ undo writer _ logged _ handle _ slot hwr =>
    have hopen : s.Open i → s'.Open i := fun ho => (hwr.isOpen handle i).mpr ((logged.isOpen i).mpr ho)
    by_cases hr : r = rid
    · subst hr
      rw [slot.new] at hs
      cases hs
      cases hm
      exact hopen (hw _ writer)
    · rw [slot.frame r hr] at hs
      exact hopen (ho r m b i hs hm)
  | inserted id txn table rid data writer caller slot hwr =>
    have hopen : s.Open i → s'.Open i := fun ho => (hwr.isOpen (caller_eq caller).1 i).mpr ho
    by_cases hr : r = rid
    · subst hr
      rw [slot.new] at hs
      cases hs
      cases hm
      exact hopen (hw _ writer)
    · rw [slot.frame r hr] at hs
      exact hopen (ho r m b i hs hm)
  | restamped id txn rid m₀ b₀ holder handle running key before slot others rest =>
    have htxns : s'.txns = s.txns := by rw [rest]
    unfold Open
    rw [htxns]
    by_cases hr : r = rid
    · subst hr
      rw [slot.new] at hs
      cases hs
      rcases currentStamp_cases s' id r with hcur | hcur
      · rw [hcur] at hm
        cases hm
        exact ⟨txn, handle, unfinished_of_running running⟩
      · rw [hcur] at hm; cases hm
    · rw [slot.frame r hr] at hs
      exact ho r m b i hs hm
  | ended id txn es last handle own how he =>
    rw [he.heap] at hs
    by_cases hi : i = id
    · subst hi
      exact absurd hm (h.ended_no_stamp handle how hs)
    · obtain ⟨t, ht, hu⟩ := ho r m b i hs hm
      exact ⟨t, (he.handles i hi).trans ht, hu⟩
  | restored id txn rid p s₁ latch handle tainted key hok rest =>
    by_cases hr : r = rid
    · subst hr
      rw [rest] at hs
      obtain ⟨c, hc, _⟩ := restored_stamp h hok hs
      rw [hc] at hm
      cases hm
    · obtain ⟨hres, _⟩ := restore_ok hok
      have hs' : s.heap.slot r = some (m, b) := by rw [rest] at hs; rw [← hres.slots r hr]; exact hs
      rw [rest]
      exact (hres.isOpen handle i).mpr (ho r m b i hs' hm)
  | swept w rid pass hok =>
    unfold collectSlot at hok
    split at hok
    · cases hok
    · cases hok; exact ho r m b i hs hm
  | passes hp => rw [hp] at hs ⊢; exact ho r m b i hs hm

end

end TransactionManager

namespace Engine

def writesOnOpen (e : Engine) : Action → Bool
  | .call id _ => (e.mgr.txns id).any Transaction.unfinished
  | _ => true

def openWrites (e : Engine) (a : Action) : Bool := e.noStorageFailure a && e.writesOnOpen a

theorem openWrites_putBack (e : Engine) (a : Action) (h : e.openWrites a = true) : e.putBack a = true :=
  noStorageFailure_putBack (Bool.and_eq_true_iff.mp h).1

section
variable {cat : Catalog} {e₀ e : Engine}

/-- A transaction in the middle of a call is open, and so is the owner of every stamp. -/
theorem run_stampsOpen (h₀ : e₀.Initial) (hr : Lib.Steps (step cat) (fun e a => e.openWrites a = true) e₀ e) :
    (∀ i, e.busy i = true → e.mgr.Open i) ∧ e.mgr.StampsOpen := by
  induction hr with
  | refl =>
    refine ⟨fun i hb => by simp [busy, h₀.tasks] at hb, fun r m b i hs hm => ?_⟩
    obtain ⟨t, ht, _⟩ := h₀.mgr.committed r m b hs
    rw [ht] at hm
    cases hm
  | @tail e e' a hr' hok hs ih =>
    obtain ⟨hbusy, hopen⟩ := ih
    have hinv := run_inv openWrites_putBack h₀ hr'
    have hnot := run_not_ending openWrites_putBack h₀ hr'
    have hcall : ∀ i c, a = .call i c → e.mgr.Open i := by
      rintro i c rfl
      have hany := (Bool.and_eq_true_iff.mp hok).2
      simp only [writesOnOpen] at hany
      cases ht : e.mgr.txns i with
      | none => rw [ht] at hany; cases hany
      | some t => rw [ht] at hany; exact ⟨t, ht, hany⟩
    rcases step_mgr (openWrites_putBack _ _ hok) hs with heq | ⟨b, hsim, hstep⟩
    · rw [heq]
      refine ⟨fun i hb => ?_, hopen⟩
      rcases step_busy hs hb with hb' | ⟨c, ha, _⟩
      · exact hbusy i hb'
      · exact hcall i c ha
    · have hchange := hinv.change (putBack_mgr (openWrites_putBack e a hok) hsim) hstep
      refine ⟨fun i hb => ?_, hopen.change hinv hchange fun i hi => ?_⟩
      · rcases step_busy hs hb with hb' | ⟨c, rfl, _⟩
        · refine (hchange.isOpen hinv.handles.fresh (hbusy i hb')).resolve_right ?_
          rintro (he | rfl)
          · rw [hnot i hb'] at he; cases he
          · cases a with
            | run => cases hsim.1
            | mgr a =>
              cases hsim
              simp only [step, allowed, hb', Bool.not_true] at hs
              cases hs
            | _ => exact hsim
        · exact hsim.elim
      · cases a with
        | call | strand | astray => exact hsim.elim
        | run id fresh fails =>
          obtain ⟨h1, h2⟩ := hsim
          rw [h1] at hi
          cases hi
          exact hbusy _ h2
        | mgr a =>
          cases hsim
          cases b <;> cases hi
          all_goals
            simp only [step, allowed] at hs
            cases hs

/-- Every transaction id in the heap belongs to a running or tainted transaction that has the
slot in its write set. -/
theorem stamps_have_owners (h₀ : e₀.Initial) (hr : Lib.Steps (step cat) (fun e a => e.openWrites a = true) e₀ e)
    {r : RecordId} {m : TupleMeta} {b : Bytes} {i : Nat} (hs : e.mgr.heap.slot r = some (m, b))
    (hm : m.ts = .txn i) :
    ∃ txn, e.mgr.txns i = some txn ∧ (txn.state = .running ∨ txn.state = .tainted) ∧
      r ∈ txn.writeSet.map Prod.fst := by
  have hinv := run_inv openWrites_putBack h₀ hr
  obtain ⟨txn, ht, hu⟩ := (run_stampsOpen h₀ hr).2 r m b i hs hm
  refine ⟨txn, ht, ?_, hinv.listed ht hu hs hm⟩
  cases hst : txn.state <;> simp [Transaction.unfinished, hst] at hu ⊢

/-- A transaction that has inserted a row and is still running. -/
theorem stamps_have_owners_inserted :
    ∃ e m b, Lib.Steps (step ⟨[], List.nodup_nil⟩) (fun e a => e.openWrites a = true) oneTable e ∧
      e.mgr.heap.slot ⟨0, 0⟩ = some (m, b) ∧ m.ts = .txn 0 ∧
      ∃ txn, e.mgr.txns 0 = some txn ∧ (txn.state = .running ∨ txn.state = .tainted) ∧
        ⟨0, 0⟩ ∈ txn.writeSet.map Prod.fst := by
  obtain ⟨e, hr, hp⟩ : ∃ e, Lib.Steps (step ⟨[], List.nodup_nil⟩) (fun e a => e.openWrites a = true) oneTable e ∧
      (e.mgr.heap.slot ⟨0, 0⟩).any (fun v => v.1.ts == .txn 0) = true :=
    Lib.exists_steps [.mgr .begin, .call 0 (.insertTuple 0 [7]), .run 0 1 false, .run 0 1 false] (by decide)
  obtain ⟨⟨m, b⟩, hs, hm⟩ := (Option.any_eq_true _ _).mp hp
  exact ⟨e, m, b, hr, hs, eq_of_beq hm, stamps_have_owners oneTable_initial hr hs (eq_of_beq hm)⟩

/-- An insert through a transaction that has committed leaves a stamp of an ended transaction. -/
theorem ended_writer_leaves_stamp :
    ∃ e, Lib.Steps (step ⟨[], List.nodup_nil⟩) (fun e a => e.noStorageFailure a = true) oneTable e ∧
      ((e.mgr.txns 0).any (fun txn => txn.state == .committed) &&
        (e.mgr.heap.slot ⟨0, 0⟩).any (fun v => v.1.ts == .txn 0)) = true :=
  Lib.exists_steps [.mgr .begin, .mgr (.commit 0), .call 0 (.insertTuple 0 [7]), .run 0 1 false, .run 0 1 false]
    (by decide)

end

end Engine

end Cmudb
