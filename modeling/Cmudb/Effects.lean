import Cmudb.InvEnds

/-!
# What a step does

`Change` sorts the steps by what they do to slots, handles and events. The
proofs about runs go by its cases rather than by the actions.
-/

namespace Cmudb

namespace TransactionManager

inductive Ending (s s' : TransactionManager) (id : Nat) (txn : Transaction) : List Event → Nat → Prop where
  | readOnly (caller : s.caller id = some txn) (running : txn.state = .running) (nothing : txn.writeSet = [])
      (final : s'.txns id = some (txn.finish .committed (some s.lastCommitTs)))
      (after : s'.commitLatch = s.commitLatch) :
      Ending s s' id txn (.committed id s.lastCommitTs :: s.events) s.lastCommitTs
  | published (done : List RecordId) (latch : s.commitLatch = some (.commit id (s.lastCommitTs + 1) [] done))
      (running : txn.state = .running) (all : done.Perm (txn.writeSet.map Prod.fst))
      (final : s'.txns id = some (txn.finish .committed (some (s.lastCommitTs + 1))))
      (after : s'.commitLatch = none) :
      Ending s s' id txn (.committed id (s.lastCommitTs + 1) :: s.events) (s.lastCommitTs + 1)
  | aborted (latch : s.commitLatch = some (.abort id [])) (tainted : txn.state = .tainted)
      (final : s'.txns id = some (txn.finish .aborted none)) (after : s'.commitLatch = none) :
      Ending s s' id txn s.events s.lastCommitTs

inductive Change (a : Action) (s s' : TransactionManager) : Prop where
  | quiet (h : Quiet s s')
  | begun (h : s' = s.begin.2)
  | updated (id : Nat) (txn txn' : Transaction) (rid : RecordId) (new : Option Bytes) (s₁ : TransactionManager)
      (m : TupleMeta) (b : Bytes) (undo : Option (TupleMeta × Bytes))
      (writer : a.writer = some id) (caller : s.caller id = some txn) (logged : Quiet s s₁)
        (latch : s₁.commitLatch = s.commitLatch)
      (handle : s₁.txns id = some txn')
      (plan : planVersion id txn rid new m b = .ok (⟨⟨.txn id, new.isNone⟩, new⟩, undo))
      (slot : Heap.Written s.heap rid (m, b) ⟨⟨.txn id, new.isNone⟩, new⟩ s'.heap)
      (h : Wrote s₁ s' id txn' rid new (undo.map fun u => ⟨u.1, u.2, s.versions rid⟩))
      (chain : s'.versions rid = (undo.map fun u => (⟨u.1.ts, u.1.isDeleted, u.2⟩ : UndoLog)).toList ++
        s.versions rid)
  | inserted (id : Nat) (txn : Transaction) (table : Nat) (rid : RecordId) (data : Bytes)
      (writer : a.writer = some id) (caller : s.caller id = some txn)
        (slot : Heap.Inserted s.heap table rid ⟨.txn id, false⟩ data s'.heap)
      (h : Wrote s s' id txn rid (some data) none) (chains : s'.versions = s.versions)
  | restamped (id : Nat) (txn : Transaction) (rid : RecordId) (m : TupleMeta) (b : Bytes)
      (holder : s.ending id = true) (handle : s.txns id = some txn) (running : txn.state = .running)
      (key : rid ∈ txn.writeSet.map Prod.fst)
      (before : m.ts = s.currentStamp id rid)
      (slot : Heap.Written s.heap rid (m, b) ⟨{ m with ts := s'.currentStamp id rid }, none⟩ s'.heap)
      (others : ∀ i r, (i = id → r ≠ rid) → s'.currentStamp i r = s.currentStamp i r)
      (rest : s' = { s with heap := s'.heap, commitLatch := s'.commitLatch })
      (act : rid ∉ s.stampedRids id ∨ ∃ fails, a = .unstamp fails)
  | ended (id : Nat) (txn : Transaction) (es : List Event) (last : Nat) (handle : s.txns id = some txn)
      (own : s.ending id = true ∨ a = .commit id) (how : Ending s s' id txn es last) (h : Ended s s' id txn es last)
      (act : s.lastCommitTs < last → a = .publish)
  | restored (id : Nat) (txn : Transaction) (rid : RecordId) (pushedUndo : Bool) (s₁ : TransactionManager)
      (latch : s.commitLatch = some (.abort id txn.writeSet)) (handle : s.txns id = some txn)
      (tainted : txn.state = .tainted) (key : (rid, pushedUndo) ∈ txn.writeSet)
      (h : s.restore id rid pushedUndo = .ok s₁)
      (rest : s' = { s₁ with commitLatch := some (.abort id (txn.writeSet.filter fun e => e.1 ≠ rid)) })
  | swept (w : Nat) (rid : RecordId) (pass : w ∈ s.passes) (h : s.collectSlot w rid = .ok s')
      (act : a = .collectSlot w rid)
  | passes (h : s' = { s with passes := s'.passes })

section
variable {base : RecordId → List Version} {s s' : TransactionManager} {a : Action} {id : Nat} {txn : Transaction}
  {rid : RecordId} {new : Option Bytes}

theorem logged_quiet : Quiet s ((s.logFirstWrite id txn).logUndo id txn rid new) :=
  logFirstWrite_quiet.trans logUndo_quiet

theorem writeVersion_error {err : TxnError} (h : s.writeVersion id txn rid new = (s', .error err)) :
    Quiet s s' := by
  unfold writeVersion at h
  simp only at h
  split at h
  · cases h; exact logged_quiet
  · cases h

theorem writeVersion_ok (hc : s.caller id = some txn) (h : s.writeVersion id txn rid new = (s', .ok ())) :
    ∃ s₁ txn' m b undo, s₁ = (s.logFirstWrite id txn).logUndo id txn rid new ∧ Quiet s s₁ ∧
      s₁.commitLatch = s.commitLatch ∧ s₁.txns id = some txn' ∧
      planVersion id txn rid new m b = .ok (⟨⟨.txn id, new.isNone⟩, new⟩, undo) ∧
      Heap.Written s.heap rid (m, b) ⟨⟨.txn id, new.isNone⟩, new⟩ s'.heap ∧
      Wrote s₁ s' id txn' rid new (undo.map fun u => ⟨u.1, u.2, s.versions rid⟩) ∧
      s'.versions rid = (undo.map fun u => (⟨u.1.ts, u.1.isDeleted, u.2⟩ : UndoLog)).toList ++ s.versions rid := by
  have hq : Quiet s ((s.logFirstWrite id txn).logUndo id txn rid new) := logged_quiet
  unfold writeVersion at h
  simp only at h
  split at h
  · cases h
  · rename_i hok
    cases h
    obtain ⟨txn', ht', _⟩ := hq.handles id txn (caller_eq hc).1
    obtain ⟨m, b, undo, hw, hp, hwr, hv⟩ := applyVersion_wrote ht' hok
    rw [hq.versions] at hw hv
    rw [hq.heap] at hwr
    exact ⟨_, txn', m, b, undo, rfl, hq, logUndo_latch.trans logFirstWrite_latch, ht', hp, hwr, hw, hv⟩

theorem change_writeVersion {res : Except TxnError Unit} (hc : s.caller id = some txn)
    (hw : s.writeVersion id txn rid new = (s', res)) : Change (.write id rid new) s s' := by
  cases res with
  | error e => exact .quiet (writeVersion_error hw)
  | ok u =>
    obtain ⟨s₁, txn', m, b, undo, _, hq, hl, ht', hp, hwr, hwrote, hv⟩ := writeVersion_ok hc hw
    exact .updated id txn txn' rid new s₁ m b undo rfl hc hq hl ht' hp hwr hwrote hv

theorem change_stampStep {fails : Bool} (h : Inv base s) (hstep : s.stampStep rid fails = some s') :
    Change (.stamp rid fails) s s' := by
  unfold TransactionManager.stampStep at hstep
  split at hstep
  · rename_i id ts todo done hl
    have hquiet : ∀ e, Quiet s { s with commitLatch := some (.uncommit id ts done e) } := fun e =>
      latch_quiet _ fun i => by simp [stampedRids, hl]
    split at hstep
    · rename_i hmem
      split at hstep
      · cases hstep; exact .quiet (hquiet _)
      · split at hstep
        · cases hstep; exact .quiet (hquiet _)
        · rename_i s₁ hok
          cases hstep
          obtain ⟨m, b, hm, hwr, hs₁⟩ := stamp_ok hok
          obtain ⟨rfl, t, ht, hrun, hp⟩ := h.latch.committing hl
          have hnd : rid ∉ done := by
            have hn := hp.nodup_iff.mpr (h.handles id t ht).2.2
            exact fun hd => (List.nodup_append.mp hn).2.2 rid hmem rid hd rfl
          rw [hs₁]
          refine .restamped id t rid m b (by simp [ending, hl, Outcome.txn]) ht hrun
            (hp.mem_iff.mp (List.mem_append_left _ hmem)) ?_ ?_ ?_ rfl (.inl (by simpa [stampedRids, hl] using hnd))
          · simp [currentStamp, stampedRids, hl, hnd, hm]
          · simpa [currentStamp, stampedRids] using hwr
          · intro i r hne
            simp only [currentStamp, stampedRids, hl]
            by_cases hi : id = i
            · simp [hi, hne hi.symm]
            · simp [hi]
    · cases hstep
  · cases hstep

theorem change_unstampStep (h : Inv base s) (hstep : s.unstampStep false = some s') :
    Change (.unstamp false) s s' := by
  unfold TransactionManager.unstampStep at hstep
  split at hstep
  · rename_i hl
    cases hstep
    exact .quiet (modifyTxn_quiet SameWrites.setTainted none fun i => by simp [stampedRids, hl])
  · rename_i id ts rid done cause hl
    obtain ⟨rfl, t, ht, hrun, hn, hk⟩ := h.latch.uncommitting hl
    have hkey := hk rid (by simp)
    have hcur : s.currentStamp id rid = .commit (s.lastCommitTs + 1) := by simp [currentStamp, stampedRids, hl]
    rw [if_neg (by decide)] at hstep
    split at hstep
    · rename_i e herr
      obtain ⟨m, b, hs, hm⟩ := h.held id t rid ht (unfinished_of_running hrun) hkey
      obtain ⟨s₁, hok⟩ := stamp_succeeds (s := s) (c := .txn id) hs (hm.trans hcur)
      rw [hok] at herr
      cases herr
    · rename_i s₁ hok
      cases hstep
      obtain ⟨m, b, hm, hwr, hs₁⟩ := stamp_ok hok
      rw [hs₁]
      refine .restamped id t rid m b (by simp [ending, hl, Outcome.txn]) ht hrun hkey (hm.trans hcur.symm) ?_ ?_ rfl
        (.inr ⟨false, rfl⟩)
      · have : rid ∉ done := (List.nodup_cons.mp hn).1
        simpa [currentStamp, stampedRids, this] using hwr
      · intro i r hne
        simp only [currentStamp, stampedRids, hl]
        by_cases hi : id = i
        · simp [hi, hne hi.symm]
        · simp [hi]
  · cases hstep

theorem change_restoreStep {fails : Bool} (h : Inv base s) (hstep : s.restoreStep rid fails = some s') :
    Change (.restore rid fails) s s' := by
  unfold restoreStep at hstep
  split at hstep
  · rename_i id todo hl
    have hfree : Quiet s { s with commitLatch := none } := latch_quiet _ fun i => by simp [stampedRids, hl]
    obtain ⟨t, ht, hst, rfl⟩ := h.latch.aborting hl
    split at hstep
    · cases hstep
    · rename_i e p hfind
      have hmem : (rid, p) ∈ t.writeSet := by
        have h1 := List.mem_of_find?_eq_some hfind
        have h2 := List.find?_some hfind
        simp only [decide_eq_true_eq] at h2
        rw [← h2]
        exact h1
      split at hstep
      · cases hstep; exact .quiet hfree
      · split at hstep
        · cases hstep; exact .quiet hfree
        · rename_i s₁ hok
          cases hstep
          exact .restored id t rid p s₁ hl ht hst hmem hok rfl
  · cases hstep

theorem Inv.change (h : Inv base s) (hok : PutBack s a) (hstep : s.step a = some s') : Change a s s' := by
  cases a with
  | begin => cases hstep; exact .begun rfl
  | logFirstWrite i =>
    obtain ⟨t, _, rfl⟩ := Option.map_eq_some_iff.mp hstep
    exact .quiet logFirstWrite_quiet
  | write i rid new =>
    obtain ⟨t, hc, rfl⟩ := Option.map_eq_some_iff.mp hstep
    exact change_writeVersion hc rfl
  | insert i table fresh data =>
    obtain ⟨t, hc, rfl⟩ := Option.map_eq_some_iff.mp hstep
    split
    · exact .quiet (.refl s)
    · rename_i rid _ hins
      obtain ⟨hw, hslot, hv⟩ := insertVersion_wrote (caller_eq hc).1 hins
      exact .inserted i t table rid data rfl hc hslot hw hv
  | taint i =>
    obtain ⟨t, _, rfl⟩ := Option.map_eq_some_iff.mp hstep
    exact .quiet (modifyTxn_quiet SameWrites.setTainted s.commitLatch fun _ => rfl)
  | commit i =>
    obtain ⟨t, hc, hs⟩ := Option.bind_eq_some_iff.mp hstep
    have ht := (caller_eq hc).1
    unfold commitStep at hs
    split at hs
    · cases hs; exact .quiet (.refl s)
    · rename_i hrun
      split at hs
      · rename_i hws
        cases hs
        exact .ended i t _ _ ht (.inr rfl) (.readOnly hc (by simpa using hrun) hws (commitReadOnly_handle ht) rfl)
          (commitReadOnly_ended ht) fun hlt => absurd hlt (Nat.lt_irrefl _)
      · split at hs
        · cases hs
        · rename_i hl
          cases hs
          exact .quiet (latch_quiet _ fun j => by simp [stampedRids, hl])
  | stamp rid fails => exact change_stampStep h hstep
  | publish =>
    simp only [TransactionManager.step, publishStep] at hstep
    split at hstep
    · rename_i i ts done hl
      obtain ⟨t, ht, rfl⟩ := Option.map_eq_some_iff.mp hstep
      obtain ⟨rfl, t', ht', hrun, hp⟩ := h.latch.committing hl
      rw [ht] at ht'
      cases ht'
      exact .ended i t _ _ ht (.inl (by simp [ending, hl, Outcome.txn]))
        (.published done hl hrun hp (publish_handle ht _) (publish_latch _))
        (publish_ended ht _) fun _ => rfl
    · cases hstep
  | unstamp fails =>
    have : fails = false := by
      cases fails with
      | false => rfl
      | true => exact absurd rfl hok
    subst this
    exact change_unstampStep h hstep
  | abort i =>
    obtain ⟨t, _, hs⟩ := Option.bind_eq_some_iff.mp hstep
    unfold abortStep at hs
    split at hs
    · split at hs
      · cases hs
      · rename_i hl
        cases hs
        exact .quiet (modifyTxn_quiet SameWrites.setTainted _ fun j => by simp [stampedRids, hl])
    · cases hs; exact .quiet (.refl s)
  | restore rid fails => exact change_restoreStep h hstep
  | finishAbort =>
    simp only [TransactionManager.step, finishAbortStep] at hstep
    split at hstep
    · rename_i i hl
      obtain ⟨t, ht, rfl⟩ := Option.map_eq_some_iff.mp hstep
      obtain ⟨t', ht', hst, _⟩ := h.latch.aborting hl
      rw [ht] at ht'
      cases ht'
      exact .ended i t _ _ ht (.inl (by simp [ending, hl, Outcome.txn]))
        (.aborted hl hst (finishAbort_handle ht) finishAbort_latch) (finishAbort_ended ht)
        fun hlt => absurd hlt (Nat.lt_irrefl _)
    · cases hstep
  | collect => cases hstep; exact .passes rfl
  | collectSlot w rid =>
    simp only [TransactionManager.step, collectSlotStep] at hstep
    split at hstep
    · rename_i hw
      split at hstep
      · cases hstep; exact .passes rfl
      · rename_i hc
        cases hstep
        exact .swept w rid hw hc rfl
    · cases hstep
  | collected w => cases hstep; exact .passes rfl
  | pause =>
    simp only [TransactionManager.step] at hstep
    split at hstep
    · rename_i hl
      cases hstep
      exact .quiet (latch_quiet _ fun j => by simp [stampedRids, hl])
    · cases hstep
  | resume =>
    simp only [TransactionManager.step] at hstep
    split at hstep
    · rename_i hl
      cases hstep
      exact .quiet (latch_quiet _ fun j => by simp [stampedRids, hl])
    · cases hstep

/-! ## Handles and clocks -/

structure Kept (txn txn' : Transaction) : Prop where
  readTs : txn'.readTs = txn.readTs
  running : txn'.state = .running → txn.state = .running
  unfinished : txn'.unfinished = true → txn.unfinished = true
  closed : txn.unfinished = false → txn'.state = txn.state ∧ txn'.commitTs = txn.commitTs

theorem Kept.refl (txn : Transaction) : Kept txn txn := ⟨rfl, fun h => h, fun h => h, fun _ => ⟨rfl, rfl⟩⟩

theorem unfinished_of_state {a b : Transaction} (h : b.state = a.state) : b.unfinished = a.unfinished := by
  unfold Transaction.unfinished; rw [h]

theorem Kept.trans {a b c : Transaction} (h₁ : Kept a b) (h₂ : Kept b c) : Kept a c :=
  ⟨h₂.readTs.trans h₁.readTs, fun h => h₁.running (h₂.running h), fun h => h₁.unfinished (h₂.unfinished h),
    fun h => by
      obtain ⟨a₁, b₁⟩ := h₁.closed h
      obtain ⟨a₂, b₂⟩ := h₂.closed ((unfinished_of_state a₁).trans h)
      exact ⟨a₂.trans a₁, b₂.trans b₁⟩⟩

theorem SameWrites.kept {a b : Transaction} (h : SameWrites a b) : Kept a b :=
  ⟨h.readTs, h.running, fun hu => by rw [← h.unfinished]; exact hu, h.closed⟩

@[simp] theorem recordWrite_commitTs (txn : Transaction) (rid : RecordId) (p : Bool) :
    (txn.recordWrite rid p).commitTs = txn.commitTs := by
  unfold Transaction.recordWrite; split <;> rfl

theorem Wrote.kept {txn' : Transaction} {old : Option Replaced} (hw : Wrote s s' id txn' rid new old)
    (ht : s.txns id = some txn') {i : Nat} {t : Transaction} (hi : s.txns i = some t)
    : ∃ t', s'.txns i = some t' ∧ Kept t t' := by
  by_cases h : i = id
  · subst h
    rw [ht] at hi
    cases hi
    exact ⟨_, hw.handle, by simp, by simp, by simp, by simp⟩
  · exact ⟨t, by rw [hw.handles i h]; exact hi, .refl t⟩

theorem Ending.unfinished {es : List Event} {last : Nat} (h : Ending s s' id txn es last) :
    txn.unfinished = true := by
  cases h with
  | readOnly _ running => exact unfinished_of_running running
  | published _ _ running => exact unfinished_of_running running
  | aborted _ tainted => exact unfinished_of_tainted tainted

theorem Ended.stamp_of_ne {es : List Event} {last : Nat} (he : Ended s s' id txn es last)
    (how : Ending s s' id txn es last) {i : Nat} (hi : i ≠ id) (r : RecordId) :
    s'.currentStamp i r = s.currentStamp i r := by
  cases how with
  | readOnly _ _ _ _ after => unfold currentStamp; rw [stampedRids_congr after, he.clock]
  | published done latch _ _ _ after => simp [currentStamp, stampedRids, after, latch, hi.symm]
  | aborted latch _ _ after => simp [currentStamp, stampedRids, after, latch]

theorem Change.kept (hc : Change a s s') (hfresh : s.txns s.nextTxnId = none) {i : Nat} {t : Transaction}
    (hi : s.txns i = some t) : ∃ t', s'.txns i = some t' ∧ Kept t t' := by
  cases hc with
  | quiet h =>
    obtain ⟨t', h1, h2⟩ := h.handles i t hi
    exact ⟨t', h1, h2.kept⟩
  | begun h =>
    subst h
    have hne : i ≠ s.nextTxnId := by rintro rfl; rw [hfresh] at hi; cases hi
    exact ⟨t, by simp [begin, Function.update_of_ne hne, hi], .refl t⟩
  | updated id txn txn' rid new s₁ m b undo _ _ logged _ handle _ _ h =>
    obtain ⟨t', h1, h2⟩ := logged.handles i t hi
    obtain ⟨t'', h3, h4⟩ := h.kept handle h1
    exact ⟨t'', h3, h2.kept.trans h4⟩
  | inserted id txn table rid data _ caller _ h => exact h.kept (caller_eq caller).1 hi
  | restamped id txn rid m b _ _ _ _ _ _ _ rest => exact ⟨t, by rw [rest]; exact hi, .refl t⟩
  | ended id txn es last handle _ how h =>
    by_cases hid : i = id
    · subst hid
      rw [handle] at hi
      cases hi
      obtain ⟨t', h1, h2, _, h4⟩ := h.handle
      refine ⟨t', h1, h2, fun hr => ?_, fun hu => ?_, fun hu => ?_⟩
      · rw [unfinished_of_running hr] at h4; cases h4
      · rw [hu] at h4; cases h4
      · rw [how.unfinished] at hu; cases hu
    · exact ⟨t, by rw [h.handles i hid]; exact hi, .refl t⟩
  | restored id txn rid p s₁ _ handle _ _ h rest =>
    obtain ⟨hr, _⟩ := restore_ok h
    rw [rest]
    by_cases hid : i = id
    · subst hid
      rw [handle] at hi
      cases hi
      exact ⟨t.forgetWrite rid, hr.self handle, rfl, fun h => h, fun h => h, fun _ => ⟨rfl, rfl⟩⟩
    · exact ⟨t, (hr.others hid).trans hi, .refl t⟩
  | swept w rid pass h =>
    unfold collectSlot at h
    split at h
    · cases h
    · cases h; exact ⟨t, hi, .refl t⟩
  | passes h => exact ⟨t, by rw [h]; exact hi, .refl t⟩

theorem Inv.nothing_written (h : Inv base s) (ht : s.txns id = some txn) (hr : txn.state = .running)
    (hws : txn.writeSet = []) (r : RecordId) : latestWrite id r s.events = none := by
  cases hw : latestWrite id r s.events with
  | none => rfl
  | some v =>
    have := h.written id txn r ht hr (by rw [hw]; rfl)
    rw [hws] at this
    cases this

structure Grown (base : RecordId → List Version) (s s' : TransactionManager) (r : RecordId) : Prop where
  clock : s.lastCommitTs ≤ s'.lastCommitTs
  versions : ∃ l, s'.versionsOf base r = l ++ s.versionsOf base r ∧ ∀ v ∈ l, s.lastCommitTs < v.ts

theorem Grown.of_eq {r : RecordId} (hl : s'.lastCommitTs = s.lastCommitTs)
    (hv : s'.versionsOf base r = s.versionsOf base r) : Grown base s s' r :=
  ⟨Nat.le_of_eq hl.symm, [], hv, fun v hm => by cases hm⟩

theorem Grown.trans {s'' : TransactionManager} {r : RecordId} (h₁ : Grown base s s' r) (h₂ : Grown base s' s'' r) :
    Grown base s s'' r := by
  obtain ⟨l₁, e₁, g₁⟩ := h₁.versions
  obtain ⟨l₂, e₂, g₂⟩ := h₂.versions
  refine ⟨Nat.le_trans h₁.clock h₂.clock, l₂ ++ l₁, by rw [e₂, e₁, List.append_assoc], fun v hv => ?_⟩
  rcases List.mem_append.mp hv with hv | hv
  · exact Nat.lt_of_le_of_lt h₁.clock (g₂ v hv)
  · exact g₁ v hv

theorem Inv.grown (h : Inv base s) (hc : Change a s s') (r : RecordId) : Grown base s s' r := by
  cases hc with
  | quiet h => exact .of_eq h.clock (by simp only [versionsOf, h.events])
  | begun h => subst h; exact .of_eq rfl rfl
  | updated id txn txn' rid new s₁ m b undo _ _ logged _ _ _ _ h =>
    refine .of_eq (h.clock.trans logged.clock) ?_
    rw [h.committed]
    simp only [versionsOf, logged.events]
  | inserted id txn table rid data _ _ _ h => exact .of_eq h.clock (h.committed r)
  | restamped id txn rid m b _ _ _ _ _ _ _ rest => rw [rest]; exact .of_eq rfl rfl
  | ended id txn es last handle _ how he =>
    cases how with
    | readOnly _ running nothing =>
      refine .of_eq he.clock ?_
      simp only [versionsOf, he.events, history_committed, h.nothing_written handle running nothing r]
    | published =>
      refine ⟨by rw [he.clock]; exact Nat.le_succ _, ?_⟩
      simp only [versionsOf, he.events, history_committed]
      split
      · exact ⟨[_], rfl, fun v hv => by rw [List.mem_singleton.mp hv]; exact Nat.lt_succ_self _⟩
      · exact ⟨[], rfl, fun v hv => by cases hv⟩
    | aborted => exact .of_eq he.clock (by simp only [versionsOf, he.events])
  | restored id txn rid p s₁ _ _ _ _ h rest =>
    obtain ⟨hr, _⟩ := restore_ok h
    rw [rest]
    exact .of_eq hr.clock (by simp only [versionsOf, hr.events])
  | swept w rid pass h =>
    unfold TransactionManager.collectSlot at h
    split at h
    · cases h
    · cases h; exact .of_eq rfl rfl
  | passes h => rw [h]; exact .of_eq rfl rfl

theorem Inv.run_kept (h : Inv base s) (hr : Lib.Steps TransactionManager.step PutBack s s') :
    Inv base s' ∧ (∀ r, Grown base s s' r) ∧
      ∀ i t, s.txns i = some t → ∃ t', s'.txns i = some t' ∧ Kept t t' := by
  induction hr with
  | refl => exact ⟨h, fun r => .of_eq rfl rfl, fun i t hi => ⟨t, hi, .refl t⟩⟩
  | tail _ hok hs ih =>
    obtain ⟨hinv, hg, hk⟩ := ih
    have hc := hinv.change hok hs
    refine ⟨hinv.step hok hs, fun r => (hg r).trans (hinv.grown hc r), fun i t hi => ?_⟩
    obtain ⟨t', h1, h2⟩ := hk i t hi
    obtain ⟨t'', h3, h4⟩ := hc.kept hinv.handles.fresh h1
    exact ⟨t'', h3, h2.trans h4⟩

theorem Change.events (hc : Change a s s') : ∃ l, s'.events = l ++ s.events := by
  cases hc with
  | quiet h => exact ⟨[], h.events⟩
  | begun h => subst h; exact ⟨[_], rfl⟩
  | updated id txn txn' rid new s₁ m b undo _ _ logged _ _ _ _ h =>
    exact ⟨[_], by rw [h.events, logged.events]; rfl⟩
  | inserted id txn table rid data _ _ _ h => exact ⟨[_], h.events⟩
  | restamped id txn rid m b _ _ _ _ _ _ _ rest => rw [rest]; exact ⟨[], rfl⟩
  | ended id txn es last handle _ how he =>
    rw [he.events]
    cases how with
    | readOnly => exact ⟨[_], rfl⟩
    | published => exact ⟨[_], rfl⟩
    | aborted => exact ⟨[], rfl⟩
  | restored id txn rid p s₁ _ _ _ _ h rest =>
    obtain ⟨hr, _⟩ := restore_ok h
    rw [rest]
    exact ⟨[], hr.events⟩
  | swept w rid pass h =>
    unfold collectSlot at h
    split at h
    · cases h
    · cases h; exact ⟨[], rfl⟩
  | passes h => rw [h]; exact ⟨[], rfl⟩

theorem run_events (h : Inv base s) (hr : Lib.Steps TransactionManager.step PutBack s s') :
    ∃ l, s'.events = l ++ s.events := by
  suffices Inv base s' ∧ ∃ l, s'.events = l ++ s.events from this.2
  induction hr with
  | refl => exact ⟨h, [], rfl⟩
  | tail _ hok hs ih =>
    obtain ⟨hinv, l, hl⟩ := ih
    obtain ⟨l', hl'⟩ := (hinv.change hok hs).events
    exact ⟨hinv.step hok hs, l' ++ l, by rw [hl', hl, List.append_assoc]⟩

/-! ## The latch -/

theorem writeVersion_latch :
    (s.writeVersion id txn rid new).1.commitLatch = s.commitLatch := by
  have hlog : ((s.logFirstWrite id txn).logUndo id txn rid new).commitLatch = s.commitLatch :=
    logUndo_latch.trans logFirstWrite_latch
  cases hok : ((s.logFirstWrite id txn).logUndo id txn rid new).applyVersion id txn rid new with
  | error e => simp only [writeVersion, hok]; exact hlog
  | ok s₂ =>
    simp only [writeVersion, hok]
    unfold applyVersion at hok
    split at hok
    · cases hok
    · rename_i undo _
      cases hok
      cases undo <;> exact hlog

def takingBack (s : TransactionManager) : Bool :=
  match s.commitLatch with
  | some (.uncommit ..) => true
  | _ => false

inductive LatchStep (a : Action) (s s' : TransactionManager) : Prop where
  | same (h : s'.commitLatch = s.commitLatch)
  | free (h : s'.commitLatch = none)
  | paused (h : s'.commitLatch = some .paused)
  | taken (id : Nat) (o : Outcome) (act : a = .commit id ∨ a = .abort id) (h : s'.commitLatch = some o)
      (own : o.txn = some id) (forward : s'.takingBack = false)
  | phase (o o' : Outcome) (before : s.commitLatch = some o) (h : s'.commitLatch = some o') (own : o'.txn = o.txn)
      (back : s'.takingBack = true → s.takingBack = true ∨ ∃ rid fails, a = .stamp rid fails)

theorem step_latch (hstep : s.step a = some s') : LatchStep a s s' := by
  cases a with
  | begin => cases hstep; exact .same rfl
  | logFirstWrite j =>
    obtain ⟨t, _, rfl⟩ := Option.map_eq_some_iff.mp hstep
    exact .same logFirstWrite_latch
  | write j rid new =>
    obtain ⟨t, _, rfl⟩ := Option.map_eq_some_iff.mp hstep
    exact .same writeVersion_latch
  | insert j table fresh data =>
    obtain ⟨t, hc, rfl⟩ := Option.map_eq_some_iff.mp hstep
    refine .same ?_
    split
    · rfl
    · rename_i hins
      exact (insertVersion_wrote (caller_eq hc).1 hins).1.latch
  | taint j =>
    obtain ⟨t, _, rfl⟩ := Option.map_eq_some_iff.mp hstep
    exact .same rfl
  | commit j =>
    obtain ⟨t, _, hs⟩ := Option.bind_eq_some_iff.mp hstep
    unfold commitStep at hs
    split at hs
    · cases hs; exact .same rfl
    · split at hs
      · cases hs; exact .same rfl
      · split at hs
        · cases hs
        · cases hs; exact .taken j _ (.inl rfl) rfl rfl rfl
  | stamp rid fails =>
    simp only [TransactionManager.step, TransactionManager.stampStep] at hstep
    split at hstep
    · rename_i hl
      split at hstep
      · split at hstep
        · cases hstep; exact .phase _ _ hl rfl rfl fun _ => .inr ⟨rid, fails, rfl⟩
        · split at hstep <;> cases hstep <;> exact .phase _ _ hl rfl rfl fun _ => .inr ⟨rid, fails, rfl⟩
      · cases hstep
    · cases hstep
  | publish =>
    simp only [TransactionManager.step, publishStep] at hstep
    split at hstep
    · obtain ⟨t, _, rfl⟩ := Option.map_eq_some_iff.mp hstep
      exact .free (publish_latch _)
    · cases hstep
  | unstamp fails =>
    simp only [TransactionManager.step, TransactionManager.unstampStep] at hstep
    split at hstep
    · cases hstep; exact .free rfl
    · rename_i hl
      split at hstep
      · cases hstep; exact .free rfl
      · split at hstep
        · cases hstep; exact .free rfl
        · cases hstep
          exact .phase _ _ hl rfl rfl fun _ => .inl (by simp [takingBack, hl])
    · cases hstep
  | abort j =>
    obtain ⟨t, _, hs⟩ := Option.bind_eq_some_iff.mp hstep
    unfold abortStep at hs
    split at hs
    · split at hs
      · cases hs
      · cases hs; exact .taken j _ (.inr rfl) rfl rfl rfl
    · cases hs; exact .same rfl
  | restore rid fails =>
    simp only [TransactionManager.step, restoreStep] at hstep
    split at hstep
    · rename_i hl
      split at hstep
      · cases hstep
      · split at hstep
        · cases hstep; exact .free rfl
        · split at hstep
          · cases hstep; exact .free rfl
          · cases hstep
            exact .phase _ _ hl rfl rfl fun hb => (by cases hb)
    · cases hstep
  | finishAbort =>
    simp only [TransactionManager.step, finishAbortStep] at hstep
    split at hstep
    · obtain ⟨t, _, rfl⟩ := Option.map_eq_some_iff.mp hstep
      exact .free finishAbort_latch
    · cases hstep
  | collect => cases hstep; exact .same rfl
  | collectSlot w rid =>
    simp only [TransactionManager.step, collectSlotStep] at hstep
    split at hstep
    · split at hstep
      · cases hstep; exact .same rfl
      · rename_i hc
        cases hstep
        unfold collectSlot at hc
        split at hc
        · cases hc
        · cases hc; exact .same rfl
    · cases hstep
  | collected w => cases hstep; exact .same rfl
  | pause =>
    simp only [TransactionManager.step] at hstep
    split at hstep
    · cases hstep; exact .paused rfl
    · cases hstep
  | resume =>
    simp only [TransactionManager.step] at hstep
    split at hstep
    · cases hstep; exact .free rfl
    · cases hstep

theorem step_ending {i : Nat} (hstep : s.step a = some s') (hi : s'.ending i = true) :
    s.ending i = true ∨ a = .commit i ∨ a = .abort i := by
  unfold ending at hi
  cases step_latch hstep with
  | same h => rw [h] at hi; exact .inl hi
  | free h => rw [h] at hi; cases hi
  | paused h => rw [h] at hi; cases hi
  | taken id o act h own =>
    rw [h] at hi
    have : id = i := by simpa [own] using hi
    subst this
    exact .inr act
  | phase o o' before h own =>
    rw [h] at hi
    refine .inl ?_
    unfold ending
    rw [before]
    simpa [own] using hi

theorem takingBack_of_unstamp {fails : Bool} (hstep : s.unstampStep fails = some s') : s.takingBack = true := by
  unfold TransactionManager.unstampStep at hstep
  split at hstep
  · rename_i hl; simp [takingBack, hl]
  · rename_i hl; simp [takingBack, hl]
  · cases hstep

theorem Inv.step_takingBack (h : Inv base s) (hstep : s.step a = some s') (hb : s'.takingBack = true) :
    s.takingBack = true ∨ ∃ rid, a = .stamp rid true := by
  cases step_latch hstep with
  | same hl => exact .inl (by unfold takingBack at hb ⊢; rw [← hl]; exact hb)
  | free hl => unfold takingBack at hb; rw [hl] at hb; cases hb
  | paused hl => unfold takingBack at hb; rw [hl] at hb; cases hb
  | taken id o act hl own forward => rw [forward] at hb; cases hb
  | phase o o' before hl own back =>
    rcases back hb with hb | ⟨rid, fails, rfl⟩
    · exact .inl hb
    · cases fails with
      | true => exact .inr ⟨rid, rfl⟩
      | false =>
        -- the slot is there, with its transaction's stamp
        simp only [TransactionManager.step, TransactionManager.stampStep] at hstep
        split at hstep
        · rename_i id ts todo done hl'
          split at hstep
          · rename_i hmem
            rw [if_neg (by decide)] at hstep
            obtain ⟨rfl, t, ht, hrun, hp⟩ := h.latch.committing hl'
            have hnd : rid ∉ done := by
              have hn := hp.nodup_iff.mpr (h.handles id t ht).2.2
              exact fun hd => (List.nodup_append.mp hn).2.2 rid hmem rid hd rfl
            obtain ⟨m, b, hs, hm⟩ := h.held id t rid ht (unfinished_of_running hrun)
              (hp.mem_iff.mp (List.mem_append_left _ hmem))
            have hcur : s.currentStamp id rid = .txn id := by simp [currentStamp, stampedRids, hl', hnd]
            obtain ⟨s₁, hok⟩ := stamp_succeeds (s := s) (c := .commit (s.lastCommitTs + 1)) hs (hm.trans hcur)
            rw [hok] at hstep
            cases hstep
            cases hb
          · cases hstep
        · cases hstep

theorem Change.isOpen (hc : Change a s s') (hfresh : s.txns s.nextTxnId = none) {i : Nat} (ho : s.Open i) :
    s'.Open i ∨ s.ending i = true ∨ a = .commit i := by
  cases hc with
  | quiet h => exact .inl ((h.isOpen i).mpr ho)
  | begun h =>
    obtain ⟨t, ht, hu⟩ := ho
    subst h
    have hne : i ≠ s.nextTxnId := by rintro rfl; rw [hfresh] at ht; cases ht
    exact .inl ⟨t, by simp [begin, Function.update_of_ne hne, ht], hu⟩
  | updated id txn txn' rid new s₁ m b undo _ _ logged _ handle _ _ h =>
    exact .inl ((h.isOpen handle i).mpr ((logged.isOpen i).mpr ho))
  | inserted id txn table rid data _ caller _ h => exact .inl ((h.isOpen (caller_eq caller).1 i).mpr ho)
  | restamped id txn rid m b _ _ _ _ _ _ _ rest => rw [rest]; exact .inl ho
  | ended id txn es last handle own _ he =>
    by_cases hi : i = id
    · subst hi; exact .inr own
    · obtain ⟨t, ht, hu⟩ := ho
      exact .inl ⟨t, (he.handles i hi).trans ht, hu⟩
  | restored id txn rid p s₁ _ handle _ _ h rest =>
    obtain ⟨hr, _⟩ := restore_ok h
    rw [rest]
    exact .inl ((hr.isOpen handle i).mpr ho)
  | swept w rid pass h =>
    unfold collectSlot at h
    split at h
    · cases h
    · cases h; exact .inl ho
  | passes h => rw [h]; exact .inl ho

end

end TransactionManager

end Cmudb
