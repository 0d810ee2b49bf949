import Cmudb.InvEnds

/-!
# Who answers for a slot

In every run, also one in which a failed commit could not be taken back, each
slot is committed at a published timestamp or in the write set of a transaction
that has neither committed nor been rolled back, and undo chains hold published
versions only. So once no transaction is open nothing in the heap is unpublished,
which is what garbage collection relies on to empty the chains.
-/

namespace Cmudb

namespace TransactionManager

/-- Write calls are made for transactions that have not ended: a session drops the handle then. -/
def OpenCalls (s : TransactionManager) (a : Action) : Prop := ∀ id, a.writer = some id → s.Open id

/-- A slot stamped `ts` is published, or an open transaction has it in its write set; a transaction
id as its stamp is that transaction's. -/
def AnsweredFor (s : TransactionManager) (r : RecordId) (ts : Stamp) : Prop :=
  (∃ t, ts = .commit t ∧ t ≤ s.lastCommitTs) ∨
    ∃ id txn, s.txns id = some txn ∧ txn.unfinished = true ∧ r ∈ txn.writeSet.map Prod.fst ∧
      (ts = .txn id ∨ ∃ t, ts = .commit t)

structure Settled (s : TransactionManager) : Prop where
  handles : s.HandlesInv
  registry : s.Registered
  entries : ∀ r, ∀ log ∈ s.versions r, ∃ t, log.ts = .commit t ∧ t ≤ s.lastCommitTs
  slots : ∀ r m b, s.heap.slot r = some (m, b) → s.AnsweredFor r m.ts
  latch : s.LatchInv
  stamped : ∀ id ts todo done, s.commitLatch = some (.commit id ts todo done) →
    ∀ r ∈ done, ∃ m b, s.heap.slot r = some (m, b) ∧ m.ts = .commit ts

section
variable {s s' : TransactionManager} {id : Nat} {txn : Transaction} {rid : RecordId}

theorem Initial.settled (h : s.Initial) : s.Settled where
  handles := fun id t ht => by rw [h.txns] at ht; cases ht
  registry := by
    refine ⟨[], List.nodup_nil, fun id => ?_, by rw [h.running]; exact List.Perm.refl _⟩
    simp [Open, h.txns]
  entries := fun r log hl => by rw [h.versions] at hl; cases hl
  slots := fun r m b hs => .inl (h.committed r m b hs)
  latch := by unfold LatchInv; rw [h.latch]; trivial
  stamped := fun id ts todo done hl => by rw [h.latch] at hl; cases hl

/-! ## Steps that touch no slot -/

theorem Still.taint (s : TransactionManager) (id : Nat) (latch : Option Outcome) :
    Still s { s.modifyTxn id (·.setTainted) with commitLatch := latch } :=
  ⟨rfl, rfl, rfl, rfl, rfl, modifyTxn_handles SameWrites.setTainted, modifyTxn_none⟩

theorem Still.answered (hq : Still s s') {ts : Stamp} (h : s.AnsweredFor rid ts) : s'.AnsweredFor rid ts := by
  rcases h with ⟨t, rfl, hle⟩ | ⟨i, t, ht, hu, hr, hts⟩
  · exact .inl ⟨t, rfl, by rw [hq.clock]; exact hle⟩
  · obtain ⟨t', ht', hs⟩ := hq.handles i t ht
    exact .inr ⟨i, t', ht', by rw [hs.unfinished]; exact hu, by rw [hs.writeSet]; exact hr, hts⟩

theorem Settled.still (h : s.Settled) (hq : Still s s') (hl : s'.LatchInv)
    (hst : ∀ i ts todo done, s'.commitLatch = some (.commit i ts todo done) → done = [] ∨
      s.commitLatch = s'.commitLatch) :
    s'.Settled where
  handles := hq.keepsHandles h.handles
  registry := h.registry.congr hq.running hq.isOpen hq.readTsOf
  entries := by
    rw [hq.versions, hq.clock]
    exact h.entries
  slots := by
    intro r m b hs
    rw [hq.heap] at hs
    exact hq.answered (h.slots r m b hs)
  latch := hl
  stamped := by
    intro i ts todo done hc r hr
    rw [hq.heap]
    rcases hst i ts todo done hc with rfl | he
    · cases hr
    · exact h.stamped i ts todo done (he.trans hc) r hr

theorem Settled.setLatch {latch : Option Outcome} (h : s.Settled) (hl : latch = none ∨ latch = some .paused) :
    ({ s with commitLatch := latch } : TransactionManager).Settled := by
  refine h.still (.of_eq rfl rfl rfl rfl rfl rfl) ?_ ?_
  · rcases hl with rfl | rfl <;> trivial
  · intro i ts todo done hc
    rcases hl with rfl | rfl <;> cases hc

theorem Settled.failCommit (h : s.Settled) (id : Nat) : (s.failCommit id).Settled :=
  h.still (.taint s id none) trivial fun _ _ _ _ hc => by cases hc

theorem Settled.uncommit {ts : Nat} {todo done : List RecordId} (h : s.Settled)
    (hl : s.commitLatch = some (.commit id ts todo done)) (e : TxnError) :
    ({ s with commitLatch := some (.uncommit id ts done e) } : TransactionManager).Settled := by
  refine h.still (.of_eq rfl rfl rfl rfl rfl rfl) ?_ fun _ _ _ _ hc => by cases hc
  exact h.latch.uncommit (fun t ht => (h.handles id t ht).2.2) hl e

/-! ## Writes -/

theorem Settled.not_stamped (h : s.Settled)
    (hs : ∀ m b, s.heap.slot rid = some (m, b) → m.ts = .txn id ∨ ∃ t, m.ts = .commit t ∧ t ≤ s.lastCommitTs)
    {i ts : Nat} {todo done : List RecordId} (hl : s.commitLatch = some (.commit i ts todo done)) : rid ∉ done := by
  intro hmem
  obtain ⟨m, b, hslot, hm⟩ := h.stamped i ts todo done hl rid hmem
  obtain ⟨hts, _⟩ := h.latch.committing hl
  rcases hs m b hslot with he | ⟨t, he, hle⟩
  · rw [he] at hm
    cases hm
  · rw [he] at hm
    cases hm
    omega

theorem Settled.wrote {new : Option Bytes} {old : Option Replaced} (h : s.Settled)
    (hw : Wrote s s' id txn rid new old) (ht : s.txns id = some txn) (hu : txn.unfinished = true)
    (he : s.ending id = false)
    (hs : ∀ m b, s.heap.slot rid = some (m, b) → m.ts = .txn id ∨ ∃ t, m.ts = .commit t ∧ t ≤ s.lastCommitTs)
    (hv : ∀ log ∈ s'.versions rid, ∃ t, log.ts = .commit t ∧ t ≤ s.lastCommitTs) : s'.Settled where
  handles := hw.keepsHandles ht h.handles
  registry := h.registry.congr hw.running (hw.isOpen ht) (hw.readTsOf ht)
  entries := by
    intro r log hl
    rw [hw.clock]
    by_cases hr : r = rid
    · subst hr
      exact hv log hl
    · rw [hw.versions r hr] at hl
      exact h.entries r log hl
  slots := by
    intro r m b hslot
    by_cases hr : r = rid
    · subst hr
      obtain ⟨b', hb'⟩ := hw.slot
      rw [hb'] at hslot
      cases hslot
      exact .inr ⟨id, _, hw.handle, by simpa using hu, recordWrite_keys.mpr (.inl rfl), .inl rfl⟩
    · rw [hw.slots r hr] at hslot
      rcases h.slots r m b hslot with ⟨t, hm, hle⟩ | ⟨i, t, hi, hui, hri, hm⟩
      · exact .inl ⟨t, hm, by rw [hw.clock]; exact hle⟩
      · by_cases hid : i = id
        · subst hid
          rw [ht] at hi
          cases hi
          exact .inr ⟨i, _, hw.handle, by simpa using hui, recordWrite_keys.mpr (.inr hri), hm⟩
        · exact .inr ⟨i, t, (hw.handles i hid).trans hi, hui, hri, hm⟩
  latch := h.latch.of_holder hw.latch hw.clock fun i hi => hw.handles i (ne_of_ending hi he)
  stamped := by
    intro i ts todo done hl r hr
    rw [hw.latch] at hl
    have hne : r ≠ rid := fun heq => h.not_stamped hs hl (heq ▸ hr)
    rw [hw.slots r hne]
    exact h.stamped i ts todo done hl r hr

theorem Settled.writeVersion {new : Option Bytes} (h : s.Settled) (hc : s.caller id = some txn)
    (hu : txn.unfinished = true) :
    (s.writeVersion id txn rid new).1.Settled := by
  obtain ⟨ht, he⟩ := caller_eq hc
  have hq : Quiet s ((s.logFirstWrite id txn).logUndo id txn rid new) := logFirstWrite_quiet.trans logUndo_quiet
  have hlatch : ((s.logFirstWrite id txn).logUndo id txn rid new).commitLatch = s.commitLatch :=
    logUndo_latch.trans logFirstWrite_latch
  have hends : ((s.logFirstWrite id txn).logUndo id txn rid new).ending id = false := by
    unfold ending at he ⊢
    rw [hlatch]
    exact he
  have h₁ : ((s.logFirstWrite id txn).logUndo id txn rid new).Settled := by
    refine h.still hq.toStill ?_ fun _ _ _ _ _ => .inr hlatch.symm
    refine h.latch.of_holder hlatch hq.clock fun i hi => ?_
    rw [logUndo_txns]
    exact logFirstWrite_of_ne (ne_of_ending hi he)
  cases hok : ((s.logFirstWrite id txn).logUndo id txn rid new).applyVersion id txn rid new with
  | error e => simp only [TransactionManager.writeVersion, hok]; exact h₁
  | ok s₂ =>
    simp only [TransactionManager.writeVersion, hok]
    obtain ⟨t, ht', hsame⟩ := hq.handles id txn ht
    obtain ⟨m, b, undo, hw, hp, hwr, hv⟩ := applyVersion_wrote ht' hok
    have hread : t.readTs ≤ _ := (h₁.handles id t ht').2.1
    rw [hsame.readTs] at hread
    obtain ⟨hcase, _, _⟩ := planVersion_ok hp
    refine h₁.wrote hw ht' (hsame.unfinished.trans hu) hends (fun m' b' hs => ?_) fun log hl => ?_
    · rw [hwr.old] at hs
      cases hs
      rcases hcase with ⟨hm, _⟩ | ⟨⟨t', hm, hle⟩, _⟩
      · exact .inl hm
      · exact .inr ⟨t', hm, Nat.le_trans hle hread⟩
    · rw [hv] at hl
      rcases List.mem_append.mp hl with hl | hl
      · rcases hcase with ⟨_, rfl⟩ | ⟨⟨t', hm, hle⟩, rfl⟩
        · cases hl
        · simp only [Option.map_some, Option.toList_some, List.mem_singleton] at hl
          rw [hl]
          exact ⟨t', hm, Nat.le_trans hle hread⟩
      · exact h₁.entries rid log hl

theorem Settled.insertVersion {table fresh : Nat} {data : Bytes} (h : s.Settled) (ht : s.txns id = some txn)
    (hu : txn.unfinished = true) (he : s.ending id = false)
    (hok : s.insertVersion id table fresh data = .ok (rid, s')) : s'.Settled := by
  obtain ⟨hw, hins, hv⟩ := insertVersion_wrote ht hok
  refine h.wrote hw ht hu he (fun m b hs => ?_) fun log hl => ?_
  · rw [hins.old] at hs
    cases hs
  · rw [hv] at hl
    exact h.entries rid log hl

/-! ## Stamps -/

theorem Settled.restamped {heap : Heap} {latch : Option Outcome} {m : TupleMeta} {b : Bytes} {c : Stamp}
    (h : s.Settled) (ht : s.txns id = some txn) (hu : txn.unfinished = true) (hr : rid ∈ txn.writeSet.map Prod.fst)
    (hwr : Heap.Written s.heap rid (m, b) ⟨{ m with ts := c }, none⟩ heap) (hc : c = .txn id ∨ ∃ t, c = .commit t)
    (hl : ({ s with heap, commitLatch := latch } : TransactionManager).LatchInv)
    (hst : ∀ i ts todo done, latch = some (.commit i ts todo done) →
      ∀ r ∈ done, ∃ m b, heap.slot r = some (m, b) ∧ m.ts = .commit ts) :
    ({ s with heap, commitLatch := latch } : TransactionManager).Settled where
  handles := h.handles
  registry := h.registry
  entries := h.entries
  slots := by
    intro r m' b' hs
    by_cases hrr : r = rid
    · subst hrr
      rw [hwr.new] at hs
      cases hs
      exact .inr ⟨id, txn, ht, hu, hr, hc⟩
    · rw [hwr.frame r hrr] at hs
      exact h.slots r m' b' hs
  latch := hl
  stamped := hst

theorem Settled.stampStep {fails : Bool} (h : s.Settled) (hstep : s.stampStep rid fails = some s') :
    s'.Settled := by
  unfold TransactionManager.stampStep at hstep
  split at hstep
  · rename_i id ts todo done hl
    split at hstep
    · rename_i hmem
      split at hstep
      · cases hstep
        exact h.uncommit hl _
      · split at hstep
        · cases hstep
          exact h.uncommit hl _
        · rename_i s₁ hok
          cases hstep
          obtain ⟨m, b, _, hwr, hs₁⟩ := stamp_ok hok
          rw [hs₁]
          obtain ⟨hts, t, ht, hrun, hp⟩ := h.latch.committing hl
          have hkey : rid ∈ t.writeSet.map Prod.fst := hp.mem_iff.mp (List.mem_append_left _ hmem)
          refine h.restamped ht (unfinished_of_running hrun) hkey hwr (.inr ⟨ts, rfl⟩)
            ⟨hts, t, ht, hrun, (perm_stamped hmem done).trans hp⟩ ?_
          intro i ts' todo' done' hc r hr
          cases hc
          by_cases hrr : r = rid
          · subst hrr
            exact ⟨_, _, hwr.new, rfl⟩
          · rcases List.mem_append.mp hr with hr | hr
            · rw [hwr.frame r hrr]
              exact h.stamped _ _ _ _ hl r hr
            · exact absurd (List.mem_singleton.mp hr) hrr
    · cases hstep
  · cases hstep

theorem Settled.unstampStep {fails : Bool} (h : s.Settled) (hstep : s.unstampStep fails = some s') :
    s'.Settled := by
  unfold TransactionManager.unstampStep at hstep
  split at hstep
  · cases hstep
    exact h.failCommit _
  · rename_i id ts rid done cause hl
    obtain ⟨hts, t, ht, hrun, hn, hk⟩ := h.latch.uncommitting hl
    split at hstep
    · cases hstep
      exact h.failCommit _
    · split at hstep
      · cases hstep
        exact h.failCommit _
      · rename_i s₁ hok
        cases hstep
        obtain ⟨m, b, _, hwr, hs₁⟩ := stamp_ok hok
        rw [hs₁]
        refine h.restamped ht (unfinished_of_running hrun) (hk rid List.mem_cons_self) hwr (.inl rfl)
          ⟨hts, t, ht, hrun, (List.nodup_cons.mp hn).2, fun r hr => hk r (List.mem_cons_of_mem _ hr)⟩ ?_
        intro i ts' todo' done' hc
        cases hc
  · cases hstep

/-! ## Endings and beginnings -/

theorem Settled.ended {es : List Event} {last : Nat} (h : s.Settled) (he : Ended s s' id txn es last)
    (ht : s.txns id = some txn) (hu : txn.unfinished = true) (hle : s.lastCommitTs ≤ last)
    (hrows : ∀ r m b, s.heap.slot r = some (m, b) → r ∈ txn.writeSet.map Prod.fst →
      ∃ t, m.ts = .commit t ∧ t ≤ last)
    (hl : s'.LatchInv)
    (hst : ∀ i ts todo done, s'.commitLatch = some (.commit i ts todo done) → s.commitLatch = s'.commitLatch) :
    s'.Settled where
  handles := he.keepsHandles ht hle h.handles
  registry := by
    refine h.registry.ended ht hu (fun t h1 => ?_) he.handles he.running
    obtain ⟨t', h2, _, _, h4⟩ := he.handle
    rw [h1] at h2
    cases h2
    exact h4
  entries := by
    intro r log hlog
    rw [he.versions] at hlog
    rw [he.clock]
    obtain ⟨t, h1, h2⟩ := h.entries r log hlog
    exact ⟨t, h1, Nat.le_trans h2 hle⟩
  slots := by
    intro r m b hs
    rw [he.heap] at hs
    unfold AnsweredFor
    rw [he.clock]
    rcases h.slots r m b hs with ⟨t, hm, hp⟩ | ⟨i, t, hi, hui, hri, hm⟩
    · exact .inl ⟨t, hm, Nat.le_trans hp hle⟩
    · by_cases hid : i = id
      · subst hid
        rw [ht] at hi
        cases hi
        exact .inl (hrows r m b hs hri)
      · exact .inr ⟨i, t, (he.handles i hid).trans hi, hui, hri, hm⟩
  latch := hl
  stamped := by
    intro i ts todo done hc r hr
    rw [he.heap]
    exact h.stamped i ts todo done ((hst i ts todo done hc).trans hc) r hr

theorem Settled.publish {ts : Nat} {done : List RecordId} (h : s.Settled)
    (hl : s.commitLatch = some (.commit id ts [] done)) (ht : s.txns id = some txn) :
    (s.publish id txn ts).Settled := by
  obtain ⟨rfl, t, ht', hrun, hp⟩ := h.latch.committing hl
  rw [ht] at ht'
  cases ht'
  rw [List.nil_append] at hp
  refine h.ended (publish_ended ht _) ht (unfinished_of_running hrun) (Nat.le_succ _) (fun r m b hs hr => ?_) ?_ ?_
  · obtain ⟨m', b', hs', hm⟩ := h.stamped _ _ _ _ hl r (hp.mem_iff.mpr hr)
    rw [hs] at hs'
    cases hs'
    exact ⟨_, hm, Nat.le_refl _⟩
  · unfold LatchInv
    rw [publish_latch]
    trivial
  · intro i ts todo done hc
    rw [publish_latch] at hc
    cases hc

theorem Settled.commitReadOnly (h : s.Settled) (hc : s.caller id = some txn) (hr : txn.state = .running)
    (hws : txn.writeSet = []) : (s.commitReadOnly id txn).Settled := by
  obtain ⟨ht, hend⟩ := caller_eq hc
  have he := commitReadOnly_ended ht
  refine h.ended he ht (unfinished_of_running hr) (Nat.le_refl _) (fun r m b _ hk => ?_) ?_ fun _ _ _ _ _ => rfl
  · rw [hws] at hk
    cases hk
  · exact h.latch.of_holder rfl rfl fun i hi => he.handles i (ne_of_ending hi hend)

theorem Settled.finishAbort (h : s.Settled) (hl : s.commitLatch = some (.abort id [])) (ht : s.txns id = some txn) :
    (s.finishAbort id txn).Settled := by
  obtain ⟨t, ht', hst, hws⟩ := h.latch.aborting hl
  rw [ht] at ht'
  cases ht'
  refine h.ended (finishAbort_ended ht) ht (unfinished_of_tainted hst) (Nat.le_refl _) (fun r m b _ hk => ?_) ?_ ?_
  · rw [← hws] at hk
    cases hk
  · unfold LatchInv
    rw [finishAbort_latch]
    trivial
  · intro i ts todo done hc
    rw [finishAbort_latch] at hc
    cases hc

theorem Settled.begin (h : s.Settled) : s.begin.2.Settled := by
  have hfresh := h.handles.fresh
  refine ⟨h.handles.begin, h.registry.begin hfresh, h.entries, fun r m b hs => ?_, h.latch.begin hfresh, h.stamped⟩
  rcases h.slots r m b hs with hp | ⟨i, t, hi, hui, hri, hm⟩
  · exact .inl hp
  · have hne : i ≠ s.nextTxnId := by
      rintro rfl
      rw [hfresh] at hi
      cases hi
    exact .inr ⟨i, t, (begin_others s i hne).trans hi, hui, hri, hm⟩

/-! ## Rolling back -/

theorem Settled.restored {todo : List (RecordId × Bool)} {pushedUndo : Bool} (h : s.Settled)
    (hl : s.commitLatch = some (.abort id todo)) (hok : s.restore id rid pushedUndo = .ok s') :
    ({ s' with commitLatch := some (.abort id (todo.filter fun e => e.1 ≠ rid)) } :
      TransactionManager).Settled := by
  obtain ⟨hr, m, b, hs, hm, hcase⟩ := restore_ok hok
  obtain ⟨t, ht, hst, rfl⟩ := h.latch.aborting hl
  refine ⟨hr.keepsHandles ht h.handles, h.registry.congr hr.running (hr.isOpen ht) (hr.readTsOf ht),
    fun r log hlog => ?_, fun r m' b' hs' => ?_, ⟨_, hr.self ht, hst, rfl⟩, fun _ _ _ _ hc => by cases hc⟩
  · show ∃ t, log.ts = .commit t ∧ t ≤ s'.lastCommitTs
    rw [hr.clock]
    by_cases hrr : r = rid
    · subst hrr
      rcases hcase with ⟨_, _, hv⟩ | ⟨_, head, hv, _⟩
      · exact h.entries r log (hv ▸ hlog)
      · exact h.entries r log (hv ▸ List.mem_cons_of_mem head hlog)
    · exact h.entries r log (hr.versions r hrr ▸ hlog)
  · by_cases hrr : r = rid
    · subst hrr
      left
      show ∃ t, m'.ts = .commit t ∧ t ≤ s'.lastCommitTs
      rw [hr.clock]
      rcases hcase with ⟨_, hslot, _⟩ | ⟨_, head, hv, hslot⟩
      · rw [show s'.heap.slot r = some (m', b') from hs'] at hslot
        cases hslot
        exact ⟨0, rfl, Nat.zero_le _⟩
      · rw [show s'.heap.slot r = some (m', b') from hs'] at hslot
        cases hslot
        exact h.entries r head (hv ▸ List.mem_cons_self)
    · have hs' : s'.heap.slot r = some (m', b') := hs'
      rw [hr.slots r hrr] at hs'
      rcases h.slots r m' b' hs' with ⟨t', hm', hle⟩ | ⟨i, t', hi, hui, hri, hm'⟩
      · exact .inl ⟨t', hm', by show t' ≤ s'.lastCommitTs; rw [hr.clock]; exact hle⟩
      · by_cases hid : i = id
        · subst hid
          rw [ht] at hi
          cases hi
          exact .inr ⟨i, _, hr.self ht, hui, forgetWrite_keys.mpr ⟨hrr, hri⟩, hm'⟩
        · exact .inr ⟨i, t', (hr.others hid).trans hi, hui, hri, hm'⟩

/-! ## Every run -/

theorem Settled.collectSlot {w : Nat} (h : s.Settled) (hok : s.collectSlot w rid = .ok s') : s'.Settled := by
  unfold TransactionManager.collectSlot at hok
  split at hok
  · cases hok
  · rename_i tmeta bytes _
    cases hok
    refine ⟨h.handles, h.registry, fun r log hlog => ?_, h.slots, h.latch, h.stamped⟩
    by_cases hr : r = rid
    · subst hr
      apply h.entries r log
      simp only [Function.update_self] at hlog
      unfold collect at hlog
      split at hlog
      · cases hlog
      · exact (Lib.cutThrough_isPrefix _ _).subset hlog
    · simp only [Function.update_of_ne hr] at hlog
      exact h.entries r log hlog

theorem Settled.step {a : Action} (h : s.Settled) (hok : OpenCalls s a) (hstep : s.step a = some s') :
    s'.Settled := by
  have hopen : ∀ i t, a.writer = some i → s.caller i = some t → t.unfinished = true := by
    intro i t hw hc
    obtain ⟨t', ht', hu⟩ := hok i hw
    rw [(caller_eq hc).1] at ht'
    cases ht'
    exact hu
  cases a with
  | begin => cases hstep; exact h.begin
  | logFirstWrite i =>
    obtain ⟨t, hc, rfl⟩ := Option.map_eq_some_iff.mp hstep
    refine h.still logFirstWrite_quiet.toStill ?_ fun _ _ _ _ _ => .inr logFirstWrite_latch.symm
    exact h.latch.of_holder logFirstWrite_latch logFirstWrite_quiet.clock fun _ hi =>
      logFirstWrite_of_ne (ne_of_ending hi (caller_eq hc).2)
  | write i rid new =>
    obtain ⟨t, hc, rfl⟩ := Option.map_eq_some_iff.mp hstep
    exact h.writeVersion hc (hopen i t rfl hc)
  | insert i table fresh data =>
    obtain ⟨t, hc, rfl⟩ := Option.map_eq_some_iff.mp hstep
    obtain ⟨ht, he⟩ := caller_eq hc
    split
    · exact h
    · rename_i hins
      exact h.insertVersion ht (hopen i t rfl hc) he hins
  | taint i =>
    obtain ⟨t, hc, rfl⟩ := Option.map_eq_some_iff.mp hstep
    refine h.still (.taint s i s.commitLatch) ?_ fun _ _ _ _ _ => .inr rfl
    exact h.latch.of_holder rfl rfl fun _ hi => modifyTxn_of_ne (ne_of_ending hi (caller_eq hc).2)
  | commit i =>
    obtain ⟨t, hc, hs⟩ := Option.bind_eq_some_iff.mp hstep
    unfold commitStep at hs
    split at hs
    · cases hs; exact h
    · rename_i hrun
      have hrun : t.state = .running := by simpa using hrun
      split at hs
      · rename_i hws
        cases hs
        exact h.commitReadOnly hc hrun hws
      · split at hs
        · cases hs
        · rename_i hl
          cases hs
          refine h.still (.of_eq rfl rfl rfl rfl rfl rfl) ⟨rfl, t, (caller_eq hc).1, hrun, by simp⟩ ?_
          intro i ts todo done hc
          cases hc
          exact .inl rfl
  | stamp rid fails => exact h.stampStep hstep
  | publish =>
    simp only [TransactionManager.step, publishStep] at hstep
    split at hstep
    · rename_i i ts done hl
      obtain ⟨t, ht, rfl⟩ := Option.map_eq_some_iff.mp hstep
      exact h.publish hl ht
    · cases hstep
  | unstamp fails => exact h.unstampStep hstep
  | abort i =>
    obtain ⟨t, hc, hs⟩ := Option.bind_eq_some_iff.mp hstep
    unfold abortStep at hs
    split at hs
    · rename_i hu
      split at hs
      · cases hs
      · cases hs
        refine h.still (.taint s i _) ?_ fun _ _ _ _ hc => by cases hc
        exact ⟨t.setTainted, modifyTxn_self (caller_eq hc).1, setTainted_state hu, by simp⟩
    · cases hs; exact h
  | restore rid fails =>
    simp only [TransactionManager.step, restoreStep] at hstep
    split at hstep
    · rename_i i todo hl
      split at hstep
      · cases hstep
      · split at hstep
        · cases hstep; exact h.setLatch (.inl rfl)
        · split at hstep
          · cases hstep; exact h.setLatch (.inl rfl)
          · rename_i s₁ hok'
            cases hstep
            exact h.restored hl hok'
    · cases hstep
  | finishAbort =>
    simp only [TransactionManager.step, finishAbortStep] at hstep
    split at hstep
    · rename_i i hl
      obtain ⟨t, ht, rfl⟩ := Option.map_eq_some_iff.mp hstep
      exact h.finishAbort hl ht
    · cases hstep
  | collect =>
    cases hstep
    exact h.still (.of_eq rfl rfl rfl rfl rfl rfl) h.latch fun _ _ _ _ _ => .inr rfl
  | collectSlot w rid =>
    simp only [TransactionManager.step, collectSlotStep] at hstep
    split at hstep
    · split at hstep
      · cases hstep
        exact h.still (.of_eq rfl rfl rfl rfl rfl rfl) h.latch fun _ _ _ _ _ => .inr rfl
      · rename_i hc
        cases hstep
        exact h.collectSlot hc
    · cases hstep
  | collected w =>
    cases hstep
    exact h.still (.of_eq rfl rfl rfl rfl rfl rfl) h.latch fun _ _ _ _ _ => .inr rfl
  | pause =>
    simp only [TransactionManager.step] at hstep
    split at hstep
    · cases hstep
      exact h.setLatch (.inr rfl)
    · cases hstep
  | resume =>
    simp only [TransactionManager.step] at hstep
    split at hstep
    · cases hstep
      exact h.setLatch (.inl rfl)
    · cases hstep

theorem Settled.run {s₀ : TransactionManager} (h₀ : s₀.Initial)
    (hr : Lib.Steps TransactionManager.step OpenCalls s₀ s) : s.Settled :=
  hr.invariant (fun h hok hs => h.step hok hs) h₀.settled

end

end TransactionManager

end Cmudb
