import Cmudb.Conflicts
import Cmudb.Rollback

/-!
# Whole calls of the transaction manager

`commit` and `garbageCollect` as whole calls, with the order in which hash maps
give up their entries and the record ids storage fails at as parameters
(`abort` is in `Rollback`). A call that ends with everything put back is a run
of the single steps. A commit that cannot take a stamp back leaves a state that
differs from such a run's state in the stamps of some slots only, and no abort
gets past those slots.
-/

namespace Cmudb

def Outcome.stamped (rid : RecordId) : Outcome → Outcome
  | commit id ts todo done => commit id ts (todo.erase rid) (done ++ [rid])
  | o => o

namespace TransactionManager

/-- The loop that takes the stamps of a failed commit back, and the error of the call. -/
def unstampAll (s : TransactionManager) (id ts : Nat) (cause : TxnError) (fails : RecordId → Bool) :
    List RecordId → TransactionManager × TxnError
  | [] => (s.failCommit id, cause)
  | rid :: rest =>
    if fails rid then (s.failCommit id, .commitNotUndone cause rid (.storage .bpm))
    else match s.stamp rid (.commit ts) (.txn id) with
      | .error undo => (s.failCommit id, .commitNotUndone cause rid undo)
      | .ok s => unstampAll { s with commitLatch := some (.uncommit id ts rest cause) } id ts cause fails rest

def takeBack (s : TransactionManager) (id ts : Nat) (done : List RecordId) (cause : TxnError)
    (undoFails : RecordId → Bool) : TransactionManager × Except TxnError Nat :=
  let (s, e) := unstampAll { s with commitLatch := some (.uncommit id ts done cause) } id ts cause undoFails done
  (s, .error e)

/-- The loop of `commit` and what follows it. -/
def stampAll (s : TransactionManager) (id ts : Nat) (fails undoFails : RecordId → Bool) (done : List RecordId) :
    List RecordId → TransactionManager × Except TxnError Nat
  | [] => match s.txns id with
    | some txn => (s.publish id txn ts, .ok ts)
    | none => (s, .ok ts)
  | rid :: rest =>
    if fails rid then s.takeBack id ts done (.storage .bpm) undoFails
    else match s.stamp rid (.txn id) (.commit ts) with
      | .error e => s.takeBack id ts done e undoFails
      | .ok s => stampAll { s with commitLatch := s.commitLatch.map (Outcome.stamped rid) } id ts fails undoFails
          (done ++ [rid]) rest

/-- `commit`, which finds its write set in some order. -/
def commit (s : TransactionManager) (id : Nat) (txn : Transaction) (order : List (RecordId × Bool))
    (fails undoFails : RecordId → Bool) : TransactionManager × Except TxnError Nat :=
  if txn.state ≠ .running then (s, .error (.invalidState txn.state))
  else if txn.writeSet = [] then (s.commitReadOnly id txn, .ok s.lastCommitTs)
  else
    let ts := s.lastCommitTs + 1
    stampAll { s with commitLatch := some (.commit id ts (txn.writeSet.map Prod.fst) []) } id ts fails undoFails []
      (order.map Prod.fst)

/-- The loop of `garbage_collect`, which stops at the first slot it cannot read. -/
def collectAll (s : TransactionManager) (watermark : Nat) (fails : RecordId → Bool) :
    List RecordId → TransactionManager
  | [] => s
  | rid :: rest =>
    if fails rid then s
    else match s.collectSlot watermark rid with
      | .error _ => s
      | .ok s => collectAll s watermark fails rest

def garbageCollect (s : TransactionManager) (rids : List RecordId) (fails : RecordId → Bool) : TransactionManager :=
  let w := s.watermark
  let s := collectAll { s with passes := w :: s.passes } w fails rids
  { s with passes := s.passes.erase w }

def committedRow (s : TransactionManager) (r : RecordId) : Option Bytes :=
  s.visible s.nextTxnId (.new s.lastCommitTs) r

/-- A whole call for the transaction `id`: a run that leaves the latch free and the handles of
the others alone. -/
structure Called (s s' : TransactionManager) (id : Nat) (state : TransactionState) : Prop where
  run : Lib.Steps step PutBack s s'
  latch : s'.commitLatch = none
  handle : ∃ t, s'.txns id = some t ∧ t.state = state
  others : ∀ i, i ≠ id → s'.txns i = s.txns i
  events : state ≠ .committed → s'.events = s.events

theorem Called.after {s s₁ s' : TransactionManager} {id : Nat} {state : TransactionState}
    (h : Called s₁ s' id state) (hr : Lib.Steps step PutBack s s₁) (ho : ∀ i, i ≠ id → s₁.txns i = s.txns i)
    (he : s₁.events = s.events) :
    Called s s' id state :=
  ⟨hr.trans h.run, h.latch, h.handle, fun i hi => (h.others i hi).trans (ho i hi), fun hs => (h.events hs).trans he⟩

section
variable {base : RecordId → List Version} {s s' : TransactionManager} {id ts : Nat} {txn : Transaction}
  {rid : RecordId} {done todo order : List RecordId} {cause : TxnError}

/-! ## Commits that fail -/

theorem failCommit_handle (ht : s.txns id = some txn) (hr : txn.state = .running) :
    ∃ t, (s.failCommit id).txns id = some t ∧ t.state = .tainted :=
  ⟨txn.setTainted, modifyTxn_self ht, setTainted_state (unfinished_of_running hr)⟩

theorem failCommit_others {i : Nat} (hi : i ≠ id) : (s.failCommit id).txns i = s.txns i := modifyTxn_of_ne hi

theorem unstampAll_called (fails : RecordId → Bool) : ∀ {done : List RecordId} {s : TransactionManager},
    s.commitLatch = some (.uncommit id ts done cause) → s.txns id = some txn → txn.state = .running →
    ∃ s' e, s.unstampAll id ts cause fails done = (s', e) ∧
      (Called s s' id .tainted ∨ ∃ u rid rest, Lib.Steps step PutBack s u ∧
        u.commitLatch = some (.uncommit id ts (rid :: rest) cause) ∧ u.txns = s.txns ∧ s' = u.failCommit id) := by
  intro done
  induction done with
  | nil =>
    intro s hl ht hr
    refine ⟨_, _, rfl, .inl ⟨.tail .refl (a := .unstamp false) (by simp [PutBack]) ?_, rfl, failCommit_handle ht hr,
      fun i hi => failCommit_others hi, fun _ => rfl⟩⟩
    simp only [step, unstampStep, hl]
  | cons rid rest ih =>
    intro s hl ht hr
    by_cases hf : fails rid = true
    · exact ⟨_, _, by rw [unstampAll, if_pos hf], .inr ⟨s, rid, rest, .refl, hl, rfl, rfl⟩⟩
    · cases hs : s.stamp rid (.commit ts) (.txn id) with
      | error undo =>
        exact ⟨_, _, by rw [unstampAll, if_neg hf, hs], .inr ⟨s, rid, rest, .refl, hl, rfl, rfl⟩⟩
      | ok s₁ =>
        obtain ⟨m, b, _, _, hs₁⟩ := stamp_ok hs
        have ht₁ : s₁.txns = s.txns := by rw [hs₁]
        have hstep : Lib.Steps step PutBack s { s₁ with commitLatch := some (.uncommit id ts rest cause) } := by
          refine .tail .refl (a := .unstamp false) (by simp [PutBack]) ?_
          simp only [step, unstampStep, hl, hs]
          simp
        obtain ⟨s', e, heq, hcase⟩ := ih (s := { s₁ with commitLatch := some (.uncommit id ts rest cause) }) rfl
          (by rw [← ht, ← ht₁]) hr
        refine ⟨s', e, by rw [unstampAll, if_neg hf, hs]; exact heq, ?_⟩
        rcases hcase with hc | ⟨u, r, rest', hu, hul, hut, hus⟩
        · exact .inl (hc.after hstep (fun i _ => by rw [← ht₁]) (by rw [hs₁]))
        · exact .inr ⟨u, r, rest', hstep.trans hu, hul, hut.trans ht₁, hus⟩

/-- How a call of `commit` can end for a running transaction: committed, with every stamp
taken back, or with the stamps of `rid :: rest` left behind. -/
inductive CommitEnds (s : TransactionManager) (id : Nat) : TransactionManager × Except TxnError Nat → Prop where
  | committed {s' : TransactionManager} {ts : Nat} (call : Called s s' id .committed) : CommitEnds s id (s', .ok ts)
  | putBack {s' : TransactionManager} {e : TxnError} (call : Called s s' id .tainted) :
      CommitEnds s id (s', .error e)
  | notUndone {u : TransactionManager} {e cause : TxnError} {ts : Nat} {rid : RecordId} {rest : List RecordId}
      (run : Lib.Steps step PutBack s u) (latch : u.commitLatch = some (.uncommit id ts (rid :: rest) cause))
      (handles : u.txns = s.txns) : CommitEnds s id (u.failCommit id, .error e)

theorem CommitEnds.after {s₁ : TransactionManager} {res : TransactionManager × Except TxnError Nat}
    (h : CommitEnds s₁ id res) (hr : Lib.Steps step PutBack s s₁) (ht : s₁.txns = s.txns)
    (he : s₁.events = s.events) :
    CommitEnds s id res := by
  have ho : ∀ i, i ≠ id → s₁.txns i = s.txns i := fun i _ => by rw [ht]
  cases h with
  | committed call => exact .committed (call.after hr ho he)
  | putBack call => exact .putBack (call.after hr ho he)
  | notUndone run latch handles => exact .notUndone (hr.trans run) latch (handles.trans ht)

theorem takeBack_ends (undoFails : RecordId → Bool) (hstep : Lib.Steps step PutBack s
      { s with commitLatch := some (.uncommit id ts done cause) })
    (ht : s.txns id = some txn) (hr : txn.state = .running) :
    CommitEnds s id (s.takeBack id ts done cause undoFails) := by
  refine CommitEnds.after ?_ hstep rfl rfl
  obtain ⟨s', e, heq, hcase⟩ := unstampAll_called undoFails
    (s := { s with commitLatch := some (.uncommit id ts done cause) }) rfl ht hr
  unfold takeBack
  rw [heq]
  rcases hcase with hc | ⟨u, rid, rest, hu, hl, htx, rfl⟩
  · exact .putBack hc
  · exact .notUndone hu hl htx

theorem stampAll_ends (fails undoFails : RecordId → Bool) :
    ∀ {order todo done : List RecordId} {s : TransactionManager},
    s.commitLatch = some (.commit id ts todo done) → order.Perm todo → s.txns id = some txn → txn.state = .running →
    CommitEnds s id (s.stampAll id ts fails undoFails done order) := by
  intro order
  induction order with
  | nil =>
    intro todo done s hl hp ht hr
    cases hp.symm.eq_nil
    rw [stampAll, ht]
    have he := publish_ended ht ts
    refine .committed ⟨.tail .refl (a := .publish) (by simp [PutBack]) ?_, publish_latch ts,
      ⟨_, publish_handle ht ts, rfl⟩, he.handles, fun hs => absurd rfl hs⟩
    simp only [step, publishStep, hl, ht, Option.map_some]
  | cons rid rest ih =>
    intro todo done s hl hp ht hr
    have hmem : rid ∈ todo := hp.mem_iff.mp List.mem_cons_self
    by_cases hf : fails rid = true
    · rw [stampAll, if_pos hf]
      refine takeBack_ends undoFails (.tail .refl (a := .stamp rid true) (by simp [PutBack]) ?_) ht hr
      simp only [step, stampStep, hl, if_pos hmem, if_true]
    · rw [stampAll, if_neg hf]
      cases hs : s.stamp rid (.txn id) (.commit ts) with
      | error e =>
        refine takeBack_ends undoFails (.tail .refl (a := .stamp rid false) (by simp [PutBack]) ?_) ht hr
        simp only [step, stampStep, hl, if_pos hmem, hs]
        simp
      | ok s₁ =>
        obtain ⟨m, b, _, _, hs₁⟩ := stamp_ok hs
        have ht₁ : s₁.txns = s.txns := by rw [hs₁]
        have hl₁ : s₁.commitLatch.map (Outcome.stamped rid) =
            some (.commit id ts (todo.erase rid) (done ++ [rid])) := by
          rw [hs₁, hl]; rfl
        simp only
        rw [hl₁]
        have hends := ih (s := { s₁ with commitLatch := some (.commit id ts (todo.erase rid) (done ++ [rid])) }) rfl
          (List.cons_perm_iff_perm_erase.mp hp).2 (ht₁ ▸ ht) hr
        refine hends.after (.tail .refl (a := .stamp rid false) (by simp [PutBack]) ?_) ht₁ (by rw [hs₁])
        simp only [step, stampStep, hl, if_pos hmem, hs]
        simp

theorem caller_of_free (hfree : s.commitLatch = none) : s.caller id = s.txns id := by
  simp [caller, ending, hfree]

/-- The whole call: a handle that is not running is refused, and the state is as before. -/
theorem commit_ends (hfree : s.commitLatch = none) (ht : s.txns id = some txn) {order : List (RecordId × Bool)}
    (hp : order.Perm txn.writeSet) (fails undoFails : RecordId → Bool) :
    (txn.state = .running ∧ CommitEnds s id (s.commit id txn order fails undoFails)) ∨
      (txn.state ≠ .running ∧ ∃ e, s.commit id txn order fails undoFails = (s, .error e)) := by
  by_cases hr : txn.state = .running
  · left
    refine ⟨hr, ?_⟩
    unfold commit
    rw [if_neg (not_not.mpr hr)]
    split
    · rename_i hws
      have he := commitReadOnly_ended ht
      refine .committed ⟨.tail .refl (a := .commit id) (by simp [PutBack]) ?_, hfree,
        ⟨_, commitReadOnly_handle ht, rfl⟩, he.handles, fun hs => absurd rfl hs⟩
      simp only [step, caller_of_free hfree, ht, Option.bind_some, commitStep, hr, hws]
      simp
    · rename_i hws
      have hends := stampAll_ends fails undoFails
        (s := { s with commitLatch := some (.commit id (s.lastCommitTs + 1) (txn.writeSet.map Prod.fst) []) }) rfl
        (hp.map Prod.fst) ht hr
      refine hends.after (.tail .refl (a := .commit id) (by simp [PutBack]) ?_) rfl rfl
      simp only [step, caller_of_free hfree, ht, Option.bind_some, commitStep, hr, hfree]
      simp [hws]
  · exact .inr ⟨hr, _, by rw [commit, if_pos hr]⟩

end

/-! ## Aborts and collections as runs -/

section
variable {base : RecordId → List Version} {s s' : TransactionManager} {id ts : Nat} {txn : Transaction}
  {rid : RecordId}

theorem find?_key {p : Bool} {todo : List (RecordId × Bool)} (hmem : (rid, p) ∈ todo)
    (hnd : (todo.map Prod.fst).Nodup) :
    todo.find? (fun e => e.1 = rid) = some (rid, p) := by
  cases hf : todo.find? (fun e => e.1 = rid) with
  | none => simpa using List.find?_eq_none.mp hf _ hmem
  | some e =>
    obtain ⟨r, q⟩ := e
    obtain rfl : r = rid := by simpa using List.find?_some hf
    rw [flag_unique hnd hmem (List.mem_of_find?_eq_some hf)]

theorem restore_stops {p : Bool} {todo : List (RecordId × Bool)} (hl : s.commitLatch = some (.abort id todo))
    (hmem : (rid, p) ∈ todo) (hnd : (todo.map Prod.fst).Nodup) (ht : s.txns id = some txn)
    (hst : txn.state = .tainted) :
    Called s { s with commitLatch := none } id .tainted := by
  refine ⟨.tail .refl (a := .restore rid true) (by simp [PutBack]) ?_, rfl, ⟨txn, ht, hst⟩,
    fun _ _ => rfl, fun _ => rfl⟩
  simp only [step, restoreStep, hl, find?_key hmem hnd]
  simp

theorem restore_step {p : Bool} {todo : List (RecordId × Bool)} (hl : s.commitLatch = some (.abort id todo))
    (hmem : (rid, p) ∈ todo) (hnd : (todo.map Prod.fst).Nodup) (hok : s.restore id rid p = .ok s') :
    Lib.Steps step PutBack s { s' with commitLatch := s'.commitLatch.map (Outcome.forget rid) } := by
  obtain ⟨hr, _⟩ := restore_ok hok
  refine .tail .refl (a := .restore rid false) (by simp [PutBack]) ?_
  simp only [step, restoreStep, hl, find?_key hmem hnd, hok, hr.latch]
  rfl

theorem keys_nodup_filter {todo : List (RecordId × Bool)} (hnd : (todo.map Prod.fst).Nodup) :
    ((todo.filter fun e => e.1 ≠ rid).map Prod.fst).Nodup :=
  (List.filter_sublist.map Prod.fst).nodup hnd

theorem restoreAll_called (fails : RecordId → Bool) :
    ∀ {order todo : List (RecordId × Bool)} {s : TransactionManager}
    {txn : Transaction}, s.commitLatch = some (.abort id todo) → order.Perm todo → (todo.map Prod.fst).Nodup →
    s.txns id = some txn → txn.state = .tainted →
    (∃ s', s.restoreAll id fails order = (s', .ok ()) ∧ Called s s' id .aborted) ∨
      ∃ s' e, s.restoreAll id fails order = (s', .error e) ∧ Called s s' id .tainted := by
  intro order
  induction order with
  | nil =>
    intro todo s txn hl hp _ ht hst
    cases hp.symm.eq_nil
    have he := finishAbort_ended ht
    refine .inl ⟨s.finishAbort id txn, by rw [restoreAll, ht],
      .tail .refl (a := .finishAbort) (by simp [PutBack]) ?_, finishAbort_latch, ⟨_, finishAbort_handle ht, rfl⟩,
      he.handles, fun _ => he.events⟩
    simp only [step, finishAbortStep, hl, ht, Option.map_some]
  | cons en order ih =>
    obtain ⟨rid, p⟩ := en
    intro todo s txn hl hp hnd ht hst
    have hmem : (rid, p) ∈ todo := hp.mem_iff.mp List.mem_cons_self
    by_cases hf : fails rid = true
    · exact .inr ⟨_, _, by rw [restoreAll, if_pos hf], restore_stops hl hmem hnd ht hst⟩
    · cases hok : s.restore id rid p with
      | error e => exact .inr ⟨_, _, by rw [restoreAll, if_neg hf, hok], restore_stops hl hmem hnd ht hst⟩
      | ok s₁ =>
        obtain ⟨hr, _⟩ := restore_ok hok
        have hl₁ : s₁.commitLatch.map (Outcome.forget rid) = some (.abort id (todo.filter fun e => e.1 ≠ rid)) := by
          rw [hr.latch, hl]; rfl
        have hloop : s.restoreAll id fails ((rid, p) :: order) =
            ({ s₁ with commitLatch := s₁.commitLatch.map (Outcome.forget rid) }).restoreAll id fails order := by
          rw [restoreAll, if_neg hf, hok]
        have hcall : ∀ {s' state}, Called { s₁ with
            commitLatch := s₁.commitLatch.map (Outcome.forget rid) } s' id state →
            Called s s' id state := fun hc => hc.after (restore_step hl hmem hnd hok) (fun _ => hr.others) hr.events
        rw [hloop]
        rcases ih (s := { s₁ with commitLatch := s₁.commitLatch.map (Outcome.forget rid) }) hl₁
          (perm_filter_cons hp hnd)
          (keys_nodup_filter hnd) (hr.self ht) hst with ⟨s', h1, h2⟩ | ⟨s', e, h1, h2⟩
        · exact .inl ⟨s', h1, hcall h2⟩
        · exact .inr ⟨s', e, h1, hcall h2⟩

theorem abort_step (hfree : s.commitLatch = none) (ht : s.txns id = some txn) (hu : txn.unfinished = true) :
    Lib.Steps step PutBack s { s.modifyTxn id (·.setTainted) with
      commitLatch := some (.abort id txn.writeSet) } := by
  refine .tail .refl (a := .abort id) (by simp [PutBack]) ?_
  simp only [step, caller_of_free hfree, ht, Option.bind_some, abortStep, hu, hfree, if_true]

theorem abort_called (hfree : s.commitLatch = none) (ht : s.txns id = some txn) (hu : txn.unfinished = true)
    (hnd : (txn.writeSet.map Prod.fst).Nodup) {order : List (RecordId × Bool)} (hp : order.Perm txn.writeSet)
    (fails : RecordId → Bool) :
    (∃ s', s.abort id txn order fails = (s', .ok ()) ∧ Called s s' id .aborted) ∨
      ∃ s' e, s.abort id txn order fails = (s', .error e) ∧ Called s s' id .tainted := by
  have hcall : ∀ {s' state}, Called { s.modifyTxn id (·.setTainted) with
      commitLatch := some (.abort id txn.writeSet) }
      s' id state → Called s s' id state := fun hc =>
    hc.after (abort_step hfree ht hu) (fun i hi => modifyTxn_of_ne hi) rfl
  unfold TransactionManager.abort
  rw [if_pos hu]
  rcases restoreAll_called fails
    (s := { s.modifyTxn id (·.setTainted) with commitLatch := some (.abort id txn.writeSet) })
    rfl hp hnd (modifyTxn_self ht) (setTainted_state hu) with ⟨s', h1, h2⟩ | ⟨s', e, h1, h2⟩
  · exact .inl ⟨s', h1, hcall h2⟩
  · exact .inr ⟨s', e, h1, hcall h2⟩

structure Background (s s' : TransactionManager) : Prop where
  run : Lib.Steps step PutBack s s'
  handles : s'.txns = s.txns
  latch : s'.commitLatch = s.commitLatch
  events : s'.events = s.events
  clock : s'.lastCommitTs = s.lastCommitTs

theorem collectAll_background {w : Nat} (fails : RecordId → Bool) :
    ∀ {rids : List RecordId} {s : TransactionManager},
    w ∈ s.passes → Background s (s.collectAll w fails rids) := by
  intro rids
  induction rids with
  | nil => intro s _; exact ⟨.refl, rfl, rfl, rfl, rfl⟩
  | cons rid rest ih =>
    intro s hw
    rw [collectAll]
    split
    · exact ⟨.refl, rfl, rfl, rfl, rfl⟩
    · cases hc : s.collectSlot w rid with
      | error e => exact ⟨.refl, rfl, rfl, rfl, rfl⟩
      | ok s₁ =>
        have hstep : Lib.Steps step PutBack s s₁ := by
          refine .tail .refl (a := .collectSlot w rid) (by simp [PutBack]) ?_
          simp only [step, collectSlotStep, if_pos hw, hc]
        obtain ⟨v, rfl⟩ : ∃ v, s₁ = { s with versions := v } := by
          unfold collectSlot at hc
          split at hc
          · cases hc
          · cases hc; exact ⟨_, rfl⟩
        obtain ⟨hr, h1, h2, h3, h4⟩ := ih (s := { s with versions := v }) hw
        exact ⟨hstep.trans hr, h1, h2, h3, h4⟩

theorem garbageCollect_background (rids : List RecordId) (fails : RecordId → Bool) :
    Background s (s.garbageCollect rids fails) := by
  have hstart : Lib.Steps step PutBack s { s with passes := s.watermark :: s.passes } :=
    .tail .refl (a := .collect) (by simp [PutBack]) rfl
  have hloop : Background { s with passes := s.watermark :: s.passes }
      (collectAll { s with passes := s.watermark :: s.passes } s.watermark fails rids) :=
    collectAll_background fails List.mem_cons_self
  obtain ⟨hr, h1, h2, h3, h4⟩ := hloop
  exact ⟨.tail (hstart.trans hr) (a := .collected s.watermark) (by simp [PutBack]) rfl, h1, h2, h3, h4⟩

end

/-! ## Commits that leave a stamp behind -/

/-- `s` is `w` but for the slots in `left`, which still carry the timestamp of a failed commit. -/
structure HalfStamped (s w : TransactionManager) (id : Nat) (left : List RecordId) : Prop where
  others : ∀ r, r ∉ left → s.heap.slot r = w.heap.slot r
  stamped : ∀ r ∈ left, ∃ m b, w.heap.slot r = some (m, b) ∧ m.ts = .txn id ∧
    s.heap.slot r = some ({ m with ts := .commit (w.lastCommitTs + 1) }, b)
  rest : s = { w with heap := s.heap }

section
variable {base : RecordId → List Version} {s s' w u : TransactionManager} {id ts : Nat} {txn : Transaction}
  {rid : RecordId} {left done : List RecordId} {cause : TxnError}

theorem HalfStamped.setLatch (h : HalfStamped s w id left) (latch : Option Outcome) :
    HalfStamped { s with commitLatch := latch } { w with commitLatch := latch } id left where
  others := h.others
  stamped := h.stamped
  rest := by
    have := congrArg (fun s : TransactionManager => { s with commitLatch := latch }) h.rest
    exact this

theorem HalfStamped.modifyTxn (h : HalfStamped s w id left) (i : Nat) (f : Transaction → Transaction) :
    HalfStamped (s.modifyTxn i f) (w.modifyTxn i f) id left where
  others := h.others
  stamped := h.stamped
  rest := by
    have := congrArg (fun s : TransactionManager => s.modifyTxn i f) h.rest
    exact this

/-- Beside a commit that stops taking its stamps back there is one that takes all of them back. -/
theorem exists_putBack : ∀ {done : List RecordId} {u : TransactionManager}, Inv base u →
    u.commitLatch = some (.uncommit id ts done cause) →
    ∃ w, Lib.Steps step PutBack u w ∧ w.commitLatch = none ∧ HalfStamped (u.failCommit id) w id done := by
  intro done
  induction done with
  | nil =>
    intro u h hl
    refine ⟨u.failCommit id, .tail .refl (a := .unstamp false) (by simp [PutBack]) ?_, rfl, fun _ _ => rfl,
      fun r hr => (by cases hr), rfl⟩
    simp only [step, unstampStep, hl]
  | cons rid rest ih =>
    intro u h hl
    obtain ⟨hts, t, ht, hrun, hn, hk⟩ := h.latch.uncommitting hl
    obtain ⟨hnot, _⟩ := List.nodup_cons.mp hn
    obtain ⟨m, b, hs, hm⟩ := h.held id t rid ht (unfinished_of_running hrun) (hk rid List.mem_cons_self)
    have hcur : u.currentStamp id rid = .commit ts := by simp [currentStamp, stampedRids, hl, hts]
    obtain ⟨s₁, hok⟩ := stamp_succeeds (s := u) (c := .txn id) hs (hm.trans hcur)
    obtain ⟨m', b', _, hwr, hs₁⟩ := stamp_ok hok
    have hold := hwr.old
    rw [hs] at hold
    cases hold
    have hstep : u.step (.unstamp false) = some { s₁ with commitLatch := some (.uncommit id ts rest cause) } := by
      simp only [step, unstampStep, hl, hok]
      simp
    obtain ⟨w, hr, hfree, hh⟩ := ih (h.step (by simp [PutBack]) hstep) rfl
    have hu : u.failCommit id =
        { failCommit { s₁ with commitLatch := some (.uncommit id ts rest cause) } id with heap := u.heap } := by
      rw [hs₁]; rfl
    have hclock : w.lastCommitTs = u.lastCommitTs := by
      have := congrArg lastCommitTs hh.rest
      exact this.symm.trans (by rw [hs₁]; rfl)
    refine ⟨w, (Lib.Steps.tail .refl (by simp [PutBack]) hstep).trans hr, hfree, fun r hr => ?_, fun r hr => ?_, ?_⟩
    · rw [List.mem_cons, not_or] at hr
      rw [← hh.others r hr.2]
      exact (hwr.frame r hr.1).symm
    · rcases List.mem_cons.mp hr with rfl | hr
      · refine ⟨_, b, ((hh.others r hnot).symm.trans hwr.new : w.heap.slot r = _), rfl, ?_⟩
        rw [hclock, ← hts]
        show u.heap.slot r = _
        rw [hs, ← hcur, ← hm]
      · obtain ⟨m₂, b₂, h1, h2, h3⟩ := hh.stamped r hr
        refine ⟨m₂, b₂, h1, h2, ?_⟩
        rw [← h3]
        exact (hwr.frame r fun he => hnot (he ▸ hr)).symm
    · rw [hu, hh.rest]

end

section
variable {base : RecordId → List Version} {s s' w w' : TransactionManager} {id : Nat} {txn : Transaction}
  {rid : RecordId} {left : List RecordId}

theorem HalfStamped.restored {p : Bool} (h : HalfStamped s w id left) (hs : s.restore id rid p = .ok s')
    (hw : w.restore id rid p = .ok w') : HalfStamped s' w' id left := by
  obtain ⟨hr, m, b, hslot, hm, _⟩ := restore_ok hs
  obtain ⟨hr', _⟩ := restore_ok hw
  have hnot : rid ∉ left := by
    intro hmem
    obtain ⟨m', b', _, _, hst⟩ := h.stamped rid hmem
    rw [hslot] at hst
    cases hst
    cases hm
  have hver : s.versions = w.versions := by rw [h.rest]
  have htx : s.txns = w.txns := by rw [h.rest]
  have hrow : (s'.heap.slot rid, s'.versions rid) = (w'.heap.slot rid, w'.versions rid) := by
    rw [restore_rolledBack hs, restore_rolledBack hw]
    unfold rolledBack
    rw [h.others rid hnot, hver]
  obtain ⟨hslots, hchains⟩ := Prod.mk.injEq .. ▸ hrow
  refine ⟨fun r hr₁ => ?_, fun r hmem => ?_, ?_⟩
  · by_cases hrr : r = rid
    · rw [hrr]; exact hslots
    · rw [hr.slots r hrr, hr'.slots r hrr]; exact h.others r hr₁
  · have hrr : r ≠ rid := by rintro rfl; exact hnot hmem
    rw [hr.slots r hrr, hr'.slots r hrr, hr'.clock]
    exact h.stamped r hmem
  · have hv : s'.versions = w'.versions := by
      funext r
      by_cases hrr : r = rid
      · rw [hrr]; exact hchains
      · rw [hr.versions r hrr, hr'.versions r hrr, hver]
    have ht : s'.txns = w'.txns := by
      rw [hr.handles, hr'.handles]
      simp only [TransactionManager.modifyTxn, htx]
    have e₁ : s.lastCommitTs = w.lastCommitTs := by rw [h.rest]
    have e₂ : s.nextTxnId = w.nextTxnId := by rw [h.rest]
    have e₃ : s.commitLatch = w.commitLatch := by rw [h.rest]
    have e₄ : s.running = w.running := by rw [h.rest]
    have e₅ : s.passes = w.passes := by rw [h.rest]
    have e₆ : s.log = w.log := by rw [h.rest]
    have e₇ : s.events = w.events := by rw [h.rest]
    rw [← hr.clock, ← hr'.clock] at e₁
    rw [← hr.nextTxnId, ← hr'.nextTxnId] at e₂
    rw [← hr.latch, ← hr'.latch] at e₃
    rw [← hr.running, ← hr'.running] at e₄
    rw [← hr.passes, ← hr'.passes] at e₅
    rw [← hr.log, ← hr'.log] at e₆
    rw [← hr.events, ← hr'.events] at e₇
    rw [← hv, ← ht, ← e₁, ← e₂, ← e₃, ← e₄, ← e₅, ← e₆, ← e₇]

theorem HalfStamped.restoreAll (hne : left ≠ []) (fails : RecordId → Bool) :
    ∀ {order todo : List (RecordId × Bool)} {s w : TransactionManager}, HalfStamped s w id left → Inv base w →
    w.commitLatch = some (.abort id todo) → order.Perm todo → (∀ r ∈ left, r ∈ todo.map Prod.fst) →
    ∃ s' w' e, s.restoreAll id fails order = (s', .error e) ∧ HalfStamped s' w' id left ∧ Called w w' id .tainted ∧
      ∀ t, w'.txns id = some t → ∀ r ∈ left, r ∈ t.writeSet.map Prod.fst := by
  intro order
  induction order with
  | nil =>
    intro todo s w h _ _ hp hsub
    cases hp.symm.eq_nil
    obtain ⟨r, hr⟩ := List.exists_mem_of_ne_nil left hne
    cases hsub r hr
  | cons en order ih =>
    obtain ⟨rid, p⟩ := en
    intro todo s w h hinv hl hp hsub
    obtain ⟨t, ht, hst, rfl⟩ := hinv.latch.aborting hl
    have hnd := (hinv.handles id t ht).2.2
    have hmem : (rid, p) ∈ t.writeSet := hp.mem_iff.mp List.mem_cons_self
    have hstop : HalfStamped { s with commitLatch := none } { w with commitLatch := none } id left ∧
        Called w { w with commitLatch := none } id .tainted ∧
        ∀ t, w.txns id = some t → ∀ r ∈ left, r ∈ t.writeSet.map Prod.fst := by
      refine ⟨h.setLatch none, restore_stops hl hmem hnd ht hst, fun t' ht' => ?_⟩
      rw [ht] at ht'
      cases ht'
      exact hsub
    by_cases hf : fails rid = true
    · exact ⟨_, _, _, by rw [TransactionManager.restoreAll, if_pos hf], hstop⟩
    · cases hok : s.restore id rid p with
      | error e => exact ⟨_, _, _, by rw [TransactionManager.restoreAll, if_neg hf, hok], hstop⟩
      | ok s₁ =>
        obtain ⟨w₁, hok'⟩ := hinv.restore_succeeds hl hmem
        obtain ⟨hr', _⟩ := restore_ok hok'
        obtain ⟨hr, m, b, hslot, hm, _⟩ := restore_ok hok
        have h₁ := h.restored hok hok'
        have hl₁ : w₁.commitLatch.map (Outcome.forget rid) =
            some (.abort id (t.writeSet.filter fun e => e.1 ≠ rid)) := by
          rw [hr'.latch, hl]; rfl
        have hsl : s₁.commitLatch = w₁.commitLatch := by rw [h₁.rest]
        have hsub₁ : ∀ r ∈ left, r ∈ (t.writeSet.filter fun e => e.1 ≠ rid).map Prod.fst := by
          intro r hr
          obtain ⟨e, he, rfl⟩ := List.mem_map.mp (hsub r hr)
          refine List.mem_map.mpr ⟨e, List.mem_filter.mpr ⟨he, ?_⟩, rfl⟩
          have hne : e.1 ≠ rid := by
            intro heq
            obtain ⟨m', b', _, _, hst'⟩ := h.stamped e.1 hr
            rw [heq, hslot] at hst'
            cases hst'
            cases hm
          simpa using hne
        have hinv₁ : Inv base { w₁ with commitLatch := w₁.commitLatch.map (Outcome.forget rid) } := by
          rw [hl₁]; exact hinv.restored hl hmem hok'
        have h₂ := h₁.setLatch (w₁.commitLatch.map (Outcome.forget rid))
        obtain ⟨s', w', e, heq, hh, hc, hkeys⟩ := ih h₂ hinv₁ hl₁ (perm_filter_cons hp hnd) hsub₁
        refine ⟨s', w', e, ?_, hh, hc.after (restore_step hl hmem hnd hok') (fun i hi => ?_) hr'.events, hkeys⟩
        · rw [TransactionManager.restoreAll, if_neg hf, hok, ← heq, ← hsl]
        · simp only [hr'.handles]
          exact modifyTxn_of_ne hi

theorem HalfStamped.abort (h : HalfStamped s w id left) (hne : left ≠ []) (hinv : Inv base w)
    (hfree : w.commitLatch = none) (ht : w.txns id = some txn) (hu : txn.unfinished = true)
    (hkeys : ∀ r ∈ left, r ∈ txn.writeSet.map Prod.fst) {order : List (RecordId × Bool)}
    (hp : order.Perm txn.writeSet) (fails : RecordId → Bool) :
    ∃ s' w' e, s.abort id txn order fails = (s', .error e) ∧ HalfStamped s' w' id left ∧ Called w w' id .tainted ∧
      ∀ t, w'.txns id = some t → ∀ r ∈ left, r ∈ t.writeSet.map Prod.fst := by
  have h₀ := (h.modifyTxn id (·.setTainted)).setLatch (some (.abort id txn.writeSet))
  obtain ⟨s', w', e, heq, hh, hc, hk⟩ := h₀.restoreAll hne fails (hinv.startAbort ht hu hfree) rfl hp hkeys
  exact ⟨s', w', e, by rw [TransactionManager.abort, if_pos hu]; exact heq, hh,
    hc.after (abort_step hfree ht hu) (fun i hi => modifyTxn_of_ne hi) rfl, hk⟩

end

/-! ## What the committed rows are -/

section
variable {base : RecordId → List Version} {s s' w : TransactionManager} {id : Nat} {left : List RecordId}

theorem Inv.stamp_lt (h : Inv base s) {r : RecordId} {m : TupleMeta} {b : Bytes} (hs : s.heap.slot r = some (m, b))
    (hm : m.ts = .txn id) : id < s.nextTxnId := by
  obtain ⟨t, own⟩ := h.owner hs (h.currentStamp_of_txn hs hm)
  exact (h.handles id t own.handle).1

/-- A transaction that begins now reads what the committed transactions wrote last. -/
theorem Inv.committedRow (h : Inv base s) (r : RecordId) :
    s.committedRow r = (snapshot s.lastCommitTs (history base r s.events)).bind Version.data := by
  have hnew : s.begin.2.txns s.nextTxnId = some (.new s.lastCommitTs) := by simp [TransactionManager.begin]
  have hv := h.begin.visible_committed (r := r) hnew rfl
    fun m b hs hm => absurd (h.stamp_lt hs hm) (Nat.lt_irrefl _)
  exact hv

theorem HalfStamped.committedRow (h : HalfStamped s w id left) (hid : id < w.nextTxnId) (r : RecordId) :
    s.committedRow r = w.committedRow r := by
  have hver : s.versions = w.versions := by rw [h.rest]
  have hn : s.nextTxnId = w.nextTxnId := by rw [h.rest]
  have hclock : s.lastCommitTs = w.lastCommitTs := by rw [h.rest]
  unfold TransactionManager.committedRow
  rw [hn, hclock]
  by_cases hr : r ∈ left
  · -- neither the left stamp nor the id is in the snapshot, so both walk down the chain
    obtain ⟨m, b, hw, hm, hs⟩ := h.stamped r hr
    rw [visible_of_slot hs, visible_of_slot hw, hver]
    have hne : ¬ id = w.nextTxnId := Nat.ne_of_lt hid
    simp [visibleVersion, sees, hm, Transaction.new, hne]
  · have hslot := h.others r hr
    cases hs : w.heap.slot r with
    | none => rw [visible_of_none hs, visible_of_none (hslot.trans hs)]
    | some v =>
      obtain ⟨m, b⟩ := v
      rw [visible_of_slot hs, visible_of_slot (hslot.trans hs), hver]

/-! ## Transactions that will not commit -/

theorem Change.dead {a : Action} (hc : Change a s s') (hfresh : s.txns s.nextTxnId = none) {i : Nat}
    {t : Transaction} (hi : s.txns i = some t) (hst : t.state = .tainted ∨ t.state = .aborted) :
    ∃ t', s'.txns i = some t' ∧ (t'.state = .tainted ∨ t'.state = .aborted) := by
  obtain ⟨t', hi', hk⟩ := hc.kept hfresh hi
  refine ⟨t', hi', ?_⟩
  have hnr : t'.state ≠ .running := fun hr => by
    have := hk.running hr
    rcases hst with h | h <;> rw [this] at h <;> cases h
  rcases hst with hst | hst
  · have hu := unfinished_of_tainted hst
    have htainted : t'.unfinished = true → t'.state = .tainted ∨ t'.state = .aborted := fun hu' => by
      cases hs : t'.state <;> simp [Transaction.unfinished, hs] at hu' hnr ⊢
    cases hc with
    | ended id txn es last handle _ how he _ =>
      by_cases hid : i = id
      · subst hid
        rw [handle] at hi
        cases hi
        cases how with
        | readOnly _ running => rw [running] at hst; cases hst
        | published _ _ running => rw [running] at hst; cases hst
        | aborted _ _ final =>
          rw [final] at hi'
          cases hi'
          exact .inr rfl
      · rw [he.handles i hid, hi] at hi'
        cases hi'
        exact .inl hst
    | quiet h =>
      obtain ⟨t₁, h1, h2⟩ := h.handles i t hi
      rw [hi'] at h1
      cases h1
      exact htainted (h2.unfinished.trans hu)
    | begun h =>
      subst h
      have hne : i ≠ s.nextTxnId := by rintro rfl; rw [hfresh] at hi; cases hi
      simp only [begin, Function.update_of_ne hne, hi, Option.some.injEq] at hi'
      exact .inl (hi' ▸ hst)
    | updated id txn txn' rid new s₁ m b undo _ _ logged _ handle _ _ h =>
      obtain ⟨t₂, h2, hu₂⟩ := (h.isOpen handle i).mpr ((logged.isOpen i).mpr ⟨t, hi, hu⟩)
      rw [hi'] at h2
      cases h2
      exact htainted hu₂
    | inserted id txn table rid data _ caller _ h =>
      obtain ⟨t₂, h2, hu₂⟩ := (h.isOpen (caller_eq caller).1 i).mpr ⟨t, hi, hu⟩
      rw [hi'] at h2
      cases h2
      exact htainted hu₂
    | restamped id txn rid m b _ _ _ _ _ _ _ rest =>
      rw [rest] at hi'
      rw [hi] at hi'
      cases hi'
      exact .inl hst
    | restored id txn rid p s₁ _ handle _ _ h rest =>
      obtain ⟨hr, _⟩ := restore_ok h
      rw [rest] at hi'
      obtain ⟨t₂, h2, hsame⟩ := hr.back handle hi'
      rw [hi] at h2
      cases h2
      exact .inl (hsame.trans hst)
    | swept w rid pass h =>
      unfold collectSlot at h
      split at h
      · cases h
      · cases h
        rw [hi] at hi'
        cases hi'
        exact .inl hst
    | passes h =>
      rw [h, hi] at hi'
      cases hi'
      exact .inl hst
  · obtain ⟨hsame, _⟩ := hk.closed (by simp [Transaction.unfinished, hst])
    exact .inr (hsame.trans hst)

theorem Inv.run_dead (h : Inv base s) (hr : Lib.Steps TransactionManager.step PutBack s s') {i : Nat}
    {t : Transaction} (hi : s.txns i = some t) (hst : t.state = .tainted ∨ t.state = .aborted) :
    ∃ t', s'.txns i = some t' ∧ (t'.state = .tainted ∨ t'.state = .aborted) := by
  suffices Inv base s' ∧ ∃ t', s'.txns i = some t' ∧ (t'.state = .tainted ∨ t'.state = .aborted) from this.2
  induction hr with
  | refl => exact ⟨h, t, hi, hst⟩
  | tail _ hok hs ih =>
    obtain ⟨hinv, t₁, h1, h2⟩ := ih
    exact ⟨hinv.step hok hs, (hinv.change hok hs).dead hinv.handles.fresh h1 h2⟩

end

end TransactionManager

end Cmudb
