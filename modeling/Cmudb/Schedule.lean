import Cmudb.Lib.Runs
import Cmudb.Manager

/-!
# Interleaved steps of the transaction manager

One action is one atomic step: a slot written under its page latch, one stamp
of a commit, the publication, one restored slot of an abort, one record id of a
garbage collection. A commit or an abort holds the commit latch from its first
step to its last. Write sets are hash maps, so the slots of a commit or an
abort may be taken in any order. `fails` is a storage failure of that step.
-/

namespace Cmudb

namespace TransactionManager

inductive Action where
  | begin
  | logFirstWrite (id : Nat)
  | write (id : Nat) (rid : RecordId) (new : Option Bytes)
  | insert (id table fresh : Nat) (data : Bytes)
  | taint (id : Nat)
  | commit (id : Nat)
  | stamp (rid : RecordId) (fails : Bool)
  | publish
  | unstamp (fails : Bool)
  | abort (id : Nat)
  | restore (rid : RecordId) (fails : Bool)
  | finishAbort
  | collect
  | collectSlot (watermark : Nat) (rid : RecordId)
  | collected (watermark : Nat)
  | pause
  | resume
  deriving DecidableEq, Repr

def Action.writer : Action → Option Nat
  | .logFirstWrite id | .write id _ _ | .insert id _ _ _ | .taint id => some id
  | _ => none

def ending (s : TransactionManager) (id : Nat) : Bool :=
  match s.commitLatch with
  | some o => o.txn == some id
  | none => false

def caller (s : TransactionManager) (id : Nat) : Option Transaction :=
  if s.ending id then none else s.txns id

def commitStep (s : TransactionManager) (id : Nat) (txn : Transaction) : Option TransactionManager :=
  if txn.state ≠ .running then some s
  else if txn.writeSet = [] then some (s.commitReadOnly id txn)
  else match s.commitLatch with
    | some _ => none
    | none => some { s with commitLatch := some (.commit id (s.lastCommitTs + 1) (txn.writeSet.map Prod.fst) []) }

def stampStep (s : TransactionManager) (rid : RecordId) (fails : Bool) : Option TransactionManager :=
  match s.commitLatch with
  | some (.commit id ts todo done) =>
    if rid ∈ todo then
      if fails then some { s with commitLatch := some (.uncommit id ts done (.storage .bpm)) }
      else match s.stamp rid (.txn id) (.commit ts) with
        | .error e => some { s with commitLatch := some (.uncommit id ts done e) }
        | .ok s => some { s with commitLatch := some (.commit id ts (todo.erase rid) (done ++ [rid])) }
    else none
  | _ => none

def publishStep (s : TransactionManager) : Option TransactionManager :=
  match s.commitLatch with
  | some (.commit id ts [] _) => (s.txns id).map fun txn => s.publish id txn ts
  | _ => none

/-- The commit call returns its error: with everything put back, or as `CommitNotUndone`. -/
def failCommit (s : TransactionManager) (id : Nat) : TransactionManager :=
  { s.modifyTxn id (·.setTainted) with commitLatch := none }

def unstampStep (s : TransactionManager) (fails : Bool) : Option TransactionManager :=
  match s.commitLatch with
  | some (.uncommit id _ [] _) => some (s.failCommit id)
  | some (.uncommit id ts (rid :: done) cause) =>
    if fails then some (s.failCommit id)
    else match s.stamp rid (.commit ts) (.txn id) with
      | .error _ => some (s.failCommit id)
      | .ok s => some { s with commitLatch := some (.uncommit id ts done cause) }
  | _ => none

def abortStep (s : TransactionManager) (id : Nat) (txn : Transaction) : Option TransactionManager :=
  if txn.unfinished then
    match s.commitLatch with
    | some _ => none
    | none => some { s.modifyTxn id (·.setTainted) with commitLatch := some (.abort id txn.writeSet) }
  else some s

def restoreStep (s : TransactionManager) (rid : RecordId) (fails : Bool) : Option TransactionManager :=
  match s.commitLatch with
  | some (.abort id todo) =>
    match todo.find? (fun e => e.1 = rid) with
    | none => none
    | some (_, pushedUndo) =>
      if fails then some { s with commitLatch := none }
      else match s.restore id rid pushedUndo with
        | .error _ => some { s with commitLatch := none }
        | .ok s => some { s with commitLatch := some (.abort id (todo.filter fun e => e.1 ≠ rid)) }
  | _ => none

def finishAbortStep (s : TransactionManager) : Option TransactionManager :=
  match s.commitLatch with
  | some (.abort id []) => (s.txns id).map fun txn => s.finishAbort id txn
  | _ => none

def collectSlotStep (s : TransactionManager) (w : Nat) (rid : RecordId) : Option TransactionManager :=
  if w ∈ s.passes then
    match s.collectSlot w rid with
    | .error _ => some { s with passes := s.passes.erase w }
    | .ok s => some s
  else none

def step (s : TransactionManager) : Action → Option TransactionManager
  | .begin => some s.begin.2
  | .logFirstWrite id => (s.caller id).map fun txn => s.logFirstWrite id txn
  | .write id rid new => (s.caller id).map fun txn => (s.writeVersion id txn rid new).1
  | .insert id table fresh data => (s.caller id).map fun _ =>
    match s.insertVersion id table fresh data with
    | .error _ => s
    | .ok (_, s) => s
  | .taint id => (s.caller id).map fun _ => s.modifyTxn id (·.setTainted)
  | .commit id => (s.caller id).bind fun txn => s.commitStep id txn
  | .stamp rid fails => s.stampStep rid fails
  | .publish => s.publishStep
  | .unstamp fails => s.unstampStep fails
  | .abort id => (s.caller id).bind fun txn => s.abortStep id txn
  | .restore rid fails => s.restoreStep rid fails
  | .finishAbort => s.finishAbortStep
  | .collect => some { s with passes := s.watermark :: s.passes }
  | .collectSlot w rid => s.collectSlotStep w rid
  | .collected w => some { s with passes := s.passes.erase w }
  | .pause => if s.commitLatch = none then some { s with commitLatch := some .paused } else none
  | .resume => if s.commitLatch = some .paused then some { s with commitLatch := none } else none

/-- A manager over tables as an earlier run left them: every slot is committed, no
transaction is open. -/
structure Initial (s : TransactionManager) : Prop where
  committed : ∀ r m b, s.heap.slot r = some (m, b) → ∃ t, m.ts = .commit t ∧ t ≤ s.lastCommitTs
  versions : ∀ r, s.versions r = []
  txns : ∀ id, s.txns id = none
  latch : s.commitLatch = none
  running : s.running = []
  passes : s.passes = []
  events : s.events = []

theorem resume_initial {heap : Heap} {lastCommitTs nextTxnId : Nat}
    (h : ∀ r m b, heap.slot r = some (m, b) → ∃ t, m.ts = .commit t ∧ t ≤ lastCommitTs) :
    (resume heap lastCommitTs nextTxnId).Initial :=
  ⟨h, fun _ => rfl, fun _ => rfl, rfl, rfl, rfl, rfl⟩

end TransactionManager

end Cmudb
