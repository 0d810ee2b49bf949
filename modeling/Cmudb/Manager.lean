import Cmudb.Lib.VersionChain
import Cmudb.TableHeap

/-!
# Transactions and version chains

The state the transaction manager and its callers share: the heap, the undo
chains, the transaction handles, the clocks and the commit latch. Every
function here is one atomic step of the code: what happens under one page
latch, or one publication. `events` is not in the code; it records what the
calls did, and the specifications are stated over it.
-/

namespace Cmudb

inductive TransactionState where
  | running
  | tainted
  | committed
  | aborted
  deriving DecidableEq, Repr

structure Transaction where
  readTs : Nat
  state : TransactionState
  commitTs : Option Nat
  writeSet : List (RecordId × Bool)
  loggedWrites : Bool
  deriving DecidableEq, Repr

namespace Transaction

def new (readTs : Nat) : Transaction := ⟨readTs, .running, none, [], false⟩

def setTainted (txn : Transaction) : Transaction :=
  if txn.state = .running then { txn with state := .tainted } else txn

/-- Only the first write of `rid` decides whether an undo entry exists. -/
def recordWrite (txn : Transaction) (rid : RecordId) (pushedUndo : Bool) : Transaction :=
  if rid ∈ txn.writeSet.map Prod.fst then txn
  else { txn with writeSet := txn.writeSet ++ [(rid, pushedUndo)] }

def forgetWrite (txn : Transaction) (rid : RecordId) : Transaction :=
  { txn with writeSet := txn.writeSet.filter fun e => e.1 ≠ rid }

def finish (txn : Transaction) (state : TransactionState) (commitTs : Option Nat) : Transaction :=
  { txn with state, commitTs }

def unfinished (txn : Transaction) : Bool :=
  match txn.state with
  | .running | .tainted => true
  | .committed | .aborted => false

end Transaction

inductive TxnError where
  | writeConflict (rid : RecordId)
  | invalidState (state : TransactionState)
  | storage (source : TableHeapError)
  | unexpectedStamp (rid : RecordId) (expected found : Stamp)
  | missingUndoChain (rid : RecordId)
  | commitNotUndone (cause : TxnError) (rid : RecordId) (undo : TxnError)
  deriving DecidableEq, Repr

/-- One older version of a tuple. A chain of them is a list, newest first. -/
structure UndoLog where
  ts : Stamp
  isDeleted : Bool
  data : Bytes
  deriving DecidableEq, Repr

def live (isDeleted : Bool) (data : Bytes) : Option Bytes := if isDeleted then none else some data

/-- Log records about transactions, which carry the id as a page does. -/
inductive TxnRecord where
  | writes (txn : Nat)
  | undo (txn : Nat) (rid : RecordId) (tmeta : TupleMeta) (data : Bytes)
  | ended (txn : Nat)
  deriving DecidableEq, Repr

/-- The version a first write replaced, with the chain behind it. -/
structure Replaced where
  tmeta : TupleMeta
  data : Bytes
  chain : List UndoLog
  deriving DecidableEq, Repr

inductive Event where
  | began (id readTs : Nat)
  | wrote (id : Nat) (rid : RecordId) (new : Option Bytes) (replaced : Option Replaced)
  | committed (id ts : Nat)
  deriving DecidableEq, Repr

/-- Who holds the commit latch, and how far they are. `done` is in the order of stamping. -/
inductive Outcome where
  | commit (id ts : Nat) (todo done : List RecordId)
  | uncommit (id ts : Nat) (done : List RecordId) (cause : TxnError)
  | abort (id : Nat) (todo : List (RecordId × Bool))
  | paused
  deriving DecidableEq, Repr

def Outcome.txn : Outcome → Option Nat
  | commit id _ _ _ | uncommit id _ _ _ | abort id _ => some id
  | paused => none

structure TransactionManager where
  heap : Heap
  versions : RecordId → List UndoLog
  txns : Nat → Option Transaction
  nextTxnId : Nat
  lastCommitTs : Nat
  commitLatch : Option Outcome
  running : List Nat
  /-- Watermarks of the garbage collections under way. -/
  passes : List Nat
  log : List TxnRecord
  events : List Event

/-! ## Reading -/

def sees (id : Nat) (txn : Transaction) (ts : Stamp) : Bool :=
  ts == .txn id || ts.le txn.readTs

def visibleUndo (readTs : Nat) : List UndoLog → Option Bytes
  | [] => none
  | log :: prev => if log.ts.le readTs then live log.isDeleted log.data else visibleUndo readTs prev

def visibleVersion (id : Nat) (txn : Transaction) (chain : List UndoLog) (tmeta : TupleMeta) (bytes : Bytes) :
    Option Bytes :=
  if sees id txn tmeta.ts then live tmeta.isDeleted bytes else visibleUndo txn.readTs chain

namespace TransactionManager

def resume (heap : Heap) (lastCommitTs nextTxnId : Nat) : TransactionManager :=
  ⟨heap, fun _ => [], fun _ => none, nextTxnId, lastCommitTs, none, [], [], [], []⟩

def new (heap : Heap) : TransactionManager := resume heap 0 0

def modifyTxn (s : TransactionManager) (id : Nat) (f : Transaction → Transaction) : TransactionManager :=
  { s with txns := Function.update s.txns id ((s.txns id).map f) }

def readVisible (s : TransactionManager) (id : Nat) (txn : Transaction) (rid : RecordId) :
    Except TableHeapError (Option Bytes) :=
  match s.heap.readSlot rid with
  | .error e => .error e
  | .ok (tmeta, bytes) => .ok (visibleVersion id txn (s.versions rid) tmeta bytes)

/-! ## Beginning and ending -/

def begin (s : TransactionManager) : Nat × TransactionManager :=
  (s.nextTxnId,
    { s with
      txns := Function.update s.txns s.nextTxnId (some (.new s.lastCommitTs))
      nextTxnId := s.nextTxnId + 1
      running := s.lastCommitTs :: s.running
      events := .began s.nextTxnId s.lastCommitTs :: s.events })

/-- `running` counts the open transactions reading at each timestamp; here it lists them. -/
def unregister (s : TransactionManager) (txn : Transaction) : TransactionManager :=
  { s with running := s.running.erase txn.readTs }

def watermark (s : TransactionManager) : Nat :=
  (s.running.min?).getD s.lastCommitTs

def logTxn (s : TransactionManager) (r : TxnRecord) : TransactionManager :=
  { s with log := s.log ++ [r] }

def logFirstWrite (s : TransactionManager) (id : Nat) (txn : Transaction) : TransactionManager :=
  if txn.loggedWrites then s
  else (s.modifyTxn id fun t => { t with loggedWrites := true }).logTxn (.writes (Stamp.txn id).encode)

def logEnd (s : TransactionManager) (id : Nat) (txn : Transaction) : TransactionManager :=
  if txn.loggedWrites then s.logTxn (.ended (Stamp.txn id).encode) else s

/-! ## Writing -/

def checkWrite (id : Nat) (txn : Transaction) (rid : RecordId) (tmeta : TupleMeta) : Except TxnError Unit :=
  if tmeta.ts ≠ .txn id ∧ (tmeta.ts.isTxnId || !tmeta.ts.le txn.readTs) then .error (.writeConflict rid)
  else .ok ()

/-- The write of a new version of `rid`, decided under the page latch from the slot's newest
version, with the version to keep for undo. -/
def planVersion (id : Nat) (txn : Transaction) (rid : RecordId) (new : Option Bytes) (tmeta : TupleMeta)
    (bytes : Bytes) : Except TxnError (SlotWrite × Option (TupleMeta × Bytes)) :=
  match checkWrite id txn rid tmeta with
  | .error e => .error e
  | .ok () =>
    if tmeta.isDeleted then .error (.storage (.deleted rid))
    else .ok (⟨⟨.txn id, new.isNone⟩, new⟩, if tmeta.ts ≠ .txn id then some (tmeta, bytes) else none)

/-- The undo image is logged while the write is planned, so it is logged also when the page
then turns out to have no room for the write. -/
def logUndo (s : TransactionManager) (id : Nat) (txn : Transaction) (rid : RecordId) (new : Option Bytes) :
    TransactionManager :=
  match s.heap.readSlot rid with
  | .error _ => s
  | .ok (tmeta, bytes) =>
    match planVersion id txn rid new tmeta bytes with
    | .ok (_, some (tmeta, bytes)) => s.logTxn (.undo (Stamp.txn id).encode rid tmeta bytes)
    | _ => s

def pushVersion (s : TransactionManager) (rid : RecordId) (tmeta : TupleMeta) (data : Bytes) : TransactionManager :=
  { s with versions := Function.update s.versions rid (⟨tmeta.ts, tmeta.isDeleted, data⟩ :: s.versions rid) }

def pushUndo (s : TransactionManager) (rid : RecordId) : Option (TupleMeta × Bytes) → TransactionManager
  | some (tmeta, data) => s.pushVersion rid tmeta data
  | none => s

def applyVersion (s : TransactionManager) (id : Nat) (txn : Transaction) (rid : RecordId) (new : Option Bytes) :
    Except TxnError TransactionManager :=
  match s.heap.writeSlotThen .storage rid (planVersion id txn rid new) with
  | .error e => .error e
  | .ok (heap, undo) =>
    .ok { (({ s with heap }).pushUndo rid undo).modifyTxn id (·.recordWrite rid undo.isSome) with
      events := .wrote id rid new (undo.map fun (tmeta, data) => ⟨tmeta, data, s.versions rid⟩) :: s.events }

/-- `write_version`: a new version of `rid`, or its deletion. A failure changes the log only. -/
def writeVersion (s : TransactionManager) (id : Nat) (txn : Transaction) (rid : RecordId) (new : Option Bytes) :
    TransactionManager × Except TxnError Unit :=
  let s := (s.logFirstWrite id txn).logUndo id txn rid new
  match s.applyVersion id txn rid new with
  | .error e => (s, .error e)
  | .ok s => (s, .ok ())

def insertVersion (s : TransactionManager) (id table fresh : Nat) (data : Bytes) :
    Except TxnError (RecordId × TransactionManager) :=
  match s.heap.insertWithMeta table fresh ⟨.txn id, false⟩ data with
  | .error e => .error (.storage e)
  | .ok (rid, heap) =>
    .ok (rid, { ({ s with heap }).modifyTxn id (·.recordWrite rid false) with
      events := .wrote id rid (some data) none :: s.events })

/-! ## Committing -/

def planStamp (rid : RecordId) (source target : Stamp) (tmeta : TupleMeta) (_ : Bytes) :
    Except TxnError (SlotWrite × Unit) :=
  if tmeta.ts ≠ source then .error (.unexpectedStamp rid source tmeta.ts)
  else .ok (⟨{ tmeta with ts := target }, none⟩, ())

def stamp (s : TransactionManager) (rid : RecordId) (source target : Stamp) : Except TxnError TransactionManager :=
  match s.heap.writeSlotThen .storage rid (planStamp rid source target) with
  | .error e => .error e
  | .ok (heap, ()) => .ok { s with heap }

/-- What the publication of commit timestamp `ts` does, once every write carries it. -/
def publish (s : TransactionManager) (id : Nat) (txn : Transaction) (ts : Nat) : TransactionManager :=
  let s := { s with lastCommitTs := ts, commitLatch := none, events := .committed id ts :: s.events }
  ((s.modifyTxn id (·.finish .committed (some ts))).logEnd id txn).unregister txn

def commitReadOnly (s : TransactionManager) (id : Nat) (txn : Transaction) : TransactionManager :=
  let s := { s with events := .committed id s.lastCommitTs :: s.events }
  (s.modifyTxn id (·.finish .committed (some s.lastCommitTs))).unregister txn

/-! ## Rolling back -/

def planRestore (id : Nat) (rid : RecordId) (pushedUndo : Bool) (chain : List UndoLog) (tmeta : TupleMeta)
    (_ : Bytes) : Except TxnError (SlotWrite × Option (List UndoLog)) :=
  if tmeta.ts ≠ .txn id then .error (.unexpectedStamp rid (.txn id) tmeta.ts)
  else if !pushedUndo then .ok (⟨.dead, none⟩, none)
  else match chain with
    | [] => .error (.missingUndoChain rid)
    | head :: prev => .ok (⟨⟨head.ts, head.isDeleted⟩, some head.data⟩, some prev)

def restore (s : TransactionManager) (id : Nat) (rid : RecordId) (pushedUndo : Bool) :
    Except TxnError TransactionManager :=
  match s.heap.writeSlotThen .storage rid (planRestore id rid pushedUndo (s.versions rid)) with
  | .error e => .error e
  | .ok (heap, popped) =>
    let versions := match popped with
      | some prev => Function.update s.versions rid prev
      | none => s.versions
    .ok (({ s with heap, versions }).modifyTxn id (·.forgetWrite rid))

def finishAbort (s : TransactionManager) (id : Nat) (txn : Transaction) : TransactionManager :=
  let s := { s with commitLatch := none }
  ((s.modifyTxn id (·.finish .aborted none)).logEnd id txn).unregister txn

/-! ## Garbage collection -/

def collect (watermark : Nat) (ts : Stamp) (chain : List UndoLog) : List UndoLog :=
  if !ts.isTxnId && ts.le watermark then [] else Lib.cutThrough (fun log => log.ts.le watermark) chain

def collectSlot (s : TransactionManager) (watermark : Nat) (rid : RecordId) : Except TxnError TransactionManager :=
  match s.heap.readSlot rid with
  | .error e => .error (.storage e)
  | .ok (tmeta, _) =>
    .ok { s with versions := Function.update s.versions rid (collect watermark tmeta.ts (s.versions rid)) }

end TransactionManager

end Cmudb
