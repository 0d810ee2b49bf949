import Mathlib.Data.List.Sort
import Cmudb.Schedule

/-!
# Calls that write tuples

`insert_tuple`, `update_tuple`, `move_tuple` and `delete_tuple` as the tasks
they consist of. Each task is one atomic step: taking or releasing an index's
unique latch, one lookup, one slot read or written under its page latch, one
index entry. A transaction makes one call at a time, and what is left of the
call is its list of tasks. Keys are read from tuples by an arbitrary function,
which stands for the table schema and the indexed columns.
-/

namespace Cmudb

abbrev IndexKey := List UInt8

inductive IndexError where
  | keyTooLong (max actual : Nat)
  | bpm
  | catalog
  deriving DecidableEq, Repr

structure IndexInfo where
  oid : Nat
  name : String
  table : Nat
  /-- `none` when a key column is NULL. -/
  keyOfTuple : Bytes → Except IndexError (Option IndexKey)
  maxKeyLen : Nat

inductive MvccError where
  | txn (e : TxnError)
  | duplicateKey (index : String)
  | index (e : IndexError)
  deriving DecidableEq, Repr

structure Catalog where
  indexes : List IndexInfo
  distinct : (indexes.map IndexInfo.oid).Nodup

def Catalog.sorted (cat : Catalog) (table : Nat) : List IndexInfo :=
  (cat.indexes.filter fun ix => ix.table = table).insertionSort fun a b => a.oid ≤ b.oid

inductive Task where
  | lock (ix : IndexInfo)
  | unlock (ix : IndexInfo)
  /-- `check_unique` up to the lookup of the key's entries. -/
  | check (ix : IndexInfo) (tuple : Bytes) (own : Option RecordId)
  /-- One round of the loop of `check_unique`. -/
  | judge (ix : IndexInfo) (key : IndexKey) (rid : RecordId)
  /-- One round of the loop of `update_tuple`. -/
  | rekey (ix : IndexInfo) (rid : RecordId) (old new : Bytes)
  /-- One round of the first loop of `move_tuple`. -/
  | recheck (ix : IndexInfo) (rid : RecordId) (old new : Bytes)
  | logFirstWrite
  /-- The write of `update_tuple`, which turns to `move_tuple` when the page has no room. -/
  | update (table : Nat) (rid : RecordId) (old new : Bytes)
  | delete (rid : RecordId)
  | insert (table : Nat) (tuple : Bytes)
  | file (ix : IndexInfo) (tuple : Bytes) (rid : RecordId)
  | taint (e : MvccError)

inductive Call where
  | insertTuple (table : Nat) (tuple : Bytes)
  | updateTuple (table : Nat) (rid : RecordId) (old new : Bytes)
  | deleteTuple (rid : RecordId)
  deriving DecidableEq, Repr

def moveTuple (cat : Catalog) (table : Nat) (rid : RecordId) (old new : Bytes) : List Task :=
  let indexes := cat.sorted table
  indexes.map .lock ++ indexes.map (.recheck · rid old new) ++ [.delete rid, .insert table new] ++
    indexes.map .unlock

def Call.tasks (cat : Catalog) : Call → List Task
  | insertTuple table tuple =>
    let indexes := cat.sorted table
    indexes.map .lock ++ indexes.map (.check · tuple none) ++ [.logFirstWrite, .insert table tuple] ++
      indexes.map .unlock
  | updateTuple table rid old new =>
    .update table rid old new :: (cat.sorted table).map (.rekey · rid old new)
  | deleteTuple rid => [.delete rid]

/-- The manager, the indexes and the calls under way. -/
structure Engine where
  mgr : TransactionManager
  /-- The entries of the index with that oid, by key and then by record id. -/
  entries : Nat → List (IndexKey × RecordId)
  uniqueLatch : Nat → Option Nat
  tasks : Nat → List Task
  /-- Not in the code: slots stamped by the commit under way that uniqueness checks skipped as stale. -/
  passedOver : List RecordId
  /-- Not in the code: indexes whose tree an insert that failed on storage may have left half split. -/
  torn : List Nat

def entryLe (a b : IndexKey × RecordId) : Prop :=
  a.1 < b.1 ∨ a.1 = b.1 ∧ (a.2.pageId < b.2.pageId ∨ a.2.pageId = b.2.pageId ∧ a.2.slotId ≤ b.2.slotId)

instance : DecidableRel entryLe := fun _ _ => inferInstanceAs (Decidable (_ ∨ _))

def outgrewItsPage : TxnError → Bool
  | .storage (.page _ (.updateDoesNotFit ..)) => true
  | _ => false

namespace Engine

def goOn (e : Engine) (id : Nat) (tasks : List Task) : Engine :=
  { e with tasks := Function.update e.tasks id tasks }

/-- A call that fails gives its latches back and then taints its transaction. -/
def fail (cat : Catalog) (e : Engine) (id : Nat) (err : MvccError) : Engine :=
  e.goOn id ((cat.indexes.filter fun ix => e.uniqueLatch ix.oid = some id).map .unlock ++ [.taint err])

def entriesForKey (e : Engine) (ix : IndexInfo) (key : IndexKey) : List RecordId :=
  ((e.entries ix.oid).filter fun en => en.1 = key).map Prod.snd

def fileEntry (e : Engine) (ix : IndexInfo) (tuple : Bytes) (rid : RecordId) : Except IndexError Engine :=
  match ix.keyOfTuple tuple with
  | .error err => .error err
  | .ok none => .ok e
  | .ok (some key) =>
    if key.length > ix.maxKeyLen then .error (.keyTooLong ix.maxKeyLen key.length)
    else if (key, rid) ∈ e.entries ix.oid then .ok e
    else .ok { e with
      entries := Function.update e.entries ix.oid ((e.entries ix.oid).orderedInsert entryLe (key, rid)) }

/-- The verdict of `check_unique` on one entry, from the newest version behind it. -/
def judge (id : Nat) (txn : Transaction) (ix : IndexInfo) (key : IndexKey) (rid : RecordId) (tmeta : TupleMeta)
    (bytes : Bytes) : Except MvccError Unit :=
  match ix.keyOfTuple bytes with
  | .error err => .error (.index err)
  | .ok stored =>
    let holdsKey := stored == some key
    let pendingElsewhere := tmeta.ts.isTxnId && tmeta.ts != .txn id
    if !holdsKey && !pendingElsewhere then .ok ()
    else match TransactionManager.checkWrite id txn rid tmeta with
      | .error err => .error (.txn err)
      | .ok () => if !tmeta.isDeleted && holdsKey then .error (.duplicateKey ix.name) else .ok ()

/-- A slot that carries the unpublished timestamp of the commit under way. -/
def unpublished (e : Engine) (tmeta : TupleMeta) : Bool := tmeta.ts == .commit (e.mgr.lastCommitTs + 1)

def exec (cat : Catalog) (e : Engine) (id : Nat) (txn : Transaction) (fresh : Nat) (rest : List Task) :
    Task → Option Engine
  | .lock ix =>
    match e.uniqueLatch ix.oid with
    | some _ => none
    | none => some { e.goOn id rest with uniqueLatch := Function.update e.uniqueLatch ix.oid (some id) }
  | .unlock ix => some { e.goOn id rest with uniqueLatch := Function.update e.uniqueLatch ix.oid none }
  | .check ix tuple own =>
    match ix.keyOfTuple tuple with
    | .error err => some (e.fail cat id (.index err))
    | .ok none => some (e.goOn id rest)
    | .ok (some key) =>
      some (e.goOn id (((e.entriesForKey ix key).filter fun r => some r ≠ own).map (.judge ix key) ++ rest))
  | .judge ix key rid =>
    match e.mgr.heap.readSlot rid with
    | .error err => some (e.fail cat id (.txn (.storage err)))
    | .ok (tmeta, bytes) =>
      match judge id txn ix key rid tmeta bytes with
      | .error err => some (e.fail cat id err)
      | .ok () => some { e.goOn id rest with
          passedOver := if e.unpublished tmeta then rid :: e.passedOver else e.passedOver }
  | .rekey ix rid old new =>
    match ix.keyOfTuple new with
    | .error err => some (e.fail cat id (.index err))
    | .ok none => some (e.goOn id rest)
    | .ok (some key) =>
      match ix.keyOfTuple old with
      | .error err => some (e.fail cat id (.index err))
      | .ok oldKey =>
        if oldKey = some key then some (e.goOn id rest)
        else some (e.goOn id (.lock ix :: .check ix new (some rid) :: .file ix new rid :: .unlock ix :: rest))
  | .recheck ix rid old new =>
    match ix.keyOfTuple new with
    | .error err => some (e.fail cat id (.index err))
    | .ok none => some (e.goOn id rest)
    | .ok (some key) =>
      match ix.keyOfTuple old with
      | .error err => some (e.fail cat id (.index err))
      | .ok oldKey =>
        if oldKey = some key then some (e.goOn id rest)
        else some (e.goOn id (.check ix new (some rid) :: rest))
  | .logFirstWrite => some { e.goOn id rest with mgr := e.mgr.logFirstWrite id txn }
  | .update table rid old new =>
    match e.mgr.writeVersion id txn rid (some new) with
    | (mgr, .ok ()) => some { e.goOn id rest with mgr }
    | (mgr, .error err) =>
      if outgrewItsPage err then some { e.goOn id (moveTuple cat table rid old new) with mgr }
      else some { e.fail cat id (.txn err) with mgr }
  | .delete rid =>
    match e.mgr.writeVersion id txn rid none with
    | (mgr, .ok ()) => some { e.goOn id rest with mgr }
    | (mgr, .error err) => some { e.fail cat id (.txn err) with mgr }
  | .insert table tuple =>
    match e.mgr.insertVersion id table fresh tuple with
    | .error err => some (e.fail cat id (.txn err))
    | .ok (rid, mgr) => some { e.goOn id ((cat.sorted table).map (.file · tuple rid) ++ rest) with mgr }
  | .file ix tuple rid =>
    match e.fileEntry ix tuple rid with
    | .error err => some (e.fail cat id (.index err))
    | .ok e => some (e.goOn id rest)
  | .taint _ => some { e.goOn id rest with mgr := e.mgr.modifyTxn id (·.setTainted) }

/-- The task reaches for a page and storage fails. A write has announced itself in the log by then,
and an insert into a tree may have written both halves of a split. -/
def execFailing (cat : Catalog) (e : Engine) (id : Nat) (txn : Transaction) : Task → Option Engine
  | .lock _ | .unlock _ | .rekey .. | .recheck .. | .logFirstWrite | .taint _ => none
  | .check .. => some (e.fail cat id (.index .bpm))
  | .file ix _ _ => some { e.fail cat id (.index .bpm) with torn := ix.oid :: e.torn }
  | .judge .. | .insert .. => some (e.fail cat id (.txn (.storage .bpm)))
  | .update .. | .delete _ =>
    some { e.fail cat id (.txn (.storage .bpm)) with mgr := e.mgr.logFirstWrite id txn }

/-- The row of an insert is on a new page when storage fails, and that page is linked to nothing. The
row is in no write set. -/
def strand (cat : Catalog) (e : Engine) (id fresh : Nat) : Task → Option Engine
  | .insert table tuple => (e.mgr.heap.strand table fresh ⟨.txn id, false⟩ tuple).map fun heap =>
    { e.fail cat id (.txn (.storage .bpm)) with mgr := { e.mgr with heap } }
  | _ => none

inductive Action where
  | call (id : Nat) (c : Call)
  | run (id fresh : Nat) (fails : Bool)
  /-- The task under way fails and strands its row. -/
  | strand (id fresh : Nat)
  /-- From now on, lookups in a torn index find these entries. -/
  | astray (oid : Nat) (found : List (IndexKey × RecordId))
  | mgr (a : TransactionManager.Action)
  deriving DecidableEq, Repr

def busy (e : Engine) (id : Nat) : Bool := !(e.tasks id).isEmpty

/-- The manager's steps that are not part of a call above. A transaction in the middle of a
call neither commits nor aborts. -/
def allowed (e : Engine) : TransactionManager.Action → Bool
  | .logFirstWrite _ | .write .. | .insert .. | .taint _ => false
  | .commit id | .abort id => !e.busy id
  | _ => true

/-- The slots a uniqueness check skipped are forgotten when the commit under way ends. -/
def settle (e : Engine) (a : TransactionManager.Action) (mgr : TransactionManager) : Engine :=
  { e with mgr, passedOver := match a with
    | .publish | .unstamp _ => []
    | _ => e.passedOver }

def step (cat : Catalog) (e : Engine) : Action → Option Engine
  | .call id c =>
    if e.busy id then none
    else (e.mgr.caller id).map fun _ => e.goOn id (c.tasks cat)
  | .run id fresh fails =>
    match e.tasks id with
    | [] => none
    | t :: rest => (e.mgr.caller id).bind fun txn =>
      if fails then e.execFailing cat id txn t else e.exec cat id txn fresh rest t
  | .strand id fresh =>
    match e.tasks id with
    | [] => none
    | t :: _ => (e.mgr.caller id).bind fun _ => e.strand cat id fresh t
  | .astray oid found =>
    if oid ∈ e.torn then some { e with entries := Function.update e.entries oid found } else none
  | .mgr a => if e.allowed a then (e.mgr.step a).map (e.settle a) else none

structure Initial (e : Engine) : Prop where
  mgr : e.mgr.Initial
  entries : ∀ oid, e.entries oid = []
  latches : ∀ oid, e.uniqueLatch oid = none
  tasks : ∀ id, e.tasks id = []
  passedOver : e.passedOver = []
  torn : e.torn = []

def start (mgr : TransactionManager) : Engine := ⟨mgr, fun _ => [], fun _ => none, fun _ => [], [], []⟩

theorem start_initial {mgr : TransactionManager} (h : mgr.Initial) : (start mgr).Initial :=
  ⟨h, fun _ => rfl, fun _ => rfl, fun _ => rfl, rfl, rfl⟩

def oneTable : Engine := start (.new (Heap.empty.create 0 0 0 rfl))

theorem oneTable_initial : oneTable.Initial := by
  refine start_initial (TransactionManager.resume_initial fun r m b h => ?_)
  cases (Heap.create_slot (h := Heap.empty) rfl r).symm.trans h

def wholeCall (id : Nat) (c : Call) (tasks : Nat) : List Action :=
  .call id c :: List.replicate tasks (.run id 1 false)

def wholeCommit (id : Nat) (rids : List RecordId) : List Action :=
  .mgr (.commit id) :: rids.map (fun r => .mgr (.stamp r false)) ++ [.mgr .publish]

end Engine

end Cmudb
