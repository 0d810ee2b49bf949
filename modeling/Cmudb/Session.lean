import Cmudb.CommitCall

/-!
# The session of a database

`Database::execute` and `execute_plan` run statements one after the other in
one session: in the block `BEGIN` opened, or each in a transaction of its own.
Commits, aborts and collections are those of the transaction manager, and
storage may fail under any of them. What a statement's executors do to the
manager is a list of write steps of its transaction; their result is free.
`ran` is not in the code: it records the session each body found, with the
transaction it ran in.
-/

namespace Cmudb

/-- The transaction block `BEGIN` opened, or a transaction whose rollback has yet to succeed. -/
inductive ExplicitTxn where
  | opened (txn : Nat)
  | failed
  | abortPending (txn : Nat) (inBlock : Bool)
  deriving DecidableEq, Repr

abbrev Session := Option ExplicitTxn

inductive TxnOp where
  | begin
  | commit
  | rollback
  deriving DecidableEq, Repr

inductive StatementResult where
  | rows
  | count
  | ddl
  | txn (op : TxnOp)
  deriving DecidableEq, Repr

inductive QueryError where
  | parse
  | bind
  | plan
  | execute
  | alreadyInTransaction
  | noTransaction
  | transactionAborted
  | rollbackPending
  | commit (e : TxnError)
  | rolledBack (cause : QueryError) (inBlock : Bool)
  | abortFailed (commit : Option TxnError) (abort : TxnError)
  | retryAbortFailed (e : TxnError)
  | persist
  deriving DecidableEq, Repr

/-- What one call of `commit` or `abort` meets: the order its write set comes out of the hash
map, and the record ids whose slots cannot be written, at first and when stamps are taken back. -/
structure Storage where
  order : List (RecordId × Bool) → List (RecordId × Bool)
  perm : ∀ l, (order l).Perm l
  fails : RecordId → Bool
  undoFails : RecordId → Bool

structure Conditions where
  retry : Storage
  commit : Storage
  abort : Storage
  collect : List RecordId
  collectFails : RecordId → Bool
  checkpointFails : Bool

/-- What the executors of a statement do: their write steps and their result. -/
structure Body where
  writes : List TransactionManager.Action
  result : Except QueryError StatementResult

/-- The steps that are writes of the transaction `id`; others are not the executors' to take. -/
def Body.run (body : Body) (s : TransactionManager) (id : Nat) : TransactionManager :=
  body.writes.foldl (fun s a => if a.writer = some id then (s.step a).getD s else s) s

inductive Statement where
  | startTransaction
  | commit
  | rollback
  | other (body : Body)

structure Database where
  mgr : TransactionManager
  session : Session
  ran : List (Session × Nat)

namespace Database

def new (mgr : TransactionManager) : Database := ⟨mgr, none, []⟩

def begin (db : Database) : Nat × Database := (db.mgr.begin.1, { db with mgr := db.mgr.begin.2 })

def commit (db : Database) (st : Storage) (id : Nat) : Database × Except TxnError Nat :=
  match db.mgr.txns id with
  | none => (db, .ok 0)
  | some txn =>
    let (mgr, r) := db.mgr.commit id txn (st.order txn.writeSet) st.fails st.undoFails
    ({ db with mgr }, r)

def abort (db : Database) (st : Storage) (id : Nat) : Database × Except TxnError Unit :=
  match db.mgr.txns id with
  | none => (db, .ok ())
  | some txn =>
    let (mgr, r) := db.mgr.abort id txn (st.order txn.writeSet) st.fails
    ({ db with mgr }, r)

/-- A failure of the collection is only logged. -/
def garbageCollect (db : Database) (c : Conditions) : Database :=
  { db with mgr := db.mgr.garbageCollect c.collect c.collectFails }

def finish (db : Database) (c : Conditions) (txn : Nat) (commit : Bool) : Database × Except QueryError Unit :=
  if commit then
    match db.commit c.commit txn with
    | (db, .error commit) =>
      match db.abort c.abort txn with
      | (db, .ok ()) => (db, .error (.commit commit))
      | (db, .error abort) => (db, .error (.abortFailed (some commit) abort))
    | (db, .ok _) =>
      let db := db.garbageCollect c
      if c.checkpointFails then (db, .error .persist) else (db, .ok ())
  else
    match db.abort c.abort txn with
    | (db, .error abort) => (db, .error (.abortFailed none abort))
    | (db, .ok ()) => (db.garbageCollect c, .ok ())

def finishOrKeep (db : Database) (c : Conditions) (txn : Nat) (commit inBlock : Bool) :
    Database × Except QueryError Unit :=
  match db.finish c txn commit with
  | (db, .error (.abortFailed e abort)) =>
    ({ db with session := some (.abortPending txn inBlock) }, .error (.abortFailed e abort))
  | other => other

def retryPendingAbort (db : Database) (c : Conditions) : Database × Except QueryError Unit :=
  match db.session with
  | some (.abortPending txn inBlock) =>
    match db.abort c.retry txn with
    | (db, .error e) => (db, .error (.retryAbortFailed e))
    | (db, .ok ()) => ({ db with session := if inBlock then some .failed else none }, .ok ())
  | _ => (db, .ok ())

def beginBlock (db : Database) : Database × Except QueryError StatementResult :=
  if db.session.isSome then (db, .error .alreadyInTransaction)
  else
    let (txn, db) := db.begin
    ({ db with session := some (.opened txn) }, .ok (.txn .begin))

def endBlock (db : Database) (c : Conditions) (commit : Bool) : Database × Except QueryError StatementResult :=
  match db.session with
  | some (.opened txn) =>
    match ({ db with session := none }).finishOrKeep c txn commit true with
    | (db, .error e) => (db, .error e)
    | (db, .ok ()) => (db, .ok (.txn (if commit then .commit else .rollback)))
  | some .failed => ({ db with session := none }, .ok (.txn .rollback))
  | some (.abortPending _ _) => (db, .error .rollbackPending)
  | none => (db, .error .noTransaction)

/-- What `run_in_session` does once it has a transaction for `body`. -/
def runBody (db : Database) (c : Conditions) (body : Body) (txn : Nat) (autocommit : Bool) :
    Database × Except QueryError StatementResult :=
  let db := { db with mgr := body.run db.mgr txn, ran := (db.session, txn) :: db.ran }
  match body.result with
  | .ok result =>
    if autocommit then
      match db.finishOrKeep c txn true false with
      | (db, .error e) => (db, .error e)
      | (db, .ok ()) => (db, .ok result)
    else (db, .ok result)
  | .error cause =>
    let db := if autocommit then db else { db with session := some .failed }
    match db.finishOrKeep c txn false !autocommit with
    | (db, .error e) => (db, .error e)
    | (db, .ok ()) => (db, .error (.rolledBack cause !autocommit))

def runInSession (db : Database) (c : Conditions) (body : Body) : Database × Except QueryError StatementResult :=
  match db.session with
  | some (.opened txn) => db.runBody c body txn false
  | some .failed | some (.abortPending _ _) => (db, .error .transactionAborted)
  | none =>
    let (txn, db) := db.begin
    db.runBody c body txn true

def executeStatement (db : Database) (c : Conditions) (stmt : Statement) :
    Database × Except QueryError StatementResult :=
  match db.retryPendingAbort c with
  | (db, .error e) => (db, .error e)
  | (db, .ok ()) =>
    match stmt with
    | .startTransaction => db.beginBlock
    | .commit => db.endBlock c true
    | .rollback => db.endBlock c false
    | .other body => db.runInSession c body

def executePlan (db : Database) (c : Conditions) (body : Body) : Database × Except QueryError StatementResult :=
  match db.retryPendingAbort c with
  | (db, .error e) => (db, .error e)
  | (db, .ok ()) => db.runInSession c body

def executeAll (db : Database) : List (Statement × Conditions) → Database × Except QueryError (List StatementResult)
  | [] => (db, .ok [])
  | (stmt, c) :: rest =>
    match db.executeStatement c stmt with
    | (db, .error e) => (db, .error e)
    | (db, .ok result) =>
      match db.executeAll rest with
      | (db, .error e) => (db, .error e)
      | (db, .ok results) => (db, .ok (result :: results))

/-- `execute`, given what parsing makes of its text: text that does not parse runs nothing. -/
def execute (db : Database) : Option (List (Statement × Conditions)) →
    Database × Except QueryError (List StatementResult)
  | none => (db, .error .parse)
  | some stmts => db.executeAll stmts

end Database

inductive Request where
  | statement (stmt : Statement)
  | plan (body : Body)

def Request.serve (db : Database) (c : Conditions) : Request → Database × Except QueryError StatementResult
  | statement stmt => db.executeStatement c stmt
  | plan body => db.executePlan c body

def Request.hasBody : Request → Bool
  | statement (.other _) | plan _ => true
  | _ => false

def Request.endsBlock : Request → Bool
  | statement .commit | statement .rollback => true
  | _ => false

namespace Database

def after (db : Database) (reqs : List (Request × Conditions)) : Database :=
  reqs.foldl (fun db r => (r.1.serve db r.2).1) db

def answers (db : Database) : List (Request × Conditions) → List (Request × Except QueryError StatementResult)
  | [] => []
  | (req, c) :: rest => (req, (req.serve db c).2) :: (req.serve db c).1.answers rest

end Database

end Cmudb
