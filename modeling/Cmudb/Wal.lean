import Mathlib.Tactic.Linarith
import Cmudb.LogRecord

/-!
# The write-ahead log

Pages are written to the log, not to the data file, and a read finds the newest
image of a page in the log first. A durable point is a record followed by an
fsync: on open, the log is replayed up to its last durable point. Every call
takes as arguments which of its writes and fsyncs fail. `records`, `history`
and `promised` are not in the code; they tell what was logged.
-/

namespace Cmudb

def logMagic : Bytes := [67, 77, 85, 68, 66, 87, 65, 76]
def logVersion : Nat := 1
def logHeaderLen : Nat := 8 + 4

def checkpointLogBytes : Nat := 4 * 2 ^ 20

def logHeader : Bytes := logMagic ++ leBytes 4 logVersion

structure UndoImage where
  tmeta : TupleMeta
  data : Bytes
  deriving DecidableEq, Repr

structure RecoveredTxn where
  id : Nat
  undo : RecordId → Option UndoImage

structure Wal where
  /-- Where the next record goes. -/
  endOffset : Nat
  /-- Transaction records not yet written to the file. -/
  buffered : Bytes
  /-- Offset in the log of the newest image of each page logged since the last checkpoint. -/
  pages : Std.TreeMap Nat Nat
  dirty : Bool
  /-- The records of every transaction that has written and not ended. The code keeps them encoded. -/
  openTxns : Std.TreeMap Nat (List TxnRecord)
  checkpointBytes : Nat
  /-- An fsync failed, so the log takes no more writes. -/
  broken : Bool

/-- A log file, of which an fsync covered the first `synced` bytes. -/
structure LogFile where
  bytes : Bytes
  synced : Nat
  /-- Everything logged to the file, also what is still buffered. -/
  records : List LogRecord

/-- `bytes` may be found in place of the log after a crash: what was synced is there, and what the
reader accepts after it was written there as a record. -/
def LogFile.Survives (l : LogFile) (bytes : Bytes) : Prop :=
  l.bytes.take l.synced <+: bytes ∧
    walFraming.OnlyWritten logHeaderLen l.records (bytes.drop logHeaderLen) (l.synced - logHeaderLen)

/-- The records of a log that are whole in `bytes`, together with all before them, are the first `m`. -/
def LogFile.Whole (l : LogFile) (bytes : Bytes) (m : Nat) : Prop :=
  m ≤ l.records.length ∧
    ∀ k ≤ l.records.length, walFraming.encAll (l.records.take k) <+: bytes.drop logHeaderLen ↔ k ≤ m

structure PageStore where
  wal : Wal
  log : LogFile
  /-- The log that was renamed over, until the directory is synced. -/
  replaced : Option LogFile
  data : Nat → Bytes
  /-- Pages of the data file written since its last fsync. -/
  unsynced : Nat → Bool
  history : List LogRecord
  /-- How much of the history the last durable point covers that returned `Ok`. -/
  promised : Nat

structure Disk where
  log : Option Bytes
  data : Nat → Bytes
  /-- How much of the log an fsync has covered. Opening the log does not sync it. -/
  synced : Nat

inductive LogError where
  | cutShort
  | notALog
  | otherVersion
  | io
  | broken
  deriving DecidableEq, Repr

def overwrite (file : Bytes) (offset : Nat) (new : Bytes) : Bytes :=
  file.take offset ++ new ++ file.drop (offset + new.length)

def imageAt (file : Bytes) (offset : Nat) : Bytes := (file.drop offset).take pageSize

def trackOpenTxn (openTxns : Std.TreeMap Nat (List TxnRecord)) (record : TxnRecord) :
    Std.TreeMap Nat (List TxnRecord) :=
  match record with
  | .writes txn | .undo txn .. => openTxns.alter txn fun old => some (old.getD [] ++ [record])
  | .ended txn => openTxns.erase txn

/-- How far a checkpoint gets: which of its steps is the one that fails. `copying` tells what its
writes left in the data file. -/
inductive CheckpointEnd where
  | copying (pages : Nat → Option Bytes)
  | dataSync
  | aside
  | asideSync
  | rename
  | dirSync
  | done

namespace PageStore

/-- Writes the buffered transaction records and then one record, and returns the offset of that
record. `fails` tells after how many bytes the write fails. -/
def writeOutWith (s : PageStore) (record : LogRecord) (fails : Option Nat) : PageStore × Except LogError Nat :=
  let batch := s.wal.buffered ++ record.encode
  match fails with
  | some k =>
    ({ s with log := { s.log with bytes := overwrite s.log.bytes s.wal.endOffset (batch.take k) } }, .error .io)
  | none =>
    ({ s with
      wal := { s.wal with endOffset := s.wal.endOffset + batch.length, buffered := [] }
      log := { s.log with
        bytes := overwrite s.log.bytes s.wal.endOffset batch
        records := s.log.records ++ [record] }
      history := s.history ++ [record] },
    .ok (s.wal.endOffset + s.wal.buffered.length))

def logPage (s : PageStore) (id : Nat) (page : PageData) (fails : Option Nat) : PageStore × Except LogError Unit :=
  if s.wal.broken then (s, .error .broken)
  else match s.writeOutWith (.page id page) fails with
    | (s, .error e) => (s, .error e)
    | (s, .ok start) =>
      ({ s with wal := { s.wal with
          pages := s.wal.pages.insert id (start + (recordHeaderLen + pageIdLen))
          dirty := true } }, .ok ())

def readPage (s : PageStore) (id : Nat) : Bytes :=
  match s.wal.pages[id]? with
  | some offset => imageAt s.log.bytes offset
  | none => s.data id

def logTxn (s : PageStore) (record : TxnRecord) : PageStore :=
  { s with
    wal := { s.wal with
      buffered := s.wal.buffered ++ encodeTxnRecord record
      openTxns := trackOpenTxn s.wal.openTxns record
      dirty := true }
    log := { s.log with records := s.log.records ++ [.txn record] }
    history := s.history ++ [.txn record] }

def breaks (s : PageStore) : PageStore := { s with wal := { s.wal with broken := true } }

def carried (s : PageStore) : List TxnRecord := s.wal.openTxns.toList.flatMap Prod.snd

def freshLog (s : PageStore) : LogFile :=
  let records := s.carried.map .txn ++ [.durable]
  let bytes := logHeader ++ walFraming.encAll records
  ⟨bytes, bytes.length, records⟩

def checkpoint (s : PageStore) (fin : CheckpointEnd) : PageStore × Except LogError Unit :=
  let copied := { s with
    data := fun id => match s.wal.pages[id]? with
      | some offset => imageAt s.log.bytes offset
      | none => s.data id
    unsynced := fun id => s.unsynced id || (s.wal.pages[id]?).isSome }
  let synced := { copied with unsynced := fun _ => false }
  let fresh := s.freshLog
  let renamed := { synced with
    wal := { s.wal with endOffset := fresh.bytes.length, buffered := [], pages := ∅, dirty := false }
    log := fresh
    replaced := some s.log }
  match fin with
  | .copying pages =>
    ({ copied with data := fun id => if (s.wal.pages[id]?).isSome then (pages id).getD (s.data id) else s.data id },
      .error .io)
  | .dataSync => (copied.breaks, .error .io)
  | .aside => (synced, .error .io)
  | .asideSync => (synced.breaks, .error .io)
  | .rename => (synced, .error .io)
  | .dirSync => (renamed.breaks, .error .io)
  | .done => ({ renamed with replaced := none }, .ok ())

/-- Makes everything logged so far the state recovery returns to, and checkpoints once the log has
outgrown its limit. A checkpoint that fails is only logged as a warning. -/
def durablePoint (s : PageStore) (writeFails : Option Nat) (syncFails : Bool) (fin : CheckpointEnd) :
    PageStore × Except LogError Unit :=
  if s.wal.broken then (s, .error .broken)
  else if !s.wal.dirty then (s, .ok ())
  else match s.writeOutWith .durable writeFails with
    | (s, .error e) => (s, .error e)
    | (s, .ok _) =>
      if syncFails then (s.breaks, .error .io)
      else
        let s := { s with
          wal := { s.wal with dirty := false }
          log := { s.log with synced := s.wal.endOffset }
          promised := s.history.length }
        if s.wal.endOffset > s.wal.checkpointBytes then ((s.checkpoint fin).1, .ok ()) else (s, .ok ())

end PageStore

/-! ## Opening -/

structure Replay where
  durable : List TxnRecord
  durablePages : Std.TreeMap Nat Nat
  sinceDurable : List TxnRecord
  pagesSinceDurable : List (Nat × Nat)

def Replay.step (acc : Replay) : Decoded → Replay
  | .page id imageOffset => { acc with pagesSinceDurable := acc.pagesSinceDurable ++ [(id, imageOffset)] }
  | .txn record => { acc with sinceDurable := acc.sinceDurable ++ [record] }
  | .durable =>
    ⟨acc.durable ++ acc.sinceDurable,
      acc.pagesSinceDurable.foldl (fun pages e => pages.insert e.1 e.2) acc.durablePages, [], []⟩

def replay : Option Bytes → Except LogError (List TxnRecord × Std.TreeMap Nat Nat)
  | none | some [] => .ok ([], ∅)
  | some bytes =>
    if bytes.length < logHeaderLen then .error .cutShort
    else if bytes.take 8 ≠ logMagic then .error .notALog
    else if leNat ((bytes.drop 8).take 4) ≠ logVersion then .error .otherVersion
    else
      let decoded := walFraming.scan (bytes.length + 1) logHeaderLen (bytes.drop logHeaderLen)
      let found := decoded.foldl Replay.step ⟨[], ∅, [], []⟩
      .ok (found.durable, found.durablePages)

def trackUnfinished (unfinished : Std.TreeMap Nat RecoveredTxn) : TxnRecord → Std.TreeMap Nat RecoveredTxn
  | .writes id => unfinished.alter id fun old => some (old.getD ⟨id, fun _ => none⟩)
  | .undo txn rid tmeta data => unfinished.alter txn fun old =>
    let t := old.getD ⟨txn, fun _ => none⟩
    some { t with undo := Function.update t.undo rid (some ((t.undo rid).getD ⟨tmeta, data⟩)) }
  | .ended id => unfinished.erase id

namespace PageStore

/-- Replays the log into the data file and starts a fresh log; returns the transactions to roll
back. `fin` is how far the checkpoint gets that does this. -/
def «open» (disk : Disk) (fin : CheckpointEnd) :
    Except LogError (PageStore × Except LogError (List RecoveredTxn)) :=
  match replay disk.log with
  | .error e => .error e
  | .ok (durable, pages) =>
    let unfinished := durable.foldl trackUnfinished ∅
    let openTxns := durable.foldl trackOpenTxn ∅
    let s : PageStore := {
      wal := ⟨0, [], pages, false, openTxns, checkpointLogBytes, false⟩
      log := ⟨disk.log.getD [], disk.synced, []⟩
      replaced := none
      data := disk.data
      unsynced := fun _ => false
      history := (openTxns.toList.flatMap Prod.snd).map .txn ++ [.durable]
      promised := (openTxns.toList.flatMap Prod.snd).length + 1 }
    match s.checkpoint fin with
    | (s, .error e) => .ok (s, .error e)
    | (s, .ok ()) => .ok (s, .ok (unfinished.toList.map Prod.snd))

/-! ## Runs -/

inductive Action where
  | logPage (id : Nat) (page : PageData) (fails : Option Nat)
  | logTxn (record : TxnRecord)
  | durablePoint (writeFails : Option Nat) (syncFails : Bool) (fin : CheckpointEnd)
  | setCheckpointBytes (bytes : Nat)

def step (s : PageStore) : Action → PageStore
  | .logPage id page fails => (s.logPage id page fails).1
  | .logTxn record => s.logTxn record
  | .durablePoint writeFails syncFails fin => (s.durablePoint writeFails syncFails fin).1
  | .setCheckpointBytes bytes => { s with wal := { s.wal with checkpointBytes := bytes } }

def run (s : PageStore) (actions : List Action) : PageStore := actions.foldl step s

/-- What callers promise: page ids and fields fit their types, and undo data is a tuple of a page. -/
def Action.Fits : Action → Prop
  | .logPage id _ _ => id ≤ maxPageId
  | .logTxn record => record.Fits
  | _ => True

/-! ## Crashes -/

/-- A crash finds the log `l` as `bytes`, and the data file as it was where it was synced. -/
structure Crash (s : PageStore) (l : LogFile) (bytes : Bytes) (disk : Disk) : Prop where
  found : l = s.log ∨ s.replaced = some l
  log : disk.log = some bytes
  survives : l.Survives bytes
  synced : disk.synced = l.synced
  data : ∀ id, s.unsynced id = false → disk.data id = s.data id

end PageStore

end Cmudb
