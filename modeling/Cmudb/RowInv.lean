import Cmudb.History

/-!
# The invariant of a record id

At every point of a run a record id is unused, holds a committed version, holds
what an aborted insert left, or is owned by the one transaction that wrote it
last. `RowInv` says for each of these how the slot and the undo chain relate to
the committed versions the events tell of, and `Inv` adds what ties the write
sets, the commit latch, the open snapshots and the watermarks together.
-/

namespace Cmudb

/-- A version as readers tell it apart: its stamp and what it shows. -/
abbrev Entry := Stamp × Option Bytes

def UndoLog.entry (log : UndoLog) : Entry := (log.ts, live log.isDeleted log.data)
def Version.entry (v : Version) : Entry := (.commit v.ts, v.data)
def slotEntry (tmeta : TupleMeta) (data : Bytes) : Entry := (tmeta.ts, live tmeta.isDeleted data)

def entryAt (readTs : Nat) (l : List Entry) : Option Entry := l.find? fun e => e.1.le readTs

theorem visibleUndo_eq (readTs : Nat) (chain : List UndoLog) :
    visibleUndo readTs chain = (entryAt readTs (chain.map UndoLog.entry)).bind Prod.snd := by
  induction chain with
  | nil => rfl
  | cons log prev ih =>
    simp only [visibleUndo, List.map_cons, entryAt, List.find?_cons, UndoLog.entry]
    cases log.ts.le readTs with
    | true => simp
    | false => simpa [entryAt] using ih

theorem snapshot_entry (readTs : Nat) (vs : List Version) :
    entryAt readTs (vs.map Version.entry) = (snapshot readTs vs).map Version.entry := by
  unfold entryAt snapshot
  rw [List.find?_map]
  rfl

namespace TransactionManager

def stampedRids (s : TransactionManager) (id : Nat) : List RecordId :=
  match s.commitLatch with
  | some (.commit i _ _ done) | some (.uncommit i _ done _) => if i = id then done else []
  | _ => []

def currentStamp (s : TransactionManager) (id : Nat) (r : RecordId) : Stamp :=
  if r ∈ s.stampedRids id then .commit (s.lastCommitTs + 1) else .txn id

/-- Snapshots that are read now, or may be read by a transaction that begins later. -/
def Reader (s : TransactionManager) (readTs : Nat) : Prop :=
  readTs ∈ s.running ∨ s.lastCommitTs ≤ readTs

section
variable (base : RecordId → List Version) (s : TransactionManager) (r : RecordId)

def versionsOf : List Version := history base r s.events

variable {base s r} in
theorem versionsOf_committed_some {s' : TransactionManager} {i t : Nat} {new : Option Bytes}
    (he : s'.events = .committed i t :: s.events) (hw : latestWrite i r s.events = some new) :
    s'.versionsOf base r = ⟨t, some i, new⟩ :: s.versionsOf base r := by
  simp only [versionsOf, he, history_committed, hw]

variable {base s r} in
theorem versionsOf_committed_none {s' : TransactionManager} {i t : Nat}
    (he : s'.events = .committed i t :: s.events) (hw : latestWrite i r s.events = none) :
    s'.versionsOf base r = s.versionsOf base r := by
  simp only [versionsOf, he, history_committed, hw]

/-- `l` is the newest part of the committed versions of `r`, and no reader needs more. -/
structure Covers (l : List Entry) : Prop where
  isPrefix : l <+: (s.versionsOf base r).map Version.entry
  serves : ∀ ρ, s.Reader ρ → entryAt ρ l = entryAt ρ ((s.versionsOf base r).map Version.entry)

/-- How the transaction came to own `r`: it inserted the row, or replaced a committed version
that waits at the head of the undo chain. -/
inductive Undoable (id : Nat) (txn : Transaction) : Prop where
  | inserted (listed : txn.unfinished = true → (r, false) ∈ txn.writeSet)
      (chain : s.versions r = []) (new : s.versionsOf base r = [])
  | replaced (old : Replaced) (rest : List UndoLog)
      (listed : txn.unfinished = true → (r, true) ∈ txn.writeSet)
      (saved : replacedBy id r s.events = some old)
      (chain : s.versions r = ⟨old.tmeta.ts, old.tmeta.isDeleted, old.data⟩ :: rest)
      (tail : rest <+: old.chain)
      (room : old.data.length ≤ s.heap.capacity r)
      (seen : old.tmeta.ts.le txn.readTs = true)

structure Owned (id : Nat) (txn : Transaction) (shown : Option Bytes) : Prop where
  handle : s.txns id = some txn
  latest : latestWrite id r s.events = some shown
  covers : Covers base s r ((s.versions r).map UndoLog.entry)
  undoable : Undoable base s r id txn

inductive RowInv : Prop where
  | absent (slot : s.heap.slot r = none) (chain : s.versions r = []) (new : s.versionsOf base r = [])
  | idle (m : TupleMeta) (b : Bytes) (t : Nat) (slot : s.heap.slot r = some (m, b)) (stamp : m.ts = .commit t)
      (published : t ≤ s.lastCommitTs)
      (covers : Covers base s r (slotEntry m b :: (s.versions r).map UndoLog.entry))
  | dead (b : Bytes) (slot : s.heap.slot r = some (.dead, b)) (chain : s.versions r = [])
      (new : s.versionsOf base r = [])
  | owned (id : Nat) (txn : Transaction) (m : TupleMeta) (b : Bytes) (slot : s.heap.slot r = some (m, b))
      (stamp : m.ts = s.currentStamp id r) (own : Owned base s r id txn (live m.isDeleted b))

end

/-! ## What a step leaves alone -/

/-- A step from `s` to `s'` that does not touch `r`. -/
structure RowFrame (base : RecordId → List Version) (s s' : TransactionManager) (r : RecordId) : Prop where
  slot : s'.heap.slot r = s.heap.slot r
  capacity : s.heap.capacity r ≤ s'.heap.capacity r
  versions : s'.versions r = s.versions r
  committed : s'.versionsOf base r = s.versionsOf base r
  latest : ∀ id, latestWrite id r s'.events = latestWrite id r s.events
  saved : ∀ id, replacedBy id r s'.events = replacedBy id r s.events
  clock : s.lastCommitTs ≤ s'.lastCommitTs
  readers : ∀ ρ, s'.Reader ρ → s.Reader ρ
  stamp : ∀ id, s'.currentStamp id r = s.currentStamp id r
  handles : ∀ id txn, s.txns id = some txn → ∃ txn', s'.txns id = some txn' ∧ txn'.readTs = txn.readTs ∧
    (txn'.unfinished = true → txn.unfinished = true ∧ ∀ p, (r, p) ∈ txn.writeSet → (r, p) ∈ txn'.writeSet)

section
variable {base : RecordId → List Version} {s s' : TransactionManager} {r : RecordId}

theorem RowFrame.covers (hf : RowFrame base s s' r) {l : List Entry} (h : Covers base s r l) :
    Covers base s' r l := by
  constructor
  · rw [hf.committed]; exact h.isPrefix
  · intro ρ hρ
    rw [hf.committed]
    exact h.serves ρ (hf.readers ρ hρ)

theorem RowFrame.owned (hf : RowFrame base s s' r) {id : Nat} {txn : Transaction} {v : Option Bytes}
    (h : Owned base s r id txn v) : ∃ txn', Owned base s' r id txn' v := by
  obtain ⟨txn', h1, h2, h3⟩ := hf.handles id txn h.handle
  refine ⟨txn', h1, by rw [hf.latest]; exact h.latest, ?_, ?_⟩
  · rw [hf.versions]; exact hf.covers h.covers
  · cases h.undoable with
    | inserted listed chain new =>
      refine .inserted (fun hu => (h3 hu).2 _ (listed (h3 hu).1)) ?_ ?_
      · rw [hf.versions]; exact chain
      · rw [hf.committed]; exact new
    | replaced old rest listed saved chain tail room seen =>
      refine .replaced old rest (fun hu => (h3 hu).2 _ (listed (h3 hu).1)) ?_ ?_ tail
        (Nat.le_trans room hf.capacity) ?_
      · rw [hf.saved]; exact saved
      · rw [hf.versions]; exact chain
      · rw [h2]; exact seen

theorem RowInv.frame (hf : RowFrame base s s' r) (h : RowInv base s r) : RowInv base s' r := by
  cases h with
  | absent slot chain new =>
    exact .absent (hf.slot.trans slot) (hf.versions.trans chain) (hf.committed.trans new)
  | idle m b t slot stamp published covers =>
    refine .idle m b t (hf.slot.trans slot) stamp (Nat.le_trans published hf.clock) ?_
    rw [hf.versions]; exact hf.covers covers
  | dead b slot chain new =>
    exact .dead b (hf.slot.trans slot) (hf.versions.trans chain) (hf.committed.trans new)
  | owned id txn m b slot stamp own =>
    obtain ⟨txn', own'⟩ := hf.owned own
    exact .owned id txn' m b (hf.slot.trans slot) (stamp.trans (hf.stamp id).symm) own'

end

end TransactionManager

end Cmudb
