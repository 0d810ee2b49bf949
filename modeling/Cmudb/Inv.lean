import Cmudb.RowInv

/-!
# The invariant of the transaction manager

`Inv` holds in every state a run reaches, as long as no slot of a failed commit
is left stamped. This file has the invariant and the steps that leave slots,
chains and events alone.
-/

namespace Cmudb

namespace TransactionManager

def Open (s : TransactionManager) (id : Nat) : Prop := ∃ txn, s.txns id = some txn ∧ txn.unfinished = true

def readTsOf (s : TransactionManager) (id : Nat) : Nat := ((s.txns id).map Transaction.readTs).getD 0

def Registered (s : TransactionManager) : Prop :=
  ∃ l : List Nat, l.Nodup ∧ (∀ id, id ∈ l ↔ s.Open id) ∧ s.running.Perm (l.map s.readTsOf)

theorem Registered.congr {s s' : TransactionManager} (h : s.Registered) (hr : s'.running = s.running)
    (ho : ∀ id, s'.Open id ↔ s.Open id) (ht : ∀ id, s'.readTsOf id = s.readTsOf id) : s'.Registered := by
  obtain ⟨l, hn, hm, hp⟩ := h
  refine ⟨l, hn, fun id => (hm id).trans (ho id).symm, ?_⟩
  rw [hr, List.map_congr_left fun id _ => ht id]
  exact hp

def HandlesInv (s : TransactionManager) : Prop :=
  ∀ id txn, s.txns id = some txn →
    id < s.nextTxnId ∧ txn.readTs ≤ s.lastCommitTs ∧ (txn.writeSet.map Prod.fst).Nodup

theorem HandlesInv.fresh {s : TransactionManager} (h : s.HandlesInv) : s.txns s.nextTxnId = none := by
  cases ht : s.txns s.nextTxnId with
  | none => rfl
  | some t => exact absurd (h _ t ht).1 (Nat.lt_irrefl _)

def LatchInv (s : TransactionManager) : Prop :=
  match s.commitLatch with
  | some (.commit id ts todo done) => ts = s.lastCommitTs + 1 ∧
      ∃ txn, s.txns id = some txn ∧ txn.state = .running ∧ (todo ++ done).Perm (txn.writeSet.map Prod.fst)
  | some (.uncommit id ts done _) => ts = s.lastCommitTs + 1 ∧
      ∃ txn, s.txns id = some txn ∧ txn.state = .running ∧ done.Nodup ∧ ∀ r ∈ done, r ∈ txn.writeSet.map Prod.fst
  | some (.abort id todo) => ∃ txn, s.txns id = some txn ∧ txn.state = .tainted ∧ todo = txn.writeSet
  | some .paused | none => True

section
variable {s : TransactionManager} {id : Nat}

theorem LatchInv.committing {ts : Nat} {todo done : List RecordId} (h : s.LatchInv)
    (hl : s.commitLatch = some (.commit id ts todo done)) :
    ts = s.lastCommitTs + 1 ∧
      ∃ txn, s.txns id = some txn ∧ txn.state = .running ∧ (todo ++ done).Perm (txn.writeSet.map Prod.fst) := by
  rwa [LatchInv, hl] at h

theorem LatchInv.uncommitting {ts : Nat} {done : List RecordId} {e : TxnError} (h : s.LatchInv)
    (hl : s.commitLatch = some (.uncommit id ts done e)) :
    ts = s.lastCommitTs + 1 ∧
      ∃ txn, s.txns id = some txn ∧ txn.state = .running ∧ done.Nodup ∧
      ∀ r ∈ done, r ∈ txn.writeSet.map Prod.fst := by
  rwa [LatchInv, hl] at h

theorem LatchInv.aborting {todo : List (RecordId × Bool)} (h : s.LatchInv)
    (hl : s.commitLatch = some (.abort id todo)) :
    ∃ txn, s.txns id = some txn ∧ txn.state = .tainted ∧ todo = txn.writeSet := by
  rwa [LatchInv, hl] at h

end

structure Inv (base : RecordId → List Version) (s : TransactionManager) : Prop where
  rows : ∀ r, RowInv base s r
  handles : s.HandlesInv
  writers : ∀ id r, (latestWrite id r s.events).isSome → id < s.nextTxnId
  written : ∀ id txn r, s.txns id = some txn → txn.state = .running → (latestWrite id r s.events).isSome →
    r ∈ txn.writeSet.map Prod.fst
  held : ∀ id txn r, s.txns id = some txn → txn.unfinished = true → r ∈ txn.writeSet.map Prod.fst →
    ∃ m b, s.heap.slot r = some (m, b) ∧ m.ts = s.currentStamp id r
  registry : ∃ l : List Nat, l.Nodup ∧ (∀ id, id ∈ l ↔ s.Open id) ∧ s.running.Perm (l.map s.readTsOf)
  passes : ∀ w ∈ s.passes, w ≤ s.lastCommitTs ∧ ∀ ρ ∈ s.running, w ≤ ρ
  sorted : ∀ r, (s.versionsOf base r).Pairwise fun v u => u.ts < v.ts
  published : ∀ r, ∀ v ∈ s.versionsOf base r, v.ts ≤ s.lastCommitTs
  latch : s.LatchInv

/-! ## Handles -/

section
variable {s : TransactionManager} {id : Nat} {f : Transaction → Transaction}

theorem modifyTxn_self {txn : Transaction} (h : s.txns id = some txn) :
    (s.modifyTxn id f).txns id = some (f txn) := by
  simp [modifyTxn, h]

theorem modifyTxn_of_ne {i : Nat} (h : i ≠ id) : (s.modifyTxn id f).txns i = s.txns i := by
  simp [modifyTxn, Function.update_of_ne h]

theorem caller_eq {txn : Transaction} (h : s.caller id = some txn) :
    s.txns id = some txn ∧ s.ending id = false := by
  unfold caller at h
  split at h
  · cases h
  · rename_i he
    exact ⟨h, by simpa using he⟩

theorem stampedRids_of_not_ending (h : s.ending id = false) : s.stampedRids id = [] := by
  unfold ending at h
  unfold stampedRids
  split
  all_goals simp_all [Outcome.txn]

theorem currentStamp_of_not_ending (h : s.ending id = false) (r : RecordId) : s.currentStamp id r = .txn id := by
  simp [currentStamp, stampedRids_of_not_ending h]

end

@[simp] theorem setTainted_readTs (txn : Transaction) : txn.setTainted.readTs = txn.readTs := by
  unfold Transaction.setTainted; split <;> rfl

@[simp] theorem setTainted_writeSet (txn : Transaction) : txn.setTainted.writeSet = txn.writeSet := by
  unfold Transaction.setTainted; split <;> rfl

@[simp] theorem setTainted_unfinished (txn : Transaction) : txn.setTainted.unfinished = txn.unfinished := by
  unfold Transaction.setTainted
  split
  · rename_i h; simp [Transaction.unfinished, h]
  · rfl

theorem setTainted_ne_running (txn : Transaction) : txn.setTainted.state ≠ .running := by
  unfold Transaction.setTainted
  split
  · simp
  · assumption

theorem unfinished_of_running {txn : Transaction} (h : txn.state = .running) : txn.unfinished = true := by
  simp [Transaction.unfinished, h]

theorem unfinished_of_tainted {txn : Transaction} (h : txn.state = .tainted) : txn.unfinished = true := by
  simp [Transaction.unfinished, h]

theorem setTainted_state {txn : Transaction} (h : txn.unfinished = true) : txn.setTainted.state = .tainted := by
  unfold Transaction.setTainted
  unfold Transaction.unfinished at h
  split
  · rfl
  · split at h <;> simp_all

/-! ## Steps that touch no slot -/

/-- `txn'` is `txn` but for its flags; it may have become tainted. -/
structure SameWrites (txn txn' : Transaction) : Prop where
  readTs : txn'.readTs = txn.readTs
  writeSet : txn'.writeSet = txn.writeSet
  unfinished : txn'.unfinished = txn.unfinished
  running : txn'.state = .running → txn.state = .running
  closed : txn.unfinished = false → txn'.state = txn.state ∧ txn'.commitTs = txn.commitTs

theorem SameWrites.refl (txn : Transaction) : SameWrites txn txn := ⟨rfl, rfl, rfl, id, fun _ => ⟨rfl, rfl⟩⟩

theorem SameWrites.setTainted (txn : Transaction) : SameWrites txn txn.setTainted :=
  ⟨setTainted_readTs txn, setTainted_writeSet txn, setTainted_unfinished txn,
    fun h => absurd h (setTainted_ne_running txn), fun h => by
      have : txn.state ≠ .running := fun hr => by simp [Transaction.unfinished, hr] at h
      simp [Transaction.setTainted, this]⟩

structure Still (s s' : TransactionManager) : Prop where
  heap : s'.heap = s.heap
  versions : s'.versions = s.versions
  clock : s'.lastCommitTs = s.lastCommitTs
  nextTxnId : s'.nextTxnId = s.nextTxnId
  running : s'.running = s.running
  handles : ∀ id txn, s.txns id = some txn → ∃ txn', s'.txns id = some txn' ∧ SameWrites txn txn'
  noHandle : ∀ id, s.txns id = none → s'.txns id = none

/-- A step that changes flags of handles, the log or the phase of the commit latch. -/
structure Quiet (s s' : TransactionManager) : Prop extends Still s s' where
  events : s'.events = s.events
  passes : s'.passes = s.passes
  stamped : ∀ id, s'.stampedRids id = s.stampedRids id

section
variable {base : RecordId → List Version} {s s' : TransactionManager}

theorem Still.of_eq (hh : s'.heap = s.heap) (hv : s'.versions = s.versions) (hc : s'.lastCommitTs = s.lastCommitTs)
    (hn : s'.nextTxnId = s.nextTxnId) (hr : s'.running = s.running) (ht : s'.txns = s.txns) : Still s s' :=
  ⟨hh, hv, hc, hn, hr, fun _ t h => ⟨t, by rw [ht]; exact h, .refl t⟩, fun _ h => by rw [ht]; exact h⟩

theorem Still.back (hq : Still s s') {id : Nat} {txn' : Transaction} (h : s'.txns id = some txn') :
    ∃ txn, s.txns id = some txn ∧ SameWrites txn txn' := by
  cases ht : s.txns id with
  | none => rw [hq.noHandle id ht] at h; cases h
  | some txn =>
    obtain ⟨txn₂, h2, hs⟩ := hq.handles id txn ht
    rw [h] at h2
    cases h2
    exact ⟨txn, rfl, hs⟩

theorem Still.isOpen (hq : Still s s') (id : Nat) : s'.Open id ↔ s.Open id := by
  constructor
  · rintro ⟨txn', h, hu⟩
    obtain ⟨txn, ht, hs⟩ := hq.back h
    exact ⟨txn, ht, by rw [← hs.unfinished]; exact hu⟩
  · rintro ⟨txn, h, hu⟩
    obtain ⟨txn', ht, hs⟩ := hq.handles id txn h
    exact ⟨txn', ht, by rw [hs.unfinished]; exact hu⟩

theorem Still.readTsOf (hq : Still s s') (id : Nat) : s'.readTsOf id = s.readTsOf id := by
  unfold TransactionManager.readTsOf
  cases ht : s.txns id with
  | none => rw [hq.noHandle id ht]
  | some txn =>
    obtain ⟨txn', h, hs⟩ := hq.handles id txn ht
    rw [h]
    simp [hs.readTs]

theorem Still.keepsHandles (hq : Still s s') (h : s.HandlesInv) : s'.HandlesInv := by
  intro id txn' ht
  obtain ⟨txn, ht, hs⟩ := hq.back ht
  rw [hq.nextTxnId, hq.clock, hs.readTs, hs.writeSet]
  exact h id txn ht

theorem Quiet.stamp (hq : Quiet s s') (id : Nat) (r : RecordId) : s'.currentStamp id r = s.currentStamp id r := by
  simp only [currentStamp, hq.stamped, hq.clock]

theorem Quiet.frame (hq : Quiet s s') (r : RecordId) : RowFrame base s s' r where
  slot := by rw [hq.heap]
  capacity := by rw [hq.heap]
  versions := by rw [hq.versions]
  committed := by simp only [versionsOf, hq.events]
  latest := fun _ => by rw [hq.events]
  saved := fun _ => by rw [hq.events]
  clock := by rw [hq.clock]
  readers := fun ρ h => by simpa only [Reader, hq.running, hq.clock] using h
  stamp := fun id => hq.stamp id r
  handles := fun id txn h => by
    obtain ⟨txn', h1, h2⟩ := hq.handles id txn h
    exact ⟨txn', h1, h2.readTs,
      fun hu => ⟨by rw [← h2.unfinished]; exact hu, fun p hp => by rw [h2.writeSet]; exact hp⟩⟩

theorem Inv.quiet (h : Inv base s) (hq : Quiet s s') (hl : s'.LatchInv) : Inv base s' where
  rows := fun r => (h.rows r).frame (hq.frame r)
  handles := hq.keepsHandles h.handles
  writers := by
    intro id r hw
    rw [hq.events] at hw
    rw [hq.nextTxnId]
    exact h.writers id r hw
  written := by
    intro id txn' r ht hr hw
    obtain ⟨txn, ht, hs⟩ := hq.back ht
    rw [hq.events] at hw
    rw [hs.writeSet]
    exact h.written id txn r ht (hs.running hr) hw
  held := by
    intro id txn' r ht hu hr
    obtain ⟨txn, ht, hs⟩ := hq.back ht
    rw [hs.writeSet] at hr
    rw [hs.unfinished] at hu
    rw [hq.heap, hq.stamp]
    exact h.held id txn r ht hu hr
  registry := Registered.congr h.registry hq.running hq.isOpen hq.readTsOf
  passes := by rw [hq.passes, hq.clock, hq.running]; exact h.passes
  sorted := by intro r; simp only [versionsOf, hq.events]; exact h.sorted r
  published := by intro r; simp only [versionsOf, hq.events, hq.clock]; exact h.published r
  latch := hl

end

end TransactionManager

end Cmudb
