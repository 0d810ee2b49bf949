import Mathlib.Algebra.Ring.Nat
import Mathlib.Tactic.Common

/-!
# Record ids, timestamps and version stamps

A slot is stamped with a `u64` that is a commit timestamp, or the id of the
transaction that wrote it while that one is uncommitted. Transaction ids start
at `txnStartId`, above every commit timestamp, so the code tells the two apart
by size. `Stamp` keeps them as two constructors, with transaction ids counted
from `txnStartId`; `Stamp.encode` is the number the page holds, and the lemmas
on it say that the comparisons made on stamps are those the code makes on the
numbers.
-/

namespace Cmudb

abbrev Bytes := List UInt8

def pageSize : Nat := 8192

/-- The largest page id; the `u32` above it encodes "no page". -/
def maxPageId : Nat := 2 ^ 32 - 2

def noPageU64 : Nat := 2 ^ 64 - 1

def encodePageId : Option Nat → Nat
  | none => noPageU64
  | some id => id

structure RecordId where
  pageId : Nat
  slotId : Nat
  deriving DecidableEq, Repr

def txnStartId : Nat := 2 ^ 62

inductive Stamp where
  | commit (ts : Nat)
  | txn (id : Nat)
  deriving DecidableEq, Repr

namespace Stamp

def isTxnId : Stamp → Bool
  | commit _ => false
  | txn _ => true

def le (readTs : Nat) : Stamp → Bool
  | commit ts => decide (ts ≤ readTs)
  | txn _ => false

def encode : Stamp → Nat
  | commit ts => ts
  | txn id => txnStartId + id

/-- The commit clock has not run into the transaction ids. -/
def inRange : Stamp → Prop
  | commit ts => ts < txnStartId
  | txn _ => True

@[simp] theorem isTxnId_commit (ts : Nat) : (commit ts).isTxnId = false := rfl
@[simp] theorem isTxnId_txn (id : Nat) : (txn id).isTxnId = true := rfl
@[simp] theorem le_commit (r ts : Nat) : (commit ts).le r = decide (ts ≤ r) := rfl
@[simp] theorem le_txn (r : Nat) (id : Nat) : (txn id).le r = false := rfl

theorem encode_isTxnId {s : Stamp} (h : s.inRange) : s.isTxnId = decide (txnStartId ≤ s.encode) := by
  cases s with
  | commit ts =>
    have : ¬ txnStartId ≤ ts := Nat.not_le.mpr h
    simp [encode, this]
  | txn id => simp [encode]

theorem encode_le {s : Stamp} {r : Nat} (hr : r < txnStartId) : s.le r = decide (s.encode ≤ r) := by
  cases s with
  | commit ts => rfl
  | txn id =>
    have : ¬ txnStartId + id ≤ r := by omega
    simp [encode, this]

theorem encode_inj {s t : Stamp} (hs : s.inRange) (ht : t.inRange) (h : s.encode = t.encode) : s = t := by
  cases s with
  | commit a =>
    cases t with
    | commit b => simpa [encode] using h
    | txn b => simp only [encode, inRange] at h hs; omega
  | txn a =>
    cases t with
    | commit b => simp only [encode, inRange] at h ht; omega
    | txn b =>
      simp only [encode] at h
      have : a = b := by omega
      rw [this]

end Stamp

/-- MVCC metadata of the newest version of a tuple. -/
structure TupleMeta where
  ts : Stamp
  isDeleted : Bool
  deriving DecidableEq, Repr

/-- What an aborted insert leaves behind. -/
def TupleMeta.dead : TupleMeta := ⟨.commit 0, true⟩

end Cmudb
