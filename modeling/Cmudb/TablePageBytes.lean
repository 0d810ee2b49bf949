import Cmudb.Buf
import Cmudb.TablePage

/-!
# Table pages as bytes

The functions of a table page on the buffer of the page itself. `none` is a
panic: an index or a range outside the buffer, or arithmetic that leaves its
type. An error keeps whatever has been written by then.
-/

namespace Cmudb

open Lib

def TupleMeta.ofU64 (ts : UInt64) (isDeleted : Bool) : TupleMeta := ⟨.decode ts.toNat, isDeleted⟩

namespace RawTablePage

open TablePage (headerSize slotSize tupleLen Placement)

/-! ## Reading -/

def decodeU32 (raw : Nat) : Option Nat := if raw = 2 ^ 32 - 1 then none else some raw

def encodeU32 (link : Option Nat) : Nat := link.getD (2 ^ 32 - 1)

def numTuples (b : Bytes) : Option Nat := getU16Le b 4

def numDeletedTuples (b : Bytes) : Option Nat := getU16Le b 6

def freeSpaceOffset (b : Bytes) : Option Nat := getU32Le b 8

def directoryEnd (b : Bytes) : Option Nat := do return headerSize + (← numTuples b) * slotSize

def slotBase (i : Nat) : Nat := headerSize + i * slotSize

def validate (b : Bytes) : Option (Except TablePageError Unit) :=
  if b.length ≠ pageSize then some (.error (.wrongSize b.length))
  else do
    let dirEnd ← directoryEnd b
    let free ← freeSpaceOffset b
    pure (if dirEnd > free ∨ free > pageSize then .error (.corruptHeader dirEnd free) else .ok ())

def entry (b : Bytes) (i : Nat) : Option Slot := do
  let offset ← getU32Le b (slotBase i)
  let size ← getU16Le b (slotBase i + 4)
  let capacity ← getU16Le b (slotBase i + 6)
  let ts ← getU64Le b (slotBase i + 8)
  let deleted ← b[slotBase i + 16]?
  return ⟨offset, size, capacity, ⟨Stamp.decode ts, deleted != 0⟩⟩

def slot (b : Bytes) (i : Nat) : Option (Option Slot) := do
  let n ← numTuples b
  if n ≤ i then pure none else (entry b i).map some

def slots (b : Bytes) : Option (List Slot) := do
  let n ← numTuples b
  let found ← (List.range n).mapM (slot b)
  return found.filterMap id

def regionStart (s : Slot) : Option Nat := minus s.offset s.capacity

def outOfBounds (s : Slot) (free : Nat) : TablePageError := .slotOutOfBounds s.offset s.size s.capacity free

/-- The start of the region is computed only where the capacity is no more than the offset. -/
def checkRegion (b : Bytes) (s : Slot) : Option (Except TablePageError Unit) := do
  let free ← freeSpaceOffset b
  if s.size > s.capacity ∨ s.capacity > s.offset then pure (.error (outOfBounds s free))
  else do
    let start ← regionStart s
    pure (if start < free ∨ s.offset > pageSize then .error (outOfBounds s free) else .ok ())

def tupleRange (b : Bytes) (s : Slot) : Option Bytes := do
  let start ← regionStart s
  slice? b start (start + s.size)

def tupleBytes (b : Bytes) (s : Slot) : Option (Except TablePageError Bytes) := do
  match ← checkRegion b s with
  | .error e => pure (.error e)
  | .ok () => (tupleRange b s).map .ok

def addUsize (a b : Nat) : Option Nat := if a + b < 2 ^ 64 then some (a + b) else none

def addU16 (a b : Nat) : Option Nat := if a + b < 2 ^ 16 then some (a + b) else none

def freeBytes (b : Bytes) : Option Nat := do return (← freeSpaceOffset b) - (← directoryEnd b)

def canInsert (b : Bytes) (len : Nat) : Option Bool := do
  let needed ← addUsize ((← directoryEnd b) + slotSize) len
  return decide (needed ≤ (← freeSpaceOffset b))

/-! ## Writing -/

/-- A step on the buffer of a page: a panic, or a result and the buffer it leaves. -/
def PageM (α : Type) : Type := Bytes → Option (Except TablePageError α × Bytes)

def PageM.bind {α β : Type} (x : PageM α) (f : α → PageM β) : PageM β := fun b =>
  match x b with
  | none => none
  | some (.error e, b') => some (.error e, b')
  | some (.ok a, b') => f a b'

instance PageM.monad : Monad PageM where
  pure a := fun b => some (.ok a, b)
  bind := PageM.bind

def get {α : Type} (f : Bytes → Option α) : PageM α := fun b => (f b).map fun a => (.ok a, b)

def check {α : Type} (f : Bytes → Option (Except TablePageError α)) : PageM α := fun b => (f b).map fun r => (r, b)

def write (f : Bytes → Option Bytes) : PageM Unit := fun b => (f b).map fun b' => (.ok (), b')

def ensure (p : Prop) [Decidable p] (e : TablePageError) : PageM Unit :=
  fun b => some (if p then .ok () else .error e, b)

def copyFromSlice (start stop : Nat) (data : Bytes) (b : Bytes) : Option Bytes :=
  if stop = start + data.length then put b start data else none

def init (b : Bytes) : Option Bytes := do
  let b ← putU32Le b 0 (encodeU32 none)
  let b ← putU16Le b 4 0
  let b ← putU16Le b 6 0
  putU32Le b 8 pageSize

def flag (b : Bool) : Bytes := [if b then 1 else 0]

def insertWithMeta (m : TupleMeta) (data : Bytes) : PageM Nat := do
  let fits ← get fun b => canInsert b data.length
  ensure fits (.doesNotFit data.length)
  let n ← get numTuples
  ensure (n + 1 ≤ 65535) .slotCountOverflow
  let offset ← get freeSpaceOffset
  let size ← check fun _ => some (tupleLen data)
  let start ← get fun _ => minus offset size
  let count ← get numDeletedTuples
  let deleted ← get fun _ => addU16 count m.isDeleted.toNat
  write (copyFromSlice start offset data)
  write fun b => putU32Le b (slotBase n) offset
  write fun b => putU16Le b (slotBase n + 4) size
  write fun b => putU16Le b (slotBase n + 6) size
  write fun b => putU64Le b (slotBase n + 8) m.ts.encode
  write fun b => put b (slotBase n + 16) (flag m.isDeleted)
  write fun b => putU16Le b 4 (n + 1)
  write fun b => putU16Le b 6 deleted
  write fun b => putU32Le b 8 start
  pure n

def slotMissing (b : Bytes) (i : Nat) :
    Option (Except TablePageError Slot) := do return .error (.slotMissing i (← numTuples b))

def existingSlot (i : Nat) : PageM Slot := check fun b => do
  match ← slot b i with
  | some s => pure (.ok s)
  | none => slotMissing b i

def counterOf (count i : Nat) : Option Nat → Except TablePageError Nat
  | some deleted => .ok deleted
  | none => .error (.corruptDeletedCounter count i)

def updateMeta (i : Nat) (m : TupleMeta) : PageM Unit := do
  let current ← existingSlot i
  let count ← get numDeletedTuples
  let deleted ← check fun _ =>
      some (counterOf count i (TablePage.deletedCount count current.tmeta.isDeleted m.isDeleted))
  write fun b => putU64Le b (slotBase i + 8) m.ts.encode
  write fun b => put b (slotBase i + 16) (flag m.isDeleted)
  write fun b => putU16Le b 6 deleted

def markDeleted (i : Nat) : PageM Unit := do
  let current ← existingSlot i
  ensure (current.tmeta.isDeleted = false) (.alreadyDeleted i)
  let count ← get numDeletedTuples
  ensure (count ≠ 65535) (.corruptDeletedCounter 65535 i)
  updateMeta i { current.tmeta with isDeleted := true }

def otherRegions (slots : List Slot) (i : Nat) : Nat :=
  ((slots.zipIdx.filter fun x => x.2 ≠ i).map fun x => x.1.capacity).sum

def placeAfterCompaction (b : Bytes) (i len : Nat) : Option (Except TablePageError Placement) := do
  let all ← slots b
  let behind ← minus pageSize (← directoryEnd b)
  let available ← minus behind (otherRegions all i)
  return if len ≤ available then .ok .afterCompaction else .error (.updateDoesNotFit i len available)

def place (current : Slot) (i len : Nat) (b : Bytes) : Option (Except TablePageError Placement) :=
  if len ≤ current.capacity then some (.ok .inPlace)
  else do
    let free ← freeBytes b
    if len ≤ free then pure (.ok .free) else placeAfterCompaction b i len

def theSlot (i : Nat) : PageM Slot := get fun b => do
  let s ← slot b i
  s

def claimFreeRegion (i size : Nat) : PageM Slot := do
  let stop ← get freeSpaceOffset
  let start ← get fun _ => minus stop size
  write fun b => putU32Le b (slotBase i) stop
  write fun b => putU16Le b (slotBase i + 6) size
  write fun b => putU32Le b 8 start
  theSlot i

def region (b : Bytes) (s : Slot) : Option Bytes := do
  let start ← regionStart s
  slice? b start s.offset

def packFrom (skip : Nat) : Nat → Nat → List (Slot × Bytes) → PageM Nat
  | _, fin, [] => pure fin
  | i, fin, (s, region) :: rest =>
    if i = skip then do
      write fun b => putU32Le b (slotBase i) fin
      write fun b => putU16Le b (slotBase i + 6) 0
      packFrom skip (i + 1) fin rest
    else do
      let start ← get fun _ => minus fin s.capacity
      write (copyFromSlice start fin region)
      write fun b => putU32Le b (slotBase i) fin
      packFrom skip (i + 1) start rest

def compactWithout (skip : Nat) : PageM Unit := do
  let all ← get slots
  let regions ← get fun b => all.mapM (region b)
  let fin ← packFrom skip 0 pageSize (all.zip regions)
  write fun b => putU32Le b 8 fin

def makeRoom (current : Slot) (i size : Nat) : Placement → PageM Slot
  | .inPlace => pure current
  | .free => claimFreeRegion i size
  | .afterCompaction => do
    compactWithout i
    claimFreeRegion i size

def updateInPlace (i : Nat) (m : TupleMeta) (data : Bytes) : PageM Unit := do
  let current ← existingSlot i
  check fun b => checkRegion b current
  let size ← check fun _ => some (tupleLen data)
  let placement ← check (place current i data.length)
  updateMeta i m
  let region ← makeRoom current i size placement
  let start ← get fun _ => regionStart region
  write (copyFromSlice start (start + data.length) data)
  write fun b => putU16Le b (slotBase i + 4) size

end RawTablePage

end Cmudb
