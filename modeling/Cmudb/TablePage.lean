import Cmudb.Lib.Range
import Cmudb.Ids

/-!
# Table pages

A slotted page, with its header and slot directory decoded and its bytes flat.
A slot owns the `capacity` bytes that end at its `offset`, and its tuple is the
first `size` of them.
-/

namespace Cmudb

open Lib

structure Slot where
  offset : Nat
  size : Nat
  capacity : Nat
  tmeta : TupleMeta
  deriving DecidableEq, Repr

def Slot.regionStart (s : Slot) : Nat := s.offset - s.capacity

inductive TablePageError where
  | wrongSize (len : Nat)
  | corruptHeader (directoryEnd freeSpaceOffset : Nat)
  | slotOutOfBounds (offset size capacity tupleAreaStart : Nat)
  | doesNotFit (len : Nat)
  | slotCountOverflow
  | slotMissing (slot numSlots : Nat)
  | alreadyDeleted (slot : Nat)
  | corruptDeletedCounter (count slot : Nat)
  | updateDoesNotFit (slot len available : Nat)
  deriving DecidableEq, Repr

structure TablePage where
  nextPageId : Option Nat
  numDeleted : Nat
  freeSpaceOffset : Nat
  slots : List Slot
  buf : Buf

namespace TablePage

def headerSize : Nat := 12
def slotSize : Nat := 17
def maxTupleSize : Nat := pageSize - headerSize - slotSize

abbrev numTuples (p : TablePage) : Nat := p.slots.length

def directoryEnd (p : TablePage) : Nat := headerSize + p.numTuples * slotSize

def slot (p : TablePage) (i : Nat) : Option Slot := p.slots[i]?

def validate (p : TablePage) : Except TablePageError Unit :=
  if p.directoryEnd > p.freeSpaceOffset ∨ p.freeSpaceOffset > pageSize then
    .error (.corruptHeader p.directoryEnd p.freeSpaceOffset)
  else .ok ()

def checkRegion (p : TablePage) (s : Slot) : Except TablePageError Unit :=
  if s.size > s.capacity ∨ s.capacity > s.offset ∨ s.regionStart < p.freeSpaceOffset ∨ s.offset > pageSize then
    .error (.slotOutOfBounds s.offset s.size s.capacity p.freeSpaceOffset)
  else .ok ()

def tupleBytes (p : TablePage) (s : Slot) : Except TablePageError Bytes :=
  match p.checkRegion s with
  | .error e => .error e
  | .ok () => .ok (readAt p.buf s.regionStart s.size)

def freeBytes (p : TablePage) : Nat := p.freeSpaceOffset - p.directoryEnd

def canInsert (p : TablePage) (len : Nat) : Bool :=
  decide (p.directoryEnd + slotSize + len ≤ p.freeSpaceOffset)

def init (buf : Buf) : TablePage := ⟨none, 0, pageSize, [], buf⟩

def setNextPageId (p : TablePage) (pageId : Nat) : TablePage := { p with nextPageId := some pageId }

def tupleLen (data : Bytes) : Except TablePageError Nat :=
  if data.length ≤ 65535 ∧ data.length ≤ maxTupleSize then .ok data.length else .error (.doesNotFit data.length)

def insertWithMeta (p : TablePage) (tmeta : TupleMeta) (data : Bytes) : Except TablePageError (Nat × TablePage) :=
  if !p.canInsert data.length then .error (.doesNotFit data.length)
  else if p.numTuples = 65535 then .error .slotCountOverflow
  else match tupleLen data with
    | .error e => .error e
    | .ok size =>
      let start := p.freeSpaceOffset - size
      .ok (p.numTuples,
        { p with
          numDeleted := p.numDeleted + tmeta.isDeleted.toNat
          freeSpaceOffset := start
          slots := p.slots ++ [⟨p.freeSpaceOffset, size, size, tmeta⟩]
          buf := copyAt p.buf start data })

def existingSlot (p : TablePage) (i : Nat) : Except TablePageError Slot :=
  match p.slot i with
  | some s => .ok s
  | none => .error (.slotMissing i p.numTuples)

/-- The deleted-tuple counter once a slot's flag goes from `was` to `now`. -/
def deletedCount (count : Nat) (was now : Bool) : Option Nat :=
  match was, now with
  | false, true => if count + 1 ≤ 65535 then some (count + 1) else none
  | true, false => if 1 ≤ count then some (count - 1) else none
  | _, _ => some count

def updateMeta (p : TablePage) (i : Nat) (tmeta : TupleMeta) : Except TablePageError TablePage :=
  match p.existingSlot i with
  | .error e => .error e
  | .ok current =>
    match deletedCount p.numDeleted current.tmeta.isDeleted tmeta.isDeleted with
    | none => .error (.corruptDeletedCounter p.numDeleted i)
    | some deleted => .ok { p with numDeleted := deleted, slots := p.slots.set i { current with tmeta := tmeta } }

def markDeleted (p : TablePage) (i : Nat) : Except TablePageError TablePage :=
  match p.existingSlot i with
  | .error e => .error e
  | .ok current =>
    if current.tmeta.isDeleted then .error (.alreadyDeleted i)
    else if p.numDeleted = 65535 then .error (.corruptDeletedCounter 65535 i)
    else p.updateMeta i { current.tmeta with isDeleted := true }

inductive Placement where
  | inPlace
  | free
  | afterCompaction
  deriving DecidableEq, Repr

def otherRegions (p : TablePage) (skip : Nat) : Nat := ((p.slots.eraseIdx skip).map Slot.capacity).sum

def place (p : TablePage) (current : Slot) (i len : Nat) : Except TablePageError Placement :=
  if len ≤ current.capacity then .ok .inPlace
  else if len ≤ p.freeBytes then .ok .free
  else
    let available := pageSize - p.directoryEnd - p.otherRegions i
    if len ≤ available then .ok .afterCompaction else .error (.updateDoesNotFit i len available)

def claimFreeRegion (p : TablePage) (i size : Nat) : TablePage :=
  { p with
    freeSpaceOffset := p.freeSpaceOffset - size
    slots := p.slots.modify i fun s => { s with offset := p.freeSpaceOffset, capacity := size } }

/-- One pass of `compactWithout` over the slots from number `i` on, the space
above `fin` being packed already. Regions are read from `old`, the page as it was. -/
def packFrom (old : Buf) (skip : Nat) : Nat → Nat → List Slot → Buf → List Slot × Nat × Buf
  | _, fin, [], b => ([], fin, b)
  | i, fin, s :: rest, b =>
    if i = skip then
      let (slots, fin', b') := packFrom old skip (i + 1) fin rest b
      ({ s with offset := fin, capacity := 0 } :: slots, fin', b')
    else
      let start := fin - s.capacity
      let (slots, fin', b') := packFrom old skip (i + 1) start rest
        (copyAt b start (readAt old s.regionStart s.capacity))
      ({ s with offset := fin } :: slots, fin', b')

def compactWithout (p : TablePage) (skip : Nat) : TablePage :=
  let (slots, fin, b) := packFrom p.buf skip 0 pageSize p.slots p.buf
  { p with slots := slots, freeSpaceOffset := fin, buf := b }

def makeRoom (p : TablePage) (i size : Nat) : Placement → TablePage
  | .inPlace => p
  | .free => p.claimFreeRegion i size
  | .afterCompaction => (p.compactWithout i).claimFreeRegion i size

def writeTuple (p : TablePage) (i : Nat) (data : Bytes) : TablePage :=
  match p.slot i with
  | none => p
  | some s =>
    { p with buf := copyAt p.buf s.regionStart data, slots := p.slots.set i { s with size := data.length } }

def updateInPlace (p : TablePage) (i : Nat) (tmeta : TupleMeta) (data : Bytes) : Except TablePageError TablePage :=
  match p.existingSlot i with
  | .error e => .error e
  | .ok current =>
    match p.checkRegion current with
    | .error e => .error e
    | .ok () =>
      match tupleLen data with
      | .error e => .error e
      | .ok size =>
        match p.place current i data.length with
        | .error e => .error e
        | .ok placement =>
          match p.updateMeta i tmeta with
          | .error e => .error e
          | .ok p' => .ok ((p'.makeRoom i size placement).writeTuple i data)

end TablePage

end Cmudb
