import Mathlib.Data.List.Lex
import Mathlib.Tactic.Linarith
import Cmudb.Lib.Search
import Cmudb.TablePage

/-!
# Pages of a B+ tree

A leaf holds entries in key order and the slots of deleted keys it still
stores, oldest deletion first. An internal page holds children and the keys
that separate them. Pages are kept decoded; their costs in bytes decide when
they split, borrow and merge.
-/

namespace Cmudb

instance byteOrder : LinearOrder UInt8 where
  le_refl a := UInt8.le_refl a
  le_trans _ _ _ := UInt8.le_trans
  le_antisymm _ _ := UInt8.le_antisymm
  le_total a b := UInt8.le_total a b
  lt_iff_le_not_ge a b := by
    rw [UInt8.not_le]
    exact ⟨fun h => ⟨UInt8.le_of_lt h, h⟩, fun h => h.2⟩
  toDecidableLE := inferInstance
  toDecidableLT := inferInstance
  toDecidableEq := inferInstance

namespace BPlus

abbrev Key := List UInt8

/-! ## Layout -/

structure EntryArea where
  slotsStart : Nat
  payloadLen : Nat

def EntryArea.capacity (area : EntryArea) : Nat := pageSize - area.slotsStart

def EntryArea.entryCost (area : EntryArea) (keyLen : Nat) : Nat := 2 + keyLen + area.payloadLen

def minEntriesPerPage : Nat := 4

def longestKeyFor (area : EntryArea) : Nat := area.capacity / minEntriesPerPage - area.entryCost 0

def leafSlotsStart (tombstoneCapacity : Nat) : Nat := 24 + 4 + tombstoneCapacity * 4

def leafAreaOf (tombstoneCapacity : Nat) : EntryArea := ⟨leafSlotsStart tombstoneCapacity, 16⟩

def internalArea : EntryArea := ⟨24, 8⟩

def leafTombstoneCapacity : Nat := 16

/-- The byte layout of the pages of a tree: keys of the longest length fit four to a page. -/
structure Layout where
  maxKeyLen : Nat
  tombstoneCapacity : Nat
  pos : 0 < maxKeyLen
  tombstonesFit : leafSlotsStart tombstoneCapacity < pageSize
  leafFits : maxKeyLen ≤ longestKeyFor (leafAreaOf tombstoneCapacity)
  internalFits : maxKeyLen ≤ longestKeyFor internalArea

inductive PageCodecError where
  | badMagic
  | unsupportedVersion (version : Nat)
  | wrongPageKind (expected actual : Nat)
  | keyTooLong (max actual : Nat)
  | invalidSize
  | malformed (message : String)
  | overflow
  | bufferTooSmall (needed actual : Nat)
  deriving DecidableEq, Repr

def Layout.build (maxKeyLen tombstones : Nat) : Except PageCodecError Layout :=
  if h₁ : 0 < maxKeyLen then
    if h₂ : leafSlotsStart tombstones < pageSize then
      if h₃ : maxKeyLen ≤ longestKeyFor (leafAreaOf tombstones) ∧ maxKeyLen ≤ longestKeyFor internalArea then
        .ok ⟨maxKeyLen, tombstones, h₁, h₂, h₃.1, h₃.2⟩
      else .error (.malformed "keys that long do not fit four to a page")
    else .error (.malformed "tombstones do not fit in a leaf")
  else .error (.malformed "key_len must be > 0")

def Layout.new (maxKeyLen : Nat) : Except PageCodecError Layout := Layout.build maxKeyLen leafTombstoneCapacity

namespace Layout

variable (layout : Layout)

def leafArea : EntryArea := leafAreaOf layout.tombstoneCapacity

def leafMaxEntryBytes : Nat := layout.leafArea.entryCost layout.maxKeyLen

def internalMaxEntryBytes : Nat := internalArea.entryCost layout.maxKeyLen

def leafMinUsed : Nat := (layout.leafArea.capacity - layout.leafMaxEntryBytes) / 2

def internalMinUsed : Nat := (internalArea.capacity - 2 * layout.internalMaxEntryBytes) / 2

theorem four_leaf_entries : 4 * layout.leafMaxEntryBytes ≤ layout.leafArea.capacity := by
  have h := layout.leafFits
  have h' := layout.pos
  unfold leafMaxEntryBytes leafArea EntryArea.entryCost
  unfold longestKeyFor EntryArea.entryCost minEntriesPerPage at h
  omega

theorem four_internal_entries : 4 * layout.internalMaxEntryBytes ≤ internalArea.capacity := by
  have h := layout.internalFits
  have h' := layout.pos
  unfold internalMaxEntryBytes EntryArea.entryCost
  unfold longestKeyFor EntryArea.entryCost minEntriesPerPage at h
  omega

end Layout

inductive Edge where
  | first
  | last
  deriving DecidableEq, Repr

def balancedStep (total : Nat) (dropMiddle : Bool) (acc : (Option Nat × Nat) × Nat × Nat) (cost : Nat) :
    (Option Nat × Nat) × Nat × Nat :=
  let ((bestGap, best), left, split) := acc
  let right := total - left - if dropMiddle then cost else 0
  let gap := if left ≤ right then right - left else left - right
  let better := 0 < split ∧ (bestGap.all fun g => gap < g)
  ((if better then (some gap, split) else (bestGap, best)), left + cost, split + 1)

/-- The index that splits entries costing `costs` into two runs of nearly equal bytes. With
`dropMiddle`, the entry at the split goes to neither side. -/
def balancedSplit (costs : List Nat) (dropMiddle : Bool) : Nat :=
  (costs.foldl (balancedStep costs.sum dropMiddle) ((none, 1), 0, 0)).1.2

/-! ## Leaves -/

structure LeafPage where
  entries : List (Key × RecordId)
  nextLeafId : Option Nat
  /-- Slots of deleted keys still stored in the page, oldest deletion first. -/
  tombstones : List Nat
  deriving DecidableEq, Repr

inductive LeafInsertError where
  | duplicateKey
  | full
  deriving DecidableEq, Repr

namespace LeafPage

def new : LeafPage := ⟨[], none, []⟩

def keys (p : LeafPage) : List Key := p.entries.map Prod.fst

def firstKey (p : LeafPage) : Option Key := p.entries.head?.map Prod.fst

def usedBytes (layout : Layout) (p : LeafPage) : Nat := (p.keys.map fun k => layout.leafArea.entryCost k.length).sum

def tombstonesFull (layout : Layout) (p : LeafPage) : Bool := layout.tombstoneCapacity ≤ p.tombstones.length

def lowerBound (p : LeafPage) (key : Key) : Nat :=
  Lib.partitionPoint p.keys.length fun i => (p.keys[i]?).any (· < key)

def upperBound (p : LeafPage) (key : Key) : Nat :=
  Lib.partitionPoint p.keys.length fun i => (p.keys[i]?).any (· ≤ key)

/-- The slot of the key, or else where it would go. Of equal keys `binary_search_by` may give any slot,
and this gives the first; where no key is stored twice, there is no other. -/
def search (p : LeafPage) (key : Key) : Except Nat Nat :=
  let pos := p.lowerBound key
  if p.keys[pos]? = some key then .ok pos else .error pos

def isTombstoned (p : LeafPage) (slot : Nat) : Bool := slot ∈ p.tombstones

def get (p : LeafPage) (key : Key) : Option RecordId :=
  match p.search key with
  | .error _ => none
  | .ok pos => if p.isTombstoned pos then none else (p.entries[pos]?).map Prod.snd

def adjustTombstonesAfterInsert (tombstones : List Nat) (insertAt : Nat) : List Nat :=
  tombstones.map fun s => if insertAt ≤ s then s + 1 else s

def adjustTombstonesAfterRemove (tombstones : List Nat) (removedAt : Nat) : List Nat :=
  (tombstones.filter fun s => s ≠ removedAt).map fun s => if removedAt < s then s - 1 else s

def physicalRemoveAt (p : LeafPage) (slot : Nat) : LeafPage :=
  { p with entries := p.entries.eraseIdx slot, tombstones := adjustTombstonesAfterRemove p.tombstones slot }

def revive (p : LeafPage) (slot : Nat) (key : Key) (rid : RecordId) : LeafPage :=
  { p with entries := p.entries.set slot (key, rid), tombstones := p.tombstones.erase slot }

def insertAt (p : LeafPage) (pos : Nat) (key : Key) (rid : RecordId) : LeafPage :=
  { p with
    entries := p.entries.insertIdx pos (key, rid), tombstones := adjustTombstonesAfterInsert p.tombstones pos }

/-- Inserts into a decoded page, however many bytes that takes; fails when the key is live. -/
def insert (p : LeafPage) (key : Key) (rid : RecordId) : Except LeafInsertError LeafPage :=
  match p.search key with
  | .ok pos => if p.isTombstoned pos then .ok (p.revive pos key rid) else .error .duplicateKey
  | .error pos => .ok (p.insertAt pos key rid)

def purgeOldestTombstone (p : LeafPage) : LeafPage :=
  match p.tombstones with
  | [] => p
  | oldest :: rest => { p with tombstones := rest }.physicalRemoveAt oldest

/-- Tombstones the key, purging the oldest tombstone when they are full; `none` when it is not live. -/
def removeKey (layout : Layout) (p : LeafPage) (key : Key) : Option LeafPage :=
  match p.search key with
  | .error _ => none
  | .ok slot =>
    if p.isTombstoned slot then none
    else if layout.tombstoneCapacity = 0 then some (p.physicalRemoveAt slot)
    else if p.tombstonesFull layout then
      let purged := p.tombstones.headD 0
      let p := p.purgeOldestTombstone
      some { p with tombstones := p.tombstones ++ [if purged < slot then slot - 1 else slot] }
    else some { p with tombstones := p.tombstones ++ [slot] }

def costs (layout : Layout) (p : LeafPage) : List Nat := p.keys.map fun k => layout.leafArea.entryCost k.length

def splitInto (layout : Layout) (p : LeafPage) (rightPageId : Nat) : LeafPage × LeafPage :=
  let mid := balancedSplit (p.costs layout) false
  (⟨p.entries.take mid, some rightPageId, p.tombstones.filter fun s => s < mid⟩,
    ⟨p.entries.drop mid, p.nextLeafId, (p.tombstones.filter fun s => ¬ s < mid).map fun s => s - mid⟩)

def purgeTo (capacity : Nat) : Nat → LeafPage → LeafPage
  | 0, p => p
  | fuel + 1, p => if capacity < p.tombstones.length then purgeTo capacity fuel p.purgeOldestTombstone else p

/-- Appends the entries of `right`, whose tombstones count as newer. -/
def absorbRight (layout : Layout) (p right : LeafPage) : LeafPage :=
  let merged : LeafPage := ⟨p.entries ++ right.entries, right.nextLeafId,
    p.tombstones ++ right.tombstones.map fun s => s + p.entries.length⟩
  purgeTo layout.tombstoneCapacity merged.tombstones.length merged

def isOverfull (layout : Layout) (p : LeafPage) : Bool := layout.leafArea.capacity < p.usedBytes layout

def isUnderfull (layout : Layout) (p : LeafPage) : Bool := p.usedBytes layout < layout.leafMinUsed

def edgeEntry (p : LeafPage) : Edge → Option (Key × RecordId)
  | .first => p.entries.head?
  | .last => p.entries.getLast?

def canLend (layout : Layout) (p : LeafPage) (edge : Edge) : Bool :=
  (p.edgeEntry edge).any fun e => layout.leafMinUsed ≤ p.usedBytes layout - layout.leafArea.entryCost e.1.length

def check (layout : Layout) (p : LeafPage) : Bool :=
  decide (p.keys.Pairwise (· ≤ ·)) && p.tombstones.length ≤ layout.tombstoneCapacity &&
    p.tombstones.all (· < p.entries.length) && p.keys.all (·.length ≤ layout.maxKeyLen)

/-- The assertions of `split_into`, whose right page is new. -/
def splitIntoAsserts (layout : Layout) (p : LeafPage) (rightPageId : Nat) : Bool :=
  p.check layout && 2 ≤ p.entries.length && (p.splitInto layout rightPageId).1.check layout &&
    (p.splitInto layout rightPageId).2.check layout

/-- What `encode` checks before it writes the page. -/
def encodes (layout : Layout) (p : LeafPage) : Bool :=
  p.check layout && p.usedBytes layout ≤ layout.leafArea.capacity

end LeafPage

/-! ## Internal pages -/

structure InternalPage where
  children : List Nat
  keys : List Key
  deriving DecidableEq, Repr

namespace InternalPage

def costs (p : InternalPage) : List Nat := p.keys.map fun k => internalArea.entryCost k.length

def usedBytes (p : InternalPage) : Nat := p.costs.sum

def findChildIndex (p : InternalPage) (key : Key) : Nat :=
  Lib.partitionPoint p.keys.length fun i => (p.keys[i]?).any (· ≤ key)

def splitInto (p : InternalPage) : InternalPage × Key × InternalPage :=
  let mid := min (balancedSplit p.costs true) (p.keys.length - 2)
  (⟨p.children.take (mid + 1), p.keys.take mid⟩, p.keys.getD mid [],
    ⟨p.children.drop (mid + 1), p.keys.drop (mid + 1)⟩)

def absorbRight (p : InternalPage) (sepKey : Key) (right : InternalPage) : InternalPage :=
  ⟨p.children ++ right.children, p.keys ++ [sepKey] ++ right.keys⟩

def isOverfull (p : InternalPage) : Bool := internalArea.capacity < p.usedBytes

def isUnderfull (layout : Layout) (p : InternalPage) : Bool := p.usedBytes < layout.internalMinUsed

def edgeKey (p : InternalPage) : Edge → Option Key
  | .first => p.keys.head?
  | .last => p.keys.getLast?

def canLend (layout : Layout) (p : InternalPage) (edge : Edge) : Bool :=
  (p.edgeKey edge).any fun k => layout.internalMinUsed ≤ p.usedBytes - internalArea.entryCost k.length

def check (layout : Layout) (p : InternalPage) : Bool :=
  p.children.isEmpty && p.keys.isEmpty ||
    p.children.length == p.keys.length + 1 && decide (p.keys.Pairwise (· ≤ ·)) &&
      p.keys.all (·.length ≤ layout.maxKeyLen)

def splitIntoAsserts (layout : Layout) (p : InternalPage) : Bool :=
  3 ≤ p.keys.length && p.check layout && p.splitInto.1.check layout && p.splitInto.2.2.check layout

end InternalPage

end BPlus

end Cmudb
