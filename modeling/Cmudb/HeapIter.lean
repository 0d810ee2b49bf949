import Mathlib.Logic.Function.Basic
import Cmudb.TableHeap

/-!
# Iterating over a table heap while it changes

One table heap on its pages, with the inserts, slot writes and iterator passes
that threads take on it in any order. A step is what runs under one page latch.
An insert keeps the tail lock over several of them, so where it stands is part of
the state, and each of its page accesses can fail. An iterator reads the rest of
a page under one latch; that is one `pass`, and `next_with` makes passes until
one of them yields, ends or fails.
-/

namespace Cmudb

open Lib

/-- `read_page` or `write_page`, which storage may fail (`ok` is false), and then `TablePage::new`. -/
def fetchPage (pages : Nat → Option TablePage) (ok : Bool) (pageId : Nat) : Except TableHeapError TablePage :=
  match pages pageId, ok with
  | some page, true =>
    match page.validate with
    | .error e => .error (.page pageId e)
    | .ok () => .ok page
  | _, _ => .error .bpm

namespace TableHeap

def withUpdateReserve (th : TableHeap) (bytes : Nat) : TableHeap := { th with updateReserve := bytes }

/-- The loop of `TableHeap::open`, which has been on the pages `seen`. -/
def findTail (pages : Nat → Option TablePage) (ok : Nat → Bool) :
    Nat → List Nat → Nat → Option (Except TableHeapError Tail)
  | 0, _, _ => none
  | fuel + 1, seen, pageId =>
    if pageId ∈ seen then some (.error (.pageChainCycle pageId))
    else match fetchPage pages (ok pageId) pageId with
      | .error e => some (.error e)
      | .ok page =>
        match page.nextPageId with
        | some next =>
          if (pages next).isNone then some (.error (.unallocatedPageLink pageId next))
          else findTail pages ok fuel (pageId :: seen) next
        | none => some (.ok ⟨pageId, page.numTuples⟩)

def openHeap (pages : Nat → Option TablePage) (ok : Nat → Bool) (fuel firstPageId : Nat) :
    Option (Except TableHeapError TableHeap) :=
  (findTail pages ok fuel [] firstPageId).map fun r => r.map fun tail => ⟨firstPageId, tail, 0⟩

end TableHeap

/-! ## The iterator -/

structure TableHeapIterator where
  currentPageId : Nat
  currentSlotId : Nat
  lastPageId : Nat
  lastPageSlots : Nat
  finished : Bool
  deriving DecidableEq, Repr

def TableHeap.iter (th : TableHeap) : TableHeapIterator :=
  ⟨th.firstPageId, 0, th.tail.pageId, th.tail.numTuples, false⟩

structure Visit where
  rid : RecordId
  tmeta : TupleMeta
  bytes : Bytes

/-- How a pass over a page ends: `next_with` returns `None`, an error or what the closure
returned, or goes on with the next page. -/
inductive PassEnd where
  | ended
  | failed (e : TableHeapError)
  | yielded
  | moved
  deriving DecidableEq, Repr

namespace TableHeapIterator

def atEnd (it : TableHeapIterator) : Bool :=
  decide (it.currentPageId = it.lastPageId) && decide (it.lastPageSlots ≤ it.currentSlotId)

def finish (it : TableHeapIterator) : TableHeapIterator := { it with finished := true }

/-- The inner loop of `next_with` on `page`, whose slots from the current one on are the list
given. `f` tells whether the closure returns something. -/
def visitSlots (page : TablePage) (f : Visit → Bool) :
    List Slot → TableHeapIterator → List Visit × TableHeapIterator × PassEnd
  | [], it =>
    if it.atEnd then ([], it.finish, .ended)
    else match page.nextPageId with
      | some next =>
        if it.currentPageId ≠ it.lastPageId then ([], { it with currentPageId := next, currentSlotId := 0 }, .moved)
        else ([], it.finish, .ended)
      | none => ([], it.finish, .ended)
  | s :: rest, it =>
    if it.atEnd then ([], it.finish, .ended)
    else
      let it' := { it with currentSlotId := it.currentSlotId + 1 }
      match page.tupleBytes s with
      | .error e => ([], it'.finish, .failed (.page it.currentPageId e))
      | .ok bytes =>
        let v : Visit := ⟨⟨it.currentPageId, it.currentSlotId⟩, s.tmeta, bytes⟩
        if f v then ([v], it', .yielded)
        else
          let (vs, out) := visitSlots page f rest it'
          (v :: vs, out)

def pass (pages : Nat → Option TablePage) (ok : Bool) (f : Visit → Bool) (it : TableHeapIterator) :
    List Visit × TableHeapIterator × PassEnd :=
  if it.finished || it.atEnd then ([], it.finish, .ended)
  else match fetchPage pages ok it.currentPageId with
    | .error e => ([], it.finish, .failed e)
    | .ok page => visitSlots page f (page.slots.drop it.currentSlotId) it

end TableHeapIterator

/-! ## What other threads do -/

/-- Where the insert that holds the tail lock stands: before the tail page, having found it full,
with the tuple on a new page that no page links to yet, or with the tuple on the heap's last page. -/
inductive Pending where
  | started (tmeta : TupleMeta) (data : Bytes)
  | full (tmeta : TupleMeta) (data : Bytes)
  | made (rid : RecordId)
  | placed (rid : RecordId)
  deriving DecidableEq, Repr

/-- The heap, all pages, and the insert in progress. `owned` and `inserted` record the pages the
buffer pool handed to this heap, linked or not, and what inserts returned, in order. -/
structure HeapWorld where
  pages : Nat → Option TablePage
  heap : TableHeap
  pending : Option Pending
  owned : List Nat
  inserted : List RecordId

inductive HeapStep where
  /-- An insert takes the tail lock. -/
  | begin (tmeta : TupleMeta) (data : Bytes)
  /-- It tries the tail page. -/
  | tryTail (ok : Bool)
  /-- The buffer pool hands out a page, or does not. -/
  | newPage (fresh : Option Nat) (buf : Buf)
  /-- It links the tail page to the new one. -/
  | link (ok : Bool)
  /-- It moves the tail and returns. -/
  | finish
  /-- A slot is overwritten: an update in place, a deletion, a metadata change or an undo. -/
  | write (rid : RecordId) (w : SlotWrite)
  /-- A page of something else is created, written or deleted. -/
  | other (pageId : Nat) (page : Option TablePage)

/-- `can_insert` as `insert_locked` asks it, in `usize` arithmetic. -/
def TableHeap.hasRoom (th : TableHeap) (page : TablePage) (len : Nat) : Bool :=
  decide ((page.directoryEnd + TablePage.slotSize + min (len + Heap.reserve th page) (2 ^ 64 - 1)) % 2 ^ 64
    ≤ page.freeSpaceOffset)

namespace HeapWorld

/-- `TableHeap::new` on the page the buffer pool hands out, which no one else has. -/
def create (pages : Nat → Option TablePage) (pageId : Nat) (buf : Buf) (updateReserve : Nat) : HeapWorld where
  pages := Function.update pages pageId (some (TablePage.init buf))
  heap := ⟨pageId, ⟨pageId, 0⟩, updateReserve⟩
  pending := none
  owned := [pageId]
  inserted := []

def putPage (w : HeapWorld) (pageId : Nat) (page : TablePage) : HeapWorld :=
  { w with pages := Function.update w.pages pageId (some page) }

def release (w : HeapWorld) : HeapWorld := { w with pending := none }

def slot (w : HeapWorld) (rid : RecordId) : Option (TupleMeta × Bytes) :=
  (w.pages rid.pageId).bind fun p => p.view rid.slotId

def tryTail (w : HeapWorld) (ok : Bool) (m : TupleMeta) (d : Bytes) : HeapWorld :=
  match fetchPage w.pages ok w.heap.tail.pageId with
  | .error _ => w.release
  | .ok page =>
    if w.heap.hasRoom page d.length then
      match page.insertWithMeta m d with
      | .error _ => w.release
      | .ok (i, page') =>
        { w.putPage w.heap.tail.pageId page' with pending := some (.placed ⟨w.heap.tail.pageId, i⟩) }
    else { w with pending := some (.full m d) }

/-- A step that is not possible changes nothing. -/
def newPage (w : HeapWorld) (fresh : Option Nat) (buf : Buf) (m : TupleMeta) (d : Bytes) : HeapWorld :=
  match fresh with
  | none => w.release
  | some pageId =>
    if (w.pages pageId).isSome then w
    else
      let w' := { w with owned := w.owned ++ [pageId] }
      match (TablePage.init buf).insertWithMeta m d with
      | .error _ => (w'.putPage pageId (TablePage.init buf)).release
      | .ok (i, page) => { w'.putPage pageId page with pending := some (.made ⟨pageId, i⟩) }

def link (w : HeapWorld) (ok : Bool) (rid : RecordId) : HeapWorld :=
  match fetchPage w.pages ok w.heap.tail.pageId with
  | .error _ => w.release
  | .ok page => { w.putPage w.heap.tail.pageId (page.setNextPageId rid.pageId) with pending := some (.placed rid) }

/-- `write_slot_then`: a refused write leaves the page alone. -/
def write (w : HeapWorld) (rid : RecordId) (sw : SlotWrite) : HeapWorld :=
  match w.pages rid.pageId with
  | none => w
  | some page =>
    match page.applyWrite rid.slotId sw with
    | .error _ => w
    | .ok page' => w.putPage rid.pageId page'

def step (w : HeapWorld) : HeapStep → HeapWorld
  | .begin m d =>
    if w.pending.isSome ∨ d.length > TablePage.maxTupleSize then w else { w with pending := some (.started m d) }
  | .tryTail ok =>
    match w.pending with
    | some (.started m d) => w.tryTail ok m d
    | _ => w
  | .newPage fresh buf =>
    match w.pending with
    | some (.full m d) => w.newPage fresh buf m d
    | _ => w
  | .link ok =>
    match w.pending with
    | some (.made rid) => w.link ok rid
    | _ => w
  | .finish =>
    match w.pending with
    | some (.placed rid) =>
      { w with
        heap := { w.heap with tail := ⟨rid.pageId, rid.slotId + 1⟩ }
        pending := none
        inserted := w.inserted ++ [rid] }
    | _ => w
  | .write rid sw => w.write rid sw
  | .other pageId page =>
    if pageId ∈ w.owned then w else { w with pages := Function.update w.pages pageId page }

def run (w : HeapWorld) (steps : List HeapStep) : HeapWorld := steps.foldl step w

end HeapWorld

/-! ## An iterator among them -/

inductive ScanEvent where
  | step (a : HeapStep)
  | pass (ok : Bool) (f : Visit → Bool)

structure PassRecord where
  world : HeapWorld
  ok : Bool
  visits : List Visit
  result : PassEnd

def HeapWorld.scan : HeapWorld → TableHeapIterator → List ScanEvent → List PassRecord
  | _, _, [] => []
  | w, it, .step a :: es => (w.step a).scan it es
  | w, it, .pass ok f :: es =>
    let (vs, it', out) := it.pass w.pages ok f
    ⟨w, ok, vs, out⟩ :: w.scan it' es

def visitedRids (ps : List PassRecord) : List RecordId := ps.flatMap fun p => p.visits.map Visit.rid

end Cmudb
