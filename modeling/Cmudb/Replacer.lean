import Cmudb.Ids

/-!
# The replacer

`ArcReplacer`, the adaptive replacement cache that picks the frames to reuse.
Its four lists are threaded through one vector of nodes. A step that would
panic (an index out of bounds, a failed assertion, a counter going below zero,
a division by zero, a walk that does not end) has no result. The vector of
unused node indices has its last element first here.
-/

namespace Cmudb

abbrev PageId := Nat
abbrev FrameId := Nat

inductive ArcList where
  | mru
  | mfu
  | ghostMru
  | ghostMfu
  deriving DecidableEq, Repr

inductive ResidentList where
  | mru
  | mfu
  deriving DecidableEq, Repr

inductive GhostList where
  | mru
  | mfu
  deriving DecidableEq, Repr

def GhostList.list : GhostList → ArcList
  | mru => .ghostMru
  | mfu => .ghostMfu

def ResidentList.list : ResidentList → ArcList
  | mru => .mru
  | mfu => .mfu

def ResidentList.ghost : ResidentList → GhostList
  | mru => .mru
  | mfu => .mfu

structure ArcNode where
  pageId : PageId
  frameId : Option FrameId
  evictable : Bool
  list : ArcList
  next : Option Nat
  prev : Option Nat
  deriving DecidableEq, Repr

structure ListHead where
  mostRecent : Option Nat
  leastRecent : Option Nat
  length : Nat
  deriving DecidableEq, Repr

def ListHead.empty : ListHead := ⟨none, none, 0⟩

structure ArcReplacer where
  nodes : List ArcNode
  unusedNodeIndices : List Nat
  pageIndices : PageId → Option Nat
  frameIndices : FrameId → Option Nat
  mruList : ListHead
  mfuList : ListHead
  mruGhostList : ListHead
  mfuGhostList : ListHead
  mruTargetSize : Nat
  capacity : Nat
  evictableCount : Nat

structure EvictionUndo where
  nodeIdx : Nat
  frameId : FrameId
  list : ResidentList
  moreRecent : Option Nat

namespace ArcReplacer

def new (cap : Nat) : ArcReplacer :=
  ⟨[], [], fun _ => none, fun _ => none, .empty, .empty, .empty, .empty, 0, cap, 0⟩

def sub? (x y : Nat) : Option Nat := if y ≤ x then some (x - y) else none

def div? (x y : Nat) : Option Nat := if y = 0 then none else some (x / y)

def assert (b : Bool) : Option Unit := if b then some () else none

variable (r : ArcReplacer)

def list : ArcList → ListHead
  | .mru => r.mruList
  | .mfu => r.mfuList
  | .ghostMru => r.mruGhostList
  | .ghostMfu => r.mfuGhostList

def setList (k : ArcList) (h : ListHead) : ArcReplacer :=
  match k with
  | .mru => { r with mruList := h }
  | .mfu => { r with mfuList := h }
  | .ghostMru => { r with mruGhostList := h }
  | .ghostMfu => { r with mfuGhostList := h }

def modifyNode (i : Nat) (f : ArcNode → ArcNode) : Option ArcReplacer :=
  if i < r.nodes.length then some { r with nodes := r.nodes.modify i f } else none

def modifyAt (i : Option Nat) (f : ArcNode → ArcNode) : Option ArcReplacer :=
  i.elim (some r) fun i => r.modifyNode i f

def clearEvictable (i : Nat) (nd : ArcNode) : Option ArcReplacer := do
  let r ← r.modifyNode i fun nd => { nd with evictable := false }
  if nd.evictable then
    let n ← sub? r.evictableCount 1
    pure { r with evictableCount := n }
  else pure r

def detach (i : Nat) : Option ArcReplacer := do
  let nd ← r.nodes[i]?
  let head := r.list nd.list
  let length ← sub? head.length 1
  let r := r.setList nd.list {
    mostRecent := if head.mostRecent = some i then nd.next else head.mostRecent
    leastRecent := if head.leastRecent = some i then nd.prev else head.leastRecent
    length := length }
  let r ← r.modifyAt nd.prev fun p => { p with next := nd.next }
  let r ← r.modifyAt nd.next fun n => { n with prev := nd.prev }
  r.modifyNode i fun nd => { nd with prev := none, next := none }

def push (i : Nat) (k : ArcList) : Option ArcReplacer := do
  let head := r.list k
  let r := r.setList k {
    mostRecent := some i
    leastRecent := if head.mostRecent = none then some i else head.leastRecent
    length := head.length + 1 }
  let r ← r.modifyNode i fun nd => { nd with list := k, prev := none, next := head.mostRecent }
  r.modifyAt head.mostRecent fun h => { h with prev := some i }

def insertAfter (i : Nat) (k : ArcList) : Option Nat → Option ArcReplacer
  | none => r.push i k
  | some moreRecent => do
    let lessRecent := (← r.nodes[moreRecent]?).next
    let r ← r.modifyNode moreRecent fun nd => { nd with next := some i }
    let r ← r.modifyNode i fun nd => { nd with list := k, prev := some moreRecent, next := lessRecent }
    let r ← match lessRecent with
      | some lessRecent => r.modifyNode lessRecent fun nd => { nd with prev := some i }
      | none => pure (r.setList k { r.list k with leastRecent := some i })
    pure (r.setList k { r.list k with length := (r.list k).length + 1 })

def moveToFront (i : Nat) (k : ArcList) : Option ArcReplacer := do
  let r ← r.detach i
  r.push i k

def isFull : Bool := decide (r.capacity ≤ r.mruList.length + r.mfuList.length)

def giveUpFrame (i : Nat) : Option ArcReplacer := do
  let nd ← r.nodes[i]?
  let resident ← match nd.list with
    | .mru => some ResidentList.mru
    | .mfu => some ResidentList.mfu
    | _ => none
  let r ← r.modifyNode i fun nd => { nd with frameId := none }
  let r := match nd.frameId with
    | some frameId => { r with frameIndices := Function.update r.frameIndices frameId none }
    | none => r
  let r ← r.clearEvictable i nd
  r.moveToFront i resident.ghost.list

def takeFrameFromItsHolder (frameId : FrameId) : Option (ArcReplacer × Bool) :=
  match r.frameIndices frameId with
  | some previousHolder => do
    let r ← r.giveUpFrame previousHolder
    pure (r, true)
  | none => pure (r, false)

def releaseFrameForAdmission (frameId : FrameId) : Option ArcReplacer := do
  let (r, freedATrackedFrame) ← r.takeFrameFromItsHolder frameId
  assert (freedATrackedFrame || !r.isFull)
  pure r

def reviveGhost (i : Nat) (frameId : FrameId) : Option ArcReplacer := do
  let r ← r.releaseFrameForAdmission frameId
  let r ← r.modifyNode i fun nd => { nd with frameId := some frameId, evictable := false }
  let r := { r with frameIndices := Function.update r.frameIndices frameId (some i) }
  r.moveToFront i .mfu

def moveToNewFrame (i : Nat) (frameId : FrameId) : Option ArcReplacer := do
  let (r, _) ← r.takeFrameFromItsHolder frameId
  let nd ← r.nodes[i]?
  let r ← r.modifyNode i fun nd => { nd with frameId := some frameId }
  let r := match nd.frameId with
    | some previousFrame => { r with frameIndices := Function.update r.frameIndices previousFrame none }
    | none => r
  let r ← r.clearEvictable i nd
  pure { r with frameIndices := Function.update r.frameIndices frameId (some i) }

def recordRepeatAccess (i : Nat) (frameId : FrameId) : Option ArcReplacer := do
  let nd ← r.nodes[i]?
  match nd.list with
  | .mru | .mfu =>
    let r ← if nd.frameId ≠ some frameId then r.moveToNewFrame i frameId else pure r
    r.moveToFront i .mfu
  | .ghostMru =>
    let delta ← if r.mruGhostList.length ≥ r.mfuGhostList.length then pure 1
        else div? r.mfuGhostList.length r.mruGhostList.length
    let r := { r with mruTargetSize := min (r.mruTargetSize + delta) r.capacity }
    r.reviveGhost i frameId
  | .ghostMfu =>
    let delta ← if r.mfuGhostList.length ≥ r.mruGhostList.length then pure 1
        else div? r.mruGhostList.length r.mfuGhostList.length
    let r := { r with mruTargetSize := r.mruTargetSize - delta }
    r.reviveGhost i frameId

def trimGhostTail (ghost : GhostList) : Option ArcReplacer := do
  let i ← (r.list ghost.list).leastRecent
  let nd ← r.nodes[i]?
  assert nd.frameId.isNone
  let r ← r.detach i
  pure { r with
    pageIndices := Function.update r.pageIndices nd.pageId none, unusedNodeIndices := i :: r.unusedNodeIndices }

def trim : Option ArcReplacer :=
  let mruSide := r.mruList.length + r.mruGhostList.length
  if mruSide = r.capacity then r.trimGhostTail .mru
  else do
    assert (decide (mruSide < r.capacity))
    if mruSide + r.mfuList.length + r.mfuGhostList.length = 2 * r.capacity then r.trimGhostTail .mfu else pure r

def recordFirstAccess (frameId : FrameId) (pageId : PageId) : Option ArcReplacer := do
  let r ← r.releaseFrameForAdmission frameId
  let r ← r.trim
  let newNode : ArcNode := ⟨pageId, some frameId, false, .mru, none, none⟩
  let (r, i) ← match r.unusedNodeIndices with
    | i :: unused => do
      let r ← r.modifyNode i fun _ => newNode
      pure ({ r with unusedNodeIndices := unused }, i)
    | [] => pure ({ r with nodes := r.nodes ++ [newNode] }, r.nodes.length)
  let r := { r with
    pageIndices := Function.update r.pageIndices pageId (some i)
    frameIndices := Function.update r.frameIndices frameId (some i) }
  r.push i .mru

def recordAccess (frameId : FrameId) (pageId : PageId) : Option ArcReplacer :=
  match r.pageIndices pageId with
  | some i => r.recordRepeatAccess i frameId
  | none => r.recordFirstAccess frameId pageId

def setEvictable (frameId : FrameId) (evictable : Bool) : Option ArcReplacer :=
  match r.frameIndices frameId with
  | none => some r
  | some i => do
    let nd ← r.nodes[i]?
    let r ← r.modifyNode i fun nd => { nd with evictable := evictable }
    if evictable && !nd.evictable then pure { r with evictableCount := r.evictableCount + 1 }
    else if !evictable && nd.evictable then
      let n ← sub? r.evictableCount 1
      pure { r with evictableCount := n }
    else pure r

def remove (pageId : PageId) : Option (ArcReplacer × Option FrameId) :=
  match r.pageIndices pageId with
  | none => some (r, none)
  | some i => do
    let r := { r with pageIndices := Function.update r.pageIndices pageId none }
    let nd ← r.nodes[i]?
    let r ← r.modifyNode i fun nd => { nd with frameId := none }
    let r ← r.clearEvictable i nd
    let r := match nd.frameId with
      | some frameId => { r with frameIndices := Function.update r.frameIndices frameId none }
      | none => r
    let r ← r.detach i
    pure ({ r with unusedNodeIndices := i :: r.unusedNodeIndices }, nd.frameId)

def firstEvictable : Nat → Nat → Option (Option Nat)
  | 0, _ => none
  | fuel + 1, current => do
    let nd ← r.nodes[current]?
    if nd.evictable then pure (some current)
    else
      match nd.prev with
      | none => pure none
      | some moreRecent => firstEvictable fuel moreRecent

def evictFromList (resident : ResidentList) : Option (Option (ArcReplacer × EvictionUndo)) :=
  match (r.list resident.list).leastRecent with
  | none => some none
  | some last => do
    match ← r.firstEvictable r.nodes.length last with
    | none => pure none
    | some current =>
      let nd ← r.nodes[current]?
      match nd.frameId with
      | none => pure none
      | some frameId =>
        let r ← r.giveUpFrame current
        pure (some (r, ⟨current, frameId, resident, nd.prev⟩))

def beginEviction : Option (Option (ArcReplacer × EvictionUndo)) := do
  let (preferred, fallback) :=
    if r.mruList.length ≥ r.mruTargetSize then (ResidentList.mru, ResidentList.mfu)
      else (ResidentList.mfu, ResidentList.mru)
  match ← r.evictFromList preferred with
  | some x => pure (some x)
  | none => r.evictFromList fallback

def undoEviction (undo : EvictionUndo) : Option ArcReplacer := do
  let r ← r.detach undo.nodeIdx
  let r ← r.insertAfter undo.nodeIdx undo.list.list undo.moreRecent
  let r ← r.modifyNode undo.nodeIdx fun nd => { nd with frameId := some undo.frameId, evictable := true }
  pure { r with
    frameIndices := Function.update r.frameIndices undo.frameId (some undo.nodeIdx)
    evictableCount := r.evictableCount + 1 }

/-- `begin_eviction` and `commit`. -/
def evict : Option (ArcReplacer × Option FrameId) := do
  match ← r.beginEviction with
  | none => pure (r, none)
  | some (r, undo) => pure (r, some undo.frameId)

/-- `begin_eviction`, and the eviction is dropped. -/
def tryEvict : Option (ArcReplacer × Option FrameId) := do
  match ← r.beginEviction with
  | none => pure (r, none)
  | some (r, undo) => do
    let r ← r.undoEviction undo
    pure (r, some undo.frameId)

end ArcReplacer

end Cmudb
