import Cmudb.EntryArea

/-!
# Leaves as bytes

`LeafPage.encode` and `LeafPage.decode` write a leaf to a page and read it
back; `LeafPageView` edits the page's bytes in place. An outcome of type
`Codec` is a panic (`none`), an error, or a value.
-/

namespace Cmudb

namespace BPlus

open Lib

abbrev Codec (α : Type) := ExceptT PageCodecError Option α

def ensure (p : Prop) [Decidable p] (e : PageCodecError) : Codec Unit := if p then pure () else throw e

theorem ensure_bind {β : Type} {p : Prop} [Decidable p] (h : p) (e : PageCodecError) (f : Unit → Codec β) :
    (ensure p e >>= f) = f () := by
  rw [ensure, if_pos h, pure_bind]

theorem ensure_bind_iff {β : Type} {p : Prop} [Decidable p] {e : PageCodecError} {f : Unit → Codec β} {b : β} :
    (ensure p e >>= f) = pure b ↔ p ∧ f () = pure b := by
  by_cases h : p
  · rw [ensure_bind h]
    exact ⟨fun hf => ⟨h, hf⟩, fun hf => hf.2⟩
  · rw [ensure, if_neg h]
    constructor
    · intro hf
      cases hf
    · intro hf
      exact absurd hf.1 h

theorem bind_eq_pure {α β : Type} {x : Codec α} {f : α → Codec β} {b : β} (h : (x >>= f) = pure b) :
    ∃ a, x = pure a ∧ f a = pure b := by
  cases x with
  | none => cases h
  | some out =>
    cases out with
    | error e => cases h
    | ok a => exact ⟨a, rfl, h⟩

def Returns {α : Type} (x : Codec α) : Prop := x.run ≠ none

theorem Returns.cases {α : Type} {x : Codec α} (h : Returns x) : (∃ e, x = throw e) ∨ ∃ a, x = pure a := by
  cases x with
  | none => exact absurd rfl h
  | some out =>
    cases out with
    | error e => exact Or.inl ⟨e, rfl⟩
    | ok a => exact Or.inr ⟨a, rfl⟩

theorem returns_pure {α : Type} (a : α) : Returns (pure a : Codec α) := by
  intro h
  cases h

theorem returns_throw {α : Type} (e : PageCodecError) : Returns (throw e : Codec α) := by
  intro h
  cases h

theorem Returns.bind {α β : Type} {x : Codec α} {f : α → Codec β} (h : Returns x)
    (hf : ∀ a, x = pure a → Returns (f a)) :
    Returns (x >>= f) := by
  rcases h.cases with ⟨e, rfl⟩ | ⟨a, rfl⟩
  · exact returns_throw e
  · rw [pure_bind]
    exact hf a rfl

theorem returns_ensure (p : Prop) [Decidable p] (e : PageCodecError) : Returns (ensure p e) := by
  by_cases h : p
  · rw [ensure, if_pos h]
    exact returns_pure ()
  · rw [ensure, if_neg h]
    exact returns_throw e

theorem returns_mapM {α β : Type} {f : α → Codec β} {l : List α} (h : ∀ a ∈ l, Returns (f a)) :
    Returns (l.mapM f) := by
  induction l with
  | nil => exact returns_pure []
  | cons a l ih =>
    rw [List.mapM_cons]
    apply (h a List.mem_cons_self).bind
    intro b _
    apply (ih fun x hx => h x (List.mem_cons_of_mem a hx)).bind
    intro bs _
    exact returns_pure (b :: bs)

theorem mapM_eq_pure {α β : Type} {f : α → Codec β} {l : List α} {bs : List β} (h : l.mapM f = pure bs) :
    List.Forall₂ (fun a b => f a = pure b) l bs := by
  induction l generalizing bs with
  | nil =>
    have hbs : bs = [] := (Except.ok.inj (Option.some.inj h)).symm
    rw [hbs]
    exact List.Forall₂.nil
  | cons a l ih =>
    rw [List.mapM_cons] at h
    obtain ⟨b, hb, h⟩ := bind_eq_pure h
    obtain ⟨bs', hbs', h⟩ := bind_eq_pure h
    have hbs : bs = b :: bs' := (Except.ok.inj (Option.some.inj h)).symm
    rw [hbs]
    exact List.Forall₂.cons hb (ih hbs')

theorem mapM_range_eq_pure {α : Type} {f : Nat → Codec α} {n : Nat} {l : List α}
    (h : (List.range n).mapM f = pure l) :
    l.length = n ∧ ∀ i a, l[i]? = some a → f i = pure a := by
  have hall := mapM_eq_pure h
  have hlen := hall.length_eq
  rw [List.length_range] at hlen
  refine ⟨hlen.symm, fun i a hi => ?_⟩
  obtain ⟨hlt, rfl⟩ := List.getElem?_eq_some_iff.mp hi
  have hi := hall.get (show i < (List.range n).length by rw [List.length_range]; omega) hlt
  simpa using hi

theorem lift_some {α : Type} (a : α) : (liftM (some a : Option α) : Codec α) = pure a := rfl

/-! ## The header all pages share -/

def magic : Bytes := [0x43, 0x4d, 0x44, 0x42]
def version : Nat := 3

def kindLeaf : UInt8 := 2

def kindOffset : Nat := 6
def commonHeaderBytes : Nat := 8

def nodeSizeOffset : Nat := commonHeaderBytes
def nodePageIdOffset : Nat := commonHeaderBytes + 4 + 4
def leafFixedHeaderBytes : Nat := nodePageIdOffset + 8

def putCommonHeader (buf : Bytes) (kind : UInt8) : Option Bytes := do
  let buf ← put buf 0 magic
  let buf ← put buf 4 (leBytes 2 version)
  let buf ← put buf kindOffset [kind]
  put buf 7 [0]

def peekCommonHeader (buf : Bytes) : Codec Nat := do
  ensure (commonHeaderBytes ≤ buf.length) (.bufferTooSmall commonHeaderBytes buf.length)
  ensure ((← slice? buf 0 4) = magic) .badMagic
  let found ← getU16Le buf 4
  ensure (found = version) (.unsupportedVersion found)
  getLe 1 buf kindOffset

def expectCommonHeader (buf : Bytes) (expected : UInt8) : Codec Unit := do
  let actual ← peekCommonHeader buf
  ensure (actual = expected.toNat) (.wrongPageKind expected.toNat actual)

/-- What a `BufReader` at `pos` reads. -/
def readBytes (buf : Bytes) (pos n : Nat) : Codec Bytes :=
  if pos + n ≤ buf.length then pure (slice buf pos n) else throw (.bufferTooSmall (pos + n) buf.length)

def readLe (k : Nat) (buf : Bytes) (pos : Nat) : Codec Nat := do return leNat (← readBytes buf pos k)

def readCommonHeader (buf : Bytes) : Codec Nat := do
  ensure ((← readBytes buf 0 4) = magic) .badMagic
  let found ← readLe 2 buf 4
  ensure (found = version) (.unsupportedVersion found)
  let kind ← readLe 1 buf kindOffset
  let _reserved ← readLe 1 buf 7
  return kind

def readCommonHeaderOfKind (buf : Bytes) (expected : UInt8) : Codec Unit := do
  let actual ← readCommonHeader buf
  ensure (actual = expected.toNat) (.wrongPageKind expected.toNat actual)

/-! ## Ids -/

def pageIdOfU64 (raw : Nat) : Codec Nat := do
  ensure (raw ≤ maxPageId) .overflow
  return raw

def decodePageId (raw : Nat) : Codec (Option Nat) :=
  if raw = noPageU64 then pure none else some <$> pageIdOfU64 raw

def encodeRecordIdBytes (rid : RecordId) : Bytes := leBytes 8 rid.pageId ++ leBytes 8 rid.slotId

def decodeRecordId (pageId slotId : Nat) : Codec RecordId := do
  let pageId ← pageIdOfU64 pageId
  ensure (slotId < 2 ^ 32) .overflow
  return ⟨pageId, slotId⟩

def payloadHalf (payload : Bytes) (a e : Nat) : Codec Nat :=
  match slice? payload a e with
  | none => throw .invalidSize
  | some bytes => pure (leNat bytes)

def decodeRecordIdBytes (payload : Bytes) : Codec RecordId := do
  decodeRecordId (← payloadHalf payload 0 8) (← payloadHalf payload 8 16)

/-! ## Encoding and decoding -/

def leafTombstoneCountOffset : Nat := leafFixedHeaderBytes

def leafTombstoneOffset (i : Nat) : Nat := leafFixedHeaderBytes + 4 + i * 4

def Layout.checkKey (layout : Layout) (key : Key) : Codec Unit :=
  ensure (key.length ≤ layout.maxKeyLen) (.keyTooLong layout.maxKeyLen key.length)

def tooManyTombstones : PageCodecError := .malformed "leaf tombstones count exceeds tombstone capacity"

def tombstoneOutOfBounds : PageCodecError := .malformed "leaf tombstones index out of bounds"

def ensureFitsPage (needed : Nat) : Codec Unit :=
  ensure (needed ≤ pageSize) (.bufferTooSmall needed pageSize)

def toU32 (n : Nat) : Codec Nat := do
  ensure (n < 2 ^ 32) .overflow
  return n

namespace LeafPage

variable (layout : Layout)

def checked (p : LeafPage) : Codec Unit := do
  ensure (p.keys.Pairwise (· ≤ ·)) (.malformed "leaf keys out of order")
  ensure (p.tombstones.length ≤ layout.tombstoneCapacity) tooManyTombstones
  ensure (p.tombstones.all (· < p.entries.length)) tombstoneOutOfBounds
  p.keys.forM layout.checkKey

abbrev encodedEntry (e : Key × RecordId) : Key × Bytes := (e.1, encodeRecordIdBytes e.2)

def encodedEntries (p : LeafPage) : List (Key × Bytes) := p.entries.map encodedEntry

def putTombstones (tombstones : List Nat) (buf : Bytes) : Option Bytes :=
  tombstones.zipIdx.foldlM (fun buf s => putU32Le buf (leafTombstoneOffset s.2) s.1) buf

def encode (p : LeafPage) (buf : Bytes) : Codec Bytes := do
  p.checked layout
  let area := layout.leafArea
  let used := p.usedBytes layout
  ensureFitsPage (pageSize - area.capacity + used)
  ensure (buf.length = pageSize) .invalidSize
  let buf ← putCommonHeader (List.replicate buf.length 0) kindLeaf
  let buf ← putU32Le buf nodeSizeOffset (← toU32 p.entries.length)
  let buf ← putU64Le buf nodePageIdOffset (encodePageId p.nextLeafId)
  let buf ← putU32Le buf leafTombstoneCountOffset (← toU32 p.tombstones.length)
  let buf ← putTombstones p.tombstones buf
  let (buf, off) ← area.putEntries buf (pageSize - (used - p.entries.length * 2)) p.encodedEntries
  (guard (off = pageSize) : Option Unit)
  return buf

def decodeEntry (buf : Bytes) (size i : Nat) : Codec (Key × RecordId) := do
  let key ← layout.leafArea.key buf size i
  let rid ← decodeRecordIdBytes (← layout.leafArea.payload buf size i)
  return (key, rid)

def decode (buf : Bytes) : Codec LeafPage := do
  ensure (pageSize ≤ buf.length) (.bufferTooSmall pageSize buf.length)
  readCommonHeaderOfKind buf kindLeaf
  let size ← readLe 4 buf nodeSizeOffset
  let _reserved ← readLe 4 buf (nodeSizeOffset + 4)
  let nextLeafId ← decodePageId (← readLe 8 buf nodePageIdOffset)
  ExceptT.mk (layout.leafArea.check buf size)
  let tombstoneCount ← readLe 4 buf leafFixedHeaderBytes
  ensure (tombstoneCount ≤ layout.tombstoneCapacity) tooManyTombstones
  let tombstones ← (List.range tombstoneCount).mapM fun i => readLe 4 buf (leafFixedHeaderBytes + 4 + i * 4)
  let entries ← (List.range size).mapM (decodeEntry layout buf size)
  let page : LeafPage := ⟨entries, nextLeafId, tombstones⟩
  page.checked layout
  return page

end LeafPage

/-! ## Views -/

structure LeafPageView where
  buf : Bytes
  layout : Layout

namespace LeafPageView

variable (v : LeafPageView)

def area : EntryArea := v.layout.leafArea

def size : Option Nat := getU32Le v.buf nodeSizeOffset

def key (idx : Nat) : Option Bytes := do v.area.key v.buf (← v.size) idx

def tombstoneCapacity : Nat := v.layout.tombstoneCapacity

def tombstoneCount : Option Nat := getU32Le v.buf leafTombstoneCountOffset

def tombstone (i : Nat) : Option Nat := do
  guard (i < v.tombstoneCapacity)
  getU32Le v.buf (leafTombstoneOffset i)

def tombstoneIs (p : Nat → Bool) (i : Nat) : Option Bool := do return p (← v.tombstone i)

def isTombstoned (slot : Nat) : Option Bool := do (List.range (← v.tombstoneCount)).anyM (v.tombstoneIs (· == slot))

def new (buf : Bytes) (layout : Layout) : Codec LeafPageView := do
  let view : LeafPageView := ⟨buf, layout⟩
  ensure (buf.length = pageSize) .invalidSize
  expectCommonHeader buf kindLeaf
  let size ← getU32Le buf nodeSizeOffset
  ExceptT.mk (layout.leafArea.check buf size)
  let count ← getU32Le buf leafTombstoneCountOffset
  ensure (count ≤ layout.tombstoneCapacity) tooManyTombstones
  let outside ← liftM ((List.range count).anyM (view.tombstoneIs (size ≤ ·)))
  ensure (outside = false) tombstoneOutOfBounds
  return view

def keyBelow (key : Key) (i : Nat) : Option Bool := do return decide ((← v.key i) < key)

def search (key : Key) : Option (Except Nat Nat) := do
  let n ← v.size
  let pos ← partitionPoint? n (v.keyBelow key)
  if pos < n then
    if (← v.key pos) = key then return .ok pos
  return .error pos

def lowerBound (key : Key) : Option Nat := do partitionPoint? (← v.size) (v.keyBelow key)

def keyAtMost (key : Key) (i : Nat) : Option Bool := do return decide ((← v.key i) ≤ key)

def upperBound (key : Key) : Option Nat := do partitionPoint? (← v.size) (v.keyAtMost key)

def recordId (idx : Nat) : Codec RecordId := do decodeRecordIdBytes (← v.area.payload v.buf (← v.size) idx)

def get (key : Key) : Codec (Option RecordId) := do
  match ← v.search key with
  | .error _ => return none
  | .ok pos => if ← v.isTombstoned pos then return none else return some (← v.recordId pos)

def write (buf : Option Bytes) : Option LeafPageView := buf.map fun buf => { v with buf := buf }

def setSize (size : Nat) : Option LeafPageView := v.write (putU32Le v.buf nodeSizeOffset size)

def setTombstoneCount (count : Nat) : Option LeafPageView :=
  v.write (putU32Le v.buf leafTombstoneCountOffset count)

def setTombstone (i slot : Nat) : Option LeafPageView := v.write (putU32Le v.buf (leafTombstoneOffset i) slot)

/-- One round of the loop of `rewriteTombstones`: the view, how many slots are kept, and the state of the closure.
-/
def rewriteStep {σ : Type} (f : σ → Nat → Option Nat × σ) (acc : LeafPageView × Nat × σ) (i : Nat) :
    Option (LeafPageView × Nat × σ) := do
  let (v, kept, s) := acc
  let (slot, s) := f s (← v.tombstone i)
  match slot with
  | none => return (v, kept, s)
  | some slot => return (← v.setTombstone kept slot, kept + 1, s)

/-- Keeps the tombstones for which `f` gives a slot, in place, and zeroes the slots this frees. -/
def rewriteTombstones {σ : Type} (f : σ → Nat → Option Nat × σ) (s : σ) : Option LeafPageView := do
  let count ← v.tombstoneCount
  let (v, kept, _) ← (List.range count).foldlM (rewriteStep f) (v, 0, s)
  let v ← (List.range' kept (count - kept)).foldlM (fun v i => v.setTombstone i 0) v
  v.setTombstoneCount kept

def mapTombstones (f : Nat → Option Nat) : Option LeafPageView :=
  v.rewriteTombstones (fun _ slot => (f slot, ())) ()

def insert (key : Key) (rid : RecordId) : Option (Except LeafInsertError Unit × LeafPageView) := do
  let payload := encodeRecordIdBytes rid
  match ← v.search key with
  | .ok pos =>
    if ← v.isTombstoned pos then
      let n ← v.size
      let v ← v.write (v.area.setPayload v.buf n pos payload)
      let v ← v.mapTombstones fun s => if s ≠ pos then some s else none
      return (.ok (), v)
    else return (.error .duplicateKey, v)
  | .error pos =>
    let n ← v.size
    if (← v.area.free v.buf n) < v.area.entryCost key.length then return (.error .full, v)
    else
      let v ← v.write (v.area.insert v.buf n pos key payload)
      let v ← v.setSize (n + 1)
      let v ← v.mapTombstones fun s => some (if pos ≤ s then s + 1 else s)
      return (.ok (), v)

def physicalRemoveAt (slot : Nat) : Option LeafPageView := do
  let n ← v.size
  let v ← v.write (v.area.remove v.buf n slot)
  let v ← v.setSize (← minus n 1)
  v.mapTombstones fun s => if s = slot then none else if slot < s then some (s - 1) else some s

def dropFirst (first : Bool) (slot : Nat) : Option Nat × Bool := if first then (none, false) else (some slot, false)

def evictOldest (slot : Nat) : Option (LeafPageView × Nat) := do
  if v.tombstoneCapacity ≤ (← v.tombstoneCount) then
    let evicted ← v.tombstone 0
    let v ← v.rewriteTombstones dropFirst true
    let v ← v.physicalRemoveAt evicted
    return (v, if evicted < slot then slot - 1 else slot)
  else return (v, slot)

def pushTombstone (slot : Nat) : Option LeafPageView := do
  let count ← v.tombstoneCount
  let v ← v.setTombstoneCount (count + 1)
  v.setTombstone count slot

/-- `false` when the key is not live. -/
def removeKey (key : Key) : Option (Bool × LeafPageView) := do
  match ← v.search key with
  | .error _ => return (false, v)
  | .ok slot =>
    if ← v.isTombstoned slot then return (false, v)
    else if v.tombstoneCapacity = 0 then return (true, ← v.physicalRemoveAt slot)
    else
      let (v, slot) ← v.evictOldest slot
      return (true, ← v.pushTombstone slot)

end LeafPageView

end BPlus

end Cmudb
