import Cmudb.LeafView

/-!
# Internal pages as bytes

The leftmost child stands in the header, and every other child is the payload
of the key to its left.
-/

namespace Cmudb

namespace BPlus

open Lib

def kindInternal : UInt8 := 1

def internalFixedHeaderBytes : Nat := nodePageIdOffset + 8

def decodeChildPageId (raw : Nat) : Codec Nat := do
  match ← decodePageId raw with
  | none => throw (.malformed "an internal page child names no page")
  | some id => return id

namespace InternalPage

variable (layout : Layout)

def checked (p : InternalPage) : Codec Unit :=
  if p.children.isEmpty && p.keys.isEmpty then pure ()
  else do
    ensure (p.children.length = p.keys.length + 1)
      (.malformed "internal invariant violated: child_count != size + 1")
    ensure (p.keys.Pairwise (· ≤ ·)) (.malformed "internal keys out of order")
    p.keys.forM layout.checkKey

def encodeChild (child : Nat) : Bytes := leBytes 8 (encodePageId (some child))

def encode (p : InternalPage) (buf : Bytes) : Codec Bytes := do
  p.checked layout
  match p.children with
  | [] => throw (.malformed "internal page has no children")
  | leftmost :: rest =>
    ensureFitsPage (internalFixedHeaderBytes + p.usedBytes)
    ensure (buf.length = pageSize) .invalidSize
    let buf ← putCommonHeader (List.replicate buf.length 0) kindInternal
    let buf ← putU32Le buf nodeSizeOffset (← toU32 p.keys.length)
    let buf ← putU64Le buf nodePageIdOffset (encodePageId (some leftmost))
    let keyBytes := (p.keys.map List.length).sum
    let off ← minus (← minus pageSize keyBytes) (p.keys.length * 8)
    let (buf, off) ← internalArea.putEntries buf off (p.keys.zip (rest.map encodeChild))
    (guard (off = pageSize) : Option Unit)
    return buf

def decodeEntry (buf : Bytes) (size i : Nat) : Codec (Key × Nat) := do
  let key ← internalArea.key buf size i
  let child ← internalArea.payload buf size i
  ensure (child.length = 8) .invalidSize
  return (key, ← decodeChildPageId (leNat child))

def decode (buf : Bytes) : Codec InternalPage := do
  ensure (pageSize ≤ buf.length) (.bufferTooSmall pageSize buf.length)
  readCommonHeaderOfKind buf kindInternal
  let size ← readLe 4 buf nodeSizeOffset
  let _reserved ← readLe 4 buf (nodeSizeOffset + 4)
  let leftmost ← decodeChildPageId (← readLe 8 buf nodePageIdOffset)
  ExceptT.mk (internalArea.check buf size)
  let entries ← (List.range size).mapM (decodeEntry buf size)
  let page : InternalPage := ⟨leftmost :: entries.map Prod.snd, entries.map Prod.fst⟩
  page.checked layout
  return page

end InternalPage

structure InternalPageView where
  buf : Bytes
  layout : Layout

namespace InternalPageView

def new (buf : Bytes) (layout : Layout) : Codec InternalPageView := do
  ensure (buf.length = pageSize) .invalidSize
  expectCommonHeader buf kindInternal
  let size ← getU32Le buf nodeSizeOffset
  ExceptT.mk (internalArea.check buf size)
  return ⟨buf, layout⟩

variable (v : InternalPageView)

def size : Option Nat := getU32Le v.buf nodeSizeOffset

def key (idx : Nat) : Option Bytes := do internalArea.key v.buf (← v.size) idx

def keyAtMost (key : Key) (i : Nat) : Option Bool := do return decide ((← v.key i) ≤ key)

def findChildIndex (key : Key) : Option Nat := do partitionPoint? (← v.size) (v.keyAtMost key)

end InternalPageView

end BPlus

end Cmudb
