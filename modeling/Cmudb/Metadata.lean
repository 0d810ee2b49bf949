import Cmudb.Buf
import Cmudb.Lib.Readers
import Cmudb.Sql.Values

/-!
# The database's metadata

Which page ids are in use, the clocks and the catalog, as one string of bytes.
Counts and lengths are four bytes, so a list or a name must be shorter than 2^32,
and a key column's position is cut to four bytes. What is decoded is the
encoding of the result.
-/

namespace Cmudb.Metadata

open Lib Sql

structure PageAllocation where
  nextPageId : Nat
  freePageIds : List Nat
  deriving DecidableEq, Repr

structure TableEntry where
  oid : Nat
  name : Text
  columns : List (DataType × Text)
  firstPageId : Nat
  deriving DecidableEq, Repr

inductive IndexType where
  | bPlusTree
  deriving DecidableEq, Repr

structure IndexEntry where
  oid : Nat
  name : Text
  tableOid : Nat
  keyColumns : List Nat
  indexType : IndexType
  headerPageId : Nat
  deriving DecidableEq, Repr

structure CatalogSnapshot where
  nextTableOid : Nat
  nextIndexOid : Nat
  tables : List TableEntry
  indexes : List IndexEntry
  deriving DecidableEq, Repr

structure DatabaseMeta where
  allocation : PageAllocation
  lastCommitTs : Nat
  nextTxnId : Nat
  catalog : CatalogSnapshot
  deriving DecidableEq, Repr

inductive BpmError where
  | noFreeFrame
  | frameOutOfRange (frameId : Nat)
  | channelClosed
  | io
  | frameInUse
  | pageIdsExhausted (next : Nat)
  deriving DecidableEq, Repr

inductive PersistError where
  | bpm (e : BpmError)
  | corruptMeta (what : String)
  | unknownColumnType (tag : Nat)
  | unknownIndexType (tag : Nat)
  deriving DecidableEq, Repr

/-! ## Writing -/

namespace Writer

def u8 (v : Nat) : Bytes := leBytes 1 v

def u32 (v : Nat) : Bytes := leBytes 4 v

def u64 (v : Nat) : Bytes := leBytes 8 v

def str (s : Text) : Bytes := u32 s.asBytes.length ++ s.asBytes

end Writer

def typeTag : DataType → Nat
  | .boolean => 0
  | .int => 1
  | .float => 2
  | .timestamp => 3
  | .bigint => 4
  | .text => 5
  | .varchar _ => 6
  | .char _ => 7

def limitBytes : DataType → Bytes
  | .varchar chars | .char chars => Writer.u32 chars
  | _ => []

def encodeType (t : DataType) : Bytes := Writer.u8 (typeTag t) ++ limitBytes t

open Writer in
def encodeColumn (c : DataType × Text) : Bytes := str c.2 ++ encodeType c.1

open Writer in
def TableEntry.encode (t : TableEntry) : Bytes :=
  u32 t.oid ++ str t.name ++ u64 t.firstPageId ++ (u32 t.columns.length ++ t.columns.flatMap encodeColumn)

def IndexType.tag : IndexType → Nat
  | bPlusTree => 0

open Writer in
def IndexEntry.encode (i : IndexEntry) : Bytes :=
  u32 i.oid ++ str i.name ++ u32 i.tableOid ++ (u32 i.keyColumns.length ++ i.keyColumns.flatMap u32) ++
    u8 i.indexType.tag ++ u64 i.headerPageId

open Writer in
def DatabaseMeta.encode (m : DatabaseMeta) : Bytes :=
  u64 m.allocation.nextPageId ++ (u64 m.allocation.freePageIds.length ++ m.allocation.freePageIds.flatMap u64) ++
    u64 m.lastCommitTs ++ u64 m.nextTxnId ++
    u32 m.catalog.nextTableOid ++ u32 m.catalog.nextIndexOid ++
      (u32 m.catalog.tables.length ++ m.catalog.tables.flatMap TableEntry.encode) ++
    (u32 m.catalog.indexes.length ++ m.catalog.indexes.flatMap IndexEntry.encode)

/-! ## Reading -/

abbrev MetaReader (α : Type) : Type := Reader PersistError UInt8 α

namespace MetaReader

def take (n : Nat) : MetaReader Bytes := Reader.take (.corruptMeta "the metadata ends early") n

def number (k : Nat) : MetaReader Nat := do
  let bytes ← take k
  return leNat bytes

def u8 : MetaReader Nat := number 1

def u32 : MetaReader Nat := number 4

def u64 : MetaReader Nat := number 8

def pageId : MetaReader Nat := do
  let raw ← u64
  if raw ≤ maxPageId then return raw else Reader.fail (.corruptMeta "a page id is past the largest page id")

def utf8 (bytes : Bytes) : MetaReader Text :=
  match Text.fromUtf8 bytes with
  | some s => pure s
  | none => Reader.fail (.corruptMeta "a name is not UTF-8")

def str : MetaReader Text := do
  let len ← u32
  let bytes ← take len
  utf8 bytes

def list32 {α : Type} (r : MetaReader α) : MetaReader (List α) := u32 >>= Reader.many r

def list64 {α : Type} (r : MetaReader α) : MetaReader (List α) := u64 >>= Reader.many r

end MetaReader

open MetaReader

def typeOfTag : Nat → MetaReader DataType
  | 0 => pure .boolean
  | 1 => pure .int
  | 2 => pure .float
  | 3 => pure .timestamp
  | 4 => pure .bigint
  | 5 => pure .text
  | 6 => do
    let chars ← u32
    return .varchar chars
  | 7 => do
    let chars ← u32
    return .char chars
  | tag => Reader.fail (.unknownColumnType tag)

def decodeType : MetaReader DataType := u8 >>= typeOfTag

def decodeColumn : MetaReader (DataType × Text) := do
  let name ← str
  let dtype ← decodeType
  return (dtype, name)

def TableEntry.decode : MetaReader TableEntry := do
  let oid ← u32
  let name ← str
  let firstPageId ← pageId
  let columns ← list32 decodeColumn
  return ⟨oid, name, columns, firstPageId⟩

def indexTypeOfTag : Nat → MetaReader IndexType
  | 0 => pure .bPlusTree
  | tag => Reader.fail (.unknownIndexType tag)

def IndexType.decode : MetaReader IndexType := u8 >>= indexTypeOfTag

def IndexEntry.decode : MetaReader IndexEntry := do
  let oid ← u32
  let name ← str
  let tableOid ← u32
  let keyColumns ← list32 u32
  let indexType ← IndexType.decode
  let headerPageId ← pageId
  return ⟨oid, name, tableOid, keyColumns, indexType, headerPageId⟩

def DatabaseMeta.read : MetaReader DatabaseMeta := do
  let nextPageId ← u64
  let freePageIds ← list64 pageId
  let lastCommitTs ← u64
  let nextTxnId ← u64
  let nextTableOid ← u32
  let nextIndexOid ← u32
  let tables ← list32 TableEntry.decode
  let indexes ← list32 IndexEntry.decode
  return ⟨⟨nextPageId, freePageIds⟩, lastCommitTs, nextTxnId, ⟨nextTableOid, nextIndexOid, tables, indexes⟩⟩

def DatabaseMeta.decode (bytes : Bytes) : Except PersistError DatabaseMeta :=
  match DatabaseMeta.read bytes with
  | .error e => .error e
  | .ok (m, rest) => if rest.isEmpty then .ok m else .error (.corruptMeta "trailing bytes after the catalog")

/-! ## What is read -/

def TypeFits : DataType → Prop
  | .varchar chars | .char chars => chars < 2 ^ 32
  | _ => True

def ColumnFits (c : DataType × Text) : Prop := c.2.asBytes.length < 2 ^ 32 ∧ TypeFits c.1

structure TableEntry.Fits (t : TableEntry) : Prop where
  oid : t.oid < 2 ^ 32
  name : t.name.asBytes.length < 2 ^ 32
  firstPageId : t.firstPageId ≤ maxPageId
  columns : t.columns.length < 2 ^ 32 ∧ ∀ c ∈ t.columns, ColumnFits c

structure IndexEntry.Fits (i : IndexEntry) : Prop where
  oid : i.oid < 2 ^ 32
  name : i.name.asBytes.length < 2 ^ 32
  tableOid : i.tableOid < 2 ^ 32
  keyColumns : i.keyColumns.length < 2 ^ 32 ∧ ∀ c ∈ i.keyColumns, c < 2 ^ 32
  headerPageId : i.headerPageId ≤ maxPageId

structure DatabaseMeta.Fits (m : DatabaseMeta) : Prop where
  nextPageId : m.allocation.nextPageId < 2 ^ 64
  freePageIds : m.allocation.freePageIds.length < 2 ^ 64 ∧ ∀ p ∈ m.allocation.freePageIds, p ≤ maxPageId
  lastCommitTs : m.lastCommitTs < 2 ^ 64
  nextTxnId : m.nextTxnId < 2 ^ 64
  nextTableOid : m.catalog.nextTableOid < 2 ^ 32
  nextIndexOid : m.catalog.nextIndexOid < 2 ^ 32
  tables : m.catalog.tables.length < 2 ^ 32 ∧ ∀ t ∈ m.catalog.tables, t.Fits
  indexes : m.catalog.indexes.length < 2 ^ 32 ∧ ∀ i ∈ m.catalog.indexes, i.Fits

end Cmudb.Metadata
