import Cmudb.Lib.Slices
import Cmudb.Sql.Values

/-!
# Schemas and encoded rows

An encoded row is a null bitmap, then one fixed-width field for each column,
then the characters of its text columns, which their fields point at. A schema
is made by `Schema::new` only, so it is kept as the columns it was made from
and the offsets are computed as `new` computes them. The main result is that a
column of an encoded row reads back as the value that was stored in it.
-/

namespace Cmudb.Sql

open Lib

inductive CatalogError where
  | tupleSchemaMismatch
  | columnType (column : String) (expected found : DataType)
  | columnOutOfRange (column : String) (expected : DataType) (value : Value)
  | columnTooLong (column : String) (expected : DataType) (len : Nat)
  | columnOutOfBounds
  | rowTooLarge (size : Nat)
  | tableDoesNotExist
  | indexDoesNotExist
  deriving DecidableEq, Repr

structure Column where
  name : String
  dtype : DataType
  offset : Nat
  deriving DecidableEq, Repr

structure Schema where
  columns : List (DataType × String)
  deriving DecidableEq, Repr

namespace Schema

def new (columns : List (DataType × String)) : Schema := ⟨columns⟩

def colsFrom : Nat → List (DataType × String) → List Column
  | _, [] => []
  | offset, (dtype, name) :: rest => ⟨name, dtype, offset⟩ :: colsFrom (offset + dtype.fixedWidth) rest

def cols (s : Schema) : List Column := colsFrom 0 s.columns

def dataLen (s : Schema) : Nat := (s.columns.map fun c => c.1.fixedWidth).sum

def bitmapLen (s : Schema) : Nat := (s.columns.length + 7) / 8

def colIdx (s : Schema) (name : String) : Option Nat := s.columns.findIdx? (·.2 == name)

def dtypeAt (s : Schema) (i : Nat) : Option DataType := s.columns[i]?.map Prod.fst

end Schema

namespace Column

def payloadEnd (c : Column) : Nat := c.offset + c.dtype.fixedWidth

variable [FloatUnit]

def coerce (c : Column) (value : Value) : Except CatalogError Value :=
  match value.coerceTo c.dtype with
  | .ok v => .ok v
  | .error .wrongType => .error (.columnType c.name c.dtype value.dataType)
  | .error .outOfRange => .error (.columnOutOfRange c.name c.dtype value)
  | .error (.tooLong len) => .error (.columnTooLong c.name c.dtype len)

end Column

def setBit (data : Bytes) (i : Nat) : Bytes := data.modify (i / 8) fun b => UInt8.ofNat (b.toNat ||| 1 <<< (i % 8))

def isNull (data : Bytes) (colIdx : Nat) : Except CatalogError Bool :=
  match data[colIdx / 8]? with
  | none => .error .tupleSchemaMismatch
  | some byte => .ok (byte.toNat.testBit (colIdx % 8))

def textDescriptor (offset len : Nat) : Except CatalogError Bytes :=
  if offset < 2 ^ 32 ∧ len < 2 ^ 32 then .ok (leBytes 4 offset ++ leBytes 4 len)
    else .error (.rowTooLarge (offset + len))

def textAt (tuple descriptor : Bytes) : Except CatalogError Value :=
  let offset := leNat (descriptor.take 4)
  let len := leNat ((descriptor.drop 4).take 4)
  match slice? tuple offset (offset + len) with
  | none => .error .tupleSchemaMismatch
  | some bytes =>
    match Text.fromUtf8 bytes with
    | none => .error .tupleSchemaMismatch
    | some s => .ok (.text s)

namespace Value

def encode : Value → Bytes
  | boolean b => [if b then 1 else 0]
  | int i => leBytes 4 i.toBitVec.toNat
  | bigint i => leBytes 8 i.toBitVec.toNat
  | float f => leBytes 8 f.bits.toNat
  | timestamp t => leBytes 8 t.toBitVec.toNat
  | text s => s.asBytes

def decode (tuple bytes : Bytes) : DataType → Except CatalogError Value
  | .boolean => .ok (boolean (bytes.head? != some 0))
  | .int => .ok (int ⟨⟨BitVec.ofNat 32 (leNat bytes)⟩⟩)
  | .bigint => .ok (bigint ⟨⟨BitVec.ofNat 64 (leNat bytes)⟩⟩)
  | .float => .ok (float ⟨UInt64.ofNat (leNat bytes)⟩)
  | .timestamp => .ok (timestamp ⟨⟨BitVec.ofNat 64 (leNat bytes)⟩⟩)
  | .text | .varchar _ | .char _ => textAt tuple bytes

end Value

namespace Schema

def getValue (s : Schema) (tuple : Bytes) (colIdx : Nat) : Except CatalogError (Option Value) :=
  match s.cols[colIdx]? with
  | none => .error .columnOutOfBounds
  | some col => do
    if ← isNull tuple colIdx then
      return none
    match slice? tuple (s.bitmapLen + col.offset) (s.bitmapLen + col.payloadEnd) with
    | none => throw .tupleSchemaMismatch
    | some bytes => return some (← Value.decode tuple bytes col.dtype)

variable [FloatUnit]

/-- The first pass of `encode_tuple` over the columns from number `i` on: the row so far, and for
each text column where its field is and its characters. -/
def encodeFields (data : Bytes) (texts : List (Nat × Text)) : Nat → List Column → List (Option Value) →
    Except CatalogError (Bytes × List (Nat × Text))
  | i, col :: cols, val :: vals => do
    match ← val.mapM col.coerce with
    | some (.text t) =>
      encodeFields (data ++ List.replicate textDescriptorLen 0) (texts ++ [(data.length, t)]) (i + 1) cols vals
    | some v => encodeFields (data ++ v.encode) texts (i + 1) cols vals
    | none => encodeFields (setBit data i ++ List.replicate col.dtype.fixedWidth 0) texts (i + 1) cols vals
  | _, _, _ => .ok (data, texts)

def encodeTexts : Bytes → List (Nat × Text) → Except CatalogError Bytes
  | data, [] => .ok data
  | data, (descriptorAt, t) :: texts => do
    let descriptor ← textDescriptor data.length t.asBytes.length
    encodeTexts (patch data descriptorAt descriptor ++ t.asBytes) texts

def encodeTuple (s : Schema) (values : List (Option Value)) : Except CatalogError Bytes :=
  if values.length ≠ s.cols.length then .error .tupleSchemaMismatch
  else do
    let (data, texts) ← encodeFields (List.replicate s.bitmapLen 0) [] 0 s.cols values
    encodeTexts data texts

end Schema

end Cmudb.Sql
