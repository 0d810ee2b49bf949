import Mathlib.Data.List.DropRight
import Mathlib.Order.Compare
import Cmudb.LogRecord

/-!
# SQL types and values

A FLOAT is kept by its bits. `OrderedFloat` compares doubles as `F64.rank`
does: by sign and magnitude, with every NaN above infinity and the two zeros
equal. Arithmetic on doubles and the conversions between doubles and integers
are the processor's, so they are the operations of a `FloatUnit` and nothing
is said of them here.
-/

namespace Cmudb.Sql

abbrev Text := List Char

namespace Text

def asBytes (s : Text) : Bytes := s.flatMap String.utf8EncodeChar

def fromUtf8 (bytes : Bytes) : Option Text := (ByteArray.mk bytes.toArray).utf8Decode?.map Array.toList

theorem fromUtf8_asBytes (s : Text) : fromUtf8 s.asBytes = some s := by
  have h : ByteArray.mk s.asBytes.toArray = s.utf8Encode := by
    simp [asBytes, List.utf8Encode, ByteArray.ext_iff]
  rw [fromUtf8, h, List.utf8Decode?_utf8Encode]
  simp

end Text

structure F64 where
  bits : UInt64
  deriving DecidableEq, Repr

namespace F64

def signBit : Nat := 2 ^ 63

def infinity : Nat := 0x7FF0000000000000

def magnitude (f : F64) : Nat := f.bits.toNat % signBit

def isNegative (f : F64) : Bool := signBit ≤ f.bits.toNat

def isNan (f : F64) : Bool := infinity < f.magnitude

def isFinite (f : F64) : Bool := f.magnitude < infinity

/-- Where `OrderedFloat` ranks a double. -/
def rank (f : F64) : Int :=
  if f.isNan then signBit else if f.isNegative then -f.magnitude else f.magnitude

def cmp (a b : F64) : Ordering := compare a.rank b.rank

def zero : F64 := ⟨0⟩

end F64

class FloatUnit where
  add : F64 → F64 → F64
  sub : F64 → F64 → F64
  mul : F64 → F64 → F64
  div : F64 → F64 → F64
  /-- `i as f64`. -/
  ofInt : Int → F64
  /-- `f as i64`. -/
  toInt : F64 → Int64
  /-- `f.fract() == 0.0`. -/
  isWhole : F64 → Bool
  /-- `literal.parse::<f64>()`. -/
  parse : String → Option F64

/-- A unit that computes nothing, for closed terms. -/
@[reducible] def FloatUnit.idle : FloatUnit where
  add a _ := a
  sub a _ := a
  mul a _ := a
  div a _ := a
  ofInt _ := F64.zero
  toInt _ := 0
  isWhole _ := false
  parse _ := none

inductive DataType where
  | boolean
  | int
  | bigint
  | float
  | timestamp
  | text
  | varchar (maxChars : Nat)
  | char (n : Nat)
  deriving DecidableEq, Repr

def textDescriptorLen : Nat := 8

namespace DataType

def fixedWidth : DataType → Nat
  | boolean => 1
  | int => 4
  | bigint => 8
  | float => 8
  | timestamp => 8
  | text | varchar _ | char _ => textDescriptorLen

def isText : DataType → Bool
  | text | varchar _ | char _ => true
  | _ => false

def valueType : DataType → DataType
  | varchar _ | char _ => text
  | other => other

def isNumeric : DataType → Bool
  | int | bigint | float => true
  | _ => false

def numericRank : DataType → Option Nat
  | int => some 0
  | bigint => some 1
  | float => some 2
  | _ => none

def commonNumeric (t u : DataType) : Option DataType :=
  match t.numericRank, u.numericRank with
  | some a, some b => some (if b ≤ a then t else u)
  | _, _ => none

end DataType

inductive Value where
  | boolean (b : Bool)
  | int (i : Int32)
  | bigint (i : Int64)
  | float (f : F64)
  | timestamp (t : Int64)
  | text (s : Text)
  deriving DecidableEq, Repr

inductive CoercionError where
  | wrongType
  | outOfRange
  | tooLong (len : Nat)
  deriving DecidableEq, Repr

def charPad : Char := ' '

def i64ExactFloatBound : F64 := ⟨0x4340000000000000⟩

def withoutCharPadding (s : Text) : Text := s.rdropWhile (· == charPad)

def fitChars (s : Text) (maxChars : Nat) : Except CoercionError Value :=
  if s.length ≤ maxChars then .ok (.text s) else .error (.tooLong s.length)

def inI32 (i : Int) : Bool := -2 ^ 31 ≤ i ∧ i < 2 ^ 31

def inI64 (i : Int) : Bool := -2 ^ 63 ≤ i ∧ i < 2 ^ 63

namespace Value

def dataType : Value → DataType
  | boolean _ => .boolean
  | int _ => .int
  | bigint _ => .bigint
  | float _ => .float
  | timestamp _ => .timestamp
  | text _ => .text

def integer (i : Int64) : Value := if inI32 i.toInt then int (Int32.ofInt i.toInt) else bigint i

def asI64 : Value → Option Int
  | int i => some i.toInt
  | bigint i => some i.toInt
  | _ => none

def variant : Value → Nat
  | boolean _ => 0
  | int _ => 1
  | bigint _ => 2
  | float _ => 3
  | timestamp _ => 4
  | text _ => 5

def cmp : Value → Value → Ordering
  | boolean a, boolean b => compare a.toNat b.toNat
  | int a, int b => compare a.toInt b.toInt
  | bigint a, bigint b => compare a.toInt b.toInt
  | float a, float b => a.cmp b
  | timestamp a, timestamp b => compare a.toInt b.toInt
  | text a, text b => List.compareLex (fun x y => compare x.toNat y.toNat) a.asBytes b.asBytes
  | a, b => compare a.variant b.variant

section
variable [FloatUnit]

def asF64 : Value → Option F64
  | int i => some (FloatUnit.ofInt i.toInt)
  | bigint i => some (FloatUnit.ofInt i.toInt)
  | float f => some f
  | _ => none

def coerceTo (v : Value) (target : DataType) : Except CoercionError Value :=
  if v.dataType = target then .ok v
  else match v, target with
    | text s, .varchar maxChars => fitChars s maxChars
    | text s, .char n => fitChars (withoutCharPadding s) n
    | int i, .bigint => .ok (bigint (Int64.ofInt i.toInt))
    | bigint i, .int => if inI32 i.toInt then .ok (int (Int32.ofInt i.toInt)) else .error .outOfRange
    | int i, .float => .ok (float (FloatUnit.ofInt i.toInt))
    | bigint i, .float => .ok (float (FloatUnit.ofInt i.toInt))
    | _, _ => .error .wrongType

def exactlyAs (v : Value) (target : DataType) : Option Value :=
  if v.dataType = target then some v
  else match v, target with
    | text s, .char _ => some (text (withoutCharPadding s))
    | int _, .bigint | bigint _, .int => (v.coerceTo target).toOption
    | int i, .float =>
      if (FloatUnit.ofInt i.toInt.natAbs).cmp i64ExactFloatBound == .lt
        then some (float (FloatUnit.ofInt i.toInt)) else none
    | bigint i, .float =>
      if (FloatUnit.ofInt i.toInt.natAbs).cmp i64ExactFloatBound == .lt
        then some (float (FloatUnit.ofInt i.toInt)) else none
    | float f, .int | float f, .bigint =>
      -- `f.abs() >= bound` is false of a NaN, but a NaN has no whole value
      if !FloatUnit.isWhole f || decide (i64ExactFloatBound.magnitude ≤ f.magnitude) then none
      else ((bigint (FloatUnit.toInt f)).coerceTo target).toOption
    | _, _ => none

/-- Orders two values, numbers by what they stand for. -/
def compare? (a b : Value) : Option Ordering :=
  if a.dataType = b.dataType then some (a.cmp b)
  else match a.asI64, b.asI64 with
    | some i, some j => some (compare i j)
    | _, _ =>
      match a.asF64, b.asF64 with
      | some f, some g => some (f.cmp g)
      | _, _ => none

end

end Value

end Cmudb.Sql
