import Cmudb.Mvcc
import Cmudb.Sql.Order
import Cmudb.Sql.Rows

/-!
# Scalar expressions

An expression is evaluated against whatever its column references read from: one
encoded row, or the two rows of a join. Integer arithmetic is exact or fails, and
AND and OR follow three-valued logic after both operands were evaluated.
-/

namespace Cmudb.Sql

inductive Arithmetic where
  | add
  | sub
  | mul
  | div
  deriving DecidableEq, Repr

inductive ExecutorError where
  | catalog (e : CatalogError)
  | tableHeap (e : TableHeapError)
  | index (e : IndexError)
  | mvcc (e : MvccError)
  | columnRead (col : Nat) (source : CatalogError)
  | notOpened (executor : String)
  | noRecordId (executor : String)
  | notBoolean (value : Value)
  | incomparable (left right : Value)
  | arithmeticOperands (op : Arithmetic) (left right : Value)
  | divisionByZero (dividend : Int)
  | integerOverflow (op : Arithmetic) (left right : Int)
  | countOverflow (count : Nat)
  | countRows (rows : Nat)
  | badCount (value : Option Value)
  | notDml
  | noSortRuns
  | tableNotFound (oid : Option Nat)
  | indexNotFound (oid : Option Nat)
  deriving DecidableEq, Repr

inductive Op where
  | add
  | sub
  | mul
  | div
  | eq
  | nEq
  | lt
  | gt
  | lte
  | gte
  | and
  | or
  deriving DecidableEq, Repr

inductive Side where
  | left
  | right
  deriving DecidableEq, Repr

abbrev ColIdx := Nat

structure JoinColumn where
  side : Side
  col : ColIdx
  deriving DecidableEq, Repr

inductive Expression (C : Type) where
  | constant (v : Option Value)
  | column (col : C) (dtype : DataType)
  | binary (left right : Expression C) (op : Op)
  deriving DecidableEq, Repr

abbrev JoinPredicate := Expression JoinColumn

namespace Arithmetic

/-- The result in unbounded integers; division truncates. -/
def exact (op : Arithmetic) (a b : Int) : Int :=
  match op with
  | add => a + b
  | sub => a - b
  | mul => a * b
  | div => a.tdiv b

def applyInteger (op : Arithmetic) (a b : Int) (inRange : Int → Bool) : Except ExecutorError Int :=
  if op = .div ∧ b = 0 then .error (.divisionByZero a)
  else if inI64 (op.exact a b) && inRange (op.exact a b) then .ok (op.exact a b)
  else .error (.integerOverflow op a b)

variable [FloatUnit]

def applyFloat (op : Arithmetic) (a b : F64) : F64 :=
  match op with
  | add => FloatUnit.add a b
  | sub => FloatUnit.sub a b
  | mul => FloatUnit.mul a b
  | div => FloatUnit.div a b

def apply (op : Arithmetic) (l r : Value) : Except ExecutorError Value :=
  match l.dataType.commonNumeric r.dataType with
  | none => .error (.arithmeticOperands op l r)
  | some common =>
    match common, l.coerceTo common, r.coerceTo common with
    | .int, .ok (.int a), .ok (.int b) => (op.applyInteger a.toInt b.toInt inI32).map fun i =>
      Value.integer (Int64.ofInt i)
    | .bigint, .ok (.bigint a), .ok (.bigint b) => (op.applyInteger a.toInt b.toInt inI64).map fun i =>
      .bigint (Int64.ofInt i)
    | .float, .ok (.float a), .ok (.float b) => .ok (.float (op.applyFloat a b))
    | _, _, _ => .error (.arithmeticOperands op l r)

end Arithmetic

namespace Op

def arithmetic : Op → Option Arithmetic
  | add => some .add
  | sub => some .sub
  | mul => some .mul
  | div => some .div
  | _ => none

def holds : Op → Ordering → Bool
  | eq => Ordering.isEq
  | nEq => Ordering.isNe
  | lt => Ordering.isLT
  | gt => Ordering.isGT
  | lte => Ordering.isLE
  | gte => Ordering.isGE
  | _ => fun _ => false

end Op

def asBool : Option Value → Except ExecutorError (Option Bool)
  | none => .ok none
  | some (.boolean b) => .ok (some b)
  | some value => .error (.notBoolean value)

def and3 : Option Bool → Option Bool → Option Bool
  | some false, _ => some false
  | _, some false => some false
  | some true, some true => some true
  | _, _ => none

def or3 : Option Bool → Option Bool → Option Bool
  | some true, _ => some true
  | _, some true => some true
  | some false, some false => some false
  | _, _ => none

section
variable [FloatUnit]

def compareValues : Option Value → Option Value → Except ExecutorError (Option Ordering)
  | some l, some r =>
    match l.compare? r with
    | some ord => .ok (some ord)
    | none => .error (.incomparable l r)
  | _, _ => .ok none

def evalArithmetic (op : Arithmetic) : Option Value → Option Value → Except ExecutorError (Option Value)
  | some l, some r => (op.apply l r).map some
  | _, _ => .ok none

def evalBinary (op : Op) (l r : Option Value) : Except ExecutorError (Option Value) :=
  match op with
  | .add => evalArithmetic .add l r
  | .sub => evalArithmetic .sub l r
  | .mul => evalArithmetic .mul l r
  | .div => evalArithmetic .div l r
  | .and => do
    let a ← asBool l
    let b ← asBool r
    .ok ((and3 a b).map .boolean)
  | .or => do
    let a ← asBool l
    let b ← asBool r
    .ok ((or3 a b).map .boolean)
  | op => (compareValues l r).map fun ord => ord.map fun o => .boolean (op.holds o)

end

namespace Expression

variable {C D : Type}

def dtype : Expression C → Option DataType
  | column _ dtype => some dtype
  | constant (some v) => some v.dataType
  | constant none => none
  | binary left right op =>
    match op.arithmetic with
    | some _ =>
      match left.dtype, right.dtype with
      | some l, some r => (l.commonNumeric r).or (some l)
      | l, r => l.or r
    | none => some .boolean

section
variable [FloatUnit]

def evaluateOn (row : C → Except ExecutorError (Option Value)) : Expression C → Except ExecutorError (Option Value)
  | binary left right op => do
    let l ← left.evaluateOn row
    let r ← right.evaluateOn row
    evalBinary op l r
  | column col _ => row col
  | constant v => .ok v

end

end Expression

structure InputRow where
  tuple : Bytes
  schema : Schema

def InputRow.columnValue (row : InputRow) (col : ColIdx) : Except ExecutorError (Option Value) :=
  match row.schema.getValue row.tuple col with
  | .ok v => .ok v
  | .error source => .error (.columnRead col source)

structure JoinRow where
  left : InputRow
  right : InputRow

def JoinRow.columnValue (row : JoinRow) (col : JoinColumn) : Except ExecutorError (Option Value) :=
  match col.side with
  | .left => row.left.columnValue col.col
  | .right => row.right.columnValue col.col

variable [FloatUnit]

def Expression.evaluate (e : Expression ColIdx) (tuple : Bytes) (schema : Schema) :
    Except ExecutorError (Option Value) :=
  e.evaluateOn (InputRow.columnValue ⟨tuple, schema⟩)

end Cmudb.Sql
