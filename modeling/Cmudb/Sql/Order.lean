import Cmudb.Sql.Values

/-!
# The order of values

Values compare by variant, then by the number or the bytes they stand for, so
the derived order is a lawful comparison and its equality an equivalence. The
lists that grouping hashes compare element by element, NULL being equal to NULL.
-/

namespace Cmudb.Sql

open Std

theorem transCmp_on {α β : Type} (c : β → β → Ordering) [TransCmp c] (f : α → β) :
    TransCmp fun a b => c (f a) (f b) where
  eq_swap := by
    intro a b
    exact @OrientedCmp.eq_swap β c _ (f a) (f b)
  isLE_trans := by
    intro x y z
    exact @TransCmp.isLE_trans β c _ (f x) (f y) (f z)

namespace Value

def rank : Value → Int
  | boolean b => b.toNat
  | int i => i.toInt
  | bigint i => i.toInt
  | float f => f.rank
  | timestamp t => t.toInt
  | text _ => 0

def chars : Value → Bytes
  | text s => s.asBytes
  | _ => []

def charsCmp (a b : Value) : Ordering := List.compareLex (compareOn UInt8.toNat) a.chars b.chars

theorem cmp_of_variant_ne {a b : Value} (h : a.variant ≠ b.variant) : a.cmp b = compare a.variant b.variant := by
  cases a <;> cases b <;> first | rfl | exact absurd rfl h

theorem cmp_of_variant_eq {a b : Value} (h : a.variant = b.variant) :
    a.cmp b = (compareOn rank a b).then (charsCmp a b) := by
  cases a <;> cases b <;>
    first | (simp [variant] at h; done) | simp [cmp, compareOn, rank, chars, charsCmp, F64.cmp,
      List.compareLex_nil_nil]
  case boolean.boolean x y => cases x <;> cases y <;> rfl
  case text.text => rfl

theorem cmp_eq_lex : cmp = compareLex (compareOn variant) (compareLex (compareOn rank) charsCmp) := by
  funext a b
  by_cases h : a.variant = b.variant
  · rw [cmp_of_variant_eq h]
    simp [compareLex, compareOn, h]
  · rw [cmp_of_variant_ne h]
    cases hc : compare a.variant b.variant with
    | eq => exact absurd (Nat.compare_eq_eq.mp hc) h
    | _ => simp [compareLex, compareOn, hc]

instance charsCmp_trans : TransCmp charsCmp := transCmp_on (List.compareLex (compareOn UInt8.toNat)) chars

instance cmp_trans : TransCmp cmp := by
  rw [cmp_eq_lex]
  infer_instance

/-- The derived order of `Option<Value>`, with NULL below every value. -/
def cmpOption : Option Value → Option Value → Ordering
  | none, none => .eq
  | none, some _ => .lt
  | some _, none => .gt
  | some a, some b => a.cmp b

instance cmpOption_trans : TransCmp cmpOption where
  eq_swap {a b} := by
    cases a <;> cases b <;> first | rfl | exact @OrientedCmp.eq_swap _ cmp _ _ _
  isLE_trans {a b c} hab hbc := by
    cases a <;> cases b <;> cases c <;> simp_all [cmpOption]
    exact TransCmp.isLE_trans hab hbc

end Value

structure ExprKey where
  values : List (Option Value)
  deriving DecidableEq, Repr

namespace ExprKey

def cmp (a b : ExprKey) : Ordering := List.compareLex Value.cmpOption a.values b.values

instance cmp_trans : TransCmp cmp := transCmp_on (List.compareLex Value.cmpOption) values

instance keyBEq : BEq ExprKey where
  beq a b := a.cmp b == .eq

theorem beq_iff {a b : ExprKey} : a == b ↔ a.cmp b = .eq := by
  show (a.cmp b == .eq) = true ↔ _
  exact beq_iff_eq

instance keyEquiv : EquivBEq ExprKey where
  rfl := beq_iff.mpr ReflCmp.compare_self
  symm h := beq_iff.mpr (OrientedCmp.eq_symm (beq_iff.mp h))
  trans h₁ h₂ := beq_iff.mpr (TransCmp.eq_trans (beq_iff.mp h₁) (beq_iff.mp h₂))

def containsNull (k : ExprKey) : Bool := k.values.any Option.isNone

end ExprKey

end Cmudb.Sql
