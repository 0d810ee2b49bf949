import Cmudb.Lib.Doubles
import Cmudb.Sql.Expressions

/-!
# Constants in comparisons

The binder converts a constant to the type of what it is compared with when
nothing is lost. An integer and a double are compared as doubles before that and
as integers after it, which agrees because integers to 2^53 are doubles and no
larger integer rounds to less.
-/

namespace Cmudb.Sql

open Lib Std

namespace F64

def units (f : F64) : Int := if f.isNegative then -Double.units f.magnitude else Double.units f.magnitude

def Stands (f : F64) (i : Int) : Prop := f.isFinite = true ∧ f.units = i * Double.one

theorem rank_of_finite {f : F64} (h : f.isFinite = true) :
    f.rank = if f.isNegative then -(f.magnitude : Int) else f.magnitude := by
  have hnan : f.isNan = false := by
    simp only [isFinite, isNan, decide_eq_true_eq, decide_eq_false_iff_not] at *
    omega
  rw [rank, hnan]
  rfl

theorem rank_lt_iff {f g : F64} (hf : f.isFinite = true) (hg : g.isFinite = true) :
    f.rank < g.rank ↔ f.units < g.units := by
  have hlt := Double.units_strictMono.lt_iff_lt (a := f.magnitude) (b := g.magnitude)
  have hgt := Double.units_strictMono.lt_iff_lt (a := g.magnitude) (b := f.magnitude)
  have hf0 := Double.units_strictMono.lt_iff_lt (a := 0) (b := f.magnitude)
  have hg0 := Double.units_strictMono.lt_iff_lt (a := 0) (b := g.magnitude)
  have hzero : Double.units 0 = 0 := rfl
  rw [hzero] at hf0 hg0
  rw [rank_of_finite hf, rank_of_finite hg, units, units]
  split <;> split <;> omega

theorem rank_eq_of_stands {f g : F64} {i : Int} (hf : f.Stands i) (hg : g.Stands i) : f.rank = g.rank := by
  have hfg := rank_lt_iff hf.1 hg.1
  have hgf := rank_lt_iff hg.1 hf.1
  rw [hf.2, hg.2] at hfg hgf
  omega

theorem rank_lt_of_stands {f g : F64} {i j : Int} (hf : f.Stands i) (hg : g.Stands j) (h : i < j) :
    f.rank < g.rank := by
  rw [rank_lt_iff hf.1 hg.1, hf.2, hg.2]
  exact Int.mul_lt_mul_of_pos_right h (by exact_mod_cast Double.one_pos)

end F64

section
variable [FloatUnit]

structure Conversions : Prop where
  mono : ∀ i j, inI64 i → inI64 j → i ≤ j → (FloatUnit.ofInt i).rank ≤ (FloatUnit.ofInt j).rank
  exact : ∀ i : Int, i.natAbs ≤ 2 ^ 53 → (FloatUnit.ofInt i).Stands i
  whole : ∀ f, FloatUnit.isWhole f = true → f.isFinite = true → ∃ i, f.Stands i
  trunc : ∀ f i, f.Stands i → inI64 i → (FloatUnit.toInt f).toInt = i

/-! ## The binder -/

variable {C : Type}

def Op.isComparison : Op → Bool
  | .eq | .nEq | .lt | .gt | .lte | .gte => true
  | _ => false

def exactly : Expression C → Option DataType → Option Value
  | .constant (some v), some t => v.exactlyAs t
  | _, _ => none

def matchConstantToOtherSide (l r : Expression C) : Expression C × Expression C :=
  match l, r with
  | .constant _, .constant _ => (l, r)
  | .constant _, other =>
    match exactly l other.dtype with
    | some v => (.constant (some v), r)
    | none => (l, r)
  | other, .constant _ =>
    match exactly r other.dtype with
    | some v => (l, .constant (some v))
    | none => (l, r)
  | _, _ => (l, r)

def Value.withoutTrailingSpaces : Value → Value
  | .text s => .text (withoutCharPadding s)
  | v => v

/-! ## Integers among doubles -/

variable (hconv : Conversions)
include hconv

theorem ofInt_lt {x i : Int} (hx : inI64 x) (hi : i.natAbs < 2 ^ 53) (h : x < i) :
    (FloatUnit.ofInt x).rank < (FloatUnit.ofInt i).rank := by
  have hexact := hconv.exact i (by omega)
  by_cases hsmall : x.natAbs ≤ 2 ^ 53
  · exact F64.rank_lt_of_stands (hconv.exact x hsmall) hexact h
  · have hbound : (FloatUnit.ofInt x).rank ≤ (FloatUnit.ofInt (-2 ^ 53)).rank :=
      hconv.mono _ _ hx (by decide) (by omega)
    have hstrict := F64.rank_lt_of_stands (hconv.exact (-2 ^ 53) (by decide)) hexact (by omega)
    omega

theorem lt_ofInt {x i : Int} (hx : inI64 x) (hi : i.natAbs < 2 ^ 53) (h : i < x) :
    (FloatUnit.ofInt i).rank < (FloatUnit.ofInt x).rank := by
  have hexact := hconv.exact i (by omega)
  by_cases hsmall : x.natAbs ≤ 2 ^ 53
  · exact F64.rank_lt_of_stands hexact (hconv.exact x hsmall) h
  · have hbound : (FloatUnit.ofInt (2 ^ 53)).rank ≤ (FloatUnit.ofInt x).rank :=
      hconv.mono _ _ (by decide) hx (by omega)
    have hstrict := F64.rank_lt_of_stands hexact (hconv.exact (2 ^ 53) (by decide)) (by omega)
    omega

/-- An integer compares with a double that is a small integer as it does with the integer. -/
theorem cmp_ofInt {x i : Int} {f : F64} (hx : inI64 x) (hi : i.natAbs < 2 ^ 53) (hf : f.Stands i) :
    (FloatUnit.ofInt x).cmp f = compare x i := by
  have hrank : f.rank = (FloatUnit.ofInt i).rank := F64.rank_eq_of_stands hf (hconv.exact i (by omega))
  rw [F64.cmp, hrank]
  rcases Int.lt_trichotomy x i with h | rfl | h
  · rw [Int.compare_eq_lt.mpr h, Int.compare_eq_lt.mpr (ofInt_lt hconv hx hi h)]
  · rw [Int.compare_eq_eq.mpr rfl, Int.compare_eq_eq.mpr rfl]
  · rw [Int.compare_eq_gt.mpr h, Int.compare_eq_gt.mpr (lt_ofInt hconv hx hi h)]

theorem exists_small {f : F64} (hwhole : FloatUnit.isWhole f = true)
    (hbound : f.magnitude < i64ExactFloatBound.magnitude) :
    ∃ i : Int, f.Stands i ∧ i.natAbs < 2 ^ 53 ∧ (FloatUnit.toInt f).toInt = i := by
  have hfinite : f.isFinite = true := by
    have hinf : i64ExactFloatBound.magnitude ≤ F64.infinity := by decide
    exact decide_eq_true (by omega)
  obtain ⟨i, hi⟩ := hconv.whole f hwhole hfinite
  have hsmall : i.natAbs < 2 ^ 53 := by
    have hbits : i64ExactFloatBound.magnitude = Double.ofNat (2 ^ 53) := by decide +kernel
    have hlt := Double.units_strictMono hbound
    have habs : f.units.natAbs = Double.units f.magnitude := by
      unfold F64.units
      split <;> omega
    rw [hbits, Double.units_ofNat (Nat.le_refl _), ← habs, hi.2, Int.natAbs_mul, Int.natAbs_natCast] at hlt
    exact Nat.lt_of_mul_lt_mul_right hlt
  exact ⟨i, hi, hsmall, hconv.trunc f i hi (by simp only [inI64, decide_eq_true_eq]; omega)⟩

omit hconv

/-! ## What the conversion keeps -/

theorem compare?_integers {a b : Value} {i j : Int} (ha : a.asI64 = some i) (hb : b.asI64 = some j) :
    a.compare? b = some (compare i j) := by
  unfold Value.compare?
  split
  · cases a <;> cases b <;> simp_all [Value.asI64, Value.dataType, Value.cmp]
  · rw [ha, hb]

theorem compare?_doubles {a b : Value} {f g : F64} (ha : a.asF64 = some f) (hb : b.asF64 = some g)
    (hne : a.dataType ≠ b.dataType) (hi : a.asI64 = none ∨ b.asI64 = none) : a.compare? b = some (f.cmp g) := by
  unfold Value.compare?
  rw [if_neg hne, ha, hb]
  rcases hi with hi | hi
  · rw [hi]
  · rw [hi]
    cases a.asI64 <;> rfl

/-- A converted number is the same integer, the double of an integer, or the integer of a double. -/
inductive Converted : Value → Value → DataType → Prop where
  | same (c t) : Converted c c t
  | integer {c c' t} (i : Int) : c.asI64 = some i → c'.asI64 = some i → t ≠ .float → Converted c c' t
  | widened {c} (i : Int) : c.asI64 = some i → c.asF64 = some (FloatUnit.ofInt i) →
      Converted c (.float (FloatUnit.ofInt i)) .float
  | whole {c' t} (f : F64) : FloatUnit.isWhole f = true → f.magnitude < i64ExactFloatBound.magnitude →
      c'.asI64 = some (FloatUnit.toInt f).toInt →
      t ≠ .float → Converted (.float f) c' t

theorem asI64_coerceTo {i : Int64} {v : Value} {t : DataType} (ht : t = .int ∨ t = .bigint)
    (h : ((Value.bigint i).coerceTo t).toOption = some v) :
    v.asI64 = some i.toInt := by
  rcases ht with rfl | rfl
  · simp only [Value.coerceTo, Value.dataType, reduceCtorEq, if_false] at h
    split at h
    · rename_i hin
      simp only [inI32, decide_eq_true_eq] at hin
      cases h
      rw [Value.asI64, Int32.toInt_ofInt_of_le hin.1 hin.2]
    · cases h
  · cases h
    rfl

theorem exactlyAs_converted {c c' : Value} {t : DataType} (ht : t.isNumeric = true) (h : c.exactlyAs t = some c') :
    Converted c c' t := by
  unfold Value.exactlyAs at h
  split at h
  · cases h
    exact .same _ _
  · split at h
    · cases ht
    · rename_i i _
      cases h
      refine .integer i.toInt rfl ?_ (by decide)
      simp only [Value.asI64, Option.some.injEq]
      exact Int64.toInt_ofInt_of_le (by have := i.toInt_lt; have := i.le_toInt; omega)
        (by have := i.toInt_lt; have := i.le_toInt; omega)
    · exact .integer _ rfl (asI64_coerceTo (.inl rfl) h) (by decide)
    · split at h
      · cases h
        exact .widened _ rfl rfl
      · cases h
    · split at h
      · cases h
        exact .widened _ rfl rfl
      · cases h
    · rename_i f _
      split at h
      · cases h
      · rename_i hguard
        simp at hguard
        exact .whole f hguard.1 hguard.2 (asI64_coerceTo (.inl rfl) h) (by decide)
    · rename_i f _
      split at h
      · cases h
      · rename_i hguard
        simp at hguard
        exact .whole f hguard.1 hguard.2 (asI64_coerceTo (.inr rfl) h) (by decide)
    · cases h

theorem integer_of_type {x : Value} {t : DataType} (hx : x.dataType = t) (ht : t.isNumeric = true)
    (hne : t ≠ .float) :
    ∃ k, x.asI64 = some k ∧ x.asF64 = some (FloatUnit.ofInt k) ∧ inI64 k = true := by
  subst hx
  cases x with
  | int i =>
    refine ⟨i.toInt, rfl, rfl, ?_⟩
    have hlow := i.le_toInt
    have hhigh := i.toInt_lt
    simp only [inI64, decide_eq_true_eq]
    omega
  | bigint i =>
    refine ⟨i.toInt, rfl, rfl, ?_⟩
    have hlow := i.le_toInt
    have hhigh := i.toInt_lt
    simp only [inI64, decide_eq_true_eq]
    omega
  | float => exact absurd rfl hne
  | _ => cases ht

include hconv in
theorem Converted.compare {c c' x : Value} {t : DataType} (h : Converted c c' t) (hx : x.dataType = t)
    (ht : t.isNumeric = true) :
    c' = c ∨ ∃ o, x.compare? c' = some o ∧ x.compare? c = some o := by
  cases h with
  | same => exact .inl rfl
  | integer i hc hc' hne =>
    obtain ⟨k, hk, -⟩ := integer_of_type hx ht hne
    exact .inr ⟨_, compare?_integers hk hc', compare?_integers hk hc⟩
  | widened i hc hd =>
    cases x <;> simp only [Value.dataType, reduceCtorEq] at hx
    rename_i f
    have hne : (Value.float f).dataType ≠ c.dataType := by
      intro heq
      cases c <;> simp [Value.asI64, Value.dataType] at hc heq
    exact .inr ⟨f.cmp (FloatUnit.ofInt i), rfl, compare?_doubles rfl hd hne (.inl rfl)⟩
  | whole f hwhole hbound hc' hne =>
    obtain ⟨k, hk, hkd, hin⟩ := integer_of_type hx ht hne
    obtain ⟨i, hi, hsmall, htrunc⟩ := exists_small hconv hwhole hbound
    rw [htrunc] at hc'
    have hcmp := compare?_doubles (b := .float f) hkd rfl (by rw [hx]; exact hne) (.inr rfl)
    rw [cmp_ofInt hconv hin hsmall hi] at hcmp
    exact .inr ⟨_, compare?_integers hk hc', hcmp⟩

theorem compare?_swap (a b : Value) : b.compare? a = (a.compare? b).map Ordering.swap := by
  unfold Value.compare?
  by_cases h : a.dataType = b.dataType
  · rw [if_pos h, if_pos h.symm, Option.map_some, ← @OrientedCmp.eq_swap _ Value.cmp _ b a]
  · rw [if_neg h, if_neg fun h' => h h'.symm]
    cases a.asI64 <;> cases b.asI64 <;> cases a.asF64 <;> cases b.asF64 <;> simp [F64.cmp, Int.compare_swap]

theorem evalBinary_comparison {op : Op} (hop : op.isComparison = true) (l r : Option Value) :
    evalBinary op l r = (compareValues l r).map fun ord => ord.map fun o => .boolean (op.holds o) := by
  cases op <;> first | rfl | cases hop

theorem evalBinary_congr {op : Op} {x c c' : Value} (hop : op.isComparison = true)
    (h : c' = c ∨ ∃ o, x.compare? c' = some o ∧ x.compare? c = some o) :
    evalBinary op (some x) (some c') = evalBinary op (some x) (some c) ∧
    evalBinary op (some c') (some x) = evalBinary op (some c) (some x) := by
  rcases h with rfl | ⟨o, hc', hc⟩
  · exact ⟨rfl, rfl⟩
  · simp only [evalBinary_comparison hop, compareValues]
    rw [compare?_swap x c', compare?_swap x c, hc', hc]
    exact ⟨rfl, rfl⟩

def placed (e : Expression C) (c : Value) : Value :=
  match e with
  | .constant _ => c
  | _ => (e.dtype.bind c.exactlyAs).getD c

theorem matchConstantToOtherSide_placed (e : Expression C) (c : Value) :
    matchConstantToOtherSide e (.constant (some c)) = (e, .constant (some (placed e c))) ∧
      matchConstantToOtherSide (.constant (some c)) e = (.constant (some (placed e c)), e) := by
  cases e with
  | constant => exact ⟨rfl, rfl⟩
  | column col dtype =>
    simp only [matchConstantToOtherSide, placed, exactly, Expression.dtype, Option.bind_some]
    cases c.exactlyAs dtype <;> exact ⟨rfl, rfl⟩
  | binary l r op =>
    simp only [matchConstantToOtherSide, placed]
    cases (Expression.binary l r op).dtype with
    | none => exact ⟨rfl, rfl⟩
    | some t =>
      simp only [exactly, Option.bind_some]
      cases c.exactlyAs t <;> exact ⟨rfl, rfl⟩

omit [FloatUnit] in
theorem dtype_constant_ne_char (v : Option Value) (n : Nat) :
    (Expression.constant v : Expression C).dtype ≠ some (.char n) := by
  cases v with
  | none => simp [Expression.dtype]
  | some v => cases v <;> simp [Expression.dtype, Value.dataType]

theorem exactlyAs_char (c : Value) (n : Nat) : (c.exactlyAs (.char n)).getD c = c.withoutTrailingSpaces := by
  cases c <;> rfl

theorem exactlyAs_other {c c' : Value} {t : DataType} (ht : t.isNumeric = false) (hchar : ∀ n, t ≠ .char n)
    (h : c.exactlyAs t = some c') : c' = c := by
  unfold Value.exactlyAs at h
  split at h
  · cases h
    rfl
  · split at h <;> first | (cases ht; done) | (cases h; done) | exact absurd rfl (hchar _)

/-- The constant in a comparison is converted without changing what the comparison yields. -/
theorem matched_constants_compare (hconv : Conversions) (e : Expression C) (t : DataType)
    (he : e.dtype = some t) (c : Value) :
    ∃ c', matchConstantToOtherSide e (.constant (some c)) = (e, .constant (some c')) ∧
      matchConstantToOtherSide (.constant (some c)) e = (.constant (some c'), e) ∧
      (∀ op : Op, op.isComparison = true → ∀ x : Value, x.dataType = t.valueType →
        (t.isNumeric = true → x.compare? c' = x.compare? c ∧
          evalBinary op (some x) (some c') = evalBinary op (some x) (some c) ∧
          evalBinary op (some c') (some x) = evalBinary op (some c) (some x)) ∧
        (∀ n, t = .char n → x.compare? c' = x.compare? c.withoutTrailingSpaces ∧
          evalBinary op (some x) (some c') = evalBinary op (some x) (some c.withoutTrailingSpaces) ∧
          evalBinary op (some c') (some x) = evalBinary op (some c.withoutTrailingSpaces) (some x))) ∧
      (t.isNumeric = false → (∀ n, t ≠ .char n) → c' = c) := by
  obtain ⟨hright, hleft⟩ := matchConstantToOtherSide_placed e c
  have hplaced : placed e c = c ∨ ∃ v, c.exactlyAs t = some v ∧ placed e c = v := by
    unfold placed
    split
    · exact .inl rfl
    · rw [he, Option.bind_some]
      cases hc : c.exactlyAs t with
      | none => exact .inl rfl
      | some v => exact .inr ⟨v, rfl, rfl⟩
  refine ⟨placed e c, hright, hleft, fun op hop x hx => ⟨fun ht => ?_, fun n hn => ?_⟩, fun ht hchar => ?_⟩
  · have hvt : t.valueType = t := by cases t <;> first | rfl | cases ht
    rw [hvt] at hx
    have hsame : placed e c = c ∨ ∃ o, x.compare? (placed e c) = some o ∧ x.compare? c = some o := by
      rcases hplaced with hp | ⟨v, hv, hp⟩
      · exact .inl hp
      · rw [hp]
        exact (exactlyAs_converted ht hv).compare hconv hx ht
    refine ⟨?_, evalBinary_congr hop hsame⟩
    rcases hsame with hp | ⟨o, hc', hc⟩
    · rw [hp]
    · rw [hc', hc]
  · have hchar : placed e c = c.withoutTrailingSpaces := by
      subst hn
      unfold placed
      split
      · exact absurd he (dtype_constant_ne_char _ n)
      · rw [he, Option.bind_some, exactlyAs_char]
    rw [hchar]
    exact ⟨rfl, rfl, rfl⟩
  · rcases hplaced with hp | ⟨v, hv, hp⟩
    · exact hp
    · rw [hp, exactlyAs_other ht hchar hv]

end

/-! ## The conversions of the processor -/

namespace F64

/-- `i as f64`: the nearest double, of two as near the even one. -/
def ofInt (i : Int) : F64 := ⟨UInt64.ofNat ((if i < 0 then signBit else 0) + Double.ofNat i.natAbs)⟩

def isWhole (f : F64) : Bool := f.isFinite && f.units % Double.one == 0

/-- `f as i64`: towards zero, and to the nearest integer there is. -/
def toInt (f : F64) : Int64 :=
  if f.isNan then 0 else Int64.ofInt (max (-2 ^ 63) (min (2 ^ 63 - 1) (f.units.tdiv Double.one)))

theorem ofNat_lt_infinity {n : Nat} (h : n ≤ 2 ^ 63) : Double.ofNat n < infinity := by
  have hlast : Double.ofNat (2 ^ 63) < infinity := by decide +kernel
  exact (Double.ofNat_mono h).trans_lt hlast

theorem toNat_ofInt {i : Int} (h : i.natAbs ≤ 2 ^ 63) :
    (ofInt i).bits.toNat = (if i < 0 then signBit else 0) + Double.ofNat i.natAbs := by
  have hlt := ofNat_lt_infinity h
  have hinf : infinity < 2 ^ 63 := by decide
  have hsign : signBit = 2 ^ 63 := rfl
  rw [ofInt, UInt64.toNat_ofNat_of_lt']
  show _ < 2 ^ 64
  split <;> omega

theorem magnitude_ofInt {i : Int} (h : i.natAbs ≤ 2 ^ 63) : (ofInt i).magnitude = Double.ofNat i.natAbs := by
  have hlt := ofNat_lt_infinity h
  have hinf : infinity < 2 ^ 63 := by decide
  rw [magnitude, toNat_ofInt h, signBit]
  split <;> omega

theorem isNegative_ofInt {i : Int} (h : i.natAbs ≤ 2 ^ 63) : (ofInt i).isNegative = decide (i < 0) := by
  have hlt := ofNat_lt_infinity h
  have hinf : infinity < 2 ^ 63 := by decide
  rw [isNegative, toNat_ofInt h, signBit, decide_eq_decide]
  split <;> omega

theorem isFinite_ofInt {i : Int} (h : i.natAbs ≤ 2 ^ 63) : (ofInt i).isFinite = true := by
  rw [isFinite, magnitude_ofInt h]
  exact decide_eq_true (ofNat_lt_infinity h)

theorem rank_ofInt {i : Int} (h : i.natAbs ≤ 2 ^ 63) :
    (ofInt i).rank = if i < 0 then -(Double.ofNat i.natAbs : Int) else Double.ofNat i.natAbs := by
  rw [rank_of_finite (isFinite_ofInt h), isNegative_ofInt h, magnitude_ofInt h]
  simp

theorem rank_ofInt_mono {i j : Int} (hi : i.natAbs ≤ 2 ^ 63) (hj : j.natAbs ≤ 2 ^ 63) (h : i ≤ j) :
    (ofInt i).rank ≤ (ofInt j).rank := by
  rw [rank_ofInt hi, rank_ofInt hj]
  split
  · split
    · have hmono := Double.ofNat_mono (show j.natAbs ≤ i.natAbs by omega)
      omega
    · omega
  · rw [if_neg (by omega)]
    have hmono := Double.ofNat_mono (show i.natAbs ≤ j.natAbs by omega)
    omega

theorem stands_ofInt {i : Int} (h : i.natAbs ≤ 2 ^ 53) : (ofInt i).Stands i := by
  have h63 : i.natAbs ≤ 2 ^ 63 := by omega
  refine ⟨isFinite_ofInt h63, ?_⟩
  rw [units, isNegative_ofInt h63, magnitude_ofInt h63, Double.units_ofNat h, Int.natCast_mul]
  by_cases hneg : i < 0
  · have habs : (i.natAbs : Int) = -i := by omega
    rw [habs, Int.neg_mul, decide_eq_true hneg, if_pos rfl, Int.neg_neg]
  · have habs : (i.natAbs : Int) = i := by omega
    simp [hneg, habs]

theorem toInt_of_stands {f : F64} {i : Int} (h : f.Stands i) (hin : inI64 i) : f.toInt.toInt = i := by
  have hnan : f.isNan = false := by
    have hfinite := h.1
    simp only [isFinite, isNan, decide_eq_true_eq, decide_eq_false_iff_not] at *
    omega
  have hone : (Double.one : Int) ≠ 0 := by
    have := Double.one_pos
    omega
  simp only [inI64, decide_eq_true_eq] at hin
  rw [toInt, hnan, h.2, Int.mul_tdiv_cancel _ hone]
  have hclamp : max (-2 ^ 63) (min (2 ^ 63 - 1) i) = i := by omega
  simp only [Bool.false_eq_true, if_false, hclamp]
  exact Int64.toInt_ofInt_of_le hin.1 hin.2

end F64

@[reducible] def FloatUnit.converting : FloatUnit where
  add a _ := a
  sub a _ := a
  mul a _ := a
  div a _ := a
  ofInt := F64.ofInt
  toInt := F64.toInt
  isWhole := F64.isWhole
  parse _ := none

theorem converting_conversions : @Conversions FloatUnit.converting := by
  have hnat : ∀ i : Int, inI64 i → i.natAbs ≤ 2 ^ 63 := by
    intro i hi
    simp only [inI64, decide_eq_true_eq] at hi
    omega
  refine @Conversions.mk FloatUnit.converting ?_ ?_ ?_ ?_
  · intro i j hi hj hij
    exact F64.rank_ofInt_mono (hnat i hi) (hnat j hj) hij
  · intro i hi
    exact F64.stands_ofInt hi
  · intro f hwhole hfinite
    have hmod : f.units % Double.one = 0 := by
      have h : F64.isWhole f = true := hwhole
      rw [F64.isWhole, hfinite, Bool.true_and, beq_iff_eq] at h
      exact h
    exact ⟨f.units / Double.one, hfinite, (Int.ediv_mul_cancel (Int.dvd_of_emod_eq_zero hmod)).symm⟩
  · intro f i hf hi
    exact F64.toInt_of_stands hf hi

theorem matched_constants_compare_two :
    (Expression.column 0 .bigint : Expression Nat).dtype = some .bigint ∧
      ∃ c', @matchConstantToOtherSide FloatUnit.converting Nat (.column 0 .bigint)
        (.constant (some (.float ⟨0x4000000000000000⟩))) =
        (.column 0 .bigint, .constant (some c')) := by
  refine ⟨rfl, ?_⟩
  obtain ⟨c', hright, -⟩ :=
    @matched_constants_compare FloatUnit.converting Nat converting_conversions (.column 0 .bigint) .bigint rfl
      (.float ⟨0x4000000000000000⟩)
  exact ⟨c', hright⟩

end Cmudb.Sql
