import Mathlib.Algebra.Ring.Int.Defs
import Cmudb.Sql.Executor

/-!
# Aggregates

An aggregate is a running state that one value at a time is folded into. COUNT
and RANK are 32-bit counters: `checks` says whether the program was built with
overflow checks, with which a counter that passes its maximum panics and without
which it wraps. `AggregateIs` says what an aggregate over some values is, with
no mention of counters.
-/

namespace Cmudb.Sql

open Std

inductive AggType where
  | max
  | min
  | sum
  | avg
  | count
  | rank
  deriving DecidableEq, Repr

def AggType.resultType (t : AggType) (arg : DataType) : Option DataType :=
  match t with
  | count | rank => some .int
  | min | max => some arg
  | sum =>
    match arg with
    | .int | .bigint => some .bigint
    | .float => some .float
    | _ => none
  | avg => if arg.isNumeric then some .float else none

inductive AggState where
  | max (v : Option Value)
  | min (v : Option Value)
  | sum (v : Option Value)
  | avg (sum : F64) (count : Int64)
  | count (n : Int32)
  | rank (n : Int32)
  deriving DecidableEq, Repr

def increment32 (checks : Bool) (n : Int32) : Except Stop Int32 :=
  if checks ∧ n = Int32.maxValue then .error .panicked else .ok (n + 1)

def increment64 (checks : Bool) (n : Int64) : Except Stop Int64 :=
  if checks ∧ n = Int64.maxValue then .error .panicked else .ok (n + 1)

theorem increment32_ofNat {checks : Bool} {n : Nat} (h : checks → n ≤ 2 ^ 31 - 1) :
    increment32 checks (Int32.ofNat n) =
      if checks ∧ n = 2 ^ 31 - 1 then .error .panicked else .ok (Int32.ofNat (n + 1)) := by
  have hiff : checks → (Int32.ofNat n = Int32.maxValue ↔ n = 2 ^ 31 - 1) := by
    intro hc
    have hn : (Int32.ofNat n).toInt = n := Int32.toInt_ofNat_of_lt (by have := h hc; omega)
    rw [← Int32.toInt_inj, hn, show Int32.maxValue.toInt = 2 ^ 31 - 1 from rfl]
    omega
  unfold increment32
  rw [Int32.ofNat_add]
  cases checks with
  | false => simp
  | true => simp only [hiff rfl, true_and]; rfl

theorem increment64_ofNat {checks : Bool} {n : Nat} (h : checks → n ≤ 2 ^ 63 - 1) :
    increment64 checks (Int64.ofNat n) =
      if checks ∧ n = 2 ^ 63 - 1 then .error .panicked else .ok (Int64.ofNat (n + 1)) := by
  have hiff : checks → (Int64.ofNat n = Int64.maxValue ↔ n = 2 ^ 63 - 1) := by
    intro hc
    have hn : (Int64.ofNat n).toInt = n := Int64.toInt_ofNat_of_lt (by have := h hc; omega)
    rw [← Int64.toInt_inj, hn, show Int64.maxValue.toInt = 2 ^ 63 - 1 from rfl]
    omega
  unfold increment64
  rw [Int64.ofNat_add]
  cases checks with
  | false => simp
  | true => simp only [hiff rfl, true_and]; rfl

/-- `a.max(b)`, which is `b` when the two are equal. -/
def Value.greater (a b : Value) : Value := if a.cmp b == .gt then a else b

/-- `a.min(b)`, which is `a` when the two are equal. -/
def Value.lesser (a b : Value) : Value := if a.cmp b == .gt then b else a

def sumOperand : Value → Value
  | .int i => .bigint (Int64.ofInt i.toInt)
  | other => other

section
variable [FloatUnit]

def addTo (total : Option Value) (v : Value) : Except ExecutorError Value :=
  match total with
  | some total => Arithmetic.add.apply total v
  | none => .ok v

end

namespace AggState

def new : AggType → AggState
  | .avg => avg F64.zero 0
  | .max => max none
  | .min => min none
  | .sum => sum none
  | .count => count 0
  | .rank => rank 1

def updateRank (newPeerGroup : Bool) (pos : Int32) : AggState → AggState
  | rank n => if newPeerGroup then rank pos else rank n
  | st => st

section
variable [FloatUnit]

def update (checks : Bool) (st : AggState) : Option Value → Except Stop AggState
  | none => .ok st
  | some v =>
    match st with
    | count n => (increment32 checks n).map count
    | sum current => (failing (addTo current (sumOperand v))).map fun total => sum (some total)
    | avg total n =>
      match v.asF64 with
      | none => .error (.failed (.arithmeticOperands .add (.float total) v))
      | some operand => (increment64 checks n).map fun n => avg (FloatUnit.add total operand) n
    | max current => .ok (max (some (current.elim v fun c => c.greater v)))
    | min current => .ok (min (some (current.elim v fun c => c.lesser v)))
    | rank n => .ok (rank n)

def value : AggState → Option Value
  | sum v | max v | min v => v
  | count n | rank n => some (.int n)
  | avg total n => if n = 0 then none else some (.float (FloatUnit.div total (FloatUnit.ofInt n.toInt)))

end

end AggState

abbrev Aggregate := Expression ColIdx × AggType

namespace AggregateState

def new (aggregates : List Aggregate) : List AggState := aggregates.map fun a => AggState.new a.2

def updateRank (newPeerGroup : Bool) (pos : Int32) (states : List AggState) : List AggState :=
  states.map (AggState.updateRank newPeerGroup pos)

variable [FloatUnit]

def update (checks : Bool) (schema : Schema) (tuple : Bytes) :
    List AggState → List Aggregate → Except Stop (List AggState)
  | st :: states, (expr, _) :: aggregates => do
    let v ← failing (expr.evaluate tuple schema)
    let st ← st.update checks v
    let states ← update checks schema tuple states aggregates
    .ok (st :: states)
  | states, _ => .ok states

/-- The values `append_values` appends. -/
def values (states : List AggState) : List (Option Value) := states.map AggState.value

end AggregateState

/-! ## What an aggregate is -/

section
variable [FloatUnit]

def sumOf (vals : List Value) : Except ExecutorError (Option Value) :=
  vals.foldlM (fun total v => (addTo total (sumOperand v)).map some) none

def isInteger (v : Value) : Prop := v.dataType = .int ∨ v.dataType = .bigint

def intOf (v : Value) : Int := v.asI64.getD 0

def floatOf (v : Value) : F64 := v.asF64.getD F64.zero

/-- `r` is the aggregate over `vals`, the values that are not NULL. RANK depends on no values. -/
def AggregateIs (t : AggType) (vals : List Value) (r : Option Value) : Prop :=
  match t with
  | .count => ∃ n : Int32, r = some (.int n) ∧ n.toInt = vals.length
  | .sum => sumOf vals = .ok r ∧ (vals = [] → r = none) ∧
      (vals ≠ [] → (∀ v ∈ vals, isInteger v) → ∃ n : Int64, r = some (.bigint n) ∧ n.toInt = (vals.map intOf).sum)
  | .min => (vals = [] ∧ r = none) ∨ ∃ v ∈ vals, r = some v ∧ ∀ u ∈ vals, (v.cmp u).isLE
  | .max => (vals = [] ∧ r = none) ∨ ∃ v ∈ vals, r = some v ∧ ∀ u ∈ vals, (u.cmp v).isLE
  | .avg => (vals = [] ∧ r = none) ∨ vals ≠ [] ∧
      r =
        some
        (.float (FloatUnit.div ((vals.map floatOf).foldl FloatUnit.add F64.zero) (FloatUnit.ofInt vals.length)))
  | .rank => True

end

/-! ## Sums -/

theorem sumOperand_integer {v : Value} (h : isInteger v) :
    ∃ n : Int64, sumOperand v = .bigint n ∧ n.toInt = intOf v := by
  cases v with
  | int i =>
    refine ⟨Int64.ofInt i.toInt, rfl, ?_⟩
    have h1 := i.le_toInt
    have h2 := i.toInt_lt
    exact Int64.toInt_ofInt_of_le (by omega) (by omega)
  | bigint i => exact ⟨i, rfl, rfl⟩
  | _ => simp [isInteger, Value.dataType] at h

section
variable [FloatUnit]

theorem add_bigint (a b : Int64) :
    Arithmetic.add.apply (.bigint a) (.bigint b) =
      if inI64 (a.toInt + b.toInt) then .ok (.bigint (Int64.ofInt (a.toInt + b.toInt)))
      else .error (.integerOverflow .add a.toInt b.toInt) := by
  simp only [Arithmetic.apply, Value.dataType, DataType.commonNumeric, DataType.numericRank, Value.coerceTo,
    Arithmetic.applyInteger, Arithmetic.exact, Nat.le_refl, if_true, reduceCtorEq, false_and, if_false,
    Bool.and_self]
  split <;> rfl

theorem sumOf_concat {vals : List Value} {r : Option Value} (h : sumOf vals = .ok r) (v : Value) :
    sumOf (vals ++ [v]) = (addTo r (sumOperand v)).map some := by
  rw [sumOf, Lib.foldlM_concat h]

/-- The sum of integers is exact, or it leaves the range of a BIGINT on the way. -/
theorem sumOf_integers {vals : List Value} (h : ∀ v ∈ vals, isInteger v) :
    (∃ r, sumOf vals = .ok r ∧ (vals = [] → r = none) ∧
      (vals ≠ [] → ∃ n : Int64, r = some (.bigint n) ∧ n.toInt = (vals.map intOf).sum)) ∨
    ∃ p rest a b, vals = p ++ rest ∧ ¬ inI64 (p.map intOf).sum ∧
    sumOf vals = .error (.integerOverflow .add a b) := by
  induction vals using List.reverseRecOn with
  | nil => exact .inl ⟨none, rfl, fun _ => rfl, fun hne => absurd rfl hne⟩
  | append_singleton vals v ih =>
    obtain ⟨m, hm, hmv⟩ := sumOperand_integer (h v (by simp))
    rcases ih (fun u hu => h u (by simp [hu])) with ⟨r, hr, hnil, hsum⟩ | ⟨p, rest, a, b, rfl, hp, herr⟩
    · by_cases hv : vals = []
      · subst hv
        refine .inl ⟨some (.bigint m), ?_, by simp, fun _ => ⟨m, rfl, by simp [hmv]⟩⟩
        rw [sumOf_concat hr, hnil rfl, hm]
        rfl
      · obtain ⟨n, rfl, hn⟩ := hsum hv
        have hadd := sumOf_concat hr v
        rw [hm, addTo, add_bigint] at hadd
        by_cases hin : inI64 (n.toInt + m.toInt)
        · rw [if_pos hin] at hadd
          refine .inl ⟨_, hadd, by simp, fun _ => ⟨_, rfl, ?_⟩⟩
          simp only [inI64, decide_eq_true_eq] at hin
          rw [Int64.toInt_ofInt_of_le hin.1 hin.2, hn, hmv]
          simp
        · rw [if_neg hin] at hadd
          refine .inr ⟨vals ++ [v], [], n.toInt, m.toInt, by simp, ?_, hadd⟩
          simpa [hn, hmv] using hin
    · refine .inr ⟨p, rest ++ [v], a, b, by simp, hp, ?_⟩
      exact Lib.foldlM_error_append herr [v]

end

/-! ## Least and greatest values -/

theorem Value.greater_spec {vals : List Value} {c : Value} (h : ∀ u ∈ vals, (u.cmp c).isLE) (v : Value) :
    ∀ u ∈ vals ++ [v], (u.cmp (c.greater v)).isLE := by
  intro u hu
  unfold Value.greater
  split
  case isTrue hgt =>
    rcases List.mem_append.mp hu with hu | hu
    · exact h u hu
    · obtain rfl : u = v := by simpa using hu
      rw [@OrientedCmp.eq_swap _ Value.cmp, beq_iff_eq.mp hgt]
      rfl
  case isFalse hle =>
    have hcv : (c.cmp v).isLE := by cases hc : c.cmp v <;> simp_all
    rcases List.mem_append.mp hu with hu | hu
    · exact TransCmp.isLE_trans (h u hu) hcv
    · obtain rfl : u = v := by simpa using hu
      simp [ReflCmp.compare_self]

theorem Value.lesser_spec {vals : List Value} {c : Value} (h : ∀ u ∈ vals, (c.cmp u).isLE) (v : Value) :
    ∀ u ∈ vals ++ [v], ((c.lesser v).cmp u).isLE := by
  intro u hu
  unfold Value.lesser
  split
  case isTrue hgt =>
    have hvc : (v.cmp c).isLE := by
      rw [@OrientedCmp.eq_swap _ Value.cmp, beq_iff_eq.mp hgt]
      rfl
    rcases List.mem_append.mp hu with hu | hu
    · exact TransCmp.isLE_trans hvc (h u hu)
    · obtain rfl : u = v := by simpa using hu
      simp [ReflCmp.compare_self]
  case isFalse hle =>
    rcases List.mem_append.mp hu with hu | hu
    · exact h u hu
    · obtain rfl : u = v := by simpa using hu
      cases hc : c.cmp u <;> simp_all

/-! ## The running state -/

section
variable [FloatUnit] {t : AggType} {vals : List Value} {checks : Bool} {schema : Schema} {rows : List Bytes}

/-- The state after the values `vals`, counters being kept modulo their width. -/
def StateIs (t : AggType) (vals : List Value) : AggState → Prop
  | .count n => t = .count ∧ n = Int32.ofNat vals.length
  | .sum r => t = .sum ∧ sumOf vals = .ok r
  | .avg total n => t = .avg ∧ total = (vals.map floatOf).foldl FloatUnit.add F64.zero ∧ n = Int64.ofNat vals.length
  | .max r => t = .max ∧ AggregateIs .max vals r
  | .min r => t = .min ∧ AggregateIs .min vals r
  | .rank _ => t = .rank

theorem stateIs_new (t : AggType) : StateIs t [] (AggState.new t) := by
  cases t with
  | sum => exact ⟨rfl, rfl⟩
  | max => exact ⟨rfl, .inl ⟨rfl, rfl⟩⟩
  | min => exact ⟨rfl, .inl ⟨rfl, rfl⟩⟩
  | avg => exact ⟨rfl, rfl, rfl⟩
  | count => exact ⟨rfl, rfl⟩
  | rank => rfl

theorem StateIs.update {st st' : AggState} (h : StateIs t vals st) {v : Value}
    (hu : st.update checks (some v) = .ok st') : StateIs t (vals ++ [v]) st' := by
  cases st with
  | count n =>
    obtain ⟨rfl, rfl⟩ := h
    simp only [AggState.update, increment32] at hu
    split at hu
    · cases hu
    · cases hu
      refine ⟨rfl, ?_⟩
      simp [Int32.ofNat_add]
  | avg total n =>
    obtain ⟨rfl, rfl, rfl⟩ := h
    simp only [AggState.update, increment64] at hu
    split at hu
    · cases hu
    · rename_i operand ho
      split at hu
      · cases hu
      · cases hu
        refine ⟨rfl, ?_, ?_⟩
        · simp [floatOf, ho]
        · simp [Int64.ofNat_add]
  | sum r =>
    obtain ⟨rfl, hr⟩ := h
    simp only [AggState.update] at hu
    cases ha : addTo r (sumOperand v) with
    | error e => rw [ha] at hu; cases hu
    | ok total =>
      rw [ha] at hu
      cases hu
      refine ⟨rfl, ?_⟩
      rw [sumOf_concat hr, ha]
      rfl
  | max r =>
    obtain ⟨rfl, hr⟩ := h
    cases hu
    refine ⟨rfl, .inr ?_⟩
    rcases hr with ⟨rfl, rfl⟩ | ⟨c, hc, rfl, hle⟩
    · exact ⟨v, by simp, rfl, by simp [ReflCmp.compare_self]⟩
    · refine ⟨c.greater v, ?_, rfl, Value.greater_spec hle v⟩
      unfold Value.greater
      split <;> simp [hc]
  | min r =>
    obtain ⟨rfl, hr⟩ := h
    cases hu
    refine ⟨rfl, .inr ?_⟩
    rcases hr with ⟨rfl, rfl⟩ | ⟨c, hc, rfl, hle⟩
    · exact ⟨v, by simp, rfl, by simp [ReflCmp.compare_self]⟩
    · refine ⟨c.lesser v, ?_, rfl, Value.lesser_spec hle v⟩
      unfold Value.lesser
      split <;> simp [hc]
  | rank n =>
    cases hu
    exact h

/-- How many values an aggregate can count. -/
def AggType.limit : AggType → Option Nat
  | .count => some (2 ^ 31 - 1)
  | .avg => some (2 ^ 63 - 1)
  | _ => none

def CountFits (t : AggType) (n : Nat) : Prop := ∀ m, t.limit = some m → n ≤ m

omit [FloatUnit] in
theorem countFits_of_lt {n : Nat} (h : n < 2 ^ 31) : CountFits t n := by
  intro m hm
  cases t <;> simp [AggType.limit] at hm <;> omega

theorem StateIs.value {st : AggState} (h : StateIs t vals st) (hfit : CountFits t vals.length)
    : t = .rank ∨ AggregateIs t vals st.value := by
  cases st with
  | count n =>
    obtain ⟨rfl, rfl⟩ := h
    refine .inr ⟨_, rfl, ?_⟩
    have := hfit _ rfl
    exact Int32.toInt_ofNat_of_lt (by omega)
  | avg total n =>
    obtain ⟨rfl, rfl, rfl⟩ := h
    have hle := hfit _ rfl
    have hn : (Int64.ofNat vals.length).toInt = vals.length := Int64.toInt_ofNat_of_lt (by omega)
    right
    by_cases hv : vals = []
    · subst hv
      exact .inl ⟨rfl, rfl⟩
    · refine .inr ⟨hv, ?_⟩
      have hne : Int64.ofNat vals.length ≠ 0 := by
        intro hz
        rw [hz] at hn
        have : vals.length = 0 := by simpa using hn.symm
        exact hv (List.length_eq_zero_iff.mp this)
      simp [AggState.value, hne, hn]
  | sum r =>
    obtain ⟨rfl, hr⟩ := h
    refine .inr ⟨hr, ?_, ?_⟩
    · intro hv
      subst hv
      cases hr
      rfl
    · intro hv hint
      rcases sumOf_integers hint with ⟨r', hr', _, hsum⟩ | ⟨_, _, _, _, _, _, herr⟩
      · rw [hr] at hr'
        cases hr'
        exact hsum hv
      · rw [hr] at herr
        cases herr
  | max r => exact .inr (h.1 ▸ h.2)
  | min r => exact .inr (h.1 ▸ h.2)
  | rank n => exact .inl h

def Rejects (t : AggType) (vals : List Value) (v : Value) (e : ExecutorError) : Prop :=
  (t = .sum ∧ sumOf (vals ++ [v]) = .error e) ∨
    (t = .avg ∧ v.asF64 = none ∧ ∃ total, e = .arithmeticOperands .add total v)

theorem StateIs.update_cases {st : AggState} (h : StateIs t vals st) (hfit : checks → CountFits t vals.length)
    (v : Value) :
    (∃ e, Rejects t vals v e ∧ st.update checks (some v) = .error (.failed e)) ∨
      ((∀ e, ¬ Rejects t vals v e) ∧ checks ∧ ¬ CountFits t (vals.length + 1) ∧
        st.update checks (some v) = .error .panicked) ∨
      ((∀ e, ¬ Rejects t vals v e) ∧ (checks → CountFits t (vals.length + 1)) ∧
        ∃ st', st.update checks (some v) = .ok st') := by
  cases st with
  | count n =>
    obtain ⟨rfl, rfl⟩ := h
    have hno : ∀ e, ¬ Rejects .count vals v e := by intro e; simp [Rejects]
    have hinc := increment32_ofNat (n := vals.length) fun hc => hfit hc _ rfl
    right
    by_cases hfull : checks ∧ vals.length = 2 ^ 31 - 1
    · rw [if_pos hfull] at hinc
      refine .inl ⟨hno, hfull.1, ?_, by simp [AggState.update, hinc, Except.map]⟩
      intro hx
      have := hx _ rfl
      omega
    · rw [if_neg hfull] at hinc
      refine .inr ⟨hno, ?_, _, by simp [AggState.update, hinc, Except.map]; rfl⟩
      intro hc m hm
      cases hm
      have := hfit hc _ rfl
      have : vals.length ≠ 2 ^ 31 - 1 := fun he => hfull ⟨hc, he⟩
      omega
  | avg total n =>
    obtain ⟨rfl, rfl, rfl⟩ := h
    simp only [AggState.update]
    cases hv : v.asF64 with
    | none => exact .inl ⟨_, .inr ⟨rfl, hv, _, rfl⟩, rfl⟩
    | some x =>
      have hno : ∀ e, ¬ Rejects .avg vals v e := by intro e; simp [Rejects, hv]
      have hinc := increment64_ofNat (n := vals.length) fun hc => hfit hc _ rfl
      right
      by_cases hfull : checks ∧ vals.length = 2 ^ 63 - 1
      · rw [if_pos hfull] at hinc
        refine .inl ⟨hno, hfull.1, ?_, by simp [hinc, Except.map]⟩
        intro hx
        have := hx _ rfl
        omega
      · rw [if_neg hfull] at hinc
        refine .inr ⟨hno, ?_, _, by simp [hinc, Except.map]; rfl⟩
        intro hc m hm
        cases hm
        have := hfit hc _ rfl
        have : vals.length ≠ 2 ^ 63 - 1 := fun he => hfull ⟨hc, he⟩
        omega
  | sum r =>
    obtain ⟨rfl, hr⟩ := h
    simp only [AggState.update]
    have hnext := sumOf_concat hr v
    cases ha : addTo r (sumOperand v) with
    | error e =>
      rw [ha] at hnext
      exact .inl ⟨e, .inl ⟨rfl, hnext⟩, rfl⟩
    | ok total =>
      rw [ha] at hnext
      refine .inr (.inr ⟨?_, ?_, _, rfl⟩)
      · intro e
        simp [Rejects, hnext, Except.map]
      · intro _ m hm
        cases hm
  | _ =>
    refine .inr (.inr ⟨?_, ?_, _, rfl⟩)
    · intro e
      simp only [StateIs] at h
      simp [Rejects, h]
    · intro _ m hm
      simp only [StateIs] at h
      simp [AggType.limit, h] at hm

/-! ## The aggregates of a plan -/

def argValues (schema : Schema) (e : Expression ColIdx) (rows : List Bytes) : List Value :=
  rows.filterMap fun t => (e.evaluate t schema).toOption.join

def Evaluates (schema : Schema) (e : Expression ColIdx) (rows : List Bytes) : Prop :=
  ∀ t ∈ rows, ∃ v, e.evaluate t schema = .ok v

theorem argValues_append (schema : Schema) (e : Expression ColIdx) (rows rest : List Bytes) :
    argValues schema e (rows ++ rest) = argValues schema e rows ++ argValues schema e rest := List.filterMap_append

theorem argValues_concat {e : Expression ColIdx} {t : Bytes} {v : Option Value}
    (h : e.evaluate t schema = .ok v) (rows : List Bytes) :
    argValues schema e (rows ++ [t]) = argValues schema e rows ++ v.toList := by
  cases v <;> simp [argValues, h, Except.toOption]

theorem evaluates_concat {e : Expression ColIdx} {t : Bytes} {v : Option Value}
    (h : e.evaluate t schema = .ok v) (hr : Evaluates schema e rows) :
    Evaluates schema e (rows ++ [t]) := by
  intro u hu
  rcases List.mem_append.mp hu with hu | hu
  · exact hr u hu
  · obtain rfl : u = t := by simpa using hu
    exact ⟨v, h⟩

structure StateAfter (checks : Bool) (schema : Schema) (rows : List Bytes) (a : Aggregate)
    (st : AggState) : Prop where
  evaluates : Evaluates schema a.1 rows
  state : StateIs a.2 (argValues schema a.1 rows) st
  fits : checks → CountFits a.2 (argValues schema a.1 rows).length

theorem StateAfter.next {a : Aggregate} {st st' : AggState} (h : StateAfter checks schema rows a st) {t : Bytes}
    {v : Option Value} (hv : a.1.evaluate t schema = .ok v) (hu : st.update checks v = .ok st')
    : StateAfter checks schema (rows ++ [t]) a st' := by
  refine ⟨evaluates_concat hv h.evaluates, ?_, ?_⟩
  · rw [argValues_concat hv]
    cases v with
    | none => cases hu; simpa using h.state
    | some v => exact h.state.update hu
  · intro hc
    rw [argValues_concat hv]
    cases v with
    | none => simpa using h.fits hc
    | some v =>
      rcases h.state.update_cases h.fits v with ⟨e, _, hx⟩ | ⟨_, _, _, hx⟩ | ⟨_, hfits, _⟩
      · rw [hu] at hx; cases hx
      · rw [hu] at hx; cases hx
      · simpa using hfits hc

abbrev StatesAre (checks : Bool) (schema : Schema) (rows : List Bytes) : List Aggregate → List AggState → Prop :=
  List.Forall₂ (StateAfter checks schema rows)

theorem statesAre_new (checks : Bool) (schema : Schema) (aggregates : List Aggregate) :
    StatesAre checks schema [] aggregates (AggregateState.new aggregates) := by
  induction aggregates with
  | nil => exact .nil
  | cons a aggregates ih =>
    refine .cons ⟨by simp [Evaluates], stateIs_new a.2, ?_⟩ ih
    intro _ m _
    simp [argValues]

/-- The row `t` goes through aggregate `a` after `rows`, whatever its counter does. -/
def Takes (schema : Schema) (rows : List Bytes) (t : Bytes) (a : Aggregate) : Prop :=
  ∃ v, a.1.evaluate t schema = .ok v ∧ ∀ u e, v = some u → ¬ Rejects a.2 (argValues schema a.1 rows) u e

/-- The counter of aggregate `a` is full when it meets the row `t` after `rows`. -/
def Overflows (schema : Schema) (rows : List Bytes) (t : Bytes) (a : Aggregate) : Prop :=
  ∃ u, a.1.evaluate t schema = .ok (some u) ∧ (∀ e, ¬ Rejects a.2 (argValues schema a.1 rows) u e) ∧
    ¬ CountFits a.2 ((argValues schema a.1 rows).length + 1)

def FailsOn (schema : Schema) (rows : List Bytes) (t : Bytes) (a : Aggregate) (e : ExecutorError) : Prop :=
  a.1.evaluate t schema = .error e ∨ ∃ u, a.1.evaluate t schema = .ok (some u) ∧
    Rejects a.2 (argValues schema a.1 rows) u e

theorem StateAfter.cases {a : Aggregate} {st : AggState} (h : StateAfter checks schema rows a st) (t : Bytes) :
    let r := failing (a.1.evaluate t schema) >>= fun v => st.update checks v
    (∃ e, FailsOn schema rows t a e ∧ r = .error (.failed e)) ∨
      (Overflows schema rows t a ∧ checks ∧ r = .error .panicked) ∨
      (Takes schema rows t a ∧ (checks → ¬ Overflows schema rows t a) ∧ ∃ st', r = .ok st' ∧
        StateAfter checks schema (rows ++ [t]) a st') := by
  intro r
  cases hv : a.1.evaluate t schema with
  | error e => exact .inl ⟨e, .inl hv, by simp [r, hv, failing]⟩
  | ok v =>
    have hr : r = st.update checks v := by simp [r, hv, failing]
    cases v with
    | none =>
      refine .inr (.inr ⟨⟨none, hv, by simp⟩, ?_, st, hr, h.next hv rfl⟩)
      intro _ ho
      obtain ⟨u, hu, _⟩ := ho
      rw [hv] at hu
      cases hu
    | some u =>
      rcases h.state.update_cases h.fits u with ⟨e, he, hx⟩ | ⟨hno, hc, hfull, hx⟩ | ⟨hno, hfits, st', hx⟩
      · exact .inl ⟨e, .inr ⟨u, hv, he⟩, hr.trans hx⟩
      · exact .inr (.inl ⟨⟨u, hv, hno, hfull⟩, hc, hr.trans hx⟩)
      · refine .inr (.inr ⟨⟨some u, hv, ?_⟩, ?_, st', hr.trans hx, h.next hv hx⟩)
        · intro u' e hu'
          cases hu'
          exact hno e
        · intro hc ho
          obtain ⟨u', hu', _, hfull⟩ := ho
          rw [hv] at hu'
          cases hu'
          exact hfull (hfits hc)

def Passes (checks : Bool) (schema : Schema) (rows : List Bytes) (t : Bytes) (a : Aggregate) : Prop :=
  Takes schema rows t a ∧ (checks → ¬ Overflows schema rows t a)

theorem StatesAre.cases {aggregates : List Aggregate} {states : List AggState}
    (h : StatesAre checks schema rows aggregates states) (t : Bytes) :
    (∃ l a r e, aggregates = l ++ a :: r ∧ (∀ b ∈ l, Passes checks schema rows t b) ∧ FailsOn schema rows t a e ∧
      AggregateState.update checks schema t states aggregates = .error (.failed e)) ∨
    (∃ l a r, aggregates = l ++ a :: r ∧ (∀ b ∈ l, Passes checks schema rows t b) ∧
      Overflows schema rows t a ∧ checks ∧
      AggregateState.update checks schema t states aggregates = .error .panicked) ∨
    ((∀ a ∈ aggregates, Passes checks schema rows t a) ∧ ∃ states',
      AggregateState.update checks schema t states aggregates = .ok states' ∧
      StatesAre checks schema (rows ++ [t]) aggregates states') := by
  induction h with
  | nil => exact .inr (.inr ⟨by simp, [], rfl, .nil⟩)
  | @cons a st aggregates states ha _ ih =>
    have hr : AggregateState.update checks schema t (st :: states) (a :: aggregates) =
        (failing (a.1.evaluate t schema) >>= fun v => st.update checks v) >>= fun st' =>
          AggregateState.update checks schema t states aggregates >>= fun states' => .ok (st' :: states') := by
      rw [bind_assoc]
      rfl
    rw [hr]
    rcases ha.cases t with ⟨e, hf, hx⟩ | ⟨ho, hc, hx⟩ | ⟨htake, hno, st', hx, hst⟩
    · exact .inl ⟨[], a, aggregates, e, rfl, by simp, hf, by rw [hx]; rfl⟩
    · exact .inr (.inl ⟨[], a, aggregates, rfl, by simp, ho, hc, by rw [hx]; rfl⟩)
    · rw [hx, Lib.ok_bind]
      rcases ih with ⟨l, b, r, e, rfl, hl, hf, hu⟩ | ⟨l, b, r, rfl, hl, ho, hc, hu⟩ | ⟨hall, states', hu, hs⟩
      · refine .inl ⟨a :: l, b, r, e, rfl, ?_, hf, by rw [hu]; rfl⟩
        exact List.forall_mem_cons.mpr ⟨⟨htake, hno⟩, hl⟩
      · refine .inr (.inl ⟨a :: l, b, r, rfl, ?_, ho, hc, by rw [hu]; rfl⟩)
        exact List.forall_mem_cons.mpr ⟨⟨htake, hno⟩, hl⟩
      · refine .inr (.inr ⟨?_, st' :: states', by rw [hu]; rfl, .cons hst hs⟩)
        exact List.forall_mem_cons.mpr ⟨⟨htake, hno⟩, hall⟩

end

end Cmudb.Sql
