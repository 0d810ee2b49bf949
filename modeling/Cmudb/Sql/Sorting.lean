import Mathlib.Data.List.Sort
import Cmudb.Sql.Executor

/-!
# Sorting rows

A row's ORDER BY keys are evaluated once and compared key by key, each in its
own direction and with its NULLs where the key says. `slice::sort_by` is stable,
so what `sortedByExprs` returns is the merge sort of the rows; `rowCmp` is the
order it sorts by, a lawful comparison.
-/

namespace Cmudb.Sql

open Std

inductive SortDirection where
  | ascending
  | descending
  deriving DecidableEq, Repr

inductive NullOrdering where
  | first
  | last
  deriving DecidableEq, Repr

def NullOrdering.defaultFor : SortDirection → NullOrdering
  | .ascending => .last
  | .descending => .first

structure SortExpr where
  expr : Expression ColIdx
  direction : SortDirection
  nulls : NullOrdering
  deriving DecidableEq, Repr

namespace SortExpr

def new (expr : Expression ColIdx) (direction : SortDirection) : SortExpr :=
  ⟨expr, direction, NullOrdering.defaultFor direction⟩

def ascending (expr : Expression ColIdx) : SortExpr := new expr .ascending

end SortExpr

structure SortValue where
  value : Option Value
  direction : SortDirection
  nulls : NullOrdering
  deriving DecidableEq, Repr

def NullOrdering.nullVsValue : NullOrdering → Ordering
  | first => .lt
  | last => .gt

def SortDirection.apply : SortDirection → Ordering → Ordering
  | ascending, o => o
  | descending, o => o.swap

/-- The order of one key, with the direction and the place of the NULLs it is sorted with. -/
def cmpKey (direction : SortDirection) (nulls : NullOrdering) : Option Value → Option Value → Ordering
  | none, none => .eq
  | none, some _ => nulls.nullVsValue
  | some _, none => nulls.nullVsValue.swap
  | some a, some b => direction.apply (a.cmp b)

def SortValue.cmp (a b : SortValue) : Ordering := cmpKey a.direction a.nulls a.value b.value

abbrev SortKey := List SortValue

def SortKey.cmp (a b : SortKey) : Ordering := List.compareLex SortValue.cmp a b

section
variable [FloatUnit]

def evalSortKey (orderBy : List SortExpr) (tuple : Bytes) (schema : Schema) : Except ExecutorError SortKey :=
  orderBy.mapM fun key => (key.expr.evaluate tuple schema).map fun v => ⟨v, key.direction, key.nulls⟩

def sortedByExprs {τ : Type} (rows : List τ) (tupleOf : τ → Bytes) (orderBy : List SortExpr) (schema : Schema) :
    Except ExecutorError (List τ) := do
  let keyed ← rows.mapM fun row => (evalSortKey orderBy (tupleOf row) schema).map fun key => (key, row)
  .ok ((keyed.mergeSort fun a b => (SortKey.cmp a.1 b.1).isLE).map Prod.snd)

end

/-! ## The order -/

theorem direction_trans (direction : SortDirection) : TransCmp fun a b : Value => direction.apply (a.cmp b) := by
  cases direction with
  | ascending => exact Value.cmp_trans
  | descending =>
    have h : (fun a b : Value => SortDirection.descending.apply (a.cmp b)) = fun a b => b.cmp a := by
      funext a b
      exact (@OrientedCmp.eq_swap _ Value.cmp _ b a).symm
    rw [h]
    infer_instance

instance cmpKey_trans (direction : SortDirection) (nulls : NullOrdering) : TransCmp (cmpKey direction nulls) where
  eq_swap := by
    intro a b
    cases a with
    | none => cases b <;> simp [cmpKey]
    | some a =>
      cases b with
      | none => simp [cmpKey]
      | some b => exact (direction_trans direction).eq_swap
  isLE_trans := by
    intro a b c hab hbc
    cases a with
    | none => cases b <;> cases c <;> cases nulls <;> simp_all [cmpKey, NullOrdering.nullVsValue]
    | some a =>
      cases b with
      | none => cases c <;> cases nulls <;> simp_all [cmpKey, NullOrdering.nullVsValue]
      | some b =>
        cases c with
        | none => cases nulls <;> simp_all [cmpKey, NullOrdering.nullVsValue]
        | some c => exact (direction_trans direction).isLE_trans hab hbc

def cmpKeys : List SortExpr → List (Option Value) → List (Option Value) → Ordering
  | key :: keys, a :: as, b :: bs => (cmpKey key.direction key.nulls a b).then (cmpKeys keys as bs)
  | _, [], _ :: _ => .lt
  | _, _ :: _, [] => .gt
  | _, _, _ => .eq

theorem cmpKeys_trans (keys : List SortExpr) : TransCmp (cmpKeys keys) := by
  induction keys with
  | nil =>
    refine @TransCmp.mk _ _ (@OrientedCmp.mk _ _ ?_) ?_
    · intro a b
      cases a <;> cases b <;> rfl
    · intro a b c hab hbc
      cases a <;> cases b <;> cases c <;> simp_all [cmpKeys]
  | cons key keys ih =>
    refine @TransCmp.mk _ _ (@OrientedCmp.mk _ _ ?_) ?_
    · intro a b
      cases a <;> cases b <;> try rfl
      rename_i a as b bs
      simp only [cmpKeys, Ordering.swap_then]
      rw [@OrientedCmp.eq_swap _ (cmpKey key.direction key.nulls) _ a b,
        @OrientedCmp.eq_swap _ (cmpKeys keys) _ as bs]
    · intro a b c hab hbc
      cases a <;> cases b <;> cases c <;> try (simp_all [cmpKeys]; done)
      rename_i a as b bs c cs
      simp only [cmpKeys, Ordering.isLE_then_iff_and] at *
      refine ⟨TransCmp.isLE_trans hab.1 hbc.1, ?_⟩
      rcases hab.2 with hlt | hle
      · exact .inl (TransCmp.lt_of_lt_of_isLE hlt hbc.1)
      · rcases hbc.2 with hlt' | hle'
        · exact .inl (TransCmp.lt_of_isLE_of_lt hab.1 hlt')
        · exact .inr (TransCmp.isLE_trans hle hle')

section
variable [FloatUnit]

/-- The values of a row's keys, and none if one does not evaluate. -/
def keyValues (orderBy : List SortExpr) (schema : Schema) (tuple : Bytes) : List (Option Value) :=
  ((orderBy.mapM fun (key : SortExpr) => key.expr.evaluate tuple schema).toOption).getD []

def rowCmp (orderBy : List SortExpr) (schema : Schema) (a b : Bytes) : Ordering :=
  cmpKeys orderBy (keyValues orderBy schema a) (keyValues orderBy schema b)

instance rowCmp_trans (orderBy : List SortExpr) (schema : Schema) : TransCmp (rowCmp orderBy schema) :=
  have := cmpKeys_trans orderBy
  transCmp_on (cmpKeys orderBy) (keyValues orderBy schema)

def KeysEvaluate (orderBy : List SortExpr) (schema : Schema) (tuple : Bytes) : Prop :=
  ∃ vals, (orderBy.mapM fun (key : SortExpr) => key.expr.evaluate tuple schema) = .ok vals

def withValues (orderBy : List SortExpr) (vals : List (Option Value)) : SortKey :=
  List.zipWith (fun key v => ⟨v, key.direction, key.nulls⟩) orderBy vals

theorem evalSortKey_eq {orderBy : List SortExpr} {schema : Schema} {tuple : Bytes} {vals : List (Option Value)}
    (h : (orderBy.mapM fun (key : SortExpr) => key.expr.evaluate tuple schema) = .ok vals) :
    evalSortKey orderBy tuple schema = .ok (withValues orderBy vals) ∧ vals.length = orderBy.length := by
  unfold evalSortKey
  induction orderBy generalizing vals with
  | nil => cases h; exact ⟨rfl, rfl⟩
  | cons key orderBy ih =>
    rw [List.mapM_cons] at h
    obtain ⟨v, hv, h⟩ := Lib.bind_eq_ok h
    obtain ⟨vs, hvs, h⟩ := Lib.bind_eq_ok h
    cases h
    obtain ⟨ih₁, ih₂⟩ := ih hvs
    refine ⟨?_, by simp [ih₂]⟩
    rw [List.mapM_cons, hv, ih₁]
    rfl

theorem keyValues_eq {orderBy : List SortExpr} {schema : Schema} {tuple : Bytes} {vals : List (Option Value)}
    (h : (orderBy.mapM fun (key : SortExpr) => key.expr.evaluate tuple schema) = .ok vals) :
    keyValues orderBy schema tuple = vals := by
  rw [keyValues, h]
  rfl

end

theorem withValues_cmp (orderBy : List SortExpr) (a b : List (Option Value)) (ha : a.length = orderBy.length)
    (hb : b.length = orderBy.length) :
    SortKey.cmp (withValues orderBy a) (withValues orderBy b) = cmpKeys orderBy a b := by
  induction orderBy generalizing a b with
  | nil =>
    rw [List.length_nil, List.length_eq_zero_iff] at ha hb
    subst ha hb
    rfl
  | cons key orderBy ih =>
    obtain ⟨x, a, rfl⟩ := List.exists_cons_of_length_eq_add_one (by simpa using ha)
    obtain ⟨y, b, rfl⟩ := List.exists_cons_of_length_eq_add_one (by simpa using hb)
    have hrest := ih a b (by simpa using ha) (by simpa using hb)
    simp only [SortKey.cmp, withValues, List.zipWith_cons_cons, List.compareLex_cons_cons, cmpKeys] at hrest ⊢
    rw [hrest]
    rfl

section
variable [FloatUnit] {τ : Type} {tupleOf : τ → Bytes} {orderBy : List SortExpr} {schema : Schema}

theorem evalSortKey_cmp {a b : Bytes} (ha : KeysEvaluate orderBy schema a) (hb : KeysEvaluate orderBy schema b) :
    SortKey.cmp (withValues orderBy (keyValues orderBy schema a))
      (withValues orderBy (keyValues orderBy schema b)) =
      rowCmp orderBy schema a b := by
  obtain ⟨va, ha⟩ := ha
  obtain ⟨vb, hb⟩ := hb
  rw [rowCmp, keyValues_eq ha, keyValues_eq hb]
  exact withValues_cmp orderBy va vb (evalSortKey_eq ha).2 (evalSortKey_eq hb).2

/-- The rows in their order; rows that compare equal keep the order they came in. -/
def sortRows (orderBy : List SortExpr) (schema : Schema) (tupleOf : τ → Bytes) (rows : List τ) : List τ :=
  rows.mergeSort fun a b => (rowCmp orderBy schema (tupleOf a) (tupleOf b)).isLE

theorem sortedByExprs_ok {rows : List τ} (h : ∀ r ∈ rows, KeysEvaluate orderBy schema (tupleOf r)) :
    sortedByExprs rows tupleOf orderBy schema = .ok (sortRows orderBy schema tupleOf rows) := by
  have hkeys : (rows.mapM fun row => (evalSortKey orderBy (tupleOf row) schema).map fun key => (key, row)) =
      .ok (rows.map fun row => (withValues orderBy (keyValues orderBy schema (tupleOf row)), row)) := by
    apply Lib.mapM_map_ok
    intro r hr
    obtain ⟨vals, hv⟩ := h r hr
    rw [(evalSortKey_eq hv).1, keyValues_eq hv]
    rfl
  rw [sortedByExprs, hkeys, Lib.ok_bind, sortRows]
  congr 1
  rw [← List.map_mergeSort (r := fun a b => (rowCmp orderBy schema (tupleOf a) (tupleOf b)).isLE), List.map_map]
  · exact List.map_id'' (fun _ => rfl) _
  · intro a ha b hb
    rw [evalSortKey_cmp (h a ha) (h b hb)]

theorem evalSortKey_inv {tuple : Bytes} {key : SortKey} (h : evalSortKey orderBy tuple schema = .ok key) :
    KeysEvaluate orderBy schema tuple := by
  cases hm : orderBy.mapM fun (key : SortExpr) => key.expr.evaluate tuple schema with
  | ok vals => exact ⟨vals, hm⟩
  | error e =>
    obtain ⟨p, k, rest, _, rfl, _, hk⟩ := Lib.mapM_eq_error hm
    obtain ⟨_, hx⟩ := Lib.mapM_ok_mem h (by simp : k ∈ p ++ k :: rest)
    rw [hk] at hx
    cases hx

theorem sortedByExprs_inv {rows sorted : List τ} (h : sortedByExprs rows tupleOf orderBy schema = .ok sorted) :
    ∀ r ∈ rows, KeysEvaluate orderBy schema (tupleOf r) := by
  obtain ⟨keyed, hk, _⟩ := Lib.bind_eq_ok h
  intro r hr
  obtain ⟨c, hc⟩ := Lib.mapM_ok_mem hk hr
  cases he : evalSortKey orderBy (tupleOf r) schema with
  | error e => rw [he] at hc; cases hc
  | ok key => exact evalSortKey_inv he

theorem sortRows_perm (rows : List τ) : (sortRows orderBy schema tupleOf rows).Perm rows := List.mergeSort_perm _ _

theorem sortRows_sorted (rows : List τ) :
    (sortRows orderBy schema tupleOf rows).Pairwise fun a b =>
    (rowCmp orderBy schema (tupleOf a) (tupleOf b)).isLE := by
  apply List.pairwise_mergeSort
  · intro a b c hab hbc
    exact TransCmp.isLE_trans hab hbc
  · intro a b
    rw [@OrientedCmp.eq_swap _ (rowCmp orderBy schema) _ (tupleOf b)]
    cases rowCmp orderBy schema (tupleOf a) (tupleOf b) <;> rfl

end

end Cmudb.Sql
