import Cmudb.Sql.Executor
import Cmudb.Sql.Typing

/-!
# The keys of a hash join

The planner splits an ON condition into pairs of columns to hash and a residual
condition. For two stored rows the split decides what the condition does: NULL
keys match nothing, the hash table compares keys of one type as SQL does, and
the conjuncts that are left are put together again.
-/

namespace Cmudb.Sql

open Std

/-! ## The planner -/

section
variable {C : Type}

def conjunction : Option (List (Expression C)) → Option (Expression C)
  | some (e :: es) => some (es.foldl (fun left right => .binary left right .and) e)
  | _ => none

def conjuncts : Expression C → List (Expression C)
  | .binary left right .and => conjuncts left ++ conjuncts right
  | other => [other]

end

/-- The columns of an equality between the two inputs, the left input's first. -/
def leftRightEquiJoin : JoinPredicate → Option (ColIdx × ColIdx)
  | .binary (.column ⟨.left, outer⟩ _) (.column ⟨.right, inner⟩ _) .eq => some (outer, inner)
  | .binary (.column ⟨.right, inner⟩ _) (.column ⟨.left, outer⟩ _) .eq => some (outer, inner)
  | _ => none

structure HashJoinKeys where
  leftExprs : List (Expression ColIdx)
  rightExprs : List (Expression ColIdx)
  residual : Option JoinPredicate
  deriving DecidableEq, Repr

abbrev KeyedPart := JoinPredicate × Option (Expression ColIdx × Expression ColIdx)

/-- `none` is the panic for a column that is not there. -/
def keyColumns (left right : Schema) (part : JoinPredicate) : Option KeyedPart :=
  match leftRightEquiJoin part with
  | none => some (part, none)
  | some (l, r) => do
    let t ← left.dtypeAt l
    let u ← right.dtypeAt r
    return (part, if t.valueType = u.valueType then some (.column l t, .column r u) else none)

def hashJoinKeys (predicate : JoinPredicate) (left right : Schema) :
    Option (Except JoinPredicate HashJoinKeys) := do
  let parts ← (conjuncts predicate).mapM (keyColumns left right)
  let keys := parts.filterMap Prod.snd
  let residual := parts.filterMap fun p => if p.2.isNone then some p.1 else none
  return if keys.isEmpty then .error predicate
    else .ok ⟨keys.map Prod.fst, keys.map Prod.snd, conjunction (some residual)⟩

/-! ## The executors -/

def isTrue (v : Option Value) : Bool := v == some (.boolean true)

section
variable [FloatUnit]

def residualHolds (residual : Option JoinPredicate) (pair : JoinRow) : Except ExecutorError Bool :=
  match residual with
  | some predicate => (predicate.evaluateOn pair.columnValue).map isTrue
  | none => .ok true

/-- Whether the hash join puts the two rows together. -/
def HashJoinKeys.joins (keys : HashJoinKeys) (pair : JoinRow) : Except ExecutorError Bool := do
  let built ← evalKey keys.leftExprs pair.left.tuple pair.left.schema
  let key ← evalKey keys.rightExprs pair.right.tuple pair.right.schema
  if !key.containsNull && built == key then residualHolds keys.residual pair else return false

end

/-! ## Conjunctions -/

theorem isTrue_iff {v : Option Value} {b : Option Bool} (h : asBool v = .ok b) :
    isTrue v = true ↔ b = some true := by
  cases v with
  | none =>
    cases h
    simp [isTrue]
  | some v => cases v <;> cases h; simp [isTrue]

theorem asBool_boolean (b : Option Bool) : asBool (b.map Value.boolean) = .ok b := by cases b <;> rfl

theorem and3_eq_true {a b : Option Bool} : and3 a b = some true ↔ a = some true ∧ b = some true := by
  rcases a with _ | ⟨_ | _⟩ <;> rcases b with _ | ⟨_ | _⟩ <;> simp [and3]

section
variable [FloatUnit] {C : Type} {row : C → Except ExecutorError (Option Value)} {e l r : Expression C}
  {a b : Option Bool}

def Tests (row : C → Except ExecutorError (Option Value)) (e : Expression C) (b : Option Bool) : Prop :=
  ∃ v, e.evaluateOn row = .ok v ∧ asBool v = .ok b

theorem Tests.true_iff (h : Tests row e b) : b = some true ↔ Tests row e (some true) := by
  refine ⟨fun hb => hb ▸ h, ?_⟩
  rintro ⟨w, hw, ht⟩
  obtain ⟨v, hv, hb⟩ := h
  rw [hv] at hw
  cases hw
  rw [hb] at ht
  exact Except.ok.inj ht

theorem tests_and {v : Option Value} (h : (Expression.binary l r .and).evaluateOn row = .ok v) :
    ∃ a b, Tests row l a ∧ Tests row r b ∧ v = (and3 a b).map .boolean := by
  obtain ⟨x, hx, h⟩ := Lib.bind_eq_ok h
  obtain ⟨y, hy, h⟩ := Lib.bind_eq_ok h
  obtain ⟨a, ha, h⟩ := Lib.bind_eq_ok h
  obtain ⟨b, hb, h⟩ := Lib.bind_eq_ok h
  cases h
  exact ⟨a, b, ⟨x, hx, ha⟩, ⟨y, hy, hb⟩, rfl⟩

theorem Tests.and (hl : Tests row l a) (hr : Tests row r b) : Tests row (.binary l r .and) (and3 a b) := by
  obtain ⟨x, hx, ha⟩ := hl
  obtain ⟨y, hy, hb⟩ := hr
  refine ⟨(and3 a b).map .boolean, ?_, asBool_boolean _⟩
  simp only [Expression.evaluateOn, hx, hy, Lib.ok_bind, evalBinary, ha, hb]

/-- A condition is true when all its conjuncts are. -/
theorem Tests.conjuncts (h : Tests row e b) : (∀ part ∈ Sql.conjuncts e, ∃ c, Tests row part c) ∧
    (b = some true ↔ ∀ part ∈ Sql.conjuncts e, Tests row part (some true)) := by
  fun_induction Sql.conjuncts e generalizing b with
  | case1 l r ihl ihr =>
    obtain ⟨v, hv, hb⟩ := h
    obtain ⟨x, y, hl, hr, rfl⟩ := tests_and hv
    rw [asBool_boolean] at hb
    cases hb
    obtain ⟨hls, hlt⟩ := ihl hl
    obtain ⟨hrs, hrt⟩ := ihr hr
    rw [List.forall_mem_append, List.forall_mem_append, and3_eq_true, hlt, hrt]
    exact ⟨⟨hls, hrs⟩, Iff.rfl⟩
  | case2 e =>
    rw [List.forall_mem_singleton, List.forall_mem_singleton]
    exact ⟨⟨b, h⟩, h.true_iff⟩

theorem tests_foldl_and (es : List (Expression C)) : ∀ {e : Expression C} {b : Option Bool}, Tests row e b →
    (∀ part ∈ es, ∃ c, Tests row part c) →
    ∃ c, Tests row (es.foldl (fun left right => .binary left right .and) e) c ∧
      (c = some true ↔ b = some true ∧ ∀ part ∈ es, Tests row part (some true)) := by
  induction es with
  | nil => exact fun h _ => ⟨_, h, by simp⟩
  | cons part es ih =>
    intro e b h hes
    obtain ⟨⟨c, hc⟩, hes⟩ := List.forall_mem_cons.mp hes
    obtain ⟨d, hd, htrue⟩ := ih (h.and hc) hes
    refine ⟨d, hd, ?_⟩
    rw [htrue, and3_eq_true, hc.true_iff, List.forall_mem_cons, and_assoc]

theorem tests_eq {x y : Option Value} (hl : l.evaluateOn row = .ok x) (hr : r.evaluateOn row = .ok y)
    (htypes : ∀ a b, x = some a → y = some b → a.dataType = b.dataType) :
    ∃ c, Tests row (.binary l r .eq) c ∧ (c = some true ↔ x.isSome ∧ y.isSome ∧ Value.cmpOption x y = .eq) := by
  have heval : (Expression.binary l r .eq).evaluateOn row = (compareValues x y).map fun ord => ord.map fun o =>
      .boolean (Op.eq.holds o) := by
    simp only [Expression.evaluateOn, hl, hr, Lib.ok_bind, evalBinary]
  cases x with
  | none => exact ⟨none, ⟨none, heval, rfl⟩, by simp⟩
  | some a =>
    cases y with
    | none => exact ⟨none, ⟨none, heval, rfl⟩, by simp⟩
    | some b =>
      have hcmp : compareValues (some a) (some b) = .ok (some (a.cmp b)) := by
        simp only [compareValues, Value.compare?, if_pos (htypes a b rfl rfl)]
      rw [hcmp] at heval
      exact ⟨some (Op.eq.holds (a.cmp b)),
        ⟨_, heval, rfl⟩, by simp [Value.cmpOption, Op.holds, Ordering.isEq_iff_eq_eq]⟩

end

/-! ## Two stored rows -/

theorem leftRightEquiJoin_some {part : JoinPredicate} {l r : ColIdx} (h : leftRightEquiJoin part = some (l, r)) :
    ∃ t u, part = .binary (.column ⟨.left, l⟩ t) (.column ⟨.right, r⟩ u) .eq ∨
      part = .binary (.column ⟨.right, r⟩ t) (.column ⟨.left, l⟩ u) .eq := by
  unfold leftRightEquiJoin at h
  split at h <;> cases h
  · exact ⟨_, _, .inl rfl⟩
  · exact ⟨_, _, .inr rfl⟩

theorem keyColumns_fst {left right : Schema} {part : JoinPredicate} {p : KeyedPart}
    (h : keyColumns left right part = some p) : p.1 = part := by
  unfold keyColumns at h
  split at h
  · cases h
    rfl
  · obtain ⟨_, _, h⟩ := Option.bind_eq_some_iff.mp h
    obtain ⟨_, _, h⟩ := Option.bind_eq_some_iff.mp h
    cases h
    rfl

theorem keys_cons_eq (x y : Option Value) (xs ys : List (Option Value)) :
    (ExprKey.mk (x :: xs) == ⟨y :: ys⟩) = true ↔ Value.cmpOption x y = .eq ∧ (ExprKey.mk xs == ⟨ys⟩) = true := by
  rw [ExprKey.beq_iff, ExprKey.beq_iff, ExprKey.cmp, List.compareLex_cons_cons, Ordering.then_eq_eq]
  rfl

structure JoinRow.Stored [FloatUnit] (pair : JoinRow) : Prop where
  left : ∃ vals, pair.left.schema.encodeTuple vals = .ok pair.left.tuple
  right : ∃ vals, pair.right.schema.encodeTuple vals = .ok pair.right.tuple

section
variable [FloatUnit] {pair : JoinRow} {predicate : JoinPredicate}

theorem columnValue_stored {row : InputRow} (h : ∃ vals, row.schema.encodeTuple vals = .ok row.tuple) {col : Nat}
    {d : DataType} (hd : row.schema.dtypeAt col = some d) :
    ∃ x, row.columnValue col = .ok x ∧ ∀ a, x = some a → a.dataType = d.valueType := by
  obtain ⟨vals, h⟩ := h
  obtain ⟨c, hc, rfl⟩ := Schema.cols_dtype hd
  have hlt : col < vals.length := by
    have hcol := (List.getElem?_eq_some_iff.mp hc).1
    rw [Schema.cols_length] at hcol
    have := Schema.encodeTuple_length h
    omega
  obtain ⟨x, -, hx⟩ := Schema.getValue_encodeTuple h hc (List.getElem?_eq_getElem hlt)
  refine ⟨x, by rw [InputRow.columnValue, hx], ?_⟩
  intro a ha
  obtain ⟨t, ht, hfits⟩ := Schema.getValue_fits h hd hx a ha
  cases ht
  exact fits_dataType hfits

theorem evalKey_cons {row : InputRow} {e : Expression ColIdx} {es : List (Expression ColIdx)} {x : Option Value}
    {xs : List (Option Value)} (hx : e.evaluate row.tuple row.schema = .ok x)
    (hxs : evalKey es row.tuple row.schema = .ok ⟨xs⟩) :
    evalKey (e :: es) row.tuple row.schema = .ok ⟨x :: xs⟩ := by
  unfold evalKey at hxs ⊢
  rw [List.mapM_cons, hx]
  cases hm : es.mapM fun (e : Expression ColIdx) => e.evaluate row.tuple row.schema with
  | error e =>
    rw [hm] at hxs
    cases hxs
  | ok ys =>
    rw [hm] at hxs
    cases hxs
    rfl

/-- What the hash join reads for a key, `x` from the left row and `y` from the right one, decides the conjunct. -/
theorem key_tests (h : pair.Stored) {part part' : JoinPredicate} {a b : Expression ColIdx}
    (hkey : keyColumns pair.left.schema pair.right.schema part' = some (part, some (a, b))) :
    ∃ x y c, a.evaluate pair.left.tuple pair.left.schema = .ok x ∧
    b.evaluate pair.right.tuple pair.right.schema = .ok y ∧
      Tests pair.columnValue part c ∧ (c = some true ↔ y.isSome ∧ Value.cmpOption x y = .eq) := by
  have hpart := keyColumns_fst hkey
  subst hpart
  unfold keyColumns at hkey
  split at hkey
  · cases hkey
  rename_i l r hequi
  obtain ⟨t, ht, hkey⟩ := Option.bind_eq_some_iff.mp hkey
  obtain ⟨u, hu, hkey⟩ := Option.bind_eq_some_iff.mp hkey
  simp only [pure, Option.some.injEq, Prod.mk.injEq, true_and, Option.ite_none_right_eq_some] at hkey
  obtain ⟨htypes, rfl, rfl⟩ := hkey
  obtain ⟨x, hx, hxt⟩ := columnValue_stored h.left ht
  obtain ⟨y, hy, hyt⟩ := columnValue_stored h.right hu
  have hsame : ∀ a b, x = some a → y = some b → a.dataType = b.dataType := by
    intro a b ha hb
    rw [hxt a ha, hyt b hb, htypes]
  obtain ⟨t, u, rfl | rfl⟩ := leftRightEquiJoin_some hequi
  · obtain ⟨c, hc, htrue⟩ :=
      @tests_eq _ _ pair.columnValue (.column ⟨.left, l⟩ t) (.column ⟨.right, r⟩ u) x y hx hy hsame
    refine ⟨x, y, c, hx, hy, hc, htrue.trans ?_⟩
    cases x <;> cases y <;> simp [Value.cmpOption]
  · obtain ⟨c, hc, htrue⟩ := @tests_eq _ _ pair.columnValue (.column ⟨.right, r⟩ t) (.column ⟨.left, l⟩ u) y x hy hx
      fun b a hb ha => (hsame a b ha hb).symm
    refine ⟨x, y, c, hx, hy, hc, htrue.trans ?_⟩
    rw [@OrientedCmp.eq_comm _ Value.cmpOption _ y x]
    cases x <;> cases y <;> simp [Value.cmpOption]

/-- The keys are equal and not NULL when the conjuncts they stand for hold. -/
theorem keys_match (h : pair.Stored) {es : List JoinPredicate} {parts : List KeyedPart}
    (hparts : List.Forall₂ (fun e p => keyColumns pair.left.schema pair.right.schema e = some p) es parts) :
    ∃ built key, evalKey ((parts.filterMap Prod.snd).map Prod.fst) pair.left.tuple pair.left.schema = .ok built ∧
      evalKey ((parts.filterMap Prod.snd).map Prod.snd) pair.right.tuple pair.right.schema = .ok key ∧
      ((!key.containsNull && built == key) = true ↔ ∀ p ∈ parts, p.2.isSome →
        Tests pair.columnValue p.1 (some true)) := by
  induction hparts with
  | nil => exact ⟨⟨[]⟩, ⟨[]⟩, rfl, rfl, by simp [ExprKey.containsNull]⟩
  | @cons e p es parts hp _ ih =>
    obtain ⟨⟨xs⟩, ⟨ys⟩, hxs, hys, hiff⟩ := ih
    obtain ⟨part, key⟩ := p
    cases key with
    | none => exact ⟨⟨xs⟩, ⟨ys⟩, hxs, hys, by simpa using hiff⟩
    | some ab =>
      obtain ⟨x, y, c, hx, hy, hc, htrue⟩ := key_tests h hp
      refine ⟨⟨x :: xs⟩, ⟨y :: ys⟩, evalKey_cons hx hxs, evalKey_cons hy hys, ?_⟩
      rw [List.forall_mem_cons, ← hiff, Bool.and_eq_true, Bool.and_eq_true, keys_cons_eq]
      simp only [ExprKey.containsNull, List.any_cons, Bool.not_or, Bool.and_eq_true,
        Option.isSome_some, true_implies]
      rw [← hc.true_iff, htrue]
      cases y <;> simp [and_left_comm]

/-- The conjuncts that are left over hold together when each of them does. -/
theorem residualHolds_iff {parts : List JoinPredicate} (h : ∀ part ∈ parts, ∃ c, Tests pair.columnValue part c) :
    ∃ b, residualHolds (conjunction (some parts)) pair = .ok b ∧
      (b = true ↔ ∀ part ∈ parts, Tests pair.columnValue part (some true)) := by
  cases parts with
  | nil => exact ⟨true, rfl, by simp⟩
  | cons e es =>
    obtain ⟨⟨b, hb⟩, hes⟩ := List.forall_mem_cons.mp h
    obtain ⟨c, ⟨v, hv, hc⟩, htrue⟩ := tests_foldl_and es hb hes
    refine ⟨isTrue v, ?_, ?_⟩
    · simp only [residualHolds, conjunction, hv]
      rfl
    · rw [isTrue_iff hc, htrue, hb.true_iff, List.forall_mem_cons]

/-- A condition with a key in it is a boolean: it is an AND, or the key itself. -/
theorem condition_tests (h : pair.Stored) {parts : List KeyedPart}
    (hparts : List.Forall₂ (fun e p => keyColumns pair.left.schema pair.right.schema e = some p)
      (conjuncts predicate) parts)
    (hsome : ¬ (parts.filterMap Prod.snd).isEmpty = true) {v : Option Value}
    (hv : predicate.evaluateOn pair.columnValue = .ok v) :
    ∃ b, asBool v = .ok b := by
  unfold conjuncts at hparts
  split at hparts
  · obtain ⟨a, b, _, _, rfl⟩ := tests_and hv
    exact ⟨_, asBool_boolean _⟩
  · obtain ⟨⟨part, key⟩, _, hp, hnil, rfl⟩ := List.forall₂_cons_left_iff.mp hparts
    cases List.forall₂_nil_left_iff.mp hnil
    cases key with
    | none => simp at hsome
    | some ab =>
      obtain ⟨_, _, c, _, _, ⟨w, hw, hc⟩, _⟩ := key_tests h hp
      have hpart := keyColumns_fst hp
      subst hpart
      rw [hv] at hw
      cases hw
      exact ⟨c, hc⟩

/-- The condition of a join and the keys the planner makes of it put the same rows together, wherever the condition
can be evaluated. -/
theorem hash_keys_join_alike {pair : JoinRow} (h : pair.Stored) {predicate : JoinPredicate} {keys : HashJoinKeys}
    (hkeys : hashJoinKeys predicate pair.left.schema pair.right.schema = some (.ok keys)) {v : Option Value}
    (hv : predicate.evaluateOn pair.columnValue = .ok v) : keys.joins pair = .ok (isTrue v) := by
  obtain ⟨parts, hparts, hkeys⟩ := Option.bind_eq_some_iff.mp hkeys
  replace hparts := Lib.mapM_eq_some.mp hparts
  simp only [pure, Option.some.injEq] at hkeys
  split at hkeys
  · cases hkeys
  rename_i hsome
  cases hkeys
  have hall : conjuncts predicate = parts.map Prod.fst := by
    rw [← List.forall₂_eq_eq_eq, List.forall₂_map_right_iff]
    exact hparts.imp fun e p hp => (keyColumns_fst hp).symm
  obtain ⟨b, hb⟩ := condition_tests h hparts hsome hv
  obtain ⟨htests, htrue⟩ := Tests.conjuncts ⟨v, hv, hb⟩
  rw [hall, List.forall_mem_map] at htests htrue
  obtain ⟨built, key, hbuilt, hkey, hmatch⟩ := keys_match h hparts
  have hres : ∀ part ∈ parts.filterMap (fun p => if p.2.isNone then some p.1 else none), ∃ c,
      Tests pair.columnValue part c := by
    intro part hpart
    obtain ⟨p, hp, hpart⟩ := List.mem_filterMap.mp hpart
    split at hpart <;> cases hpart
    exact htests p hp
  obtain ⟨c, hc, hctrue⟩ := residualHolds_iff hres
  have hjoins : isTrue v = ((!key.containsNull && built == key) && c) := by
    rw [Bool.eq_iff_iff, Bool.and_eq_true, isTrue_iff hb, htrue, hmatch, hctrue]
    simp only [List.mem_filterMap]
    constructor
    · refine fun h => ⟨fun p hp _ => h p hp, ?_⟩
      rintro part ⟨p, hp, hpart⟩
      split at hpart <;> cases hpart
      exact h p hp
    · rintro ⟨hkeyed, hrest⟩ p hp
      cases hk : p.2 with
      | none => exact hrest p.1 ⟨p, hp, by simp [hk]⟩
      | some k => exact hkeyed p hp (by simp [hk])
  simp only [HashJoinKeys.joins, hbuilt, hkey, Lib.ok_bind, hc, hjoins]
  cases !key.containsNull && built == key <;> rfl

end

def rising : JoinPredicate :=
  .binary (.binary (.column ⟨.left, 0⟩ .int) (.column ⟨.right, 0⟩ .int) .eq)
    (.binary (.column ⟨.left, 1⟩ .int) (.column ⟨.right, 1⟩ .int) .lt) .and

def ones : JoinRow :=
  let schema : Schema := ⟨[(.int, "a"), (.int, "b")]⟩
  ⟨⟨[0, 1, 0, 0, 0, 1, 0, 0, 0], schema⟩, ⟨[0, 1, 0, 0, 0, 2, 0, 0, 0], schema⟩⟩

theorem ones_join_alike : ∃ keys, hashJoinKeys rising ones.left.schema ones.right.schema = some (.ok keys) ∧
    keys.residual.isSome ∧ @HashJoinKeys.joins .idle keys ones = .ok true := by
  have hstored :=
    @JoinRow.Stored.mk .idle ones ⟨[some (.int 1), some (.int 1)], by decide⟩
        ⟨[some (.int 1), some (.int 2)], by decide⟩
  exact ⟨_, rfl, rfl, @hash_keys_join_alike .idle ones hstored rising _ rfl (some (.boolean true)) (by decide)⟩

end Cmudb.Sql
