import Cmudb.Lib.Peers
import Cmudb.Sql.Aggregation
import Cmudb.Sql.Sorting

/-!
# Window functions

`windowRows` sorts the rows by partition and key and makes one pass over them,
holding back the rows of the last peer group until it is complete. `rowOutput`
is what a row is to become, said of that row alone: its columns and each call
over the row's frame. Where no counter overflows, the pass hands out `rowOutput`
of every row.
-/

namespace Cmudb.Sql

open Std

structure WindowFunctionPlanNode where
  schema : Schema
  orderByExprs : Option (List SortExpr)
  partitionByExprs : Option (List (Expression ColIdx))
  aggregates : List Aggregate
  columns : List (Expression ColIdx)

namespace WindowFunctionPlanNode

def partitionBy (plan : WindowFunctionPlanNode) : List (Expression ColIdx) := plan.partitionByExprs.getD []

def orderBy (plan : WindowFunctionPlanNode) : List SortExpr := plan.orderByExprs.getD []

def sortExprs (plan : WindowFunctionPlanNode) : List SortExpr :=
  plan.partitionBy.map SortExpr.ascending ++ plan.orderBy

def orderKeys (plan : WindowFunctionPlanNode) : List (Expression ColIdx) := plan.orderBy.map SortExpr.expr

end WindowFunctionPlanNode

structure WindowState where
  aggregates : List AggState
  peerBuffer : List Bytes
  output : List Bytes
  currRank : Int32
  rowNum : Int32
  prevPartitionKey : Option ExprKey
  prevOrderKey : Option ExprKey

section
variable [FloatUnit] (checks : Bool) (plan : WindowFunctionPlanNode) (schema : Schema)

/-- The row `flush_peer_group` emits for a buffered row. -/
def emitRow (aggregates : List AggState) (tuple : Bytes) : Except Stop Bytes := do
  let columns ← failing (plan.columns.mapM fun (e : Expression ColIdx) => e.evaluate tuple schema)
  match plan.schema.encodeTuple (columns ++ AggregateState.values aggregates) with
  | .ok row => .ok row
  | .error e => .error (.failed (.catalog e))

def flushPeerGroup (st : WindowState) : Except Stop WindowState := do
  let aggregates ← st.peerBuffer.foldlM
    (fun aggregates tuple => AggregateState.update checks schema tuple aggregates plan.aggregates) st.aggregates
  let rows ← st.peerBuffer.mapM (emitRow plan schema aggregates)
  .ok { st with aggregates, peerBuffer := [], output := st.output ++ rows }

/-- The end of the pass's body: `t` joins the held rows. -/
def pushRow (newPartition newPeerGroup : Bool) (currPartitionKey currOrderKey : ExprKey) (t : Bytes)
    (st : WindowState) :
    Except Stop WindowState := do
  let st := if newPartition then { st with aggregates := AggregateState.new plan.aggregates, rowNum := 1 } else st
  let currRank := if newPeerGroup then st.rowNum else st.currRank
  let rowNum ← increment32 checks st.rowNum
  .ok { st with
    aggregates := AggregateState.updateRank newPeerGroup currRank st.aggregates
    peerBuffer := st.peerBuffer ++ [t]
    currRank, rowNum
    prevPartitionKey := some currPartitionKey
    prevOrderKey := some currOrderKey }

def windowStep (st : WindowState) (t : Bytes) : Except Stop WindowState := do
  let currPartitionKey ← failing (evalKey plan.partitionBy t schema)
  let newPartition := st.prevPartitionKey != some currPartitionKey
  let currOrderKey ← failing (evalKey plan.orderKeys t schema)
  let newPeerGroup := newPartition || st.prevOrderKey != some currOrderKey
  let flushNow :=
    if newPartition then st.prevPartitionKey.isSome
    else plan.orderByExprs.isSome && newPeerGroup && !st.peerBuffer.isEmpty
  let st ← if flushNow then flushPeerGroup checks plan schema st else .ok st
  pushRow checks plan newPartition newPeerGroup currPartitionKey currOrderKey t st

def WindowState.start : WindowState :=
  ⟨AggregateState.new plan.aggregates, [], [], 1, 1, none, none⟩

def windowRows (tuples : List Bytes) : Except Stop (List Bytes) := do
  let tuples ← failing (sortedByExprs tuples id plan.sortExprs schema)
  let st ← tuples.foldlM (windowStep checks plan schema) (WindowState.start plan)
  let st ← flushPeerGroup checks plan schema st
  .ok st.output

end

/-! ## Keys of the sort and keys of the pass -/

theorem cmpKey_eq_iff (key : SortExpr) (a b : Option Value) :
    cmpKey key.direction key.nulls a b = .eq ↔ Value.cmpOption a b = .eq := by
  cases a with
  | none => cases b <;> cases key.nulls <;> simp [cmpKey, Value.cmpOption, NullOrdering.nullVsValue]
  | some a =>
    cases b with
    | none => cases key.nulls <;> simp [cmpKey, Value.cmpOption, NullOrdering.nullVsValue]
    | some b => cases key.direction <;> cases h : a.cmp b <;> simp [cmpKey, Value.cmpOption, SortDirection.apply, h]

theorem cmpKeys_eq_iff {keys : List SortExpr} {a b : List (Option Value)} (ha : a.length = keys.length)
    (hb : b.length = keys.length) : cmpKeys keys a b = .eq ↔ (⟨a⟩ : ExprKey) == ⟨b⟩ := by
  rw [ExprKey.beq_iff, ExprKey.cmp]
  induction keys generalizing a b with
  | nil =>
    rw [List.length_nil, List.length_eq_zero_iff] at ha hb
    subst ha hb
    simp [cmpKeys, List.compareLex_nil_nil]
  | cons key keys ih =>
    obtain ⟨x, a, rfl⟩ := List.exists_cons_of_length_eq_add_one (by simpa using ha)
    obtain ⟨y, b, rfl⟩ := List.exists_cons_of_length_eq_add_one (by simpa using hb)
    rw [cmpKeys, List.compareLex_cons_cons, Ordering.then_eq_eq, Ordering.then_eq_eq, cmpKey_eq_iff,
      ih (by simpa using ha) (by simpa using hb)]

theorem cmpKeys_append {keys : List SortExpr} {a b : List (Option Value)} (ha : a.length = keys.length)
    (hb : b.length = keys.length) (more : List SortExpr) (as bs : List (Option Value)) :
    cmpKeys (keys ++ more) (a ++ as) (b ++ bs) = (cmpKeys keys a b).then (cmpKeys more as bs) := by
  induction keys generalizing a b with
  | nil =>
    rw [List.length_nil, List.length_eq_zero_iff] at ha hb
    subst ha hb
    rfl
  | cons key keys ih =>
    obtain ⟨x, a, rfl⟩ := List.exists_cons_of_length_eq_add_one (by simpa using ha)
    obtain ⟨y, b, rfl⟩ := List.exists_cons_of_length_eq_add_one (by simpa using hb)
    rw [List.cons_append, List.cons_append, List.cons_append, cmpKeys, cmpKeys,
      ih (by simpa using ha) (by simpa using hb), Ordering.then_assoc]

section
variable [FloatUnit] {schema : Schema} {t : Bytes}

theorem keyValues_length {keys : List SortExpr} (h : KeysEvaluate keys schema t) :
    (keyValues keys schema t).length = keys.length := by
  obtain ⟨vals, hv⟩ := h
  rw [keyValues_eq hv]
  exact (evalSortKey_eq hv).2

theorem keysEvaluate_append {keys more : List SortExpr} (h : KeysEvaluate (keys ++ more) schema t) :
    KeysEvaluate keys schema t ∧ KeysEvaluate more schema t ∧
      keyValues (keys ++ more) schema t = keyValues keys schema t ++ keyValues more schema t := by
  obtain ⟨vals, hv⟩ := id h
  have hv' := hv
  rw [List.mapM_append] at hv'
  obtain ⟨a, ha, hv'⟩ := Lib.bind_eq_ok hv'
  obtain ⟨b, hb, hv'⟩ := Lib.bind_eq_ok hv'
  cases hv'
  exact ⟨⟨a, ha⟩, ⟨b, hb⟩, by rw [keyValues_eq hv, keyValues_eq ha, keyValues_eq hb]⟩

theorem evalKey_eq {keys : List SortExpr} {exprs : List (Expression ColIdx)} (he : keys.map SortExpr.expr = exprs)
    (h : KeysEvaluate keys schema t) : evalKey exprs t schema = .ok ⟨keyValues keys schema t⟩ := by
  obtain ⟨vals, hv⟩ := h
  subst he
  rw [evalKey, List.mapM_map]
  have : (keys.mapM ((fun (e : Expression ColIdx) => e.evaluate t schema) ∘ SortExpr.expr)) = .ok vals := hv
  rw [this, keyValues_eq hv]
  rfl

end

namespace WindowFunctionPlanNode

variable [FloatUnit] (plan : WindowFunctionPlanNode) (schema : Schema)

def partCmp : Bytes → Bytes → Ordering := rowCmp (plan.partitionBy.map SortExpr.ascending) schema

def ordCmp : Bytes → Bytes → Ordering := rowCmp plan.orderBy schema

instance partCmp_trans : TransCmp (plan.partCmp schema) := rowCmp_trans _ schema

instance ordCmp_trans : TransCmp (plan.ordCmp schema) := rowCmp_trans _ schema

def partKey (t : Bytes) : ExprKey := ⟨keyValues (plan.partitionBy.map SortExpr.ascending) schema t⟩

def orderKey (t : Bytes) : ExprKey := ⟨keyValues plan.orderBy schema t⟩

variable {plan schema} {t u : Bytes}

theorem evalKey_partition (h : KeysEvaluate plan.sortExprs schema t) :
    evalKey plan.partitionBy t schema = .ok (plan.partKey schema t) := by
  apply evalKey_eq _ (keysEvaluate_append h).1
  rw [List.map_map]
  exact List.map_id'' (fun _ => rfl) _

theorem evalKey_order (h : KeysEvaluate plan.sortExprs schema t) :
    evalKey plan.orderKeys t schema = .ok (plan.orderKey schema t) :=
  evalKey_eq rfl (keysEvaluate_append h).2.1

theorem partKey_beq (ht : KeysEvaluate plan.sortExprs schema t) (hu : KeysEvaluate plan.sortExprs schema u) :
    plan.partKey schema t == plan.partKey schema u ↔ plan.partCmp schema t u = .eq :=
  (cmpKeys_eq_iff (keyValues_length (keysEvaluate_append ht).1) (keyValues_length (keysEvaluate_append hu).1)).symm

theorem orderKey_beq (ht : KeysEvaluate plan.sortExprs schema t) (hu : KeysEvaluate plan.sortExprs schema u) :
    plan.orderKey schema t == plan.orderKey schema u ↔ plan.ordCmp schema t u = .eq :=
  (cmpKeys_eq_iff (keyValues_length (keysEvaluate_append ht).2.1)
    (keyValues_length (keysEvaluate_append hu).2.1)).symm

theorem rowCmp_sortExprs (ht : KeysEvaluate plan.sortExprs schema t) (hu : KeysEvaluate plan.sortExprs schema u) :
    rowCmp plan.sortExprs schema t u = (plan.partCmp schema t u).then (plan.ordCmp schema t u) := by
  obtain ⟨ht₁, _, ht⟩ := keysEvaluate_append ht
  obtain ⟨hu₁, _, hu⟩ := keysEvaluate_append hu
  rw [rowCmp, sortExprs, ht, hu, cmpKeys_append (keyValues_length ht₁) (keyValues_length hu₁)]
  rfl

theorem ordered_sortRows {rows : List Bytes} (h : ∀ t ∈ rows, KeysEvaluate plan.sortExprs schema t) :
    Lib.Ordered (plan.partCmp schema) (plan.ordCmp schema) (sortRows plan.sortExprs schema id rows) := by
  have hmem : ∀ t ∈ sortRows plan.sortExprs schema id rows, KeysEvaluate plan.sortExprs schema t :=
    fun t ht => h t ((sortRows_perm rows).mem_iff.mp ht)
  apply (sortRows_sorted rows).imp_of_mem
  intro a b ha hb hab
  rw [← rowCmp_sortExprs (hmem a ha) (hmem b hb)]
  exact hab

end WindowFunctionPlanNode

/-! ## The output of one row -/

namespace AggregateState

theorem updateRank_updateRank (pos pos' : Int32) (states : List AggState) :
    updateRank true pos' (updateRank true pos states) = updateRank true pos' states := by
  rw [updateRank, updateRank, List.map_map]
  apply List.map_congr_left
  intro st _
  cases st <;> rfl

theorem updateRank_new (aggregates : List Aggregate) : updateRank true 1 (new aggregates) = new aggregates := by
  rw [updateRank, new, List.map_map]
  apply List.map_congr_left
  intro a _
  obtain ⟨e, t⟩ := a
  cases t <;> rfl

theorem updateRank_false (pos : Int32) (states : List AggState) : updateRank false pos states = states := by
  apply List.map_id''
  intro st
  cases st <;> rfl

theorem updateRank_update [FloatUnit] (newPeerGroup : Bool) (pos : Int32) (checks : Bool) (st : AggState)
    (v : Option Value) :
    (st.updateRank newPeerGroup pos).update checks v =
      (st.update checks v).map (AggState.updateRank newPeerGroup pos) := by
  cases v with
  | none => rfl
  | some v =>
    cases st with
    | count n =>
      simp only [AggState.updateRank, AggState.update]
      cases increment32 checks n <;> rfl
    | sum r =>
      simp only [AggState.updateRank, AggState.update]
      cases failing (addTo r (sumOperand v)) <;> rfl
    | avg total n =>
      simp only [AggState.updateRank, AggState.update]
      cases v.asF64 with
      | none => rfl
      | some x => cases increment64 checks n <;> rfl
    | rank n => cases newPeerGroup <;> rfl
    | _ => rfl

theorem update_updateRank [FloatUnit] (newPeerGroup : Bool) (pos : Int32) (checks : Bool)
    (schema : Schema) (t : Bytes) (states : List AggState) (aggregates : List Aggregate) :
    update checks schema t (updateRank newPeerGroup pos states) aggregates =
      (update checks schema t states aggregates).map (updateRank newPeerGroup pos) := by
  induction states generalizing aggregates with
  | nil => cases aggregates <;> rfl
  | cons st states ih =>
    cases aggregates with
    | nil => rfl
    | cons a aggregates =>
      obtain ⟨e, f⟩ := a
      rw [updateRank, List.map_cons, ← updateRank, update, update]
      cases failing (e.evaluate t schema) with
      | error stop => rfl
      | ok v =>
        rw [Lib.ok_bind, Lib.ok_bind, updateRank_update]
        cases st.update checks v with
        | error stop => rfl
        | ok st' =>
          rw [ih]
          cases update checks schema t states aggregates <;> rfl

variable [FloatUnit] (checks : Bool) (schema : Schema) (aggregates : List Aggregate)

def updates (states : List AggState) (rows : List Bytes) : Except Stop (List AggState) :=
  rows.foldlM (fun states t => update checks schema t states aggregates) states

theorem updates_updateRank (newPeerGroup : Bool) (pos : Int32) (states : List AggState) (rows : List Bytes) :
    updates checks schema aggregates (updateRank newPeerGroup pos states) rows =
      (updates checks schema aggregates states rows).map (updateRank newPeerGroup pos) := by
  induction rows generalizing states with
  | nil => rfl
  | cons t rows ih =>
    rw [updates, updates, List.foldlM_cons, List.foldlM_cons, update_updateRank]
    cases update checks schema t states aggregates with
    | error stop => rfl
    | ok states' => exact ih states'

end AggregateState

section
variable [FloatUnit] (checks : Bool) (plan : WindowFunctionPlanNode) (schema : Schema)
  (rows : List Bytes) (t : Bytes)

/-- The rows a call at `t` is over: with ORDER BY those of its partition up to its peers, without it all of them. -/
def windowFrame : List Bytes :=
  if plan.orderByExprs.isSome then Lib.frame (plan.partCmp schema) (plan.ordCmp schema) rows t
  else Lib.partition (plan.partCmp schema) rows t

/-- One more than the rows of `t`'s partition that sort before it. -/
def windowRank : Nat :=
  if plan.orderByExprs.isSome then 1 + (Lib.before (plan.partCmp schema) (plan.ordCmp schema) rows t).length else 1

def rowOutput : Except Stop Bytes := do
  let states ← AggregateState.updates checks schema plan.aggregates (AggregateState.new plan.aggregates)
    (windowFrame plan schema rows t)
  emitRow plan schema (AggregateState.updateRank true (Int32.ofNat (windowRank plan schema rows t)) states) t

theorem windowFrame_eq :
    windowFrame plan schema rows t = Lib.frame (plan.partCmp schema) (plan.ordCmp schema) rows t := by
  unfold windowFrame
  cases ho : plan.orderByExprs with
  | some keys => simp
  | none =>
    have heq : ∀ a b, plan.ordCmp schema a b = .eq := by
      intro a b
      rw [WindowFunctionPlanNode.ordCmp, WindowFunctionPlanNode.orderBy, ho]
      rfl
    simp [Lib.frame, Lib.partition, heq]

theorem windowRank_eq :
    windowRank plan schema rows t = (Lib.before (plan.partCmp schema) (plan.ordCmp schema) rows t).length + 1 := by
  unfold windowRank
  cases ho : plan.orderByExprs with
  | some keys => simp [Nat.add_comm]
  | none =>
    have heq : ∀ a b, plan.ordCmp schema a b = .eq := by
      intro a b
      rw [WindowFunctionPlanNode.ordCmp, WindowFunctionPlanNode.orderBy, ho]
      rfl
    simp [Lib.before, heq]

end

end Cmudb.Sql
