import Cmudb.Sql.WindowSound

/-!
# Window calls over their frames

`WindowRowIs` says what the pass is to emit for a row, with no mention of
counters: the plan's columns on the row, and each call over the row's frame. It
emits that for every row, unless a partition has so many rows that `row_num`
passes its maximum after the last of them.
-/

namespace Cmudb.Sql

open Std AggregateState

section
variable [FloatUnit] (plan : WindowFunctionPlanNode) (schema : Schema) (rows : List Bytes) (t : Bytes)

/-- `r` is the value of the call `a` at the row `t` of `rows`. -/
def CallIs (a : Aggregate) (r : Option Value) : Prop :=
  if a.2 = .rank then ∃ n : Int32, r = some (.int n) ∧ n.toInt = windowRank plan schema rows t
  else AggregateIs a.2 (argValues schema a.1 (windowFrame plan schema rows t)) r

def WindowRowIs (vals : List (Option Value)) : Prop :=
  ∃ columns calls, (plan.columns.mapM fun (e : Expression ColIdx) => e.evaluate t schema) = .ok columns ∧
    List.Forall₂ (CallIs plan schema rows t) plan.aggregates calls ∧ vals = columns ++ calls

end

section
variable [FloatUnit] {checks : Bool} {plan : WindowFunctionPlanNode} {schema : Schema}
  {rows : List Bytes} {t : Bytes}

theorem windowFrame_le (plan : WindowFunctionPlanNode) (schema : Schema) (rows : List Bytes) (t : Bytes) :
    (windowFrame plan schema rows t).length ≤ (Lib.partition (plan.partCmp schema) rows t).length := by
  rw [windowFrame_eq, Lib.frame, ← List.filter_filter]
  exact (List.filter_sublist.filter _).length_le

theorem callsAre {states : List AggState}
    (hs : StatesAre checks schema (windowFrame plan schema rows t) plan.aggregates states)
    (hsmall : (Lib.partition (plan.partCmp schema) rows t).length < 2 ^ 31)
    (hrank : windowRank plan schema rows t < 2 ^ 31) :
    List.Forall₂ (CallIs plan schema rows t) plan.aggregates
      (values (updateRank true (Int32.ofNat (windowRank plan schema rows t)) states)) := by
  rw [values, updateRank, List.map_map, List.forall₂_map_right_iff]
  apply hs.imp
  intro a st ha
  have hfit : CountFits a.2 (argValues schema a.1 (windowFrame plan schema rows t)).length := by
    apply countFits_of_lt
    have h1 := AggregationExecutor.argValues_length_le schema a.1 (windowFrame plan schema rows t)
    have h2 := windowFrame_le plan schema rows t
    omega
  have hstate := ha.state
  rw [CallIs]
  by_cases hr : a.2 = .rank
  · rw [if_pos hr]
    obtain ⟨n, rfl⟩ : ∃ n, st = .rank n := by cases st <;> simp_all [StateIs]
    exact ⟨_, rfl, Int32.toInt_ofNat_of_lt hrank⟩
  · rw [if_neg hr]
    have hsame : (st.updateRank true (Int32.ofNat (windowRank plan schema rows t))).value = st.value := by
      cases st with
      | rank n => exact absurd hstate hr
      | _ => rfl
    show AggregateIs _ _ (AggState.value _)
    rw [hsame]
    exact (hstate.value hfit).resolve_left hr

theorem windowRank_le (ht : t ∈ rows) :
    windowRank plan schema rows t ≤ (Lib.partition (plan.partCmp schema) rows t).length := by
  have hsub : Lib.before (plan.partCmp schema) (plan.ordCmp schema) rows t =
      (Lib.partition (plan.partCmp schema) rows t).filter fun r => plan.ordCmp schema r t == .lt := by
    rw [Lib.before, Lib.partition, List.filter_filter]
    apply List.filter_congr
    intro r _
    rw [Bool.and_comm]
  rw [windowRank_eq, hsub]
  apply Nat.succ_le_of_lt
  apply List.length_filter_lt_length_iff_exists.mpr
  exact ⟨t, by simp [Lib.partition, ht, ReflCmp.compare_self], by simp [ReflCmp.compare_self]⟩

theorem rowOutput_exact {out : Bytes} (h : rowOutput checks plan schema rows t = .ok out) (ht : t ∈ rows)
    (hsmall : (Lib.partition (plan.partCmp schema) rows t).length < 2 ^ 31) :
    ∃ vals, WindowRowIs plan schema rows t vals ∧ plan.schema.encodeTuple vals = .ok out := by
  obtain ⟨states, hu, h⟩ := Lib.bind_eq_ok h
  have hs : StatesAre checks schema (windowFrame plan schema rows t) plan.aggregates states := by
    simpa using (statesAre_new checks schema plan.aggregates).run hu
  obtain ⟨columns, hc, h⟩ := Lib.bind_eq_ok h
  have hrank := @windowRank_le _ plan schema _ _ ht
  refine ⟨_, ⟨columns, _, ?_, callsAre hs hsmall (by omega), rfl⟩, ?_⟩
  · cases hm : plan.columns.mapM fun (e : Expression ColIdx) => e.evaluate t schema with
    | error e => rw [hm] at hc; cases hc
    | ok vals => rw [hm] at hc; cases hc; rfl
  · split at h
    · cases h; assumption
    · cases h

/-! ## Rows that evaluate -/

structure WindowEvaluates (plan : WindowFunctionPlanNode) (schema : Schema) (rows : List Bytes) : Prop where
  keys : ∀ t ∈ rows, KeysEvaluate plan.sortExprs schema t
  columns : ∀ e ∈ plan.columns, Evaluates schema e rows
  arguments : ∀ a ∈ plan.aggregates, Evaluates schema a.1 rows
  sums : ∀ a ∈ plan.aggregates, a.2 = .sum → ∀ t ∈ rows,
    ∃ r, sumOf (argValues schema a.1 (windowFrame plan schema (windowOrder plan schema rows) t)) = .ok r
  averages : ∀ a ∈ plan.aggregates, a.2 = .avg → ∀ v ∈ argValues schema a.1 rows, v.asF64.isSome
  encodes : ∀ t ∈ rows, ∀ vals, WindowRowIs plan schema (windowOrder plan schema rows) t vals →
    ∃ row, plan.schema.encodeTuple vals = .ok row

/-- Rows that all arguments evaluate on, whose values no aggregate rejects, are folded in. -/
theorem updates_ok {aggregates : List Aggregate} (hev : ∀ a ∈ aggregates, Evaluates schema a.1 rows)
    (hno : ∀ a ∈ aggregates, ∀ p v rest e, argValues schema a.1 rows = p ++ v :: rest → ¬ Rejects a.2 p v e)
    (hfit : rows.length < 2 ^ 31) :
    ∃ states, updates checks schema aggregates (new aggregates) rows = .ok states := by
  cases hu : updates checks schema aggregates (new aggregates) rows with
  | ok states => exact ⟨states, rfl⟩
  | error stop =>
    obtain ⟨p, t, rest, states, rfl, hp, he⟩ := Lib.foldlM_error hu
    have hs : StatesAre checks schema p aggregates states := by
      simpa using (statesAre_new checks schema aggregates).run hp
    rcases hs.cases t with ⟨l, a, r, e, rfl, _, hf, _⟩ | ⟨l, a, r, rfl, _, ho, _, _⟩ | ⟨_, states', hx, _⟩
    · exfalso
      rcases hf with hf | ⟨v, hv, hrej⟩
      · obtain ⟨v, hv⟩ := hev a (by simp) t (by simp)
        rw [hf] at hv
        cases hv
      · apply hno a (by simp) _ v (argValues schema a.1 rest) e _ hrej
        rw [argValues_append, ← List.singleton_append, argValues_append]
        simp [argValues, hv, Except.toOption]
    · exfalso
      obtain ⟨v, hv, _, hfull⟩ := ho
      apply hfull
      apply countFits_of_lt
      have := AggregationExecutor.argValues_length_le schema a.1 p
      simp at hfit
      omega
    · rw [he] at hx
      cases hx

theorem not_rejects {a : Aggregate} {vals p rest : List Value} {v : Value} {e : ExecutorError}
    (hsum : a.2 = .sum → ∃ r, sumOf vals = .ok r) (havg : a.2 = .avg → ∀ v ∈ vals, v.asF64.isSome)
    (h : vals = p ++ v :: rest) : ¬ Rejects a.2 p v e := by
  intro hr
  rcases hr with ⟨ht, hs⟩ | ⟨ht, hv, _⟩
  · obtain ⟨r, hr⟩ := hsum ht
    rw [h, List.append_cons] at hr
    have := Lib.foldlM_error_append hs rest
    rw [sumOf] at hr
    rw [hr] at this
    cases this
  · have := havg ht v (by simp [h])
    rw [hv] at this
    cases this

theorem WindowEvaluates.rowOutput_ok (h : WindowEvaluates plan schema rows) (hsmall : rows.length < 2 ^ 31)
    (ht : t ∈ rows) :
    ∃ row, rowOutput checks plan schema (windowOrder plan schema rows) t = .ok row := by
  have hperm := windowOrder_perm plan schema rows
  have hpart : (Lib.partition (plan.partCmp schema) (windowOrder plan schema rows) t).length < 2 ^ 31 := by
    rw [partition_windowOrder]
    have : (Lib.partition (plan.partCmp schema) rows t).length ≤ rows.length := List.length_filter_le _ _
    omega
  have hframe := windowFrame_le plan schema (windowOrder plan schema rows) t
  have hsub : ∀ u ∈ windowFrame plan schema (windowOrder plan schema rows) t, u ∈ rows := by
    intro u hu
    rw [windowFrame_eq] at hu
    exact hperm.mem_iff.mp (List.mem_of_mem_filter hu)
  obtain ⟨states, hu⟩ : ∃ states, updates checks schema plan.aggregates (new plan.aggregates)
      (windowFrame plan schema (windowOrder plan schema rows) t) = .ok states := by
    apply updates_ok
    · intro a ha u hu
      exact h.arguments a ha u (hsub u hu)
    · intro a ha p v rest e hv
      apply not_rejects (fun hs => h.sums a ha hs t ht) _ hv
      intro hs v hv
      apply h.averages a ha hs
      obtain ⟨u, hu, hx⟩ := List.mem_filterMap.mp hv
      exact List.mem_filterMap.mpr ⟨u, hsub u hu, hx⟩
    · omega
  have hs : StatesAre checks schema (windowFrame plan schema (windowOrder plan schema rows) t)
      plan.aggregates states := by
    simpa using (statesAre_new checks schema plan.aggregates).run hu
  obtain ⟨columns, hc⟩ : ∃ columns, (plan.columns.mapM fun (e : Expression ColIdx) => e.evaluate t schema) =
      .ok columns := by
    cases hm : plan.columns.mapM fun (e : Expression ColIdx) => e.evaluate t schema with
    | ok columns => exact ⟨columns, rfl⟩
    | error e =>
      obtain ⟨p, x, r, _, hx, _, he⟩ := Lib.mapM_eq_error hm
      obtain ⟨v, hv⟩ := h.columns x (by simp [hx]) t ht
      rw [he] at hv
      cases hv
  have hrank := @windowRank_le _ plan schema _ _ (hperm.mem_iff.mpr ht)
  obtain ⟨row, hrow⟩ := h.encodes t ht _ ⟨columns, _, hc, callsAre hs hpart (by omega), rfl⟩
  refine ⟨row, ?_⟩
  simp only [rowOutput, hu, Lib.ok_bind, emitRow, hc, failing, hrow]

/-! ## The rows that are emitted -/

def SameOrNull (a b : Option Value) : Prop := (a = none ∧ b = none) ∨ ∃ x y, a = some x ∧ b = some y ∧ x.cmp y = .eq

omit [FloatUnit] in
theorem cmpKeys_eq_same {keys : List SortExpr} {a b : List (Option Value)} (ha : a.length = keys.length)
    (hb : b.length = keys.length) : cmpKeys keys a b = .eq ↔ List.Forall₂ SameOrNull a b := by
  induction keys generalizing a b with
  | nil =>
    rw [List.length_nil, List.length_eq_zero_iff] at ha hb
    subst ha hb
    simp [cmpKeys]
  | cons key keys ih =>
    obtain ⟨x, a, rfl⟩ := List.exists_cons_of_length_eq_add_one (by simpa using ha)
    obtain ⟨y, b, rfl⟩ := List.exists_cons_of_length_eq_add_one (by simpa using hb)
    rw [cmpKeys, Ordering.then_eq_eq, cmpKey_eq_iff, ih (by simpa using ha) (by simpa using hb), List.forall₂_cons]
    cases x <;> cases y <;> simp [Value.cmpOption, SameOrNull]

def EmitsWindowRows (plan : WindowFunctionPlanNode) (schema : Schema) (rows : List Bytes)
    (r : Except Stop (List Bytes)) : Prop :=
  ∃ out, r = .ok out ∧
    List.Forall₂ (fun t row => ∃ vals, WindowRowIs plan schema (windowOrder plan schema rows) t vals ∧
    plan.schema.encodeTuple vals = .ok row ∧ (plan.schema.Holds vals → RowHolds plan.schema row vals))
    (windowOrder plan schema rows) out

theorem emitsWindowRows_of {out : List Bytes}
    (h : (windowOrder plan schema rows).mapM (rowOutput checks plan schema (windowOrder plan schema rows)) =
      .ok out)
    (hr : windowRows checks plan schema rows = .ok out)
    (hsmall : ∀ t ∈ rows, (Lib.partition (plan.partCmp schema) rows t).length < 2 ^ 31) :
    EmitsWindowRows plan schema rows (windowRows checks plan schema rows) := by
  refine ⟨out, hr, ?_⟩
  apply ((List.forall₂_and_left (p := fun t => t ∈ windowOrder plan schema rows) _ _).mpr
    ⟨fun _ ht => ht, Lib.mapM_eq_ok.mp h⟩).imp
  intro t row hrow
  have hmem := (windowOrder_perm plan schema rows).mem_iff.mp hrow.1
  obtain ⟨vals, hv, henc⟩ := rowOutput_exact hrow.2 hrow.1 (by rw [partition_windowOrder]; exact hsmall t hmem)
  refine ⟨vals, hv, henc, ?_⟩
  intro hh
  exact ⟨hh.length_eq.symm, fun i v hi => Schema.getValue_holds hh henc hi⟩

theorem partition_met {p rest : List Bytes} (h : windowOrder plan schema rows = p ++ t :: rest) :
    (Lib.partition (plan.partCmp schema) p t).length + 1 ≤ (Lib.partition (plan.partCmp schema) rows t).length := by
  have hsub := @Lib.partition_append_le _ (plan.partCmp schema) (p ++ [t]) rest t
  rw [← List.append_cons, ← h, partition_windowOrder, Lib.partition_concat_self, List.length_append] at hsub
  exact hsub

theorem windowRows_full (hk : ∀ u ∈ rows, KeysEvaluate plan.sortExprs schema u) (ht : t ∈ rows)
    (hfull : 2 ^ 31 - 1 ≤ (Lib.partition (plan.partCmp schema) rows t).length) (out : List Bytes) :
    windowRows true plan schema rows ≠ .ok out := by
  intro hout
  rcases windowRows_cases hk with ⟨_, _, _, _, _, _, _, _, _, hx⟩ | ⟨_, _, _, _, _, _, _, hx⟩ | ⟨_, _, _, hroom⟩
  · rw [hout] at hx; cases hx
  · rw [hout] at hx; cases hx
  · have := hroom rfl t ht
    omega

/-- The window pass emits each row with its columns and its calls over its frame exactly when no counter of
rows is checked past its maximum. -/
theorem windowRows_emits_each_row (checks : Bool) (plan : WindowFunctionPlanNode) (schema : Schema)
    (rows : List Bytes) (hsmall : rows.length < 2 ^ 31) (he : WindowEvaluates plan schema rows) :
    (windowOrder plan schema rows).Perm rows ∧
    (∀ t ∈ rows, ∀ u ∈ rows, plan.partCmp schema t u = .eq ↔
      List.Forall₂ SameOrNull (plan.partKey schema t).values (plan.partKey schema u).values) ∧
    (EmitsWindowRows plan schema rows (windowRows checks plan schema rows) ↔
      (checks → ∀ t ∈ rows, (Lib.partition (plan.partCmp schema) rows t).length ≠ 2 ^ 31 - 1)) := by
  have hle : ∀ t, (Lib.partition (plan.partCmp schema) rows t).length ≤ rows.length :=
    fun t => List.length_filter_le _ _
  refine ⟨windowOrder_perm plan schema rows, ?_, ?_, ?_⟩
  · intro t ht u hu
    exact cmpKeys_eq_same (keyValues_length (keysEvaluate_append (he.keys t ht)).1)
      (keyValues_length (keysEvaluate_append (he.keys u hu)).1)
  · intro h hc t ht hfull
    subst hc
    obtain ⟨out, hout, _⟩ := h
    exact windowRows_full he.keys ht hfull.ge out hout
  · intro h
    have hok : ∀ u ∈ windowOrder plan schema rows, ∃ row, rowOutput checks plan schema
        (windowOrder plan schema rows) u = .ok row :=
      fun u hu => he.rowOutput_ok hsmall ((windowOrder_perm plan schema rows).mem_iff.mp hu)
    rcases windowRows_cases he.keys
      with ⟨p, rest, u, stop, hs, hu, _, _, hx, _⟩ | ⟨p, t, rest, hs, _, hc, hn, _⟩ | ⟨out, hm, hr, _⟩
    · obtain ⟨row, hrow⟩ := hok u (by simp [hs, hu])
      rw [hx] at hrow
      cases hrow
    · exfalso
      have ht : t ∈ rows := (windowOrder_perm plan schema rows).mem_iff.mp (by simp [hs])
      have hmore := partition_met hs
      have h₁ := h hc t ht
      have h₂ := hle t
      omega
    · exact emitsWindowRows_of hm hr fun t _ => by have := hle t; omega

end

section
local instance windowUnit : FloatUnit := FloatUnit.idle

@[reducible] def rankOnly : WindowFunctionPlanNode :=
  ⟨⟨[(.int, "rank")]⟩, none, none, [(.constant none, .rank)], []⟩

theorem rankOnly_evaluates (n : Nat) : WindowEvaluates rankOnly ⟨[]⟩ (List.replicate n []) := by
  refine ⟨?_, by simp, ?_, by simp, by simp, ?_⟩
  · intro t _
    exact ⟨[], rfl⟩
  · intro a ha t _
    obtain rfl : a = (.constant none, .rank) := by simpa using ha
    exact ⟨none, rfl⟩
  · intro t _ vals h
    obtain ⟨columns, calls, hc, hcalls, rfl⟩ := h
    cases hc
    obtain ⟨r, _, hr, hnil, rfl⟩ := List.forall₂_cons_left_iff.mp hcalls
    obtain rfl := List.forall₂_nil_left_iff.mp hnil
    rw [CallIs, if_pos rfl] at hr
    obtain ⟨i, rfl, _⟩ := hr
    exact ⟨_, rfl⟩

theorem windowRows_emits_two_ranks :
    EmitsWindowRows rankOnly ⟨[]⟩ [[], []] (windowRows true rankOnly ⟨[]⟩ [[], []]) :=
  (windowRows_emits_each_row true rankOnly ⟨[]⟩ [[], []] (by decide) (rankOnly_evaluates 2)).2.2.mpr (by
    intro _ t _ h
    have : (Lib.partition (rankOnly.partCmp ⟨[]⟩) [[], []] t).length ≤ 2 := List.length_filter_le _ _
    omega)

/-- With overflow checks, a partition of `2 ^ 31 - 1` rows makes `row_num` panic after its last row. -/
theorem windowRows_panics_past_last :
    (List.replicate (2 ^ 31 - 1) ([] : Bytes)).length < 2 ^ 31 ∧
      WindowEvaluates rankOnly ⟨[]⟩ (List.replicate (2 ^ 31 - 1) []) ∧
      ¬ EmitsWindowRows rankOnly ⟨[]⟩ (List.replicate (2 ^ 31 - 1) [])
        (windowRows true rankOnly ⟨[]⟩ (List.replicate (2 ^ 31 - 1) [])) := by
  refine ⟨by rw [List.length_replicate]; omega, rankOnly_evaluates _, ?_⟩
  intro h
  obtain ⟨out, hout, _⟩ := h
  have hmem : ([] : Bytes) ∈ List.replicate (2 ^ 31 - 1) [] := List.mem_replicate.mpr ⟨by omega, rfl⟩
  refine windowRows_full (rankOnly_evaluates _).keys hmem ?_ out hout
  rw [Lib.partition, List.filter_replicate, if_pos (by simp [ReflCmp.compare_self]), List.length_replicate]

end

end Cmudb.Sql
