import Cmudb.Sql.WindowCalls

/-!
# Counters that pass their maximum

A program built with overflow checks differs from one built without only in that
it panics where the other one wraps. The aggregates of both are exact as long as
no counter is full when it is to count one more; `AggregationRoom` and
`WindowRoom` say when that is so, of the rows and the plan alone.
-/

namespace Cmudb.Sql

open Std AggregateState

section
variable [FloatUnit] {schema : Schema}

/-! ## Runs with checks and without -/

omit [FloatUnit] in
theorem increment32_checks (n : Int32) :
    increment32 true n = increment32 false n ∨ increment32 true n = .error .panicked := by
  unfold increment32
  by_cases h : n = Int32.maxValue <;> simp [h]

omit [FloatUnit] in
theorem increment64_checks (n : Int64) :
    increment64 true n = increment64 false n ∨ increment64 true n = .error .panicked := by
  unfold increment64
  by_cases h : n = Int64.maxValue <;> simp [h]

theorem stateUpdate_checks (st : AggState) (v : Option Value) :
    st.update true v = st.update false v ∨ st.update true v = .error .panicked := by
  cases v with
  | none => exact .inl rfl
  | some v =>
    cases st with
    | count n =>
      simp only [AggState.update]
      rcases increment32_checks n with h | h <;> simp [h, Except.map]
    | avg total n =>
      simp only [AggState.update]
      cases v.asF64 with
      | none => exact .inl rfl
      | some x => rcases increment64_checks n with h | h <;> simp [h, Except.map]
    | _ => exact .inl rfl

theorem update_checks (t : Bytes) (states : List AggState) (aggregates : List Aggregate) :
    update true schema t states aggregates = update false schema t states aggregates ∨
      update true schema t states aggregates = .error .panicked := by
  induction states generalizing aggregates with
  | nil => exact .inl rfl
  | cons st states ih =>
    cases aggregates with
    | nil => exact .inl rfl
    | cons a aggregates =>
      obtain ⟨e, f⟩ := a
      rw [update, update]
      cases failing (e.evaluate t schema) with
      | error stop => exact .inl rfl
      | ok v =>
        rw [Lib.ok_bind, Lib.ok_bind]
        rcases stateUpdate_checks st v with h | h
        · rw [h]
          cases st.update false v with
          | error stop => exact .inl rfl
          | ok st' => rcases ih aggregates with h | h <;> simp [h]
        · simp [h]

theorem updates_checks (aggregates : List Aggregate) (states : List AggState) (rows : List Bytes) :
    updates true schema aggregates states rows = updates false schema aggregates states rows ∨
      updates true schema aggregates states rows = .error .panicked :=
  Lib.foldlM_same_or (fun states t => update_checks t states aggregates) rows states

theorem updates_not_panicked {aggregates : List Aggregate} {rows : List Bytes} (hsmall : rows.length < 2 ^ 31) :
    updates true schema aggregates (new aggregates) rows ≠ .error .panicked := by
  intro hp
  obtain ⟨p, t, rest, states, rfl, hp, he⟩ := Lib.foldlM_error hp
  have hs : StatesAre true schema p aggregates states := by
    simpa using (statesAre_new true schema aggregates).run hp
  rcases hs.cases t with ⟨_, _, _, _, _, _, _, hx⟩ | ⟨l, a, r, rfl, _, ho, _, _⟩ | ⟨_, _, hx, _⟩
  · rw [he] at hx; cases hx
  · obtain ⟨v, _, _, hfull⟩ := ho
    apply hfull
    apply countFits_of_lt
    have := AggregationExecutor.argValues_length_le schema a.1 p
    simp at hsmall
    omega
  · rw [he] at hx; cases hx

theorem StatesAre.fits {rows : List Bytes} {aggregates : List Aggregate} {states : List AggState}
    (h : StatesAre true schema rows aggregates states) :
    ∀ a ∈ aggregates, CountFits a.2 (argValues schema a.1 rows).length := by
  induction h with
  | nil => simp
  | cons ha _ ih => exact List.forall_mem_cons.mpr ⟨ha.fits rfl, ih⟩

/-! ## Grouped aggregation -/

namespace AggregationExecutor

variable {plan : AggregationPlanNode} {rows : List Bytes}

theorem putRow_checks (groups : Groups) (t : Bytes) :
    putRow true plan schema groups t = putRow false plan schema groups t ∨
    putRow true plan schema groups t = .error .panicked := by
  rw [putRow, putRow, Lib.groupStep, Lib.groupStep]
  cases keyOf plan schema t with
  | error stop => exact .inl rfl
  | ok k => exact Lib.upsert_same_or _ (fun states => update_checks t states plan.aggregates) k groups

def GoesThrough (plan : AggregationPlanNode) (schema : Schema) (rows : List Bytes) : Prop :=
  ∀ p t rest, rows = p ++ t :: rest → ∃ k, evalKey plan.groupBys t schema = .ok k ∧
    ∀ a ∈ plan.aggregates, Takes schema (rowsOf plan schema p k) t a

/-- No counter of a group is full when it is to count a row the fold gets to. -/
def AggregationRoom (plan : AggregationPlanNode) (schema : Schema) (rows : List Bytes) : Prop :=
  ∀ p t rest k l a r, rows = p ++ t :: rest → GoesThrough plan schema p → evalKey plan.groupBys t schema = .ok k →
    plan.aggregates = l ++ a :: r → (∀ b ∈ l, Takes schema (rowsOf plan schema p k) t b) →
    ¬ Overflows schema (rowsOf plan schema p k) t a

theorem goesThrough_of_fold {checks : Bool} {groups : Groups}
    (h : rows.foldlM (putRow checks plan schema) [] = .ok groups) :
    GoesThrough plan schema rows := by
  intro p t rest hr
  subst hr
  obtain ⟨g₁, h₁, h⟩ := Lib.foldlM_left_ok h
  rw [List.foldlM_cons] at h
  obtain ⟨g₂, h₂, h⟩ := Lib.bind_eq_ok h
  rcases putRow_cases (groupsAre_fold h₁) t with ⟨_, _, hx⟩ | ⟨k, states, hk, hst, ⟨_, _, hx⟩ | ⟨states', _, hu, _⟩⟩
  · rw [h₂] at hx; cases hx
  · rw [h₂] at hx; cases hx
  · refine ⟨k, hk, ?_⟩
    intro a ha
    rcases hst.cases t with ⟨_, _, _, _, _, _, _, hx⟩ | ⟨_, _, _, _, _, _, _, hx⟩ | ⟨hall, _⟩
    · rw [hu] at hx; cases hx
    · rw [hu] at hx; cases hx
    · exact (hall a ha).1

omit [FloatUnit] in
theorem split_cases {α : Type} {l r l' r' : List α} {a a' : α} (h : l ++ a :: r = l' ++ a' :: r') :
    a' ∈ l ∨ a = a' ∨ a ∈ l' := by
  rcases List.append_eq_append_iff.mp h with ⟨as, rfl, hr⟩ | ⟨as, rfl, hr⟩
  · cases as with
    | nil => exact .inr (.inl (by simpa using (List.cons.inj hr).1))
    | cons x as => exact .inr (.inr (by simp [(List.cons.inj hr).1]))
  · cases as with
    | nil => exact .inr (.inl (by simpa using (List.cons.inj hr).1.symm))
    | cons x as => exact .inl (by simp [(List.cons.inj hr).1])

theorem not_failsOn {p : List Bytes} {t : Bytes} {a : Aggregate} (h : Takes schema p t a) (e : ExecutorError) :
    ¬ FailsOn schema p t a e := by
  intro hf
  obtain ⟨v, hv, hno⟩ := h
  rcases hf with hf | ⟨u, hu, hr⟩
  · rw [hv] at hf; cases hf
  · rw [hv] at hu
    cases hu
    exact hno u e rfl hr

theorem takes_of_overflows {p : List Bytes} {t : Bytes} {a : Aggregate} (h : Overflows schema p t a) :
    Takes schema p t a := by
  obtain ⟨u, hu, hno, _⟩ := h
  refine ⟨some u, hu, ?_⟩
  intro u' e hu'
  cases hu'
  exact hno e

theorem fold_panics {p rest : List Bytes} {t : Bytes} {k : ExprKey} {l r : List Aggregate} {a : Aggregate}
    (hp : GoesThrough plan schema p) (hk : evalKey plan.groupBys t schema = .ok k)
    (ha : plan.aggregates = l ++ a :: r) (hl : ∀ b ∈ l, Takes schema (rowsOf plan schema p k) t b)
    (ho : Overflows schema (rowsOf plan schema p k) t a) :
    (p ++ t :: rest).foldlM (putRow true plan schema) [] = .error .panicked := by
  cases hf : p.foldlM (putRow true plan schema) [] with
  | error stop =>
    obtain ⟨p', t', rest', groups, rfl, _, ⟨e, he, _⟩ | ⟨k', states, hk', hst, hu⟩⟩ := putRow_error hf
    · obtain ⟨k', hk', _⟩ := hp p' t' rest' rfl
      rw [he] at hk'
      cases hk'
    · obtain ⟨k'', hk'', hall⟩ := hp p' t' rest' rfl
      rw [hk'] at hk''
      cases hk''
      rcases hst.cases t' with ⟨_, b, _, e, hb, _, hfail, _⟩ | ⟨_, _, _, _, _, _, _, hx⟩ | ⟨_, _, hx, _⟩
      · exact absurd hfail (not_failsOn (hall b (by simp [hb])) e)
      · rw [hu] at hx
        cases hx
        exact Lib.foldlM_error_append hf _
      · rw [hu] at hx
        cases hx
  | ok groups =>
    rw [Lib.foldlM_append_ok hf, List.foldlM_cons]
    rcases putRow_cases (groupsAre_fold hf) t with ⟨e, he, _⟩ | ⟨k', states, hk', hst, hx⟩
    · rw [hk] at he; cases he
    · rw [hk] at hk'
      cases hk'
      have hu : update true schema t states plan.aggregates = .error .panicked := by
        rcases hst.cases t with ⟨l', b, r', e, hb, hl', hfail, _⟩ | ⟨_, _, _, _, _, _, _, hu⟩ | ⟨hall, _⟩
        · exfalso
          rcases split_cases (ha.symm.trans hb) with hm | rfl | hm
          · exact not_failsOn (hl b hm) e hfail
          · exact not_failsOn (takes_of_overflows ho) e hfail
          · exact (hl' a hm).2 rfl ho
        · exact hu
        · exact absurd ho ((hall a (by simp [ha])).2 rfl)
      rcases hx with ⟨stop, hu', hx⟩ | ⟨_, _, hu', _⟩
      · rw [hu] at hu'
        cases hu'
        rw [hx]
        rfl
      · rw [hu] at hu'
        cases hu'

theorem fold_not_panicked (h : AggregationRoom plan schema rows) :
    rows.foldlM (putRow true plan schema) [] ≠ .error .panicked := by
  intro hp
  obtain ⟨p, t, rest, groups, hs, hf, ⟨_, _, hx⟩ | ⟨k, states, hk, hst, hu⟩⟩ := putRow_error hp
  · cases hx
  · rcases hst.cases t with ⟨_, _, _, _, _, _, _, hx⟩ | ⟨l, a, r, ha, hl, ho, _⟩ | ⟨_, _, hx, _⟩
    · rw [hu] at hx; cases hx
    · exact h p t rest k l a r hs (goesThrough_of_fold hf) hk ha (fun b hb => (hl b hb).1) ho
    · rw [hu] at hx; cases hx

theorem groupsOf_fold {groups : Groups} (h : rows.foldlM (putRow true plan schema) [] = .ok groups)
    (order : HashOrder (ExprKey × List AggState)) :
    GroupsOf plan schema rows ((order.arrange (withEmptyGroup plan groups)).map fun g => (g.1, values g.2)) := by
  have hgr := groupsAre_fold h
  apply GroupsOf.arrange _ ((order.perm _).map _)
  apply groupsOf_entries hgr
  intro a ha g hg
  exact (states_of_fold (hgr.folded g hg)).fits a ha

variable {W : Type} {order : HashOrder (ExprKey × List AggState)} {fuel batchSize : Nat} {child : Executor W}
  {cs cs₂ : child.State} {w w₂ : W} {batches : List Batch} {iter : Option Groups}

/-- No counter of the executor wraps or panics, and what it holds for the groups is exact. -/
def ExactGroups (order : HashOrder (ExprKey × List AggState)) (fuel batchSize : Nat) (plan : AggregationPlanNode)
    (child : Executor W) (cs : child.State) (iter : Option Groups) (w : W) (rows : List Bytes) : Prop :=
  ((AggregationExecutor true order fuel plan child batchSize).open (cs, iter) w).1 ≠ .error .panicked ∧
    ∀ checks s' w', (AggregationExecutor checks order fuel plan child batchSize).open (cs, iter) w =
      (.ok (), s', w') →
      ∃ groups, s'.2 = some groups ∧ GroupsOf plan child.schema rows (groups.map fun g => (g.1, values g.2))

theorem exactGroups_iff (hc : child.Supplies cs w batches cs₂ w₂) (hfuel : batches.length < fuel) :
    ExactGroups order fuel batchSize plan child cs iter w (batches.flatten.map Prod.fst) ↔
      AggregationRoom plan child.schema (batches.flatten.map Prod.fst) := by
  obtain ⟨cs₁, w₁, ho, hy⟩ := hc
  refine ⟨?_, ?_⟩
  · intro hex p t rest k l a r hs hp hk ha hl hov
    apply hex.1
    apply open_error ho hy hfuel
    rw [hs]
    exact fold_panics hp hk ha hl hov
  · intro hroom
    have hno := fold_not_panicked hroom
    refine ⟨?_, ?_⟩
    · intro hp
      cases hf : (batches.flatten.map Prod.fst).foldlM (putRow true plan child.schema) [] with
      | error stop =>
        rw [open_error ho hy hfuel hf] at hp
        cases hp
        exact hno hf
      | ok groups =>
        rw [open_ok ho hy hfuel hf] at hp
        cases hp
    · intro checks s' w' hopen
      cases hf : (batches.flatten.map Prod.fst).foldlM (putRow checks plan child.schema) [] with
      | error stop =>
        have := @open_error _ checks _ _ order _ batchSize _ _ _ _ _ _ _ _ iter ho hy hfuel _ hf
        rw [hopen] at this
        cases this
      | ok groups =>
        rw [open_ok ho hy hfuel hf] at hopen
        cases hopen
        refine ⟨_, rfl, groupsOf_fold ?_ order⟩
        cases checks with
        | true => exact hf
        | false =>
          rcases Lib.foldlM_same_or putRow_checks (batches.flatten.map Prod.fst) [] with h | h
          · exact h.trans hf
          · exact absurd h hno

end AggregationExecutor

/-! ## Windows -/

variable {plan : WindowFunctionPlanNode} {rows : List Bytes}

def ExactWindow (plan : WindowFunctionPlanNode) (schema : Schema) (rows : List Bytes) : Prop :=
  windowRows true plan schema rows ≠ .error .panicked ∧
    ∀ checks out, windowRows checks plan schema rows = .ok out → EmitsWindowRows plan schema rows (.ok out)

/-- `row_num` has room for every row the pass gets to: the rows before its peers become rows of the output. -/
def WindowRoom (plan : WindowFunctionPlanNode) (schema : Schema) (rows : List Bytes) : Prop :=
  (∀ u ∈ rows, KeysEvaluate plan.sortExprs schema u) → ∀ p t rest, windowOrder plan schema rows = p ++ t :: rest →
    (∀ u ∈ p, ¬ Lib.Peers (plan.partCmp schema) (plan.ordCmp schema) u t →
      ∃ out, rowOutput true plan schema (windowOrder plan schema rows) u = .ok out) →
    (Lib.partition (plan.partCmp schema) p t).length + 1 < 2 ^ 31 - 1

theorem rowOutput_checks (t : Bytes) :
    rowOutput true plan schema rows t = rowOutput false plan schema rows t ∨
      rowOutput true plan schema rows t = .error .panicked := by
  unfold rowOutput
  rcases @updates_checks _ schema plan.aggregates (new plan.aggregates) (windowFrame plan schema rows t) with h | h
  · rw [h]
    exact .inl rfl
  · rw [h]
    exact .inr rfl

theorem emitRow_not_panicked (states : List AggState) (t : Bytes) :
    emitRow plan schema states t ≠ .error .panicked := by
  unfold emitRow
  cases plan.columns.mapM fun (e : Expression ColIdx) => e.evaluate t schema with
  | error e => simp [failing]
  | ok columns =>
    simp only [failing, Lib.ok_bind]
    split <;> simp

theorem rowOutput_not_panicked {t : Bytes} (h : (windowFrame plan schema rows t).length < 2 ^ 31) :
    rowOutput true plan schema rows t ≠ .error .panicked := by
  rw [rowOutput]
  cases hu : updates true schema plan.aggregates (new plan.aggregates) (windowFrame plan schema rows t) with
  | error stop =>
    intro hp
    cases hp
    exact updates_not_panicked h hu
  | ok states =>
    rw [Lib.ok_bind]
    exact emitRow_not_panicked _ t

theorem windowFrame_small {p rest : List Bytes} {u : Bytes} (hk : ∀ u ∈ rows, KeysEvaluate plan.sortExprs schema u)
    (hs : windowOrder plan schema rows = p ++ rest) (hu : u ∈ p)
    (hrest : ∀ r ∈ rest, ¬ Lib.Peers (plan.partCmp schema) (plan.ordCmp schema) u r) :
    (windowFrame plan schema (windowOrder plan schema rows) u).length ≤
      (Lib.partition (plan.partCmp schema) p u).length := by
  have ho : Lib.Ordered (plan.partCmp schema) (plan.ordCmp schema) (windowOrder plan schema rows) :=
    WindowFunctionPlanNode.ordered_sortRows hk
  rw [windowFrame_eq]
  rw [hs] at ho ⊢
  exact Lib.frame_le_partition ho hu hrest

theorem windowRows_panics (hk : ∀ u ∈ rows, KeysEvaluate plan.sortExprs schema u) {p rest : List Bytes} {t : Bytes}
    (hs : windowOrder plan schema rows = p ++ t :: rest)
    (hall : ∀ u ∈ p, ¬ Lib.Peers (plan.partCmp schema) (plan.ordCmp schema) u t →
      ∃ out, rowOutput true plan schema (windowOrder plan schema rows) u = .ok out)
    (hfull : 2 ^ 31 - 1 ≤ (Lib.partition (plan.partCmp schema) p t).length + 1) :
    windowRows true plan schema rows = .error .panicked := by
  have hmet := partition_met hs
  rcases windowRows_cases hk
    with ⟨p', rest', u, stop, hs', hu, hrest, hroom, hx, hr⟩ | ⟨_, _, _, _, _, _, _, hr⟩ | ⟨_, _, _, hroom⟩
  · exfalso
    rcases List.append_eq_append_iff.mp (hs.symm.trans hs') with ⟨as, hp', has⟩ | ⟨as, hp, has⟩
    · cases as with
      | nil =>
        -- the failing row is one before `t`
        rw [List.append_nil] at hp'
        rw [List.nil_append] at has
        subst hp'
        obtain ⟨out, hout⟩ := hall u hu (hrest t (by simp [← has]))
        rw [hx] at hout
        cases hout
      | cons x as =>
        -- the pass had got past `t`
        obtain ⟨rfl, _⟩ := List.cons.inj has
        have hle := hroom rfl t (by simp [hp'])
        have hsub := @Lib.partition_append_le _ (plan.partCmp schema) (p ++ [t]) as t
        rw [← List.append_cons, ← hp', Lib.partition_concat_self, List.length_append, List.length_singleton] at hsub
        omega
    · have hne : ¬ Lib.Peers (plan.partCmp schema) (plan.ordCmp schema) u t := hrest t (by simp [has])
      obtain ⟨out, hout⟩ := hall u (by simp [hp, hu]) hne
      rw [hx] at hout
      cases hout
  · exact hr
  · have := hroom rfl t ((windowOrder_perm plan schema rows).mem_iff.mp (by simp [hs]))
    omega

theorem windowRows_keys {checks : Bool} {out : List Bytes} (h : windowRows checks plan schema rows = .ok out) :
    ∀ u ∈ rows, KeysEvaluate plan.sortExprs schema u := by
  obtain ⟨sorted, hs, _⟩ := Lib.bind_eq_ok h
  cases hx : sortedByExprs rows id plan.sortExprs schema with
  | error e => rw [hx] at hs; cases hs
  | ok sorted' => exact sortedByExprs_inv hx

/-- Where every row has room, no partition of the rows emitted is too large to count. -/
theorem partitions_small (hk : ∀ u ∈ rows, KeysEvaluate plan.sortExprs schema u)
    (hroom : WindowRoom plan schema rows)
    (hall : ∀ u ∈ windowOrder plan schema rows, ∃ out, rowOutput false plan schema
      (windowOrder plan schema rows) u = .ok out)
    {q rest : List Bytes} (hs : windowOrder plan schema rows = q ++ rest) :
    ∀ b ∈ q, (Lib.partition (plan.partCmp schema) q b).length < 2 ^ 31 - 1 := by
  induction q using List.reverseRecOn generalizing rest with
  | nil => simp
  | append_singleton q t ih =>
    have hs' : windowOrder plan schema rows = q ++ t :: rest := by rw [hs]; simp
    have ih := ih hs'
    have hlt : (Lib.partition (plan.partCmp schema) q t).length + 1 < 2 ^ 31 - 1 := by
      apply hroom hk q t rest hs'
      intro u hu hut
      have ho : Lib.Ordered (plan.partCmp schema) (plan.ordCmp schema) (q ++ t :: rest) := by
        rw [← hs']
        exact WindowFunctionPlanNode.ordered_sortRows hk
      have hframe := windowFrame_small hk hs' hu (Lib.not_peers_after ho hu hut)
      have hu' := ih u hu
      obtain ⟨out, hout⟩ := hall u (by simp [hs', hu])
      refine ⟨out, ?_⟩
      rcases @rowOutput_checks _ schema plan (windowOrder plan schema rows) u with h | h
      · exact h.trans hout
      · exact absurd h (rowOutput_not_panicked (by omega))
    intro b hb
    have hle : ∀ b ∈ q, (Lib.partition (plan.partCmp schema) q b).length ≤ 2 ^ 31 - 1 - 1 := by
      intro b hb
      have := ih b hb
      omega
    have := Lib.partition_concat_le hle (by omega) b hb
    omega

theorem exactWindow_iff : ExactWindow plan schema rows ↔ WindowRoom plan schema rows := by
  refine ⟨?_, ?_⟩
  · intro hex hk p t rest hs hall
    by_contra hfull
    exact hex.1 (windowRows_panics hk hs hall (by omega))
  · intro hroom
    refine ⟨?_, ?_⟩
    · intro hp
      have hk : ∀ u ∈ rows, KeysEvaluate plan.sortExprs schema u := by
        cases hx : sortedByExprs rows id plan.sortExprs schema with
        | error e => rw [windowRows, hx] at hp; cases hp
        | ok sorted => exact sortedByExprs_inv hx
      rcases windowRows_cases hk
        with ⟨p, rest, u, stop, hs, hu, hrest, hle, hx, hr⟩ | ⟨p, t, rest, hs, hall, _, hn, _⟩ | ⟨_, _, hr, _⟩
      · rw [hp] at hr
        cases hr
        have hframe := windowFrame_small hk hs hu hrest
        have := hle rfl u hu
        exact rowOutput_not_panicked (by omega) hx
      · have := hroom hk p t rest hs hall
        omega
      · rw [hp] at hr
        cases hr
    · intro checks out hout
      have hk := windowRows_keys hout
      rcases windowRows_cases hk
        with ⟨_, _, _, _, _, _, _, _, _, hr⟩ | ⟨_, _, _, _, _, _, _, hr⟩ | ⟨out', hm, hr, hle⟩
      · rw [hout] at hr; cases hr
      · rw [hout] at hr; cases hr
      · rw [← hout]
        apply emitsWindowRows_of hm hr
        intro t ht
        cases checks with
        | true =>
          have := hle rfl t ht
          omega
        | false =>
          have := partitions_small hk hroom (fun u hu => Lib.mapM_ok_mem hm hu) (List.append_nil _).symm t
            ((windowOrder_perm plan schema rows).mem_iff.mpr ht)
          rw [partition_windowOrder] at this
          omega

/-- Every COUNT, SUM and RANK is exact or an error, and no counter wraps or panics, exactly when no counter is full
at a row that is got to. -/
theorem integer_results_exact_iff {W : Type} (order : HashOrder (ExprKey × List AggState)) (fuel batchSize : Nat)
    (plan : AggregationPlanNode) (child : Executor W) (cs cs₂ : child.State) (w w₂ : W) (batches : List Batch)
    (iter : Option Groups) (hc : child.Supplies cs w batches cs₂ w₂) (hfuel : batches.length < fuel)
    (wplan : WindowFunctionPlanNode) (schema : Schema) (rows : List Bytes) :
    (AggregationExecutor.ExactGroups order fuel batchSize plan child cs iter w (batches.flatten.map Prod.fst) ↔
      AggregationExecutor.AggregationRoom plan child.schema (batches.flatten.map Prod.fst)) ∧
    (ExactWindow wplan schema rows ↔ WindowRoom wplan schema rows) :=
  ⟨AggregationExecutor.exactGroups_iff hc hfuel, exactWindow_iff⟩

end

section
local instance counterUnit : FloatUnit := FloatUnit.idle

@[reducible] def countOnly : AggregationPlanNode := ⟨⟨[(.int, "count")]⟩, [], [(.constant (some (.int 1)), .count)]⟩

theorem countOnly_rowsOf (n : Nat) (k : ExprKey) (hk : evalKey countOnly.groupBys [] ⟨[]⟩ = .ok k) :
    argValues ⟨[]⟩ (.constant (some (.int 1))) (AggregationExecutor.rowsOf countOnly ⟨[]⟩ (List.replicate n []) k) =
      List.replicate n (.int 1) := by
  cases hk
  rw [AggregationExecutor.rowsOf, Lib.members, List.filter_replicate, if_pos (by rfl), argValues,
    List.filterMap_replicate]
  rfl

theorem countOnly_takes (p : List Bytes) (t : Bytes) : ∀ a ∈ countOnly.aggregates, Takes ⟨[]⟩ p t a := by
  intro a ha
  obtain rfl : a = (.constant (some (.int 1)), .count) := by simpa using ha
  exact ⟨some (.int 1), rfl, by intro u e _; simp [Rejects]⟩

theorem counts_of_two_rows :
    AggregationExecutor.ExactGroups .inserted 2 1 countOnly (.replay ⟨[]⟩)
      [[([], none), ([], none)]] none () [[], []] ∧
      ExactWindow rankOnly ⟨[]⟩ [[], []] := by
  have h := integer_results_exact_iff .inserted 2 1 countOnly (.replay ⟨[]⟩) [[([], none), ([], none)]] [] () ()
    [[([], none), ([], none)]] none (Executor.replay_supplies _ _) (by decide) rankOnly ⟨[]⟩ [[], []]
  refine ⟨h.1.mpr ?_, h.2.mpr ?_⟩
  · intro p t rest k l a r hs _ _ _ _ ho
    obtain ⟨u, _, _, hfull⟩ := ho
    apply hfull
    apply countFits_of_lt
    have h1 := AggregationExecutor.argValues_length_le ⟨[]⟩ a.1 (AggregationExecutor.rowsOf countOnly ⟨[]⟩ p k)
    have h2 : (AggregationExecutor.rowsOf countOnly ⟨[]⟩ p k).length ≤ p.length := List.length_filter_le _ _
    have h3 : p.length < 2 := by
      have := congrArg List.length hs
      simp at this
      omega
    exact Nat.lt_of_le_of_lt (Nat.succ_le_succ (h1.trans h2)) (by omega)
  · intro _ p t rest hs _
    have h1 : (Lib.partition (rankOnly.partCmp ⟨[]⟩) [[], []] t).length ≤ 2 := List.length_filter_le _ _
    have h2 := partition_met hs
    omega

theorem countOnly_full {n : Nat} (hn : n = 2 ^ 31 - 1) :
    ¬ AggregationExecutor.AggregationRoom countOnly ⟨[]⟩ (List.replicate (n + 1) []) := by
  intro hroom
  refine hroom (List.replicate n []) [] [] ⟨[]⟩ [] (.constant (some (.int 1)),
    .count) [] List.replicate_succ' ?_ rfl rfl
    (by simp) ⟨.int 1, rfl, by intro e; simp [Rejects], ?_⟩
  · intro p t rest _
    exact ⟨⟨[]⟩, rfl, countOnly_takes _ t⟩
  · have hlen := congrArg List.length (countOnly_rowsOf n ⟨[]⟩ rfl)
    rw [List.length_replicate] at hlen
    intro hfit
    have := hfit _ rfl
    dsimp only at this
    omega

theorem countOnly_room (n : Nat) (h : AggregationExecutor.ExactGroups .inserted 2 1 countOnly (.replay ⟨[]⟩)
      [List.replicate n ([], none)] none () (List.replicate n [])) :
    AggregationExecutor.AggregationRoom countOnly ⟨[]⟩ (List.replicate n []) := by
  have hrows : ([List.replicate n (([], none) : Row)].flatten.map Prod.fst) = List.replicate n [] := by
    rw [List.flatten_singleton, List.map_replicate]
  rw [← hrows] at h ⊢
  exact (AggregationExecutor.exactGroups_iff (Executor.replay_supplies ⟨[]⟩ [List.replicate n ([], none)])
    (by decide : 1 < 2)).mp h

/-- With overflow checks, `COUNT` panics at the row number `2 ^ 31`. -/
theorem count_panics :
    ¬ AggregationExecutor.ExactGroups .inserted 2 1 countOnly (.replay ⟨[]⟩)
      [List.replicate (2 ^ 31) ([], none)] none ()
      (List.replicate (2 ^ 31) []) := by
  obtain ⟨n, hn⟩ : ∃ n, 2 ^ 31 = n + 1 := ⟨2 ^ 31 - 1, by omega⟩
  rw [hn]
  intro h
  exact countOnly_full (by omega) (countOnly_room (n + 1) h)

end

end Cmudb.Sql
