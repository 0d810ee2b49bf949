import Cmudb.Sql.PlanSchemas

/-!
# Grouped aggregation

`open` folds the child's rows into one entry of a hash map for each group, and
the entries become rows as they are handed out. What the entries are after any
rows comes from `Lib.Grouped`; which rows the fold gets through comes from the
case analysis of the aggregates.
-/

namespace Cmudb.Sql

structure AggregationPlanNode where
  schema : Schema
  groupBys : List (Expression ColIdx)
  aggregates : List Aggregate

abbrev Groups := List (ExprKey × List AggState)

namespace AggregationExecutor

variable [FloatUnit]

def keyOf (plan : AggregationPlanNode) (schema : Schema) (tuple : Bytes) : Except Stop ExprKey :=
  failing (evalKey plan.groupBys tuple schema)

def putRow (checks : Bool) (plan : AggregationPlanNode) (schema : Schema) (groups : Groups) (tuple : Bytes) :
    Except Stop Groups :=
  Lib.groupStep (keyOf plan schema) (AggregateState.new plan.aggregates)
    (fun states tuple => AggregateState.update checks schema tuple states plan.aggregates) groups tuple

def putBatch (checks : Bool) (plan : AggregationPlanNode) (schema : Schema) (groups : Groups) (batch : Batch) :
    Except Stop Groups :=
  batch.foldlM (fun groups row => putRow checks plan schema groups row.1) groups

/-- Without GROUP BY there is a group even when there are no rows. -/
def withEmptyGroup (plan : AggregationPlanNode) (groups : Groups) : Groups :=
  if plan.groupBys.isEmpty && groups.isEmpty then [(⟨[]⟩, AggregateState.new plan.aggregates)] else groups

def groupRow (plan : AggregationPlanNode) (group : ExprKey × List AggState) : Except Stop Row :=
  match plan.schema.encodeTuple (group.1.values ++ AggregateState.values group.2) with
  | .ok tuple => .ok (tuple, none)
  | .error e => .error (.failed (.catalog e))

variable {W : Type} (checks : Bool) (order : HashOrder (ExprKey × List AggState)) (fuel : Nat)
  (plan : AggregationPlanNode) (child : Executor W) (batchSize : Nat)

def «open» (s : child.State × Option Groups) (w : W) : Outcome (child.State × Option Groups) W Unit :=
  match child.open s.1 w with
  | (.error stop, cs, w) => (.error stop, (cs, s.2), w)
  | (.ok (), cs, w) =>
    match child.foldBatches (putBatch checks plan child.schema) fuel [] cs w with
    | (.error stop, cs, w) => (.error stop, (cs, s.2), w)
    | (.ok groups, cs, w) => (.ok (), (cs, some (order.arrange (withEmptyGroup plan groups))), w)

def nextBatch (s : child.State × Option Groups) (w : W) : Outcome (child.State × Option Groups) W (Option Batch) :=
  match s.2 with
  | none => (.error (.failed (.notOpened "AggregationExecutor")), s, w)
  | some iter =>
    match fillBatch (groupRow plan) batchSize iter with
    | (.error stop, rest) => (.error stop, (s.1, some rest), w)
    | (.ok rows, rest) => (.ok (Batch.fromRows rows), (s.1, some rest), w)

def close (s : child.State × Option Groups) (w : W) : Outcome (child.State × Option Groups) W Unit :=
  match child.close s.1 w with
  | (r, cs, w) => (r, (cs, s.2), w)

end AggregationExecutor

def AggregationExecutor [FloatUnit] {W : Type} (checks : Bool)
    (order : HashOrder (ExprKey × List AggState)) (fuel : Nat) (plan : AggregationPlanNode) (child : Executor W)
    (batchSize : Nat) : Executor W where
  State := child.State × Option Groups
  schema := plan.schema
  «open» := AggregationExecutor.open checks order fuel plan child
  nextBatch := AggregationExecutor.nextBatch plan child batchSize
  close := AggregationExecutor.close child

/-! ## What the entries are -/

section
variable [FloatUnit] {checks : Bool} {schema : Schema} {rows : List Bytes} {groups : Groups}

theorem StatesAre.next {aggregates : List Aggregate} {states states' : List AggState}
    (h : StatesAre checks schema rows aggregates states) {t : Bytes}
    (hu : AggregateState.update checks schema t states aggregates = .ok states') :
    StatesAre checks schema (rows ++ [t]) aggregates states' := by
  rcases h.cases t with ⟨_, _, _, _, _, _, _, hx⟩ | ⟨_, _, _, _, _, _, _, hx⟩ | ⟨_, states₁, hx, hs⟩
  · rw [hu] at hx; cases hx
  · rw [hu] at hx; cases hx
  · rw [hu] at hx; cases hx; exact hs

theorem StatesAre.run {rows₀ rows : List Bytes} {aggregates : List Aggregate} {states₀ states : List AggState}
    (h : StatesAre checks schema rows₀ aggregates states₀)
    (hr : rows.foldlM (fun states t => AggregateState.update checks schema t states aggregates) states₀ =
      .ok states) :
    StatesAre checks schema (rows₀ ++ rows) aggregates states := by
  induction rows generalizing rows₀ states₀ with
  | nil => cases hr; simpa using h
  | cons t rows ih =>
    rw [List.foldlM_cons] at hr
    obtain ⟨states₁, hu, hr⟩ := Lib.bind_eq_ok hr
    have := ih (h.next hu) hr
    rwa [List.append_assoc] at this

namespace AggregationExecutor

variable {plan : AggregationPlanNode}

abbrev rowsOf (plan : AggregationPlanNode) (schema : Schema) (rows : List Bytes) (k : ExprKey) : List Bytes :=
  Lib.members (keyOf plan schema) rows k

abbrev GroupsAre (checks : Bool) (plan : AggregationPlanNode) (schema : Schema) (rows : List Bytes)
    (groups : Groups) : Prop :=
  Lib.Grouped (keyOf plan schema) (AggregateState.new plan.aggregates)
    (fun states tuple => AggregateState.update checks schema tuple states plan.aggregates) rows groups

theorem putBatch_rows (batches : List Batch) (groups : Groups) :
    batches.foldlM (putBatch checks plan schema) groups =
      (batches.flatten.map Prod.fst).foldlM (putRow checks plan schema) groups := by
  induction batches generalizing groups with
  | nil => rfl
  | cons batch batches ih =>
    rw [List.foldlM_cons, List.flatten_cons, List.map_append, List.foldlM_append, putBatch, List.foldlM_map]
    congr 1
    funext groups
    exact ih groups

theorem states_of_fold {states : List AggState}
    (h : rows.foldlM (fun states t => AggregateState.update checks schema t states plan.aggregates)
      (AggregateState.new plan.aggregates) = .ok states) : StatesAre checks schema rows plan.aggregates states := by
  simpa using (statesAre_new checks schema plan.aggregates).run h

theorem keyOf_eq {t : Bytes} {k : ExprKey} :
    keyOf plan schema t = .ok k ↔ evalKey plan.groupBys t schema = .ok k := by
  unfold keyOf failing
  split <;> simp_all

/-! ## Rows that stop the fold -/

/-- One more row: it has no key, or its group's aggregates were folded over the rows before it. -/
theorem putRow_cases (h : GroupsAre checks plan schema rows groups) (t : Bytes) :
    (∃ e, evalKey plan.groupBys t schema = .error e ∧ putRow checks plan schema groups t = .error (.failed e)) ∨
    ∃ k states, evalKey plan.groupBys t schema = .ok k ∧
      StatesAre checks schema (rowsOf plan schema rows k) plan.aggregates states ∧
      ((∃ stop, AggregateState.update checks schema t states plan.aggregates = .error stop ∧
          putRow checks plan schema groups t = .error stop) ∨
        ∃ states' groups', AggregateState.update checks schema t states plan.aggregates = .ok states' ∧
          putRow checks plan schema groups t = .ok groups') := by
  rcases h.cases t with ⟨stop, hk, hp⟩ | ⟨k, states, hk, hst, hp⟩
  · left
    unfold keyOf failing at hk
    split at hk
    · cases hk
    · cases hk
      exact ⟨_, by assumption, hp⟩
  · exact .inr ⟨k, states, keyOf_eq.mp hk, states_of_fold hst, hp⟩

theorem groupsAre_fold (h : rows.foldlM (putRow checks plan schema) [] = .ok groups) :
    GroupsAre checks plan schema rows groups := by simpa using Lib.grouped_nil.run h

/-- The fold fails or panics at a row, whose group's aggregates were folded over the rows before it. -/
theorem putRow_error {stop : Stop} (h : rows.foldlM (putRow checks plan schema) [] = .error stop) :
    ∃ p t rest groups, rows = p ++ t :: rest ∧ p.foldlM (putRow checks plan schema) [] = .ok groups ∧
      ((∃ e, evalKey plan.groupBys t schema = .error e ∧ stop = .failed e) ∨
      ∃ k states, evalKey plan.groupBys t schema = .ok k ∧
      StatesAre checks schema (rowsOf plan schema p k) plan.aggregates states ∧
        AggregateState.update checks schema t states plan.aggregates = .error stop) := by
  obtain ⟨p, t, rest, groups, rfl, hp, hs⟩ := Lib.foldlM_error h
  refine ⟨p, t, rest, groups, rfl, hp, ?_⟩
  rcases putRow_cases (groupsAre_fold hp) t with ⟨e, hk, hx⟩ | ⟨k, states, hk, hst, ⟨stop', hu, hx⟩ | ⟨_, _, _, hx⟩⟩
  · rw [hs] at hx
    cases hx
    exact .inl ⟨e, hk, rfl⟩
  · rw [hs] at hx
    cases hx
    exact .inr ⟨k, states, hk, hst, hu⟩
  · rw [hs] at hx
    cases hx

/-! ## The rows of the groups -/

/-- The groups of `rows` and, for each, its aggregates over its rows. -/
structure GroupsOf (plan : AggregationPlanNode) (schema : Schema) (rows : List Bytes)
    (out : List (ExprKey × List (Option Value))) : Prop where
  distinct : out.Pairwise fun a b => ¬ a.1 == b.1
  covered : ∀ t ∈ rows, ∃ k, evalKey plan.groupBys t schema = .ok k ∧ ∃ g ∈ out, g.1 == k
  present : ∀ g ∈ out, (∃ t ∈ rows, evalKey plan.groupBys t schema = .ok g.1) ∨
    (rows = [] ∧ plan.groupBys = [] ∧ g.1 = ⟨[]⟩)
  nonempty : plan.groupBys = [] → out ≠ []
  aggregates : ∀ g ∈ out,
    List.Forall₂ (fun a r => AggregateIs a.2 (argValues schema a.1 (rowsOf plan schema rows g.1)) r)
      plan.aggregates g.2

theorem withEmptyGroup_grouped (h : GroupsAre checks plan schema rows groups) :
    groups = [] ∧ rows = [] ∧ plan.groupBys = [] ∧
    withEmptyGroup plan groups = [(⟨[]⟩, AggregateState.new plan.aggregates)] ∨
      withEmptyGroup plan groups = groups ∧ (plan.groupBys = [] → groups ≠ []) := by
  unfold withEmptyGroup
  by_cases hc : plan.groupBys.isEmpty && groups.isEmpty
  · rw [if_pos hc]
    simp only [Bool.and_eq_true, List.isEmpty_iff] at hc
    refine .inl ⟨hc.2, ?_, hc.1, rfl⟩
    cases rows with
    | nil => rfl
    | cons t rows =>
      obtain ⟨g, hg, _⟩ := h.covered t (by simp)
      rw [hc.2] at hg
      cases hg
  · rw [if_neg hc]
    refine .inr ⟨rfl, ?_⟩
    intro hb hg
    simp [hb, hg] at hc

theorem aggregatesAre {aggregates : List Aggregate} {states : List AggState}
    (h : StatesAre checks schema rows aggregates states)
    (hfit : ∀ a ∈ aggregates, CountFits a.2 (argValues schema a.1 rows).length) :
    List.Forall₂ (fun a r => AggregateIs a.2 (argValues schema a.1 rows) r) aggregates
      (AggregateState.values states) := by
  induction h with
  | nil => exact .nil
  | @cons a st aggregates states ha _ ih =>
    refine .cons ?_ (ih fun b hb => hfit b (by simp [hb]))
    rcases ha.state.value (hfit a (by simp)) with hr | hv
    · rw [hr]
      trivial
    · exact hv

theorem groupsOf_entries (h : GroupsAre checks plan schema rows groups)
    (hfit : ∀ a ∈ plan.aggregates, ∀ g ∈ groups,
      CountFits a.2 (argValues schema a.1 (rowsOf plan schema rows g.1)).length) :
    GroupsOf plan schema rows ((withEmptyGroup plan groups).map fun g => (g.1, AggregateState.values g.2)) := by
  rcases withEmptyGroup_grouped h with ⟨rfl, rfl, hb, hw⟩ | ⟨hw, hne⟩
  · rw [hw]
    have hnew := statesAre_new checks schema plan.aggregates
    refine ⟨by simp, by simp, by simp [hb], by simp, ?_⟩
    intro g hg
    obtain rfl : g = (⟨[]⟩, AggregateState.values (AggregateState.new plan.aggregates)) := by simpa using hg
    apply aggregatesAre hnew
    intro a _ m _
    simp [argValues]
  · rw [hw]
    refine ⟨?_, ?_, ?_, ?_, ?_⟩
    · exact List.pairwise_map.mpr h.distinct
    · intro t ht
      obtain ⟨g, hg, hk⟩ := h.covered t ht
      unfold Lib.hasKey at hk
      split at hk
      · cases hk
      · rename_i k hk'
        exact ⟨k, keyOf_eq.mp hk', _, List.mem_map.mpr ⟨g, hg, rfl⟩, hk⟩
    · intro g hg
      obtain ⟨g', hg', rfl⟩ := List.mem_map.mp hg
      obtain ⟨t, ht, hk⟩ := h.present g' hg'
      exact .inl ⟨t, ht, keyOf_eq.mp hk⟩
    · intro hb
      simpa using hne hb
    · intro g hg
      obtain ⟨g', hg', rfl⟩ := List.mem_map.mp hg
      apply aggregatesAre (states_of_fold (h.folded g' hg'))
      intro a ha
      exact hfit a ha g' hg'

/-! ## Runs -/

variable {W : Type} {order : HashOrder (ExprKey × List AggState)} {fuel batchSize : Nat} {child : Executor W}
  {cs cs₁ cs₂ : child.State} {w w₁ w₂ : W} {batches : List Batch} {iter : Option Groups}

theorem open_ok (ho : child.open cs w = (.ok (), cs₁, w₁)) (hy : child.Yields cs₁ w₁ batches cs₂ w₂)
    (hfuel : batches.length < fuel)
    (hg : (batches.flatten.map Prod.fst).foldlM (putRow checks plan child.schema) [] = .ok groups) :
    (AggregationExecutor checks order fuel plan child batchSize).open (cs, iter) w =
      (.ok (), (cs₂, some (order.arrange (withEmptyGroup plan groups))), w₂) := by
  show AggregationExecutor.open checks order fuel plan child (cs, iter) w = _
  rw [← putBatch_rows] at hg
  rw [AggregationExecutor.open, ho]
  dsimp only
  rw [Executor.foldBatches_ok hy hg hfuel]

theorem open_error (ho : child.open cs w = (.ok (), cs₁, w₁)) (hy : child.Yields cs₁ w₁ batches cs₂ w₂)
    (hfuel : batches.length < fuel) {stop : Stop}
    (hg : (batches.flatten.map Prod.fst).foldlM (putRow checks plan child.schema) [] = .error stop) :
    ((AggregationExecutor checks order fuel plan child batchSize).open (cs, iter) w).1 = .error stop := by
  show (AggregationExecutor.open checks order fuel plan child (cs, iter) w).1 = _
  rw [← putBatch_rows] at hg
  have hf := Executor.foldBatches_error hy hg hfuel
  rw [AggregationExecutor.open, ho]
  dsimp only
  generalize child.foldBatches (putBatch checks plan child.schema) fuel [] cs₁ w₁ = r at hf
  obtain ⟨r, cs', w'⟩ := r
  dsimp only at hf
  subst hf
  rfl

theorem yields_groups (hbatch : 0 < batchSize) {rows : List Row} (h : groups.mapM (groupRow plan) = .ok rows)
    (cs : child.State) (w : W) :
    ∃ out, (AggregationExecutor checks order fuel plan child batchSize).Yields
      (cs, some groups) w out (cs, some []) w ∧ out.flatten = rows := by
  apply Executor.yields_of_fill (e := AggregationExecutor checks order fuel plan child batchSize) hbatch
    (fun groups => (cs, some groups)) w _ h
  intro items rows hr
  show AggregationExecutor.nextBatch plan child batchSize (cs, some items) w = _
  rw [AggregationExecutor.nextBatch]
  dsimp only
  rw [fillBatch_ok hr]
  rfl

/-! ## The types of the rows -/

theorem evalKey_fits {exprs : List (Expression ColIdx)} (ht : ∀ e ∈ exprs, e.TypedBy schema)
    {vals : List (Option Value)} {t : Bytes} (henc : schema.encodeTuple vals = .ok t) {k : ExprKey}
    (h : evalKey exprs t schema = .ok k) :
    List.Forall₂ (fun e v => FitsType (some (e.dtype.getD .int)) v) exprs k.values := by
  obtain ⟨values⟩ := k
  unfold evalKey at h
  induction exprs generalizing values with
  | nil => cases h; exact .nil
  | cons e exprs ih =>
    rw [List.mapM_cons] at h
    cases hv : e.evaluate t schema with
    | error err => rw [hv] at h; cases h
    | ok v =>
      rw [hv, Lib.ok_bind] at h
      cases hm : exprs.mapM fun (e : Expression ColIdx) => e.evaluate t schema with
      | error err => rw [hm] at h; cases h
      | ok vs =>
        rw [hm] at h
        cases h
        refine .cons ?_ (ih (fun e he => ht e (by simp [he])) vs (by rw [hm]; rfl))
        intro u hu
        obtain ⟨d, hd, hf⟩ := Expression.evaluate_fits henc (ht e (by simp)) hv u hu
        exact ⟨d, by simp [hd], hf⟩

theorem argValues_fits {e : Expression ColIdx} (ht : e.TypedBy schema)
    (henc : ∀ t ∈ rows, ∃ vals, schema.encodeTuple vals = .ok t) {u : Value} (hu : u ∈ argValues schema e rows) :
    ∃ d, e.dtype = some d ∧ Fits d u := by
  obtain ⟨t, htr, hev⟩ := List.mem_filterMap.mp hu
  obtain ⟨vals, hvals⟩ := henc t htr
  cases hv : e.evaluate t schema with
  | error err => simp [hv, Except.toOption] at hev
  | ok v =>
    simp [hv, Except.toOption] at hev
    exact Expression.evaluate_fits hvals ht hv u hev

theorem aggregate_fits {a : Aggregate} {vals : List Value} {r : Option Value} (h : AggregateIs a.2 vals r)
    (hv : ∀ u ∈ vals, ∃ d, a.1.dtype = some d ∧ Fits d u) (hsum : a.2 = .sum → ∀ u ∈ vals, isInteger u)
    (hkind : a.2 ≠ .avg ∧ a.2 ≠ .rank) (i : Nat) : FitsType (some (aggregateColumn i a).1) r := by
  obtain ⟨e, t⟩ := a
  have hextreme : ∀ u ∈ vals, (t = .min ∨ t = .max) → r = some u →
      FitsType (some (aggregateColumn i (e, t)).1) r := by
    intro u hu ht hr
    obtain ⟨d, hd, hf⟩ := hv u hu
    dsimp only at hd
    intro x hx
    rw [hr] at hx
    cases hx
    refine ⟨d, ?_, hf⟩
    rcases ht with rfl | rfl <;> simp [aggregateColumn, hd, AggType.resultType]
  cases t with
  | count =>
    obtain ⟨n, rfl, _⟩ := h
    intro u hu
    cases hu
    refine ⟨.int, ?_, fits_of_dataType rfl⟩
    cases hd : e.dtype <;> simp [aggregateColumn, hd, AggType.resultType]
  | sum =>
    obtain ⟨_, hnil, hints⟩ := h
    by_cases hne : vals = []
    · rw [hnil hne]
      intro u hu
      cases hu
    · obtain ⟨n, rfl, _⟩ := hints hne (hsum rfl)
      obtain ⟨u₀, hu₀⟩ := List.exists_mem_of_ne_nil vals hne
      obtain ⟨d, hd, hf⟩ := hv u₀ hu₀
      have hty := hsum rfl u₀ hu₀
      dsimp only at hd
      intro u hu
      cases hu
      refine ⟨.bigint, ?_, fits_of_dataType rfl⟩
      unfold isInteger at hty
      rw [fits_dataType hf] at hty
      cases d <;> simp [DataType.valueType] at hty
      all_goals simp [aggregateColumn, hd, AggType.resultType]
  | min =>
    rcases h with ⟨_, rfl⟩ | ⟨u, hu, hr, _⟩
    · intro u hu
      cases hu
    · exact hextreme u hu (.inl rfl) hr
  | max =>
    rcases h with ⟨_, rfl⟩ | ⟨u, hu, hr, _⟩
    · intro u hu
      cases hu
    · exact hextreme u hu (.inr rfl) hr
  | avg => exact absurd rfl hkind.1
  | rank => exact absurd rfl hkind.2

theorem mapM_groupRow (hh : ∀ g ∈ groups, plan.schema.Holds (g.1.values ++ AggregateState.values g.2))
    (he : ∀ g ∈ groups, ∃ t, plan.schema.encodeTuple (g.1.values ++ AggregateState.values g.2) = .ok t) :
    ∃ rows : List Row, groups.mapM (groupRow plan) = .ok rows ∧
      List.Forall₂ (fun (row : Row) g => RowHolds plan.schema row.1 (g.1.values ++ AggregateState.values g.2))
        rows groups := by
  induction groups with
  | nil => exact ⟨[], rfl, .nil⟩
  | cons g groups ih =>
    obtain ⟨t, ht⟩ := he g (by simp)
    obtain ⟨rows, hr, hf⟩ := ih (fun g hg => hh g (by simp [hg])) (fun g hg => he g (by simp [hg]))
    refine ⟨(t, none) :: rows, ?_, .cons ⟨?_, ?_⟩ hf⟩
    · have hg : groupRow plan g = .ok (t, none) := by simp [groupRow, ht]
      rw [List.mapM_cons, hg, hr]
      rfl
    · exact (hh g (by simp)).length_eq.symm
    · intro i v hv
      exact Schema.getValue_holds (hh g (by simp)) ht hv

/-- Once the fold went through, the groups are handed out if they can be encoded. -/
theorem handsOut_groups (hbatch : 0 < batchSize) (hc : child.Supplies cs w batches cs₂ w₂)
    (hfuel : batches.length < fuel)
    (hg : (batches.flatten.map Prod.fst).foldlM (putRow checks plan child.schema) [] = .ok groups)
    (hh : ∀ g ∈ withEmptyGroup plan groups, plan.schema.Holds (g.1.values ++ AggregateState.values g.2))
    (he : ∀ g ∈ withEmptyGroup plan groups, ∃ t, plan.schema.encodeTuple
      (g.1.values ++ AggregateState.values g.2) = .ok t) :
    (AggregationExecutor checks order fuel plan child batchSize).HandsOut (cs, iter) w
      ((order.arrange (withEmptyGroup plan groups)).map fun g => g.1.values ++ AggregateState.values g.2) := by
  obtain ⟨cs₁, w₁, ho, hy⟩ := hc
  have hmem : ∀ g ∈ order.arrange (withEmptyGroup plan groups), g ∈ withEmptyGroup plan groups :=
    fun g hg => (order.perm _).mem_iff.mp hg
  obtain ⟨rows, hr, hf⟩ := mapM_groupRow (fun g hg => hh g (hmem g hg)) (fun g hg => he g (hmem g hg))
  have hyields : ∃ out, (AggregationExecutor checks order fuel plan child batchSize).Yields
      (cs₂, some (order.arrange (withEmptyGroup plan groups))) w₂ out (cs₂, some []) w₂ ∧ out.flatten = rows :=
    yields_groups hbatch hr cs₂ w₂
  obtain ⟨out, hyo, hflat⟩ := hyields
  refine ⟨out, _, _, ⟨_, _, open_ok ho hy hfuel hg, hyo⟩, ?_⟩
  rw [hflat]
  exact List.forall₂_map_right_iff.mpr hf

theorem GroupsOf.arrange {plan : AggregationPlanNode} {schema : Schema}
    {out out' : List (ExprKey × List (Option Value))} (h : GroupsOf plan schema rows out) (hp : out'.Perm out) :
    GroupsOf plan schema rows out' where
  distinct := by
    apply hp.symm.pairwise h.distinct
    intro a b hab hba
    exact hab (BEq.symm hba)
  covered := by
    intro t ht
    obtain ⟨k, hk, g, hg, he⟩ := h.covered t ht
    exact ⟨k, hk, g, hp.mem_iff.mpr hg, he⟩
  present := fun g hg => h.present g (hp.mem_iff.mp hg)
  nonempty := by
    intro hb hn
    exact h.nonempty hb (List.Perm.nil_eq (hn ▸ hp)).symm
  aggregates := fun g hg => h.aggregates g (hp.mem_iff.mp hg)

/-- Rows on which every key and argument evaluates, for COUNT, MIN, MAX and integer SUM. -/
structure Foldable (plan : AggregationPlanNode) (schema : Schema) (rows : List Bytes) : Prop where
  keys : ∀ e ∈ plan.groupBys, Evaluates schema e rows
  args : ∀ a ∈ plan.aggregates, Evaluates schema a.1 rows
  kinds : ∀ a ∈ plan.aggregates, a.2 = .count ∨ a.2 = .min ∨ a.2 = .max ∨ a.2 = .sum
  integers : ∀ a ∈ plan.aggregates, a.2 = .sum → ∀ u ∈ argValues schema a.1 rows, isInteger u

structure Planned (plan : AggregationPlanNode) (schema : Schema) : Prop where
  layout : plan.schema = aggregationOutputSchema plan.groupBys plan.aggregates schema
  groupBys : ∀ e ∈ plan.groupBys, e.TypedBy schema
  aggregates : ∀ a ∈ plan.aggregates, a.1.TypedBy schema

theorem evalKey_evaluates {exprs : List (Expression ColIdx)} (h : ∀ e ∈ exprs, Evaluates schema e rows)
    {t : Bytes} (ht : t ∈ rows) :
    ∃ k, evalKey exprs t schema = .ok k := by
  unfold evalKey
  induction exprs with
  | nil => exact ⟨⟨[]⟩, rfl⟩
  | cons e exprs ih =>
    obtain ⟨v, hv⟩ := h e (by simp) t ht
    obtain ⟨k, hk⟩ := ih fun e he => h e (by simp [he])
    cases hm : exprs.mapM fun (e : Expression ColIdx) => e.evaluate t schema with
    | error err => rw [hm] at hk; cases hk
    | ok vs => exact ⟨⟨v :: vs⟩, by rw [List.mapM_cons, hv, hm]; rfl⟩

theorem argValues_length_le (schema : Schema) (e : Expression ColIdx) (rows : List Bytes) :
    (argValues schema e rows).length ≤ rows.length := List.length_filterMap_le _ _

theorem rowsOf_append (rows rest : List Bytes) (k : ExprKey) :
    rowsOf plan schema (rows ++ rest) k = rowsOf plan schema rows k ++ rowsOf plan schema rest k := by
  simp [Lib.members]

/-- The only thing that stops the fold is a SUM that leaves the range of a BIGINT. -/
theorem fold_error (hf : Foldable plan schema rows) (hsmall : rows.length < 2 ^ 31) {stop : Stop}
    (h : rows.foldlM (putRow checks plan schema) [] = .error stop) :
    (∃ l r, stop = .failed (.integerOverflow .add l r)) ∧ ∃ a ∈ plan.aggregates, a.2 = .sum ∧ ∃ k p rest,
      argValues schema a.1 (rowsOf plan schema rows k) = p ++ rest ∧ ¬ inI64 (p.map intOf).sum := by
  obtain ⟨p, t, rest, _, rfl, _, hstop⟩ := putRow_error h
  have ht : t ∈ p ++ t :: rest := by simp
  rcases hstop with ⟨e, he, _⟩ | ⟨k, states, hk, hst, hu⟩
  · obtain ⟨k, hk⟩ := evalKey_evaluates hf.keys ht
    rw [he] at hk
    cases hk
  · have hkey : Lib.hasKey (keyOf plan schema) k t := by
      rw [Lib.hasKey_ok (keyOf_eq.mpr hk)]
      exact BEq.rfl
    have hgroup : rowsOf plan schema (p ++ t :: rest) k = rowsOf plan schema p k ++ [t] ++
        rowsOf plan schema rest k := by
      rw [rowsOf_append, List.append_assoc]
      congr 1
      simp [Lib.members, hkey]
    have hlen : (rowsOf plan schema p k).length ≤ p.length := List.length_filter_le _ _
    rcases hst.cases t with ⟨l, a, r, e, hagg, _, hfail, hx⟩ | ⟨l, a, r, hagg, _, hover, _, hx⟩ |
      ⟨_, states', hx, _⟩
    · have ha : a ∈ plan.aggregates := by rw [hagg]; simp
      rw [hu] at hx
      cases hx
      rcases hfail with hev | ⟨u, hev, hrej⟩
      · obtain ⟨v, hv⟩ := hf.args a ha t ht
        rw [hev] at hv
        cases hv
      · rcases hrej with ⟨hsum, herr⟩ | ⟨havg, _⟩
        · have hvals : argValues schema a.1 (rowsOf plan schema p k ++ [t]) =
              argValues schema a.1 (rowsOf plan schema p k) ++ [u] :=
            argValues_concat hev _
          have hall : argValues schema a.1 (rowsOf plan schema (p ++ t :: rest) k) =
              argValues schema a.1 (rowsOf plan schema p k) ++ [u] ++
                argValues schema a.1 (rowsOf plan schema rest k) := by
            rw [hgroup, argValues_append, hvals]
          have hint : ∀ v ∈ argValues schema a.1 (rowsOf plan schema p k) ++ [u], isInteger v := by
            intro v hv
            apply hf.integers a ha hsum
            have hv' : v ∈ argValues schema a.1 (rowsOf plan schema (p ++ t :: rest) k) := by
              rw [hall]
              exact List.mem_append_left _ hv
            obtain ⟨t', ht', hv'⟩ := List.mem_filterMap.mp hv'
            exact List.mem_filterMap.mpr ⟨t', (List.mem_filter.mp ht').1, hv'⟩
          rcases sumOf_integers hint with ⟨r, hr, _⟩ | ⟨q, q', x, y, hq, hout, herr'⟩
          · rw [herr] at hr
            cases hr
          · rw [herr] at herr'
            cases herr'
            refine ⟨⟨x, y, rfl⟩, a, ha, hsum, k, q,
              q' ++ argValues schema a.1 (rowsOf plan schema rest k), ?_, hout⟩
            rw [hall, hq, List.append_assoc]
        · rcases hf.kinds a ha with h | h | h | h <;> rw [havg] at h <;> cases h
    · have ha : a ∈ plan.aggregates := by rw [hagg]; simp
      obtain ⟨u, _, _, hfull⟩ := hover
      refine absurd ?_ hfull
      intro m hm
      have hle := argValues_length_le schema a.1 (rowsOf plan schema p k)
      simp only [List.length_append, List.length_cons] at hsmall
      rcases hf.kinds a ha with h | h | h | h <;> rw [h] at hm <;> simp [AggType.limit] at hm
      omega
    · rw [hu] at hx
      cases hx

theorem evaluates_rowsOf {e : Expression ColIdx} {k : ExprKey} {u : Value}
    (hu : u ∈ argValues schema e (rowsOf plan schema rows k)) : u ∈ argValues schema e rows := by
  obtain ⟨t, ht, hv⟩ := List.mem_filterMap.mp hu
  exact List.mem_filterMap.mpr ⟨t, (List.mem_filter.mp ht).1, hv⟩

theorem groupRow_holds (hp : Planned plan schema) (hf : Foldable plan schema rows)
    (henc : EncodedBy schema rows) {out : List (ExprKey × List (Option Value))} (ho : GroupsOf plan schema rows out)
    {g : ExprKey × List (Option Value)} (hg : g ∈ out) : plan.schema.Holds (g.1.values ++ g.2) := by
  rw [Schema.Holds, hp.layout, aggregationOutputSchema, Schema.new]
  apply List.rel_append
  · apply forall₂_numbered
    rcases ho.present g hg with ⟨t, ht, hk⟩ | ⟨_, hb, hk⟩
    · obtain ⟨vals, hv⟩ := henc t ht
      exact (evalKey_fits hp.groupBys hv hk).imp fun _ _ h _ => h
    · rw [hb, hk]
      exact .nil
  · apply forall₂_numbered
    apply ((List.forall₂_and_left (p := fun a => a ∈ plan.aggregates) _ _).mpr
      ⟨fun _ ha => ha, ho.aggregates g hg⟩).imp
    intro a r hr i
    obtain ⟨ha, h⟩ := hr
    apply aggregate_fits h
    · intro u hu
      exact argValues_fits (hp.aggregates a ha) henc (evaluates_rowsOf hu)
    · intro hs u hu
      exact hf.integers a ha hs u (evaluates_rowsOf hu)
    · rcases hf.kinds a ha with h | h | h | h <;> simp [h]

/-! ## DISTINCT -/

/-- The node that removes duplicate rows, by grouping on every column with no aggregates. -/
def distinctRows (schema : Schema) : AggregationPlanNode := ⟨schema, allColumns schema, []⟩

theorem mapM_columns {t : Bytes} {i : Nat} {cols : List (DataType × String)} {vals : List (Option Value)}
    (hl : vals.length = cols.length) (h : ∀ j v, vals[j]? = some v → schema.getValue t (i + j) = .ok v) :
    (numbered (fun i (c : DataType × String) => Expression.column i c.1) i cols).mapM
      (fun (e : Expression ColIdx) => e.evaluate t schema) = .ok vals := by
  induction cols generalizing i vals with
  | nil =>
    rw [List.length_nil, List.length_eq_zero_iff] at hl
    subst hl
    rfl
  | cons c cols ih =>
    obtain ⟨v, vals, rfl⟩ := List.exists_cons_of_length_eq_add_one (by simpa using hl)
    have h0 : (Expression.column i c.1).evaluate t schema = .ok v := by
      have := h 0 v rfl
      simp only [Nat.add_zero] at this
      simp [Expression.evaluate, Expression.evaluateOn, InputRow.columnValue, this]
    have hrest := ih (i := i + 1) (by simpa using hl) fun j u hu => by
      have := h (j + 1) u hu
      rwa [← Nat.add_assoc, Nat.add_right_comm] at this
    simp [numbered, List.mapM_cons, h0, hrest]

theorem evalKey_allColumns {t : Bytes} {vals : List (Option Value)} (h : RowHolds schema t vals) :
    evalKey (allColumns schema) t schema = .ok ⟨vals⟩ := by
  have hm := mapM_columns (i := 0) h.1 fun j v hv => by simpa using h.2 j v hv
  rw [evalKey, allColumns, hm]
  rfl

theorem encodedBy_holds (h : EncodedBy schema rows) {t : Bytes} (ht : t ∈ rows) :
    ∃ vals, schema.encodeTuple vals = .ok t ∧ schema.Holds vals ∧ RowHolds schema t vals := by
  obtain ⟨given, hg⟩ := h t ht
  obtain ⟨vals, hv, he⟩ := Schema.encodeTuple_restored hg
  exact ⟨vals, he, hv, hv.length_eq.symm, fun i v hi => Schema.getValue_holds hv he hi⟩

theorem foldable_distinctRows (henc : EncodedBy schema rows) :
    Foldable (distinctRows schema) schema rows where
  keys := by
    intro e he t ht
    obtain ⟨vals, _, _, hr⟩ := encodedBy_holds henc ht
    obtain ⟨j, hj⟩ := List.mem_iff_getElem?.mp he
    simp only [distinctRows, allColumns, getElem?_numbered] at hj
    obtain ⟨c, hc, rfl⟩ := Option.map_eq_some_iff.mp hj
    have hlt : j < vals.length := by
      have := (List.getElem?_eq_some_iff.mp hc).1
      rw [hr.1]
      exact this
    refine ⟨vals[j], ?_⟩
    have := hr.2 j _ (List.getElem?_eq_getElem hlt)
    simp [Expression.evaluate, Expression.evaluateOn, InputRow.columnValue, this]
  args := by simp [distinctRows]
  kinds := by simp [distinctRows]
  integers := by simp [distinctRows]

/-- Each distinct row once: the rows handed out differ from each other, each is a row of the input and
each row of the input is among them. -/
def DistinctOnce {W : Type} (exec : Executor W) (s : exec.State) (w : W) (schema : Schema)
    (rows : List Bytes) : Prop :=
  ∃ out, exec.HandsOut s w out ∧ (out.Pairwise fun a b => ¬ ExprKey.mk a == ExprKey.mk b) ∧
    (∀ t ∈ rows, ∃ v ∈ out, ∃ u, RowHolds schema t u ∧ ExprKey.mk v == ExprKey.mk u) ∧
    ∀ v ∈ out, ∃ t ∈ rows, RowHolds schema t v

theorem fold_distinct (checks : Bool) (henc : EncodedBy schema rows) (hsmall : rows.length < 2 ^ 31) :
    ∃ groups, rows.foldlM (putRow checks (distinctRows schema) schema) [] = .ok groups := by
  cases hg : rows.foldlM (putRow checks (distinctRows schema) schema) [] with
  | ok groups => exact ⟨groups, rfl⟩
  | error stop =>
    obtain ⟨_, a, ha, _⟩ := fold_error (foldable_distinctRows henc) hsmall hg
    cases ha

theorem countFits_small (hsmall : rows.length < 2 ^ 31) (a : Aggregate) (k : ExprKey) :
    CountFits a.2 (argValues schema a.1 (rowsOf plan schema rows k)).length := by
  apply countFits_of_lt
  have h1 := argValues_length_le schema a.1 (rowsOf plan schema rows k)
  have h2 : (rowsOf plan schema rows k).length ≤ rows.length := List.length_filter_le _ _
  omega

theorem distinctOnce_of (hbatch : 0 < batchSize) (hc : child.Supplies cs w batches cs₂ w₂)
    (hfuel : batches.length < fuel) (henc : EncodedBy child.schema (batches.flatten.map Prod.fst))
    (hsmall : (batches.flatten.map Prod.fst).length < 2 ^ 31)
    (hwhen : child.schema.columns ≠ [] ∨ batches.flatten.map Prod.fst ≠ []) :
    DistinctOnce (AggregationExecutor checks order fuel (distinctRows child.schema) child batchSize)
      (cs, iter) w child.schema (batches.flatten.map Prod.fst) := by
  obtain ⟨groups, hg⟩ := fold_distinct checks henc hsmall
  have hgr : GroupsAre checks (distinctRows child.schema) child.schema (batches.flatten.map Prod.fst) groups := by
    simpa using Lib.grouped_nil.run hg
  have hof := groupsOf_entries hgr (by simp [distinctRows])
  -- every group comes from a row, as there is a column or a row
  have hrow : ∀ g ∈ withEmptyGroup (distinctRows child.schema) groups, ∃ t ∈ batches.flatten.map Prod.fst,
      RowHolds child.schema t g.1.values ∧ AggregateState.values g.2 = [] ∧
      child.schema.encodeTuple g.1.values = .ok t ∧
        child.schema.Holds g.1.values := by
    intro g hgm
    have hm : (g.1, AggregateState.values g.2) ∈
        (withEmptyGroup (distinctRows child.schema) groups).map fun g => (g.1, AggregateState.values g.2) :=
      List.mem_map.mpr ⟨g, hgm, rfl⟩
    have hnil : AggregateState.values g.2 = [] := List.forall₂_nil_left_iff.mp (hof.aggregates _ hm)
    rcases hof.present _ hm with ⟨t, ht, hk⟩ | ⟨hr, hb, _⟩
    · obtain ⟨vals, he, hh, hrh⟩ := encodedBy_holds henc ht
      rw [show (distinctRows child.schema).groupBys = allColumns child.schema from rfl,
        evalKey_allColumns hrh] at hk
      have hkv : g.1.values = vals := (congrArg ExprKey.values (Except.ok.inj hk)).symm
      exact ⟨t, ht, hkv ▸ hrh, hnil, hkv ▸ he, hkv ▸ hh⟩
    · exfalso
      rcases hwhen with hcols | hrows
      · apply hcols
        have hlen : (allColumns child.schema).length = 0 := by rw [show allColumns child.schema = [] from hb]; rfl
        rw [allColumns, numbered_length] at hlen
        exact List.length_eq_zero_iff.mp hlen
      · exact hrows hr
  have hout : ∀ g ∈ withEmptyGroup (distinctRows child.schema) groups,
      g.1.values ++ AggregateState.values g.2 = g.1.values := by
    intro g hgm
    obtain ⟨_, _, _, hnil, _⟩ := hrow g hgm
    rw [hnil, List.append_nil]
  have hmem : ∀ g ∈ order.arrange (withEmptyGroup (distinctRows child.schema) groups),
      g ∈ withEmptyGroup (distinctRows child.schema) groups := fun g hg => (order.perm _).mem_iff.mp hg
  refine ⟨_, handsOut_groups hbatch hc hfuel hg ?_ ?_, ?_, ?_, ?_⟩
  · intro g hgm
    obtain ⟨_, _, _, _, _, hh⟩ := hrow g hgm
    rw [hout g hgm]
    exact hh
  · intro g hgm
    obtain ⟨t, _, _, _, he, _⟩ := hrow g hgm
    rw [hout g hgm]
    exact ⟨t, he⟩
  · have hp := (hof.arrange ((order.perm _).map _)).distinct
    rw [List.pairwise_map] at hp ⊢
    apply List.Pairwise.imp_of_mem _ hp
    intro a b ha hb hab
    rw [hout a (hmem a ha), hout b (hmem b hb)]
    exact hab
  · intro t ht
    obtain ⟨k, hk, g', hg', hkey⟩ := hof.covered t ht
    obtain ⟨g, hgm, rfl⟩ := List.mem_map.mp hg'
    obtain ⟨vals, _, _, hrh⟩ := encodedBy_holds henc ht
    rw [show (distinctRows child.schema).groupBys = allColumns child.schema from rfl, evalKey_allColumns hrh] at hk
    cases hk
    refine ⟨_, List.mem_map.mpr ⟨g, (order.perm _).mem_iff.mpr hgm, rfl⟩, vals, hrh, ?_⟩
    rw [hout g hgm]
    exact hkey
  · intro v hv
    obtain ⟨g, hgm, rfl⟩ := List.mem_map.mp hv
    obtain ⟨t, ht, hrh, _⟩ := hrow g (hmem g hgm)
    exact ⟨t, ht, by rw [hout g (hmem g hgm)]; exact hrh⟩

theorem encodeTuple_noColumns {schema : Schema} (h : schema.columns = []) : schema.encodeTuple [] = .ok [] := by
  simp [Schema.encodeTuple, Schema.cols, h, Schema.colsFrom, Schema.encodeFields, Schema.encodeTexts,
    Schema.bitmapLen]

theorem distinctOnce_fails (hbatch : 0 < batchSize) (hc : child.Supplies cs w batches cs₂ w₂)
    (hfuel : batches.length < fuel) (hcols : child.schema.columns = [])
    (hrows : batches.flatten.map Prod.fst = []) :
    ¬ DistinctOnce (AggregationExecutor checks order fuel (distinctRows child.schema) child batchSize)
      (cs, iter) w child.schema (batches.flatten.map Prod.fst) := by
  intro h
  obtain ⟨out, ⟨bs, s', w', ⟨s₁, w₁, hopen, hyields⟩, hout⟩, _, _, hpresent⟩ := h
  obtain ⟨cs₁, w₀, ho, hy⟩ := hc
  have hnone : out = [] := by
    cases out with
    | nil => rfl
    | cons v out =>
      obtain ⟨t, ht, _⟩ := hpresent v (by simp)
      rw [hrows] at ht
      cases ht
  subst hnone
  have hflat : bs.flatten = [] := List.forall₂_nil_right_iff.mp hout
  have hkeys : (distinctRows child.schema).groupBys = [] := by simp [distinctRows, allColumns, hcols, numbered]
  have hgroups : order.arrange (withEmptyGroup (distinctRows child.schema) []) = [(⟨[]⟩, [])] := by
    have hw : withEmptyGroup (distinctRows child.schema) [] = [(⟨[]⟩, [])] := by
      rw [withEmptyGroup, hkeys]
      rfl
    rw [hw]
    exact List.perm_singleton.mp (order.perm _)
  have hnext : (AggregationExecutor checks order fuel (distinctRows child.schema) child batchSize).nextBatch
      (cs₂, some [(⟨[]⟩, [])]) w₂ = (.ok (some [([], none)]), (cs₂, some []), w₂) := by
    show AggregationExecutor.nextBatch (distinctRows child.schema) child batchSize (cs₂, some [(⟨[]⟩, [])]) w₂ = _
    obtain ⟨n, rfl⟩ := Nat.exists_eq_add_of_lt hbatch
    have hrow : groupRow (distinctRows child.schema) (⟨[]⟩, []) = .ok ([], none) := by
      simp [groupRow, distinctRows, AggregateState.values, encodeTuple_noColumns hcols]
    have hfill : fillBatch (groupRow (distinctRows child.schema)) (0 + n + 1) [(⟨[]⟩, [])] =
        (.ok [([], none)], []) := by
      cases n <;> simp [fillBatch, hrow]
    rw [AggregationExecutor.nextBatch]
    dsimp only
    rw [hfill]
    rfl
  have hfold : (batches.flatten.map Prod.fst).foldlM (putRow checks (distinctRows child.schema) child.schema)
      [] = .ok [] := by
    rw [hrows]
    rfl
  rw [open_ok ho hy hfuel hfold, hgroups] at hopen
  cases hopen
  rcases hyields.inv with ⟨_, hn⟩ | ⟨batch, rest, _, _, rfl, hn, _⟩
  · rw [hnext] at hn
    cases hn
  · rw [hnext] at hn
    cases hn
    simp at hflat

/-- Aggregation is a fold over each group, and DISTINCT yields each distinct row once exactly when there is a
column to group on or a row to group. -/
theorem folds_each_group (checks : Bool) (order : HashOrder (ExprKey × List AggState)) (fuel batchSize : Nat)
    (child : Executor W) (cs cs₂ : child.State) (w w₂ : W) (batches : List Batch) (iter : Option Groups)
    (hbatch : 0 < batchSize) (hc : child.Supplies cs w batches cs₂ w₂) (hfuel : batches.length < fuel)
    (henc : EncodedBy child.schema (batches.flatten.map Prod.fst))
    (hsmall : (batches.flatten.map Prod.fst).length < 2 ^ 31) :
    (∀ plan, Planned plan child.schema → Foldable plan child.schema (batches.flatten.map Prod.fst) →
      ((∃ l r, ((AggregationExecutor checks order fuel plan child batchSize).open (cs, iter) w).1 =
          .error (.failed (.integerOverflow .add l r))) ∧
        ∃ a ∈ plan.aggregates, a.2 = .sum ∧ ∃ k p rest,
          argValues child.schema a.1 (rowsOf plan child.schema (batches.flatten.map Prod.fst) k) = p ++ rest ∧
            ¬ inI64 (p.map intOf).sum) ∨
      (((AggregationExecutor checks order fuel plan child batchSize).open (cs, iter) w).1 = .ok () ∧
        ∃ out, GroupsOf plan child.schema (batches.flatten.map Prod.fst) out ∧
          ((∀ g ∈ out, plan.schema.encodedLen (g.1.values ++ g.2) < 2 ^ 32) →
            (AggregationExecutor checks order fuel plan child batchSize).HandsOut (cs, iter) w
              (out.map fun g => g.1.values ++ g.2)))) ∧
    (DistinctOnce (AggregationExecutor checks order fuel (distinctRows child.schema) child batchSize)
      (cs, iter) w child.schema (batches.flatten.map Prod.fst) ↔
      child.schema.columns ≠ [] ∨ batches.flatten.map Prod.fst ≠ []) := by
  refine ⟨?_, ?_, distinctOnce_of hbatch hc hfuel henc hsmall⟩
  · intro plan hp hf
    obtain ⟨cs₁, w₁, ho, hy⟩ := id hc
    cases hg : (batches.flatten.map Prod.fst).foldlM (putRow checks plan child.schema) [] with
    | error stop =>
      left
      obtain ⟨⟨l, r, rfl⟩, hout⟩ := fold_error hf hsmall hg
      exact ⟨⟨l, r, open_error ho hy hfuel hg⟩, hout⟩
    | ok groups =>
      right
      have hof := groupsOf_entries (groupsAre_fold hg)
        (fun a _ g _ => countFits_small hsmall a g.1)
      refine ⟨by rw [open_ok ho hy hfuel hg], _, hof.arrange ((order.perm _).map _), ?_⟩
      intro hlen
      rw [List.map_map]
      have hmem : ∀ g ∈ withEmptyGroup plan groups, (g.1, AggregateState.values g.2) ∈
          (order.arrange (withEmptyGroup plan groups)).map fun g => (g.1, AggregateState.values g.2) :=
        fun g hgm => List.mem_map.mpr ⟨g, (order.perm _).mem_iff.mpr hgm, rfl⟩
      apply handsOut_groups hbatch hc hfuel hg
      · intro g hgm
        exact groupRow_holds hp hf henc (hof.arrange ((order.perm _).map _)) (hmem g hgm)
      · intro g hgm
        exact Schema.encodeTuple_holds (groupRow_holds hp hf henc (hof.arrange ((order.perm _).map _)) (hmem g hgm))
          (hlen _ (hmem g hgm))
  · intro hd
    by_contra hno
    push Not at hno
    exact distinctOnce_fails hbatch hc hfuel hno.1 hno.2 hd

end AggregationExecutor

end

namespace AggregationExecutor

section
local instance aggregationUnit : FloatUnit := FloatUnit.idle

def fives : List Batch := [[([0, 5, 0, 0, 0], none), ([0, 7, 0, 0, 0], none)], [([0, 5, 0, 0, 0], none)]]

def sumsByValue : AggregationPlanNode :=
  let a : Expression ColIdx := .column 0 .int
  ⟨aggregationOutputSchema [a] [(a, .sum), (a, .count)] ⟨[(.int, "a")]⟩, [a], [(a, .sum), (a, .count)]⟩

theorem fives_row {t : Bytes} (ht : t ∈ fives.flatten.map Prod.fst) :
    ∃ i : Int32, Schema.encodeTuple ⟨[(.int, "a")]⟩ [some (.int i)] = .ok t ∧
      (Expression.column 0 .int).evaluate t ⟨[(.int, "a")]⟩ = .ok (some (.int i)) ∧
      evalKey sumsByValue.groupBys t ⟨[(.int, "a")]⟩ = .ok ⟨[some (.int i)]⟩ := by
  have ht : t = [0, 5, 0, 0, 0] ∨ t = [0, 7, 0, 0, 0] ∨ t = [0, 5, 0, 0, 0] := by simpa [fives] using ht
  rcases ht with rfl | rfl | rfl
  · exact ⟨5, rfl, rfl, rfl⟩
  · exact ⟨7, rfl, rfl, rfl⟩
  · exact ⟨5, rfl, rfl, rfl⟩

theorem fives_integers {rows : List Bytes} (h : ∀ t ∈ rows, t ∈ fives.flatten.map Prod.fst) :
    ∀ u ∈ argValues ⟨[(.int, "a")]⟩ (.column 0 .int) rows, isInteger u := by
  intro u hu
  obtain ⟨t, ht, hu⟩ := List.mem_filterMap.mp hu
  obtain ⟨i, -, hi, -⟩ := fives_row (h t ht)
  rw [hi] at hu
  cases hu
  exact .inl rfl

theorem sumsByValue_foldable : Foldable sumsByValue ⟨[(.int, "a")]⟩ (fives.flatten.map Prod.fst) := by
  have heval : Evaluates ⟨[(.int, "a")]⟩ (.column 0 .int) (fives.flatten.map Prod.fst) := fun t ht => by
    obtain ⟨i, -, hi, -⟩ := fives_row ht
    exact ⟨_, hi⟩
  refine ⟨by simpa [sumsByValue] using heval, by simpa [sumsByValue] using heval, by simp [sumsByValue], ?_⟩
  have hall := fives_integers fun t ht => ht
  simpa [sumsByValue] using hall

theorem sums_and_distinct_of_fives :
    (∃ out, GroupsOf sumsByValue ⟨[(.int, "a")]⟩ (fives.flatten.map Prod.fst) out ∧
      (AggregationExecutor true .inserted 3 sumsByValue (.replay ⟨[(.int, "a")]⟩) 1).HandsOut (fives, none) ()
        (out.map fun g => g.1.values ++ g.2)) ∧
    DistinctOnce (AggregationExecutor true .inserted 3 (distinctRows ⟨[(.int, "a")]⟩) (.replay ⟨[(.int, "a")]⟩) 1)
      (fives, none) () ⟨[(.int, "a")]⟩ (fives.flatten.map Prod.fst) := by
  obtain ⟨hfold, hdistinct⟩ :=
    folds_each_group true .inserted 3 1 (.replay ⟨[(.int, "a")]⟩) fives [] () () fives none
    (by decide) (Executor.replay_supplies _ _) (by decide)
    (fun t ht => by obtain ⟨i, hi, -⟩ := fives_row ht; exact ⟨_, hi⟩) (by decide)
  refine ⟨?_, hdistinct.mpr (.inl (by decide))⟩
  rcases hfold sumsByValue
    ⟨rfl, by simp [sumsByValue, Expression.TypedBy]; rfl, by simp [sumsByValue, Expression.TypedBy]; rfl⟩
    sumsByValue_foldable with ⟨⟨l, r, hopen⟩, -⟩ | ⟨-, out, hof, hout⟩
  · cases hopen
  · refine ⟨out, hof, hout fun g hg => ?_⟩
    -- no column of a group is a text
    have hkey : ∃ i : Int32, g.1 = ⟨[some (.int i)]⟩ := by
      rcases hof.present g hg with ⟨t, ht, hk⟩ | ⟨-, hnone, -⟩
      · obtain ⟨i, -, -, hi⟩ := fives_row ht
        exact ⟨i, Except.ok.inj (hk.symm.trans hi)⟩
      · cases hnone
    obtain ⟨i, hi⟩ := hkey
    obtain ⟨total, rest, ⟨-, hempty, hsum⟩, hrest, hg2⟩ := List.forall₂_cons_left_iff.mp (hof.aggregates g hg)
    obtain ⟨_, last, ⟨c, rfl, -⟩, hnil, rfl⟩ := List.forall₂_cons_left_iff.mp hrest
    obtain rfl := List.forall₂_nil_left_iff.mp hnil
    have htotal : textLen total = 0 := by
      by_cases hvals : argValues ⟨[(.int, "a")]⟩ (.column 0 .int)
          (rowsOf sumsByValue ⟨[(.int, "a")]⟩ (fives.flatten.map Prod.fst) g.1) = []
      · rw [hempty hvals]
        rfl
      · obtain ⟨m, rfl, -⟩ := hsum hvals (fives_integers fun t ht => List.mem_of_mem_filter ht)
        rfl
    rw [hi, hg2, Schema.encodedLen]
    simp only [List.cons_append, List.nil_append, List.map_cons, List.map_nil, htotal]
    show sumsByValue.schema.bitmapLen + sumsByValue.schema.dataLen + [0, 0, 0].sum < 2 ^ 32
    decide

/-- DISTINCT over no rows of no columns hands out a row. -/
theorem distinct_of_nothing :
    ¬ DistinctOnce (AggregationExecutor true .inserted 1 (distinctRows ⟨[]⟩) (.replay ⟨[]⟩) 1)
      ([], none) () ⟨[]⟩ [] :=
  distinctOnce_fails (by decide) (Executor.replay_supplies ⟨[]⟩ []) (by decide) rfl rfl

end

end AggregationExecutor

end Cmudb.Sql
