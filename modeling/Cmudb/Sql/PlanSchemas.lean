import Cmudb.Sql.Aggregates
import Cmudb.Sql.Typing

/-!
# Output schemas of plan nodes

The layouts the planner gives the nodes it makes: a plain column keeps its name,
an expression without a type is laid out as an INT, and an aggregate takes the
type its function gives its argument's.
-/

namespace Cmudb.Sql

def aggTypeName : AggType → String
  | .count => "count"
  | .sum => "sum"
  | .avg => "avg"
  | .min => "min"
  | .max => "max"
  | .rank => "rank"

def outputColumnName (expr : Expression ColIdx) (source : Schema) (fallback : String) : String :=
  match expr with
  | .column col _ => (source.columns[col]?.map Prod.snd).getD fallback
  | _ => fallback

def numbered {α β : Type} (f : Nat → α → β) : Nat → List α → List β
  | _, [] => []
  | i, a :: l => f i a :: numbered f (i + 1) l

def groupColumn (source : Schema) (i : Nat) (gb : Expression ColIdx) : DataType × String :=
  (gb.dtype.getD .int, outputColumnName gb source ("g" ++ toString i))

def aggregateColumn (i : Nat) (a : Aggregate) : DataType × String :=
  ((a.1.dtype.bind a.2.resultType).getD .int, aggTypeName a.2 ++ "_" ++ toString i)

/-- One column for each group-by expression, then one for each aggregate. -/
def aggregationOutputSchema (groupBys : List (Expression ColIdx)) (aggregates : List Aggregate)
    (source : Schema) : Schema :=
  Schema.new (numbered (groupColumn source) 0 groupBys ++ numbered aggregateColumn 0 aggregates)

def allColumns (schema : Schema) : List (Expression ColIdx) :=
  numbered (fun i c => Expression.column i c.1) 0 schema.columns

@[simp] theorem numbered_length {α β : Type} (f : Nat → α → β) (i : Nat) (l : List α) :
    (numbered f i l).length = l.length := by
  induction l generalizing i with
  | nil => rfl
  | cons a l ih => simp [numbered, ih]

theorem forall₂_numbered {α β γ : Type} {f : Nat → α → β} {R : β → γ → Prop} {l : List α} {c : List γ}
    (h : List.Forall₂ (fun a c => ∀ i, R (f i a) c) l c) (i : Nat) : List.Forall₂ R (numbered f i l) c := by
  induction h generalizing i with
  | nil => exact .nil
  | cons hd _ ih => exact .cons (hd i) (ih (i + 1))

theorem getElem?_numbered {α β : Type} (f : Nat → α → β) (i : Nat) (l : List α) (j : Nat) :
    (numbered f i l)[j]? = l[j]?.map (f (i + j)) := by
  induction l generalizing i j with
  | nil => rfl
  | cons a l ih =>
    cases j with
    | zero => rfl
    | succ j => simp [numbered, ih, Nat.add_assoc, Nat.add_comm 1 j]

end Cmudb.Sql
