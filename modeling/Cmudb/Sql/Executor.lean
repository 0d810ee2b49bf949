import Cmudb.Lib.Grouping
import Cmudb.Sql.Expressions

/-!
# Pull-based executors

An executor has a state of its own and works on a world `W`, the storage that
all executors of a plan share. `open` prepares it and each `nextBatch` hands out
a batch of at least one row until there are no more. `Yields` is a whole run of
an opened executor; loops over a child take fuel, and any amount above the
number of the child's batches is enough.
-/

namespace Cmudb.Sql

/-- Why a call did not return a value: the error it returned, a panic, or a loop that was cut short. -/
inductive Stop where
  | failed (e : ExecutorError)
  | panicked
  | outOfFuel
  deriving DecidableEq, Repr

abbrev Row := Bytes × Option RecordId

abbrev Batch := List Row

def Batch.fromRows (rows : List Row) : Option Batch := if rows.isEmpty then none else some rows

abbrev Outcome (σ W α : Type) := Except Stop α × σ × W

structure Executor (W : Type) where
  State : Type
  schema : Schema
  «open» : State → W → Outcome State W Unit
  nextBatch : State → W → Outcome State W (Option Batch)
  close : State → W → Outcome State W Unit

def failing {α : Type} : Except ExecutorError α → Except Stop α
  | .ok a => .ok a
  | .error e => .error (.failed e)

namespace Executor

variable {W : Type} (e : Executor W)

inductive Yields : e.State → W → List Batch → e.State → W → Prop where
  | done {s s' : e.State} {w w' : W} : e.nextBatch s w = (.ok none, s', w') → Yields s w [] s' w'
  | more {s s₁ s' : e.State} {w w₁ w' : W} {batch : Batch} {batches : List Batch} :
    e.nextBatch s w = (.ok (some batch), s₁, w₁) → Yields s₁ w₁ batches s' w' → Yields s w (batch :: batches) s' w'

/-- Opened from `s`, the executor hands out `batches` and then ends. -/
def Supplies (s : e.State) (w : W) (batches : List Batch) (s' : e.State) (w' : W) : Prop :=
  ∃ s₁ w₁, e.open s w = (.ok (), s₁, w₁) ∧ e.Yields s₁ w₁ batches s' w'

def foldBatches {β : Type} (f : β → Batch → Except Stop β) : Nat → β → e.State → W → Outcome e.State W β
  | 0, _, s, w => (.error .outOfFuel, s, w)
  | fuel + 1, b, s, w =>
    match e.nextBatch s w with
    | (.error stop, s, w) => (.error stop, s, w)
    | (.ok none, s, w) => (.ok b, s, w)
    | (.ok (some batch), s, w) =>
      match f b batch with
      | .error stop => (.error stop, s, w)
      | .ok b => foldBatches f fuel b s w

variable {e}

theorem Yields.inv {s s' : e.State} {w w' : W} {batches : List Batch} (h : e.Yields s w batches s' w') :
    (batches = [] ∧ e.nextBatch s w = (.ok none, s', w')) ∨ ∃ batch rest s₁ w₁, batches = batch :: rest ∧
      e.nextBatch s w = (.ok (some batch), s₁, w₁) ∧ e.Yields s₁ w₁ rest s' w' := by
  cases h with
  | done hn => exact .inl ⟨rfl, hn⟩
  | more hn hy => exact .inr ⟨_, _, _, _, rfl, hn, hy⟩

theorem foldBatches_ok {β : Type} {f : β → Batch → Except Stop β} {s s' : e.State} {w w' : W} {batches : List Batch}
    (h : e.Yields s w batches s' w') {b b' : β} (hf : batches.foldlM f b = .ok b') {fuel : Nat}
    (hfuel : batches.length < fuel) :
    e.foldBatches f fuel b s w = (.ok b', s', w') := by
  induction h generalizing b fuel with
  | done hn =>
    cases hf
    obtain ⟨fuel, rfl⟩ := Nat.exists_eq_add_of_lt hfuel
    simp [foldBatches, hn]
  | @more s s₁ s' w w₁ w' batch batches hn _ ih =>
    obtain ⟨fuel, rfl⟩ := Nat.exists_eq_add_of_lt hfuel
    rw [List.foldlM_cons] at hf
    cases hb : f b batch with
    | error stop => rw [hb] at hf; cases hf
    | ok b₁ =>
      rw [hb] at hf
      simp only [foldBatches, hn, hb]
      exact ih hf (by simp; omega)

theorem foldBatches_error {β : Type} {f : β → Batch → Except Stop β} {s s' : e.State} {w w' : W}
    {batches : List Batch} (h : e.Yields s w batches s' w') {b : β} {stop : Stop}
    (hf : batches.foldlM f b = .error stop) {fuel : Nat} (hfuel : batches.length < fuel) :
    (e.foldBatches f fuel b s w).1 = .error stop := by
  induction h generalizing b fuel with
  | done hn => cases hf
  | @more s s₁ s' w w₁ w' batch batches hn _ ih =>
    obtain ⟨fuel, rfl⟩ := Nat.exists_eq_add_of_lt hfuel
    rw [List.foldlM_cons] at hf
    cases hb : f b batch with
    | error stop' =>
      rw [hb] at hf
      cases hf
      simp [foldBatches, hn, hb]
    | ok b₁ =>
      rw [hb] at hf
      simp only [foldBatches, hn, hb]
      exact ih hf (by simp; omega)

end Executor

/-! ## Batches from an iterator -/

section
variable {α : Type} (f : α → Except Stop Row)

/-- Pulls up to `n` rows from the iterator over `items` that `f` makes rows of: the rows, and the
items still to come. -/
def fillBatch : Nat → List α → Except Stop (List Row) × List α
  | 0, items => (.ok [], items)
  | _ + 1, [] => (.ok [], [])
  | n + 1, a :: items =>
    match f a with
    | .error stop => (.error stop, items)
    | .ok row =>
      match fillBatch n items with
      | (.error stop, rest) => (.error stop, rest)
      | (.ok rows, rest) => (.ok (row :: rows), rest)

variable {f}

theorem fillBatch_ok {n : Nat} {items : List α} {rows : List Row} (h : (items.take n).mapM f = .ok rows) :
    fillBatch f n items = (.ok rows, items.drop n) := by
  induction n generalizing items rows with
  | zero =>
    cases h
    rfl
  | succ n ih =>
    cases items with
    | nil => cases h; rfl
    | cons a items =>
      rw [List.take_succ_cons, List.mapM_cons] at h
      cases ha : f a with
      | error stop => rw [ha] at h; cases h
      | ok row =>
        rw [ha] at h
        cases hm : (items.take n).mapM f with
        | error stop => simp [hm, bind, Except.bind] at h
        | ok rows' =>
          simp [hm, bind, Except.bind, pure, Except.pure] at h
          subst h
          simp [fillBatch, ha, ih hm]

theorem mapM_split {items : List α} {rows : List Row} (h : items.mapM f = .ok rows) (n : Nat) :
    (items.take n).mapM f = .ok (rows.take n) ∧ (items.drop n).mapM f = .ok (rows.drop n) := by
  induction items generalizing n rows with
  | nil =>
    cases h
    simp
    rfl
  | cons a items ih =>
    rw [List.mapM_cons] at h
    obtain ⟨row, hr, h⟩ := Lib.bind_eq_ok h
    obtain ⟨rest, hs, h⟩ := Lib.bind_eq_ok h
    cases h
    cases n with
    | zero => simp [List.mapM_cons, hr, hs]; rfl
    | succ n =>
      obtain ⟨h1, h2⟩ := ih hs n
      simp [List.mapM_cons, hr, h1, h2]

end

theorem Executor.yields_of_fill {W α : Type} {e : Executor W} {f : α → Except Stop Row} {n : Nat} (hn : 0 < n)
    (held : List α → e.State) (w : W)
    (hnext : ∀ items rows, (items.take n).mapM f = .ok rows →
      e.nextBatch (held items) w = (.ok (Batch.fromRows rows), held (items.drop n), w))
    {items : List α} {rows : List Row} (h : items.mapM f = .ok rows) :
    ∃ batches, e.Yields (held items) w batches (held []) w ∧ batches.flatten = rows := by
  induction hl : items.length using Nat.strong_induction_on generalizing items rows with
  | _ len ih =>
    obtain ⟨htake, hdrop⟩ := mapM_split h n
    have hstep := hnext items _ htake
    cases items with
    | nil =>
      cases h
      exact ⟨[], .done (by simpa [Batch.fromRows] using hstep), rfl⟩
    | cons a items =>
      obtain ⟨batches, hy, hf⟩ := ih ((a :: items).drop n).length (by simp at hl ⊢; omega) hdrop rfl
      have hne : rows.take n ≠ [] := by
        rw [List.mapM_cons] at h
        obtain ⟨row, _, h⟩ := Lib.bind_eq_ok h
        obtain ⟨rest, _, h⟩ := Lib.bind_eq_ok h
        cases h
        obtain ⟨m, rfl⟩ := Nat.exists_eq_add_of_lt hn
        simp
      refine ⟨rows.take n :: batches, .more ?_ hy, ?_⟩
      · rw [hstep, Batch.fromRows, if_neg (by simpa using hne)]
      · rw [List.flatten_cons, hf, List.take_append_drop]

/-! ## Rows and their values -/

def EncodedBy [FloatUnit] (schema : Schema) (rows : List Bytes) : Prop :=
  ∀ t ∈ rows, ∃ vals, schema.encodeTuple vals = .ok t

def RowHolds (schema : Schema) (t : Bytes) (vals : List (Option Value)) : Prop :=
  vals.length = schema.columns.length ∧ ∀ i v, vals[i]? = some v → schema.getValue t i = .ok v

/-- Opened from `s`, the executor hands out rows that read as `out`. -/
def Executor.HandsOut {W : Type} (e : Executor W) (s : e.State) (w : W) (out : List (List (Option Value))) : Prop :=
  ∃ batches s' w', e.Supplies s w batches s' w' ∧
    List.Forall₂ (fun (row : Row) vals => RowHolds e.schema row.1 vals) batches.flatten out

/-! ## Keys -/

section
variable [FloatUnit]

def evalKey (exprs : List (Expression ColIdx)) (tuple : Bytes) (schema : Schema) : Except ExecutorError ExprKey :=
  (exprs.mapM fun (e : Expression ColIdx) => e.evaluate tuple schema).map ExprKey.mk

end

/-- The order a hash map hands its entries out in. -/
structure HashOrder (α : Type) where
  arrange : List α → List α
  perm : ∀ l, (arrange l).Perm l

def HashOrder.inserted {α : Type} : HashOrder α := ⟨id, fun _ => .rfl⟩

def Executor.replay (schema : Schema) : Executor Unit where
  State := List Batch
  schema := schema
  «open» := fun s w => (.ok (), s, w)
  nextBatch := fun s w =>
    match s with
    | [] => (.ok none, [], w)
    | batch :: rest => (.ok (some batch), rest, w)
  close := fun s w => (.ok (), s, w)

theorem Executor.replay_supplies (schema : Schema) (batches : List Batch) :
    (replay schema).Supplies batches () batches [] () := by
  refine ⟨batches, (), rfl, ?_⟩
  induction batches with
  | nil => exact .done rfl
  | cons batch batches ih => exact .more rfl ih

end Cmudb.Sql
