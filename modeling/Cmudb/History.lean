import Cmudb.Schedule

/-!
# What the calls did

The committed versions of a record id, read off the events of a run alone: a
commit makes a version of the last thing its transaction wrote at each record
id. `base` are the versions the tables held before the run.
-/

namespace Cmudb

/-- A committed version: `none` is a deletion. Versions the tables started with have no writer. -/
structure Version where
  ts : Nat
  writer : Option Nat
  data : Option Bytes
  deriving DecidableEq, Repr

/-- The transaction's latest write of `r`, if it wrote `r`. -/
def latestWrite (id : Nat) (r : RecordId) : List Event → Option (Option Bytes)
  | [] => none
  | .wrote i rid new _ :: es => if i = id ∧ rid = r then some new else latestWrite id r es
  | _ :: es => latestWrite id r es

def replacedBy (id : Nat) (r : RecordId) : List Event → Option Replaced
  | [] => none
  | .wrote i rid _ (some old) :: es => if i = id ∧ rid = r then some old else replacedBy id r es
  | _ :: es => replacedBy id r es

/-- The committed versions of `r`, newest first. -/
def history (base : RecordId → List Version) (r : RecordId) : List Event → List Version
  | [] => base r
  | .committed id ts :: es =>
    match latestWrite id r es with
    | some new => ⟨ts, some id, new⟩ :: history base r es
    | none => history base r es
  | _ :: es => history base r es

namespace TransactionManager

def base (s : TransactionManager) (r : RecordId) : List Version :=
  match s.heap.slot r with
  | some (⟨.commit ts, isDeleted⟩, b) => [⟨ts, none, live isDeleted b⟩]
  | _ => []

end TransactionManager

/-- The version a snapshot at `readTs` shows: the newest one committed at or before it. -/
def snapshot (readTs : Nat) (versions : List Version) : Option Version :=
  versions.find? fun v => v.ts ≤ readTs

section
variable {id : Nat} {r : RecordId} {base : RecordId → List Version} {es : List Event}

@[simp] theorem latestWrite_began (i t : Nat) : latestWrite id r (.began i t :: es) = latestWrite id r es := rfl
@[simp] theorem latestWrite_committed (i t : Nat) :
    latestWrite id r (.committed i t :: es) = latestWrite id r es := rfl

@[simp] theorem latestWrite_wrote (i : Nat) (rid : RecordId) (new : Option Bytes) (old : Option Replaced) :
    latestWrite id r (.wrote i rid new old :: es) = if i = id ∧ rid = r then some new
    else latestWrite id r es := rfl

@[simp] theorem replacedBy_began (i t : Nat) : replacedBy id r (.began i t :: es) = replacedBy id r es := rfl
@[simp] theorem replacedBy_committed (i t : Nat) :
    replacedBy id r (.committed i t :: es) = replacedBy id r es := rfl

@[simp] theorem replacedBy_wrote (i : Nat) (rid : RecordId) (new : Option Bytes) (old : Option Replaced) :
    replacedBy id r (.wrote i rid new old :: es) =
      if i = id ∧ rid = r ∧ old.isSome then old else replacedBy id r es := by
  cases old with
  | none => simp [replacedBy]
  | some o => simp [replacedBy]

@[simp] theorem history_began (i t : Nat) : history base r (.began i t :: es) = history base r es := rfl

@[simp] theorem history_wrote (i : Nat) (rid : RecordId) (new : Option Bytes) (old : Option Replaced) :
    history base r (.wrote i rid new old :: es) = history base r es := rfl

theorem history_committed (i t : Nat) : history base r (.committed i t :: es) =
    match latestWrite i r es with
    | some new => ⟨t, some i, new⟩ :: history base r es
    | none => history base r es := rfl

end

end Cmudb
