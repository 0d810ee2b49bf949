import Cmudb.Mvcc

/-!
# What a call knows about keys

The tasks of a call read as a program over the knowledge its transaction has
about one index. `Guarded` follows the index's unique latch through the tasks
that are left. `Safe` follows the rows the transaction has found clear of a key
while it holds the latch, and asks for what an entry needs when it is filed.
-/

namespace Cmudb

namespace IndexInfo

def keyOf (ix : IndexInfo) (tuple : Bytes) : Option IndexKey :=
  match ix.keyOfTuple tuple with
  | .ok key => key
  | .error _ => none

def Changes (ix : IndexInfo) (old new : Bytes) : Prop := ix.keyOf new ≠ none ∧ ix.keyOf old ≠ ix.keyOf new

end IndexInfo

namespace Task

def isUpdate : Task → Bool
  | update .. => true
  | _ => false

def Files (ix : IndexInfo) (r : RecordId) : Task → Prop
  | file i _ rid => i.oid = ix.oid ∧ rid = r
  | rekey i rid old new => i.oid = ix.oid ∧ rid = r ∧ ix.Changes old new
  | _ => False

def Latched (ix : IndexInfo) : Task → Prop
  | check i _ _ | judge i _ _ | recheck i _ _ _ | file i _ _ => i.oid = ix.oid
  | insert table _ => table = ix.table
  | _ => False

def Unlatched (ix : IndexInfo) : Task → Prop
  | rekey i _ _ _ => i.oid = ix.oid
  | update .. => True
  | _ => False

def index : Task → Option IndexInfo
  | lock i | unlock i | check i _ _ | judge i _ _ | rekey i _ _ _ | recheck i _ _ _ | file i _ _ => some i
  | _ => none

end Task

def AwaitsFile (ix : IndexInfo) (r : RecordId) (ts : List Task) : Prop :=
  (∀ t ∈ ts, t.isUpdate = false) ∧ ∃ t ∈ ts, t.Files ix r

/-- The latch of `ix` through the tasks `ts`, from whether it is held now to the end of the call. -/
def Guarded (ix : IndexInfo) : Bool → List Task → Prop
  | held, [] => held = false
  | held, .lock i :: ts => if i.oid = ix.oid then held = false ∧ Guarded ix true ts else Guarded ix held ts
  | held, .unlock i :: ts => if i.oid = ix.oid then held = true ∧ Guarded ix false ts else Guarded ix held ts
  | held, t :: ts => (t.Latched ix → held = true) ∧ (t.Unlatched ix → held = false) ∧ Guarded ix held ts

/-- What the tasks `ts` ask for, when the transaction sees the key `seen r` at each row and holds
the rows of `clear k` to be clear of `k`. Writes may change what is seen; nothing after them
depends on it. -/
def Safe (ix : IndexInfo) : (RecordId → Option IndexKey) → (IndexKey → RecordId → Prop) →
    List Task → Prop
  | _, _, [] => True
  | seen, clear, .lock i :: ts => Safe ix seen (fun k r => i.oid ≠ ix.oid ∧ clear k r) ts
  | seen, clear, .check i tuple own :: ts =>
    Safe ix seen (fun k r => clear k r ∨ i.oid = ix.oid ∧ ix.keyOf tuple = some k ∧ some r ≠ own) ts
  | seen, clear, .judge i key rid :: ts =>
    Safe ix seen (fun k r => clear k r ∨ i.oid = ix.oid ∧ key = k ∧ r = rid) ts
  | seen, clear, .recheck i rid old new :: ts => (i.oid = ix.oid → seen rid = ix.keyOf old) ∧
    Safe ix seen (fun k r => clear k r ∨ i.oid = ix.oid ∧ ix.Changes old new ∧ ix.keyOf new = some k ∧ r ≠ rid) ts
  | seen, clear, .rekey i rid _ new :: ts => (i.oid = ix.oid → seen rid = ix.keyOf new) ∧
    Safe ix seen (fun k r => i.oid ≠ ix.oid ∧ clear k r) ts
  | seen, _, .update table rid old _ :: _ => table = ix.table → seen rid = ix.keyOf old
  | seen, clear, .delete rid :: ts => (∀ t ∈ ts, ¬ t.Files ix rid) ∧
    ∀ seen', Safe ix seen' (fun k r => clear k r ∨ r = rid ∨ seen rid = some k) ts
  | _, clear, .insert table tuple :: ts =>
    (table = ix.table → ∀ k, ix.keyOf tuple = some k → ∀ r, clear k r) ∧
      ∀ seen' rid, Safe ix seen' (fun k r => clear k r ∧ r ≠ rid) ts
  | seen, clear, .file i tuple rid :: ts =>
    (i.oid = ix.oid → seen rid = ix.keyOf tuple ∧ ∀ k, ix.keyOf tuple = some k → ∀ r, r ≠ rid → clear k r) ∧
      Safe ix seen (fun k r => clear k r ∧ (i.oid = ix.oid → r ≠ rid)) ts
  | _, _, .taint _ :: _ => True
  | seen, clear, .unlock _ :: ts | seen, clear, .logFirstWrite :: ts => Safe ix seen clear ts

section
variable {cat : Catalog} {ix : IndexInfo} {seen : RecordId → Option IndexKey}
  {clear clear' : IndexKey → RecordId → Prop} {ts : List Task} {held : Bool}

theorem Safe.mono (hle : ∀ k r, clear k r → clear' k r) (h : Safe ix seen clear ts) :
    Safe ix seen clear' ts := by
  induction ts generalizing seen clear clear' with
  | nil => trivial
  | cons t ts ih =>
    cases t with
    | lock i => exact ih (fun k r hc => ⟨hc.1, hle k r hc.2⟩) h
    | unlock i => exact ih hle h
    | check i tuple own => exact ih (fun k r hc => hc.imp_left (hle k r)) h
    | judge i key rid => exact ih (fun k r hc => hc.imp_left (hle k r)) h
    | rekey i rid old new => exact ⟨h.1, ih (fun k r hc => ⟨hc.1, hle k r hc.2⟩) h.2⟩
    | recheck i rid old new => exact ⟨h.1, ih (fun k r hc => hc.imp_left (hle k r)) h.2⟩
    | logFirstWrite => exact ih hle h
    | update table rid old new => exact h
    | delete rid => exact ⟨h.1, fun seen' => ih (fun k r hc => hc.imp_left (hle k r)) (h.2 seen')⟩
    | insert table tuple =>
      exact ⟨fun ht k hk r => hle k r (h.1 ht k hk r),
        fun seen' rid => ih (fun k r hc => ⟨hle k r hc.1, hc.2⟩) (h.2 seen' rid)⟩
    | file i tuple rid =>
      refine ⟨fun hi => ⟨(h.1 hi).1, fun k hk r hr => hle k r ((h.1 hi).2 k hk r hr)⟩, ?_⟩
      exact ih (fun k r hc => ⟨hle k r hc.1, hc.2⟩) h.2
    | taint e => trivial

/-! ## The indexes of a table -/

theorem mem_sorted {table : Nat} {i : IndexInfo} : i ∈ cat.sorted table ↔ i ∈ cat.indexes ∧ i.table = table := by
  unfold Catalog.sorted
  rw [(List.perm_insertionSort _ _).mem_iff, List.mem_filter]
  simp

theorem sorted_nodup (table : Nat) : ((cat.sorted table).map IndexInfo.oid).Nodup := by
  unfold Catalog.sorted
  rw [((List.perm_insertionSort _ _).map IndexInfo.oid).nodup_iff]
  exact cat.distinct.sublist (List.filter_sublist.map _)

theorem index_ext {i : IndexInfo} (hi : i ∈ cat.indexes) (hix : ix ∈ cat.indexes) (ho : i.oid = ix.oid) : i = ix :=
  List.inj_on_of_nodup_map cat.distinct hi hix ho

theorem oid_mem_sorted {table : Nat} (hix : ix ∈ cat.indexes) :
    ix.oid ∈ (cat.sorted table).map IndexInfo.oid ↔ table = ix.table := by
  constructor
  · intro h
    obtain ⟨i, hi, ho⟩ := List.mem_map.mp h
    obtain ⟨hi, ht⟩ := mem_sorted.mp hi
    rw [index_ext hi hix ho] at ht
    exact ht.symm
  · rintro rfl
    exact List.mem_map.mpr ⟨ix, mem_sorted.mpr ⟨hix, rfl⟩, rfl⟩

/-! ## Loops over the indexes -/

variable {I : List IndexInfo}

theorem safe_locks (h : Safe ix seen (fun _ _ => False) ts) : Safe ix seen clear (I.map .lock ++ ts) := by
  induction I generalizing clear with
  | nil => exact h.mono fun _ _ hf => hf.elim
  | cons i I ih => exact ih

theorem safe_checks {tuple : Bytes}
    (h : Safe ix seen (fun k r => clear k r ∨ ix.oid ∈ I.map IndexInfo.oid ∧ ix.keyOf tuple = some k) ts) :
    Safe ix seen clear (I.map (.check · tuple none) ++ ts) := by
  induction I generalizing clear with
  | nil => exact h.mono fun k r hc => hc.resolve_right fun hm => by cases hm.1
  | cons i I ih =>
    refine ih (h.mono fun k r hc => ?_)
    rcases hc with hc | ⟨hm, hk⟩
    · exact .inl (.inl hc)
    · rcases List.mem_cons.mp hm with ho | hm
      · exact .inl (.inr ⟨ho.symm, hk, by simp⟩)
      · exact .inr ⟨hm, hk⟩

theorem safe_rechecks {rid : RecordId} {old new : Bytes}
    (hseen : ix.oid ∈ I.map IndexInfo.oid → seen rid = ix.keyOf old)
    (h : Safe ix seen (fun k r => clear k r ∨ ix.oid ∈ I.map IndexInfo.oid ∧ ix.Changes old new ∧
      ix.keyOf new = some k ∧ r ≠ rid) ts) :
    Safe ix seen clear (I.map (.recheck · rid old new) ++ ts) := by
  induction I generalizing clear with
  | nil => exact h.mono fun k r hc => hc.resolve_right fun hm => by cases hm.1
  | cons i I ih =>
    refine ⟨fun ho => hseen (by simp [ho]),
      ih (fun hm => hseen (List.mem_cons_of_mem _ hm)) (h.mono fun k r hc => ?_)⟩
    rcases hc with hc | ⟨hm, hk⟩
    · exact .inl (.inl hc)
    · rcases List.mem_cons.mp hm with ho | hm
      · exact .inl (.inr ⟨ho.symm, hk⟩)
      · exact .inr ⟨hm, hk⟩

theorem safe_rekeys {rid : RecordId} {old new : Bytes}
    (hseen : ix.oid ∈ I.map IndexInfo.oid → seen rid = ix.keyOf new) :
    Safe ix seen clear (I.map (.rekey · rid old new)) := by
  induction I generalizing clear with
  | nil => trivial
  | cons i I ih => exact ⟨fun ho => hseen (by simp [ho]), ih fun hm => hseen (List.mem_cons_of_mem _ hm)⟩

theorem safe_files {rid : RecordId} {tuple : Bytes}
    (hseen : ix.oid ∈ I.map IndexInfo.oid → seen rid = ix.keyOf tuple)
    (hclear : ix.oid ∈ I.map IndexInfo.oid → ∀ k, ix.keyOf tuple = some k → ∀ r, r ≠ rid → clear k r)
    (h : Safe ix seen (fun k r => clear k r ∧ r ≠ rid) ts) :
    Safe ix seen clear (I.map (.file · tuple rid) ++ ts) := by
  induction I generalizing clear with
  | nil => exact h.mono fun k r hc => hc.1
  | cons i I ih =>
    have hmem : ∀ {o}, o ∈ I.map IndexInfo.oid → o ∈ (i :: I).map IndexInfo.oid :=
      fun hm => List.mem_cons_of_mem _ hm
    refine ⟨fun ho => ⟨hseen (by simp [ho]), hclear (by simp [ho])⟩, ih (fun hm => hseen (hmem hm)) ?_ ?_⟩
    · intro hm k hk r hr
      exact ⟨hclear (hmem hm) k hk r hr, fun _ => hr⟩
    · exact h.mono fun k r hc => ⟨⟨hc.1, fun _ => hc.2⟩, hc.2⟩

theorem safe_judges {key : IndexKey} {rids : List RecordId}
    (h : Safe ix seen (fun k r => clear k r ∨ key = k ∧ r ∈ rids) ts) :
    Safe ix seen clear (rids.map (.judge ix key) ++ ts) := by
  induction rids generalizing clear with
  | nil => exact h.mono fun k r hc => hc.resolve_right fun hm => by cases hm.2
  | cons rid rids ih =>
    refine ih (h.mono fun k r hc => ?_)
    rcases hc with hc | ⟨hk, hm⟩
    · exact .inl (.inl hc)
    · rcases List.mem_cons.mp hm with rfl | hm
      · exact .inl (.inr ⟨rfl, hk, rfl⟩)
      · exact .inr ⟨hk, hm⟩

theorem safe_judges_of_safe {i : IndexInfo} {key : IndexKey} {rids : List RecordId} (h : Safe ix seen clear ts) :
    Safe ix seen clear (rids.map (.judge i key) ++ ts) := by
  induction rids generalizing clear with
  | nil => exact h
  | cons rid rids ih => exact ih (h.mono fun k r hc => .inl hc)

theorem safe_released : Safe ix seen clear (I.map .unlock) := by
  induction I with
  | nil => trivial
  | cons i I ih => exact ih

/-- Latches of all indexes, taken (`b = false`) or released, one task after the other. -/
theorem guarded_latches {latch : IndexInfo → Task} {b : Bool} (hnd : (I.map IndexInfo.oid).Nodup)
    (hlatch : ∀ i us held, Guarded ix held (latch i :: us) ↔
      if i.oid = ix.oid then held = b ∧ Guarded ix (!b) us else Guarded ix held us)
    (h : if ix.oid ∈ I.map IndexInfo.oid then held = b ∧ Guarded ix (!b) ts else Guarded ix held ts) :
    Guarded ix held (I.map latch ++ ts) := by
  induction I generalizing held with
  | nil => simpa using h
  | cons i I ih =>
    obtain ⟨hni, hnd⟩ := List.nodup_cons.mp hnd
    rw [List.map_cons, List.cons_append, hlatch]
    by_cases ho : i.oid = ix.oid
    · rw [if_pos (by simp [ho])] at h
      rw [if_pos ho]
      refine ⟨h.1, ih hnd ?_⟩
      rw [if_neg (by rw [← ho]; exact hni)]
      exact h.2
    · rw [if_neg ho]
      apply ih hnd
      simpa [Ne.symm ho] using h

theorem guarded_append {us : List Task} (hus : ∀ t ∈ us, (∀ i, t ≠ .lock i) ∧ (∀ i, t ≠ .unlock i) ∧
      (t.Latched ix → held = true) ∧ (t.Unlatched ix → held = false)) :
    Guarded ix held (us ++ ts) ↔ Guarded ix held ts := by
  induction us with
  | nil => rfl
  | cons t us ih =>
    obtain ⟨hl, hu, hh⟩ := hus t (by simp)
    have ih := ih fun t ht => hus t (List.mem_cons_of_mem _ ht)
    rw [List.cons_append, ← ih]
    cases t with
    | lock i => exact absurd rfl (hl i)
    | unlock i => exact absurd rfl (hu i)
    | _ => exact ⟨fun h => h.2.2, fun h => ⟨hh.1, hh.2, h⟩⟩

/-! ## Whole calls -/

/-- A body between taking the latches of all indexes of a table and releasing them. -/
theorem guarded_latched {table : Nat} (hix : ix ∈ cat.indexes) {us : List Task}
    (hus : ∀ t ∈ us, (∀ i, t ≠ .lock i) ∧ (∀ i, t ≠ .unlock i) ∧ (t.Latched ix → table = ix.table) ∧
      ¬ t.Unlatched ix) :
    Guarded ix false ((cat.sorted table).map .lock ++ (us ++ (cat.sorted table).map .unlock)) := by
  have mem : ix.oid ∈ (cat.sorted table).map IndexInfo.oid ↔ table = ix.table := oid_mem_sorted hix
  have body : ∀ held, (table = ix.table → held = true) → Guarded ix held ((cat.sorted table).map .unlock) →
      Guarded ix held (us ++ (cat.sorted table).map .unlock) := by
    intro held hheld h
    rw [guarded_append fun t ht => ?_]
    · exact h
    · obtain ⟨h1, h2, h3, h4⟩ := hus t ht
      exact ⟨h1, h2, fun hl => hheld (h3 hl), fun hu => absurd hu h4⟩
  have last : ∀ held, (held = true ↔ table = ix.table) → Guarded ix held ((cat.sorted table).map .unlock) := by
    intro held hheld
    rw [← List.append_nil ((cat.sorted table).map Task.unlock)]
    refine guarded_latches (b := true) (sorted_nodup table) (fun _ _ _ => .rfl) ?_
    split
    · rename_i ht
      exact ⟨hheld.mpr (mem.mp ht), rfl⟩
    · rename_i ht
      exact Bool.eq_false_iff.mpr fun hc => ht (mem.mpr (hheld.mp hc))
  refine guarded_latches (b := false) (sorted_nodup table) (fun _ _ _ => .rfl) ?_
  split
  · rename_i ht
    exact ⟨rfl, body true (fun _ => rfl) (last true (by simp [mem.mp ht]))⟩
  · rename_i ht
    have ht : ¬ table = ix.table := fun hc => ht (mem.mpr hc)
    exact body false (fun hc => absurd hc ht) (last false (by simp [ht]))

theorem moveTuple_eq (table : Nat) (rid : RecordId) (old new : Bytes) : moveTuple cat table rid old new =
    (cat.sorted table).map .lock ++ ((cat.sorted table).map (.recheck · rid old new) ++
      [.delete rid, .insert table new] ++ (cat.sorted table).map .unlock) := by
  simp [moveTuple]

theorem insertTuple_eq (table : Nat) (tuple : Bytes) : (Call.insertTuple table tuple).tasks cat =
    (cat.sorted table).map .lock ++ ((cat.sorted table).map (.check · tuple none) ++
      [.logFirstWrite, .insert table tuple] ++ (cat.sorted table).map .unlock) := by
  simp [Call.tasks]

theorem moveTuple_guarded (hix : ix ∈ cat.indexes) (table : Nat) (rid : RecordId) (old new : Bytes) :
    Guarded ix false (moveTuple cat table rid old new) := by
  rw [moveTuple_eq]
  apply guarded_latched hix
  intro t ht
  simp only [List.mem_append, List.mem_map, List.mem_cons, List.not_mem_nil, or_false] at ht
  rcases ht with ⟨i, hi, rfl⟩ | rfl | rfl
  · refine ⟨by simp, by simp, fun ho => ?_, fun hc => hc⟩
    exact (oid_mem_sorted hix).mp (List.mem_map.mpr ⟨i, hi, ho⟩)
  · exact ⟨by simp, by simp, fun hc => hc.elim, fun hc => hc⟩
  · exact ⟨by simp, by simp, fun ht => ht, fun hc => hc⟩

theorem moveTuple_safe (hix : ix ∈ cat.indexes) {table : Nat} {rid : RecordId} {old new : Bytes}
    (hseen : table = ix.table → seen rid = ix.keyOf old) :
    Safe ix seen clear (moveTuple cat table rid old new) := by
  rw [moveTuple_eq, List.append_assoc]
  apply safe_locks
  refine safe_rechecks (fun hm => hseen ((oid_mem_sorted hix).mp hm)) ⟨?_,
    fun seen' => ⟨fun ht k hk r => ?_, fun seen'' rid' => ?_⟩⟩
  · simp [Task.Files]
  · -- the row that moves is held; the other rows were checked, or its own key stays
    by_cases hr : r = rid
    · exact .inr (.inl hr)
    · by_cases hc : ix.Changes old new
      · exact .inl (.inr ⟨(oid_mem_sorted hix).mpr ht, hc, hk, hr⟩)
      · have : ix.keyOf old = ix.keyOf new := by
          by_contra hne
          exact hc ⟨by rw [hk]; simp, hne⟩
        exact .inr (.inr (by rw [hseen ht, this, hk]))
  · exact safe_released

theorem guarded_rekeys {rid : RecordId} {old new : Bytes} : Guarded ix false (I.map (.rekey · rid old new)) := by
  rw [← List.append_nil (I.map _), guarded_append fun t ht => ?_]
  · rfl
  · obtain ⟨i, _, rfl⟩ := List.mem_map.mp ht
    exact ⟨by simp, by simp, fun hc => hc.elim, fun _ => rfl⟩

theorem call_guarded (hix : ix ∈ cat.indexes) (c : Call) : Guarded ix false (c.tasks cat) := by
  cases c with
  | insertTuple table tuple =>
    rw [insertTuple_eq]
    apply guarded_latched hix
    intro t ht
    simp only [List.mem_append, List.mem_map, List.mem_cons, List.not_mem_nil, or_false] at ht
    rcases ht with ⟨i, hi, rfl⟩ | rfl | rfl
    · refine ⟨by simp, by simp, fun ho => ?_, fun hc => hc⟩
      exact (oid_mem_sorted hix).mp (List.mem_map.mpr ⟨i, hi, ho⟩)
    · exact ⟨by simp, by simp, fun hc => hc.elim, fun hc => hc⟩
    · exact ⟨by simp, by simp, fun ht => ht, fun hc => hc⟩
  | updateTuple table rid old new => exact ⟨fun hc => hc.elim, fun _ => rfl, guarded_rekeys⟩
  | deleteTuple rid => exact ⟨fun hc => hc.elim, fun hc => hc.elim, rfl⟩

theorem call_safe (hix : ix ∈ cat.indexes) {c : Call}
    (hseen : ∀ rid old new, c = .updateTuple ix.table rid old new → seen rid = ix.keyOf old) :
    Safe ix seen clear (c.tasks cat) := by
  cases c with
  | insertTuple table tuple =>
    rw [insertTuple_eq, List.append_assoc]
    apply safe_locks
    exact safe_checks ⟨fun ht k hk r => .inr ⟨(oid_mem_sorted hix).mpr ht, hk⟩, fun seen' rid => safe_released⟩
  | updateTuple table rid old new => exact fun ht => hseen rid old new (by rw [ht])
  | deleteTuple rid => exact ⟨fun t ht => (by cases ht), fun _ => trivial⟩

end

end Cmudb
