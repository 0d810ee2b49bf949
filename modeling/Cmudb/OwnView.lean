import Cmudb.Unique

/-!
# The keys a running transaction sees

A transaction reads its snapshot with its own writes over it, while a uniqueness
check judges the newest version of each row. So a transaction may take a key
that its snapshot still shows at a row somebody else has meanwhile taken it away
from. In every other case the keys it sees are unique.
-/

namespace Cmudb

namespace Engine

open TransactionManager Lib.Reservations

/-- Somebody else has taken the key away from a row of the snapshot: the newest committed version
has it no more, or the commit that takes it away is stamping the row. -/
def LeftKey (base : RecordId → List Version) (e : Engine) (ix : IndexInfo) (id : Nat) (key : IndexKey)
    (r : RecordId) : Prop :=
  latestWrite id r e.mgr.events = none ∧
    ((∀ row, e.rowAt base ix.table e.mgr.lastCommitTs r = some row → ix.keyOfTuple row ≠ .ok (some key)) ∨
      ∃ i, r ∈ e.mgr.stampedRids i)

section
variable {cat : Catalog} {ix : IndexInfo} {base : RecordId → List Version} {e : Engine} {id : Nat}
  {txn : Transaction} {key : IndexKey} {r q : RecordId} {row : Bytes}

theorem seen_own (h : Inv base e.mgr) (ht : e.mgr.txns id = some txn) (hrun : txn.state = .running)
    (hend : e.mgr.ending id = false) (ho : e.mgr.heap.owner r.pageId = some ix.table)
    (hv : e.mgr.visible id txn r = some row) (hkey : ix.keyOfTuple row = .ok (some key)) {new : Option Bytes}
    (hw : latestWrite id r e.mgr.events = some new) : e.mgr.Holds id r ∧ slotKey ix e.mgr r = some key := by
  have hholds : e.mgr.Holds id r :=
    h.held id txn r ht (unfinished_of_running hrun) (h.written id txn r ht hrun (by rw [hw]; rfl))
  have hseen :=
    (h.sees_view (r := r) ht hrun).1 (by rw [stampedRids_of_not_ending hend]; exact List.not_mem_nil) new hw
  rw [hv] at hseen
  subst hseen
  exact ⟨hholds, by rw [h.slotKey_eq hholds hw ho, Option.bind_some, keyOf_ok hkey]⟩

theorem seen_snapshot (h : Inv base e.mgr) (ht : e.mgr.txns id = some txn) (hrun : txn.state = .running)
    (ho : e.mgr.heap.owner r.pageId = some ix.table) (hv : e.mgr.visible id txn r = some row)
    (hkey : ix.keyOfTuple row = .ok (some key)) (hw : latestWrite id r e.mgr.events = none) :
    keyAt ix base e.mgr txn.readTs r = some key := by
  have hseen := (h.sees_view (r := r) ht hrun).2 (.inr hw)
  rw [hv] at hseen
  unfold keyAt
  rw [if_pos ho, ← hseen, Option.bind_some, keyOf_ok hkey]

/-- A key that is claimed elsewhere is not the newest one here, unless this row is being stamped. -/
theorem KeyInv.leftKey (hk : KeyInv ix base cat e) (hcl : (e.reservations ix base).claims id q key) (hne : r ≠ q)
    (hholds : ¬ e.mgr.Holds id r) (hw : latestWrite id r e.mgr.events = none) : e.LeftKey base ix id key r := by
  refine ⟨hw, ?_⟩
  by_cases hn : newestKey ix base e.mgr r = some key
  · rcases hk.unique.apart hcl hn with heq | hh | hskip
    · exact absurd heq hne
    · exact absurd hh hholds
    · exact .inr (hk.passed r hskip)
  · exact .inl fun row hrow hkey => hn (keyAt_of_row hrow hkey)

/-- Two rows with one key in the transaction's view are one row, unless a call under way has still
to check one of them, or somebody else has taken the key away from one of them. -/
theorem KeyInv.view (hk : KeyInv ix base cat e) (h : Inv base e.mgr) (ht : e.mgr.txns id = some txn)
    (hrun : txn.state = .running) (hclean : ∀ err, .taint err ∉ e.tasks id) (hend : e.mgr.ending id = false)
    {row' : Bytes} (ho : e.mgr.heap.owner r.pageId = some ix.table)
    (ho' : e.mgr.heap.owner q.pageId = some ix.table) (hv : e.mgr.visible id txn r = some row)
    (hv' : e.mgr.visible id txn q = some row') (hkey : ix.keyOfTuple row = .ok (some key))
    (hkey' : ix.keyOfTuple row' = .ok (some key)) :
    r = q ∨ (AwaitsFile ix r (e.tasks id) ∨ AwaitsFile ix q (e.tasks id)) ∨
      e.LeftKey base ix id key r ∨ e.LeftKey base ix id key q := by
  have hactive : e.Active id := ⟨⟨txn, ht, hrun⟩, hclean⟩
  by_cases hne : r = q
  · exact .inl hne
  by_cases har : AwaitsFile ix r (e.tasks id)
  · exact .inr (.inl (.inl har))
  by_cases haq : AwaitsFile ix q (e.tasks id)
  · exact .inr (.inl (.inr haq))
  have hholds : ∀ x, latestWrite id x e.mgr.events = none → ¬ e.mgr.Holds id x := by
    rintro x hw ⟨m, b, hs, hm⟩
    obtain ⟨t, own⟩ := h.owner hs hm
    have := own.latest
    rw [hw] at this
    cases this
  cases hw : latestWrite id r e.mgr.events with
  | some new =>
    obtain ⟨hh, hs⟩ := seen_own h ht hrun hend ho hv hkey hw
    have hcl : (e.reservations ix base).claims id r key := ⟨hactive, hh, hs, har⟩
    cases hw' : latestWrite id q e.mgr.events with
    | some new' =>
      obtain ⟨hh', hs'⟩ := seen_own h ht hrun hend ho' hv' hkey' hw'
      exact .inl (hk.unique.claimed hcl ⟨hactive, hh', hs', haq⟩)
    | none => exact .inr (.inr (.inr (hk.leftKey hcl (Ne.symm hne) (hholds q hw') hw')))
  | none =>
    have hr := seen_snapshot h ht hrun ho hv hkey hw
    cases hw' : latestWrite id q e.mgr.events with
    | some new' =>
      obtain ⟨hh', hs'⟩ := seen_own h ht hrun hend ho' hv' hkey' hw'
      exact .inr (.inr (.inl (hk.leftKey ⟨hactive, hh', hs', haq⟩ hne (hholds r hw) hw)))
    | none => exact .inl (hk.committed txn.readTs r q key hr (seen_snapshot h ht hrun ho' hv' hkey' hw'))

end

/-- The keys a running transaction sees. -/
theorem unique_view {cat : Catalog} {e₀ e : Engine} {table id : Nat} {txn : Transaction} (h₀ : e₀.Initial)
    (hempty : e₀.EmptyTable table) (hr : Lib.Steps (step cat) (fun e a => e.honestCalls a = true) e₀ e)
    (ht : e.mgr.txns id = some txn) (hrun : txn.state = .running) (hclean : ∀ err, .taint err ∉ e.tasks id)
    (hend : e.mgr.ending id = false) {ix : IndexInfo} (hix : ix ∈ cat.indexes) (htable : ix.table = table)
    {r q : RecordId} {row row' : Bytes} {key : IndexKey}
    (ho : e.mgr.heap.owner r.pageId = some table) (ho' : e.mgr.heap.owner q.pageId = some table)
    (hv : e.mgr.visible id txn r = some row) (hv' : e.mgr.visible id txn q = some row')
    (hkey : ix.keyOfTuple row = .ok (some key)) (hkey' : ix.keyOfTuple row' = .ok (some key)) :
    r = q ∨ (AwaitsFile ix r (e.tasks id) ∨ AwaitsFile ix q (e.tasks id)) ∨
      e.LeftKey e₀.mgr.base ix id key r ∨ e.LeftKey e₀.mgr.base ix id key q := by
  subst htable
  have hk := run_keyInv h₀ hempty hix (honestCalls_keepsKeys h₀ hr).1
  exact hk.view (run_inv honestCalls_putBack h₀ hr) ht hrun hclean hend ho ho' hv hv' hkey hkey'

/-- A transaction that inserted a row with key 2, between two calls. -/
theorem unique_view_inserted :
    ∃ e txn, Lib.Steps (step byFirstByte) (fun e a => e.honestCalls a = true) oneTable e ∧ e.mgr.txns 1 = some txn ∧
      txn.state = .running ∧ e.tasks 1 = [] ∧ e.mgr.visible 1 txn ⟨0, 1⟩ = some [2, 20] ∧
      ∀ q row, e.mgr.heap.owner q.pageId = some 0 → e.mgr.visible 1 txn q = some row →
        firstByte.keyOfTuple row = .ok (some [2]) → ⟨0, 1⟩ = q ∨
          e.LeftKey oneTable.mgr.base firstByte 1 [2] ⟨0, 1⟩ ∨ e.LeftKey oneTable.mgr.base firstByte 1 [2] q := by
  obtain ⟨e, hr, hp⟩ : ∃ e, Lib.Steps (step byFirstByte) (fun e a => e.honestCalls a = true) oneTable e ∧
      ((e.mgr.txns 1).any (fun txn => txn.state == .running && e.mgr.visible 1 txn ⟨0, 1⟩ == some [2, 20]) &&
        ((e.tasks 1).isEmpty && (!e.mgr.ending 1 && e.mgr.heap.owner 0 == some 0))) = true :=
    Lib.exists_steps (.mgr .begin :: wholeCall 0 (.insertTuple 0 [1, 10]) 6 ++ wholeCommit 0 [⟨0, 0⟩] ++
      .mgr .begin :: wholeCall 1 (.insertTuple 0 [2, 20]) 6) (by decide)
  obtain ⟨hany, hp⟩ := Bool.and_eq_true_iff.mp hp
  obtain ⟨hidle, hp⟩ := Bool.and_eq_true_iff.mp hp
  obtain ⟨hend, ho⟩ := Bool.and_eq_true_iff.mp hp
  obtain ⟨txn, ht, htxn⟩ := (Option.any_eq_true _ _).mp hany
  obtain ⟨hrun, hv⟩ := Bool.and_eq_true_iff.mp htxn
  have hidle : e.tasks 1 = [] := List.isEmpty_iff.mp hidle
  refine ⟨e, txn, hr, ht, eq_of_beq hrun, hidle, eq_of_beq hv, fun q row ho' hv' hkey' => ?_⟩
  have hix : firstByte ∈ byFirstByte.indexes := List.mem_singleton.mpr rfl
  have hview := unique_view oneTable_initial (oneTable_empty 0) hr ht (eq_of_beq hrun) (by rw [hidle]; simp)
    (by simpa using hend) hix rfl (eq_of_beq ho) ho' (eq_of_beq hv) hv' rfl hkey'
  simpa [hidle, AwaitsFile] using hview

/-- A row that a transaction's snapshot shows with key 1 has got key 2 by now, so the
transaction may take key 1 for another row, and sees both. -/
theorem stale_key_taken_again :
    ∃ e, Lib.Steps (step byFirstByte) (fun e a => e.honestCalls a = true) oneTable e ∧
      (e.mgr.txns 1).any (fun txn => txn.state == .running && (e.tasks 1).isEmpty && !e.mgr.ending 1 &&
        e.mgr.visible 1 txn ⟨0, 0⟩ == some [1, 10] && e.mgr.visible 1 txn ⟨0, 1⟩ == some [1, 20]) = true :=
  Lib.exists_steps (.mgr .begin :: wholeCall 0 (.insertTuple 0 [1, 10]) 6 ++ wholeCommit 0 [⟨0, 0⟩] ++
    .mgr .begin :: .mgr .begin :: wholeCall 2 (.updateTuple 0 ⟨0, 0⟩ [1, 10] [2, 10]) 6 ++ wholeCommit 2 [⟨0, 0⟩] ++
    wholeCall 1 (.insertTuple 0 [1, 20]) 7) (by decide)

end Engine

end Cmudb
