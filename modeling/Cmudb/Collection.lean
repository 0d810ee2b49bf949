import Mathlib.Algebra.BigOperators.Group.List.Basic
import Cmudb.CommitCall
import Cmudb.Mvcc
import Cmudb.Settled

/-!
# Garbage collection

`garbage_collect` as a whole call with the counts it returns, over the record ids
of the version map in whatever order the map lists them. It cuts each chain where
`collect` says, counts what it cuts, and leaves nothing behind when no transaction
is open.
-/

namespace Cmudb

structure GcStats where
  watermark : Nat
  undoLogsRemoved : Nat
  chainsRemoved : Nat
  deriving DecidableEq, Repr

namespace TransactionManager

/-- The walk to the first entry at or below the watermark: what stays of the chain, and how many
entries are unlinked behind it. -/
def unlinkOlder (watermark : Nat) : List UndoLog → List UndoLog × Nat
  | [] => ([], 0)
  | log :: prev =>
    if log.ts.le watermark then ([log], prev.length)
    else
      let (kept, removed) := unlinkOlder watermark prev
      (log :: kept, removed)

def collectChain (s : TransactionManager) (stats : GcStats) (rid : RecordId) (ts : Stamp) :
    TransactionManager × GcStats :=
  match s.versions rid with
  | [] => (s, stats)
  | head :: prev =>
    if !ts.isTxnId && ts.le stats.watermark then
      ({ s with versions := Function.update s.versions rid [] },
        { stats with
          chainsRemoved := stats.chainsRemoved + 1
          undoLogsRemoved := stats.undoLogsRemoved + (head :: prev).length })
    else
      let (kept, removed) := unlinkOlder stats.watermark (head :: prev)
      ({ s with versions := Function.update s.versions rid kept },
        { stats with undoLogsRemoved := stats.undoLogsRemoved + removed })

/-- The loop of `garbage_collect`; `fails` are the slots whose page cannot be read. -/
def collectLoop (fails : RecordId → Bool) : List RecordId → TransactionManager → GcStats →
    TransactionManager × Except TxnError GcStats
  | [], s, stats => (s, .ok stats)
  | rid :: rest, s, stats =>
    if fails rid then (s, .error (.storage .bpm))
    else match s.heap.readSlot rid with
      | .error e => (s, .error (.storage e))
      | .ok (tmeta, _) =>
        let (s, stats) := s.collectChain stats rid tmeta.ts
        collectLoop fails rest s stats

/-- `garbage_collect`, `rids` being the keys of the version map. -/
def collectGarbage (s : TransactionManager) (rids : List RecordId) (fails : RecordId → Bool) :
    TransactionManager × Except TxnError GcStats :=
  collectLoop fails rids s ⟨s.watermark, 0, 0⟩

/-! ## One chain -/

theorem unlinkOlder_eq (w : Nat) : ∀ chain : List UndoLog, unlinkOlder w chain =
    (Lib.cutThrough (fun log => log.ts.le w) chain,
      chain.length - (Lib.cutThrough (fun log => log.ts.le w) chain).length)
  | [] => rfl
  | log :: prev => by
    unfold unlinkOlder Lib.cutThrough
    rw [unlinkOlder_eq w prev]
    dsimp only
    split
    · simp
    · simp

def gone (before after : List UndoLog) : Nat := if before ≠ [] ∧ after = [] then 1 else 0

theorem collectChain_eq (s : TransactionManager) (stats : GcStats) (rid : RecordId) (ts : Stamp) :
    s.collectChain stats rid ts =
      ({ s with versions := Function.update s.versions rid (collect stats.watermark ts (s.versions rid)) },
        ⟨stats.watermark,
          stats.undoLogsRemoved + ((s.versions rid).length - (collect stats.watermark ts (s.versions rid)).length),
          stats.chainsRemoved + gone (s.versions rid) (collect stats.watermark ts (s.versions rid))⟩) := by
  unfold collectChain
  cases hv : s.versions rid with
  | nil =>
    have hnil : collect stats.watermark ts [] = [] := by
      unfold collect Lib.cutThrough
      split <;> rfl
    rw [hnil, ← hv, Function.update_eq_self]
    simp [gone, hv]
  | cons head prev =>
    dsimp only
    unfold collect
    split
    · simp [gone]
    · rw [unlinkOlder_eq]
      obtain ⟨l', hl', _⟩ := Lib.cutThrough_cons (fun log : UndoLog => log.ts.le stats.watermark) head prev
      simp [gone, hl']

/-! ## The whole call -/

section
variable {s s' : TransactionManager} {fails : RecordId → Bool} {rids : List RecordId} {stats stats' : GcStats}

structure Collected (s s' : TransactionManager) (rids : List RecordId) (stats stats' : GcStats) : Prop where
  rest : s' = { s with versions := s'.versions }
  others : ∀ r, r ∉ rids → s'.versions r = s.versions r
  chains : ∀ r ∈ rids, ∃ m b, s.heap.slot r = some (m, b) ∧
    s'.versions r = collect stats.watermark m.ts (s.versions r)
  watermark : stats'.watermark = stats.watermark
  entries : stats'.undoLogsRemoved = stats.undoLogsRemoved +
    (rids.map fun r => (s.versions r).length - (s'.versions r).length).sum
  dropped : stats'.chainsRemoved = stats.chainsRemoved + (rids.map fun r => gone (s.versions r) (s'.versions r)).sum

theorem collectLoop_ok : ∀ (rids : List RecordId) {s s' : TransactionManager} {stats stats' : GcStats}, rids.Nodup →
    collectLoop fails rids s stats = (s', .ok stats') → Collected s s' rids stats stats'
  | [], s, s', stats, stats', _, h => by
    cases h
    exact ⟨rfl, fun _ _ => rfl, fun _ h => absurd h List.not_mem_nil, rfl, rfl, rfl⟩
  | rid :: rest, s, s', stats, stats', hnd, h => by
    obtain ⟨hrid, hnd⟩ := List.nodup_cons.mp hnd
    unfold collectLoop at h
    split at h
    · cases h
    split at h
    · cases h
    rename_i tmeta bytes hread
    rw [Heap.readSlot_eq] at hread
    rw [collectChain_eq] at h
    dsimp only at h
    have hc := collectLoop_ok rest hnd h
    have hself : s'.versions rid = collect stats.watermark tmeta.ts (s.versions rid) := by
      rw [hc.others rid hrid]
      exact Function.update_self ..
    have hbefore : ∀ r ∈ rest, Function.update s.versions rid
        (collect stats.watermark tmeta.ts (s.versions rid)) r =
        s.versions r := by
      intro r hr
      have hne : r ≠ rid := fun he => hrid (he ▸ hr)
      exact Function.update_of_ne hne ..
    refine ⟨hc.rest, fun r hr => ?_, fun r hr => ?_, hc.watermark, ?_, ?_⟩
    · obtain ⟨hne, hr⟩ := not_or.mp (fun hor => hr (List.mem_cons.mpr hor))
      rw [hc.others r hr]
      exact Function.update_of_ne hne ..
    · rcases List.mem_cons.mp hr with rfl | hr
      · exact ⟨tmeta, bytes, hread, hself⟩
      · obtain ⟨m, b, hs, hv⟩ := hc.chains r hr
        dsimp only at hv
        rw [hbefore r hr] at hv
        exact ⟨m, b, hs, hv⟩
    · rw [hc.entries, List.map_cons, List.sum_cons, hself, ← Nat.add_assoc]
      congr 2
      exact List.map_congr_left fun r hr => by dsimp only; rw [hbefore r hr]
    · rw [hc.dropped, List.map_cons, List.sum_cons, hself, ← Nat.add_assoc]
      congr 2
      exact List.map_congr_left fun r hr => by dsimp only; rw [hbefore r hr]

/-! ## What is left -/

/-- `after` is `before` down to and including the first entry at or below the watermark. -/
structure Trimmed (watermark : Nat) (before after : List UndoLog) : Prop where
  split : ∃ older, before = after ++ older ∧
    (older ≠ [] → ∃ log, after.getLast? = some log ∧ log.ts.le watermark = true)
  first : ∀ log ∈ after.dropLast, log.ts.le watermark = false

theorem collect_of_committed {w t : Nat} (h : t ≤ w) (chain : List UndoLog) : collect w (.commit t) chain = [] := by
  unfold collect
  rw [if_pos]
  simp [h]

theorem collect_trimmed {w : Nat} {ts : Stamp} (h : ¬∃ t, ts = .commit t ∧ t ≤ w) (chain : List UndoLog) :
    Trimmed w chain (collect w ts chain) := by
  have hno : (!ts.isTxnId && ts.le w) = false := by
    cases ts with
    | txn i => rfl
    | commit t =>
      have hlt : ¬t ≤ w := fun hle => h ⟨t, rfl, hle⟩
      simp [hlt]
  obtain ⟨older, hsplit, hlast, hfirst⟩ := Lib.cutThrough_split (fun log : UndoLog => log.ts.le w) chain
  unfold collect
  rw [hno]
  exact ⟨⟨older, hsplit, hlast⟩, hfirst⟩

theorem trimmed_nil (w : Nat) : Trimmed w [] [] :=
  ⟨⟨[], rfl, fun h => absurd rfl h⟩, fun _ h => absurd h List.not_mem_nil⟩

theorem sum_gone {before after : RecordId → List UndoLog} (h : ∀ r ∈ rids, before r ≠ []) :
    (rids.map fun r => gone (before r) (after r)).sum = rids.countP fun r => (after r).isEmpty := by
  induction rids with
  | nil => rfl
  | cons r rest ih =>
    have hr := h r List.mem_cons_self
    rw [List.map_cons, List.sum_cons, ih fun r hr => h r (List.mem_cons_of_mem _ hr),
      List.countP_cons, Nat.add_comm]
    congr 1
    unfold gone
    cases after r with
    | nil => simp [hr]
    | cons a l => simp

/-- With no transaction open the watermark is the newest commit, and every slot is committed by then. -/
theorem Settled.idle (h : s.Settled) (ho : ∀ id, ¬s.Open id) :
    s.watermark = s.lastCommitTs ∧ ∀ r m b, s.heap.slot r = some (m, b) → ∃ t, m.ts = .commit t ∧
    t ≤ s.lastCommitTs := by
  constructor
  · obtain ⟨l, _, hm, hp⟩ := h.registry
    have hl : l = [] := List.eq_nil_iff_forall_not_mem.mpr fun id hid => ho id ((hm id).mp hid)
    rw [hl] at hp
    unfold TransactionManager.watermark
    rw [hp.eq_nil]
    rfl
  · intro r m b hs
    rcases h.slots r m b hs with hp | ⟨id, txn, ht, hu, _⟩
    · exact hp
    · exact absurd ⟨txn, ht, hu⟩ (ho id)

/-- A garbage collection of any state a run reaches that gets through: it changes the chains only,
drops those behind a published slot at or below the watermark, trims the others, counts what it
removed, and leaves no chain if no transaction is open. -/
theorem garbage_collection_exact (s₀ s s' : TransactionManager) (h₀ : s₀.Initial)
    (hr : Lib.Steps step OpenCalls s₀ s) (rids : List RecordId) (hnd : rids.Nodup)
    (hkeys : ∀ r, r ∈ rids ↔ s.versions r ≠ []) (fails : RecordId → Bool)
    (stats : GcStats) (hgc : s.collectGarbage rids fails = (s', .ok stats)) :
    s' = { s with versions := s'.versions } ∧
    (∀ r m b t, s.heap.slot r = some (m, b) → m.ts = .commit t → t ≤ s.watermark → s'.versions r = []) ∧
    (∀ r, (¬∃ m b t, s.heap.slot r = some (m, b) ∧ m.ts = .commit t ∧ t ≤ s.watermark) →
      Trimmed s.watermark (s.versions r) (s'.versions r)) ∧
    stats = ⟨s.watermark, (rids.map fun r => (s.versions r).length - (s'.versions r).length).sum,
      rids.countP fun r => (s'.versions r).isEmpty⟩ ∧
    ((∀ id, ¬s.Open id) → ∀ r, s'.versions r = []) := by
  have hc := collectLoop_ok rids hnd hgc
  have hset := Settled.run h₀ hr
  have hnone : ∀ r, r ∉ rids → s.versions r = [] ∧ s'.versions r = [] := by
    intro r hmem
    have hv : s.versions r = [] := by
      apply Classical.byContradiction
      exact fun hne => hmem ((hkeys r).mpr hne)
    exact ⟨hv, (hc.others r hmem).trans hv⟩
  have hdrop : ∀ r m b t, s.heap.slot r = some (m, b) → m.ts = .commit t → t ≤ s.watermark →
      s'.versions r = [] := by
    intro r m b t hs hm hle
    by_cases hmem : r ∈ rids
    · obtain ⟨m', b', hs', hv⟩ := hc.chains r hmem
      rw [hs] at hs'
      cases hs'
      rw [hv, hm]
      exact collect_of_committed hle _
    · exact (hnone r hmem).2
  refine ⟨hc.rest, hdrop, fun r hno => ?_, ?_, fun ho r => ?_⟩
  · by_cases hmem : r ∈ rids
    · obtain ⟨m, b, hs, hv⟩ := hc.chains r hmem
      rw [hv]
      apply collect_trimmed
      rintro ⟨t, hm, hle⟩
      exact hno ⟨m, b, t, hs, hm, hle⟩
    · obtain ⟨h1, h2⟩ := hnone r hmem
      rw [h1, h2]
      exact trimmed_nil _
  · obtain ⟨w, n, k⟩ := stats
    have h1 := hc.watermark
    have h2 := hc.entries
    have h3 := hc.dropped
    rw [sum_gone fun r hmem => (hkeys r).mp hmem] at h3
    dsimp only at h1 h2 h3
    rw [h1, h2, h3, Nat.zero_add, Nat.zero_add]
  · obtain ⟨hw, hslots⟩ := hset.idle ho
    by_cases hmem : r ∈ rids
    · obtain ⟨m, b, hs, _⟩ := hc.chains r hmem
      obtain ⟨t, hm, hle⟩ := hslots r m b hs
      exact hdrop r m b t hs hm (hw ▸ hle)
    · exact (hnone r hmem).2

end

/-! ## Two runs -/

theorem Registered.none_open {s : TransactionManager} (h : s.Registered) (hr : s.running = []) (id : Nat) :
    ¬s.Open id := by
  obtain ⟨l, _, hm, hp⟩ := h
  rw [hr] at hp
  have hl : l = [] := List.map_eq_nil_iff.mp hp.symm.eq_nil
  intro ho
  have := (hm id).mpr ho
  rw [hl] at this
  cases this

def openCalls (s : TransactionManager) (a : Action) : Bool :=
  match a.writer with
  | some id => (s.txns id).any Transaction.unfinished
  | none => true

theorem openCalls_sound (s : TransactionManager) (a : Action) (h : s.openCalls a = true) : s.OpenCalls a := by
  intro id hw
  unfold openCalls at h
  rw [hw] at h
  obtain ⟨txn, ht, hu⟩ := (Option.any_eq_true _ _).mp h
  exact ⟨txn, ht, hu⟩

def rowThenBegin : List Action := [.begin, .insert 0 0 1 [7], .commit 0, .stamp ⟨0, 0⟩ false, .publish, .begin]

def rowRewritten : List Action :=
  rowThenBegin ++ [.write 1 ⟨0, 0⟩ (some [8]), .commit 1, .stamp ⟨0, 0⟩ false, .publish]

def rowRewrittenLate : List Action := rowThenBegin ++ [.commit 1, .write 1 ⟨0, 0⟩ (some [8])]

theorem only_key {r : RecordId} {log : UndoLog} {versions : RecordId → List UndoLog}
    (h : versions = Function.update (fun _ => []) ⟨0, 0⟩ [log]) : r ∈ [(⟨0, 0⟩ : RecordId)] ↔ versions r ≠ [] := by
  rw [h]
  by_cases hr : r = ⟨0, 0⟩
  · subst hr
    simp
  · simp [hr]

/-- Once both have committed, the replaced version is collected. -/
theorem garbage_collection_exact_rewritten : ∃ s s', Lib.Steps step OpenCalls Engine.oneTable.mgr s ∧
    s.collectGarbage [⟨0, 0⟩] (fun _ => false) = (s', .ok ⟨2, 1, 1⟩) ∧ ∀ r, s'.versions r = [] := by
  have hrun : ((Lib.runFrom step openCalls Engine.oneTable.mgr rowRewritten).map fun s => (s.versions, s.running,
      (s.collectGarbage [⟨0, 0⟩] fun _ => false).2)) =
      some (Function.update (fun _ => []) ⟨0, 0⟩ [⟨.commit 1, false, [7]⟩], [], .ok ⟨2, 1, 1⟩) := rfl
  obtain ⟨s, hs, heq⟩ := Option.map_eq_some_iff.mp hrun
  obtain ⟨hv, hrest⟩ := Prod.mk.inj heq
  obtain ⟨hrunning, hok⟩ := Prod.mk.inj hrest
  have hr := (Lib.runFrom_steps hs).mono fun s a h => openCalls_sound s a h
  have hgc : s.collectGarbage [⟨0, 0⟩] (fun _ => false) =
      ((s.collectGarbage [⟨0, 0⟩] fun _ => false).1, .ok ⟨2, 1, 1⟩) :=
    Prod.ext rfl hok
  have hex := garbage_collection_exact Engine.oneTable.mgr s _ Engine.oneTable_initial.mgr hr [⟨0, 0⟩]
    (List.nodup_singleton _) (fun r => only_key hv) (fun _ => false) ⟨2, 1, 1⟩ hgc
  exact ⟨s, _, hr, hgc, hex.2.2.2.2 ((Settled.run Engine.oneTable_initial.mgr hr).registry.none_open hrunning)⟩

/-- A write through a transaction that has committed leaves a chain that no collection removes. -/
theorem late_writer_keeps_chain : ∃ s s' stats, Lib.Steps step PutBack Engine.oneTable.mgr s ∧ (∀ id, ¬s.Open id) ∧
    (∀ r, r ∈ [(⟨0, 0⟩ : RecordId)] ↔ s.versions r ≠ []) ∧
    s.collectGarbage [⟨0, 0⟩] (fun _ => false) = (s', .ok stats) ∧ s'.versions ⟨0, 0⟩ ≠ [] := by
  have hrun :
    ((Lib.runFrom step (fun _ a => decide (a ≠ .unstamp true)) Engine.oneTable.mgr rowRewrittenLate).map fun s =>
      (s.versions, s.running, (s.collectGarbage [⟨0, 0⟩] fun _ => false).2,
        (s.collectGarbage [⟨0, 0⟩] fun _ => false).1.versions ⟨0, 0⟩)) =
      some (Function.update (fun _ => []) ⟨0, 0⟩ [⟨.commit 1, false, [7]⟩], [], .ok ⟨1, 0, 0⟩,
        [⟨.commit 1, false, [7]⟩]) := rfl
  obtain ⟨s, hs, heq⟩ := Option.map_eq_some_iff.mp hrun
  obtain ⟨hv, hrest⟩ := Prod.mk.inj heq
  obtain ⟨hrunning, hrest⟩ := Prod.mk.inj hrest
  obtain ⟨hok, hkept⟩ := Prod.mk.inj hrest
  have hr : Lib.Steps step PutBack Engine.oneTable.mgr s :=
    (Lib.runFrom_steps hs).mono fun _ a h => of_decide_eq_true h
  have hreg : s.Registered := (Inv.run Engine.oneTable_initial.mgr hr).registry
  refine ⟨s, _, ⟨1, 0, 0⟩, hr, hreg.none_open hrunning, fun r => only_key hv, Prod.ext rfl hok, ?_⟩
  rw [hkept]
  exact List.cons_ne_nil _ _

end TransactionManager

end Cmudb
