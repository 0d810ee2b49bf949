import Mathlib.Data.List.Nodup
import Cmudb.InvSteps

/-!
# Endings, beginnings and garbage collection

The steps that publish or take back a transaction's writes, that open and close
snapshots, and that cut undo chains. With those of the last file they give the
invariant of every run.
-/

namespace Cmudb

namespace TransactionManager

section
variable {base : RecordId → List Version} {s s' : TransactionManager} {id : Nat} {txn : Transaction}
  {rid : RecordId}

/-! ## Open snapshots -/

theorem Inv.running_le (h : Inv base s) {ρ : Nat} (hρ : ρ ∈ s.running) : ρ ≤ s.lastCommitTs := by
  obtain ⟨l, _, hm, hp⟩ := h.registry
  obtain ⟨i, hi, rfl⟩ := List.mem_map.mp (hp.mem_iff.mp hρ)
  obtain ⟨t, ht, _⟩ := (hm i).mp hi
  simp only [readTsOf, ht, Option.map_some, Option.getD_some]
  exact (h.handles i t ht).2.1

theorem Inv.mem_running (h : Inv base s) (ht : s.txns id = some txn) (hu : txn.unfinished = true) :
    txn.readTs ∈ s.running := by
  obtain ⟨l, _, hm, hp⟩ := h.registry
  refine hp.mem_iff.mpr (List.mem_map.mpr ⟨id, (hm id).mpr ⟨txn, ht, hu⟩, ?_⟩)
  simp [readTsOf, ht]

theorem Registered.ended (h : s.Registered) (ht : s.txns id = some txn) (hu : txn.unfinished = true)
    (hself : ∀ t, s'.txns id = some t → t.unfinished = false) (hothers : ∀ i, i ≠ id → s'.txns i = s.txns i)
    (hr : s'.running = s.running.erase txn.readTs) : s'.Registered := by
  obtain ⟨l, hn, hm, hp⟩ := h
  have hid : id ∈ l := (hm id).mpr ⟨txn, ht, hu⟩
  refine ⟨l.erase id, hn.erase id, fun i => ?_, ?_⟩
  · rw [hn.mem_erase_iff]
    unfold Open
    by_cases hi : i = id
    · subst hi
      constructor
      · intro hc; exact absurd rfl hc.1
      · rintro ⟨t, h1, h2⟩
        rw [hself t h1] at h2
        cases h2
    · rw [hothers i hi]
      exact ⟨fun hc => (hm i).mp hc.2, fun hc => ⟨hi, (hm i).mpr hc⟩⟩
  · have hread : s.readTsOf id = txn.readTs := by simp [readTsOf, ht]
    have h1 : (l.map s.readTsOf).Perm (txn.readTs :: (l.erase id).map s.readTsOf) := by
      have := (List.perm_cons_erase hid).map s.readTsOf
      rwa [List.map_cons, hread] at this
    have h2 : (l.erase id).map s'.readTsOf = (l.erase id).map s.readTsOf :=
      List.map_congr_left fun i hi => by
        simp only [readTsOf, hothers i (hn.mem_erase_iff.mp hi).1]
    rw [hr, h2]
    have := (hp.trans h1).erase txn.readTs
    rwa [List.erase_cons_head] at this

theorem begin_self (s : TransactionManager) : s.begin.2.txns s.nextTxnId = some (.new s.lastCommitTs) := by
  simp [TransactionManager.begin]

theorem begin_others (s : TransactionManager) (i : Nat) (hi : i ≠ s.nextTxnId) : s.begin.2.txns i = s.txns i := by
  simp [TransactionManager.begin, Function.update_of_ne hi]

theorem Registered.begin (h : s.Registered) (hfresh : s.txns s.nextTxnId = none) : s.begin.2.Registered := by
  have hself := begin_self s
  have hothers := begin_others s
  obtain ⟨l, hn, hm, hp⟩ := h
  have hnl : s.nextTxnId ∉ l := fun hc => by
    obtain ⟨t, ht, _⟩ := (hm _).mp hc
    rw [hfresh] at ht
    cases ht
  refine ⟨s.nextTxnId :: l, List.nodup_cons.mpr ⟨hnl, hn⟩, fun i => ?_, ?_⟩
  · rw [List.mem_cons, hm i]
    unfold Open
    by_cases hid : i = s.nextTxnId
    · subst hid
      rw [hself]
      exact ⟨fun _ => ⟨_, rfl, rfl⟩, fun _ => .inl rfl⟩
    · rw [hothers i hid]
      simp [hid]
  · have hreads : ∀ i ∈ l, s.begin.2.readTsOf i = s.readTsOf i := fun i hi => by
      have hne : i ≠ s.nextTxnId := fun he => hnl (he ▸ hi)
      simp only [readTsOf, hothers i hne]
    have hnew : s.begin.2.readTsOf s.nextTxnId = s.lastCommitTs := by simp [readTsOf, hself, Transaction.new]
    rw [List.map_cons, List.map_congr_left hreads, hnew]
    exact hp.cons _

theorem LatchInv.begin (h : s.LatchInv) (hfresh : s.txns s.nextTxnId = none) : s.begin.2.LatchInv := by
  refine h.of_holder rfl rfl fun i hi => begin_others s i ?_
  rintro rfl
  have hnone : ∀ {j t}, s.txns j = some t → j ≠ s.nextTxnId := by
    rintro j t ht rfl
    rw [hfresh] at ht
    cases ht
  unfold ending at hi
  unfold LatchInv at h
  split at hi
  · rename_i o ho
    rw [ho] at h
    cases o with
    | paused => simp [Outcome.txn] at hi
    | abort i todo =>
      obtain ⟨t, ht, _⟩ := h
      simp [Outcome.txn, hnone ht] at hi
    | commit i ts todo done =>
      obtain ⟨_, t, ht, _⟩ := h
      simp [Outcome.txn, hnone ht] at hi
    | uncommit i ts done e =>
      obtain ⟨_, t, ht, _⟩ := h
      simp [Outcome.txn, hnone ht] at hi
  · cases hi

theorem passes_end (h : Inv base s) {ρ last : Nat} (hl : s.lastCommitTs ≤ last) :
    ∀ w ∈ s.passes, w ≤ last ∧ ∀ ρ' ∈ s.running.erase ρ, w ≤ ρ' := by
  intro w hw
  obtain ⟨h1, h2⟩ := h.passes w hw
  exact ⟨Nat.le_trans h1 hl, fun ρ' hρ => h2 ρ' (List.mem_of_mem_erase hρ)⟩

theorem logEnd_txns : (s.logEnd id txn).txns = s.txns := by unfold logEnd; split <;> rfl
theorem logEnd_heap : (s.logEnd id txn).heap = s.heap := by unfold logEnd; split <;> rfl
theorem logEnd_versions : (s.logEnd id txn).versions = s.versions := by unfold logEnd; split <;> rfl
theorem logEnd_events : (s.logEnd id txn).events = s.events := by unfold logEnd; split <;> rfl
theorem logEnd_running : (s.logEnd id txn).running = s.running := by unfold logEnd; split <;> rfl
theorem logEnd_passes : (s.logEnd id txn).passes = s.passes := by unfold logEnd; split <;> rfl
theorem logEnd_latch : (s.logEnd id txn).commitLatch = s.commitLatch := by unfold logEnd; split <;> rfl
theorem logEnd_clock : (s.logEnd id txn).lastCommitTs = s.lastCommitTs := by unfold logEnd; split <;> rfl
theorem logEnd_nextTxnId : (s.logEnd id txn).nextTxnId = s.nextTxnId := by unfold logEnd; split <;> rfl

structure Ended (s s' : TransactionManager) (id : Nat) (txn : Transaction) (es : List Event)
    (last : Nat) : Prop where
  heap : s'.heap = s.heap
  versions : s'.versions = s.versions
  events : s'.events = es
  clock : s'.lastCommitTs = last
  nextTxnId : s'.nextTxnId = s.nextTxnId
  running : s'.running = s.running.erase txn.readTs
  passes : s'.passes = s.passes
  handle : ∃ t, s'.txns id = some t ∧ t.readTs = txn.readTs ∧ t.writeSet = txn.writeSet ∧ t.unfinished = false
  handles : ∀ i, i ≠ id → s'.txns i = s.txns i

theorem Ended.row {es : List Event} {last : Nat} (he : Ended s s' id txn es last) (ht : s.txns id = some txn)
    (hl : s.lastCommitTs ≤ last) {r : RecordId} (hlatest : ∀ i, latestWrite i r es = latestWrite i r s.events)
    (hsaved : ∀ i, replacedBy i r es = replacedBy i r s.events)
    (hhist : history base r es = history base r s.events)
    (hstamp : ∀ i, s'.currentStamp i r = s.currentStamp i r) : RowFrame base s s' r where
  slot := by rw [he.heap]
  capacity := by rw [he.heap]
  versions := by rw [he.versions]
  committed := by simp only [versionsOf, he.events]; exact hhist
  latest := fun i => by rw [he.events]; exact hlatest i
  saved := fun i => by rw [he.events]; exact hsaved i
  clock := by rw [he.clock]; exact hl
  readers := fun ρ hρ => by
    unfold Reader at hρ ⊢
    rw [he.running, he.clock] at hρ
    exact hρ.imp List.mem_of_mem_erase (Nat.le_trans hl)
  stamp := hstamp
  handles := fun i t hi => by
    by_cases h : i = id
    · subst h
      rw [ht] at hi
      cases hi
      obtain ⟨t', h1, h2, _, h4⟩ := he.handle
      exact ⟨t', h1, h2, fun hu => by rw [h4] at hu; cases hu⟩
    · exact ⟨t, by rw [he.handles i h]; exact hi, rfl, fun hu => ⟨hu, fun _ hp => hp⟩⟩

theorem Ended.keepsHandles {es : List Event} {last : Nat} (he : Ended s s' id txn es last)
    (ht : s.txns id = some txn) (hl : s.lastCommitTs ≤ last) (h : s.HandlesInv) : s'.HandlesInv := by
  intro i t hi
  rw [he.nextTxnId, he.clock]
  by_cases hid : i = id
  · subst hid
    obtain ⟨t', h1, h2, h3, _⟩ := he.handle
    rw [h1] at hi
    cases hi
    obtain ⟨h4, h5, h6⟩ := h i txn ht
    rw [h2, h3]
    exact ⟨h4, Nat.le_trans h5 hl, h6⟩
  · rw [he.handles i hid] at hi
    obtain ⟨h4, h5, h6⟩ := h i t hi
    exact ⟨h4, Nat.le_trans h5 hl, h6⟩

theorem Inv.ended {es : List Event} {last : Nat} (h : Inv base s) (he : Ended s s' id txn es last)
    (ht : s.txns id = some txn) (hu : txn.unfinished = true) (hl : s.lastCommitTs ≤ last)
    (hlatest : ∀ i r, latestWrite i r es = latestWrite i r s.events)
    (hstamp : ∀ i, i ≠ id → ∀ r, s'.currentStamp i r = s.currentStamp i r)
    (hrows : ∀ r, RowInv base s' r) (hsorted : ∀ r, (s'.versionsOf base r).Pairwise fun v u => u.ts < v.ts)
    (hpub : ∀ r, ∀ v ∈ s'.versionsOf base r, v.ts ≤ last) (hlatch : s'.LatchInv) : Inv base s' where
  rows := hrows
  handles := he.keepsHandles ht hl h.handles
  writers := by
    intro i r hw
    rw [he.events, hlatest] at hw
    rw [he.nextTxnId]
    exact h.writers i r hw
  written := by
    intro i t r hi hr hw
    rw [he.events, hlatest] at hw
    by_cases hid : i = id
    · subst hid
      obtain ⟨t', h1, _, _, h4⟩ := he.handle
      rw [h1] at hi
      cases hi
      rw [unfinished_of_running hr] at h4
      cases h4
    · rw [he.handles i hid] at hi
      exact h.written i t r hi hr hw
  held := by
    intro i t r hi hu' hr
    by_cases hid : i = id
    · subst hid
      obtain ⟨t', h1, _, _, h4⟩ := he.handle
      rw [h1] at hi
      cases hi
      rw [hu'] at h4
      cases h4
    · rw [he.handles i hid] at hi
      rw [he.heap, hstamp i hid]
      exact h.held i t r hi hu' hr
  registry := by
    refine Registered.ended h.registry ht hu (fun t h1 => ?_) he.handles he.running
    obtain ⟨t', h2, _, _, h4⟩ := he.handle
    rw [h1] at h2
    cases h2
    exact h4
  passes := by rw [he.passes, he.clock, he.running]; exact passes_end h hl
  sorted := hsorted
  published := by rw [he.clock]; exact hpub
  latch := hlatch

/-! ## Commits -/

theorem commitReadOnly_handle (ht : s.txns id = some txn) :
    (s.commitReadOnly id txn).txns id = some (txn.finish .committed (some s.lastCommitTs)) := by
  simp [commitReadOnly, unregister, modifyTxn, ht]

theorem commitReadOnly_ended (ht : s.txns id = some txn) :
    Ended s (s.commitReadOnly id txn) id txn (.committed id s.lastCommitTs :: s.events) s.lastCommitTs where
  heap := rfl
  versions := rfl
  events := rfl
  clock := rfl
  nextTxnId := rfl
  running := rfl
  passes := rfl
  handle := ⟨_, commitReadOnly_handle ht, rfl, rfl, rfl⟩
  handles := fun i hi => by simp [commitReadOnly, unregister, modifyTxn, Function.update_of_ne hi]

theorem Inv.commitReadOnly (h : Inv base s) (hc : s.caller id = some txn) (hr : txn.state = .running)
    (hws : txn.writeSet = []) : Inv base (s.commitReadOnly id txn) := by
  obtain ⟨ht, hend⟩ := caller_eq hc
  have he := commitReadOnly_ended ht
  -- it wrote nothing, so its commit adds no version
  have hnone : ∀ r, latestWrite id r s.events = none := by
    intro r
    cases hw : latestWrite id r s.events with
    | none => rfl
    | some v =>
      have := h.written id txn r ht hr (by rw [hw]; rfl)
      rw [hws] at this
      cases this
  have hhist : ∀ r, history base r (.committed id s.lastCommitTs :: s.events) = history base r s.events := by
    intro r
    rw [history_committed, hnone r]
  have hstamp : ∀ i r, (s.commitReadOnly id txn).currentStamp i r = s.currentStamp i r := fun _ _ => rfl
  refine h.ended he ht (unfinished_of_running hr) (Nat.le_refl _) (fun _ _ => rfl) (fun i _ => hstamp i)
    (fun r =>
      (h.rows r).frame (he.row ht (Nat.le_refl _) (fun _ => rfl) (fun _ => rfl) (hhist r) fun i => hstamp i r))
    ?_ ?_ ?_
  · intro r
    simp only [versionsOf, he.events, hhist]
    exact h.sorted r
  · intro r
    simp only [versionsOf, he.events, hhist]
    exact h.published r
  · exact h.latch.of_holder rfl rfl fun i hi => he.handles i (ne_of_ending hi hend)

theorem publish_handle (ht : s.txns id = some txn) (ts : Nat) :
    (s.publish id txn ts).txns id = some (txn.finish .committed (some ts)) := by
  simp [publish, unregister, logEnd_txns, modifyTxn, ht]

theorem publish_ended (ht : s.txns id = some txn) (ts : Nat) :
    Ended s (s.publish id txn ts) id txn (.committed id ts :: s.events) ts where
  heap := by simp [publish, unregister, logEnd_heap, modifyTxn]
  versions := by simp [publish, unregister, logEnd_versions, modifyTxn]
  events := by simp [publish, unregister, logEnd_events, modifyTxn]
  clock := by simp [publish, unregister, logEnd_clock, modifyTxn]
  nextTxnId := by simp [publish, unregister, logEnd_nextTxnId, modifyTxn]
  running := by simp [publish, unregister, logEnd_running, modifyTxn]
  passes := by simp [publish, unregister, logEnd_passes, modifyTxn]
  handle := ⟨_, publish_handle ht ts, rfl, rfl, rfl⟩
  handles := fun i hi => by simp [publish, unregister, logEnd_txns, modifyTxn, Function.update_of_ne hi]

theorem publish_latch (ts : Nat) : (s.publish id txn ts).commitLatch = none := by
  simp [publish, unregister, logEnd_latch, modifyTxn]

theorem Inv.publish {ts : Nat} {done : List RecordId} (h : Inv base s)
    (hl : s.commitLatch = some (.commit id ts [] done)) (ht : s.txns id = some txn) :
    Inv base (s.publish id txn ts) := by
  have he := publish_ended ht ts
  obtain ⟨rfl, t, ht', hrun, hp⟩ := h.latch.committing hl
  rw [ht] at ht'
  cases ht'
  rw [List.nil_append] at hp
  have hu := unfinished_of_running hrun
  have hstamp' : ∀ i r, (s.publish id txn (s.lastCommitTs + 1)).currentStamp i r = .txn i := fun i r => by
    simp [currentStamp, stampedRids, publish_latch]
  have hstamp : ∀ i r, (i = id → r ∉ done) → s.currentStamp i r = .txn i := fun i r hi => by
    simp only [currentStamp, stampedRids, hl]
    by_cases hid : id = i
    · simp [hid, hi hid.symm]
    · simp [hid]
  have hrow : ∀ r, (latestWrite id r s.events).isSome ↔ r ∈ done := by
    intro r
    constructor
    · intro hw
      exact hp.mem_iff.mpr (h.written id txn r ht hrun hw)
    · intro hr
      obtain ⟨_, _, _, _, own⟩ := h.owned_of_held ht hu (hp.mem_iff.mp hr)
      rw [own.latest]; rfl
  refine h.ended he ht hu (Nat.le_succ _) (fun _ _ => rfl) ?_ ?_ ?_ ?_ ?_
  · intro i hi r
    rw [hstamp', hstamp i r fun hid => absurd hid hi]
  · intro r
    cases hw : latestWrite id r s.events with
    | none =>
      have hnd : r ∉ done := fun hr => by
        have := (hrow r).mpr hr
        rw [hw] at this
        cases this
      refine (h.rows r).frame (he.row ht (Nat.le_succ _) (fun _ => rfl) (fun _ => rfl) ?_ fun i => ?_)
      · rw [history_committed, hw]
      · rw [hstamp', hstamp i r fun _ => hnd]
    | some v =>
      have hr : r ∈ done := (hrow r).mp (by rw [hw]; rfl)
      obtain ⟨m, b, hs, hm, own⟩ := h.owned_of_held ht hu (hp.mem_iff.mp hr)
      have hts : m.ts = .commit (s.lastCommitTs + 1) := by
        rw [hm]; simp [currentStamp, stampedRids, hl, hr]
      have hv : v = live m.isDeleted b := by
        have := own.latest
        rw [hw] at this
        cases this
        rfl
      have hhist : (s.publish id txn (s.lastCommitTs + 1)).versionsOf base r =
          ⟨s.lastCommitTs + 1, some id, v⟩ :: s.versionsOf base r := by
        simp only [versionsOf, he.events, history_committed, hw]
      have hentry : slotEntry m b = (⟨s.lastCommitTs + 1, some id, v⟩ : Version).entry := by
        simp [slotEntry, Version.entry, hts, hv]
      refine .idle m b (s.lastCommitTs + 1) (by rw [he.heap]; exact hs) hts (by rw [he.clock]) ⟨?_, ?_⟩
      · rw [hhist, List.map_cons, hentry, he.versions]
        obtain ⟨tl, htl⟩ := own.covers.isPrefix
        exact ⟨tl, by rw [List.cons_append, htl]⟩
      · intro ρ hρ
        have hρ' : s.Reader ρ := by
          unfold Reader at hρ ⊢
          rw [he.running, he.clock] at hρ
          exact hρ.imp List.mem_of_mem_erase (Nat.le_of_succ_le)
        rw [hhist, List.map_cons, hentry, he.versions]
        have := own.covers.serves ρ hρ'
        unfold entryAt at this ⊢
        rw [List.find?_cons, List.find?_cons, this]
  · intro r
    simp only [versionsOf, he.events, history_committed]
    split
    · refine List.pairwise_cons.mpr ⟨fun u hu => ?_, h.sorted r⟩
      exact Nat.lt_succ_of_le (h.published r u hu)
    · exact h.sorted r
  · intro r v hv
    simp only [versionsOf, he.events, history_committed] at hv
    split at hv
    · rcases List.mem_cons.mp hv with rfl | hv
      · exact Nat.le_refl _
      · exact Nat.le_succ_of_le (h.published r v hv)
    · exact Nat.le_succ_of_le (h.published r v hv)
  · unfold LatchInv
    rw [publish_latch]
    trivial

/-! ## Aborts -/

@[simp] theorem forgetWrite_keys {r : RecordId} :
    r ∈ (txn.forgetWrite rid).writeSet.map Prod.fst ↔ r ≠ rid ∧ r ∈ txn.writeSet.map Prod.fst := by
  simp only [Transaction.forgetWrite, List.mem_map, List.mem_filter, decide_eq_true_eq]
  constructor
  · rintro ⟨e, ⟨h1, h2⟩, rfl⟩
    exact ⟨h2, e, h1, rfl⟩
  · rintro ⟨h1, e, h2, rfl⟩
    exact ⟨e, ⟨h2, h1⟩, rfl⟩

theorem forgetWrite_nodup (h : (txn.writeSet.map Prod.fst).Nodup) :
    ((txn.forgetWrite rid).writeSet.map Prod.fst).Nodup := by
  unfold Transaction.forgetWrite
  exact h.sublist ((List.filter_sublist).map Prod.fst)

theorem forgetWrite_mem {e : RecordId × Bool} (h : e ∈ txn.writeSet) (hr : e.1 ≠ rid) :
    e ∈ (txn.forgetWrite rid).writeSet := by
  simp only [Transaction.forgetWrite, List.mem_filter, decide_eq_true_eq]
  exact ⟨h, hr⟩

theorem flag_unique {l : List (RecordId × Bool)} (h : (l.map Prod.fst).Nodup) {r : RecordId} {p q : Bool}
    (hp : (r, p) ∈ l) (hq : (r, q) ∈ l) : p = q := by
  have := List.inj_on_of_nodup_map h hp hq rfl
  cases this
  rfl

structure Restored (s s' : TransactionManager) (id : Nat) (rid : RecordId) : Prop where
  slots : ∀ r, r ≠ rid → s'.heap.slot r = s.heap.slot r
  capacity : ∀ r, s.heap.capacity r ≤ s'.heap.capacity r
  versions : ∀ r, r ≠ rid → s'.versions r = s.versions r
  handles : s'.txns = (s.modifyTxn id (·.forgetWrite rid)).txns
  events : s'.events = s.events
  clock : s'.lastCommitTs = s.lastCommitTs
  nextTxnId : s'.nextTxnId = s.nextTxnId
  running : s'.running = s.running
  passes : s'.passes = s.passes
  latch : s'.commitLatch = s.commitLatch
  log : s'.log = s.log
  owner : s'.heap.owner = s.heap.owner

theorem Restored.self (hr : Restored s s' id rid) (ht : s.txns id = some txn) :
    s'.txns id = some (txn.forgetWrite rid) := by
  rw [hr.handles]
  exact modifyTxn_self ht

theorem Restored.others (hr : Restored s s' id rid) {i : Nat} (hi : i ≠ id) : s'.txns i = s.txns i := by
  rw [hr.handles]
  exact modifyTxn_of_ne hi

theorem Restored.back (hr : Restored s s' id rid) (ht : s.txns id = some txn) {i : Nat} {t' : Transaction}
    (hi : s'.txns i = some t') : ∃ t, s.txns i = some t ∧ t'.state = t.state := by
  by_cases hid : i = id
  · subst hid
    rw [hr.self ht] at hi
    cases hi
    exact ⟨txn, ht, rfl⟩
  · exact ⟨t', (hr.others hid).symm.trans hi, rfl⟩

theorem Restored.keepsHandles (hr : Restored s s' id rid) (ht : s.txns id = some txn) (h : s.HandlesInv) :
    s'.HandlesInv := by
  intro i t' hi
  rw [hr.nextTxnId, hr.clock]
  by_cases hid : i = id
  · subst hid
    rw [hr.self ht] at hi
    cases hi
    obtain ⟨h1, h2, h3⟩ := h i txn ht
    exact ⟨h1, h2, forgetWrite_nodup h3⟩
  · exact h i t' ((hr.others hid).symm.trans hi)

theorem Restored.isOpen (hr : Restored s s' id rid) (ht : s.txns id = some txn) (i : Nat) :
    s'.Open i ↔ s.Open i := by
  unfold Open
  by_cases hid : i = id
  · subst hid
    rw [hr.self ht, ht]
    simp only [Option.some.injEq, exists_eq_left']
    rfl
  · rw [hr.others hid]

theorem Restored.readTsOf (hr : Restored s s' id rid) (ht : s.txns id = some txn) (i : Nat) :
    s'.readTsOf i = s.readTsOf i := by
  unfold TransactionManager.readTsOf
  by_cases hid : i = id
  · subst hid
    rw [hr.self ht, ht]
    rfl
  · rw [hr.others hid]

theorem restore_ok {pushedUndo : Bool} (hok : s.restore id rid pushedUndo = .ok s') :
    Restored s s' id rid ∧ ∃ m b, s.heap.slot rid = some (m, b) ∧ m.ts = .txn id ∧
      (pushedUndo = false ∧ s'.heap.slot rid = some (.dead, b) ∧ s'.versions rid = s.versions rid ∨
        pushedUndo = true ∧ ∃ head, s.versions rid = head :: s'.versions rid ∧
          s'.heap.slot rid = some (⟨head.ts, head.isDeleted⟩, head.data)) := by
  unfold restore at hok
  split at hok
  · cases hok
  · rename_i heap popped hw
    obtain ⟨⟨m, b⟩, w, hp, hwr⟩ := Heap.writeSlotThen_ok hw
    unfold planRestore at hp
    split at hp
    · cases hp
    · rename_i hm
      have hm : m.ts = .txn id := by simpa using hm
      split at hp
      · rename_i hpu
        cases hp
        cases hok
        exact ⟨⟨hwr.frame, hwr.grows, fun _ _ => rfl, rfl, rfl, rfl, rfl, rfl, rfl, rfl, rfl, hwr.owner⟩, m,
          b, hwr.old, hm, .inl ⟨by simpa using hpu, hwr.new, rfl⟩⟩
      · rename_i hpu
        split at hp
        · cases hp
        · rename_i head prev hv
          cases hp
          cases hok
          refine ⟨⟨hwr.frame, hwr.grows, fun r hr => Function.update_of_ne hr _ _, rfl, rfl, rfl, rfl, rfl,
            rfl, rfl, rfl, hwr.owner⟩, m, b, hwr.old, hm, .inr ⟨by simpa using hpu, head, ?_, hwr.new⟩⟩
          simp [modifyTxn, hv]

theorem Covers.published (h : Inv base s) {l : List Entry} {e : Entry} (hc : Covers base s rid (e :: l)) :
    ∃ t, e.1 = .commit t ∧ t ≤ s.lastCommitTs := by
  obtain ⟨tl, htl⟩ := hc.isPrefix
  have hmem : e ∈ (s.versionsOf base rid).map Version.entry := by rw [← htl]; simp
  obtain ⟨v, hv, rfl⟩ := List.mem_map.mp hmem
  exact ⟨v.ts, rfl, h.published rid v hv⟩

theorem Inv.restored {todo : List (RecordId × Bool)} {pushedUndo : Bool} (h : Inv base s)
    (hl : s.commitLatch = some (.abort id todo)) (hmem : (rid, pushedUndo) ∈ todo)
    (hok : s.restore id rid pushedUndo = .ok s') :
    Inv base { s' with commitLatch := some (.abort id (todo.filter fun e => e.1 ≠ rid)) } := by
  obtain ⟨hr, m, b, hs, hm, hcase⟩ := restore_ok hok
  obtain ⟨t, ht, hst, rfl⟩ := h.latch.aborting hl
  have hu := unfinished_of_tainted hst
  have hstamp : ∀ i r, s.currentStamp i r = .txn i := fun i r => by simp [currentStamp, stampedRids, hl]
  have hself := hr.self ht
  obtain ⟨m', b', hs', _, own⟩ := h.owned_of_held ht hu (List.mem_map.mpr ⟨_, hmem, rfl⟩)
  rw [hs] at hs'
  cases hs'
  have hnd := (h.handles id t ht).2.2
  constructor
  case rows =>
    intro r
    by_cases hrr : r = rid
    · subst hrr
      rcases hcase with ⟨rfl, hslot, hv⟩ | ⟨rfl, head, hv, hslot⟩
      · cases own.undoable with
        | inserted _ chain new =>
          refine .dead b hslot (hv.trans chain) ?_
          simp only [versionsOf, hr.events]; exact new
        | replaced _ _ listed => cases flag_unique hnd hmem (listed hu)
      · have hcov : Covers base s r (head.entry :: (s'.versions r).map UndoLog.entry) := by
          have := own.covers
          rw [hv] at this
          exact this
        obtain ⟨c, hc, hle⟩ := hcov.published h
        refine .idle _ _ c hslot hc (by simp only [hr.clock]; exact hle) ⟨?_, ?_⟩
        · simp only [versionsOf, hr.events]; exact hcov.isPrefix
        · intro ρ hρ
          simp only [versionsOf, hr.events]
          refine hcov.serves ρ ?_
          simpa only [Reader, hr.running, hr.clock] using hρ
    · refine (h.rows r).frame ⟨hr.slots r hrr, hr.capacity r, hr.versions r hrr, ?_, ?_, ?_, ?_, ?_, ?_, ?_⟩
      · simp only [versionsOf, hr.events]
      · intro i; simp only [hr.events]
      · intro i; simp only [hr.events]
      · simp only [hr.clock]; exact Nat.le_refl _
      · intro ρ hρ; simpa only [Reader, hr.running, hr.clock] using hρ
      · intro i; rw [hstamp]; simp [currentStamp, stampedRids]
      · intro i t' hi
        by_cases hid : i = id
        · subst hid
          rw [ht] at hi
          cases hi
          exact ⟨_, hself, rfl, fun hu' => ⟨hu', fun p hp => forgetWrite_mem hp hrr⟩⟩
        · exact ⟨t', (hr.others hid).trans hi, rfl, fun hu' => ⟨hu', fun _ hp => hp⟩⟩
  case handles => exact hr.keepsHandles ht h.handles
  case writers => simp only [hr.events, hr.nextTxnId]; exact h.writers
  case written =>
    intro i t' r hi hrun hw
    simp only [hr.events] at hw
    by_cases hid : i = id
    · subst hid
      rw [hself] at hi
      cases hi
      rw [show (t.forgetWrite rid).state = t.state from rfl, hst] at hrun
      cases hrun
    · rw [hr.others hid] at hi
      exact h.written i t' r hi hrun hw
  case held =>
    intro i t' r hi hu' hk
    have hs' :
        ({ s' with commitLatch := some (.abort id (t.writeSet.filter fun e => e.1 ≠ rid)) }).currentStamp i r =
        s.currentStamp i r := by rw [hstamp]; simp [currentStamp, stampedRids]
    rw [hs']
    by_cases hid : i = id
    · subst hid
      rw [hself] at hi
      cases hi
      obtain ⟨hne, hk⟩ := forgetWrite_keys.mp hk
      simp only [hr.slots r hne]
      exact h.held i t r ht hu hk
    · rw [hr.others hid] at hi
      obtain ⟨m', b', h1, h2⟩ := h.held i t' r hi hu' hk
      have hne : r ≠ rid := by
        rintro rfl
        rw [hs] at h1
        cases h1
        rw [hm, hstamp] at h2
        cases h2
        exact hid rfl
      exact ⟨m', b', (hr.slots r hne).trans h1, h2⟩
  case registry => exact Registered.congr h.registry hr.running (hr.isOpen ht) (hr.readTsOf ht)
  case passes => simp only [hr.passes, hr.clock, hr.running]; exact h.passes
  case sorted => intro r; simp only [versionsOf, hr.events]; exact h.sorted r
  case published => intro r; simp only [versionsOf, hr.events, hr.clock]; exact h.published r
  case latch => exact ⟨_, hself, hst, rfl⟩

theorem finishAbort_handle (ht : s.txns id = some txn) :
    (s.finishAbort id txn).txns id = some (txn.finish .aborted none) := by
  simp [finishAbort, unregister, logEnd_txns, modifyTxn, ht]

theorem finishAbort_ended (ht : s.txns id = some txn) :
    Ended s (s.finishAbort id txn) id txn s.events s.lastCommitTs where
  heap := by simp [finishAbort, unregister, logEnd_heap, modifyTxn]
  versions := by simp [finishAbort, unregister, logEnd_versions, modifyTxn]
  events := by simp [finishAbort, unregister, logEnd_events, modifyTxn]
  clock := by simp [finishAbort, unregister, logEnd_clock, modifyTxn]
  nextTxnId := by simp [finishAbort, unregister, logEnd_nextTxnId, modifyTxn]
  running := by simp [finishAbort, unregister, logEnd_running, modifyTxn]
  passes := by simp [finishAbort, unregister, logEnd_passes, modifyTxn]
  handle := ⟨_, finishAbort_handle ht, rfl, rfl, rfl⟩
  handles := fun i hi => by simp [finishAbort, unregister, logEnd_txns, modifyTxn, Function.update_of_ne hi]

theorem finishAbort_latch : (s.finishAbort id txn).commitLatch = none := by
  simp [finishAbort, unregister, logEnd_latch, modifyTxn]

theorem Inv.finishAbort (h : Inv base s) (hl : s.commitLatch = some (.abort id [])) (ht : s.txns id = some txn) :
    Inv base (s.finishAbort id txn) := by
  have he := finishAbort_ended ht
  obtain ⟨t, ht', hst, _⟩ := h.latch.aborting hl
  rw [ht] at ht'
  cases ht'
  have hstamp : ∀ i r, (s.finishAbort id txn).currentStamp i r = s.currentStamp i r := fun i r => by
    simp [currentStamp, stampedRids, finishAbort_latch, hl]
  refine h.ended he ht (unfinished_of_tainted hst) (Nat.le_refl _) (fun _ _ => rfl) (fun i _ => hstamp i)
    (fun r => (h.rows r).frame (he.row ht (Nat.le_refl _) (fun _ => rfl) (fun _ => rfl) rfl fun i => hstamp i r))
    ?_ ?_ ?_
  · intro r; simp only [versionsOf, he.events]; exact h.sorted r
  · intro r; simp only [versionsOf, he.events]; exact h.published r
  · unfold LatchInv
    rw [finishAbort_latch]
    trivial

/-! ## Beginnings -/

theorem HandlesInv.begin (h : s.HandlesInv) : s.begin.2.HandlesInv := by
  intro i t hi
  by_cases hid : i = s.nextTxnId
  · subst hid
    rw [begin_self] at hi
    cases hi
    exact ⟨Nat.lt_succ_self _, Nat.le_refl _, by simp [Transaction.new]⟩
  · rw [begin_others s i hid] at hi
    obtain ⟨h1, h2, h3⟩ := h i t hi
    exact ⟨Nat.lt_succ_of_lt h1, h2, h3⟩

theorem Inv.begin (h : Inv base s) : Inv base s.begin.2 := by
  have hfresh := h.handles.fresh
  have hself := begin_self s
  have hothers := begin_others s
  have hreader : ∀ ρ, s.begin.2.Reader ρ → s.Reader ρ := by
    intro ρ hρ
    simp only [Reader, TransactionManager.begin, List.mem_cons] at hρ
    rcases hρ with (rfl | hρ) | hρ
    · exact .inr (Nat.le_refl _)
    · exact .inl hρ
    · exact .inr hρ
  constructor
  case rows =>
    intro r
    refine (h.rows r).frame (s := s) ⟨rfl, Nat.le_refl _, rfl, rfl, fun _ => rfl, fun _ => rfl, Nat.le_refl _,
      hreader, fun _ => rfl, fun i t hi => ?_⟩
    have hne : i ≠ s.nextTxnId := by rintro rfl; rw [hfresh] at hi; cases hi
    exact ⟨t, (hothers i hne).trans hi, rfl, fun hu => ⟨hu, fun _ hp => hp⟩⟩
  case handles => exact h.handles.begin
  case writers =>
    intro i r hw
    exact Nat.lt_succ_of_lt (h.writers i r hw)
  case written =>
    intro i t r hi hr hw
    by_cases hid : i = s.nextTxnId
    · subst hid
      exact absurd (h.writers _ r hw) (Nat.lt_irrefl _)
    · rw [hothers i hid] at hi
      exact h.written i t r hi hr hw
  case held =>
    intro i t r hi hu hr
    by_cases hid : i = s.nextTxnId
    · subst hid
      rw [hself] at hi
      cases hi
      cases hr
    · rw [hothers i hid] at hi
      exact h.held i t r hi hu hr
  case registry => exact Registered.begin h.registry hfresh
  case passes =>
    intro w hw
    obtain ⟨h1, h2⟩ := h.passes w hw
    refine ⟨h1, fun ρ hρ => ?_⟩
    rcases List.mem_cons.mp hρ with rfl | hρ
    · exact h1
    · exact h2 ρ hρ
  case sorted => exact h.sorted
  case published => exact h.published
  case latch => exact h.latch.begin hfresh

/-! ## Garbage collection -/

theorem watermark_le (h : Inv base s) : s.watermark ≤ s.lastCommitTs ∧ ∀ ρ ∈ s.running, s.watermark ≤ ρ := by
  unfold watermark
  cases hm : s.running.min? with
  | none =>
    rw [List.min?_eq_none_iff] at hm
    simp [hm]
  | some w =>
    obtain ⟨h1, h2⟩ := List.min?_eq_some_iff.mp hm
    exact ⟨h.running_le h1, h2⟩

theorem entryAt_collect {w ρ : Nat} (hw : w ≤ ρ) (chain : List UndoLog) :
    entryAt ρ ((Lib.cutThrough (fun log => log.ts.le w) chain).map UndoLog.entry) =
      entryAt ρ (chain.map UndoLog.entry) := by
  unfold entryAt
  rw [List.find?_map, List.find?_map, Lib.find?_cutThrough]
  intro log hlog
  cases hts : log.ts with
  | commit t =>
    rw [hts] at hlog
    simp only [Stamp.le_commit, decide_eq_true_eq] at hlog
    simp only [Function.comp_apply, UndoLog.entry, hts, Stamp.le_commit, decide_eq_true_eq]
    omega
  | txn i => rw [hts] at hlog; cases hlog

theorem Inv.reader_ge (h : Inv base s) {w ρ : Nat} (hw : w ∈ s.passes) (hρ : s.Reader ρ) : w ≤ ρ := by
  obtain ⟨h1, h2⟩ := h.passes w hw
  rcases hρ with hρ | hρ
  · exact h2 ρ hρ
  · omega

theorem Covers.cut (h : Inv base s) {w : Nat} (hw : w ∈ s.passes) {chain : List UndoLog} {l : List Entry}
    (hc : Covers base s rid (l ++ chain.map UndoLog.entry)) :
    Covers base s rid (l ++ (Lib.cutThrough (fun log => log.ts.le w) chain).map UndoLog.entry) := by
  constructor
  · refine List.IsPrefix.trans ?_ hc.isPrefix
    exact List.prefix_append_right_inj l |>.mpr ((Lib.cutThrough_isPrefix _ chain).map _)
  · intro ρ hρ
    rw [← hc.serves ρ hρ]
    have := entryAt_collect (h.reader_ge hw hρ) chain
    unfold entryAt at this ⊢
    rw [List.find?_append, List.find?_append, this]

theorem Inv.collectSlot {w : Nat} (h : Inv base s) (hw : w ∈ s.passes) (hok : s.collectSlot w rid = .ok s') :
    Inv base s' := by
  unfold TransactionManager.collectSlot at hok
  split at hok
  · cases hok
  · rename_i m b hread
    rw [Heap.readSlot_eq] at hread
    cases hok
    refine { h with rows := fun r => ?_ }
    by_cases hrr : r = rid
    · subst hrr
      have hcut : ∀ i, m.ts = s.currentStamp i r → collect w m.ts (s.versions r) =
          Lib.cutThrough (fun log => log.ts.le w) (s.versions r) := by
        intro i hm
        unfold collect
        rw [if_neg]
        rcases currentStamp_cases s i r with hc | hc
        · rw [hm, hc]; simp
        · rw [hm, hc]
          have := (h.passes w hw).1
          simp; omega
      cases h.rows r with
      | absent slot => rw [hread] at slot; cases slot
      | dead b' slot chain new =>
        rw [hread] at slot
        cases slot
        refine .dead b hread ?_ new
        simp [collect, chain, Lib.cutThrough]
      | idle m' b' t slot stamp published covers =>
        rw [hread] at slot
        cases slot
        refine .idle m b t hread stamp published ?_
        simp only [Function.update_self, collect]
        split
        · rename_i hle
          have hle : t ≤ w := by simpa [stamp] using hle
          constructor
          · exact List.IsPrefix.trans (List.prefix_append [slotEntry m b] _) covers.isPrefix
          · intro ρ hρ
            have hρw := h.reader_ge hw hρ
            have hseen : (slotEntry m b).1.le ρ = true := by
              simp only [slotEntry, stamp, Stamp.le_commit, decide_eq_true_eq]; omega
            have := covers.serves ρ hρ
            unfold entryAt at this ⊢
            simp only [List.find?_cons, hseen] at this ⊢
            exact this
        · have := Covers.cut h hw (l := [slotEntry m b]) covers
          exact ⟨this.isPrefix, this.serves⟩
      | owned i t m' b' slot stamp own =>
        rw [hread] at slot
        cases slot
        refine .owned i t m b hread stamp ⟨own.handle, own.latest, ?_, ?_⟩
        · simp only [Function.update_self, hcut i stamp]
          have := Covers.cut h hw (l := []) own.covers
          exact ⟨this.isPrefix, this.serves⟩
        · cases own.undoable with
          | inserted listed chain new =>
            refine .inserted listed ?_ new
            simp [collect, chain, Lib.cutThrough]
          | replaced old rest listed saved chain tail room seen =>
            obtain ⟨rest', hr1, hr2⟩ := Lib.cutThrough_cons (fun log : UndoLog => log.ts.le w)
              ⟨old.tmeta.ts, old.tmeta.isDeleted, old.data⟩ rest
            refine .replaced old rest' listed saved ?_ (hr2.trans tail) room seen
            simp only [Function.update_self]
            rw [hcut i stamp, chain, hr1]
    · exact (h.rows r).frame (s := s) ⟨rfl, Nat.le_refl _, Function.update_of_ne hrr _ _, rfl,
        fun _ => rfl, fun _ => rfl, Nat.le_refl _, fun _ hρ => hρ, fun _ => rfl,
        fun i t hi => ⟨t, hi, rfl, fun hu => ⟨hu, fun _ hp => hp⟩⟩⟩

theorem Inv.setPasses {passes : List Nat} (h : Inv base s)
    (hp : ∀ w ∈ passes, w ≤ s.lastCommitTs ∧ ∀ ρ ∈ s.running, w ≤ ρ) : Inv base { s with passes } :=
  { h with
    passes := hp
    rows :=
      fun r => (h.rows r).frame (s := s) ⟨rfl, Nat.le_refl _, rfl, rfl, fun _ => rfl, fun _ => rfl, Nat.le_refl _,
      fun _ hρ => hρ, fun _ => rfl, fun _ t hi => ⟨t, hi, rfl, fun hu => ⟨hu, fun _ hp => hp⟩⟩⟩ }

theorem Inv.dropPass (h : Inv base s) (w : Nat) : Inv base { s with passes := s.passes.erase w } :=
  h.setPasses fun w' hw => h.passes w' (List.mem_of_mem_erase hw)

/-! ## Every run -/

def PutBack (_ : TransactionManager) (a : Action) : Prop := a ≠ .unstamp true

theorem Inv.step {a : Action} (h : Inv base s) (hok : PutBack s a) (hstep : s.step a = some s') : Inv base s' := by
  cases a with
  | begin => cases hstep; exact h.begin
  | logFirstWrite i =>
    obtain ⟨t, hc, rfl⟩ := Option.map_eq_some_iff.mp hstep
    exact h.logFirstWrite (caller_eq hc).2
  | write i rid new =>
    obtain ⟨t, hc, rfl⟩ := Option.map_eq_some_iff.mp hstep
    exact h.writeVersion hc
  | insert i table fresh data =>
    obtain ⟨t, hc, rfl⟩ := Option.map_eq_some_iff.mp hstep
    obtain ⟨ht, he⟩ := caller_eq hc
    split
    · exact h
    · rename_i hins
      exact h.insertVersion ht he hins
  | taint i =>
    obtain ⟨t, hc, rfl⟩ := Option.map_eq_some_iff.mp hstep
    exact h.taint (caller_eq hc).2
  | commit i =>
    obtain ⟨t, hc, hs⟩ := Option.bind_eq_some_iff.mp hstep
    unfold commitStep at hs
    split at hs
    · cases hs; exact h
    · rename_i hrun
      have hrun : t.state = .running := by simpa using hrun
      split at hs
      · rename_i hws
        cases hs
        exact h.commitReadOnly hc hrun hws
      · split at hs
        · cases hs
        · rename_i hl
          cases hs
          exact h.startCommit (caller_eq hc).1 hrun hl
  | stamp rid fails => exact h.stampStep hstep
  | publish =>
    simp only [TransactionManager.step, publishStep] at hstep
    split at hstep
    · rename_i i ts done hl
      obtain ⟨t, ht, rfl⟩ := Option.map_eq_some_iff.mp hstep
      exact h.publish hl ht
    · cases hstep
  | unstamp fails =>
    have : fails = false := by
      cases fails with
      | false => rfl
      | true => exact absurd rfl hok
    subst this
    exact h.unstampStep hstep
  | abort i =>
    obtain ⟨t, hc, hs⟩ := Option.bind_eq_some_iff.mp hstep
    unfold abortStep at hs
    split at hs
    · rename_i hu
      split at hs
      · cases hs
      · rename_i hl
        cases hs
        exact h.startAbort (caller_eq hc).1 hu hl
    · cases hs; exact h
  | restore rid fails =>
    simp only [TransactionManager.step, restoreStep] at hstep
    split at hstep
    · rename_i i todo hl
      have hfree : Inv base { s with commitLatch := none } :=
        h.setLatch (fun j => by simp [stampedRids, hl]) (.inl rfl)
      split at hstep
      · cases hstep
      · rename_i e p hfind
        have hmem : (rid, p) ∈ todo := by
          have h1 := List.mem_of_find?_eq_some hfind
          have h2 := List.find?_some hfind
          simp only [decide_eq_true_eq] at h2
          rw [← h2]
          exact h1
        split at hstep
        · cases hstep; exact hfree
        · split at hstep
          · cases hstep; exact hfree
          · rename_i s₁ hok'
            cases hstep
            exact h.restored hl hmem hok'
    · cases hstep
  | finishAbort =>
    simp only [TransactionManager.step, finishAbortStep] at hstep
    split at hstep
    · rename_i i hl
      obtain ⟨t, ht, rfl⟩ := Option.map_eq_some_iff.mp hstep
      exact h.finishAbort hl ht
    · cases hstep
  | collect =>
    cases hstep
    refine h.setPasses fun w hw => ?_
    rcases List.mem_cons.mp hw with rfl | hw
    · exact watermark_le h
    · exact h.passes w hw
  | collectSlot w rid =>
    simp only [TransactionManager.step, collectSlotStep] at hstep
    split at hstep
    · rename_i hw
      split at hstep
      · cases hstep; exact h.dropPass w
      · rename_i hc
        cases hstep
        exact h.collectSlot hw hc
    · cases hstep
  | collected w => cases hstep; exact h.dropPass w
  | pause =>
    simp only [TransactionManager.step] at hstep
    split at hstep
    · rename_i hl
      cases hstep
      exact h.setLatch (fun j => by simp [stampedRids, hl]) (.inr rfl)
    · cases hstep
  | resume =>
    simp only [TransactionManager.step] at hstep
    split at hstep
    · rename_i hl
      cases hstep
      exact h.setLatch (fun j => by simp [stampedRids, hl]) (.inl rfl)
    · cases hstep

theorem Initial.inv (h : s.Initial) : Inv s.base s := by
  have hbase : ∀ r, s.versionsOf s.base r = s.base r := fun r => by simp [versionsOf, h.events, history]
  constructor
  case rows =>
    intro r
    cases hs : s.heap.slot r with
    | none => exact .absent hs (h.versions r) (by rw [hbase]; simp [TransactionManager.base, hs])
    | some v =>
      obtain ⟨m, b⟩ := v
      obtain ⟨t, hm, hle⟩ := h.committed r m b hs
      have hb : s.base r = [⟨t, none, live m.isDeleted b⟩] := by
        obtain ⟨ts, del⟩ := m
        cases hm
        simp [TransactionManager.base, hs]
      refine .idle m b t hs hm hle ?_
      rw [h.versions r]
      have : (s.versionsOf s.base r).map Version.entry = [slotEntry m b] := by
        rw [hbase, hb]; simp [Version.entry, slotEntry, hm]
      exact ⟨by rw [this]; exact List.prefix_refl _, fun ρ _ => by rw [this]; rfl⟩
  case handles => intro id t ht; rw [h.txns] at ht; cases ht
  case writers => intro id r hw; rw [h.events] at hw; cases hw
  case written => intro id t r ht; rw [h.txns] at ht; cases ht
  case held => intro id t r ht; rw [h.txns] at ht; cases ht
  case registry =>
    refine ⟨[], List.nodup_nil, fun id => ?_, by rw [h.running]; exact List.Perm.refl _⟩
    simp [Open, h.txns]
  case passes => intro w hw; rw [h.passes] at hw; cases hw
  case sorted =>
    intro r
    rw [hbase]
    unfold TransactionManager.base
    split <;> simp
  case published =>
    intro r v hv
    rw [hbase] at hv
    unfold TransactionManager.base at hv
    split at hv
    · rename_i ts del b hs
      obtain ⟨t, hm, hle⟩ := h.committed r _ _ hs
      cases hm
      simp only [List.mem_singleton] at hv
      rw [hv]
      exact hle
    · cases hv
  case latch => unfold LatchInv; rw [h.latch]; trivial

theorem Inv.run {s₀ : TransactionManager} (h₀ : s₀.Initial) (hr : Lib.Steps TransactionManager.step PutBack s₀ s) :
    Inv s₀.base s :=
  hr.invariant (fun h hok hs => h.step hok hs) h₀.inv

end

end TransactionManager

end Cmudb
