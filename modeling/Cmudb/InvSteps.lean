import Cmudb.Inv

/-!
# Every step keeps the invariant

One lemma for each kind of step: writes, stamps, the publication, restores,
endings, beginnings and garbage collection.
-/

namespace Cmudb

namespace TransactionManager

section
variable {base : RecordId → List Version} {s s' : TransactionManager} {id : Nat} {txn : Transaction}
  {rid : RecordId} {new : Option Bytes}

/-! ## The phases of the commit latch -/

theorem LatchInv.of_holder (h : s.LatchInv) (hc : s'.commitLatch = s.commitLatch)
    (hl : s'.lastCommitTs = s.lastCommitTs) (ht : ∀ i, s.ending i = true → s'.txns i = s.txns i) : s'.LatchInv := by
  unfold LatchInv at h ⊢
  unfold ending at ht
  rw [hc, hl]
  cases hlatch : s.commitLatch with
  | none => trivial
  | some o =>
    rw [hlatch] at h ht
    cases o with
    | commit i ts todo done => simp only at h ⊢; rw [ht i (by simp [Outcome.txn])]; exact h
    | uncommit i ts done e => simp only at h ⊢; rw [ht i (by simp [Outcome.txn])]; exact h
    | abort i todo => simp only at h ⊢; rw [ht i (by simp [Outcome.txn])]; exact h
    | paused => trivial

theorem stampedRids_congr (hc : s'.commitLatch = s.commitLatch) (i : Nat) : s'.stampedRids i = s.stampedRids i := by
  simp only [stampedRids, hc]

theorem ne_of_ending {i : Nat} (hi : s.ending i = true) (he : s.ending id = false) : i ≠ id := by
  intro h
  rw [h, he] at hi
  cases hi

theorem modifyTxn_handles {f : Transaction → Transaction} (hf : ∀ t, SameWrites t (f t)) (i : Nat) (t : Transaction)
    (ht : s.txns i = some t) : ∃ t', (s.modifyTxn id f).txns i = some t' ∧ SameWrites t t' := by
  by_cases hi : i = id
  · subst hi; exact ⟨f t, modifyTxn_self ht, hf t⟩
  · exact ⟨t, by rw [modifyTxn_of_ne hi]; exact ht, .refl t⟩

theorem modifyTxn_none {f : Transaction → Transaction} (i : Nat) (ht : s.txns i = none) :
    (s.modifyTxn id f).txns i = none := by
  by_cases hi : i = id
  · subst hi; simp [modifyTxn, ht]
  · rw [modifyTxn_of_ne hi]; exact ht

theorem modifyTxn_quiet {f : Transaction → Transaction} (hf : ∀ t, SameWrites t (f t)) (latch : Option Outcome)
    (hs : ∀ i, ({ s with commitLatch := latch }).stampedRids i = s.stampedRids i) :
    Quiet s { s.modifyTxn id f with commitLatch := latch } where
  heap := rfl
  versions := rfl
  events := rfl
  clock := rfl
  nextTxnId := rfl
  running := rfl
  passes := rfl
  stamped := hs
  handles := modifyTxn_handles hf
  noHandle := modifyTxn_none

theorem Quiet.refl (s : TransactionManager) : Quiet s s :=
  ⟨.of_eq rfl rfl rfl rfl rfl rfl, rfl, rfl, fun _ => rfl⟩

theorem Quiet.trans {s'' : TransactionManager} (h₁ : Quiet s s') (h₂ : Quiet s' s'') : Quiet s s'' where
  heap := h₂.heap.trans h₁.heap
  versions := h₂.versions.trans h₁.versions
  events := h₂.events.trans h₁.events
  clock := h₂.clock.trans h₁.clock
  nextTxnId := h₂.nextTxnId.trans h₁.nextTxnId
  running := h₂.running.trans h₁.running
  passes := h₂.passes.trans h₁.passes
  stamped := fun i => (h₂.stamped i).trans (h₁.stamped i)
  handles := fun i t ht => by
    obtain ⟨t', ht', h⟩ := h₁.handles i t ht
    obtain ⟨t'', ht'', h'⟩ := h₂.handles i t' ht'
    refine ⟨t'', ht'', h'.readTs.trans h.readTs, h'.writeSet.trans h.writeSet, h'.unfinished.trans h.unfinished,
      fun hr => h.running (h'.running hr), fun hu => ?_⟩
    obtain ⟨a₁, b₁⟩ := h.closed hu
    obtain ⟨a₂, b₂⟩ := h'.closed (h.unfinished.trans hu)
    exact ⟨a₂.trans a₁, b₂.trans b₁⟩
  noHandle := fun i ht => h₂.noHandle i (h₁.noHandle i ht)

theorem latch_quiet (latch : Option Outcome)
    (hs : ∀ i, ({ s with commitLatch := latch }).stampedRids i = s.stampedRids i) :
    Quiet s { s with commitLatch := latch } :=
  ⟨.of_eq rfl rfl rfl rfl rfl rfl, rfl, rfl, hs⟩

theorem logTxn_quiet (rec : TxnRecord) : Quiet s (s.logTxn rec) :=
  ⟨.of_eq rfl rfl rfl rfl rfl rfl, rfl, rfl, fun _ => rfl⟩

theorem logFirstWrite_quiet : Quiet s (s.logFirstWrite id txn) := by
  unfold logFirstWrite
  split
  · exact .refl s
  · have hf : ∀ t : Transaction, SameWrites t { t with loggedWrites := true } := fun t =>
      ⟨rfl, rfl, rfl, fun h => h, fun _ => ⟨rfl, rfl⟩⟩
    exact (modifyTxn_quiet hf s.commitLatch fun _ => rfl).trans (logTxn_quiet _)

theorem logUndo_quiet : Quiet s (s.logUndo id txn rid new) := by
  unfold logUndo
  split
  · exact .refl s
  · split
    · exact logTxn_quiet _
    · exact .refl s

theorem logFirstWrite_latch : (s.logFirstWrite id txn).commitLatch = s.commitLatch := by
  unfold logFirstWrite; split <;> rfl

theorem logUndo_latch :
    (s.logUndo id txn rid new).commitLatch = s.commitLatch := by
  unfold logUndo
  split
  · rfl
  · split <;> rfl

theorem logUndo_txns : (s.logUndo id txn rid new).txns = s.txns := by
  unfold logUndo
  split
  · rfl
  · split <;> rfl

theorem logFirstWrite_of_ne {i : Nat} (hi : i ≠ id) : (s.logFirstWrite id txn).txns i = s.txns i := by
  unfold logFirstWrite
  split
  · rfl
  · exact modifyTxn_of_ne hi

theorem Inv.logFirstWrite (h : Inv base s) (he : s.ending id = false) : Inv base (s.logFirstWrite id txn) :=
  h.quiet logFirstWrite_quiet (h.latch.of_holder logFirstWrite_latch logFirstWrite_quiet.clock
    fun _ hi => logFirstWrite_of_ne (ne_of_ending hi he))

theorem Inv.logUndo (h : Inv base s) : Inv base (s.logUndo id txn rid new) :=
  h.quiet logUndo_quiet (h.latch.of_holder logUndo_latch logUndo_quiet.clock fun _ _ => by rw [logUndo_txns])

theorem Inv.taint (h : Inv base s) (he : s.ending id = false) : Inv base (s.modifyTxn id (·.setTainted)) :=
  h.quiet (modifyTxn_quiet SameWrites.setTainted s.commitLatch fun _ => rfl)
    (h.latch.of_holder rfl rfl fun _ hi => modifyTxn_of_ne (ne_of_ending hi he))

theorem Inv.startCommit (h : Inv base s) (ht : s.txns id = some txn) (hr : txn.state = .running)
    (hl : s.commitLatch = none) :
    Inv base { s with commitLatch := some (.commit id (s.lastCommitTs + 1) (txn.writeSet.map Prod.fst) []) } := by
  refine h.quiet (latch_quiet _ fun i => ?_) ?_
  · simp [stampedRids, hl]
  · exact ⟨rfl, txn, ht, hr, by simp⟩

theorem LatchInv.uncommit {ts : Nat} {todo done : List RecordId} (h : s.LatchInv)
    (hn : ∀ t, s.txns id = some t → (t.writeSet.map Prod.fst).Nodup)
    (hl : s.commitLatch = some (.commit id ts todo done)) (e : TxnError) :
    ({ s with commitLatch := some (.uncommit id ts done e) } : TransactionManager).LatchInv := by
  unfold LatchInv at h
  rw [hl] at h
  obtain ⟨hts, t, ht, hr, hp⟩ := h
  refine ⟨hts, t, ht, hr, ?_, fun r hd => hp.mem_iff.mp (List.mem_append_right _ hd)⟩
  exact (List.nodup_append.mp (hp.nodup_iff.mpr (hn t ht))).2.1

theorem Inv.startUncommit {ts : Nat} {todo done : List RecordId} (h : Inv base s)
    (hl : s.commitLatch = some (.commit id ts todo done)) (e : TxnError) :
    Inv base { s with commitLatch := some (.uncommit id ts done e) } := by
  refine h.quiet (latch_quiet _ fun i => by simp [stampedRids, hl]) ?_
  exact h.latch.uncommit (fun t ht => (h.handles id t ht).2.2) hl e

theorem Inv.failCommit {ts : Nat} {e : TxnError} (h : Inv base s)
    (hl : s.commitLatch = some (.uncommit id ts [] e)) :
    Inv base (s.failCommit id) := by
  refine h.quiet (modifyTxn_quiet SameWrites.setTainted none fun i => ?_) trivial
  simp [stampedRids, hl]

theorem Inv.startAbort (h : Inv base s) (ht : s.txns id = some txn) (hu : txn.unfinished = true)
    (hl : s.commitLatch = none) :
    Inv base { s.modifyTxn id (·.setTainted) with commitLatch := some (.abort id txn.writeSet) } := by
  refine h.quiet (modifyTxn_quiet SameWrites.setTainted _ fun i => by simp [stampedRids, hl]) ?_
  exact ⟨txn.setTainted, modifyTxn_self ht, setTainted_state hu, by simp⟩

theorem Inv.setLatch {latch : Option Outcome} (h : Inv base s) (hs : ∀ i, s.stampedRids i = [])
    (hl : latch = none ∨ latch = some .paused) : Inv base { s with commitLatch := latch } := by
  refine h.quiet (latch_quiet _ fun i => ?_) ?_
  · rw [hs i]
    rcases hl with rfl | rfl <;> rfl
  · rcases hl with rfl | rfl <;> trivial

/-! ## Writes -/

theorem checkWrite_ok {m : TupleMeta} :
    checkWrite id txn rid m = .ok () ↔ m.ts = .txn id ∨ ∃ t, m.ts = .commit t ∧ t ≤ txn.readTs := by
  unfold checkWrite
  cases h : m.ts with
  | commit t => simp
  | txn i => simp

theorem planVersion_ok {m : TupleMeta} {b : Bytes} {w : SlotWrite} {undo : Option (TupleMeta × Bytes)}
    (h : planVersion id txn rid new m b = .ok (w, undo)) :
    (m.ts = .txn id ∧ undo = none ∨ (∃ t, m.ts = .commit t ∧ t ≤ txn.readTs) ∧ undo = some (m, b)) ∧
      m.isDeleted = false ∧ w = ⟨⟨.txn id, new.isNone⟩, new⟩ := by
  unfold planVersion at h
  split at h
  · cases h
  · rename_i hc
    split at h
    · cases h
    · rename_i hd
      cases h
      refine ⟨?_, by simpa using hd, rfl⟩
      rcases checkWrite_ok.mp hc with hm | ⟨t, hm, hle⟩
      · exact .inl ⟨hm, by simp [hm]⟩
      · exact .inr ⟨⟨t, hm, hle⟩, by simp [hm]⟩

theorem live_new (new : Option Bytes) (b : Bytes) : live new.isNone (new.getD b) = new := by
  cases new <;> rfl

theorem recordWrite_mem {p : Bool} {e : RecordId × Bool} (h : e ∈ txn.writeSet)
    : e ∈ (txn.recordWrite rid p).writeSet := by
  unfold Transaction.recordWrite
  split
  · exact h
  · exact List.mem_append_left _ h

theorem recordWrite_new (p : Bool) (h : rid ∉ txn.writeSet.map Prod.fst) :
    (rid, p) ∈ (txn.recordWrite rid p).writeSet := by
  unfold Transaction.recordWrite
  rw [if_neg h]
  simp

theorem recordWrite_keys {rid r : RecordId} {p : Bool} :
    r ∈ (txn.recordWrite rid p).writeSet.map Prod.fst ↔ r = rid ∨ r ∈ txn.writeSet.map Prod.fst := by
  unfold Transaction.recordWrite
  split
  · rename_i h
    constructor
    · exact .inr
    · rintro (rfl | hr)
      · exact h
      · exact hr
  · simp only [List.map_append, List.map_cons, List.map_nil, List.mem_append, List.mem_singleton]
    exact or_comm

theorem recordWrite_nodup {p : Bool} (h : (txn.writeSet.map Prod.fst).Nodup) :
    ((txn.recordWrite rid p).writeSet.map Prod.fst).Nodup := by
  unfold Transaction.recordWrite
  split
  · exact h
  · rename_i hn
    simp only [List.map_append, List.map_cons, List.map_nil]
    refine List.nodup_append.mpr ⟨h, by simp, ?_⟩
    intro a ha b hb he
    simp only [List.mem_singleton] at hb
    subst hb; subst he
    exact hn ha

@[simp] theorem recordWrite_readTs (txn : Transaction) (rid : RecordId) (p : Bool) :
    (txn.recordWrite rid p).readTs = txn.readTs := by
  unfold Transaction.recordWrite; split <;> rfl

@[simp] theorem recordWrite_state (txn : Transaction) (rid : RecordId) (p : Bool) :
    (txn.recordWrite rid p).state = txn.state := by
  unfold Transaction.recordWrite; split <;> rfl

@[simp] theorem recordWrite_unfinished (txn : Transaction) (rid : RecordId) (p : Bool) :
    (txn.recordWrite rid p).unfinished = txn.unfinished := by
  simp only [Transaction.unfinished, recordWrite_state]

structure Wrote (s s' : TransactionManager) (id : Nat) (txn : Transaction) (rid : RecordId) (new : Option Bytes)
    (old : Option Replaced) : Prop where
  slot : ∃ b, s'.heap.slot rid = some (⟨.txn id, new.isNone⟩, new.getD b)
  slots : ∀ r, r ≠ rid → s'.heap.slot r = s.heap.slot r
  capacity : ∀ r, r ≠ rid → s.heap.capacity r ≤ s'.heap.capacity r
  versions : ∀ r, r ≠ rid → s'.versions r = s.versions r
  events : s'.events = .wrote id rid new old :: s.events
  handle : s'.txns id = some (txn.recordWrite rid old.isSome)
  handles : ∀ i, i ≠ id → s'.txns i = s.txns i
  latch : s'.commitLatch = s.commitLatch
  clock : s'.lastCommitTs = s.lastCommitTs
  nextTxnId : s'.nextTxnId = s.nextTxnId
  running : s'.running = s.running
  passes : s'.passes = s.passes

end

section
variable {base : RecordId → List Version} {s s' : TransactionManager} {id : Nat} {txn : Transaction}
  {rid : RecordId} {new : Option Bytes} {old : Option Replaced}

theorem Wrote.stamp (hw : Wrote s s' id txn rid new old) (i : Nat) (r : RecordId) :
    s'.currentStamp i r = s.currentStamp i r := by
  simp only [currentStamp, stampedRids_congr hw.latch, hw.clock]

theorem Wrote.committed (hw : Wrote s s' id txn rid new old) (r : RecordId) :
    s'.versionsOf base r = s.versionsOf base r := by
  simp only [versionsOf, hw.events, history_wrote]

theorem Wrote.covers (hw : Wrote s s' id txn rid new old) {r : RecordId} {l : List Entry} (h : Covers base s r l) :
    Covers base s' r l := by
  constructor
  · rw [hw.committed]; exact h.isPrefix
  · intro ρ hρ
    rw [hw.committed]
    refine h.serves ρ ?_
    simpa only [Reader, hw.running, hw.clock] using hρ

theorem Wrote.frame (hw : Wrote s s' id txn rid new old) (ht : s.txns id = some txn) {r : RecordId} (hr : r ≠ rid) :
    RowFrame base s s' r where
  slot := hw.slots r hr
  capacity := hw.capacity r hr
  versions := hw.versions r hr
  committed := hw.committed r
  latest := fun i => by rw [hw.events]; simp [hr.symm]
  saved := fun i => by rw [hw.events]; simp [hr.symm]
  clock := by rw [hw.clock]
  readers := fun ρ h => by simpa only [Reader, hw.running, hw.clock] using h
  stamp := fun i => hw.stamp i r
  handles := fun i t hi => by
    by_cases h : i = id
    · subst h
      rw [ht] at hi
      cases hi
      exact ⟨_, hw.handle, by simp, fun hu => ⟨by simpa using hu, fun p hp => recordWrite_mem hp⟩⟩
    · exact ⟨t, by rw [hw.handles i h]; exact hi, rfl, fun hu => ⟨hu, fun p hp => hp⟩⟩

theorem Wrote.isOpen (hw : Wrote s s' id txn rid new old) (ht : s.txns id = some txn) (i : Nat) :
    s'.Open i ↔ s.Open i := by
  unfold Open
  by_cases h : i = id
  · subst h; rw [hw.handle, ht]; simp
  · rw [hw.handles i h]

theorem Wrote.readTsOf (hw : Wrote s s' id txn rid new old) (ht : s.txns id = some txn) (i : Nat) :
    s'.readTsOf i = s.readTsOf i := by
  unfold TransactionManager.readTsOf
  by_cases h : i = id
  · subst h; rw [hw.handle, ht]; simp
  · rw [hw.handles i h]

theorem Wrote.keepsHandles (hw : Wrote s s' id txn rid new old) (ht : s.txns id = some txn) (h : s.HandlesInv) :
    s'.HandlesInv := by
  intro i t hi
  rw [hw.nextTxnId, hw.clock]
  by_cases hid : i = id
  · subst hid
    rw [hw.handle] at hi
    cases hi
    obtain ⟨h1, h2, h3⟩ := h i txn ht
    exact ⟨h1, by simpa using h2, recordWrite_nodup h3⟩
  · rw [hw.handles i hid] at hi
    exact h i t hi

/-- A write keeps the invariant if its own row is right afterwards and nobody else holds it. -/
theorem Inv.wrote (h : Inv base s) (hw : Wrote s s' id txn rid new old) (ht : s.txns id = some txn)
    (he : s.ending id = false)
    (hother : ∀ i, i ≠ id → ∀ m b, s.heap.slot rid = some (m, b) → m.ts ≠ s.currentStamp i rid)
    (hrow : RowInv base s' rid) : Inv base s' where
  rows := fun r => by
    by_cases hr : r = rid
    · subst hr; exact hrow
    · exact (h.rows r).frame (hw.frame ht hr)
  handles := hw.keepsHandles ht h.handles
  writers := by
    intro i r hl
    rw [hw.nextTxnId]
    rw [hw.events, latestWrite_wrote] at hl
    split at hl
    · rename_i hi
      rw [← hi.1]
      exact (h.handles id txn ht).1
    · exact h.writers i r hl
  written := by
    intro i t r hi hr hl
    by_cases hid : i = id
    · subst hid
      rw [hw.handle] at hi
      cases hi
      rw [recordWrite_keys]
      by_cases hrr : r = rid
      · exact .inl hrr
      · rw [hw.events, latestWrite_wrote, if_neg fun h => hrr h.2.symm] at hl
        exact .inr (h.written i txn r ht (by simpa using hr) hl)
    · rw [hw.handles i hid] at hi
      rw [hw.events, latestWrite_wrote, if_neg fun h => hid h.1.symm] at hl
      exact h.written i t r hi hr hl
  held := by
    intro i t r hi hu hr
    rw [hw.stamp]
    by_cases hrr : r = rid
    · subst hrr
      obtain ⟨b, hb⟩ := hw.slot
      by_cases hid : i = id
      · exact ⟨_, _, hb, by rw [hid, currentStamp_of_not_ending he]⟩
      · rw [hw.handles i hid] at hi
        obtain ⟨m, b', hs, hm⟩ := h.held i t r hi hu hr
        exact absurd hm (hother i hid m b' hs)
    · rw [hw.slots r hrr]
      by_cases hid : i = id
      · subst hid
        rw [hw.handle] at hi
        cases hi
        rw [recordWrite_keys] at hr
        rcases hr with hr | hr
        · exact absurd hr hrr
        · exact h.held i txn r ht (by simpa using hu) hr
      · rw [hw.handles i hid] at hi
        exact h.held i t r hi hu hr
  registry := Registered.congr h.registry hw.running (hw.isOpen ht) (hw.readTsOf ht)
  passes := by rw [hw.passes, hw.clock, hw.running]; exact h.passes
  sorted := fun r => by rw [hw.committed]; exact h.sorted r
  published := fun r => by rw [hw.committed, hw.clock]; exact h.published r
  latch := h.latch.of_holder hw.latch hw.clock fun i hi => hw.handles i (ne_of_ending hi he)

theorem currentStamp_cases (s : TransactionManager) (i : Nat) (r : RecordId) :
    s.currentStamp i r = .txn i ∨ s.currentStamp i r = .commit (s.lastCommitTs + 1) := by
  unfold currentStamp
  split
  · exact .inr rfl
  · exact .inl rfl

/-- A version stamped for a running commit, or by another transaction, conflicts. -/
theorem currentStamp_ne (h : Inv base s) (ht : s.txns id = some txn) {ts : Stamp}
    (hts : ts = .txn id ∨ ∃ t, ts = .commit t ∧ t ≤ txn.readTs) {i : Nat} (hi : i ≠ id) (r : RecordId) :
    ts ≠ s.currentStamp i r := by
  have hread := (h.handles id txn ht).2.1
  intro he
  rcases currentStamp_cases s i r with hc | hc
  · rw [hc] at he
    rcases hts with rfl | ⟨t, rfl, _⟩
    · cases he; exact hi rfl
    · cases he
  · rw [hc] at he
    rcases hts with rfl | ⟨t, rfl, hle⟩
    · cases he
    · cases he; omega

theorem insertVersion_wrote {table fresh : Nat} {data : Bytes} (ht : s.txns id = some txn)
    (hok : s.insertVersion id table fresh data = .ok (rid, s')) :
    Wrote s s' id txn rid (some data) none ∧ Heap.Inserted s.heap table rid ⟨.txn id, false⟩ data s'.heap ∧
      s'.versions = s.versions := by
  unfold insertVersion at hok
  split at hok
  · cases hok
  · rename_i r heap hi
    cases hok
    have hins := Heap.insertWithMeta_ok hi
    refine ⟨⟨⟨[], hins.new⟩, hins.frame, fun r hr => Nat.le_of_eq (hins.grows r hr).symm, fun _ _ => rfl, rfl,
      modifyTxn_self ht, fun i hi => modifyTxn_of_ne hi, rfl, rfl, rfl, rfl, rfl⟩, hins, rfl⟩

theorem absent_of_slot (h : RowInv base s rid) (hs : s.heap.slot rid = none) :
    s.versions rid = [] ∧ s.versionsOf base rid = [] := by
  cases h with
  | absent _ chain new => exact ⟨chain, new⟩
  | idle m b t slot => rw [hs] at slot; cases slot
  | dead b slot => rw [hs] at slot; cases slot
  | owned i t m b slot => rw [hs] at slot; cases slot

theorem Inv.insertVersion {table fresh : Nat} {data : Bytes} (h : Inv base s) (ht : s.txns id = some txn)
    (he : s.ending id = false) (hok : s.insertVersion id table fresh data = .ok (rid, s')) : Inv base s' := by
  obtain ⟨hw, hins, hv⟩ := insertVersion_wrote ht hok
  obtain ⟨hchain, hnew⟩ := absent_of_slot (h.rows rid) hins.old
  refine h.wrote hw ht he ?_ ?_
  · intro i _ m b hs
    rw [hins.old] at hs
    cases hs
  · have hfresh : txn.unfinished = true → rid ∉ txn.writeSet.map Prod.fst := by
      intro hu hr
      obtain ⟨m, b, hs, _⟩ := h.held id txn rid ht hu hr
      rw [hins.old] at hs
      cases hs
    refine .owned id _ _ _ hins.new ?_ ⟨hw.handle, ?_, ?_, ?_⟩
    · rw [hw.stamp, currentStamp_of_not_ending he]
    · rw [hw.events]; simp [live]
    · rw [hv, hchain]
      exact ⟨List.nil_prefix, fun ρ _ => by rw [hw.committed, hnew]; rfl⟩
    · refine .inserted (fun hu => recordWrite_new false (hfresh (by simpa using hu))) ?_ ?_
      · rw [hv]; exact hchain
      · rw [hw.committed]; exact hnew

theorem applyVersion_wrote {t : Transaction} (ht : s.txns id = some t)
    (hok : s.applyVersion id txn rid new = .ok s') :
    ∃ m b undo, Wrote s s' id t rid new (undo.map fun u : TupleMeta × Bytes => ⟨u.1, u.2, s.versions rid⟩) ∧
      planVersion id txn rid new m b = .ok (⟨⟨.txn id, new.isNone⟩, new⟩, undo) ∧
      Heap.Written s.heap rid (m, b) ⟨⟨.txn id, new.isNone⟩, new⟩ s'.heap ∧
      s'.versions rid = (undo.map fun u : TupleMeta × Bytes => (⟨u.1.ts, u.1.isDeleted, u.2⟩ : UndoLog)).toList ++
        s.versions rid := by
  unfold applyVersion at hok
  split at hok
  · cases hok
  · rename_i heap undo hws
    cases hok
    obtain ⟨⟨m, b⟩, w, hp, hwr⟩ := Heap.writeSlotThen_ok hws
    obtain ⟨_, _, hw⟩ := planVersion_ok hp
    subst hw
    refine ⟨m, b, undo, ⟨⟨b, ?_⟩, ?_, ?_, ?_, rfl, ?_, ?_, ?_, ?_, ?_, ?_, ?_⟩, hp, ?_, ?_⟩
    all_goals cases undo with
      | none => ?_
      | some u => ?_
    all_goals first
      | exact hwr.new
      | exact hwr.frame
      | exact fun r _ => hwr.grows r
      | exact fun r _ => rfl
      | exact fun r hr => Function.update_of_ne hr _ _
      | exact fun i hi => modifyTxn_of_ne hi
      | exact hwr
      | rfl
      | simp [modifyTxn, pushUndo, pushVersion, ht]

theorem Inv.applyVersion {t : Transaction} (h : Inv base s) (ht : s.txns id = some t) (hrt : t.readTs = txn.readTs)
    (he : s.ending id = false) (hok : s.applyVersion id txn rid new = .ok s') : Inv base s' := by
  obtain ⟨m, b, undo, hw, hp, hwr, hv⟩ := applyVersion_wrote ht hok
  obtain ⟨hseen, hlive, _⟩ := planVersion_ok hp
  have hts : m.ts = .txn id ∨ ∃ c, m.ts = .commit c ∧ c ≤ t.readTs := by
    rw [hrt]
    rcases hseen with ⟨h1, _⟩ | ⟨h1, _⟩
    · exact .inl h1
    · exact .inr h1
  have hread := (h.handles id t ht).2.1
  have hslot : s.heap.slot rid = some (m, b) := hwr.old
  have hstamp : (⟨Stamp.txn id, new.isNone⟩ : TupleMeta).ts = s'.currentStamp id rid := by
    rw [hw.stamp, currentStamp_of_not_ending he]
  have hlatest : latestWrite id rid s'.events = some (live new.isNone (new.getD b)) := by
    rw [hw.events, live_new]; simp
  refine h.wrote hw ht he ?_ ?_
  · intro i hi m' b' hs
    rw [hslot] at hs
    cases hs
    exact currentStamp_ne h ht hts hi rid
  · -- the row before the write decides whether a version is pushed
    cases h.rows rid with
    | absent slot => rw [hslot] at slot; cases slot
    | dead b' slot =>
      rw [hslot] at slot
      cases slot
      cases hlive
    | idle m' b' c slot stamp published covers =>
      rw [hslot] at slot
      cases slot
      have hundo : undo = some (m, b) := by
        rcases hseen with ⟨h1, _⟩ | ⟨_, h2⟩
        · rw [stamp] at h1; cases h1
        · exact h2
      subst hundo
      have hfresh : t.unfinished = true → rid ∉ t.writeSet.map Prod.fst := by
        intro hu hr
        obtain ⟨m', b', hs, hm⟩ := h.held id t rid ht hu hr
        rw [hslot] at hs
        cases hs
        rw [currentStamp_of_not_ending he, stamp] at hm
        cases hm
      refine .owned id _ _ _ hwr.new hstamp ⟨hw.handle, hlatest, ?_, ?_⟩
      · rw [hv]
        exact hw.covers covers
      · refine .replaced ⟨m, b, s.versions rid⟩ (s.versions rid)
          (fun hu => recordWrite_new true (hfresh (by simpa using hu))) ?_ ?_ (List.prefix_refl _) ?_ ?_
        · rw [hw.events]; simp
        · rw [hv]; rfl
        · exact Nat.le_trans (Heap.slot_length hslot) (hwr.grows rid)
        · rcases hts with h1 | ⟨c', h1, h2⟩
          · rw [stamp] at h1; cases h1
          · simp [h1, h2]
    | owned i t' m' b' slot stamp own =>
      rw [hslot] at slot
      cases slot
      have hid : i = id := by
        by_contra hne
        exact currentStamp_ne h ht hts hne rid stamp
      subst hid
      have hundo : undo = none := by
        rcases hseen with ⟨_, h2⟩ | ⟨⟨c, h1, _⟩, _⟩
        · exact h2
        · rw [currentStamp_of_not_ending he, h1] at stamp; cases stamp
      subst hundo
      have htt : t' = t := by
        have := own.handle
        rw [ht] at this
        cases this
        rfl
      subst htt
      refine .owned i _ _ _ hwr.new hstamp ⟨hw.handle, hlatest, ?_, ?_⟩
      · rw [hv]
        exact hw.covers own.covers
      · cases own.undoable with
        | inserted listed chain new =>
          refine .inserted (fun hu => recordWrite_mem (listed (by simpa using hu))) ?_ ?_
          · rw [hv]; exact chain
          · rw [hw.committed]; exact new
        | replaced old rest listed saved chain tail room seen =>
          refine .replaced old rest (fun hu => recordWrite_mem (listed (by simpa using hu))) ?_ ?_ tail ?_ ?_
          · rw [hw.events]; simpa using saved
          · rw [hv]; exact chain
          · exact Nat.le_trans room (hwr.grows rid)
          · simpa using seen

theorem Inv.writeVersion (h : Inv base s) (hc : s.caller id = some txn) :
    Inv base (s.writeVersion id txn rid new).1 := by
  obtain ⟨ht, he⟩ := caller_eq hc
  have h₁ : Inv base ((s.logFirstWrite id txn).logUndo id txn rid new) := (h.logFirstWrite he).logUndo
  have hq : Quiet s ((s.logFirstWrite id txn).logUndo id txn rid new) := logFirstWrite_quiet.trans logUndo_quiet
  cases hok : ((s.logFirstWrite id txn).logUndo id txn rid new).applyVersion id txn rid new with
  | error e => simp only [TransactionManager.writeVersion, hok]; exact h₁
  | ok s₂ =>
    simp only [TransactionManager.writeVersion, hok]
    obtain ⟨t, ht', hs⟩ := hq.handles id txn ht
    refine h₁.applyVersion ht' hs.readTs ?_ hok
    unfold ending at he ⊢
    rw [logUndo_latch, logFirstWrite_latch]
    exact he

end

/-! ## Stamps -/

section
variable {base : RecordId → List Version} {s s' : TransactionManager} {id : Nat} {txn : Transaction}
  {rid : RecordId}

theorem mem_stampedRids {i : Nat} {r : RecordId} (h : r ∈ s.stampedRids i) : s.ending i = true := by
  cases he : s.ending i with
  | true => rfl
  | false => rw [stampedRids_of_not_ending he] at h; cases h

theorem ending_unique {i j : Nat} (hi : s.ending i = true) (hj : s.ending j = true) : i = j := by
  unfold ending at hi hj
  cases ho : s.commitLatch with
  | none => simp [ho] at hi
  | some o =>
    simp only [ho, beq_iff_eq] at hi hj
    rw [hi] at hj
    cases hj
    rfl

theorem currentStamp_inj {i j : Nat} {r : RecordId} (h : s.currentStamp i r = s.currentStamp j r) : i = j := by
  unfold currentStamp at h
  split at h
  · rename_i hi
    split at h
    · rename_i hj
      exact ending_unique (mem_stampedRids hi) (mem_stampedRids hj)
    · cases h
  · split at h
    · cases h
    · cases h; rfl

theorem currentStamp_ne_published {i t : Nat} {r : RecordId} (ht : t ≤ s.lastCommitTs) :
    s.currentStamp i r ≠ .commit t := by
  intro h
  rcases currentStamp_cases s i r with hc | hc
  · rw [hc] at h; cases h
  · rw [hc] at h; cases h; omega

theorem Inv.owner (h : Inv base s) {m : TupleMeta} {b : Bytes} (hs : s.heap.slot rid = some (m, b))
    (hm : m.ts = s.currentStamp id rid) : ∃ txn, Owned base s rid id txn (live m.isDeleted b) := by
  cases h.rows rid with
  | absent slot => rw [hs] at slot; cases slot
  | idle m' b' t slot stamp published =>
    rw [hs] at slot
    cases slot
    exact absurd (hm.symm.trans stamp) (currentStamp_ne_published published)
  | dead b' slot =>
    rw [hs] at slot
    cases slot
    exact absurd hm.symm (currentStamp_ne_published (Nat.zero_le _))
  | owned i t m' b' slot stamp own =>
    rw [hs] at slot
    cases slot
    cases currentStamp_inj (stamp.symm.trans hm)
    exact ⟨t, own⟩

theorem Inv.owned_of_held (h : Inv base s) (ht : s.txns id = some txn) (hu : txn.unfinished = true)
    (hr : rid ∈ txn.writeSet.map Prod.fst) :
    ∃ m b, s.heap.slot rid = some (m, b) ∧ m.ts = s.currentStamp id rid ∧
      Owned base s rid id txn (live m.isDeleted b) := by
  obtain ⟨m, b, hs, hm⟩ := h.held id txn rid ht hu hr
  obtain ⟨t, own⟩ := h.owner hs hm
  have := own.handle
  rw [ht] at this
  cases this
  exact ⟨m, b, hs, hm, own⟩

theorem stamp_ok {a c : Stamp} (hok : s.stamp rid a c = .ok s') :
    ∃ m b, m.ts = a ∧ Heap.Written s.heap rid (m, b) ⟨{ m with ts := c }, none⟩ s'.heap ∧
      s' = { s with heap := s'.heap } := by
  unfold stamp at hok
  split at hok
  · cases hok
  · rename_i heap hw
    cases hok
    obtain ⟨⟨m, b⟩, w, hp, hwr⟩ := Heap.writeSlotThen_ok hw
    unfold planStamp at hp
    split at hp
    · cases hp
    · rename_i hm
      cases hp
      exact ⟨m, b, by simpa using hm, hwr, rfl⟩

theorem stamp_succeeds {a c : Stamp} {m : TupleMeta} {b : Bytes} (hs : s.heap.slot rid = some (m, b))
    (hm : m.ts = a) :
    ∃ s', s.stamp rid a c = .ok s' := by
  obtain ⟨heap, hw⟩ : ∃ heap, s.heap.writeSlotThen TxnError.storage rid (planStamp rid a c) = .ok (heap, ()) :=
    Heap.writeSlotThen_fits (w := ⟨{ m with ts := c }, none⟩) hs (by simp [planStamp, hm]) (fun d hd => by cases hd)
  exact ⟨{ s with heap }, by simp only [stamp, hw]⟩

theorem Inv.restamped (h : Inv base s) (ht : s.txns id = some txn) (hu : txn.unfinished = true)
    (hr : rid ∈ txn.writeSet.map Prod.fst) {heap : Heap} {latch : Option Outcome} {c : Stamp}
    {m : TupleMeta} {b : Bytes} (hwr : Heap.Written s.heap rid (m, b) ⟨{ m with ts := c }, none⟩ heap)
    (hc : ({ s with heap, commitLatch := latch }).currentStamp id rid = c)
    (hcur : ∀ i r, (i = id → r ≠ rid) → ({ s with heap, commitLatch := latch }).currentStamp i r =
      s.currentStamp i r)
    (hl : ({ s with heap, commitLatch := latch }).LatchInv) :
    Inv base { s with heap, commitLatch := latch } where
  rows := fun r => by
    by_cases hrr : r = rid
    · subst hrr
      obtain ⟨m', b', hs, _, own⟩ := h.owned_of_held ht hu hr
      rw [hwr.old] at hs
      cases hs
      refine .owned id txn _ _ hwr.new hc.symm
        ⟨own.handle, own.latest, ⟨own.covers.isPrefix, own.covers.serves⟩, ?_⟩
      cases own.undoable with
      | inserted listed chain new => exact .inserted listed chain new
      | replaced old rest listed saved chain tail room seen =>
        exact .replaced old rest listed saved chain tail (Nat.le_trans room (hwr.grows r)) seen
    · exact (h.rows r).frame ⟨hwr.frame r hrr, hwr.grows r, rfl, rfl, fun _ => rfl, fun _ => rfl, Nat.le_refl _,
        fun _ hρ => hρ, fun i => hcur i r fun _ => hrr, fun i t hi => ⟨t, hi, rfl, fun hu => ⟨hu, fun _ hp => hp⟩⟩⟩
  handles := h.handles
  writers := h.writers
  written := h.written
  held := by
    intro i t r hi hu' hk
    by_cases hrr : r = rid
    · subst hrr
      by_cases hid : i = id
      · subst hid
        exact ⟨_, _, hwr.new, hc.symm⟩
      · obtain ⟨m', b', hs, hm⟩ := h.held i t r hi hu' hk
        obtain ⟨m'', b'', hs', hm'⟩ := h.held id txn r ht hu hr
        rw [hs] at hs'
        cases hs'
        exact absurd (currentStamp_inj (hm.symm.trans hm')) hid
    · rw [hcur i r fun _ => hrr]
      obtain ⟨m', b', hs, hm⟩ := h.held i t r hi hu' hk
      exact ⟨m', b', (hwr.frame r hrr).trans hs, hm⟩
  registry := h.registry
  passes := h.passes
  sorted := h.sorted
  published := h.published
  latch := hl

theorem perm_stamped {todo : List RecordId} (hmem : rid ∈ todo) (done : List RecordId) :
    (todo.erase rid ++ (done ++ [rid])).Perm (todo ++ done) := by
  have h1 : (todo.erase rid ++ (done ++ [rid])).Perm (rid :: todo.erase rid ++ done) := by
    rw [← List.append_assoc]
    exact List.perm_append_singleton _ _
  exact h1.trans ((List.perm_cons_erase hmem).symm.append_right done)

theorem Inv.stampStep {fails : Bool} (h : Inv base s) (hstep : s.stampStep rid fails = some s') : Inv base s' := by
  unfold TransactionManager.stampStep at hstep
  split at hstep
  · rename_i id ts todo done hl
    split at hstep
    · rename_i hmem
      split at hstep
      · cases hstep
        exact h.startUncommit hl _
      · split at hstep
        · cases hstep
          exact h.startUncommit hl _
        · rename_i s₁ hok
          cases hstep
          obtain ⟨m, b, _, hwr, hs₁⟩ := stamp_ok hok
          rw [hs₁]
          obtain ⟨hts, t, ht, hrun, hp⟩ := h.latch.committing hl
          have hkey : rid ∈ t.writeSet.map Prod.fst := hp.mem_iff.mp (List.mem_append_left _ hmem)
          refine h.restamped ht (unfinished_of_running hrun) hkey hwr ?_ ?_ ?_
          · simp [currentStamp, stampedRids, hts]
          · intro i r hne
            simp only [currentStamp, stampedRids, hl]
            by_cases hi : id = i
            · simp [hi, hne hi.symm]
            · simp [hi]
          · exact ⟨hts, t, ht, hrun, (perm_stamped hmem done).trans hp⟩
    · cases hstep
  · cases hstep

theorem Inv.unstampStep (h : Inv base s) (hstep : s.unstampStep false = some s') : Inv base s' := by
  unfold TransactionManager.unstampStep at hstep
  split at hstep
  · rename_i hl
    cases hstep
    exact h.failCommit hl
  · rename_i id ts rid done cause hl
    obtain ⟨hts, t, ht, hrun, hn, hk⟩ := h.latch.uncommitting hl
    have hu := unfinished_of_running hrun
    have hkey := hk rid (by simp)
    have hcur : s.currentStamp id rid = .commit ts := by simp [currentStamp, stampedRids, hl, hts]
    rw [if_neg (by decide)] at hstep
    split at hstep
    · -- the slot carries the stamp the commit gave it, so putting it back cannot fail
      rename_i e herr
      obtain ⟨m, b, hs, hm⟩ := h.held id t rid ht hu hkey
      obtain ⟨s₁, hok⟩ := stamp_succeeds (s := s) (c := .txn id) hs (hm.trans hcur)
      rw [hok] at herr
      cases herr
    · rename_i s₁ hok
      cases hstep
      obtain ⟨m, b, _, hwr, hs₁⟩ := stamp_ok hok
      rw [hs₁]
      refine h.restamped ht hu hkey hwr ?_ ?_ ?_
      · have : rid ∉ done := (List.nodup_cons.mp hn).1
        simp [currentStamp, stampedRids, this]
      · intro i r hne
        simp only [currentStamp, stampedRids, hl]
        by_cases hi : id = i
        · simp [hi, hne hi.symm]
        · simp [hi]
      · exact ⟨hts, t, ht, hrun, (List.nodup_cons.mp hn).2, fun r hr => hk r (List.mem_cons_of_mem _ hr)⟩
  · cases hstep

end

end TransactionManager

end Cmudb
