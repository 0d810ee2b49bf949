import Cmudb.Conflicts
import Cmudb.KeyTasks
import Cmudb.Lib.Reservations
import Cmudb.Owners
import Cmudb.Snapshot

/-!
# The keys of rows

The key a slot holds in an index, the key of the newest committed version, and
how the steps of the manager change them. Only a publication changes what is
committed, and only a write makes a transaction hold a new key.
-/

namespace Cmudb

namespace TransactionManager

section
variable (ix : IndexInfo) (base : RecordId → List Version) (s : TransactionManager)

def slotKey (r : RecordId) : Option IndexKey :=
  if s.heap.owner r.pageId = some ix.table then
    ((s.heap.slot r).bind fun v => live v.1.isDeleted v.2).bind ix.keyOf
  else none

def keyAt (t : Nat) (r : RecordId) : Option IndexKey :=
  if s.heap.owner r.pageId = some ix.table then
    ((snapshot t (s.versionsOf base r)).bind Version.data).bind ix.keyOf
  else none

def newestKey (r : RecordId) : Option IndexKey := keyAt ix base s s.lastCommitTs r

def Runs (id : Nat) : Prop := ∃ txn, s.txns id = some txn ∧ txn.state = .running

def seenKey (id : Nat) (r : RecordId) : Option IndexKey :=
  if s.heap.owner r.pageId = some ix.table then
    ((s.txns id).bind fun txn => s.visible id txn r).bind ix.keyOf
  else none

end

/-- Nothing is committed, and no running transaction comes to hold a key but at the `hot` rows. -/
structure Steady (ix : IndexInfo) (base : RecordId → List Version) (hot : Nat → RecordId → Prop)
    (s s' : TransactionManager) : Prop where
  keys : ∀ {i r k}, ¬ hot i r → s'.Runs i → s'.Holds i r → slotKey ix s' r = some k →
    s.Runs i ∧ s.Holds i r ∧ slotKey ix s r = some k
  holds : ∀ {i r}, s'.Runs i → s.Holds i r → s'.Holds i r
  committed : ∀ t r, keyAt ix base s' t r = keyAt ix base s t r
  clock : s'.lastCommitTs = s.lastCommitTs

section
variable {ix : IndexInfo} {base : RecordId → List Version} {s s' : TransactionManager} {a : Action} {id : Nat}
  {txn : Transaction} {r rid : RecordId} {hot : Nat → RecordId → Prop}

theorem Steady.newest (h : Steady ix base hot s s') (r : RecordId) :
    newestKey ix base s' r = newestKey ix base s r := by
  unfold newestKey
  rw [h.clock, h.committed]

theorem slotKey_congr (hs : s'.heap.slot r = s.heap.slot r)
    (ho : (s.heap.slot r).isSome → s'.heap.owner r.pageId = s.heap.owner r.pageId) :
    slotKey ix s' r = slotKey ix s r := by
  unfold slotKey
  rw [hs]
  cases h : s.heap.slot r with
  | none => simp
  | some v => rw [ho (by rw [h]; rfl)]

theorem keyAt_congr (h : Inv base s) (hv : s'.versionsOf base r = s.versionsOf base r)
    (ho : (s.heap.slot r).isSome → s'.heap.owner r.pageId = s.heap.owner r.pageId) (t : Nat) :
    keyAt ix base s' t r = keyAt ix base s t r := by
  unfold keyAt
  rw [hv]
  cases hs : s.heap.slot r with
  | none => simp [(absent_of_slot (h.rows r) hs).2, snapshot]
  | some v => rw [ho (by rw [hs]; rfl)]

theorem Quiet.steady (h : Inv base s) (hq : Quiet s s') : Steady ix base (fun _ _ => False) s s' where
  keys := by
    rintro i r k _ ⟨t', ht', hr'⟩ hh hk
    obtain ⟨t, ht, hs⟩ := hq.back ht'
    exact ⟨⟨t, ht, hs.running hr'⟩,
      (hq.holds i r).mp hh, by rw [← hk]; exact (slotKey_congr (by rw [hq.heap]) fun _ => by rw [hq.heap]).symm⟩
  holds := fun _ hh => (hq.holds _ _).mpr hh
  committed := fun t r => keyAt_congr h (by simp only [versionsOf, hq.events]) (fun _ => by rw [hq.heap]) t
  clock := hq.clock

theorem steady_of_frame (h : Inv base s)
    (hslots : ∀ r, (∀ i, s'.Runs i → hot i r ∨ ¬ s.Holds i r ∧ ¬ s'.Holds i r) ∨
      s'.heap.slot r = s.heap.slot r ∧ ∀ i, s'.Runs i → s'.currentStamp i r = s.currentStamp i r)
    (hruns : ∀ {i r}, s'.Runs i → s'.Holds i r → s.Runs i)
    (hkeep : ∀ {i r}, hot i r → s.Holds i r → s'.Holds i r)
    (hown : ∀ r, (s.heap.slot r).isSome → s'.heap.owner r.pageId = s.heap.owner r.pageId)
    (hv : ∀ r, s'.versionsOf base r = s.versionsOf base r) (hclock : s'.lastCommitTs = s.lastCommitTs) :
    Steady ix base hot s s' where
  keys := by
    intro i r k hcold hr hh hk
    rcases hslots r with hcase | ⟨hs, hst⟩
    · rcases hcase i hr with hc | ⟨_, hc⟩
      · exact absurd hc hcold
      · exact absurd hh hc
    · exact ⟨hruns hr hh, (Holds.congr hs (hst i hr)).mp hh, by rw [← hk]; exact (slotKey_congr hs (hown r)).symm⟩
  holds := by
    intro i r hr hh
    rcases hslots r with hcase | ⟨hs, hst⟩
    · rcases hcase i hr with hc | ⟨hc, _⟩
      · exact hkeep hc hh
      · exact absurd hh hc
    · exact (Holds.congr hs (hst i hr)).mpr hh
  committed := fun t r => keyAt_congr h (hv r) (hown r) t
  clock := hclock

theorem Wrote.runs {new : Option Bytes} {old : Option Replaced} (hw : Wrote s s' id txn rid new old)
    (ht : s.txns id = some txn) {i : Nat} (hr : s'.Runs i) : s.Runs i := by
  obtain ⟨t', ht', hr'⟩ := hr
  by_cases hi : i = id
  · subst hi
    rw [hw.handle] at ht'
    cases ht'
    exact ⟨txn, ht, by simpa using hr'⟩
  · rw [hw.handles i hi] at ht'
    exact ⟨t', ht', hr'⟩

theorem Wrote.steady {new : Option Bytes} {old : Option Replaced} (h : Inv base s)
    (hw : Wrote s s' id txn rid new old) (ht : s.txns id = some txn) (he : s.ending id = false)
    (hother : ∀ i, i ≠ id → ∀ m b, s.heap.slot rid = some (m, b) → m.ts ≠ s.currentStamp i rid)
    (hown : ∀ r, (s.heap.slot r).isSome → s'.heap.owner r.pageId = s.heap.owner r.pageId) :
    Steady ix base (fun i r => i = id ∧ r = rid) s s' := by
  refine steady_of_frame h (fun r => ?_) (fun hr _ => hw.runs ht hr) ?_ hown (fun r => hw.committed r) hw.clock
  · by_cases hr : r = rid
    · subst hr
      refine .inl fun i _ => ?_
      by_cases hi : i = id
      · exact .inl ⟨hi, rfl⟩
      · refine .inr ⟨fun ⟨m, b, hs, hm⟩ => hother i hi m b hs hm, fun ⟨m, b, hs, hm⟩ => ?_⟩
        obtain ⟨b', hb'⟩ := hw.slot
        rw [hb'] at hs
        cases hs
        rw [hw.stamp, ← currentStamp_of_not_ending he r] at hm
        exact hi (currentStamp_inj hm).symm
    · exact .inr ⟨hw.slots r hr, fun i _ => hw.stamp i r⟩
  · rintro i r ⟨rfl, rfl⟩ _
    exact hw.holds_self he

theorem Ended.runs {es : List Event} {last : Nat} (he : Ended s s' id txn es last) {i : Nat} (hr : s'.Runs i) :
    i ≠ id ∧ s.Runs i := by
  obtain ⟨t', ht', hr'⟩ := hr
  have hi : i ≠ id := by
    rintro rfl
    obtain ⟨t, ht, _, _, hc⟩ := he.handle
    rw [ht] at ht'
    cases ht'
    rw [unfinished_of_running hr'] at hc
    cases hc
  rw [he.handles i hi] at ht'
  exact ⟨hi, t', ht', hr'⟩

theorem Ended.steady {es : List Event} {last : Nat} (h : Inv base s) (he : Ended s s' id txn es last)
    (how : Ending s s' id txn es last) (hlast : last = s.lastCommitTs)
    (hv : ∀ r, s'.versionsOf base r = s.versionsOf base r) : Steady ix base (fun _ _ => False) s s' := by
  refine steady_of_frame h (fun r => .inr ⟨by rw [he.heap], fun i hr => ?_⟩) (fun hr _ => (he.runs hr).2)
    (fun hf _ => hf.elim) (fun r _ => by rw [he.heap]) hv (by rw [he.clock, hlast])
  exact he.stamp_of_ne how (he.runs hr).1 r

/-! ## Publication -/

theorem snapshot_newest {t : Nat} {vs : List Version} (h : ∀ v ∈ vs, v.ts ≤ t) : snapshot t vs = vs.head? := by
  unfold snapshot
  cases vs with
  | nil => rfl
  | cons v vs => simp [h v (by simp)]

theorem Inv.keyAt_after (h : Inv base s) {t : Nat} (ht : s.lastCommitTs ≤ t) (r : RecordId) :
    keyAt ix base s t r = newestKey ix base s r := by
  unfold newestKey keyAt
  rw [snapshot_newest fun v hv => Nat.le_trans (h.published r v hv) ht, snapshot_newest (h.published r)]

theorem Inv.holds_iff (h : Inv base s) (ht : s.txns id = some txn) (hu : txn.unfinished = true) :
    s.Holds id r ↔ r ∈ txn.writeSet.map Prod.fst := by
  constructor
  · rintro ⟨m, b, hs, hm⟩
    obtain ⟨t, own⟩ := h.owner hs hm
    have := own.handle
    rw [ht] at this
    cases this
    cases own.undoable with
    | inserted listed => exact List.mem_map.mpr ⟨_, listed hu, rfl⟩
    | replaced _ _ listed => exact List.mem_map.mpr ⟨_, listed hu, rfl⟩
  · exact h.held id txn r ht hu

/-- The key a held row has in its slot is that of the transaction's latest write. -/
theorem Inv.slotKey_eq (h : Inv base s) (hh : s.Holds id r) {shown : Option Bytes}
    (hw : latestWrite id r s.events = some shown) (ho : s.heap.owner r.pageId = some ix.table) :
    slotKey ix s r = shown.bind ix.keyOf := by
  obtain ⟨m, b, hs, hm⟩ := hh
  obtain ⟨t, own⟩ := h.owner hs hm
  have := own.latest
  rw [hw] at this
  cases this
  simp [slotKey, ho, hs]

/-- What a publication commits: the keys its transaction holds, at the new timestamp. -/
structure PublishedKeys (ix : IndexInfo) (base : RecordId → List Version) (id : Nat) (s s' : TransactionManager) :
    Prop where
  runs : s.Runs id
  ending : s.ending id = true
  stamped : ∀ i r, r ∈ s.stampedRids i → s.Holds id r
  others : ∀ {i}, s'.Runs i → i ≠ id ∧ s.Runs i
  holds : ∀ {i r}, i ≠ id → (s'.Holds i r ↔ s.Holds i r)
  slots : ∀ r, slotKey ix s' r = slotKey ix s r
  past : ∀ t r, t ≤ s.lastCommitTs → keyAt ix base s' t r = keyAt ix base s t r
  written : ∀ {r}, s.Holds id r → newestKey ix base s' r = slotKey ix s r
  kept : ∀ {r}, ¬ s.Holds id r → newestKey ix base s' r = newestKey ix base s r
  clock : s'.lastCommitTs = s.lastCommitTs + 1

theorem Inv.publishedKeys (h : Inv base s) {done : List RecordId} (ht : s.txns id = some txn)
    (hl : s.commitLatch = some (.commit id (s.lastCommitTs + 1) [] done)) (hrun : txn.state = .running)
    (all : done.Perm (txn.writeSet.map Prod.fst))
    (how : Ending s s' id txn (.committed id (s.lastCommitTs + 1) :: s.events) (s.lastCommitTs + 1))
    (he : Ended s s' id txn (.committed id (s.lastCommitTs + 1) :: s.events) (s.lastCommitTs + 1)) :
    PublishedKeys ix base id s s' := by
  have hu := unfinished_of_running hrun
  constructor
  case runs => exact ⟨txn, ht, hrun⟩
  case ending => simp [TransactionManager.ending, hl, Outcome.txn]
  case stamped =>
    intro i r hr
    simp only [stampedRids, hl] at hr
    split at hr
    · exact (h.holds_iff ht hu).mpr (all.mem_iff.mp hr)
    · cases hr
  case others => exact fun hr => he.runs hr
  case holds => exact fun hi => Holds.congr (by rw [he.heap]) (he.stamp_of_ne how hi _)
  case slots => exact fun r => slotKey_congr (by rw [he.heap]) fun _ => by rw [he.heap]
  case clock => exact he.clock
  case past =>
    intro t r hle
    unfold keyAt
    rw [he.heap]
    cases hw : latestWrite id r s.events with
    | none => rw [versionsOf_committed_none he.events hw]
    | some new =>
      rw [versionsOf_committed_some he.events hw]
      have : snapshot t (⟨s.lastCommitTs + 1, some id, new⟩ :: s.versionsOf base r) =
          snapshot t (s.versionsOf base r) :=
        snapshot_append (l := [_]) fun v hv => by rw [List.mem_singleton.mp hv]; exact Nat.lt_succ_of_le hle
      rw [this]
  case written =>
    intro r hh
    obtain ⟨m, b, hs, hm, own⟩ := h.owned_of_held ht hu ((h.holds_iff ht hu).mp hh)
    unfold newestKey keyAt
    rw [he.heap, versionsOf_committed_some he.events own.latest, he.clock]
    by_cases ho : s.heap.owner r.pageId = some ix.table
    · rw [if_pos ho, h.slotKey_eq hh own.latest ho]
      simp [snapshot]
    · simp [slotKey, ho]
  case kept =>
    intro r hh
    have hnone : latestWrite id r s.events = none := by
      cases hw : latestWrite id r s.events with
      | none => rfl
      | some new => exact absurd ((h.holds_iff ht hu).mpr (h.written id txn r ht hrun (by rw [hw]; rfl))) hh
    unfold newestKey keyAt
    rw [he.heap, versionsOf_committed_none he.events hnone, he.clock, snapshot_newest (h.published r),
      snapshot_newest fun v hv => Nat.le_succ_of_le (h.published r v hv)]

theorem Inv.keys_change (h : Inv base s) (hc : Change a s s') (hw : a.writer = none) (ha : a ≠ .publish) :
    Steady ix base (fun _ _ => False) s s' := by
  have hidle : ∀ {s' : TransactionManager}, s'.heap = s.heap → s'.txns = s.txns → s'.events = s.events →
      s'.commitLatch = s.commitLatch → s'.lastCommitTs = s.lastCommitTs →
      Steady ix base (fun _ _ => False) s s' := by
    intro s' hh ht he hl hcl
    refine steady_of_frame h (fun r => .inr ⟨by rw [hh], fun i _ => ?_⟩) (fun hr _ => by simpa [Runs, ht] using hr)
      (fun hf _ => hf.elim) (fun r _ => by rw [hh]) (fun r => by simp only [versionsOf, he]) hcl
    simp only [currentStamp, stampedRids_congr hl, hcl]
  cases hc with
  | quiet hq => exact hq.steady h
  | begun hb =>
    subst hb
    refine steady_of_frame h (fun r => .inr ⟨rfl, fun i _ => rfl⟩) ?_ (fun hf _ => hf.elim) (fun r _ => rfl)
      (fun r => rfl) rfl
    rintro i r ⟨t, ht, hr⟩ ⟨m, b, hs, hm⟩
    by_cases hi : i = s.nextTxnId
    · -- nobody holds a row under an id that was not given out
      subst hi
      have hm' : m.ts = s.currentStamp s.nextTxnId r := hm
      obtain ⟨t', own⟩ := h.owner hs hm'
      have := own.handle
      rw [h.handles.fresh] at this
      cases this
    · simp only [TransactionManager.begin, Function.update_of_ne hi] at ht
      exact ⟨t, ht, hr⟩
  | updated _ _ _ _ _ _ _ _ _ writer => rw [hw] at writer; cases writer
  | inserted _ _ _ _ _ writer => rw [hw] at writer; cases writer
  | restamped i t rid m b _ handle running key before slot others rest =>
    have hruns : ∀ j, s'.Runs j → s.Runs j := fun j hr => by rw [rest] at hr; exact hr
    refine ⟨?_, ?_, fun t r => ?_, by rw [rest]⟩
    · intro j r k _ hr hh hk
      by_cases hrid : r = rid
      · subst hrid
        obtain ⟨m', b', hs', hm'⟩ := hh
        rw [slot.new] at hs'
        cases hs'
        have hj : j = i := (currentStamp_inj hm').symm
        subst hj
        refine ⟨hruns _ hr, ⟨m, b, slot.old, before⟩, ?_⟩
        rw [← hk]
        simp [slotKey, slot.old, slot.new, slot.owner]
      · refine ⟨hruns _ hr, (Holds.congr (slot.frame r hrid) (others j r fun _ => hrid)).mp hh, ?_⟩
        rw [← hk]
        exact (slotKey_congr (slot.frame r hrid) fun _ => by rw [slot.owner]).symm
    · intro j r hr hh
      by_cases hrid : r = rid
      · subst hrid
        obtain ⟨m', b', hs', hm'⟩ := hh
        rw [slot.old] at hs'
        cases hs'
        have hj : j = i := currentStamp_inj (hm'.symm.trans before)
        subst hj
        exact ⟨_, _, slot.new, rfl⟩
      · exact (Holds.congr (slot.frame r hrid) (others j r fun _ => hrid)).mpr hh
    · refine keyAt_congr h ?_ (fun _ => by rw [slot.owner]) t
      rw [rest]
      rfl
  | ended i t es last handle _ how he act =>
    cases how with
    | readOnly caller running nothing final after =>
      refine he.steady h (.readOnly caller running nothing final after) rfl fun r => ?_
      simp only [versionsOf, he.events, history_committed, h.nothing_written handle running nothing r]
    | published => exact absurd (act (Nat.lt_succ_self _)) ha
    | aborted latch tainted final after =>
      exact he.steady h (.aborted latch tainted final after) rfl fun r => by simp only [versionsOf, he.events]
  | restored i t rid p s₁ latch handle tainted key hok rest =>
    obtain ⟨hr, m, b, hs, hm, _⟩ := restore_ok hok
    have hruns : ∀ j, s'.Runs j → j ≠ i ∧ s.Runs j := by
      rintro j ⟨t', ht', hr'⟩
      rw [rest] at ht'
      obtain ⟨t₀, ht₀, hsame⟩ := hr.back handle ht'
      refine ⟨?_, t₀, ht₀, hsame.symm.trans hr'⟩
      rintro rfl
      rw [handle] at ht₀
      cases ht₀
      rw [hsame, tainted] at hr'
      cases hr'
    have hstamp : ∀ j r, s'.currentStamp j r = s.currentStamp j r := fun j r => by
      rw [rest]
      simp [currentStamp, stampedRids, latch]
    refine steady_of_frame h (fun r => ?_) (fun hr' _ => (hruns _ hr').2) (fun hf _ => hf.elim)
      (fun r _ => by rw [rest]; exact congrFun hr.owner _)
        (fun r => by rw [rest]; simp only [versionsOf, hr.events])
      (by rw [rest]; exact hr.clock)
    by_cases hrid : r = rid
    · subst hrid
      refine .inl fun j hj => .inr ⟨?_, ?_⟩
      · rintro ⟨m', b', hs', hm'⟩
        rw [hs] at hs'
        cases hs'
        exact currentStamp_ne h handle (.inl hm) (hruns j hj).1 r hm'
      · rintro ⟨m', b', hs', hm'⟩
        rw [hstamp] at hm'
        rw [rest] at hs'
        obtain ⟨c, hc, hle⟩ := restored_stamp h hok hs'
        exact currentStamp_ne_published hle (hm'.symm.trans hc)
    · exact .inr ⟨by rw [rest]; exact hr.slots r hrid, fun j _ => hstamp j r⟩
  | swept w rid _ hok =>
    unfold TransactionManager.collectSlot at hok
    split at hok
    · cases hok
    · cases hok
      exact hidle rfl rfl rfl rfl rfl
  | passes hp => exact hidle (by rw [hp]) (by rw [hp]) (by rw [hp]) (by rw [hp]) (by rw [hp])

theorem Inv.publish_keys (h : Inv base s) (hstep : s.step .publish = some s') :
    ∃ i, PublishedKeys ix base i s s' := by
  simp only [TransactionManager.step, publishStep] at hstep
  split at hstep
  · rename_i i ts done hl
    obtain ⟨t, ht, rfl⟩ := Option.map_eq_some_iff.mp hstep
    obtain ⟨rfl, t', ht', hrun, hp⟩ := h.latch.committing hl
    rw [ht] at ht'
    cases ht'
    exact ⟨i, h.publishedKeys ht hl hrun hp (.published done hl hrun hp (publish_handle ht _) (publish_latch _))
      (publish_ended ht _)⟩
  · cases hstep

/-- Slots keep the timestamp of the commit under way until it is published or taken back. -/
theorem Change.stamped (hc : Change a s s') (ha : a ≠ .publish) (hu : ∀ fails, a ≠ .unstamp fails) {i : Nat}
    (hr : r ∈ s.stampedRids i) : r ∈ s'.stampedRids i := by
  cases hc with
  | quiet hq => rw [hq.stamped]; exact hr
  | begun hb => subst hb; exact hr
  | updated _ _ _ _ _ _ _ _ _ _ _ logged _ _ _ _ h => rw [stampedRids_congr h.latch, logged.stamped]; exact hr
  | inserted _ _ _ _ _ _ _ _ h => rw [stampedRids_congr h.latch]; exact hr
  | restamped j t rid m b _ _ _ _ _ _ others rest act =>
    have hnot : rid ∉ s.stampedRids j := act.resolve_right fun ⟨f, hf⟩ => hu f hf
    have hcur := others i r (by rintro rfl rfl; exact hnot hr)
    simp only [currentStamp, if_pos hr] at hcur
    split at hcur
    · assumption
    · cases hcur
  | ended j t es last _ _ how he act =>
    cases how with
    | readOnly _ _ _ _ after => rw [stampedRids_congr after]; exact hr
    | published => exact absurd (act (Nat.lt_succ_self _)) ha
    | aborted latch => simp [stampedRids, latch] at hr
  | restored j t rid p s₁ latch => simp [stampedRids, latch] at hr
  | swept w rid _ hok =>
    unfold collectSlot at hok
    split at hok
    · cases hok
    · cases hok; exact hr
  | passes hp => rw [hp]; exact hr

/-! ## What a transaction sees -/

theorem Change.stays (hc : Change a s s') (hs : (s.heap.slot r).isSome) :
    (s'.heap.slot r).isSome ∧ s'.heap.owner r.pageId = s.heap.owner r.pageId := by
  cases hc with
  | quiet hq => rw [hq.heap]; exact ⟨hs, rfl⟩
  | begun hb => subst hb; exact ⟨hs, rfl⟩
  | updated _ _ _ rid _ _ _ _ _ _ _ _ _ _ _ slot =>
    refine ⟨?_, by rw [slot.owner]⟩
    by_cases hr : r = rid
    · subst hr; rw [slot.new]; rfl
    · rw [slot.frame r hr]; exact hs
  | inserted _ _ _ rid _ _ _ slot =>
    refine ⟨?_, slot.owner r hs⟩
    by_cases hr : r = rid
    · subst hr; rw [slot.new]; rfl
    · rw [slot.frame r hr]; exact hs
  | restamped _ _ rid _ _ _ _ _ _ _ slot =>
    refine ⟨?_, by rw [slot.owner]⟩
    by_cases hr : r = rid
    · subst hr; rw [slot.new]; rfl
    · rw [slot.frame r hr]; exact hs
  | ended _ _ _ _ _ _ _ he => rw [he.heap]; exact ⟨hs, rfl⟩
  | restored _ _ rid _ _ _ _ _ _ hok rest =>
    obtain ⟨hr, _, _, _, _, hcase⟩ := restore_ok hok
    subst rest
    refine ⟨?_, congrFun hr.owner _⟩
    by_cases hrid : r = rid
    · subst hrid
      rcases hcase with ⟨_, hslot, _⟩ | ⟨_, _, _, hslot⟩
      · simp only [hslot]; rfl
      · simp only [hslot]; rfl
    · simp only [hr.slots r hrid]; exact hs
  | swept w rid _ hok =>
    unfold collectSlot at hok
    split at hok
    · cases hok
    · cases hok; exact ⟨hs, rfl⟩
  | passes hp => rw [hp]; exact ⟨hs, rfl⟩

theorem Change.latest (hc : Change a s s') {i : Nat} (hw : a.writer ≠ some i) (r : RecordId) :
    latestWrite i r s'.events = latestWrite i r s.events := by
  cases hc with
  | quiet hq => rw [hq.events]
  | begun hb => subst hb; rfl
  | updated id _ _ _ _ _ _ _ _ writer _ logged _ _ _ _ h =>
    rw [h.events, logged.events, latestWrite_wrote, if_neg]
    rintro ⟨rfl, _⟩
    exact hw writer
  | inserted id _ _ _ _ writer _ _ h =>
    rw [h.events, latestWrite_wrote, if_neg]
    rintro ⟨rfl, _⟩
    exact hw writer
  | restamped _ _ _ _ _ _ _ _ _ _ _ _ rest => rw [rest]
  | ended _ _ _ _ _ _ how he =>
    rw [he.events]
    cases how <;> rfl
  | restored _ _ _ _ _ _ _ _ _ hok rest =>
    obtain ⟨hr, _⟩ := restore_ok hok
    rw [rest, hr.events]
  | swept w rid _ hok =>
    unfold collectSlot at hok
    split at hok
    · cases hok
    · cases hok; rfl
  | passes hp => rw [hp]

theorem Inv.seenKey_change (h : Inv base s) (h' : Inv base s') (hc : Change a s s') {i : Nat} (hr : s.Runs i)
    (hr' : s'.Runs i) (hst : s'.stampedRids i = s.stampedRids i) (hw : a.writer ≠ some i) (r : RecordId) :
    seenKey ix s' i r = seenKey ix s i r := by
  obtain ⟨t, ht, hrun⟩ := hr
  obtain ⟨t', ht', hrun'⟩ := hr'
  have hvis : s'.visible i t' r = s.visible i t r := by
    obtain ⟨t'', h1, hkept⟩ := hc.kept h.handles.fresh ht
    rw [ht'] at h1
    cases h1
    obtain ⟨hown, hsnap⟩ := h.sees_view (r := r) ht hrun
    obtain ⟨hown', hsnap'⟩ := h'.sees_view (r := r) ht' hrun'
    rw [hst] at hown' hsnap'
    have hlatest := hc.latest hw r
    have hsame : r ∈ s.stampedRids i ∨ latestWrite i r s.events = none → s'.visible i t' r = s.visible i t r := by
      intro hcase
      rw [hsnap hcase, hsnap' (by rw [hlatest]; exact hcase), hkept.readTs]
      obtain ⟨l, hl', hgt⟩ := (h.grown hc r).versions
      rw [hl', snapshot_append fun v hv => Nat.lt_of_le_of_lt (h.handles i t ht).2.1 (hgt v hv)]
    by_cases hmem : r ∈ s.stampedRids i
    · exact hsame (.inl hmem)
    · cases hl : latestWrite i r s.events with
      | some new => rw [hown hmem new hl, hown' hmem new (hlatest.trans hl)]
      | none => exact hsame (.inr hl)
  unfold seenKey
  rw [ht, ht', Option.bind_some, Option.bind_some, hvis]
  cases hs : s.heap.slot r with
  | none => simp [visible_of_none hs]
  | some v => rw [(hc.stays (by rw [hs]; rfl)).2]

theorem seenKey_of_writable (ht : s.txns id = some txn) {m : TupleMeta} {b : Bytes}
    (hs : s.heap.slot r = some (m, b)) (hm : m.ts = .txn id ∨ ∃ t, m.ts = .commit t ∧ t ≤ txn.readTs) :
    seenKey ix s id r = slotKey ix s r := by
  have hv : s.visible id txn r = live m.isDeleted b := by
    rw [visible_of_slot hs, visibleVersion, if_pos]
    rcases hm with hm | ⟨t, hm, hle⟩
    · simp [sees, hm]
    · simp [sees, hm, hle]
  unfold seenKey slotKey
  rw [ht, hs, Option.bind_some, Option.bind_some, hv]

theorem Quiet.seenKey (hq : Quiet s s') (i : Nat) (r : RecordId) :
    TransactionManager.seenKey ix s' i r = TransactionManager.seenKey ix s i r := by
  unfold TransactionManager.seenKey
  rw [hq.heap]
  cases ht : s.txns i with
  | none => rw [hq.noHandle i ht]; rfl
  | some t =>
    obtain ⟨t', ht', hs⟩ := hq.handles i t ht
    have : s'.visible i t' r = s.visible i t r := by
      have hheap : s'.heap.slot r = s.heap.slot r := by rw [hq.heap]
      cases hslot : s.heap.slot r with
      | none => rw [visible_of_none hslot, visible_of_none (hheap.trans hslot)]
      | some v =>
        rw [visible_of_slot hslot, visible_of_slot (hheap.trans hslot), hq.versions]
        unfold visibleVersion sees
        rw [hs.readTs]
    rw [ht', Option.bind_some, Option.bind_some, this]

theorem Inv.newestKey_of_committed (h : Inv base s) {m : TupleMeta} {b : Bytes} {t : Nat}
    (hs : s.heap.slot r = some (m, b)) (hm : m.ts = .commit t) (ht : t ≤ s.lastCommitTs) :
    newestKey ix base s r = slotKey ix s r := by
  unfold newestKey keyAt slotKey
  rw [snapshot_newest (h.published r), hs, Option.bind_some]
  cases h.rows r with
  | absent slot => rw [hs] at slot; cases slot
  | idle m' b' t' slot stamp published covers =>
    rw [hs] at slot
    cases slot
    obtain ⟨tl, htl⟩ := covers.isPrefix
    cases hv : s.versionsOf base r with
    | nil => rw [hv] at htl; cases htl
    | cons v vs =>
      rw [hv, List.map_cons, List.cons_append] at htl
      have : v.data = live m.isDeleted b := (congrArg Prod.snd (List.cons.inj htl).1).symm
      rw [List.head?_cons, Option.bind_some, this]
  | dead b' slot _ new =>
    rw [hs] at slot
    cases slot
    rw [new]
    simp [live, TupleMeta.dead]
  | owned i txn m' b' slot stamp own =>
    rw [hs] at slot
    cases slot
    exact absurd (hm.symm.trans stamp).symm (currentStamp_ne_published ht)

theorem Inv.stamped (h : Inv base s) (hr : r ∈ s.stampedRids id) :
    ∃ m b, s.heap.slot r = some (m, b) ∧ m.ts = .commit (s.lastCommitTs + 1) ∧ s.Holds id r ∧ s.Runs id := by
  have hcur : s.currentStamp id r = .commit (s.lastCommitTs + 1) := by simp [currentStamp, hr]
  obtain ⟨t, ht, hrun, hkey⟩ := h.stamped_listed hr
  obtain ⟨m, b, hs, hm⟩ := h.held id t r ht (unfinished_of_running hrun) hkey
  exact ⟨m, b, hs, hm.trans hcur, ⟨m, b, hs, hm⟩, t, ht, hrun⟩

end

end TransactionManager

end Cmudb
