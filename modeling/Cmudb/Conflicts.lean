import Cmudb.Snapshot

/-!
# No lost updates

Of two transactions that ran at the same time and both wrote a record id, at
most one commits. The first writer's stamp makes the second writer fail, and a
version committed after its snapshot does too, so a version is only ever
replaced by a transaction whose snapshot has it.
-/

namespace Cmudb

def Before (es : List Event) (a b : Event) : Prop := ∃ l₁ l₂, es = l₁ ++ b :: l₂ ∧ a ∈ l₂

theorem before_cons {ev : Event} {es : List Event} {a b : Event} :
    Before (ev :: es) a b ↔ b = ev ∧ a ∈ es ∨ Before es a b := by
  constructor
  · rintro ⟨l₁, l₂, h, ha⟩
    cases l₁ with
    | nil => cases h; exact .inl ⟨rfl, ha⟩
    | cons c l₁ => cases h; exact .inr ⟨l₁, l₂, rfl, ha⟩
  · rintro (⟨rfl, ha⟩ | ⟨l₁, l₂, rfl, ha⟩)
    · exact ⟨[], es, rfl, ha⟩
    · exact ⟨ev :: l₁, l₂, rfl, ha⟩

theorem Before.mem {es : List Event} {a b : Event} (h : Before es a b) : a ∈ es ∧ b ∈ es := by
  obtain ⟨l₁, l₂, rfl, ha⟩ := h
  simp [ha]

theorem version_unique {vs : List Version} (h : vs.Pairwise fun v u => u.ts < v.ts) {v u : Version} (hv : v ∈ vs)
    (hu : u ∈ vs) (he : v.ts = u.ts) : v = u := by
  induction vs with
  | nil => cases hv
  | cons w vs ih =>
    obtain ⟨h1, h2⟩ := List.pairwise_cons.mp h
    rcases List.mem_cons.mp hv with hv' | hv'
    · rcases List.mem_cons.mp hu with hu' | hu'
      · rw [hv', hu']
      · have := h1 u hu'; rw [hv'] at he; omega
    · rcases List.mem_cons.mp hu with hu' | hu'
      · have := h1 v hv'; rw [hu'] at he; omega
      · exact ih h2 hv' hu'

namespace TransactionManager

section
variable {base : RecordId → List Version} {s s' : TransactionManager} {a : Action} {id : Nat} {txn : Transaction}
  {r : RecordId}

def Holds (s : TransactionManager) (id : Nat) (r : RecordId) : Prop :=
  ∃ m b, s.heap.slot r = some (m, b) ∧ m.ts = s.currentStamp id r

/-- A transaction that owns a row has every committed version of it in its snapshot. -/
theorem Owned.seen {shown : Option Bytes} (h : Inv base s) (own : Owned base s r id txn shown) :
    ∀ u ∈ s.versionsOf base r, u.ts ≤ txn.readTs := by
  intro u hu
  cases own.undoable with
  | inserted _ _ new => rw [new] at hu; cases hu
  | replaced old rest _ _ chain _ _ seen =>
    obtain ⟨tl, htl⟩ := own.covers.isPrefix
    rw [chain, List.map_cons, List.cons_append] at htl
    have hsorted := h.sorted r
    cases hv : s.versionsOf base r with
    | nil => rw [hv] at hu; cases hu
    | cons v vs =>
      rw [hv] at htl hu hsorted
      rw [List.map_cons] at htl
      have hts : old.tmeta.ts = .commit v.ts := congrArg Prod.fst (List.cons.inj htl).1
      rw [hts] at seen
      have hle : v.ts ≤ txn.readTs := by simpa using seen
      rcases List.mem_cons.mp hu with rfl | hu
      · exact hle
      · exact Nat.le_trans (Nat.le_of_lt ((List.pairwise_cons.mp hsorted).1 u hu)) hle

structure ConflictInv (base : RecordId → List Version) (s : TransactionManager) : Prop where
  began : ∀ i ρ, .began i ρ ∈ s.events → ρ ≤ s.lastCommitTs ∧ ∃ t, s.txns i = some t ∧ t.readTs = ρ
  committed : ∀ i ts, .committed i ts ∈ s.events → ∃ t, s.txns i = some t ∧ t.state = .committed ∧
    t.commitTs = some ts
  writer : ∀ r, ∀ v ∈ s.versionsOf base r, ∀ i, v.writer = some i → .committed i v.ts ∈ s.events ∧
    ∃ t, s.txns i = some t ∧ ∀ u ∈ s.versionsOf base r, u.ts < v.ts → u.ts ≤ t.readTs
  wrote : ∀ i t r, s.txns i = some t → t.state = .committed → (latestWrite i r s.events).isSome →
    (∃ v ∈ s.versionsOf base r, v.writer = some i) ∨ s.Holds i r
  order : ∀ i ρ j ts, Before s.events (.began i ρ) (.committed j ts) →
    (∃ r, ∃ v ∈ s.versionsOf base r, v.writer = some j) → ρ < ts

/-- Two committed transactions that each began before the other committed wrote no common row. -/
theorem ConflictInv.disjoint (hc : ConflictInv base s) (h : Inv base s) {i j ρi ρj ti tj : Nat} (hij : i ≠ j)
    (hi : Before s.events (.began i ρi) (.committed j tj)) (hj : Before s.events (.began j ρj) (.committed i ti)) :
    ¬ ((latestWrite i r s.events).isSome ∧ (latestWrite j r s.events).isSome) := by
  -- a transaction whose version is committed, and one whose snapshot has that version
  have key : ∀ {a b ρ ta : Nat} {v : Version} {tb : Transaction}, v ∈ s.versionsOf base r → v.writer = some a →
      s.txns b = some tb → v.ts ≤ tb.readTs → Before s.events (.began b ρ) (.committed a ta) → False := by
    intro a b ρ ta v tb hv hw htb hle hb
    obtain ⟨hce, _⟩ := hc.writer r v hv a hw
    obtain ⟨t1, h1, _, h2⟩ := hc.committed a v.ts hce
    obtain ⟨t2, h3, _, h4⟩ := hc.committed a ta hb.mem.2
    rw [h1] at h3
    cases h3
    rw [h2] at h4
    cases h4
    obtain ⟨_, t3, h5, h6⟩ := hc.began b ρ hb.mem.1
    rw [htb] at h5
    cases h5
    have := hc.order b ρ a v.ts hb ⟨r, v, hv, hw⟩
    omega
  rintro ⟨hwi, hwj⟩
  obtain ⟨ti', hti, hsi, _⟩ := hc.committed i ti hj.mem.2
  obtain ⟨tj', htj, hsj, _⟩ := hc.committed j tj hi.mem.2
  rcases hc.wrote i ti' r hti hsi hwi with ⟨v, hv, hvw⟩ | hown
  · rcases hc.wrote j tj' r htj hsj hwj with ⟨u, hu, huw⟩ | ⟨m, b, hs, hm⟩
    · rcases Nat.lt_trichotomy v.ts u.ts with hlt | heq | hlt
      · obtain ⟨_, t, ht, hseen⟩ := hc.writer r u hu j huw
        exact key hv hvw ht (hseen v hv hlt) hj
      · rw [version_unique (h.sorted r) hv hu heq, huw] at hvw
        cases hvw
        exact hij rfl
      · obtain ⟨_, t, ht, hseen⟩ := hc.writer r v hv i hvw
        exact key hu huw ht (hseen u hu hlt) hi
    · obtain ⟨t, own⟩ := h.owner hs hm
      exact key hv hvw own.handle (own.seen h v hv) hj
  · obtain ⟨m, b, hs, hm⟩ := hown
    rcases hc.wrote j tj' r htj hsj hwj with ⟨u, hu, huw⟩ | ⟨m', b', hs', hm'⟩
    · obtain ⟨t, own⟩ := h.owner hs hm
      exact key hu huw own.handle (own.seen h u hu) hi
    · rw [hs] at hs'
      cases hs'
      exact hij (currentStamp_inj (hm.symm.trans hm'))

/-! ## One step -/

/-- The events of a step that commits nothing. -/
structure NoCommit (s s' : TransactionManager) : Prop where
  events : s'.events = s.events ∨ (∃ i ρ, s'.events = .began i ρ :: s.events ∧ ρ ≤ s'.lastCommitTs ∧
      ∃ t, s'.txns i = some t ∧ t.readTs = ρ) ∨
      ∃ i r new old, s'.events = .wrote i r new old :: s.events ∧ s'.Holds i r
  clock : s'.lastCommitTs = s.lastCommitTs
  handles : ∀ i t, s.txns i = some t → ∃ t', s'.txns i = some t' ∧ Kept t t'
  back : ∀ i t', s'.txns i = some t' → t'.state = .committed → ∃ t, s.txns i = some t ∧ t.state = .committed
  holds : ∀ i t r, s.txns i = some t → t.state = .committed → s.Holds i r → s'.Holds i r

theorem NoCommit.versionsOf (hn : NoCommit s s') (r : RecordId) : s'.versionsOf base r = s.versionsOf base r := by
  unfold TransactionManager.versionsOf
  rcases hn.events with he | ⟨i, ρ, he, _⟩ | ⟨i, r', new, old, he, _⟩ <;> rw [he]
  · rfl
  · rfl

theorem NoCommit.mem_committed (hn : NoCommit s s') {i ts : Nat} :
    .committed i ts ∈ s'.events ↔ .committed i ts ∈ s.events := by
  rcases hn.events with he | ⟨i, ρ, he, _⟩ | ⟨i, r', new, old, he, _⟩ <;> rw [he]
  · simp
  · simp

theorem NoCommit.before (hn : NoCommit s s') {a : Event} {j ts : Nat} (h : Before s'.events a (.committed j ts)) :
    Before s.events a (.committed j ts) := by
  rcases hn.events with he | ⟨i, ρ, he, _⟩ | ⟨i, r', new, old, he, _⟩ <;> rw [he] at h
  · exact h
  · rcases before_cons.mp h with ⟨hb, _⟩ | hb
    · cases hb
    · exact hb
  · rcases before_cons.mp h with ⟨hb, _⟩ | hb
    · cases hb
    · exact hb

theorem ConflictInv.noCommit (hc : ConflictInv base s) (hn : NoCommit s s') : ConflictInv base s' where
  began := by
    intro i ρ hm
    have hold : .began i ρ ∈ s.events → ρ ≤ s'.lastCommitTs ∧ ∃ t, s'.txns i = some t ∧ t.readTs = ρ := fun hm => by
      obtain ⟨h1, t, h2, h3⟩ := hc.began i ρ hm
      obtain ⟨t', h4, h5⟩ := hn.handles i t h2
      exact ⟨by rw [hn.clock]; exact h1, t', h4, h5.readTs.trans h3⟩
    rcases hn.events with he | ⟨i', ρ', he, hle, ht⟩ | ⟨i', r', new, old, he, _⟩ <;> rw [he] at hm
    · exact hold hm
    · rcases List.mem_cons.mp hm with heq | hm
      · cases heq; exact ⟨hle, ht⟩
      · exact hold hm
    · rcases List.mem_cons.mp hm with heq | hm
      · cases heq
      · exact hold hm
  committed := by
    intro i ts hm
    obtain ⟨t, h1, h2, h3⟩ := hc.committed i ts (hn.mem_committed.mp hm)
    obtain ⟨t', h4, h5⟩ := hn.handles i t h1
    obtain ⟨h6, h7⟩ := h5.closed (by simp [Transaction.unfinished, h2])
    exact ⟨t', h4, h6.trans h2, h7.trans h3⟩
  writer := by
    intro r v hv i hw
    rw [hn.versionsOf] at hv ⊢
    obtain ⟨h1, t, h2, h3⟩ := hc.writer r v hv i hw
    obtain ⟨t', h4, h5⟩ := hn.handles i t h2
    exact ⟨hn.mem_committed.mpr h1, t', h4, fun u hu hlt => by rw [h5.readTs]; exact h3 u hu hlt⟩
  wrote := by
    intro i t' r ht' hst hw
    rw [hn.versionsOf]
    obtain ⟨t, ht, hst'⟩ := hn.back i t' ht' hst
    have hold : (latestWrite i r s.events).isSome →
        (∃ v ∈ s.versionsOf base r, v.writer = some i) ∨ s'.Holds i r := fun hw =>
      (hc.wrote i t r ht hst' hw).imp_right (hn.holds i t r ht hst')
    rcases hn.events with he | ⟨i', ρ', he, _⟩ | ⟨i', r', new, old, he, hh⟩ <;> rw [he] at hw
    · exact hold hw
    · exact hold hw
    · rw [latestWrite_wrote] at hw
      split at hw
      · rename_i heq
        rw [← heq.1, ← heq.2]
        exact .inr hh
      · exact hold hw
  order := by
    intro i ρ j ts hb hv
    refine hc.order i ρ j ts (hn.before hb) ?_
    obtain ⟨r, v, hv, hw⟩ := hv
    rw [hn.versionsOf] at hv
    exact ⟨r, v, hv, hw⟩

theorem Holds.congr {i : Nat} (hs : s'.heap.slot r = s.heap.slot r)
    (hc : s'.currentStamp i r = s.currentStamp i r) :
    s'.Holds i r ↔ s.Holds i r := by
  unfold Holds
  rw [hs, hc]

theorem Quiet.holds (hq : Quiet s s') (i : Nat) (r : RecordId) : s'.Holds i r ↔ s.Holds i r :=
  Holds.congr (by rw [hq.heap]) (hq.stamp i r)

theorem Quiet.back_committed (hq : Quiet s s') {i : Nat} {t' : Transaction} (ht : s'.txns i = some t')
    (hst : t'.state = .committed) : ∃ t, s.txns i = some t ∧ t.state = .committed := by
  obtain ⟨t, h1, h2⟩ := hq.back ht
  have : t.unfinished = false := by rw [← h2.unfinished]; simp [Transaction.unfinished, hst]
  exact ⟨t, h1, (h2.closed this).1.symm.trans hst⟩

theorem Wrote.back_committed {rid : RecordId} {new : Option Bytes} {old : Option Replaced}
    (hw : Wrote s s' id txn rid new old) (ht : s.txns id = some txn) {i : Nat} {t' : Transaction}
    (ht' : s'.txns i = some t') (hst : t'.state = .committed) : ∃ t, s.txns i = some t ∧ t.state = .committed := by
  by_cases hi : i = id
  · subst hi
    rw [hw.handle] at ht'
    cases ht'
    exact ⟨txn, ht, by simpa using hst⟩
  · rw [hw.handles i hi] at ht'
    exact ⟨t', ht', hst⟩

/-- A write leaves the writer holding the row, and every other holding as it was. -/
theorem Wrote.holds_self {rid : RecordId} {new : Option Bytes} {old : Option Replaced}
    (hw : Wrote s s' id txn rid new old) (he : s.ending id = false) : s'.Holds id rid := by
  obtain ⟨b, hb⟩ := hw.slot
  exact ⟨_, _, hb, by rw [hw.stamp, currentStamp_of_not_ending he]⟩

theorem Wrote.holds {rid : RecordId} {new : Option Bytes} {old : Option Replaced}
    (hw : Wrote s s' id txn rid new old) (he : s.ending id = false)
    (hother : ∀ i, i ≠ id → ∀ m b, s.heap.slot rid = some (m, b) → m.ts ≠ s.currentStamp i rid)
    {i : Nat} {r : RecordId} (hh : s.Holds i r) : s'.Holds i r := by
  by_cases hr : r = rid
  · subst hr
    by_cases hi : i = id
    · subst hi; exact hw.holds_self he
    · obtain ⟨m, b, h1, h2⟩ := hh
      exact absurd h2 (hother i hi m b h1)
  · exact (Holds.congr (hw.slots r hr) (hw.stamp i r)).mpr hh

/-- A slot with the stamp of an uncommitted transaction is not one that a committed one holds. -/
theorem Holds.ne_stamped {i : Nat} {t : Transaction} {rid : RecordId} {m : TupleMeta} {b : Bytes} (hh : s.Holds i r)
    (hi : s.txns i = some t) (hst : t.state = .committed) (ht : s.txns id = some txn)
    (hu : txn.state ≠ .committed) (hs : s.heap.slot rid = some (m, b)) (hm : m.ts = s.currentStamp id rid) :
    i ≠ id ∧ r ≠ rid := by
  have hne : i ≠ id := by
    rintro rfl
    rw [ht] at hi
    cases hi
    exact hu hst
  refine ⟨hne, ?_⟩
  rintro rfl
  obtain ⟨m', b', h1, h2⟩ := hh
  rw [hs] at h1
  cases h1
  exact hne (currentStamp_inj (h2.symm.trans hm))

theorem Inv.commits_or_not (h : Inv base s) (hc : Change a s s') :
    NoCommit s s' ∨ ∃ id txn last, s.txns id = some txn ∧
      Ending s s' id txn (.committed id last :: s.events) last ∧
      Ended s s' id txn (.committed id last :: s.events) last := by
  have hkept := fun i t hi => hc.kept h.handles.fresh (i := i) (t := t) hi
  cases hc with
  | quiet hq =>
    exact .inl ⟨.inl hq.events, hq.clock, hkept, fun i t' => hq.back_committed, fun i t r _ _ => (hq.holds i r).mpr⟩
  | begun hb =>
    subst hb
    refine .inl
      ⟨.inr (.inl ⟨_, _, rfl, Nat.le_refl _, .new s.lastCommitTs, by simp [TransactionManager.begin], rfl⟩), rfl,
      hkept, fun i t' ht' hst => ?_, fun i t r _ _ => id⟩
    by_cases hi : i = s.nextTxnId
    · subst hi
      simp only [TransactionManager.begin, Function.update_self, Option.some.injEq] at ht'
      subst ht'
      cases hst
    · simp only [TransactionManager.begin, Function.update_of_ne hi] at ht'
      exact ⟨t', ht', hst⟩
  | updated id txn txn' rid new s₁ m b undo _ caller logged latch handle plan slot hw =>
    obtain ⟨ht, he⟩ := caller_eq caller
    have he₁ : s₁.ending id = false := by unfold ending at he ⊢; rw [latch]; exact he
    have hother : ∀ i, i ≠ id → ∀ m b, s₁.heap.slot rid = some (m, b) → m.ts ≠ s₁.currentStamp i rid := by
      intro i hi m' b' hs
      rw [logged.heap, slot.old] at hs
      cases hs
      rw [logged.stamp]
      refine currentStamp_ne h ht ?_ hi rid
      rcases (planVersion_ok plan).1 with ⟨h1, _⟩ | ⟨h1, _⟩
      · exact .inl h1
      · exact .inr h1
    refine .inl ⟨.inr (.inr ⟨id, rid, new, _, by rw [hw.events, logged.events], hw.holds_self he₁⟩),
      hw.clock.trans logged.clock, hkept, fun i t' ht' hst => ?_, fun i t r _ _ hh => ?_⟩
    · obtain ⟨t₁, h1, h2⟩ := hw.back_committed handle ht' hst
      exact logged.back_committed h1 h2
    · exact hw.holds he₁ hother ((logged.holds i r).mpr hh)
  | inserted id txn table rid data _ caller slot hw =>
    obtain ⟨ht, he⟩ := caller_eq caller
    refine .inl ⟨.inr (.inr ⟨id, rid, _, _, hw.events, hw.holds_self he⟩), hw.clock, hkept,
      fun i t' => hw.back_committed ht, fun i t r _ _ => hw.holds he fun i _ m b hs => ?_⟩
    rw [slot.old] at hs
    cases hs
  | restamped id txn rid m b holder handle running key before slot others rest =>
    refine .inl ⟨.inl (by rw [rest]), by rw [rest], hkept,
      fun i t' ht' hst => ⟨t', by rw [rest] at ht'; exact ht', hst⟩,
      fun i t r ht hst hh => ?_⟩
    obtain ⟨hi, hr⟩ := hh.ne_stamped ht hst handle (by simp [running]) slot.old before
    exact (Holds.congr (slot.frame r hr) (others i r fun h => absurd h hi)).mpr hh
  | ended id txn es last handle _ how he =>
    cases how with
    | readOnly caller running nothing final after =>
      exact .inr ⟨id, txn, _, handle, .readOnly caller running nothing final after, he⟩
    | published done latch running all final after =>
      exact .inr ⟨id, txn, _, handle, .published done latch running all final after, he⟩
    | aborted latch tainted final after =>
      have hstamp : ∀ i r, s'.currentStamp i r = s.currentStamp i r := fun i r => by
        simp [currentStamp, stampedRids, after, latch]
      refine .inl ⟨.inl he.events, he.clock, hkept, fun i t' ht' hst => ?_,
        fun i t r _ _ => (Holds.congr (by rw [he.heap]) (hstamp i r)).mpr⟩
      by_cases hi : i = id
      · subst hi
        rw [final] at ht'
        cases ht'
        cases hst
      · rw [he.handles i hi] at ht'
        exact ⟨t', ht', hst⟩
  | restored id txn rid p s₁ latch handle tainted key hok rest =>
    obtain ⟨hr, m, b, hs, hm, _⟩ := restore_ok hok
    have hstamp : ∀ i r, s'.currentStamp i r = s.currentStamp i r := fun i r => by
      rw [rest]; simp [currentStamp, stampedRids, latch]
    refine .inl ⟨.inl (by rw [rest]; exact hr.events), by rw [rest]; exact hr.clock, hkept, fun i t' ht' hst => ?_,
      fun i t r ht hst hh => ?_⟩
    · rw [rest] at ht'
      obtain ⟨t, ht, hsame⟩ := hr.back handle ht'
      exact ⟨t, ht, hsame.symm.trans hst⟩
    · have hstamped : m.ts = s.currentStamp id rid := by simp [hm, currentStamp, stampedRids, latch]
      obtain ⟨-, hne⟩ := hh.ne_stamped ht hst handle (by simp [tainted]) hs hstamped
      exact (Holds.congr (by rw [rest]; exact hr.slots r hne) (hstamp i r)).mpr hh
  | swept w rid pass hok =>
    unfold TransactionManager.collectSlot at hok
    split at hok
    · cases hok
    · cases hok
      exact .inl ⟨.inl rfl, rfl, hkept, fun i t' ht hst => ⟨t', ht, hst⟩, fun i t r _ _ hh => hh⟩
  | passes hp =>
    refine .inl ⟨.inl (by rw [hp]), by rw [hp], hkept, fun i t' ht hst => ⟨t', by rw [hp] at ht; exact ht, hst⟩,
      fun i t r _ _ => (Holds.congr (by rw [hp]) (by rw [hp]; rfl)).mpr⟩

theorem ConflictInv.commits {last : Nat} (hc : ConflictInv base s) (h : Inv base s) (ht : s.txns id = some txn)
    (how : Ending s s' id txn (.committed id last :: s.events) last)
    (he : Ended s s' id txn (.committed id last :: s.events) last)
    (hkept : ∀ i t, s.txns i = some t → ∃ t', s'.txns i = some t' ∧ Kept t t')
    (hholds : ∀ i, i ≠ id → ∀ r, s.Holds i r → s'.Holds i r) : ConflictInv base s' := by
  obtain ⟨hrun, hfinal, hle, hlt⟩ : txn.state = .running ∧
      s'.txns id = some (txn.finish .committed (some last)) ∧ s.lastCommitTs ≤ last ∧
      ((∃ r, (latestWrite id r s.events).isSome) → s.lastCommitTs < last) := by
    generalize hes : Event.committed id last :: s.events = es at how
    cases how with
    | readOnly _ running nothing final =>
      refine ⟨running, final, Nat.le_refl _, fun hwrote => ?_⟩
      obtain ⟨r, hw⟩ := hwrote
      rw [h.nothing_written ht running nothing r] at hw
      cases hw
    | published _ _ running _ final => exact ⟨running, final, Nat.le_succ _, fun _ => Nat.lt_succ_self _⟩
    | aborted => exact absurd hes (by simp)
  have hnot : ∀ ts, .committed id ts ∉ s.events := fun ts hm => by
    obtain ⟨t, h1, h2, _⟩ := hc.committed id ts hm
    rw [ht] at h1
    cases h1
    rw [hrun] at h2
    cases h2
  have hmem : ∀ r v, v ∈ s'.versionsOf base r →
      (v.ts = last ∧ v.writer = some id ∧ (latestWrite id r s.events).isSome) ∨ v ∈ s.versionsOf base r := by
    intro r v hv
    cases hw : latestWrite id r s.events with
    | none => exact .inr (versionsOf_committed_none he.events hw ▸ hv)
    | some new =>
      rw [versionsOf_committed_some he.events hw] at hv
      rcases List.mem_cons.mp hv with rfl | hv
      · exact .inl ⟨rfl, rfl, rfl⟩
      · exact .inr hv
  have hsub : ∀ r v, v ∈ s.versionsOf base r → v ∈ s'.versionsOf base r := by
    intro r v hv
    cases hw : latestWrite id r s.events with
    | none => rw [versionsOf_committed_none he.events hw]; exact hv
    | some new => rw [versionsOf_committed_some he.events hw]; exact List.mem_cons_of_mem _ hv
  constructor
  case began =>
    intro i ρ hm
    rw [he.events] at hm
    rcases List.mem_cons.mp hm with heq | hm
    · cases heq
    · obtain ⟨h1, t, h2, h3⟩ := hc.began i ρ hm
      obtain ⟨t', h4, h5⟩ := hkept i t h2
      exact ⟨by rw [he.clock]; exact Nat.le_trans h1 hle, t', h4, h5.readTs.trans h3⟩
  case committed =>
    intro i ts hm
    rw [he.events] at hm
    rcases List.mem_cons.mp hm with heq | hm
    · cases heq
      exact ⟨_, hfinal, rfl, rfl⟩
    · obtain ⟨t, h1, h2, h3⟩ := hc.committed i ts hm
      obtain ⟨t', h4, h5⟩ := hkept i t h1
      obtain ⟨h6, h7⟩ := h5.closed (by simp [Transaction.unfinished, h2])
      exact ⟨t', h4, h6.trans h2, h7.trans h3⟩
  case writer =>
    intro r v hv i hw
    rcases hmem r v hv with ⟨hts, hwr, hwrote⟩ | hold
    · rw [hwr] at hw
      cases hw
      rw [he.events, hts]
      refine ⟨by simp, _, hfinal, fun u hu hlt' => ?_⟩
      rcases hmem r u hu with ⟨hts', _⟩ | hu
      · omega
      · obtain ⟨m, b, hs, hm, own⟩ :=
          h.owned_of_held ht (unfinished_of_running hrun) (h.written id txn r ht hrun hwrote)
        exact own.seen h u hu
    · obtain ⟨h1, t, h2, h3⟩ := hc.writer r v hold i hw
      obtain ⟨t', h4, h5⟩ := hkept i t h2
      refine ⟨by rw [he.events]; exact List.mem_cons_of_mem _ h1, t', h4, fun u hu hlt' => ?_⟩
      rcases hmem r u hu with ⟨hts, _⟩ | hu
      · have := h.published r v hold
        omega
      · rw [h5.readTs]; exact h3 u hu hlt'
  case wrote =>
    intro i t' r ht' hst hw
    rw [he.events, latestWrite_committed] at hw
    by_cases hi : i = id
    · subst hi
      cases hw' : latestWrite i r s.events with
      | none => rw [hw'] at hw; cases hw
      | some new => exact .inl ⟨⟨last, some i, new⟩, by rw [versionsOf_committed_some he.events hw']; simp, rfl⟩
    · rw [he.handles i hi] at ht'
      rcases hc.wrote i t' r ht' hst hw with ⟨v, hv, hvw⟩ | hh
      · exact .inl ⟨v, hsub r v hv, hvw⟩
      · exact .inr (hholds i hi r hh)
  case order =>
    rintro i ρ j ts hb ⟨r, v, hv, hvw⟩
    rw [he.events] at hb
    rcases before_cons.mp hb with ⟨heq, hm⟩ | hb
    · cases heq
      have hwrote : ∃ r, (latestWrite id r s.events).isSome := by
        rcases hmem r v hv with ⟨_, _, hw⟩ | hv
        · exact ⟨r, hw⟩
        · exact absurd (hc.writer r v hv id hvw).1 (hnot _)
      exact Nat.lt_of_le_of_lt (hc.began i ρ hm).1 (hlt hwrote)
    · refine hc.order i ρ j ts hb ?_
      rcases hmem r v hv with ⟨_, hwr, _⟩ | hv
      · rw [hwr] at hvw
        cases hvw
        exact absurd hb.mem.2 (hnot ts)
      · exact ⟨r, v, hv, hvw⟩

theorem ConflictInv.step (hc : ConflictInv base s) (h : Inv base s) (hok : PutBack s a)
    (hstep : s.step a = some s') : ConflictInv base s' := by
  have hchange := h.change hok hstep
  rcases h.commits_or_not hchange with hn | ⟨id, txn, last, ht, how, he⟩
  · exact hc.noCommit hn
  · refine hc.commits h ht how he (fun i t hi => hchange.kept h.handles.fresh hi) fun i hi r => ?_
    exact (Holds.congr (by rw [he.heap]) (he.stamp_of_ne how hi r)).mpr

theorem Initial.conflictInv (h : s.Initial) : ConflictInv s.base s where
  began := by intro i ρ hm; rw [h.events] at hm; cases hm
  committed := by intro i ts hm; rw [h.events] at hm; cases hm
  writer := by
    intro r v hv i hw
    have hb : s.versionsOf s.base r = s.base r := by simp [versionsOf, h.events, history]
    rw [hb] at hv
    unfold TransactionManager.base at hv
    split at hv
    · rw [List.mem_singleton.mp hv] at hw; cases hw
    · cases hv
  wrote := by intro i t r ht; rw [h.txns] at ht; cases ht
  order := by
    intro i ρ j ts hb
    have := hb.mem.1
    rw [h.events] at this
    cases this

theorem ConflictInv.run {s₀ : TransactionManager} (h₀ : s₀.Initial)
    (hr : Lib.Steps TransactionManager.step PutBack s₀ s) : ConflictInv s₀.base s := by
  suffices Inv s₀.base s ∧ ConflictInv s₀.base s from this.2
  exact hr.invariant (P := fun s => Inv s₀.base s ∧ ConflictInv s₀.base s)
    (fun h hok hs => ⟨h.1.step hok hs, h.2.step h.1 hok hs⟩) ⟨h₀.inv, h₀.conflictInv⟩

end

end TransactionManager

namespace Engine

/-- Of two transactions that commit, each begun before the other committed, no record id is
written by both; and whoever replaces a committed version has it in its snapshot. -/
theorem no_lost_updates {cat : Catalog} {e₀ e : Engine} (h₀ : e₀.Initial)
    (hr : Lib.Steps (step cat) (fun e a => e.noStorageFailure a = true) e₀ e) :
    (∀ i j ρi ρj ti tj, i ≠ j →
      Before e.mgr.events (.began i ρi) (.committed j tj) → Before e.mgr.events (.began j ρj) (.committed i ti) →
      ∀ r, ¬ ((latestWrite i r e.mgr.events).isSome ∧ (latestWrite j r e.mgr.events).isSome)) ∧
    (∀ r l v u l', history e₀.mgr.base r e.mgr.events = l ++ v :: u :: l' → ∀ i, v.writer = some i →
      ∃ txn, e.mgr.txns i = some txn ∧ u.ts ≤ txn.readTs) := by
  have hok : ∀ (e : Engine) a, e.noStorageFailure a = true → e.putBack a = true :=
    fun _ _ => noStorageFailure_putBack
  have hinv := run_inv hok h₀ hr
  have hc :=
    TransactionManager.ConflictInv.run h₀.mgr (steps_mgr hok (fun e _ _ ha hs => putBack_mgr (hok e _ ha) hs) hr)
  refine ⟨fun i j ρi ρj ti tj hij hi hj r => hc.disjoint hinv hij hi hj, fun r l v u l' hl i hw => ?_⟩
  have hv : v ∈ e.mgr.versionsOf e₀.mgr.base r := by simp [TransactionManager.versionsOf, hl]
  have hu : u ∈ e.mgr.versionsOf e₀.mgr.base r := by simp [TransactionManager.versionsOf, hl]
  have hlt : u.ts < v.ts := by
    have := hinv.sorted r
    simp only [TransactionManager.versionsOf, hl] at this
    have := (List.pairwise_append.mp this).2.1
    exact (List.pairwise_cons.mp this).1 u (by simp)
  obtain ⟨_, t, ht, hseen⟩ := hc.writer r v hv i hw
  exact ⟨t, ht, hseen u hu hlt⟩

/-- Two transactions that overlap and commit, each with a row of its own. -/
theorem no_lost_updates_overlapping :
    ∃ e, Lib.Steps (step ⟨[], List.nodup_nil⟩) (fun e a => e.noStorageFailure a = true) oneTable e ∧
      (.committed 0 1 ∈ e.mgr.events ∧ .committed 1 2 ∈ e.mgr.events) ∧
      ∀ r, ¬ ((latestWrite 0 r e.mgr.events).isSome ∧ (latestWrite 1 r e.mgr.events).isSome) := by
  obtain ⟨e, hr, hp⟩ : ∃ e, Lib.Steps (step ⟨[], List.nodup_nil⟩) (fun e a =>
      e.noStorageFailure a = true) oneTable e ∧
      (e.mgr.events == [.committed 1 2, .committed 0 1, .wrote 1 ⟨0, 1⟩ (some [8]) none,
        .wrote 0 ⟨0, 0⟩ (some [7]) none, .began 1 0, .began 0 0]) = true :=
    Lib.exists_steps [.mgr .begin, .mgr .begin, .call 0 (.insertTuple 0 [7]), .run 0 1 false, .run 0 1 false,
      .call 1 (.insertTuple 0 [8]), .run 1 1 false, .run 1 1 false, .mgr (.commit 0), .mgr (.stamp ⟨0, 0⟩ false),
      .mgr .publish, .mgr (.commit 1), .mgr (.stamp ⟨0, 1⟩ false), .mgr .publish] (by decide)
  have he := eq_of_beq hp
  refine ⟨e, hr, by simp [he], (no_lost_updates oneTable_initial hr).1 0 1 0 0 1 2 (by decide) ?_ ?_⟩
  · exact ⟨[], _, he, by simp⟩
  · exact ⟨[.committed 1 2], _, he, by simp⟩

end Engine

end Cmudb
