import Cmudb.Owners

/-!
# Aborts restore the past

The whole `abort` call, with the order in which it takes the write set and the
record ids storage fails at as parameters. In every state a run reaches, as
long as no slot of a failed commit was left stamped, it succeeds when storage
does, every row gets back what it had before the transaction's first write, and
a call that failed halfway can be made again.
-/

namespace Cmudb

def Outcome.forget (rid : RecordId) : Outcome → Outcome
  | abort id todo => abort id (todo.filter fun e => e.1 ≠ rid)
  | o => o

namespace TransactionManager

def restoreAll (s : TransactionManager) (id : Nat) (fails : RecordId → Bool) :
    List (RecordId × Bool) → TransactionManager × Except TxnError Unit
  | [] => match s.txns id with
    | some txn => (s.finishAbort id txn, .ok ())
    | none => (s, .ok ())
  | (rid, pushedUndo) :: rest =>
    if fails rid then ({ s with commitLatch := none }, .error (.storage .bpm))
    else match s.restore id rid pushedUndo with
      | .error e => ({ s with commitLatch := none }, .error e)
      | .ok s => restoreAll { s with commitLatch := s.commitLatch.map (Outcome.forget rid) } id fails rest

/-- `abort`, which finds its write set in some order. -/
def abort (s : TransactionManager) (id : Nat) (txn : Transaction) (order : List (RecordId × Bool))
    (fails : RecordId → Bool) : TransactionManager × Except TxnError Unit :=
  if txn.unfinished then
    restoreAll { s.modifyTxn id (·.setTainted) with commitLatch := some (.abort id txn.writeSet) } id fails order
  else (s, .error (.invalidState txn.state))

def rolledBack (s : TransactionManager) (r : RecordId) (pushedUndo : Bool) :
    Option (TupleMeta × Bytes) × List UndoLog :=
  match pushedUndo, s.versions r with
  | true, head :: rest => (some (⟨head.ts, head.isDeleted⟩, head.data), rest)
  | _, _ => ((s.heap.slot r).map fun v => (.dead, v.2), s.versions r)

section
variable {base : RecordId → List Version} {s s' : TransactionManager} {id : Nat} {txn : Transaction}
  {r rid : RecordId}

/-- Each row of the write set can be put back: its stamp, its chain and the room on its page are there. -/
theorem Inv.restore_succeeds (h : Inv base s) {todo : List (RecordId × Bool)} {p : Bool}
    (hl : s.commitLatch = some (.abort id todo)) (hmem : (rid, p) ∈ todo) : ∃ s', s.restore id rid p = .ok s' := by
  obtain ⟨t, ht, hst, rfl⟩ := h.latch.aborting hl
  have hu := unfinished_of_tainted hst
  have hkey : rid ∈ t.writeSet.map Prod.fst := List.mem_map.mpr ⟨_, hmem, rfl⟩
  obtain ⟨m, b, hs, hm, own⟩ := h.owned_of_held ht hu hkey
  have hts : m.ts = .txn id := by rw [hm]; simp [currentStamp, stampedRids, hl]
  have hnd := (h.handles id t ht).2.2
  have fits : ∀ (w : SlotWrite) (popped : Option (List UndoLog)), planRestore id rid p (s.versions rid) m b =
      .ok (w, popped) →
      (∀ d, w.data = some d → d.length ≤ s.heap.capacity rid) → ∃ s', s.restore id rid p = .ok s' := by
    intro w popped hplan hd
    obtain ⟨heap, hw⟩ : ∃ heap, s.heap.writeSlotThen TxnError.storage rid (planRestore id rid p (s.versions rid)) =
        .ok (heap, popped) := Heap.writeSlotThen_fits hs hplan hd
    unfold restore
    rw [hw]
    exact ⟨_, rfl⟩
  cases own.undoable with
  | inserted listed =>
    cases flag_unique hnd hmem (listed hu)
    exact fits ⟨.dead, none⟩ none (by simp [planRestore, hts]) fun d hd => by cases hd
  | replaced old rest listed saved chain tail room seen =>
    cases flag_unique hnd hmem (listed hu)
    refine fits ⟨⟨old.tmeta.ts, old.tmeta.isDeleted⟩, some old.data⟩ (some rest)
      (by simp [planRestore, hts, chain]) fun d hd => ?_
    cases hd
    exact room

theorem restore_rolledBack {p : Bool} (hok : s.restore id rid p = .ok s') :
    (s'.heap.slot rid, s'.versions rid) = s.rolledBack rid p := by
  obtain ⟨_, m, b, hs, _, hcase⟩ := restore_ok hok
  unfold rolledBack
  rcases hcase with ⟨rfl, hslot, hv⟩ | ⟨rfl, head, hv, hslot⟩
  · simp [hslot, hv, hs]
  · simp [hslot, hv]

/-- What is left when the loop stops after `done`: those rows are rolled back, the others as they were. -/
structure RolledBack (s s' : TransactionManager) (done : List (RecordId × Bool)) : Prop where
  restored : ∀ r p, (r, p) ∈ done → (s'.heap.slot r, s'.versions r) = s.rolledBack r p
  others : ∀ r, r ∉ done.map Prod.fst → s'.heap.slot r = s.heap.slot r ∧ s'.versions r = s.versions r
  events : s'.events = s.events

theorem RolledBack.nil (hh : s'.heap = s.heap) (hv : s'.versions = s.versions) (he : s'.events = s.events) :
    RolledBack s s' [] :=
  ⟨fun r p hm => by (cases hm), fun r _ => ⟨by rw [hh], by rw [hv]⟩, he⟩

theorem RolledBack.cons {s₁ : TransactionManager} {p : Bool} {done : List (RecordId × Bool)}
    (hok : s.restore id rid p = .ok s₁) (hnot : rid ∉ done.map Prod.fst)
    (h : RolledBack { s₁ with commitLatch := s₁.commitLatch.map (Outcome.forget rid) } s' done) :
    RolledBack s s' ((rid, p) :: done) := by
  obtain ⟨hr, _⟩ := restore_ok hok
  refine ⟨fun r q hm => ?_, fun r hn => ?_, h.events.trans hr.events⟩
  · rcases List.mem_cons.mp hm with heq | hq
    · cases heq
      obtain ⟨h1, h2⟩ := h.others rid hnot
      rw [h1, h2]
      have hrow := restore_rolledBack hok
      exact hrow
    · have hne : r ≠ rid := by
        rintro rfl
        exact hnot (List.mem_map.mpr ⟨(r, q), hq, rfl⟩)
      rw [h.restored r q hq]
      simp only [rolledBack, hr.slots r hne, hr.versions r hne]
  · simp only [List.map_cons, List.mem_cons, not_or] at hn
    obtain ⟨h1, h2⟩ := h.others r hn.2
    exact ⟨h1.trans (hr.slots r hn.1), h2.trans (hr.versions r hn.1)⟩

theorem perm_filter_cons {p : Bool} {order todo : List (RecordId × Bool)} (hp : ((rid, p) :: order).Perm todo)
    (hnd : (todo.map Prod.fst).Nodup) : order.Perm (todo.filter fun e => e.1 ≠ rid) := by
  have hnd' : (((rid, p) :: order).map Prod.fst).Nodup := (hp.map Prod.fst).nodup_iff.mpr hnd
  have hf := hp.filter fun e => decide (e.1 ≠ rid)
  have : ((rid, p) :: order).filter (fun e => decide (e.1 ≠ rid)) = order := by
    rw [List.filter_cons_of_neg (by simp), List.filter_eq_self]
    intro e he
    simp only [decide_eq_true_eq]
    rintro rfl
    exact (List.nodup_cons.mp hnd').1 (List.mem_map.mpr ⟨e, he, rfl⟩)
  rwa [this] at hf

/-- The loop of an abort: it stops at the first storage failure and nowhere else. -/
theorem Inv.restoreAll (fails : RecordId → Bool) : ∀ {order todo : List (RecordId × Bool)} {s : TransactionManager},
    Inv base s → s.commitLatch = some (.abort id todo) → order.Perm todo →
    (∃ s', s.restoreAll id fails order = (s', .ok ()) ∧ RolledBack s s' order ∧
        ∃ t, s'.txns id = some t ∧ t.state = .aborted) ∨
      (∃ s' done rest, s.restoreAll id fails order = (s', .error (.storage .bpm)) ∧ order = done ++ rest ∧
        RolledBack s s' done ∧ Inv base s' ∧ s'.commitLatch = none ∧ (∃ e ∈ rest, fails e.1 = true) ∧
        ∃ t, s'.txns id = some t ∧ t.state = .tainted ∧ t.writeSet.Perm rest) := by
  intro order
  induction order with
  | nil =>
    intro todo s h hl hp
    obtain ⟨t, ht, hst, rfl⟩ := h.latch.aborting hl
    have he := finishAbort_ended ht
    refine .inl ⟨s.finishAbort id t, by simp [TransactionManager.restoreAll, ht],
      .nil he.heap he.versions he.events, _, finishAbort_handle ht, rfl⟩
  | cons en order ih =>
    obtain ⟨rid, p⟩ := en
    intro todo s h hl hp
    obtain ⟨t, ht, hst, rfl⟩ := h.latch.aborting hl
    have hnd := (h.handles id t ht).2.2
    have hnot : rid ∉ order.map Prod.fst := by
      have := (hp.map Prod.fst).nodup_iff.mpr hnd
      exact (List.nodup_cons.mp this).1
    by_cases hf : fails rid = true
    · refine .inr ⟨{ s with commitLatch := none }, [],
        (rid, p) :: order, by simp [TransactionManager.restoreAll, hf], rfl,
        .nil rfl rfl rfl, h.setLatch (fun j => by simp [stampedRids, hl]) (.inl rfl), rfl,
        ⟨(rid, p), by simp, hf⟩, t, ht, hst, ?_⟩
      exact hp.symm
    · obtain ⟨s₁, hok⟩ := h.restore_succeeds hl (hp.mem_iff.mp (by simp : (rid, p) ∈ (rid, p) :: order))
      obtain ⟨hr, _⟩ := restore_ok hok
      have h₁ := h.restored hl (hp.mem_iff.mp (by simp)) hok
      have hlatch : s₁.commitLatch.map (Outcome.forget rid) =
          some (.abort id (t.writeSet.filter fun e => e.1 ≠ rid)) := by
        rw [hr.latch, hl]; rfl
      have hloop : s.restoreAll id fails ((rid, p) :: order) =
          ({ s₁ with commitLatch := s₁.commitLatch.map (Outcome.forget rid) }).restoreAll id fails order := by
        simp only [TransactionManager.restoreAll, hok]
        rw [if_neg hf]
      rw [hloop]
      rw [← hlatch] at h₁
      rcases ih h₁ hlatch (perm_filter_cons hp hnd) with ⟨s', h1, h2, h3⟩ | ⟨s', done, rest, h1, h2, h3, h4⟩
      · exact .inl ⟨s', h1, h2.cons hok hnot, h3⟩
      · refine .inr ⟨s', (rid, p) :: done, rest, h1, by rw [h2]; rfl, h3.cons hok ?_, h4⟩
        intro hm
        rw [h2] at hnot
        exact hnot (by rw [List.map_append]; exact List.mem_append_left _ hm)

/-! ## Chains nothing was collected from -/

def WholeChain (s : TransactionManager) (id : Nat) (r : RecordId) : Prop :=
  ∀ txn, s.txns id = some txn → txn.unfinished = true → (r, true) ∈ txn.writeSet →
    ∃ old head, replacedBy id r s.events = some old ∧ s.versions r = head :: old.chain

theorem WholeChain.frame (hw : WholeChain s id r)
    (hback : ∀ t', s'.txns id = some t' → t'.unfinished = true → (r, true) ∈ t'.writeSet →
      ∃ t, s.txns id = some t ∧ t.unfinished = true ∧ (r, true) ∈ t.writeSet)
    (hsaved : replacedBy id r s'.events = replacedBy id r s.events)
    (hchain : s.Holds id r → s'.versions r = s.versions r) (h : Inv base s) : WholeChain s' id r := by
  intro t' ht' hu' hm'
  obtain ⟨t, ht, hu, hm⟩ := hback t' ht' hu' hm'
  rw [hsaved, hchain (h.held id t r ht hu (List.mem_map.mpr ⟨_, hm, rfl⟩))]
  exact hw t ht hu hm

theorem Inv.plan_other (h : Inv base s) {i : Nat} {t : Transaction} (ht : s.txns i = some t) (hi : i ≠ id)
    {new : Option Bytes} {m : TupleMeta} {b : Bytes} {w : SlotWrite} {undo : Option (TupleMeta × Bytes)}
    (hs : s.heap.slot r = some (m, b)) (hp : planVersion i t r new m b = .ok (w, undo)) : ¬ s.Holds id r := by
  rintro ⟨m', b', hs', hm'⟩
  rw [hs] at hs'
  cases hs'
  refine currentStamp_ne h ht ?_ hi.symm r hm'
  rcases (planVersion_ok hp).1 with ⟨hts, _⟩ | ⟨hts, _⟩
  · exact .inl hts
  · exact .inr hts

theorem recordWrite_old {p : Bool} {e : RecordId × Bool} (h : e ∈ (txn.recordWrite rid p).writeSet) :
    e ∈ txn.writeSet ∨ e = (rid, p) := by
  unfold Transaction.recordWrite at h
  split at h
  · exact .inl h
  · simpa using h

theorem WholeChain.change {a : Action} (hw : WholeChain s id r) (h : Inv base s) (hc : Change a s s')
    (hnot : ∀ w, a ≠ .collectSlot w r) : WholeChain s' id r := by
  cases hc with
  | quiet hq =>
    refine hw.frame (fun t' ht' hu' hm' => ?_) (by rw [hq.events]) (fun _ => by rw [hq.versions]) h
    obtain ⟨t, ht, hs⟩ := hq.back ht'
    exact ⟨t, ht, by rw [← hs.unfinished]; exact hu', by rw [← hs.writeSet]; exact hm'⟩
  | begun hb =>
    subst hb
    refine hw.frame (fun t' ht' hu' hm' => ?_) rfl (fun _ => rfl) h
    by_cases hi : id = s.nextTxnId
    · subst hi
      simp only [begin, Function.update_self, Option.some.injEq] at ht'
      subst ht'
      cases hm'
    · simp only [begin, Function.update_of_ne hi] at ht'
      exact ⟨t', ht', hu', hm'⟩
  | updated i t t' rid new s₁ m b undo _ caller logged _ handle plan slot wrote chain =>
    obtain ⟨ht, _⟩ := caller_eq caller
    obtain ⟨t₁, ht₁, hsame⟩ := logged.handles i t ht
    rw [handle] at ht₁
    cases ht₁
    have hsaved : replacedBy id r s'.events =
        if i = id ∧ rid = r ∧ undo.isSome then undo.map (fun u => ⟨u.1, u.2, s.versions rid⟩)
        else replacedBy id r s.events := by
      rw [wrote.events, logged.events, replacedBy_wrote]
      simp
    by_cases hi : i = id
    · subst hi
      by_cases hr : rid = r ∧ undo.isSome
      · -- the first write pushes the version it replaces
        obtain ⟨rfl, hu⟩ := hr
        obtain ⟨u, rfl⟩ := Option.isSome_iff_exists.mp hu
        intro _ _ _ _
        exact ⟨⟨u.1, u.2, s.versions rid⟩, ⟨u.1.ts, u.1.isDeleted, u.2⟩, by rw [hsaved]; simp, by rw [chain]; rfl⟩
      · refine hw.frame (fun t₂ ht₂ hu₂ hm₂ => ?_) (by rw [hsaved, if_neg fun hc => hr hc.2]) (fun _ => ?_) h
        · rw [wrote.handle] at ht₂
          cases ht₂
          refine ⟨t, ht, by rw [← hsame.unfinished]; simpa using hu₂, ?_⟩
          rw [← hsame.writeSet]
          rcases recordWrite_old hm₂ with hold | heq
          · exact hold
          · simp only [Prod.mk.injEq] at heq
            exact absurd ⟨heq.1.symm, by simpa using heq.2.symm⟩ hr
        · by_cases hrid : r = rid
          · subst hrid
            have : undo = none := by simpa using hr
            rw [chain, this]
            rfl
          · rw [wrote.versions r hrid, logged.versions]
    · refine hw.frame (fun t₂ ht₂ hu₂ hm₂ => ?_) (by rw [hsaved, if_neg fun hc => hi hc.1]) (fun hh => ?_) h
      · rw [wrote.handles id (Ne.symm hi)] at ht₂
        obtain ⟨t₃, ht₃, hs₃⟩ := logged.back ht₂
        exact ⟨t₃, ht₃, by rw [← hs₃.unfinished]; exact hu₂, by rw [← hs₃.writeSet]; exact hm₂⟩
      · have hrid : r ≠ rid := by
          rintro rfl
          exact h.plan_other ht hi slot.old plan hh
        rw [wrote.versions r hrid, logged.versions]
  | inserted i t table rid data _ caller slot wrote chains =>
    refine hw.frame (fun t₂ ht₂ hu₂ hm₂ => ?_) (by rw [wrote.events, replacedBy_wrote]; simp)
      (fun _ => by rw [chains]) h
    by_cases hi : id = i
    · subst hi
      rw [wrote.handle] at ht₂
      cases ht₂
      refine ⟨t, (caller_eq caller).1, by simpa using hu₂, (recordWrite_old hm₂).resolve_right fun hc => ?_⟩
      simp at hc
    · rw [wrote.handles id hi] at ht₂
      exact ⟨t₂, ht₂, hu₂, hm₂⟩
  | restamped i t rid m b _ _ _ _ _ _ _ rest =>
    rw [rest]
    exact hw
  | ended i t es last handle _ how he =>
    refine hw.frame (fun t₂ ht₂ hu₂ hm₂ => ?_) ?_ (fun _ => by rw [he.versions]) h
    · by_cases hi : id = i
      · subst hi
        obtain ⟨t₃, ht₃, _, _, hclosed⟩ := he.handle
        rw [ht₂] at ht₃
        cases ht₃
        rw [hu₂] at hclosed
        cases hclosed
      · rw [he.handles id hi] at ht₂
        exact ⟨t₂, ht₂, hu₂, hm₂⟩
    · rw [he.events]
      cases how <;> rfl
  | restored i t rid p s₁ latch handle tainted key hok rest =>
    obtain ⟨hr, m, b, hs, hm, _⟩ := restore_ok hok
    subst rest
    by_cases hi : id = i
    · subst hi
      by_cases hrid : r = rid
      · subst hrid
        intro t₂ ht₂ _ hm₂
        cases (hr.self handle).symm.trans ht₂
        simp [Transaction.forgetWrite] at hm₂
      · refine hw.frame (fun t₂ ht₂ hu₂ hm₂ => ?_) (by rw [hr.events]) (fun _ => hr.versions r hrid) h
        cases (hr.self handle).symm.trans ht₂
        exact ⟨t, handle, hu₂, (List.mem_filter.mp hm₂).1⟩
    · refine hw.frame (fun t₂ ht₂ hu₂ hm₂ => ?_) (by rw [hr.events]) (fun hh => ?_) h
      · exact ⟨t₂, (hr.others hi).symm.trans ht₂, hu₂, hm₂⟩
      · refine hr.versions r ?_
        rintro rfl
        obtain ⟨m', b', hs', hm'⟩ := hh
        rw [hs] at hs'
        cases hs'
        exact currentStamp_ne h handle (.inl hm) hi r hm'
  | swept w rid _ hok act =>
    have hrid : r ≠ rid := by
      rintro rfl
      exact hnot w act
    unfold collectSlot at hok
    split at hok
    · cases hok
    · cases hok
      exact hw.frame (fun t ht hu hm => ⟨t, ht, hu, hm⟩) rfl (fun _ => Function.update_of_ne hrid _ _) h
  | passes hp =>
    rw [hp]
    exact hw

theorem Inv.wholeChain (h : Inv base s) (hnone : replacedBy id r s.events = none) : WholeChain s id r := by
  intro t ht hu hm
  obtain ⟨m, b, _, _, own⟩ := h.owned_of_held ht hu (List.mem_map.mpr ⟨_, hm, rfl⟩)
  cases own.undoable with
  | inserted listed => cases flag_unique (h.handles id t ht).2.2 hm (listed hu)
  | replaced old rest listed saved => rw [hnone] at saved; cases saved

/-- Rolled back, a row has what it had before the transaction's first write, or is a deletion at
timestamp 0 when the transaction inserted it. -/
theorem Inv.rolledBack_eq (h : Inv base s) (ht : s.txns id = some txn) (hu : txn.unfinished = true) {p : Bool}
    (hmem : (r, p) ∈ txn.writeSet) :
    (p = true ∧ ∃ old c, replacedBy id r s.events = some old ∧ (s.rolledBack r p).1 = some (old.tmeta, old.data) ∧
        (s.rolledBack r p).2 <+: old.chain ∧ old.tmeta.ts = .commit c) ∨
      (p = false ∧ ∃ b, (s.rolledBack r p).1 = some (.dead, b)) := by
  have hkey : r ∈ txn.writeSet.map Prod.fst := List.mem_map.mpr ⟨_, hmem, rfl⟩
  obtain ⟨m, b, hs, _, own⟩ := h.owned_of_held ht hu hkey
  have hnd := (h.handles id txn ht).2.2
  cases own.undoable with
  | inserted listed =>
    cases flag_unique hnd hmem (listed hu)
    exact .inr ⟨rfl, b, by simp [rolledBack, hs]⟩
  | replaced old rest listed saved chain tail room seen =>
    cases flag_unique hnd hmem (listed hu)
    have hcov := own.covers
    rw [chain] at hcov
    obtain ⟨c, hc, _⟩ := Covers.published h hcov
    exact .inl ⟨rfl, old, c, saved, by simp [rolledBack, chain], by simpa [rolledBack, chain] using tail, hc⟩

theorem RolledBack.agree {s₁ s₂ : TransactionManager} {l₁ l₂ : List (RecordId × Bool)} (h₁ : RolledBack s s₁ l₁)
    (h₂ : RolledBack s s₂ l₂) (hp : l₁.Perm l₂) (r : RecordId) :
    s₂.heap.slot r = s₁.heap.slot r ∧ s₂.versions r = s₁.versions r := by
  by_cases hr : r ∈ l₁.map Prod.fst
  · obtain ⟨⟨_, p⟩, hm, rfl⟩ := List.mem_map.mp hr
    have e₁ := h₁.restored _ p hm
    have e₂ := h₂.restored _ p (hp.mem_iff.mp hm)
    rw [← e₁] at e₂
    exact ⟨congrArg Prod.fst e₂, congrArg Prod.snd e₂⟩
  · obtain ⟨a₁, b₁⟩ := h₁.others r hr
    obtain ⟨a₂, b₂⟩ := h₂.others r fun hc => hr ((hp.map Prod.fst).mem_iff.mpr hc)
    exact ⟨a₂.trans a₁.symm, b₂.trans b₁.symm⟩

theorem RolledBack.trans {s₁ s₂ : TransactionManager} {done rest : List (RecordId × Bool)}
    (h₁ : RolledBack s s₁ done) (h₂ : RolledBack s₁ s₂ rest) (hnd : ((done ++ rest).map Prod.fst).Nodup) :
    RolledBack s s₂ (done ++ rest) := by
  rw [List.map_append] at hnd
  obtain ⟨_, _, hdisj⟩ := List.nodup_append.mp hnd
  refine ⟨fun r p hm => ?_, fun r hn => ?_, h₂.events.trans h₁.events⟩
  · rcases List.mem_append.mp hm with hm | hm
    · obtain ⟨a, b⟩ := h₂.others r fun hc => hdisj r (List.mem_map.mpr ⟨_, hm, rfl⟩) r hc rfl
      rw [a, b]
      exact h₁.restored r p hm
    · obtain ⟨a, b⟩ := h₁.others r fun hc => hdisj r hc r (List.mem_map.mpr ⟨_, hm, rfl⟩) rfl
      rw [h₂.restored r p hm]
      simp only [rolledBack, a, b]
  · rw [List.map_append, List.mem_append, not_or] at hn
    obtain ⟨a₁, b₁⟩ := h₁.others r hn.1
    obtain ⟨a₂, b₂⟩ := h₂.others r hn.2
    exact ⟨a₂.trans a₁, b₂.trans b₁⟩

theorem Inv.abort (h : Inv base s) (ht : s.txns id = some txn) (hu : txn.unfinished = true)
    (hfree : s.commitLatch = none) {order : List (RecordId × Bool)} (hp : order.Perm txn.writeSet)
    (fails : RecordId → Bool) :
    (∃ s', s.abort id txn order fails = (s', .ok ()) ∧ RolledBack s s' order ∧
        ∃ t, s'.txns id = some t ∧ t.state = .aborted) ∨
      (∃ s' done rest, s.abort id txn order fails = (s', .error (.storage .bpm)) ∧ order = done ++ rest ∧
        RolledBack s s' done ∧ Inv base s' ∧ s'.commitLatch = none ∧ (∃ e ∈ rest, fails e.1 = true) ∧
        ∃ t, s'.txns id = some t ∧ t.state = .tainted ∧ t.writeSet.Perm rest) := by
  have h₀ := h.startAbort ht hu hfree
  have hback : ∀ {s' done}, RolledBack { s.modifyTxn id (·.setTainted) with
      commitLatch := some (.abort id txn.writeSet) }
      s' done → RolledBack s s' done := fun h => ⟨h.restored, h.others, h.events⟩
  unfold TransactionManager.abort
  rw [if_pos hu]
  rcases h₀.restoreAll fails rfl hp with ⟨s', h1, h2, h3⟩ | ⟨s', done, rest, h1, h2, h3, h4⟩
  · exact .inl ⟨s', h1, hback h2, h3⟩
  · exact .inr ⟨s', done, rest, h1, h2, hback h3, h4⟩

end

end TransactionManager

namespace Engine

def keepsChain (r : RecordId) (e : Engine) : Action → Bool
  | .mgr (.collectSlot _ rid) => rid ≠ r
  | a => e.putBack a

/-- Nothing was collected from the chain of `r` since before the transaction's first write of it. -/
def Uncollected (cat : Catalog) (e₀ e : Engine) (id : Nat) (r : RecordId) : Prop :=
  ∃ e₁, Lib.Steps (step cat) (fun e a => e.putBack a = true) e₀ e₁ ∧ replacedBy id r e₁.mgr.events = none ∧
    Lib.Steps (step cat) (fun e a => keepsChain r e a = true) e₁ e

/-- The slot and the chain of `r` are what the transaction's first write found, but for what was
collected from the chain; a row it inserted is a deletion at timestamp 0. -/
def Undone (cat : Catalog) (e₀ e : Engine) (s' : TransactionManager) (id : Nat) (r : RecordId) : Bool → Prop
  | true => ∃ old, replacedBy id r e.mgr.events = some old ∧ s'.heap.slot r = some (old.tmeta, old.data) ∧
      s'.versions r <+: old.chain ∧ (Uncollected cat e₀ e id r → s'.versions r = old.chain)
  | false => ∃ b, s'.heap.slot r = some (⟨.commit 0, true⟩, b)

section
open TransactionManager
variable {cat : Catalog} {e₀ e : Engine} {id : Nat} {txn : Transaction} {r : RecordId}

theorem keepsChain_putBack {a : Action} (h : keepsChain r e a = true) : e.putBack a = true := by
  unfold keepsChain at h
  split at h
  · rfl
  · exact h

theorem wholeChain_of_uncollected (h₀ : e₀.Initial) (hu : Uncollected cat e₀ e id r) : e.mgr.WholeChain id r := by
  obtain ⟨e₁, hr₁, hnone, hr₂⟩ := hu
  have hinv := run_inv (fun _ _ h => h) h₀ hr₁
  have hrun : Lib.Steps TransactionManager.step (fun s a => PutBack s a ∧ ∀ w, a ≠ .collectSlot w r) e₁.mgr e.mgr :=
    steps_mgr (fun _ _ ha => keepsChain_putBack ha) (fun e a b ha hs =>
      ⟨putBack_mgr (keepsChain_putBack ha) hs, fun w hb => by
      subst hb
      cases a with
      | run => cases hs.1
      | mgr a => cases hs; simp [keepsChain] at ha
      | _ => exact hs⟩) hr₂
  suffices Inv e₀.mgr.base e.mgr ∧ e.mgr.WholeChain id r from this.2
  exact hrun.invariant (P := fun s => Inv e₀.mgr.base s ∧ s.WholeChain id r)
    (fun h ha hs => ⟨h.1.step ha.1 hs, h.2.change h.1 (h.1.change ha.1 hs) ha.2⟩) ⟨hinv, hinv.wholeChain hnone⟩

theorem undone_of_rolledBack (cat : Catalog) {s' : TransactionManager} {p : Bool} (h₀ : e₀.Initial)
    (hinv : Inv e₀.mgr.base e.mgr) (ht : e.mgr.txns id = some txn) (hu : txn.unfinished = true)
    (hmem : (r, p) ∈ txn.writeSet) (heq : (s'.heap.slot r, s'.versions r) = e.mgr.rolledBack r p) :
    Undone cat e₀ e s' id r p ∧ ∀ m b, s'.heap.slot r = some (m, b) → m.ts ≠ .txn id := by
  have h1 : (e.mgr.rolledBack r p).1 = s'.heap.slot r := by rw [← heq]
  have h2 : (e.mgr.rolledBack r p).2 = s'.versions r := by rw [← heq]
  rcases hinv.rolledBack_eq ht hu hmem with ⟨rfl, old, c, hsaved, hslot, hchain, hts⟩ | ⟨rfl, b, hb⟩
  · rw [h1] at hslot
    rw [h2] at hchain
    refine ⟨⟨old, hsaved, hslot, hchain, fun hun => ?_⟩, fun m b hs hc => ?_⟩
    · obtain ⟨old', head, hsaved', hv⟩ := wholeChain_of_uncollected h₀ hun txn ht hu hmem
      rw [hsaved] at hsaved'
      cases hsaved'
      rw [← h2]
      simp [rolledBack, hv]
    · rw [hslot] at hs
      cases hs
      rw [hts] at hc
      cases hc
  · rw [h1] at hb
    refine ⟨⟨b, hb⟩, fun m b' hs hc => ?_⟩
    rw [hb] at hs
    cases hs
    cases hc

/-- The whole call, made in a state where nobody else is committing or aborting. -/
theorem abort_call (cat : Catalog) (h₀ : e₀.Initial) (hinv : Inv e₀.mgr.base e.mgr) (ht : e.mgr.txns id = some txn)
    (hu : txn.unfinished = true) (hfree : e.mgr.commitLatch = none) {order : List (RecordId × Bool)}
    (hp : order.Perm txn.writeSet) :
    ∃ s', e.mgr.abort id txn order (fun _ => false) = (s', .ok ()) ∧ RolledBack e.mgr s' order ∧
      (∀ r p, (r, p) ∈ txn.writeSet → Undone cat e₀ e s' id r p) ∧
      (∀ r m b, s'.heap.slot r = some (m, b) → m.ts ≠ .txn id) := by
  obtain ⟨s', hok, hrolled, _⟩ : ∃ s', e.mgr.abort id txn order (fun _ => false) = (s', .ok ()) ∧
      RolledBack e.mgr s' order ∧ ∃ t, s'.txns id = some t ∧ t.state = .aborted := by
    rcases hinv.abort ht hu hfree hp (fun _ => false) with hok | ⟨_, _, _, _, _, _, _, _, ⟨_, _, hf⟩, _⟩
    · exact hok
    · cases hf
  have hrow : ∀ r p, (r, p) ∈ txn.writeSet → (s'.heap.slot r, s'.versions r) = e.mgr.rolledBack r p :=
    fun r p hm => hrolled.restored r p (hp.mem_iff.mpr hm)
  refine ⟨s', hok, hrolled, fun r p hm => (undone_of_rolledBack cat h₀ hinv ht hu hm (hrow r p hm)).1,
    fun r m b hs => ?_⟩
  by_cases hk : r ∈ txn.writeSet.map Prod.fst
  · obtain ⟨⟨_, p⟩, hm, rfl⟩ := List.mem_map.mp hk
    exact (undone_of_rolledBack cat h₀ hinv ht hu hm (hrow _ p hm)).2 m b hs
  · rw [(hrolled.others r fun hc => hk ((hp.map Prod.fst).mem_iff.mp hc)).1] at hs
    exact fun hts => hk (hinv.listed ht hu hs hts)

theorem abort_again {s' s₁ : TransactionManager} {order : List (RecordId × Bool)} {fails : RecordId → Bool}
    {err : TxnError} (hinv : Inv e₀.mgr.base e.mgr) (ht : e.mgr.txns id = some txn) (hu : txn.unfinished = true)
    (hfree : e.mgr.commitLatch = none) (hp : order.Perm txn.writeSet) (hrolled : RolledBack e.mgr s' order)
    (hfail : e.mgr.abort id txn order fails = (s₁, .error err)) :
    err = .storage .bpm ∧ ∃ txn₁, s₁.txns id = some txn₁ ∧
      ∀ order₁ : List (RecordId × Bool), order₁.Perm txn₁.writeSet →
        ∃ s₂, s₁.abort id txn₁ order₁ (fun _ => false) = (s₂, .ok ()) ∧
          ∀ r, s₂.heap.slot r = s'.heap.slot r ∧ s₂.versions r = s'.versions r := by
  rcases hinv.abort ht hu hfree hp fails with ⟨s'', h1, _⟩ | ⟨s'', done, rest, h1, h2, h3, h4, h5, _, t, h6, h7, h8⟩
  · rw [h1] at hfail; cases hfail
  · rw [h1] at hfail
    cases hfail
    refine ⟨rfl, t, h6, fun order₁ hp₁ => ?_⟩
    rcases h4.abort h6 (unfinished_of_tainted h7) h5 hp₁ (fun _ => false) with
      ⟨s₂, g1, g2, _⟩ | ⟨_, _, _, _, _, _, _, _, ⟨_, _, hf⟩, _⟩
    · refine ⟨s₂, g1, fun r => ?_⟩
      have hall : (done ++ order₁).Perm order := by rw [h2]; exact (hp₁.trans h8).append_left done
      have hnd : ((done ++ order₁).map Prod.fst).Nodup :=
        ((hall.trans hp).map Prod.fst).nodup_iff.mpr (hinv.handles id txn ht).2.2
      exact hrolled.agree (h3.trans g2 hnd) hall.symm r
    · cases hf

/-- Aborts of open transactions, from any state of a run that put failed commits back: the whole
call, a second call after one that failed, and each single step of a call under way. -/
theorem abort_restores (h₀ : e₀.Initial) (hr : Lib.Steps (step cat) (fun e a => e.putBack a = true) e₀ e)
    (ht : e.mgr.txns id = some txn) (hopen : txn.state = .running ∨ txn.state = .tainted) :
    (e.mgr.commitLatch = none → ∀ order : List (RecordId × Bool), order.Perm txn.writeSet →
      ∃ s', e.mgr.abort id txn order (fun _ => false) = (s', .ok ()) ∧
        (∀ r p, (r, p) ∈ txn.writeSet → Undone cat e₀ e s' id r p) ∧
        (∀ r, r ∉ txn.writeSet.map Prod.fst →
          s'.heap.slot r = e.mgr.heap.slot r ∧ s'.versions r = e.mgr.versions r) ∧
        (∀ r m b, s'.heap.slot r = some (m, b) → m.ts ≠ .txn id) ∧
        (∀ fails s₁ err, e.mgr.abort id txn order fails = (s₁, .error err) →
          err = .storage .bpm ∧ ∃ txn₁, s₁.txns id = some txn₁ ∧
            ∀ order₁ : List (RecordId × Bool), order₁.Perm txn₁.writeSet →
              ∃ s₂, s₁.abort id txn₁ order₁ (fun _ => false) = (s₂, .ok ()) ∧
                ∀ r, s₂.heap.slot r = s'.heap.slot r ∧ s₂.versions r = s'.versions r)) ∧
    (∀ todo r p, e.mgr.commitLatch = some (.abort id todo) → (r, p) ∈ todo →
      ∃ s', e.mgr.restore id r p = .ok s' ∧ Undone cat e₀ e s' id r p ∧
        ∀ r', r' ≠ r → s'.heap.slot r' = e.mgr.heap.slot r' ∧ s'.versions r' = e.mgr.versions r') := by
  have hinv := run_inv (fun _ _ h => h) h₀ hr
  have hu : txn.unfinished = true := hopen.elim unfinished_of_running unfinished_of_tainted
  refine ⟨fun hfree order hp => ?_, fun todo r p hl hmem => ?_⟩
  · obtain ⟨s', hok, hrolled, hundone, hstamp⟩ := abort_call cat h₀ hinv ht hu hfree hp
    refine ⟨s', hok, hundone, fun r hn => ?_, hstamp, fun fails s₁ err hfail => ?_⟩
    · exact hrolled.others r fun hc => hn ((hp.map Prod.fst).mem_iff.mp hc)
    · exact abort_again hinv ht hu hfree hp hrolled hfail
  · obtain ⟨s', hok⟩ := hinv.restore_succeeds hl hmem
    obtain ⟨t, ht', _, rfl⟩ := hinv.latch.aborting hl
    rw [ht] at ht'
    cases ht'
    obtain ⟨hrest, _⟩ := restore_ok hok
    exact ⟨s', hok, (undone_of_rolledBack cat h₀ hinv ht hu hmem (restore_rolledBack hok)).1,
      fun r' hne => ⟨hrest.slots r' hne, hrest.versions r' hne⟩⟩

end

/-- A transaction that updated one row, deleted another and inserted a third aborts. -/
theorem abort_restores_three_rows :
    ∃ e txn s' b, Lib.Steps (step ⟨[], List.nodup_nil⟩) (fun e a => e.putBack a = true) oneTable e ∧
      e.mgr.txns 1 = some txn ∧ e.mgr.heap.slot ⟨0, 0⟩ = some (⟨.txn 1, false⟩, [1, 11]) ∧
      e.mgr.heap.slot ⟨0, 1⟩ = some (⟨.txn 1, true⟩, [2, 20]) ∧
      e.mgr.abort 1 txn [(⟨0, 0⟩, true), (⟨0, 1⟩, true), (⟨0, 2⟩, false)] (fun _ => false) = (s', .ok ()) ∧
      s'.heap.slot ⟨0, 0⟩ = some (⟨.commit 1, false⟩, [1, 10]) ∧ s'.versions ⟨0, 0⟩ = [] ∧
      s'.heap.slot ⟨0, 1⟩ = some (⟨.commit 1, false⟩, [2, 20]) ∧ s'.versions ⟨0, 1⟩ = [] ∧
      s'.heap.slot ⟨0, 2⟩ = some (⟨.commit 0, true⟩, b) := by
  obtain ⟨e, hr, hp⟩ : ∃ e, Lib.Steps (step ⟨[], List.nodup_nil⟩) (fun e a => e.putBack a = true) oneTable e ∧
      (((e.mgr.txns 1).any (fun txn => txn.state == .running &&
          txn.writeSet == [(⟨0, 0⟩, true), (⟨0, 1⟩, true), (⟨0, 2⟩, false)]) && e.mgr.commitLatch == none) &&
        ((e.mgr.heap.slot ⟨0, 0⟩ == some (⟨.txn 1, false⟩, [1, 11]) &&
            e.mgr.heap.slot ⟨0, 1⟩ == some (⟨.txn 1, true⟩, [2, 20])) &&
          (replacedBy 1 ⟨0, 0⟩ e.mgr.events == some ⟨⟨.commit 1, false⟩, [1, 10], []⟩ &&
            replacedBy 1 ⟨0, 1⟩ e.mgr.events == some ⟨⟨.commit 1, false⟩, [2, 20], []⟩))) = true :=
    Lib.exists_steps (.mgr .begin :: wholeCall 0 (.insertTuple 0 [1, 10]) 2 ++
      wholeCall 0 (.insertTuple 0 [2, 20]) 2 ++
      wholeCommit 0 [⟨0, 0⟩, ⟨0, 1⟩] ++ .mgr .begin :: wholeCall 1 (.updateTuple 0 ⟨0, 0⟩ [1, 10] [1, 11]) 1 ++
      wholeCall 1 (.deleteTuple ⟨0, 1⟩) 1 ++ wholeCall 1 (.insertTuple 0 [3, 30]) 2) (by decide)
  simp only [Bool.and_eq_true, beq_iff_eq] at hp
  obtain ⟨⟨hany, hfree⟩, ⟨hs0, hs1⟩, hold0, hold1⟩ := hp
  obtain ⟨txn, ht, hst⟩ := (Option.any_eq_true _ _).mp hany
  simp only [Bool.and_eq_true, beq_iff_eq] at hst
  obtain ⟨hrun, hws⟩ := hst
  obtain ⟨s', hok, hundone, _⟩ := (abort_restores oneTable_initial hr ht (.inl hrun)).1 hfree
    [(⟨0, 0⟩, true), (⟨0, 1⟩, true), (⟨0, 2⟩, false)] (by rw [hws])
  obtain ⟨old, h0, hslot0, hchain0, _⟩ := hundone ⟨0, 0⟩ true (by simp [hws])
  obtain ⟨old', h1, hslot1, hchain1, _⟩ := hundone ⟨0, 1⟩ true (by simp [hws])
  obtain ⟨b, hb⟩ := hundone ⟨0, 2⟩ false (by simp [hws])
  rw [hold0] at h0
  rw [hold1] at h1
  cases h0
  cases h1
  exact ⟨e, txn, s', b, hr, ht, hs0, hs1, hok, hslot0, List.prefix_nil.mp hchain0, hslot1,
    List.prefix_nil.mp hchain1, hb⟩

theorem empty_first : Heap.empty.pages 0 = none := rfl

def oneRowPages : Engine := start (.new (Heap.empty.create 0 0 8192 empty_first))

/-- After a failed commit that could not put a slot back, the abort finds a foreign stamp. And an abort
does not reach the row of an insert that failed to link its page. -/
theorem abort_leaves_stamps :
    (∃ e, Lib.Steps (step ⟨[], List.nodup_nil⟩) (fun _ _ => true) oneTable e ∧
      (e.mgr.txns 0).any (fun txn => txn.state == .tainted && e.mgr.commitLatch == none &&
        match e.mgr.abort 0 txn txn.writeSet (fun _ => false) with
        | (_, .error (.unexpectedStamp _ _ _)) => true
        | _ => false) = true) ∧
    ∃ e, Lib.Steps (step ⟨[], List.nodup_nil⟩) (fun _ _ => true) oneRowPages e ∧
      (e.mgr.txns 0).any (fun txn => txn.state == .tainted && e.mgr.commitLatch == none &&
        match e.mgr.abort 0 txn txn.writeSet (fun _ => false) with
        | (s', .ok ()) => s'.heap.slot ⟨1, 0⟩ == some (⟨.txn 0, false⟩, [8])
        | _ => false) = true := by
  constructor
  · exact Lib.exists_steps (.mgr .begin :: wholeCall 0 (.insertTuple 0 [7]) 2 ++
      wholeCall 0 (.insertTuple 0 [8]) 2 ++
      [.mgr (.commit 0), .mgr (.stamp ⟨0, 0⟩ false), .mgr (.stamp ⟨0, 1⟩ true), .mgr (.unstamp true)]) (by decide)
  · exact Lib.exists_steps (.mgr .begin :: wholeCall 0 (.insertTuple 0 [7]) 2 ++
      wholeCall 0 (.insertTuple 0 [8]) 1 ++
      [.strand 0 1, .run 0 1 false]) (by decide)

end Engine

end Cmudb
