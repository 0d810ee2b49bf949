import Cmudb.Session

/-!
# The session machine

Between requests the manager is in a state a run of its steps reaches, and the
open transactions are the one the session holds; or the session holds a
transaction whose commit left a stamp behind, and then it never gets rid of it.
One lemma for each function of the session says which of these it leads to.
-/

namespace Cmudb

open TransactionManager

def Session.holds : Session → Nat → Prop
  | some (.opened txn), i | some (.abortPending txn _), i => i = txn
  | _, _ => False

/-- `BEGIN` opened a block that neither `COMMIT` nor `ROLLBACK` has ended. -/
def Session.inBlock : Session → Bool
  | some (.opened _) | some .failed | some (.abortPending _ true) => true
  | _ => false

namespace TransactionManager

def commits (s : TransactionManager) : List (Nat × Nat) :=
  s.events.filterMap fun e => match e with
    | .committed id ts => some (id, ts)
    | _ => none

def HasState (s : TransactionManager) (id : Nat) (state : TransactionState) : Prop :=
  ∃ t, s.txns id = some t ∧ t.state = state

def Dead (s : TransactionManager) (id : Nat) : Prop :=
  ∃ t, s.txns id = some t ∧ (t.state = .tainted ∨ t.state = .aborted)

def Only (s : TransactionManager) (id : Nat) : Prop := ∀ i, s.Open i ↔ i = id

structure Whole (s₀ s : TransactionManager) : Prop where
  run : Lib.Steps step PutBack s₀ s
  latch : s.commitLatch = none

/-- A state between two calls in which a failed commit of `id` has left stamps behind. -/
def Half (s₀ s : TransactionManager) (id : Nat) : Prop :=
  ∃ w left txn, left ≠ [] ∧ Whole s₀ w ∧ HalfStamped s w id left ∧ w.txns id = some txn ∧ txn.unfinished = true ∧
    ∀ r ∈ left, r ∈ txn.writeSet.map Prod.fst

structure Held (s₀ s : TransactionManager) (id : Nat) : Prop where
  state : Whole s₀ s ∨ Half s₀ s id
  only : s.Only id

section
variable {s₀ s s' : TransactionManager} {id i : Nat} {txn : Transaction}

theorem HasState.dead (h : s.HasState id .tainted ∨ s.HasState id .aborted) : s.Dead id := by
  rcases h with ⟨t, ht, hst⟩ | ⟨t, ht, hst⟩
  · exact ⟨t, ht, .inl hst⟩
  · exact ⟨t, ht, .inr hst⟩

theorem Whole.inv (h₀ : s₀.Initial) (h : Whole s₀ s) : Inv s₀.base s := Inv.run h₀ h.run

theorem Whole.dead (h₀ : s₀.Initial) (h : Whole s₀ s) (hr : Lib.Steps step PutBack s s') (hd : s.Dead i) :
    s'.Dead i := by
  obtain ⟨t, ht, hst⟩ := hd
  exact (h.inv h₀).run_dead hr ht hst

theorem Whole.called {state : TransactionState} (h : Whole s₀ s) (hc : Called s s' id state) : Whole s₀ s' :=
  ⟨h.run.trans hc.run, hc.latch⟩

theorem Only.handle (h : s.Only id) : ∃ t, s.txns id = some t ∧ t.unfinished = true := (h id).mpr rfl

theorem Called.isOpen {state : TransactionState} (hc : Called s s' id state) (h : s.Only id) :
    s'.Open i ↔ i = id ∧ (state = .running ∨ state = .tainted) := by
  obtain ⟨t, ht, rfl⟩ := hc.handle
  by_cases hi : i = id
  · subst hi
    have hu : t.unfinished = true ↔ t.state = .running ∨ t.state = .tainted := by
      cases hs : t.state <;> simp [Transaction.unfinished, hs]
    simp only [Open, ht, Option.some.injEq, true_and, ← hu]
    constructor
    · rintro ⟨_, rfl, h⟩; exact h
    · intro h; exact ⟨t, rfl, h⟩
  · simp only [hi, false_and, iff_false]
    rintro ⟨t', ht', hu⟩
    exact hi ((h i).mp ⟨t', (hc.others i hi).symm.trans ht', hu⟩)

theorem Called.only (hc : Called s s' id .tainted) (h : s.Only id) : s'.Only id := fun i => by
  simp [hc.isOpen h]

theorem Called.closed {state : TransactionState} (hc : Called s s' id state) (h : s.Only id)
    (hst : state = .committed ∨ state = .aborted) : ¬ s'.Open i := by
  rw [hc.isOpen h]
  rcases hst with rfl | rfl <;> simp

theorem commits_of_events (h : s'.events = s.events) : s'.commits = s.commits := by
  unfold commits; rw [h]

/-! ## Writes of a body -/

theorem writer_step {a : Action} (hw : a.writer = some id) (hs : s.step a = some s') :
    (∀ i, s'.Open i ↔ s.Open i) ∧ s'.commitLatch = s.commitLatch ∧ s'.commits = s.commits := by
  have hquiet : ∀ {s'}, Quiet s s' → s'.commitLatch = s.commitLatch →
      (∀ i, s'.Open i ↔ s.Open i) ∧ s'.commitLatch = s.commitLatch ∧ s'.commits = s.commits :=
    fun hq hl => ⟨hq.isOpen, hl, commits_of_events hq.events⟩
  have hcommits : ∀ {s s' : TransactionManager} {j rid new old}, s'.events = .wrote j rid new old :: s.events →
      s'.commits = s.commits := fun he => by unfold commits; rw [he]; rfl
  cases a with
  | logFirstWrite j =>
    obtain ⟨txn, _, rfl⟩ := Option.map_eq_some_iff.mp hs
    exact hquiet logFirstWrite_quiet logFirstWrite_latch
  | taint j =>
    obtain ⟨txn, _, rfl⟩ := Option.map_eq_some_iff.mp hs
    exact hquiet (modifyTxn_quiet SameWrites.setTainted s.commitLatch fun _ => rfl) rfl
  | write j rid new =>
    obtain ⟨txn, hc, rfl⟩ := Option.map_eq_some_iff.mp hs
    cases hres : s.writeVersion j txn rid new with
    | mk s' res =>
      have hl : s'.commitLatch = s.commitLatch := by
        have hlatch : (s.writeVersion j txn rid new).1.commitLatch = s.commitLatch := writeVersion_latch
        rwa [hres] at hlatch
      cases res with
      | error e => exact hquiet (writeVersion_error hres) hl
      | ok u =>
        obtain ⟨s₁, txn', m, b, undo, _, hq, _, ht', _, _, hwrote, _⟩ := writeVersion_ok hc hres
        exact ⟨fun i => (hwrote.isOpen ht' i).trans (hq.isOpen i), hl,
          (hcommits hwrote.events).trans (commits_of_events hq.events)⟩
  | insert j table fresh data =>
    obtain ⟨txn, hc, rfl⟩ := Option.map_eq_some_iff.mp hs
    cases hres : s.insertVersion j table fresh data with
    | error e => exact ⟨fun _ => .rfl, rfl, rfl⟩
    | ok v =>
      obtain ⟨rid, s'⟩ := v
      obtain ⟨hwrote, _, _⟩ := insertVersion_wrote (caller_eq hc).1 hres
      exact ⟨hwrote.isOpen (caller_eq hc).1, hwrote.latch, hcommits hwrote.events⟩
  | _ => cases hw

theorem putBack_of_writer {a : Action} (hw : a.writer = some id) : PutBack s a := by
  rintro rfl
  cases hw

theorem writes_spec (id : Nat) (writes : List Action) : ∀ {s : TransactionManager}, Whole s₀ s →
    let s' := writes.foldl (fun s a => if a.writer = some id then (s.step a).getD s else s) s
    Whole s₀ s' ∧ Lib.Steps step PutBack s s' ∧ (∀ i, s'.Open i ↔ s.Open i) ∧ s'.commits = s.commits := by
  induction writes with
  | nil => intro s h; exact ⟨h, .refl, fun _ => .rfl, rfl⟩
  | cons a rest ih =>
    intro s h
    simp only [List.foldl_cons]
    split
    · rename_i hw
      cases hs : s.step a with
      | none => exact ih h
      | some s₁ =>
        obtain ⟨ho, hl, hc⟩ := writer_step hw hs
        have hr : Lib.Steps step PutBack s s₁ := .tail .refl (putBack_of_writer hw) hs
        obtain ⟨h1, h2, h3, h4⟩ := ih (s := s₁) ⟨h.run.trans hr, hl.trans h.latch⟩
        exact ⟨h1, hr.trans h2, fun i => (h3 i).trans (ho i), h4.trans hc⟩
    · exact ih h

theorem Body.run_spec (body : Body) (id : Nat) (h : Whole s₀ s) :
    Whole s₀ (body.run s id) ∧ Lib.Steps step PutBack s (body.run s id) ∧
      (∀ i, (body.run s id).Open i ↔ s.Open i) ∧ (body.run s id).commits = s.commits :=
  writes_spec id body.writes h

/-! ## Ends of a transaction -/

theorem Half.of_notUndone {u : TransactionManager} {cause : TxnError} {ts : Nat} {rid : RecordId}
    {rest : List RecordId} (h₀ : s₀.Initial) (hr : Lib.Steps step PutBack s₀ u)
    (hl : u.commitLatch = some (.uncommit id ts (rid :: rest) cause)) :
    Half s₀ (u.failCommit id) id := by
  have hinv := Inv.run h₀ hr
  obtain ⟨_, t, ht, hrun, _, hk⟩ := hinv.latch.uncommitting hl
  obtain ⟨w, hw, hfree, hh⟩ := exists_putBack hinv hl
  have htx : (u.failCommit id).txns = w.txns := by rw [hh.rest]
  refine ⟨w, rid :: rest, t.setTainted, by simp, ⟨hr.trans hw, hfree⟩, hh, ?_, ?_, ?_⟩
  · rw [← htx]; exact modifyTxn_self ht
  · rw [setTainted_unfinished]; exact unfinished_of_running hrun
  · rw [setTainted_writeSet]; exact hk

theorem Half.dead (h₀ : s₀.Initial) {w : TransactionManager} {left : List RecordId} (hw : Whole s₀ w)
    (hh : HalfStamped s w id left) {s' w' : TransactionManager} (hh' : HalfStamped s' w' id left)
    (hr : Lib.Steps step PutBack w w') (hd : s.Dead i) : s'.Dead i := by
  have htx : s.txns = w.txns := by rw [hh.rest]
  have htx' : s'.txns = w'.txns := by rw [hh'.rest]
  unfold Dead at hd ⊢
  rw [htx] at hd
  rw [htx']
  exact hw.dead h₀ hr hd

end

end TransactionManager

namespace Database

section
variable {s₀ : TransactionManager} {db : Database} {id : Nat} {c : Conditions}

theorem abort_spec (db : Database) (h₀ : s₀.Initial) (h : Held s₀ db.mgr id) (st : Storage) :
    ∃ mgr r, db.abort st id = ({ db with mgr }, r) ∧ (∀ i, db.mgr.Dead i → mgr.Dead i) ∧
    mgr.commits = db.mgr.commits ∧
      ((r = .ok () ∧ Whole s₀ mgr ∧ (∀ i, ¬ mgr.Open i) ∧ mgr.HasState id .aborted) ∨
        ∃ e, r = .error e ∧ Held s₀ mgr id ∧ mgr.HasState id .tainted) := by
  obtain ⟨txn, ht, hu⟩ := h.only.handle
  unfold Database.abort
  rw [ht]
  dsimp only
  rcases h.state with hw | ⟨w, left, txn', hne, hw, hh, ht', _, hkeys⟩
  · have hnd := ((hw.inv h₀).handles id txn ht).2.2
    rcases abort_called hw.latch ht hu hnd (st.perm txn.writeSet) st.fails with ⟨s', heq, hc⟩ | ⟨s', e, heq, hc⟩
    · exact ⟨s', .ok (), by rw [heq], fun i => hw.dead h₀ hc.run, commits_of_events (hc.events (by simp)),
        .inl ⟨rfl, hw.called hc, fun i => hc.closed h.only (.inr rfl), hc.handle⟩⟩
    · exact ⟨s', .error e, by rw [heq], fun i => hw.dead h₀ hc.run, commits_of_events (hc.events (by simp)),
        .inr ⟨e, rfl, ⟨.inl (hw.called hc), hc.only h.only⟩, hc.handle⟩⟩
  · -- the twin without the left stamps stops at one of them
    have htx : db.mgr.txns = w.txns := by rw [hh.rest]
    rw [htx, ht'] at ht
    cases ht
    obtain ⟨s', w', e, heq, hh', hc, hkeys'⟩ :=
      hh.abort hne (hw.inv h₀) hw.latch ht' hu hkeys (st.perm txn.writeSet) st.fails
    have htx' : s'.txns = w'.txns := by rw [hh'.rest]
    have hev : s'.events = db.mgr.events := by rw [hh'.rest, hh.rest]; exact hc.events (by simp)
    have honly : w.Only id := fun i => by
      have := h.only i
      simpa only [Open, htx] using this
    obtain ⟨t, hwt, hst⟩ := hc.handle
    refine ⟨s', .error e, by rw [heq], fun i => Half.dead h₀ hw hh hh' hc.run, commits_of_events hev,
      .inr ⟨e, rfl,
        ⟨.inr ⟨w', left, t, hne, hw.called hc, hh', hwt, unfinished_of_tainted hst, hkeys' t hwt⟩, ?_⟩, t, ?_, hst⟩⟩
    · intro i
      have := hc.only honly i
      simpa only [Open, htx'] using this
    · rw [htx']; exact hwt

theorem commit_spec (h₀ : s₀.Initial) (hw : Whole s₀ db.mgr) (ho : db.mgr.Only id) (st : Storage) :
    ∃ mgr r, db.commit st id = ({ db with mgr }, r) ∧ (∀ i, db.mgr.Dead i → mgr.Dead i) ∧
      ((∃ ts, r = .ok ts ∧ Whole s₀ mgr ∧ ∀ i, ¬ mgr.Open i) ∨ ∃ e, r = .error e ∧ Held s₀ mgr id) := by
  obtain ⟨txn, ht, hu⟩ := ho.handle
  unfold Database.commit
  rw [ht]
  dsimp only
  rcases commit_ends hw.latch ht (st.perm txn.writeSet) st.fails st.undoFails with ⟨hr, hends⟩ | ⟨_, e, heq⟩
  · generalize hres : db.mgr.commit id txn (st.order txn.writeSet) st.fails st.undoFails = res at hends
    cases hends with
    | @committed s' ts hc =>
      exact ⟨s', .ok ts, rfl, fun i => hw.dead h₀ hc.run,
        .inl ⟨ts, rfl, hw.called hc, fun i => hc.closed ho (.inl rfl)⟩⟩
    | @putBack s' e hc =>
      exact ⟨s', .error e, rfl, fun i => hw.dead h₀ hc.run, .inr ⟨e, rfl, .inl (hw.called hc), hc.only ho⟩⟩
    | @notUndone u e cause ts rid rest hrun hl htx =>
      have hst := failCommit_handle (by rw [htx]; exact ht) hr
      have hall := hw.run.trans hrun
      refine ⟨u.failCommit id, .error e, rfl, fun i hd => ?_,
        .inr ⟨e, rfl, .inr (.of_notUndone h₀ hall hl), fun i => ?_⟩⟩
      · obtain ⟨t, hi, hdead⟩ := hw.dead h₀ hrun hd
        by_cases hne : i = id
        · subst hne
          obtain ⟨t', ht', hs'⟩ := hst
          exact ⟨t', ht', .inl hs'⟩
        · exact ⟨t, (failCommit_others hne).trans hi, hdead⟩
      · by_cases hne : i = id
        · subst hne
          obtain ⟨t', ht', hs'⟩ := hst
          simp only [iff_true]
          exact ⟨t', ht', unfinished_of_tainted hs'⟩
        · have := ho i
          rw [Open, failCommit_others hne, htx]
          exact this
  · exact ⟨db.mgr, .error e, by rw [heq], fun i hd => hd, .inr ⟨e, rfl, .inl hw, ho⟩⟩

inductive Finished (s₀ : TransactionManager) (id : Nat) (commit inBlock : Bool) (σ : Session)
    (mgr : TransactionManager) :
    Session → Except QueryError Unit → Prop where
  | done (whole : Whole s₀ mgr) (closed : ∀ i, ¬ mgr.Open i) (aborted : commit = false → mgr.HasState id .aborted) :
      Finished s₀ id commit inBlock σ mgr σ (.ok ())
  | unsaved (whole : Whole s₀ mgr) (closed : ∀ i, ¬ mgr.Open i) (committed : commit = true) :
      Finished s₀ id commit inBlock σ mgr σ (.error .persist)
  | undone {e : QueryError} (whole : Whole s₀ mgr) (closed : ∀ i, ¬ mgr.Open i)
      (aborted : mgr.HasState id .aborted) :
      Finished s₀ id commit inBlock σ mgr σ (.error e)
  | kept {e : QueryError} (held : Held s₀ mgr id) (tainted : mgr.HasState id .tainted) :
      Finished s₀ id commit inBlock σ mgr (some (.abortPending id inBlock)) (.error e)

theorem garbageCollect_spec (db : Database) (c : Conditions) (h₀ : s₀.Initial) (hw : Whole s₀ db.mgr) :
    ∃ mgr, db.garbageCollect c = { db with mgr } ∧ (∀ i, db.mgr.Dead i → mgr.Dead i) ∧
    mgr.commits = db.mgr.commits ∧
      Whole s₀ mgr ∧ mgr.txns = db.mgr.txns := by
  have hb : Background db.mgr (db.mgr.garbageCollect c.collect c.collectFails) := garbageCollect_background _ _
  exact ⟨_, rfl, fun i => hw.dead h₀ hb.run, commits_of_events hb.events,
    ⟨hw.run.trans hb.run, hb.latch.trans hw.latch⟩, hb.handles⟩

theorem finishOrKeep_spec (db : Database) (c : Conditions) (h₀ : s₀.Initial) (hw : Whole s₀ db.mgr)
    (ho : db.mgr.Only id) (commit inBlock : Bool) :
    ∃ mgr σ r, db.finishOrKeep c id commit inBlock = (⟨mgr, σ, db.ran⟩, r) ∧ (∀ i, db.mgr.Dead i → mgr.Dead i) ∧
      (commit = false → mgr.commits = db.mgr.commits) ∧ Finished s₀ id commit inBlock db.session mgr σ r := by
  unfold finishOrKeep finish
  cases commit with
  | true =>
    simp only [if_true]
    obtain ⟨mgr, r, heq, hdead, hcase⟩ := commit_spec h₀ hw ho c.commit
    rw [heq]
    rcases hcase with ⟨ts, rfl, hw', hclosed⟩ | ⟨e, rfl, hheld⟩
    · obtain ⟨mgr', hgc, hdead', _, hw'', htx⟩ := garbageCollect_spec { db with mgr } c h₀ hw'
      have hclosed' : ∀ i, ¬ mgr'.Open i := fun i => by
        unfold Open; rw [htx]; exact hclosed i
      dsimp only
      rw [hgc]
      by_cases hp : c.checkpointFails = true
      · rw [if_pos hp]
        exact ⟨mgr', _, _, rfl, fun i hi => hdead' i (hdead i hi), (by simp), .unsaved hw'' hclosed' rfl⟩
      · rw [if_neg hp]
        exact ⟨mgr', _, _, rfl, fun i hi => hdead' i (hdead i hi), (by simp), .done hw'' hclosed' (by simp)⟩
    · obtain ⟨mgr', r', heq', hdead', _, hcase'⟩ := abort_spec { db with mgr } h₀ hheld c.abort
      dsimp only
      rw [heq']
      rcases hcase' with ⟨rfl, hw', hclosed, habort⟩ | ⟨e', rfl, hheld', htaint⟩
      · exact ⟨mgr', _, _, rfl, fun i hi => hdead' i (hdead i hi), (by simp), .undone hw' hclosed habort⟩
      · exact ⟨mgr', _, _, rfl, fun i hi => hdead' i (hdead i hi), (by simp), .kept hheld' htaint⟩
  | false =>
    obtain ⟨mgr, r, heq, hdead, hcom, hcase⟩ := abort_spec db h₀ ⟨.inl hw, ho⟩ c.abort
    simp only [Bool.false_eq_true, if_false]
    rw [heq]
    rcases hcase with ⟨rfl, hw', hclosed, t, ht, hst⟩ | ⟨e, rfl, hheld, htaint⟩
    · obtain ⟨mgr', hgc, hdead', hcom', hw'', htx⟩ := garbageCollect_spec { db with mgr } c h₀ hw'
      dsimp only
      rw [hgc]
      refine ⟨mgr', _, _, rfl, fun i hi => hdead' i (hdead i hi), fun _ => hcom'.trans hcom,
        .done hw'' (fun i => ?_)
        fun _ => ⟨t, by rw [htx]; exact ht, hst⟩⟩
      unfold Open; rw [htx]; exact hclosed i
    · exact ⟨mgr, _, _, rfl, hdead, fun _ => hcom, .kept hheld htaint⟩

/-! ## Requests -/

structure Sound (s₀ : TransactionManager) (db : Database) : Prop where
  mgr : Whole s₀ db.mgr ∨ ∃ id b, db.session = some (.abortPending id b) ∧ Half s₀ db.mgr id
  held : ∀ i, db.mgr.Open i ↔ db.session.holds i
  ran : ∀ e ∈ db.ran, e.1 = none ∨ e.1 = some (.opened e.2)

/-- The transaction is rolled back, or the session keeps it until it is. -/
def Fate (db : Database) (id : Nat) : Prop :=
  db.mgr.HasState id .aborted ∨ db.mgr.HasState id .tainted ∧ ∃ b, db.session = some (.abortPending id b)

theorem Fate.dead {id : Nat} (h : Fate db id) : db.mgr.Dead id := HasState.dead (h.symm.imp_left And.left)

theorem Sound.pending {b : Bool} (h : Sound s₀ db) (hσ : db.session = some (.abortPending id b)) :
    Held s₀ db.mgr id := by
  refine ⟨h.mgr.imp_right ?_, fun i => ?_⟩
  · rintro ⟨j, b', hσ', hh⟩
    rw [hσ] at hσ'
    cases hσ'
    exact hh
  · have := h.held i
    rwa [hσ] at this

theorem Sound.whole (h : Sound s₀ db) (hσ : ∀ i b, db.session ≠ some (.abortPending i b)) : Whole s₀ db.mgr := by
  rcases h.mgr with hw | ⟨i, b, hs, _⟩
  · exact hw
  · exact absurd hs (hσ i b)

theorem Finished.sound {commit inBlock : Bool} {σ σ' : Session} {mgr : TransactionManager}
    {r : Except QueryError Unit} (h : Finished s₀ id commit inBlock σ mgr σ' r) (hσ : ∀ i, ¬ σ.holds i)
    {ran : List (Session × Nat)} (hran : ∀ e ∈ ran, e.1 = none ∨ e.1 = some (.opened e.2)) :
    Sound s₀ ⟨mgr, σ', ran⟩ := by
  have hclosed : (∀ i, ¬ mgr.Open i) → ∀ i, mgr.Open i ↔ σ.holds i := fun hc i => iff_of_false (hc i) (hσ i)
  cases h with
  | done whole closed _ => exact ⟨.inl whole, hclosed closed, hran⟩
  | unsaved whole closed _ => exact ⟨.inl whole, hclosed closed, hran⟩
  | undone whole closed _ => exact ⟨.inl whole, hclosed closed, hran⟩
  | kept held _ => exact ⟨held.state.imp_right fun hh => ⟨id, inBlock, rfl, hh⟩, held.only, hran⟩

theorem Finished.fate {commit inBlock : Bool} {σ σ' : Session} {mgr : TransactionManager} {e : QueryError}
    (h : Finished s₀ id commit inBlock σ mgr σ' (.error e)) (he : e ≠ .persist) (ran : List (Session × Nat)) :
    Fate ⟨mgr, σ', ran⟩ id := by
  cases h with
  | unsaved => exact absurd rfl he
  | undone _ _ aborted => exact .inl aborted
  | kept _ tainted => exact .inr ⟨tainted, inBlock, rfl⟩

structure Served (s₀ : TransactionManager) (db db' : Database) : Prop where
  sound : Sound s₀ db'
  dead : ∀ i, db.mgr.Dead i → db'.mgr.Dead i

def Broken (db : Database) : Prop := db.session = some .failed ∨ ∃ id, db.session = some (.abortPending id true)

theorem retryPendingAbort_spec (h₀ : s₀.Initial) (h : Sound s₀ db) :
    ∃ db' r, db.retryPendingAbort c = (db', r) ∧ Served s₀ db db' ∧ db'.ran = db.ran ∧
    db'.mgr.commits = db.mgr.commits ∧
      ((∃ e id b, r = .error (.retryAbortFailed e) ∧ db.session = some (.abortPending id b) ∧
        db'.session = db.session) ∨
        (r = .ok () ∧
          (∃ id b, db.session = some (.abortPending id b) ∧ db'.session = if b then some .failed else none) ∨
          r = .ok () ∧ db' = db ∧ ∀ id b, db.session ≠ some (.abortPending id b))) := by
  by_cases hp : ∃ id b, db.session = some (.abortPending id b)
  · obtain ⟨id, b, hσ⟩ := hp
    have hheld := h.pending hσ
    obtain ⟨mgr, r, heq, hdead, hcom, hcase⟩ := abort_spec db h₀ hheld c.retry
    unfold retryPendingAbort
    rw [hσ]
    dsimp only
    rw [heq]
    rcases hcase with ⟨rfl, hw, hclosed, _⟩ | ⟨e, rfl, hheld', _⟩
    · refine ⟨_, _, rfl, ⟨⟨.inl hw, fun i => ?_, h.ran⟩, hdead⟩, rfl, hcom, .inr (.inl ⟨rfl, id, b, rfl, rfl⟩)⟩
      exact iff_of_false (hclosed i) (by cases b <;> exact fun hi => hi)
    · refine ⟨_, _, rfl, ⟨⟨hheld'.state.imp_right fun hh => ⟨id, b, hσ, hh⟩, fun i => ?_, h.ran⟩, hdead⟩, rfl, hcom,
        .inl ⟨e, id, b, rfl, rfl, hσ⟩⟩
      show mgr.Open i ↔ db.session.holds i
      rw [hσ]
      exact hheld'.only i
  · push Not at hp
    refine ⟨db, .ok (), ?_, ⟨h, fun i hi => hi⟩, rfl, rfl, .inr (.inr ⟨rfl, rfl, hp⟩)⟩
    unfold retryPendingAbort
    split
    · rename_i id b hσ
      exact absurd hσ (hp id b)
    · rfl

theorem runBody_spec (body : Body) (autocommit : Bool) (h₀ : s₀.Initial) (hw : Whole s₀ db.mgr)
    (ho : db.mgr.Only id) (hran : ∀ e ∈ db.ran, e.1 = none ∨ e.1 = some (.opened e.2))
    (hσ : db.session = if autocommit then none else some (.opened id)) :
    ∃ db' r, db.runBody c body id autocommit = (db', r) ∧ Served s₀ db db' ∧ db'.ran = (db.session, id) :: db.ran ∧
      (∀ e, r = .error e → e ≠ .persist → Fate db' id) ∧
      (autocommit = false → ∀ e, r = .error e → Broken db' ∧ db'.mgr.commits = db.mgr.commits) := by
  obtain ⟨hw₁, hr₁, ho₁, hc₁⟩ := Body.run_spec body id hw
  have honly : (body.run db.mgr id).Only id := fun i => (ho₁ i).trans (ho i)
  have hdead₁ : ∀ i, db.mgr.Dead i → (body.run db.mgr id).Dead i := fun i => hw.dead h₀ hr₁
  have hran₁ : ∀ e ∈ (db.session, id) :: db.ran, e.1 = none ∨ e.1 = some (.opened e.2) := by
    intro e he
    rcases List.mem_cons.mp he with rfl | he
    · rw [hσ]; cases autocommit <;> simp
    · exact hran e he
  unfold runBody
  dsimp only
  cases hres : body.result with
  | ok result =>
    cases autocommit with
    | false =>
      refine ⟨_, _, rfl, ⟨⟨.inl hw₁, fun i => ?_, hran₁⟩, hdead₁⟩, rfl, (by simp), fun _ => (by simp)⟩
      show _ ↔ db.session.holds i
      rw [hσ]
      exact honly i
    | true =>
      obtain ⟨mgr, σ, r, heq, hdead, _, hfin⟩ := finishOrKeep_spec
        ⟨body.run db.mgr id, db.session, (db.session, id) :: db.ran⟩ c h₀ hw₁ honly true false
      have hnone : ∀ i, ¬ Session.holds db.session i := fun i => by rw [hσ]; exact fun hi => hi
      simp only [if_true]
      rw [heq]
      have hsound := hfin.sound hnone hran₁
      cases r with
      | ok u => exact ⟨_, _, rfl, ⟨hsound, fun i hi => hdead i (hdead₁ i hi)⟩, rfl, (by simp), (by simp)⟩
      | error e =>
        refine ⟨_, _, rfl, ⟨hsound, fun i hi => hdead i (hdead₁ i hi)⟩, rfl, fun e' he' hne => ?_, (by simp)⟩
        cases he'
        exact hfin.fate hne _
  | error cause =>
    obtain ⟨mgr, σ, r, heq, hdead, hcom, hfin⟩ := finishOrKeep_spec
      ⟨body.run db.mgr id, if autocommit then db.session else some .failed, (db.session, id) :: db.ran⟩ c
      h₀ hw₁ honly false !autocommit
    have hdb : (if autocommit then (⟨body.run db.mgr id, db.session, (db.session, id) :: db.ran⟩ : Database)
        else ⟨body.run db.mgr id, some .failed, (db.session, id) :: db.ran⟩) =
        ⟨body.run db.mgr id, if autocommit then db.session else some .failed, (db.session, id) :: db.ran⟩ := by
      cases autocommit <;> rfl
    have hnone : ∀ i, ¬ Session.holds (if autocommit then db.session else some .failed) i := fun i => by
      rw [hσ]; cases autocommit <;> exact fun hi => hi
    have hsound := hfin.sound hnone hran₁
    have hserved : Served s₀ db ⟨mgr, σ, (db.session, id) :: db.ran⟩ := ⟨hsound, fun i hi => hdead i (hdead₁ i hi)⟩
    have hbroken : autocommit = false → Broken ⟨mgr, σ, (db.session, id) :: db.ran⟩ ∧
        mgr.commits = db.mgr.commits := by
      rintro rfl
      refine ⟨?_, (hcom rfl).trans hc₁⟩
      cases hfin with
      | done => exact .inl rfl
      | unsaved _ _ committed => cases committed
      | undone => exact .inl rfl
      | kept => exact .inr ⟨id, rfl⟩
    dsimp only
    rw [hdb, heq]
    cases r with
    | ok u =>
      refine ⟨_, _, rfl, hserved, rfl, fun e he hne => ?_, fun ha e _ => hbroken ha⟩
      cases hfin with
      | done _ _ aborted => exact .inl (aborted rfl)
    | error e =>
      refine ⟨_, _, rfl, hserved, rfl, fun e' he' hne => ?_, fun ha e _ => hbroken ha⟩
      cases he'
      exact hfin.fate hne _

theorem begin_spec (h₀ : s₀.Initial) (hw : Whole s₀ db.mgr) (hclosed : ∀ i, ¬ db.mgr.Open i) :
    Whole s₀ db.begin.2.mgr ∧ db.begin.2.mgr.Only db.begin.1 ∧ ∀ i, db.mgr.Dead i → db.begin.2.mgr.Dead i := by
  have hr : Lib.Steps step PutBack db.mgr db.mgr.begin.2 := .tail .refl (a := .begin) (by simp [PutBack]) rfl
  refine ⟨⟨hw.run.trans hr, hw.latch⟩, fun i => ?_, fun i => hw.dead h₀ hr⟩
  constructor
  · rintro ⟨t, ht, hu⟩
    by_contra hi
    refine hclosed i ⟨t, ?_, hu⟩
    rw [← ht]
    exact (Function.update_of_ne hi _ _).symm
  · rintro rfl
    exact ⟨_, Function.update_self .., rfl⟩

structure Answered (s₀ : TransactionManager) (db : Database) (req : Request) (db' : Database)
    (r : Except QueryError StatementResult) : Prop where
  sound : Sound s₀ db'
  dead : ∀ i, db.mgr.Dead i → db'.mgr.Dead i
  body : db'.ran = db.ran ∨ ∃ σ id, db'.ran = (σ, id) :: db.ran ∧ ∀ e, r = .error e → e ≠ .persist → Fate db' id
  commit : ∀ id, req = .statement .commit → db.session = some (.opened id) →
    ∀ e, r = .error e → e ≠ .persist → Fate db' id
  breaks : db.session.inBlock = true → req.hasBody = true → ∀ e, r = .error e →
    Broken db' ∧ db'.mgr.commits = db.mgr.commits
  broken : Broken db → db'.mgr.commits = db.mgr.commits ∧
    ((∃ e, r = .error e) ∧ Broken db' ∨ req.endsBlock = true ∧ r = .ok (.txn .rollback) ∧ db'.session = none)

/-- The part of a request behind the retry. -/
def perform (db : Database) (c : Conditions) : Request → Database × Except QueryError StatementResult
  | .statement .startTransaction => db.beginBlock
  | .statement .commit => db.endBlock c true
  | .statement .rollback => db.endBlock c false
  | .statement (.other body) | .plan body => db.runInSession c body

theorem serve_eq (req : Request) : req.serve db c = match db.retryPendingAbort c with
    | (db, .error e) => (db, .error e)
    | (db, .ok ()) => db.perform c req := by
  cases req with
  | plan body => rfl
  | statement stmt => cases stmt <;> rfl

theorem Sound.refuse {req : Request} {e : QueryError} (h : Sound s₀ db)
    (hbody : req.hasBody = true → db.session.inBlock = false ∨ Broken db)
    (hcommit : ∀ id, req = .statement .commit → db.session ≠ some (.opened id)) :
    Answered s₀ db req db (.error e) where
  sound := h
  dead := fun _ hi => hi
  body := .inl rfl
  commit := fun id hr hσ => absurd hσ (hcommit id hr)
  breaks := fun hin hb _ _ => by
    rcases hbody hb with hno | hbr
    · rw [hin] at hno; cases hno
    · exact ⟨hbr, rfl⟩
  broken := fun hb => ⟨rfl, .inl ⟨⟨e, rfl⟩, hb⟩⟩

theorem not_broken_none (hσ : db.session = none) : ¬ Broken db := by
  rintro (h | ⟨_, h⟩) <;> rw [hσ] at h <;> cases h

theorem not_broken_opened (hσ : db.session = some (.opened id)) : ¬ Broken db := by
  rintro (h | ⟨_, h⟩) <;> rw [hσ] at h <;> cases h

theorem endBlock_spec (commit : Bool) (h₀ : s₀.Initial) (h : Sound s₀ db) (hσ : db.session = some (.opened id)) :
    ∃ db' r, db.endBlock c commit = (db', r) ∧ Sound s₀ db' ∧ (∀ i, db.mgr.Dead i → db'.mgr.Dead i) ∧
    db'.ran = db.ran ∧
      ∀ e, r = .error e → e ≠ .persist → Fate db' id := by
  have hw := h.whole fun i b => by rw [hσ]; simp
  have ho : db.mgr.Only id := fun i => by
    have := h.held i
    rwa [hσ] at this
  obtain ⟨mgr, σ, r, heq, hdead, _, hfin⟩ := finishOrKeep_spec { db with session := none } c h₀ hw ho commit true
  have hsound := hfin.sound (fun i hi => hi) h.ran
  unfold endBlock
  rw [hσ]
  dsimp only
  rw [heq]
  cases r with
  | ok u => exact ⟨_, _, rfl, hsound, hdead, rfl, (by simp)⟩
  | error e =>
    refine ⟨_, _, rfl, hsound, hdead, rfl, fun e' he' hne => ?_⟩
    cases he'
    exact hfin.fate hne _

theorem perform_none (h₀ : s₀.Initial) (h : Sound s₀ db) (hσ : db.session = none) (req : Request) :
    ∃ db' r, db.perform c req = (db', r) ∧ Answered s₀ db req db' r := by
  have hw := h.whole fun i b => by rw [hσ]; simp
  have hclosed : ∀ i, ¬ db.mgr.Open i := fun i hi => by
    have := (h.held i).mp hi
    rwa [hσ] at this
  have hno : db.session.inBlock = false := by rw [hσ]; rfl
  have hbegin := begin_spec h₀ hw hclosed
  have hrun : ∀ body, ∃ db' r, db.runInSession c body = (db', r) ∧ Answered s₀ db req db' r := by
    intro body
    obtain ⟨hw₁, ho₁, hdead₁⟩ := hbegin
    obtain ⟨db', r, heq, hserved, hran, hfate, _⟩ := runBody_spec (c := c) body true h₀ hw₁ ho₁ h.ran hσ
    refine ⟨db', r, by unfold runInSession; rw [hσ]; exact heq, hserved.sound,
      fun i hi => hserved.dead i (hdead₁ i hi), .inr ⟨_, _, hran, hfate⟩, fun id _ ho => ?_, fun hin => ?_,
      fun hb => absurd hb (not_broken_none hσ)⟩
    · rw [hσ] at ho; cases ho
    · rw [hno] at hin; cases hin
  have hend : ∀ commit, req.hasBody = false → ∃ db' r, db.endBlock c commit = (db', r) ∧
      Answered s₀ db req db' r := by
    intro commit hb
    refine ⟨db, .error .noTransaction, by unfold endBlock; rw [hσ], h.refuse (fun _ => .inl hno) fun id _ ho => ?_⟩
    rw [hσ] at ho; cases ho
  cases req with
  | plan body => exact hrun body
  | statement stmt =>
    cases stmt with
    | other body => exact hrun body
    | commit => exact hend true rfl
    | rollback => exact hend false rfl
    | startTransaction =>
      obtain ⟨hw₁, ho₁, hdead₁⟩ := hbegin
      refine ⟨{ db.begin.2 with session := some (.opened db.begin.1) },
        .ok (.txn .begin), by rw [perform, beginBlock, hσ]; rfl, ⟨.inl hw₁, ho₁, h.ran⟩, hdead₁, .inl rfl,
        (by simp), (by simp), fun hb => ?_⟩
      exact absurd hb (not_broken_none hσ)

theorem perform_opened (h₀ : s₀.Initial) (h : Sound s₀ db) (hσ : db.session = some (.opened id)) (req : Request) :
    ∃ db' r, db.perform c req = (db', r) ∧ Answered s₀ db req db' r := by
  have hw := h.whole fun i b => by rw [hσ]; simp
  have ho : db.mgr.Only id := fun i => by
    have := h.held i
    rwa [hσ] at this
  have hrun : ∀ body, req ≠ .statement .commit →
      ∃ db' r, db.runInSession c body = (db', r) ∧ Answered s₀ db req db' r := by
    intro body hne
    obtain ⟨db', r, heq, hserved, hran, hfate, hbreaks⟩ := runBody_spec (c := c) body false
      h₀ hw ho h.ran hσ
    refine ⟨db', r, by unfold runInSession; rw [hσ]; exact heq, hserved.sound, hserved.dead,
      .inr ⟨_, _, hran, hfate⟩, fun _ hr => absurd hr hne, fun _ _ e he => hbreaks rfl e he,
      fun hb => absurd hb (not_broken_opened hσ)⟩
  have hend : ∀ commit, req.hasBody = false → ∃ db' r, db.endBlock c commit = (db', r) ∧
      Answered s₀ db req db' r := by
    intro commit hb
    obtain ⟨db', r, heq, hsound, hdead, hran, hfate⟩ := endBlock_spec (c := c) commit h₀ h hσ
    refine ⟨db', r, heq, hsound, hdead, .inl hran, fun i _ hi => ?_, fun _ hb' => ?_,
      fun hb => absurd hb (not_broken_opened hσ)⟩
    · rw [hσ] at hi; cases hi; exact hfate
    · rw [hb] at hb'; cases hb'
  cases req with
  | plan body => exact hrun body (by simp)
  | statement stmt =>
    cases stmt with
    | other body => exact hrun body (by simp)
    | commit => exact hend true rfl
    | rollback => exact hend false rfl
    | startTransaction =>
      exact ⟨db, .error .alreadyInTransaction, by rw [perform, beginBlock, hσ]; rfl,
        h.refuse (fun hb => by cases hb) (by simp)⟩

theorem perform_failed (h : Sound s₀ db) (hσ : db.session = some .failed) (req : Request) :
    ∃ db' r, db.perform c req = (db', r) ∧ Answered s₀ db req db' r := by
  have hbroken : Broken db := .inl hσ
  have hnot : ∀ id, db.session ≠ some (.opened id) := fun id => by rw [hσ]; simp
  have hrun : ∀ body, ∃ db' r, db.runInSession c body = (db', r) ∧ Answered s₀ db req db' r := fun body =>
    ⟨db, .error .transactionAborted, by unfold runInSession; rw [hσ],
      h.refuse (fun _ => .inr hbroken) fun id _ => hnot id⟩
  have hend : ∀ commit, req.hasBody = false → req.endsBlock = true →
      ∃ db' r, db.endBlock c commit = (db', r) ∧ Answered s₀ db req db' r := by
    intro commit hb hends
    refine ⟨{ db with session := none }, .ok (.txn .rollback), by unfold endBlock; rw [hσ],
      ⟨.inl ?_, fun i => ?_, h.ran⟩, fun i hi => hi, .inl rfl, fun id _ ho => absurd ho (hnot id), fun _ hb' => ?_,
      fun _ => ⟨rfl, .inr ⟨hends, rfl, rfl⟩⟩⟩
    · exact h.whole fun i b => by rw [hσ]; simp
    · have := h.held i
      rwa [hσ] at this
    · rw [hb] at hb'; cases hb'
  cases req with
  | plan body => exact hrun body
  | statement stmt =>
    cases stmt with
    | other body => exact hrun body
    | commit => exact hend true rfl rfl
    | rollback => exact hend false rfl rfl
    | startTransaction =>
      exact ⟨db, .error .alreadyInTransaction, by rw [perform, beginBlock, hσ]; rfl,
        h.refuse (fun hb => by cases hb) fun id _ => hnot id⟩

theorem serve_spec (h₀ : s₀.Initial) (h : Sound s₀ db) (c : Conditions) (req : Request) :
    ∃ db' r, req.serve db c = (db', r) ∧ Answered s₀ db req db' r := by
  obtain ⟨db₁, r₁, heq, hserved, hran, hcom, hcase⟩ := retryPendingAbort_spec (c := c) h₀ h
  rw [serve_eq, heq]
  rcases hcase with ⟨e, id, b, rfl, hσ, hσ₁⟩ | ⟨rfl, id, b, hσ, hσ₁⟩ | ⟨rfl, rfl, hnot⟩
  · -- the abort failed again
    have hbroken : db.session.inBlock = true → Broken db₁ := by
      intro hin
      rw [hσ] at hin
      cases b with
      | false => cases hin
      | true => exact .inr ⟨id, hσ₁.trans hσ⟩
    have hin : Broken db → db.session.inBlock = true := by
      rintro (h | ⟨_, h⟩) <;> rw [h] <;> rfl
    refine ⟨db₁, _, rfl, hserved.sound, hserved.dead, .inl hran, fun i _ ho => ?_,
      fun hi _ _ _ => ⟨hbroken hi, hcom⟩, fun hb => ⟨hcom, .inl ⟨⟨_, rfl⟩, hbroken (hin hb)⟩⟩⟩
    rw [hσ] at ho; cases ho
  · -- the abort is done: the block is to be ended, or there is none
    have hperform : ∃ db' r, db₁.perform c req = (db', r) ∧ Answered s₀ db₁ req db' r := by
      cases b with
      | true => exact perform_failed hserved.sound hσ₁ req
      | false => exact perform_none h₀ hserved.sound hσ₁ req
    obtain ⟨db', r, hp, ha⟩ := hperform
    have hbroken : db.session.inBlock = true → Broken db₁ := by
      intro hin
      rw [hσ] at hin
      cases b with
      | false => cases hin
      | true => exact .inl hσ₁
    have hin : Broken db → db.session.inBlock = true := by
      rintro (h | ⟨_, h⟩) <;> rw [h] <;> rfl
    refine ⟨db', r, hp, ha.sound, fun i hi => ha.dead i (hserved.dead i hi), by rw [← hran]; exact ha.body,
      fun i _ ho => ?_, fun hi hb e he => ?_, fun hb => ?_⟩
    · rw [hσ] at ho; cases ho
    · obtain ⟨hc', hcase⟩ := ha.broken (hbroken hi)
      rcases hcase with ⟨_, hbr⟩ | ⟨_, hok, _⟩
      · exact ⟨hbr, hc'.trans hcom⟩
      · rw [he] at hok; cases hok
    · obtain ⟨hc', hcase⟩ := ha.broken (hbroken (hin hb))
      exact ⟨hc'.trans hcom, hcase⟩
  · cases hσ : db₁.session with
    | none => exact perform_none h₀ h hσ req
    | some x =>
      cases x with
      | opened id => exact perform_opened h₀ h hσ req
      | failed => exact perform_failed h hσ req
      | abortPending id b => exact absurd hσ (hnot id b)

/-! ## Runs -/

theorem Sound.new (h₀ : s₀.Initial) : Sound s₀ (.new s₀) := by
  refine ⟨.inl ⟨.refl, h₀.latch⟩, fun i => ⟨?_, fun hi => by cases hi⟩, fun e he => by cases he⟩
  rintro ⟨t, ht, _⟩
  rw [Database.new, h₀.txns i] at ht
  cases ht

theorem Sound.after (h₀ : s₀.Initial) : ∀ (reqs : List (Request × Conditions)) {db : Database}, Sound s₀ db →
    Served s₀ db (db.after reqs)
  | [], db, h => ⟨h, fun _ hi => hi⟩
  | (req, c) :: rest, db, h => by
    obtain ⟨db', r, heq, ha⟩ := serve_spec h₀ h c req
    have ih := Sound.after h₀ rest ha.sound
    have hafter : db.after ((req, c) :: rest) = db'.after rest := by
      show (req.serve db c).1.after rest = _
      rw [heq]
    rw [hafter]
    exact ⟨ih.sound, fun i hi => ih.dead i (ha.dead i hi)⟩

/-- The statements of an `execute` are served one by one, up to the first that fails. -/
theorem executeAll_after : ∀ (stmts : List (Statement × Conditions)) (db : Database),
    ∃ served, served <+: stmts.map (fun p => (Request.statement p.1, p.2)) ∧
    (db.executeAll stmts).1 = db.after served
  | [], db => ⟨[], List.prefix_refl _, rfl⟩
  | (stmt, c) :: rest, db => by
    rw [executeAll]
    cases hs : db.executeStatement c stmt with
    | mk db' r =>
      have hafter : ∀ l, db.after ((Request.statement stmt, c) :: l) = db'.after l := fun l => by
        show (db.executeStatement c stmt).1.after l = _
        rw [hs]
      cases r with
      | error e =>
        refine ⟨[(.statement stmt, c)], ?_, (hafter []).symm⟩
        rw [List.map_cons, List.cons_prefix_cons]
        exact ⟨rfl, List.nil_prefix⟩
      | ok result =>
        obtain ⟨served, hserved, hdb⟩ := executeAll_after rest db'
        refine ⟨(.statement stmt, c) :: served, ?_, ?_⟩
        · rw [List.map_cons, List.cons_prefix_cons]
          exact ⟨rfl, hserved⟩
        · rw [hafter, ← hdb]
          dsimp only
          split <;> rename_i heq <;> rw [heq]

theorem Broken.after (h₀ : s₀.Initial) :
    ∀ (later : List (Request × Conditions)) {db : Database}, Sound s₀ db → Broken db →
    (∀ a ∈ db.answers later, a.1.endsBlock = true → ∃ e, a.2 = .error e) →
    (∀ a ∈ db.answers later, ∃ e, a.2 = .error e) ∧ Broken (db.after later) ∧
      (db.after later).mgr.commits = db.mgr.commits
  | [], db, _, hb, _ => ⟨fun a ha => (by cases ha), hb, rfl⟩
  | (req, c) :: rest, db, h, hb, hends => by
    obtain ⟨db', r, heq, ha⟩ := serve_spec h₀ h c req
    have hanswers : db.answers ((req, c) :: rest) = (req, r) :: db'.answers rest := by rw [answers, heq]
    have hafter : db.after ((req, c) :: rest) = db'.after rest := by
      show (req.serve db c).1.after rest = _
      rw [heq]
    rw [hanswers] at hends ⊢
    rw [hafter]
    obtain ⟨hcom, hcase⟩ := ha.broken hb
    have hfirst : (∃ e, r = .error e) ∧ Broken db' := by
      rcases hcase with hfail | ⟨hreq, hok, _⟩
      · exact hfail
      · obtain ⟨e, he⟩ := hends (req, r) List.mem_cons_self hreq
        rw [hok] at he
        cases he
    obtain ⟨h1, h2, h3⟩ := Broken.after h₀ rest ha.sound hfirst.2 fun a hm => hends a (List.mem_cons_of_mem _ hm)
    refine ⟨fun a hm => ?_, h2, h3.trans hcom⟩
    rcases List.mem_cons.mp hm with rfl | hm
    · exact hfirst.1
    · exact h1 a hm

theorem Sound.committedRow (h₀ : s₀.Initial) (h : Sound s₀ db) (r : RecordId) :
    db.mgr.committedRow r = (snapshot db.mgr.lastCommitTs (history s₀.base r db.mgr.events)).bind Version.data := by
  rcases h.mgr with hw | ⟨id, b, _, w, left, txn, _, hw, hh, ht, _⟩
  · exact (hw.inv h₀).committedRow r
  · have hinv := hw.inv h₀
    have hclock : db.mgr.lastCommitTs = w.lastCommitTs := by rw [hh.rest]
    have hev : db.mgr.events = w.events := by rw [hh.rest]
    rw [hh.committedRow (hinv.handles id txn ht).1, hclock, hev]
    exact hinv.committedRow r

theorem Sound.writer_ne (h₀ : s₀.Initial) (h : Sound s₀ db) (hd : db.mgr.Dead id) {r : RecordId} {v : Version}
    (hv : v ∈ history s₀.base r db.mgr.events) : v.writer ≠ some id := by
  intro hw
  -- a version has a writer that committed, and this one did not
  have hnot : ∀ {s : TransactionManager}, Lib.Steps step PutBack s₀ s → s.Dead id →
      v ∉ history s₀.base r s.events := by
    rintro s hr ⟨t, ht, hst⟩ hv
    have hc := ConflictInv.run h₀ hr
    obtain ⟨t', ht', hst', _⟩ := hc.committed id v.ts (hc.writer r v hv id hw).1
    rw [ht] at ht'
    cases ht'
    rw [hst'] at hst
    rcases hst with hst | hst <;> cases hst
  rcases h.mgr with hwhole | ⟨_, b, _, w, left, txn, _, hwhole, hh, _⟩
  · exact hnot hwhole.run hd hv
  · have htx : db.mgr.txns = w.txns := by rw [hh.rest]
    have hev : db.mgr.events = w.events := by rw [hh.rest]
    rw [hev] at hv
    unfold Dead at hd
    rw [htx] at hd
    exact hnot hwhole.run hd hv

end

/-- Any sequence of requests, with storage failing under any of their calls. -/
theorem session_keeps_its_transactions {s₀ : TransactionManager} (h₀ : s₀.Initial)
    (reqs : List (Request × Conditions)) :
    let db := (Database.new s₀).after reqs
    -- what is open is what the session holds
    (∀ id, db.mgr.Open id ↔ db.session.holds id) ∧
    -- bodies ran in an open block, or in no block and with no abort pending
    (∀ e ∈ db.ran, e.1 = none ∨ e.1 = some (.opened e.2)) ∧
    -- a block whose statement fails refuses everything until it is ended, and then has committed nothing
    (∀ (req : Request) c e later, db.session.inBlock = true → req.hasBody = true → (req.serve db c).2 = .error e →
      (∀ a ∈ (req.serve db c).1.answers later, a.1.endsBlock = true → ∃ e, a.2 = .error e) →
      (∀ a ∈ (req.serve db c).1.answers later, ∃ e, a.2 = .error e) ∧
      ∀ (last : Request) c', last.endsBlock = true →
        let res := last.serve ((req.serve db c).1.after later) c'
        res.1.mgr.commits = db.mgr.commits ∧
          ((∃ e, res.2 = .error e) ∧ res.1.session.inBlock = true ∨ res.2 = .ok (.txn .rollback) ∧
            res.1.session = none)) ∧
    -- a failed statement or commit leaves nothing that is or will be committed
    (∀ (req : Request) c id e, (req.serve db c).2 = .error e → e ≠ .persist →
      ((∃ σ, (req.serve db c).1.ran = (σ, id) :: db.ran) ∨ req = .statement .commit ∧
        db.session = some (.opened id)) →
      Fate (req.serve db c).1 id ∧
      ∀ later, let db' := (req.serve db c).1.after later
        db'.mgr.Dead id ∧ ∀ r,
          db'.mgr.committedRow r =
            (snapshot db'.mgr.lastCommitTs (history s₀.base r db'.mgr.events)).bind Version.data ∧
          ∀ v ∈ history s₀.base r db'.mgr.events, v.writer ≠ some id) := by
  intro db
  have h : Sound s₀ db := (Sound.after h₀ reqs (.new h₀)).sound
  refine ⟨h.held, h.ran, fun req c e later hin hbody he hends => ?_, fun req c id e he hne hran => ?_⟩
  · obtain ⟨db₁, r, heq, ha⟩ := serve_spec h₀ h c req
    rw [heq] at he hends ⊢
    obtain ⟨hb, hcom⟩ := ha.breaks hin hbody e he
    obtain ⟨hall, hb₂, hcom₂⟩ := Broken.after h₀ later ha.sound hb hends
    refine ⟨hall, fun last c' _ => ?_⟩
    obtain ⟨db₂, r₂, heq₂, ha₂⟩ := serve_spec h₀ (Sound.after h₀ later ha.sound).sound c' last
    obtain ⟨hcom₃, hcase⟩ := ha₂.broken hb₂
    dsimp only
    rw [heq₂]
    refine ⟨hcom₃.trans (hcom₂.trans hcom), hcase.imp ?_ fun hok => hok.2⟩
    rintro ⟨hfail, hb₃⟩
    refine ⟨hfail, ?_⟩
    rcases hb₃ with hσ | ⟨_, hσ⟩ <;> rw [hσ] <;> rfl
  · obtain ⟨db₁, r, heq, ha⟩ := serve_spec h₀ h c req
    rw [heq] at he hran ⊢
    have hfate : Fate db₁ id := by
      rcases hran with ⟨σ, hσ⟩ | ⟨hreq, hσ⟩
      · rcases ha.body with hsame | ⟨σ', id', hσ', hfate⟩
        · rw [hsame] at hσ
          exact absurd hσ.symm (List.cons_ne_self _ _)
        · rw [hσ'] at hσ
          cases hσ
          exact hfate e he hne
      · exact ha.commit id hreq hσ e he hne
    refine ⟨hfate, fun later => ?_⟩
    have hlater := Sound.after h₀ later ha.sound
    have hd := hlater.dead id hfate.dead
    exact ⟨hd, fun r => ⟨hlater.sound.committedRow h₀ r, fun v hv => hlater.sound.writer_ne h₀ hd hv⟩⟩

def calm : Conditions :=
  let st : Storage := ⟨fun l => l, fun _ => .refl _, fun _ => false, fun _ => false⟩
  ⟨st, st, st, [], fun _ => false, false⟩

/-- A statement in a block that inserts a row and then fails: the next one is refused, and the
row is gone for good. -/
theorem session_after_failed_insert :
    let db := (Database.new Engine.oneTable.mgr).after [(.statement .startTransaction, calm)]
    let insert : Request := .statement (.other ⟨[.logFirstWrite 0, .insert 0 0 1 [7]], .error .execute⟩)
    let next : Request := .plan ⟨[], .ok .rows⟩
    (insert.serve db calm).2 = .error (.rolledBack .execute true) ∧
      (∀ a ∈ (insert.serve db calm).1.answers [(next, calm)], ∃ e, a.2 = .error e) ∧
      Fate (insert.serve db calm).1 0 := by
  intro db insert next
  have hall := session_keeps_its_transactions Engine.oneTable_initial.mgr [(.statement .startTransaction, calm)]
  refine ⟨rfl, (hall.2.2.1 insert calm _ [(next, calm)] rfl rfl rfl ?_).1,
    (hall.2.2.2 insert calm 0 _ rfl (by simp) ?_).1⟩
  · intro a ha hends
    obtain rfl := List.mem_singleton.mp ha
    cases hends
  · exact .inl ⟨_, rfl⟩

end Database

end Cmudb
