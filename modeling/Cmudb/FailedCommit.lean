import Cmudb.OwnView

/-!
# Commits that fail

A commit that fails takes its stamps back and taints its transaction. Nobody
reads its versions, and nobody writes over them, before or after. A uniqueness
check may skip a slot it has stamped; where none did, the check would not have
passed without the failed commit either, and keys stay unique.
-/

namespace Cmudb

namespace TransactionManager

section
variable {base : RecordId → List Version} {s : TransactionManager} {id i : Nat} {txn : Transaction} {r : RecordId}

/-- Every transaction, ended or not, reads its own write or a committed version in its snapshot. -/
theorem Inv.visible_source (h : Inv base s) (ht : s.txns id = some txn) {data : Bytes}
    (hv : s.visible id txn r = some data) : latestWrite id r s.events = some (some data) ∨
      ∃ v ∈ s.versionsOf base r, v.ts ≤ txn.readTs ∧ v.data = some data := by
  by_cases hown : ∃ m b, s.heap.slot r = some (m, b) ∧ m.ts = .txn id
  · obtain ⟨m, b, hs, hm⟩ := hown
    obtain ⟨t, own⟩ := h.owner hs (h.currentStamp_of_txn hs hm)
    rw [visible_own hs hm] at hv
    rw [hv] at own
    exact .inl own.latest
  · obtain ⟨l, hcovers, hl⟩ := h.visible_covers (r := r) ht fun m b hs hm => hown ⟨m, b, hs, hm⟩
    rw [hl] at hv
    obtain ⟨en, hen, hdata⟩ := Option.bind_eq_some_iff.mp hv
    obtain ⟨v, hv, rfl⟩ := List.mem_map.mp (hcovers.isPrefix.subset (List.mem_of_find?_eq_some hen))
    exact .inr ⟨v, hv, by simpa [Version.entry] using List.find?_some hen, hdata⟩

theorem Inv.checkWrite_held (h : Inv base s) {m : TupleMeta} (hm : m.ts = s.currentStamp id r) (hne : i ≠ id)
    (ht : s.txns i = some txn) : checkWrite i txn r m = .error (.writeConflict r) := by
  have hread := (h.handles i txn ht).2.1
  unfold checkWrite
  rw [if_pos]
  rcases currentStamp_cases s id r with hc | hc
  · rw [hm, hc]
    exact ⟨by simpa using hne.symm, rfl⟩
  · rw [hm, hc]
    refine ⟨by simp, ?_⟩
    simp only [Stamp.le_commit, Bool.or_eq_true, Bool.not_eq_true', decide_eq_false_iff_not]
    right
    omega

end

end TransactionManager

namespace Engine

open TransactionManager

section
variable {cat : Catalog} {base : RecordId → List Version} {e e' : Engine} {id i fresh : Nat} {txn : Transaction}
  {t : Task} {rest : List Task} {r : RecordId}

theorem fileEntry_passedOver {ix : IndexInfo} {tuple : Bytes} (h : e.fileEntry ix tuple r = .ok e') :
    e'.passedOver = e.passedOver :=
  (fileEntry_tasks h).2.2.2

theorem exec_passedOver (h : e.exec cat id txn fresh rest t = some e') : ∀ r ∈ e.passedOver, r ∈ e'.passedOver := by
  intro r hr
  cases t with
  | judge ix key rid =>
    simp only [exec] at h
    split at h
    · cases h; exact hr
    · split at h
      · cases h; exact hr
      · cases h
        show r ∈ if _ then _ else _
        split
        · exact List.mem_cons_of_mem _ hr
        · exact hr
  | file ix tuple rid =>
    simp only [exec] at h
    split at h
    · cases h; exact hr
    · rename_i e₁ hf
      cases h
      show r ∈ e₁.passedOver
      rw [fileEntry_passedOver hf]
      exact hr
  | lock ix =>
    simp only [exec] at h
    split at h
    · cases h
    · cases h; exact hr
  | unlock ix => cases h; exact hr
  | logFirstWrite => cases h; exact hr
  | taint err => cases h; exact hr
  | check ix tuple own =>
    simp only [exec] at h
    split at h <;> cases h <;> exact hr
  | delete rid =>
    simp only [exec] at h
    split at h <;> cases h <;> exact hr
  | insert table tuple =>
    simp only [exec] at h
    split at h <;> cases h <;> exact hr
  | update table rid old new =>
    simp only [exec] at h
    split at h
    · cases h; exact hr
    · split at h <;> cases h <;> exact hr
  | rekey ix rid old new =>
    simp only [exec] at h
    split at h
    · cases h; exact hr
    · cases h; exact hr
    · split at h
      · cases h; exact hr
      · split at h <;> cases h <;> exact hr
  | recheck ix rid old new =>
    simp only [exec] at h
    split at h
    · cases h; exact hr
    · cases h; exact hr
    · split at h
      · cases h; exact hr
      · split at h <;> cases h <;> exact hr

theorem execFailing_passedOver (h : e.execFailing cat id txn t = some e') : e'.passedOver = e.passedOver := by
  cases t <;> simp only [execFailing] at h <;> cases h <;> rfl

def PassedOver (id : Nat) (r : RecordId) (e : Engine) : Prop := r ∈ e.passedOver ∧ r ∈ e.mgr.stampedRids id

def Committed (id : Nat) (e : Engine) : Prop := ∃ txn, e.mgr.txns id = some txn ∧ txn.state = .committed

theorem publish_committed {s s' : TransactionManager} (hr : r ∈ s.stampedRids id)
    (hstep : s.step .publish = some s') :
    ∃ txn, s'.txns id = some txn ∧ txn.state = .committed := by
  simp only [TransactionManager.step, publishStep] at hstep
  split at hstep
  · rename_i j ts done hl
    obtain ⟨t, ht, rfl⟩ := Option.map_eq_some_iff.mp hstep
    have hj : j = id := by
      simp only [stampedRids, hl] at hr
      split at hr
      · assumption
      · cases hr
    subst hj
    exact ⟨_, publish_handle ht ts, rfl⟩
  · cases hstep

theorem PassedOver.step {a : Action} (hp : PassedOver id r e) (h : Inv base e.mgr) (hok : e.keepsKeys a = true)
    (hs : e.step cat a = some e') : PassedOver id r e' ∨ Committed id e' := by
  have hput := keepsKeys_putBack e a hok
  have hstamped : ∀ b, Simulates e a b → e.mgr.step b = some e'.mgr → b ≠ .publish → (∀ fails, b ≠ .unstamp fails) →
      r ∈ e'.mgr.stampedRids id :=
        fun b hsim hb hpub hun => (h.change (putBack_mgr hput hsim) hb).stamped hpub hun hp.2
  cases a with
  | call j c =>
    simp only [Engine.step] at hs
    split at hs
    · cases hs
    · obtain ⟨_, _, rfl⟩ := Option.map_eq_some_iff.mp hs
      exact .inl hp
  | run j fresh fails =>
    refine .inl ⟨?_, ?_⟩
    · simp only [Engine.step] at hs
      split at hs
      · cases hs
      · obtain ⟨_, _, hs⟩ := Option.bind_eq_some_iff.mp hs
        split at hs
        · rw [execFailing_passedOver hs]; exact hp.1
        · exact exec_passedOver hs r hp.1
    · rcases step_mgr hput hs with heq | ⟨b, hsim, hb⟩
      · rw [heq]; exact hp.2
      · refine hstamped b hsim hb ?_ ?_
        · rintro rfl; cases hsim.1
        · rintro f rfl; cases hsim.1
  | strand j fresh => cases hput
  | astray oid found =>
    simp only [Engine.step] at hs
    split at hs
    · cases hs; exact .inl hp
    · cases hs
  | mgr a =>
    simp only [Engine.step] at hs
    split at hs
    · obtain ⟨m, hm, rfl⟩ := Option.map_eq_some_iff.mp hs
      by_cases hpub : a = .publish
      · subst hpub
        exact .inr (publish_committed hp.2 hm)
      · have hun : ∀ fails, a ≠ .unstamp fails := by
          rintro fails rfl
          have hnil := (Bool.and_eq_true_iff.mp (Bool.and_eq_true_iff.mp hok).2).2
          have hmem := hp.1
          rw [List.isEmpty_iff.mp hnil] at hmem
          cases hmem
        refine .inl ⟨?_, hstamped a rfl hm hpub hun⟩
        show r ∈ (e.settle a m).passedOver
        cases a with
        | publish => exact absurd rfl hpub
        | unstamp fails => exact absurd rfl (hun fails)
        | _ => exact hp.1
    · cases hs

theorem Committed.run {e₀ : Engine} (hc : Committed id e) (h : Inv e₀.mgr.base e.mgr)
    (hr : Lib.Steps (Engine.step cat) (fun e a => e.putBack a = true) e e') : Committed id e' := by
  obtain ⟨txn, ht, hst⟩ := hc
  have hrm := steps_mgr (fun _ _ ha => ha) (fun e _ _ ha hs => putBack_mgr ha hs) hr
  obtain ⟨txn', ht', hkept⟩ := (h.run_kept hrm).2.2 id txn ht
  exact ⟨txn', ht', (hkept.closed (by rw [Transaction.unfinished, hst])).1.trans hst⟩

theorem PassedOver.run {e₀ : Engine} (hp : PassedOver id r e) (h₀ : e₀.Initial)
    (hr₀ : Lib.Steps (Engine.step cat) (fun e a => e.keepsKeys a = true) e₀ e)
    (hr : Lib.Steps (Engine.step cat) (fun e a => e.keepsKeys a = true) e e') :
    PassedOver id r e' ∨ Committed id e' := by
  induction hr with
  | refl => exact .inl hp
  | tail hr ha hs ih =>
    have h := run_inv keepsKeys_putBack h₀ (hr₀.trans hr)
    rcases ih with ih | ih
    · exact ih.step h ha hs
    · exact .inr (ih.run h (.tail .refl (keepsKeys_putBack _ _ ha) hs))

theorem not_committed {failed : Transaction} (ht : e.mgr.txns id = some failed)
    (hfailed : failed.state = .tainted ∨ failed.state = .aborted) : ¬ Committed id e := by
  rintro ⟨txn, ht', hst⟩
  rw [ht] at ht'
  cases ht'
  rcases hfailed with h | h <;> rw [hst] at h <;> cases h

theorem writer_ne {e₀ : Engine} (h₀ : e₀.Initial)
    (hr : Lib.Steps (Engine.step cat) (fun e a => e.putBack a = true) e₀ e)
    (hnot : ¬ Committed id e) {v : Version} (hv : v ∈ history e₀.mgr.base r e.mgr.events) : v.writer ≠ some id := by
  intro hw
  have hc := ConflictInv.run h₀.mgr (steps_mgr (fun _ _ ha => ha) (fun e _ _ ha hs => putBack_mgr ha hs) hr)
  obtain ⟨txn, ht, hst, _⟩ := hc.committed id v.ts (hc.writer r v hv id hw).1
  exact hnot ⟨txn, ht, hst⟩

/-- A uniqueness check that passes a row of another transaction has passed over its stamp. -/
theorem judge_held {ix : IndexInfo} {key : IndexKey} {m : TupleMeta} {b : Bytes} (hne : i ≠ id)
    (hm : m.ts = e.mgr.currentStamp id r) (hj : judge i txn ix key r m b = .ok ()) :
    r ∈ e.mgr.stampedRids id ∧ e.unpublished m = true := by
  unfold currentStamp at hm
  split at hm
  · rename_i hmem
    exact ⟨hmem, by simp [unpublished, hm]⟩
  · exact absurd ((judge_ok hj).2 id hm).symm hne

end

/-- A transaction whose commit has failed, at any time before and after that. -/
theorem failed_commit_invisible {cat : Catalog} {e₀ e e' : Engine} {id : Nat} {failed : Transaction}
    (h₀ : e₀.Initial) (hr₀ : Lib.Steps (step cat) (fun e a => e.putBack a = true) e₀ e)
    (hr : Lib.Steps (step cat) (fun e a => e.putBack a = true) e e')
    (ht : e'.mgr.txns id = some failed) (hfailed : failed.state = .tainted ∨ failed.state = .aborted) :
    -- what others read is their own, or committed by somebody else
    (∀ i txn r data, i ≠ id → e.mgr.txns i = some txn → e.mgr.visible i txn r = some data →
      latestWrite i r e.mgr.events = some (some data) ∨
        ∃ v ∈ history e₀.mgr.base r e.mgr.events, v.writer ≠ some id ∧ v.ts ≤ txn.readTs ∧ v.data = some data) ∧
    -- its rows, stamped or not, are write conflicts for the others
    (∀ i txn r m b, i ≠ id → e.mgr.txns i = some txn → e.mgr.heap.slot r = some (m, b) →
      m.ts = e.mgr.currentStamp id r → checkWrite i txn r m = .error (.writeConflict r)) ∧
    (Lib.Steps (step cat) (fun e a => e.keepsKeys a = true) e₀ e →
      -- and uniqueness checks of the others fail on them
      (∀ i txn fresh e₁ ix key r rest m b, i ≠ id → e.mgr.txns i = some txn → e.tasks i = .judge ix key r :: rest →
        e.mgr.heap.slot r = some (m, b) → m.ts = e.mgr.currentStamp id r →
        e.step cat (.run i fresh false) = some e₁ → Lib.Steps (step cat) (fun e a => e.keepsKeys a = true) e₁ e' →
        ∃ err, judge i txn ix key r m b = .error err) ∧
      ∀ table, e₀.EmptyTable table → ∀ t, ∀ ix ∈ cat.indexes, ix.table = table → ∀ r q row row' key,
        e.rowAt e₀.mgr.base table t r = some row → e.rowAt e₀.mgr.base table t q = some row' →
        ix.keyOfTuple row = .ok (some key) → ix.keyOfTuple row' = .ok (some key) → r = q) := by
  have hput : ∀ (e : Engine) a, e.putBack a = true → e.putBack a = true := fun _ _ ha => ha
  have hinv := run_inv hput h₀ hr₀
  have hnot' := not_committed ht hfailed
  have hnot : ¬ Committed id e := fun hc => hnot' (hc.run hinv hr)
  refine ⟨fun i txn r data _ hi hv => ?_, fun i txn r m b hne hi _ hm => hinv.checkWrite_held hm hne hi,
    fun hkeeps => ⟨fun i txn fresh e₁ ix key r rest m b hne hi htask hs hm hstep hrest => ?_, ?_⟩⟩
  · refine (hinv.visible_source hi hv).imp_right ?_
    rintro ⟨v, hmem, hle, hdata⟩
    exact ⟨v, hmem, writer_ne h₀ hr₀ hnot hmem, hle, hdata⟩
  · cases hj : judge i txn ix key r m b with
    | error err => exact ⟨err, rfl⟩
    | ok _ =>
      obtain ⟨hmem, hun⟩ := judge_held hne hm hj
      have hp : PassedOver id r e₁ := by
        simp only [step, htask] at hstep
        obtain ⟨txn', hc, hstep⟩ := Option.bind_eq_some_iff.mp hstep
        obtain ⟨hi', _⟩ := caller_eq hc
        rw [hi] at hi'
        cases hi'
        simp only [exec, (Heap.readSlot_eq _ _ _).mpr hs, hj, hun] at hstep
        cases hstep
        exact ⟨List.mem_cons_self, hmem⟩
      rcases hp.run h₀ (hkeeps.tail rfl hstep) hrest with hp' | hc
      · have hinv' := run_inv keepsKeys_putBack h₀ ((hkeeps.tail rfl hstep).trans hrest)
        obtain ⟨txn', ht', hrun, _⟩ := hinv'.stamped_listed hp'.2
        rw [ht] at ht'
        cases ht'
        rcases hfailed with h | h <;> rw [hrun] at h <;> cases h
      · exact absurd hc hnot'
  · rintro table hempty t ix hix rfl r q row row' key hrow hrow' hkey hkey'
    exact (run_keyInv h₀ hempty hix hkeeps).committed t r q key (keyAt_of_row hrow hkey) (keyAt_of_row hrow' hkey')

/-- A commit that has stamped one of its two rows, and fails on the other one. -/
theorem failed_commit_invisible_half_stamped :
    ∃ e e' failed, Lib.Steps (step byFirstByte) (fun e a => e.putBack a = true) oneTable e ∧
      Lib.Steps (step byFirstByte) (fun e a => e.putBack a = true) e e' ∧ e'.mgr.txns 0 = some failed ∧
      failed.state = .tainted ∧ e.mgr.heap.slot ⟨0, 0⟩ = some (⟨.commit 1, false⟩, [1, 10]) ∧
      ∀ txn, e.mgr.txns 1 = some txn → checkWrite 1 txn ⟨0, 0⟩ ⟨.commit 1, false⟩ =
        .error (.writeConflict ⟨0, 0⟩) := by
  obtain ⟨e, hr₀, hp⟩ : ∃ e, Lib.Steps (step byFirstByte) (fun e a => e.putBack a = true) oneTable e ∧
      ((e.mgr.heap.slot ⟨0, 0⟩ == some (⟨.commit 1, false⟩, [1, 10]) && e.mgr.currentStamp 0 ⟨0, 0⟩ == .commit 1) &&
        (Lib.runFrom (step byFirstByte) putBack e [.mgr (.stamp ⟨0, 1⟩ true), .mgr (.unstamp false),
          .mgr (.unstamp false)]).any
          fun e' => (e'.mgr.txns 0).any fun txn => txn.state == .tainted) = true :=
    Lib.exists_steps (.mgr .begin :: wholeCall 0 (.insertTuple 0 [1, 10]) 6 ++
      wholeCall 0 (.insertTuple 0 [2, 20]) 6 ++
      [.mgr (.commit 0), .mgr (.stamp ⟨0, 0⟩ false), .mgr .begin]) (by decide)
  obtain ⟨hp, hrest⟩ := Bool.and_eq_true_iff.mp hp
  obtain ⟨hs, hcur⟩ := Bool.and_eq_true_iff.mp hp
  obtain ⟨e', hr, hany⟩ := Lib.exists_steps _ hrest
  obtain ⟨failed, ht, hst⟩ := (Option.any_eq_true _ _).mp hany
  refine ⟨e, e', failed, hr₀, hr, ht, eq_of_beq hst, eq_of_beq hs, fun txn hi => ?_⟩
  exact (failed_commit_invisible oneTable_initial hr₀ hr ht (.inl (eq_of_beq hst))).2.1 1 txn
    ⟨0, 0⟩ _ _ (by decide) hi (eq_of_beq hs) (eq_of_beq hcur).symm

/-- A stamp that cannot be taken back is published by the next commit: transaction 2 reads
what the tainted transaction 0 wrote. And a stamp that is taken back after transaction 2 has
passed over it lets transaction 2 commit a key that the abort brings back. -/
theorem failed_commit_seen :
    (∃ e, Lib.Steps (step byFirstByte) (fun _ _ => true = true) oneTable e ∧
      ((e.mgr.txns 0).any (fun txn => txn.state == .tainted &&
          txn.writeSet == [(⟨0, 0⟩, false), (⟨0, 1⟩, false)]) &&
        (e.mgr.txns 2).any fun txn => e.mgr.visible 2 txn ⟨0, 0⟩ == some [1, 10]) = true) ∧
    ∃ e, Lib.Steps (step byFirstByte) (fun e a => (e.putBack a && e.honest a) = true) oneTable e ∧
      ((e.mgr.txns 1).any (fun txn => txn.state == .aborted) &&
        e.rowAt oneTable.mgr.base 0 2 ⟨0, 0⟩ == some [1, 10] &&
        e.rowAt oneTable.mgr.base 0 2 ⟨0, 2⟩ == some [1, 20]) = true := by
  constructor
  · exact Lib.exists_steps (.mgr .begin :: wholeCall 0 (.insertTuple 0 [1, 10]) 6 ++
      wholeCall 0 (.insertTuple 0 [2, 20]) 6 ++ [.mgr (.commit 0), .mgr (.stamp ⟨0, 0⟩ false),
        .mgr (.stamp ⟨0, 1⟩ true),
      .mgr (.unstamp true), .mgr .begin] ++ wholeCall 1 (.insertTuple 0 [3, 30]) 6 ++ wholeCommit 1 [⟨0, 2⟩] ++
      [.mgr .begin]) (by decide)
  · exact Lib.exists_steps (.mgr .begin :: wholeCall 0 (.insertTuple 0 [1, 10]) 6 ++ wholeCommit 0 [⟨0, 0⟩] ++
      .mgr .begin :: wholeCall 1 (.updateTuple 0 ⟨0, 0⟩ [1, 10] [2, 10]) 6 ++
        wholeCall 1 (.insertTuple 0 [5, 50]) 6 ++
      [.mgr (.commit 1), .mgr (.stamp ⟨0, 0⟩ false), .mgr .begin] ++ wholeCall 2 (.insertTuple 0 [1, 20]) 7 ++
      [.mgr (.stamp ⟨0, 1⟩ true), .mgr (.unstamp false), .mgr (.unstamp false), .mgr (.abort 1),
      .mgr (.restore ⟨0, 0⟩ false), .mgr (.restore ⟨0, 1⟩ false), .mgr .finishAbort] ++ wholeCommit 2 [⟨0, 2⟩])
      (by decide)

end Engine

end Cmudb
