import Cmudb.Effects
import Cmudb.Mvcc

/-!
# Runs of calls are runs of the manager

Every task of a call is one step of the transaction manager, or none. So what
holds in every run of the manager holds in every run of calls.
-/

namespace Cmudb

namespace Engine

def noStorageFailure (_ : Engine) : Action → Bool
  | .run _ _ fails => !fails
  | .strand .. | .astray .. => false
  | .mgr (.stamp _ fails) | .mgr (.unstamp fails) | .mgr (.restore _ fails) => !fails
  | _ => true

/-- Every slot stamped by a commit that then fails is put back, and no row is stranded. -/
def putBack (_ : Engine) : Action → Bool
  | .mgr (.unstamp fails) => !fails
  | .strand .. => false
  | _ => true

def onOpen (e : Engine) : Action → Bool
  | .call id _ | .mgr (.commit id) | .mgr (.abort id) => (e.mgr.txns id).any Transaction.unfinished
  | _ => true

def Simulates (e : Engine) (a : Action) (b : TransactionManager.Action) : Prop :=
  match a with
  | .mgr a => b = a
  | .run id _ _ => b.writer = some id ∧ e.busy id = true
  | .call .. | .strand .. | .astray .. => False

section
variable {cat : Catalog} {e e' : Engine} {id fresh : Nat} {txn : Transaction} {t : Task} {rest : List Task}

theorem exec_mgr (hc : e.mgr.caller id = some txn) (h : e.exec cat id txn fresh rest t = some e') :
    e'.mgr = e.mgr ∨ ∃ b, b.writer = some id ∧ e.mgr.step b = some e'.mgr := by
  cases t with
  | lock ix =>
    simp only [exec] at h
    split at h
    · cases h
    · cases h; exact .inl rfl
  | unlock ix => cases h; exact .inl rfl
  | check ix tuple own =>
    simp only [exec] at h
    split at h <;> cases h <;> exact .inl rfl
  | judge ix key rid =>
    simp only [exec] at h
    split at h
    · cases h; exact .inl rfl
    · split at h <;> cases h <;> exact .inl rfl
  | rekey ix rid old new =>
    simp only [exec] at h
    split at h
    · cases h; exact .inl rfl
    · cases h; exact .inl rfl
    · split at h
      · cases h; exact .inl rfl
      · split at h <;> cases h <;> exact .inl rfl
  | recheck ix rid old new =>
    simp only [exec] at h
    split at h
    · cases h; exact .inl rfl
    · cases h; exact .inl rfl
    · split at h
      · cases h; exact .inl rfl
      · split at h <;> cases h <;> exact .inl rfl
  | logFirstWrite =>
    cases h
    exact .inr ⟨.logFirstWrite id, rfl, by simp [TransactionManager.step, hc]⟩
  | update table rid old new =>
    refine .inr ⟨.write id rid (some new), rfl, ?_⟩
    simp only [exec] at h
    simp only [TransactionManager.step, hc, Option.map_some, Option.some.injEq]
    split at h
    · rename_i hw
      cases h
      rw [hw]
    · rename_i hw
      split at h <;> cases h <;> rw [hw]
  | delete rid =>
    refine .inr ⟨.write id rid none, rfl, ?_⟩
    simp only [exec] at h
    simp only [TransactionManager.step, hc, Option.map_some, Option.some.injEq]
    split at h <;> rename_i hw <;> cases h <;> rw [hw]
  | insert table tuple =>
    simp only [exec] at h
    split at h
    · cases h; exact .inl rfl
    · rename_i hi
      cases h
      exact .inr ⟨.insert id table fresh tuple, rfl, by simp [TransactionManager.step, hc, hi]⟩
  | file ix tuple rid =>
    simp only [exec] at h
    split at h
    · cases h; exact .inl rfl
    · rename_i e₁ hf
      cases h
      unfold fileEntry at hf
      split at hf
      · cases hf
      · cases hf; exact .inl rfl
      · split at hf
        · cases hf
        · split at hf <;> cases hf <;> exact .inl rfl
  | taint err =>
    cases h
    exact .inr ⟨.taint id, rfl, by simp [TransactionManager.step, hc]⟩

theorem execFailing_mgr (hc : e.mgr.caller id = some txn) (h : e.execFailing cat id txn t = some e') :
    e'.mgr = e.mgr ∨ ∃ b, b.writer = some id ∧ e.mgr.step b = some e'.mgr := by
  have hlog : ∀ {e₁ : Engine}, e₁.mgr = e.mgr.logFirstWrite id txn →
      ∃ b, b.writer = some id ∧ e.mgr.step b = some e₁.mgr := fun h =>
    ⟨.logFirstWrite id, rfl, by simp [TransactionManager.step, hc, h]⟩
  cases t <;> simp only [execFailing] at h <;> cases h
  case update => exact .inr (hlog rfl)
  case delete => exact .inr (hlog rfl)
  all_goals exact .inl rfl

theorem step_mgr {a : Action} (hput : e.putBack a = true) (h : e.step cat a = some e') :
    e'.mgr = e.mgr ∨ ∃ b, Simulates e a b ∧ e.mgr.step b = some e'.mgr := by
  cases a with
  | call id c =>
    simp only [step] at h
    split at h
    · cases h
    · obtain ⟨_, _, rfl⟩ := Option.map_eq_some_iff.mp h
      exact .inl rfl
  | run id fresh fails =>
    simp only [step] at h
    split at h
    · cases h
    · rename_i t rest ht
      have hbusy : e.busy id = true := by simp [busy, ht]
      obtain ⟨txn, hc, hs⟩ := Option.bind_eq_some_iff.mp h
      have : e'.mgr = e.mgr ∨ ∃ b, b.writer = some id ∧ e.mgr.step b = some e'.mgr := by
        split at hs
        · exact execFailing_mgr hc hs
        · exact exec_mgr hc hs
      rcases this with heq | ⟨b, hb, hstep⟩
      · exact .inl heq
      · exact .inr ⟨b, ⟨hb, hbusy⟩, hstep⟩
  | strand id fresh => cases hput
  | astray oid found =>
    simp only [step] at h
    split at h
    · cases h; exact .inl rfl
    · cases h
  | mgr a =>
    simp only [step] at h
    split at h
    · obtain ⟨mgr, hm, rfl⟩ := Option.map_eq_some_iff.mp h
      exact .inr ⟨a, rfl, hm⟩
    · cases h

theorem steps_mgr {ok : Engine → Action → Bool} {okMgr : TransactionManager → TransactionManager.Action → Prop}
    (hput : ∀ e a, ok e a = true → e.putBack a = true)
    (hok : ∀ e a b, ok e a = true → Simulates e a b → okMgr e.mgr b)
    (hr : Lib.Steps (step cat) (fun e a => ok e a = true) e e') :
    Lib.Steps TransactionManager.step okMgr e.mgr e'.mgr := by
  induction hr with
  | refl => exact .refl
  | tail _ ha hs ih =>
    rcases step_mgr (hput _ _ ha) hs with heq | ⟨b, hsim, hstep⟩
    · rw [heq]; exact ih
    · exact .tail ih (hok _ _ b ha hsim) hstep

theorem putBack_mgr {a : Action} {b : TransactionManager.Action} (h : e.putBack a = true) (hs : Simulates e a b) :
    TransactionManager.PutBack e.mgr b := by
  rintro rfl
  cases a with
  | run => cases hs.1
  | mgr a => cases hs; cases h
  | _ => exact hs

theorem noStorageFailure_putBack {a : Action} (h : e.noStorageFailure a = true) : e.putBack a = true := by
  cases a with
  | strand => exact h
  | mgr a => cases a with
    | unstamp fails => exact h
    | _ => rfl
  | _ => rfl

/-! ## Calls under way -/

theorem fileEntry_tasks {ix : IndexInfo} {tuple : Bytes} {rid : RecordId} (h : e.fileEntry ix tuple rid = .ok e') :
    e'.tasks = e.tasks ∧ e'.mgr = e.mgr ∧ e'.uniqueLatch = e.uniqueLatch ∧ e'.passedOver = e.passedOver := by
  unfold fileEntry at h
  split at h
  · cases h
  · cases h; exact ⟨rfl, rfl, rfl, rfl⟩
  · split at h
    · cases h
    · split at h <;> cases h <;> exact ⟨rfl, rfl, rfl, rfl⟩

theorem goOn_of_ne {i : Nat} {ts : List Task} (hi : i ≠ id) : (e.goOn id ts).tasks i = e.tasks i :=
  Function.update_of_ne hi _ _

theorem fail_of_ne {i : Nat} {err : MvccError} (hi : i ≠ id) : (e.fail cat id err).tasks i = e.tasks i :=
  goOn_of_ne hi

theorem exec_tasks {i : Nat} (h : e.exec cat id txn fresh rest t = some e') (hi : i ≠ id) :
    e'.tasks i = e.tasks i := by
  cases t with
  | lock ix =>
    simp only [exec] at h
    split at h
    · cases h
    · cases h; exact goOn_of_ne hi
  | unlock ix => cases h; exact goOn_of_ne hi
  | check ix tuple own =>
    simp only [exec] at h
    split at h <;> cases h <;> exact goOn_of_ne hi
  | judge ix key rid =>
    simp only [exec] at h
    split at h
    · cases h; exact goOn_of_ne hi
    · split at h <;> cases h <;> exact goOn_of_ne hi
  | rekey ix rid old new =>
    simp only [exec] at h
    split at h
    · cases h; exact goOn_of_ne hi
    · cases h; exact goOn_of_ne hi
    · split at h
      · cases h; exact goOn_of_ne hi
      · split at h <;> cases h <;> exact goOn_of_ne hi
  | recheck ix rid old new =>
    simp only [exec] at h
    split at h
    · cases h; exact goOn_of_ne hi
    · cases h; exact goOn_of_ne hi
    · split at h
      · cases h; exact goOn_of_ne hi
      · split at h <;> cases h <;> exact goOn_of_ne hi
  | logFirstWrite => cases h; exact goOn_of_ne hi
  | update table rid old new =>
    simp only [exec] at h
    split at h
    · cases h; exact goOn_of_ne hi
    · split at h <;> cases h <;> exact goOn_of_ne hi
  | delete rid =>
    simp only [exec] at h
    split at h <;> cases h <;> exact goOn_of_ne hi
  | insert table tuple =>
    simp only [exec] at h
    split at h <;> cases h <;> exact goOn_of_ne hi
  | file ix tuple rid =>
    simp only [exec] at h
    split at h
    · cases h; exact goOn_of_ne hi
    · rename_i e₁ hf
      cases h
      rw [goOn_of_ne hi, (fileEntry_tasks hf).1]
  | taint err => cases h; exact goOn_of_ne hi

theorem execFailing_tasks {i : Nat} (h : e.execFailing cat id txn t = some e') (hi : i ≠ id) :
    e'.tasks i = e.tasks i := by
  cases t <;> simp only [execFailing] at h <;> cases h <;> exact fail_of_ne hi

theorem strand_tasks {i : Nat} (h : e.strand cat id fresh t = some e') (hi : i ≠ id) : e'.tasks i = e.tasks i := by
  cases t with
  | insert table tuple =>
    obtain ⟨heap, _, rfl⟩ := Option.map_eq_some_iff.mp h
    exact fail_of_ne hi
  | _ => cases h

theorem step_busy {a : Action} {i : Nat} (h : e.step cat a = some e') (hb : e'.busy i = true) :
    e.busy i = true ∨ ∃ c, a = .call i c ∧ (e.mgr.caller i).isSome := by
  cases a with
  | call id c =>
    simp only [step] at h
    split at h
    · cases h
    · obtain ⟨t, hc, rfl⟩ := Option.map_eq_some_iff.mp h
      by_cases hi : i = id
      · subst hi; exact .inr ⟨c, rfl, by rw [hc]; rfl⟩
      · unfold busy at hb ⊢
        rw [goOn_of_ne hi] at hb
        exact .inl hb
  | run id fresh fails =>
    simp only [step] at h
    split at h
    · cases h
    · rename_i t rest ht
      by_cases hi : i = id
      · subst hi; exact .inl (by simp [busy, ht])
      · obtain ⟨txn, _, hs⟩ := Option.bind_eq_some_iff.mp h
        have : e'.tasks i = e.tasks i := by
          split at hs
          · exact execFailing_tasks hs hi
          · exact exec_tasks hs hi
        unfold busy at hb ⊢
        rw [this] at hb
        exact .inl hb
  | strand id fresh =>
    simp only [step] at h
    split at h
    · cases h
    · rename_i t rest ht
      by_cases hi : i = id
      · subst hi; exact .inl (by simp [busy, ht])
      · obtain ⟨_, _, hs⟩ := Option.bind_eq_some_iff.mp h
        unfold busy at hb ⊢
        rw [strand_tasks hs hi] at hb
        exact .inl hb
  | astray oid found =>
    simp only [step] at h
    split at h
    · cases h; exact .inl hb
    · cases h
  | mgr a =>
    simp only [step] at h
    split at h
    · obtain ⟨m, _, rfl⟩ := Option.map_eq_some_iff.mp h
      exact .inl hb
    · cases h

theorem run_not_ending {e₀ : Engine} {ok : Engine → Action → Bool} (hok : ∀ e a, ok e a = true → e.putBack a = true)
    (h₀ : e₀.Initial) (hr : Lib.Steps (step cat) (fun e a => ok e a = true) e₀ e) (i : Nat) (hb : e.busy i = true) :
    e.mgr.ending i = false := by
  refine hr.invariant (P := fun e => ∀ i, e.busy i = true → e.mgr.ending i = false) ?_ ?_ i hb
  · intro e e' a ih ha hs i hb
    cases he : e'.mgr.ending i with
    | false => rfl
    | true =>
      rcases step_busy hs hb with hb' | ⟨c, rfl, hc⟩
      · have hne := ih i hb'
        rcases step_mgr (hok e a ha) hs with heq | ⟨b, hsim, hstep⟩
        · rw [heq, hne] at he; cases he
        · rcases TransactionManager.step_ending hstep he with h1 | rfl | rfl
          · rw [hne] at h1; cases h1
          all_goals
            cases a with
            | run => cases hsim.1
            | mgr a =>
              cases hsim
              simp only [step, allowed, hb', Bool.not_true] at hs
              cases hs
            | _ => exact hsim.elim
      · obtain ⟨t, hc⟩ := Option.isSome_iff_exists.mp hc
        simp only [step] at hs
        split at hs
        · cases hs
        · obtain ⟨_, _, rfl⟩ := Option.map_eq_some_iff.mp hs
          rw [← (TransactionManager.caller_eq hc).2]
          exact he.symm
  · intro i hb
    simp [busy, h₀.tasks] at hb

/-- The manager's invariant holds in every run of calls that puts failed commits back. -/
theorem run_inv {e₀ : Engine} {ok : Engine → Action → Bool} (hok : ∀ e a, ok e a = true → e.putBack a = true)
    (h₀ : e₀.Initial) (hr : Lib.Steps (step cat) (fun e a => ok e a = true) e₀ e) :
    TransactionManager.Inv e₀.mgr.base e.mgr :=
  .run h₀.mgr (steps_mgr hok (fun e _ _ ha hs => putBack_mgr (hok e _ ha) hs) hr)

theorem run_caller {e₀ : Engine} {ok : Engine → Action → Bool} (hok : ∀ e a, ok e a = true → e.putBack a = true)
    (h₀ : e₀.Initial) (hr : Lib.Steps (step cat) (fun e a => ok e a = true) e₀ e) {i : Nat} (hb : e.busy i = true) :
    (e.mgr.caller i).isSome := by
  have hhandle : (e.mgr.txns i).isSome := by
    induction hr with
    | refl => simp [busy, h₀.tasks] at hb
    | tail hr ha hs ih =>
      rcases step_busy hs hb with hb' | ⟨c, rfl, hc⟩
      · rcases step_mgr (hok _ _ ha) hs with heq | ⟨b, hsim, hstep⟩
        · rw [heq]; exact ih hb'
        · have h := run_inv hok h₀ hr
          obtain ⟨t, ht⟩ := Option.isSome_iff_exists.mp (ih hb')
          obtain ⟨t', ht', _⟩ := (h.change (putBack_mgr (hok _ _ ha) hsim) hstep).kept h.handles.fresh ht
          rw [ht']; rfl
      · obtain ⟨t, hc⟩ := Option.isSome_iff_exists.mp hc
        have hmgr := (step_mgr (hok _ _ ha) hs).resolve_right fun ⟨_, hsim, _⟩ => hsim
        rw [hmgr, (TransactionManager.caller_eq hc).1]; rfl
  simpa [TransactionManager.caller, run_not_ending hok h₀ hr i hb] using hhandle

end

end Engine

end Cmudb
