import Cmudb.KeyWrites

/-!
# Unique keys

In every run whose calls pass what their transaction sees, and whose failed
commits are taken back before a uniqueness check has passed over one of their
slots, no two rows of a committed state have the same key.
-/

namespace Cmudb

namespace Engine

open TransactionManager Lib.Reservations

/-- An update is given what its transaction sees of a row of the table. -/
def honest (e : Engine) : Action → Bool
  | .call id (.updateTuple table rid old _) =>
    (e.mgr.txns id).any (fun txn => e.mgr.visible id txn rid == some old) &&
      e.mgr.heap.owner rid.pageId == some table
  | _ => true

/-- Stamps are taken back without failure, and before a uniqueness check skipped a slot that has one.
No row is stranded, and lookups find what was filed. -/
def unskipped (e : Engine) : Action → Bool
  | .mgr (.unstamp fails) => !fails && e.passedOver.isEmpty
  | .strand .. | .astray .. => false
  | _ => true

section
variable {cat : Catalog} {ix : IndexInfo} {base : RecordId → List Version} {e e' : Engine} {id fresh : Nat}
  {txn : Transaction} {t : Task} {rest ts : List Task} {rid : RecordId}

theorem call_plain {c : Call} {u : Task} (hu : u ∈ c.tasks cat) :
    (∀ x, u.index = some x → x ∈ cat.indexes) ∧ (∀ err, u ≠ .taint err) ∧
      (u.isUpdate = true → ∃ table rid old new, c = .updateTuple table rid old new ∧
        u = .update table rid old new) := by
  have hsorted : ∀ {table i}, i ∈ cat.sorted table → ∀ x, some i = some x → x ∈ cat.indexes := by
    intro table i hi x hx
    cases hx
    exact (mem_sorted.mp hi).1
  cases c with
  | insertTuple table tuple =>
    simp only [Call.tasks, List.mem_append, List.mem_map, List.mem_cons, List.not_mem_nil, or_false] at hu
    rcases hu with ((⟨i, hi, rfl⟩ | ⟨i, hi, rfl⟩) | (rfl | rfl)) | ⟨i, hi, rfl⟩
    · exact ⟨hsorted hi, by simp, by simp [Task.isUpdate]⟩
    · exact ⟨hsorted hi, by simp, by simp [Task.isUpdate]⟩
    · exact ⟨by simp [Task.index], by simp, by simp [Task.isUpdate]⟩
    · exact ⟨by simp [Task.index], by simp, by simp [Task.isUpdate]⟩
    · exact ⟨hsorted hi, by simp, by simp [Task.isUpdate]⟩
  | updateTuple table rid old new =>
    simp only [Call.tasks, List.mem_cons, List.mem_map] at hu
    rcases hu with rfl | ⟨i, hi, rfl⟩
    · exact ⟨by simp [Task.index], by simp, fun _ => ⟨table, rid, old, new, rfl, rfl⟩⟩
    · exact ⟨hsorted hi, by simp, by simp [Task.isUpdate]⟩
  | deleteTuple rid =>
    rw [List.mem_singleton.mp hu]
    exact ⟨by simp [Task.index], by simp, by simp [Task.isUpdate]⟩

theorem KeyInv.call (hk : KeyInv ix base cat e) (h : Inv base e.mgr) (hix : ix ∈ cat.indexes) {c : Call}
    (hidle : e.tasks id = []) (hhonest : e.honest (.call id c) = true) :
    KeyInv ix base cat (e.goOn id (c.tasks cat)) := by
  have htask : (e.goOn id (c.tasks cat)).tasks id = c.tasks cat := by simp [goOn]
  have hsee : ∀ table rid old new, c = .updateTuple table rid old new → e.mgr.heap.owner rid.pageId = some table ∧
      ∃ t, e.mgr.txns id = some t ∧ e.mgr.visible id t rid = some old := by
    rintro table rid old new rfl
    obtain ⟨hany, ho⟩ := Bool.and_eq_true_iff.mp hhonest
    obtain ⟨t, ht, hv⟩ := (Option.any_eq_true _ _).mp hany
    exact ⟨eq_of_beq ho, t, ht, eq_of_beq hv⟩
  refine hk.quietTask h (.refl _) rfl (fun i hi => goOn_of_ne hi) (fun j _ => Iff.rfl) (fun r hr => hr)
    (fun r hr => .inl hr)
    (fun ha => ⟨⟨ha.1, ?_⟩, fun r hw => ?_⟩) ?_ (fun ha _ => ?_) ?_ ?_
  · rw [hidle]
    exact fun err hm => by cases hm
  · rw [hidle] at hw
    obtain ⟨_, u, hu, _⟩ := hw
    cases hu
  · have hg := hk.guarded id
    rw [hidle] at hg
    rw [htask, show decide ((e.goOn id (c.tasks cat)).uniqueLatch ix.oid = some id) = false from hg]
    exact call_guarded hix c
  · rw [htask]
    refine call_safe hix fun rid old new hcall => ?_
    obtain ⟨ho, t, ht, hv⟩ := hsee _ rid old new hcall
    simp [seenKey, ho, ht, hv]
  · rw [htask]
    exact fun u hu => (call_plain hu).1
  · rw [htask]
    intro table rid old new hm
    obtain ⟨table', rid', old', new', rfl, heq⟩ := (call_plain hm).2.2 rfl
    cases heq
    obtain ⟨ho, t, ht, hv⟩ := hsee _ _ _ _ rfl
    refine ⟨rfl, ho, ?_⟩
    cases hs : e.mgr.heap.slot rid with
    | none => rw [visible_of_none hs] at hv; cases hv
    | some v => rfl

/-! ## Steps outside the calls -/

theorem seenKey_outside (h : Inv base e.mgr) (h' : Inv base e'.mgr) {a : TransactionManager.Action}
    (hc : Change a e.mgr e'.mgr) (hw : a.writer = none) (htasks : e'.tasks = e.tasks)
    (hbusy : ∀ i, e.busy i = true → (e.mgr.caller i).isSome)
    (hbusy' : ∀ i, e'.busy i = true → (e'.mgr.caller i).isSome) {i : Nat} (hb : e.busy i = true)
    (ha : e'.Active i) : e.Active i ∧ seenKey ix e'.mgr i = seenKey ix e.mgr i := by
  have hb' : e'.busy i = true := by unfold busy; rw [htasks]; exact hb
  obtain ⟨t, ht⟩ := Option.isSome_iff_exists.mp (hbusy i hb)
  obtain ⟨t', ht'⟩ := Option.isSome_iff_exists.mp (hbusy' i hb')
  obtain ⟨ht, hend⟩ := caller_eq ht
  obtain ⟨ht', hend'⟩ := caller_eq ht'
  have hruns : e.mgr.Runs i := by
    obtain ⟨t'', h1, hkept⟩ := hc.kept h.handles.fresh ht
    obtain ⟨t₂, h2, hr⟩ := ha.1
    rw [h1] at h2
    cases h2
    exact ⟨t, ht, hkept.running hr⟩
  refine ⟨⟨hruns, by rw [← htasks]; exact ha.2⟩, funext fun r => ?_⟩
  refine h.seenKey_change h' hc hruns ha.1 ?_ (by rw [hw]; simp) r
  rw [stampedRids_of_not_ending hend, stampedRids_of_not_ending hend']

theorem KeyInv.outside (hk : KeyInv ix base cat e) (h : Inv base e.mgr) (h' : Inv base e'.mgr)
    {a : TransactionManager.Action} (hc : Change a e.mgr e'.mgr) (hw : a.writer = none)
    (hbusy : ∀ i, e.busy i = true → (e.mgr.caller i).isSome)
    (hbusy' : ∀ i, e'.busy i = true → (e'.mgr.caller i).isSome)
    (he : e' = { e with mgr := e'.mgr, passedOver := e'.passedOver }) (hunique : (e'.reservations ix base).Unique)
    (hcommitted : ∀ t r q k, keyAt ix base e'.mgr t r = some k → keyAt ix base e'.mgr t q = some k → r = q)
    (hnewest : ∀ r k, newestKey ix base e'.mgr r = some k →
      newestKey ix base e.mgr r = some k ∨ ∃ i, (e.reservations ix base).claims i r k)
    (hclaims : ∀ i r k, (e'.reservations ix base).claims i r k → (e.reservations ix base).claims i r k)
    (hclear : ∀ i k r, e.busy i = true → e'.Active i → (e.reservations ix base).Clear i k r →
      (e'.reservations ix base).Clear i k r)
    (hpassed : ∀ r ∈ e'.passedOver, ∃ i, r ∈ e'.mgr.stampedRids i) : KeyInv ix base cat e' := by
  have htasks : e'.tasks = e.tasks := by rw [he]
  have hlatch : e'.uniqueLatch = e.uniqueLatch := by rw [he]
  have hentries : e'.entries = e.entries := by rw [he]
  constructor
  case unique => exact hunique
  case committed => exact hcommitted
  case newestFiled =>
    intro r k hr
    rw [hentries]
    rcases hnewest r k hr with hold | ⟨i, hcl⟩
    · exact hk.newestFiled r k hold
    · exact hk.claimsFiled i r k hcl
  case claimsFiled =>
    intro i r k hcl
    rw [hentries]
    exact hk.claimsFiled i r k (hclaims i r k hcl)
  case guarded => rw [htasks, hlatch]; exact hk.guarded
  case safe =>
    intro i ha
    cases hb : e.busy i with
    | false =>
      have hnil : e.tasks i = [] := by simpa [busy] using hb
      rw [htasks, hnil]
      trivial
    | true =>
      obtain ⟨ha₀, hseen⟩ := seenKey_outside h h' hc hw htasks hbusy hbusy' hb ha
      rw [htasks, hseen]
      refine (hk.safe i ha₀).mono fun k r hkn hl => ?_
      exact hclear i k r hb ha (hkn (by rw [← hlatch]; exact hl))
  case indexes => rw [htasks]; exact hk.indexes
  case updates =>
    rw [htasks]
    intro i table rid old new hm
    obtain ⟨hshape, ho, hsome⟩ := hk.updates i table rid old new hm
    obtain ⟨hsome', ho'⟩ := hc.stays hsome
    exact ⟨hshape, ho'.trans ho, hsome'⟩
  case passed => exact hpassed

/-- A step of a commit, an abort or a garbage collection that publishes nothing. -/
theorem KeyInv.steady (hk : KeyInv ix base cat e) (h : Inv base e.mgr) (h' : Inv base e'.mgr)
    {a : TransactionManager.Action} (hc : Change a e.mgr e'.mgr) (hw : a.writer = none) (hp : a ≠ .publish)
    (hu : e.passedOver ≠ [] → ∀ fails, a ≠ .unstamp fails)
    (hbusy : ∀ i, e.busy i = true → (e.mgr.caller i).isSome)
    (hbusy' : ∀ i, e'.busy i = true → (e'.mgr.caller i).isSome) (he : e' = { e with mgr := e'.mgr }) :
    KeyInv ix base cat e' := by
  have hs : Steady ix base (fun _ _ => False) e.mgr e'.mgr := h.keys_change hc hw hp
  have htasks : e'.tasks = e.tasks := by rw [he]
  have hpassed : e'.passedOver = e.passedOver := by rw [he]
  have hmoves : Moves (fun i r k => False ∧ (e'.reservations ix base).claims i r k) (e.reservations ix base)
      (e'.reservations ix base) :=
    moves_of_steady hs (fun ha => by rw [← htasks]; exact ha.2) (fun _ _ hw => by rw [htasks]; exact hw)
      (by rw [hpassed]; exact fun r hr => hr)
  have hclaims : ∀ i r k, (e'.reservations ix base).claims i r k → (e.reservations ix base).claims i r k :=
    fun i r k hcl => (hmoves.claims hcl).resolve_right fun hn => hn.1
  refine hk.outside h h' hc hw hbusy hbusy' (by rw [he])
    (hk.unique.moves hmoves (fun hn => hn.1.elim) fun hn => hn.1.elim)
    (fun t r q k hr hq => ?_) (fun r k hr => .inl (by rw [← hs.newest]; exact hr)) hclaims
    (fun i k r _ ha hcl => hcl.moves hmoves ha fun _ hn => hn.1) fun r hr => ?_
  · rw [hs.committed] at hr hq
    exact hk.committed t r q k hr hq
  · rw [hpassed] at hr
    obtain ⟨i, hi⟩ := hk.passed r hr
    exact ⟨i, hc.stamped hp (hu (List.ne_nil_of_mem hr)) hi⟩

theorem KeyInv.publish (hk : KeyInv ix base cat e) (h : Inv base e.mgr) (h' : Inv base e'.mgr)
    (hc : Change .publish e.mgr e'.mgr) (hstep : e.mgr.step .publish = some e'.mgr)
    (hbusy : ∀ i, e.busy i = true → (e.mgr.caller i).isSome)
    (hbusy' : ∀ i, e'.busy i = true → (e'.mgr.caller i).isSome)
    (he : e' = { e with mgr := e'.mgr, passedOver := [] }) : KeyInv ix base cat e' := by
  obtain ⟨id, hp⟩ : ∃ i, PublishedKeys ix base i e.mgr e'.mgr := h.publish_keys hstep
  have htasks : e'.tasks = e.tasks := by rw [he]
  have hidle : e.tasks id = [] := by
    cases hb : e.busy id with
    | false => simpa [busy] using hb
    | true =>
      obtain ⟨t, ht⟩ := Option.isSome_iff_exists.mp (hbusy id hb)
      have := (caller_eq ht).2
      rw [hp.ending] at this
      cases this
  have hclaim : ∀ {r k}, e.mgr.Holds id r → slotKey ix e.mgr r = some k →
      (e.reservations ix base).claims id r k := by
    intro r k hh hkey
    refine ⟨⟨hp.runs, by rw [hidle]; exact fun _ hm => (by cases hm)⟩, hh, hkey, ?_⟩
    rw [hidle]
    rintro ⟨_, u, hu, _⟩
    cases hu
  have hpub : Publishes id (e.reservations ix base) (e'.reservations ix base) := {
    claims := by
      rintro i r k ⟨ha, hh, hkey, hw⟩
      obtain ⟨hi, hruns⟩ := hp.others ha.1
      refine ⟨hi, ⟨hruns, by rw [← htasks]; exact ha.2⟩, (hp.holds hi).mp hh, ?_, by rw [← htasks]; exact hw⟩
      rw [← hp.slots]
      exact hkey
    actor := fun hcl => hcl.1
    newest := by
      intro r k hn
      by_cases hh : e.mgr.Holds id r
      · exact .inl (hclaim hh (by rw [← hp.written hh]; exact hn))
      · exact .inr ⟨hh, by rw [← hn]; exact (hp.kept hh).symm⟩
    holds := fun hi hh => (hp.holds hi).mpr hh
    skipped := fun hr => by
      obtain ⟨i, hi⟩ := hk.passed _ hr
      exact hp.stamped i _ hi }
  have hunique := hk.unique.publishes hpub
  refine hk.outside h h' hc rfl hbusy hbusy' (by rw [he]) hunique (fun t r q k hr hq => ?_) (fun r k hn => ?_)
    (fun i r k hcl => (hpub.claims hcl).2) (fun i k r hb ha hcl => hcl.publishes hpub ?_)
      (by rw [he]; exact fun r hr => (by cases hr))
  · by_cases ht : t ≤ e.mgr.lastCommitTs
    · rw [hp.past t _ ht] at hr hq
      exact hk.committed t r q k hr hq
    · have hle : e'.mgr.lastCommitTs ≤ t := by rw [hp.clock]; omega
      rw [h'.keyAt_after hle] at hr hq
      exact hunique.newest hr hq
  · exact (hpub.newest hn).elim (fun hcl => .inr ⟨id, hcl⟩) fun hn => .inl hn.2
  · rintro rfl
    simp [busy, hidle] at hb

/-! ## Tasks -/

theorem not_changes_null {old new : Bytes} (h : ix.keyOfTuple new = .ok none) : ¬ ix.Changes old new :=
  fun hc => hc.1 (keyOf_ok h)

theorem not_changes_same {old new : Bytes} {key : IndexKey} (hnew : ix.keyOfTuple new = .ok (some key))
    (hold : ix.keyOfTuple old = .ok (some key)) : ¬ ix.Changes old new :=
  fun hc => hc.2 ((keyOf_ok hold).trans (keyOf_ok hnew).symm)

theorem KeyInv.exec (hk : KeyInv ix base cat e) (h : Inv base e.mgr) (h' : Inv base e'.mgr) (hix : ix ∈ cat.indexes)
    (hc : e.mgr.caller id = some txn) (ht : e.tasks id = t :: rest)
    (hs : e.exec cat id txn fresh rest t = some e') :
    KeyInv ix base cat e' := by
  have hfail : ∀ err, KeyInv ix base cat (e.fail cat id err) := fun err => hk.fails h hix (.refl _) rfl
  cases t with
  | lock i =>
    simp only [Engine.exec] at hs
    split at hs
    · cases hs
    · rename_i hfree
      cases hs
      exact hk.lock h ht hfree
  | unlock i =>
    cases hs
    exact hk.unlock h ht
  | check i tuple own =>
    simp only [Engine.exec] at hs
    split at hs
    · cases hs; exact hfail _
    · rename_i hkey
      cases hs
      exact hk.checkNull h hix ht hkey
    · rename_i key hkey
      cases hs
      exact hk.check h hix ht hkey
  | judge i key r =>
    simp only [Engine.exec] at hs
    split at hs
    · cases hs; exact hfail _
    · rename_i m b hread
      split at hs
      · cases hs; exact hfail _
      · rename_i hj
        cases hs
        exact hk.judge h hix (caller_eq hc).2 ht ((Heap.readSlot_eq _ _ _).mp hread) hj
  | rekey i rid old new =>
    have heq := hk.index_eq hix ht (i := i) rfl
    simp only [Engine.exec] at hs
    split at hs
    · cases hs; exact hfail _
    · rename_i hnew
      cases hs
      exact hk.rekeySame h ht fun ho => by rw [heq ho] at hnew; exact not_changes_null hnew
    · rename_i key hnew
      split at hs
      · cases hs; exact hfail _
      · rename_i oldKey hold
        split at hs
        · rename_i hkey
          cases hs
          subst hkey
          exact hk.rekeySame h ht fun ho => by rw [heq ho] at hnew hold; exact not_changes_same hnew hold
        · cases hs
          exact hk.rekeyNew h ht
  | recheck i rid old new =>
    have heq := hk.index_eq hix ht (i := i) rfl
    simp only [Engine.exec] at hs
    split at hs
    · cases hs; exact hfail _
    · rename_i hnew
      cases hs
      exact hk.recheckSame h ht fun ho => by rw [heq ho] at hnew; exact not_changes_null hnew
    · rename_i key hnew
      split at hs
      · cases hs; exact hfail _
      · rename_i oldKey hold
        split at hs
        · rename_i hkey
          cases hs
          subst hkey
          exact hk.recheckSame h ht fun ho => by rw [heq ho] at hnew hold; exact not_changes_same hnew hold
        · cases hs
          exact hk.recheckNew h ht
  | logFirstWrite =>
    cases hs
    exact hk.logFirstWrite h ht
  | update table rid old new =>
    simp only [Engine.exec] at hs
    split at hs
    · rename_i hw
      cases hs
      exact hk.update h hix hc ht hw h'
    · rename_i hw
      split at hs
      · cases hs
        exact hk.move h hix ht (writeVersion_error hw)
      · cases hs
        exact hk.fails h hix (writeVersion_error hw) rfl
  | delete rid =>
    simp only [Engine.exec] at hs
    split at hs
    · rename_i hw
      cases hs
      exact hk.delete h hc ht hw h'
    · rename_i hw
      cases hs
      exact hk.fails h hix (writeVersion_error hw) rfl
  | insert table tuple =>
    simp only [Engine.exec] at hs
    split at hs
    · cases hs; exact hfail _
    · rename_i hins
      cases hs
      exact hk.insert h hix hc ht hins h'
  | file i tuple rid =>
    simp only [Engine.exec] at hs
    split at hs
    · cases hs; exact hfail _
    · rename_i hok
      cases hs
      exact hk.file h hix hc ht hok
  | taint err =>
    cases hs
    exact hk.taint h ht

theorem KeyInv.execFailing (hk : KeyInv ix base cat e) (h : Inv base e.mgr) (hix : ix ∈ cat.indexes)
    (hs : e.execFailing cat id txn t = some e') : KeyInv ix base cat e' := by
  cases t <;> simp only [Engine.execFailing] at hs <;> cases hs
  case update | delete => exact hk.fails h hix logFirstWrite_quiet rfl
  all_goals exact hk.fails h hix (.refl _) rfl

/-! ## Runs -/

theorem KeyInv.step {a : Action} (hk : KeyInv ix base cat e) (h : Inv base e.mgr) (h' : Inv base e'.mgr)
    (hix : ix ∈ cat.indexes) (hbusy : ∀ i, e.busy i = true → (e.mgr.caller i).isSome)
    (hbusy' : ∀ i, e'.busy i = true → (e'.mgr.caller i).isSome) (hhonest : e.honest a = true)
    (hskip : e.unskipped a = true) (hs : e.step cat a = some e') : KeyInv ix base cat e' := by
  cases a with
  | call id c =>
    simp only [Engine.step] at hs
    split at hs
    · cases hs
    · rename_i hidle
      obtain ⟨txn, hc, rfl⟩ := Option.map_eq_some_iff.mp hs
      exact hk.call h hix (by simpa [busy] using hidle) hhonest
  | run id fresh fails =>
    simp only [Engine.step] at hs
    split at hs
    · cases hs
    · rename_i t rest ht
      obtain ⟨txn, hc, hs⟩ := Option.bind_eq_some_iff.mp hs
      split at hs
      · exact hk.execFailing h hix hs
      · exact hk.exec h h' hix hc ht hs
  | strand | astray => cases hskip
  | mgr a =>
    simp only [Engine.step] at hs
    split at hs
    · rename_i hallowed
      obtain ⟨m, hm, rfl⟩ := Option.map_eq_some_iff.mp hs
      have hput : PutBack e.mgr a := by
        rintro rfl
        simp [unskipped] at hskip
      have hc := h.change hput hm
      have hw : a.writer = none := by cases a <;> first | rfl | cases hallowed
      by_cases hp : a = .publish
      · subst hp
        exact hk.publish h h' hc hm hbusy hbusy' rfl
      · have hu : ∀ fails, a = .unstamp fails → e.passedOver = [] := by
          rintro fails rfl
          exact List.isEmpty_iff.mp (Bool.and_eq_true_iff.mp hskip).2
        refine hk.steady h h' hc hw hp (fun hne fails hf => hne (hu fails hf)) hbusy hbusy' ?_
        cases a with
        | publish => exact absurd rfl hp
        | unstamp fails => simp [settle, hu fails rfl]
        | _ => rfl
    · cases hs

def keepsKeys (e : Engine) (a : Action) : Bool := e.honest a && e.unskipped a

theorem keepsKeys_putBack (e : Engine) (a : Action) (h : e.keepsKeys a = true) : e.putBack a = true := by
  have h := (Bool.and_eq_true_iff.mp h).2
  cases a with
  | strand => exact h
  | mgr a => cases a with
    | unstamp fails => exact (Bool.and_eq_true_iff.mp h).1
    | _ => rfl
  | _ => rfl

def EmptyTable (e : Engine) (table : Nat) : Prop :=
  ∀ r m b, e.mgr.heap.slot r = some (m, b) → e.mgr.heap.owner r.pageId = some table → m.isDeleted = true

theorem Initial.keyAt_eq (h₀ : e.Initial) (hempty : e.EmptyTable ix.table) (t : Nat) (r : RecordId) :
    keyAt ix e.mgr.base e.mgr t r = none := by
  unfold keyAt
  split
  · rename_i ho
    have hv : e.mgr.versionsOf e.mgr.base r = e.mgr.base r := by
      unfold versionsOf
      rw [h₀.mgr.events]
      rfl
    have hdata : ∀ v ∈ e.mgr.base r, v.data = none := by
      intro v hv
      unfold TransactionManager.base at hv
      split at hv
      · rename_i ts d b hs
        have hd : d = true := hempty r _ _ hs ho
        rw [List.mem_singleton.mp hv, hd]
        rfl
      · cases hv
    rw [hv]
    cases hs : snapshot t (e.mgr.base r) with
    | none => rfl
    | some v => rw [Option.bind_some, hdata v (List.mem_of_find?_eq_some hs)]; rfl
  · rfl

theorem Initial.keyInv (h₀ : e.Initial) (hempty : e.EmptyTable ix.table) : KeyInv ix e.mgr.base cat e := by
  have hidle : ∀ i, ¬ e.mgr.Runs i := by
    rintro i ⟨t, ht, _⟩
    rw [h₀.mgr.txns] at ht
    cases ht
  have hnew : ∀ r, newestKey ix e.mgr.base e.mgr r = none := fun r => h₀.keyAt_eq hempty _ r
  constructor
  case unique =>
    refine ⟨fun {r q k} hr => ?_, fun hcl => absurd hcl.1.1 (hidle _), fun hcl => absurd hcl.1.1 (hidle _)⟩
    rw [show (e.reservations ix e.mgr.base).newest r = none from hnew r] at hr
    cases hr
  case committed =>
    intro t r q k hr
    rw [h₀.keyAt_eq hempty] at hr
    cases hr
  case newestFiled =>
    intro r k hr
    rw [hnew] at hr
    cases hr
  case claimsFiled => exact fun i r k hcl => absurd hcl.1.1 (hidle i)
  case guarded => intro i; rw [h₀.tasks, h₀.latches]; simp [Guarded]
  case safe => exact fun i ha => absurd ha.1 (hidle i)
  case indexes => intro i; rw [h₀.tasks]; simp
  case updates => intro i; rw [h₀.tasks]; simp
  case passed => rw [h₀.passedOver]; simp

theorem run_keyInv {e₀ : Engine} (h₀ : e₀.Initial) (hempty : e₀.EmptyTable ix.table) (hix : ix ∈ cat.indexes)
    (hr : Lib.Steps (Engine.step cat) (fun e a => e.keepsKeys a = true) e₀ e) : KeyInv ix e₀.mgr.base cat e := by
  induction hr with
  | refl => exact h₀.keyInv hempty
  | tail hr ha hs ih =>
    have hr' := hr.tail ha hs
    obtain ⟨hhonest, hskip⟩ := Bool.and_eq_true_iff.mp ha
    exact ih.step (run_inv keepsKeys_putBack h₀ hr) (run_inv keepsKeys_putBack h₀ hr') hix
      (fun i hb => run_caller keepsKeys_putBack h₀ hr hb) (fun i hb =>
        run_caller keepsKeys_putBack h₀ hr' hb) hhonest hskip hs

/-- Steps of runs without storage failures whose updates are given what their transaction sees. -/
def honestCalls (e : Engine) (a : Action) : Bool := e.noStorageFailure a && e.honest a

theorem honestCalls_putBack (e : Engine) (a : Action) (h : e.honestCalls a = true) : e.putBack a = true :=
  noStorageFailure_putBack (Bool.and_eq_true_iff.mp h).1

theorem honestCalls_keepsKeys {e₀ : Engine} (h₀ : e₀.Initial)
    (hr : Lib.Steps (Engine.step cat) (fun e a => e.honestCalls a = true) e₀ e) :
    Lib.Steps (Engine.step cat) (fun e a => e.keepsKeys a = true) e₀ e ∧ e.mgr.takingBack = false := by
  induction hr with
  | refl => exact ⟨.refl, by simp [takingBack, h₀.mgr.latch]⟩
  | @tail e e' a hr ha hs ih =>
    obtain ⟨hsteps, hforward⟩ := ih
    obtain ⟨hstorage, hhonest⟩ := Bool.and_eq_true_iff.mp ha
    refine ⟨hsteps.tail (Bool.and_eq_true_iff.mpr ⟨hhonest, ?_⟩) hs, ?_⟩
    · cases a with
      | mgr a => cases a with
        | unstamp fails =>
          obtain ⟨_, hm, _⟩ := Option.map_eq_some_iff.mp hs
          rw [takingBack_of_unstamp hm] at hforward
          cases hforward
        | _ => rfl
      | strand | astray => exact hstorage
      | _ => rfl
    · cases hb : e'.mgr.takingBack with
      | false => rfl
      | true =>
        rcases step_mgr (honestCalls_putBack _ _ ha) hs with heq | ⟨b, hsim, hstep⟩
        · rw [heq, hforward] at hb; cases hb
        · rcases (run_inv honestCalls_putBack h₀ hr).step_takingBack hstep hb with hb | ⟨rid, rfl⟩
          · rw [hforward] at hb; cases hb
          · cases a with
            | run => cases hsim.1
            | mgr a => cases hsim; cases hstorage
            | _ => exact hsim.elim

end

/-- The row of the table that the committed state at `t` has at `r`. -/
def rowAt (base : RecordId → List Version) (e : Engine) (table t : Nat) (r : RecordId) : Option Bytes :=
  if e.mgr.heap.owner r.pageId = some table then (snapshot t (e.mgr.versionsOf base r)).bind Version.data else none

theorem keyAt_of_row {ix : IndexInfo} {base : RecordId → List Version} {e : Engine} {t : Nat}
    {r : RecordId} {row : Bytes} {key : IndexKey} (hrow : e.rowAt base ix.table t r = some row)
    (hkey : ix.keyOfTuple row = .ok (some key)) :
    keyAt ix base e.mgr t r = some key := by
  unfold rowAt at hrow
  unfold keyAt
  split at hrow
  · rename_i ho
    rw [if_pos ho, hrow, Option.bind_some, keyOf_ok hkey]
  · cases hrow

/-- No committed state has two rows with the same key. -/
theorem unique_keys {cat : Catalog} {e₀ e : Engine} {table : Nat} (h₀ : e₀.Initial) (hempty : e₀.EmptyTable table)
    (hr : Lib.Steps (step cat) (fun e a => e.honestCalls a = true) e₀ e) (t : Nat) {ix : IndexInfo}
    (hix : ix ∈ cat.indexes) (htable : ix.table = table) {r q : RecordId} {row row' : Bytes} {key : IndexKey}
    (hrow : e.rowAt e₀.mgr.base table t r = some row) (hrow' : e.rowAt e₀.mgr.base table t q = some row')
    (hkey : ix.keyOfTuple row = .ok (some key)) (hkey' : ix.keyOfTuple row' = .ok (some key)) : r = q := by
  subst htable
  have hk := run_keyInv h₀ hempty hix (honestCalls_keepsKeys h₀ hr).1
  exact hk.committed t r q key (keyAt_of_row hrow hkey) (keyAt_of_row hrow' hkey')

def firstByte : IndexInfo where
  oid := 0
  name := "first_byte"
  table := 0
  keyOfTuple
    | [] => .ok none
    | b :: _ => .ok (some [b])
  maxKeyLen := 1

def byFirstByte : Catalog := ⟨[firstByte], List.nodup_singleton _⟩

theorem oneTable_empty (table : Nat) : oneTable.EmptyTable table := by
  intro r m b hs
  cases (Heap.create_slot (h := Heap.empty) rfl r).symm.trans hs

/-- A row gives up its key, and a row of another transaction takes it. -/
theorem unique_keys_handed_over :
    ∃ e, Lib.Steps (step byFirstByte) (fun e a => e.honestCalls a = true) oneTable e ∧
      e.rowAt oneTable.mgr.base 0 1 ⟨0, 0⟩ = some [1, 10] ∧ e.rowAt oneTable.mgr.base 0 3 ⟨0, 1⟩ = some [1, 20] ∧
      ∀ q row, e.rowAt oneTable.mgr.base 0 3 q = some row → firstByte.keyOfTuple row = .ok (some [1]) →
      q = ⟨0, 1⟩ := by
  obtain ⟨e, hr, hp⟩ : ∃ e, Lib.Steps (step byFirstByte) (fun e a => e.honestCalls a = true) oneTable e ∧
      (e.rowAt oneTable.mgr.base 0 1 ⟨0, 0⟩ == some [1, 10] && e.rowAt oneTable.mgr.base 0 3 ⟨0, 1⟩ ==
        some [1, 20]) = true :=
    Lib.exists_steps (.mgr .begin :: wholeCall 0 (.insertTuple 0 [1, 10]) 6 ++ wholeCommit 0 [⟨0, 0⟩] ++
      .mgr .begin :: wholeCall 1 (.updateTuple 0 ⟨0, 0⟩ [1, 10] [2, 10]) 6 ++ wholeCommit 1 [⟨0, 0⟩] ++
      .mgr .begin :: wholeCall 2 (.insertTuple 0 [1, 20]) 7 ++ wholeCommit 2 [⟨0, 1⟩]) (by decide)
  obtain ⟨h1, h3⟩ := Bool.and_eq_true_iff.mp hp
  refine ⟨e, hr, eq_of_beq h1, eq_of_beq h3, fun q row hrow hkey => ?_⟩
  exact unique_keys oneTable_initial (oneTable_empty 0) hr 3 (List.mem_singleton.mpr rfl) rfl hrow
    (eq_of_beq h3) hkey rfl

end Engine

end Cmudb
