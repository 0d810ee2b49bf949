import Cmudb.KeySteps

/-!
# Tasks that write rows or file entries

A row that is written has no new key for the index, or waits for its entry. A
row that is filed takes its key, which is clear everywhere else.
-/

namespace Cmudb

namespace TransactionManager

section
variable {ix : IndexInfo} {base : RecordId → List Version} {s s₁ s' : TransactionManager} {id : Nat}
  {txn : Transaction} {r rid : RecordId} {hot hot' : Nat → RecordId → Prop}

theorem Steady.weaken (h : Steady ix base hot s s') (hle : ∀ i r, hot i r → hot' i r) : Steady ix base hot' s s' :=
  { h with keys := fun hc => h.keys fun hh => hc (hle _ _ hh) }

theorem Steady.after_quiet (hq : Quiet s s₁) (h₁ : Steady ix base (fun _ _ => False) s s₁)
    (h₂ : Steady ix base hot s₁ s') :
    Steady ix base hot s s' where
  keys := by
    intro i r k hc hr hh hk
    obtain ⟨a₁, b₁, c₁⟩ := h₂.keys hc hr hh hk
    exact h₁.keys (fun hf => hf) a₁ b₁ c₁
  holds := fun hr hh => h₂.holds hr ((hq.holds _ _).mpr hh)
  committed := fun t r => (h₂.committed t r).trans (h₁.committed t r)
  clock := h₂.clock.trans h₁.clock

/-- A version written: what was there, what is there now, and that nobody else holds a new key. -/
theorem Inv.wrote_keys (ix : IndexInfo) {new : Option Bytes} (h : Inv base s) (hc : s.caller id = some txn)
    (hw : s.writeVersion id txn rid new = (s', .ok ())) :
    (∃ m b, s.heap.slot rid = some (m, b) ∧ (m.ts = .txn id ∨ ∃ t, m.ts = .commit t ∧ t ≤ txn.readTs) ∧
      s'.heap.slot rid = some (⟨.txn id, new.isNone⟩, new.getD b)) ∧
    Steady ix base (fun i r => i = id ∧ r = rid) s s' ∧ s'.commitLatch = s.commitLatch ∧
    s'.heap.owner = s.heap.owner ∧ ∀ i, s'.Runs i → s.Runs i := by
  obtain ⟨ht, he⟩ := caller_eq hc
  obtain ⟨s₁, txn', m, b, undo, rfl, hq, hl, ht', hp, hwr, hwrote, _⟩ := writeVersion_ok hc hw
  have hm : m.ts = .txn id ∨ ∃ t, m.ts = .commit t ∧ t ≤ txn.readTs :=
    (planVersion_ok hp).1.imp And.left And.left
  have h₁ : Inv base ((s.logFirstWrite id txn).logUndo id txn rid new) := (h.logFirstWrite he).logUndo
  have he₁ : ((s.logFirstWrite id txn).logUndo id txn rid new).ending id = false := by
    simpa only [ending, hl] using he
  refine ⟨⟨m, b, hwr.old, hm, hwr.new⟩, Steady.after_quiet hq (hq.steady h) ?_, hwrote.latch.trans hl, hwr.owner,
    fun i hr => ?_⟩
  · refine hwrote.steady h₁ ht' he₁ (fun i hi m' b' hs' hm' => ?_) fun r _ => by rw [hwr.owner, hq.heap]
    rw [hq.heap, hwr.old] at hs'
    cases hs'
    rw [hq.stamp] at hm'
    exact currentStamp_ne h ht hm hi rid hm'
  · obtain ⟨t, ht₁, hr₁⟩ := hwrote.runs ht' hr
    obtain ⟨t₀, ht₀, hs⟩ := hq.back ht₁
    exact ⟨t₀, ht₀, hs.running hr₁⟩

end

end TransactionManager

namespace Engine

open TransactionManager Lib.Reservations

section
variable {cat : Catalog} {ix : IndexInfo} {base : RecordId → List Version} {e e' : Engine} {id fresh : Nat}
  {txn : Transaction} {t : Task} {rest ts : List Task} {rid : RecordId}

theorem KeyInv.writes (hk : KeyInv ix base cat e) (h : Inv base e.mgr) (h' : Inv base e'.mgr)
    {a : TransactionManager.Action} (hc : Change a e.mgr e'.mgr) (hwriter : a.writer = some id)
    (hs : Steady ix base (fun i r => i = id ∧ r = rid) e.mgr e'.mgr) (hl : e'.mgr.commitLatch = e.mgr.commitLatch)
    (hruns : ∀ i, e'.mgr.Runs i → e.mgr.Runs i) (he : e' = { e.goOn id ts with mgr := e'.mgr })
    (hactive : e'.Active id → e.Active id)
    (hawait : ∀ r, r ≠ rid → AwaitsFile ix r (e.tasks id) → AwaitsFile ix r ts)
    (hnew : ∀ k, (e'.reservations ix base).claims id rid k → (e.reservations ix base).Has id k rid)
    (hguarded : Guarded ix (e.uniqueLatch ix.oid = some id) ts)
    (hsafe : e'.Active id → (∀ k r, (r = rid → ¬ (e'.reservations ix base).claims id rid k) →
        (e.reservations ix base).Clear id k r → (e'.reservations ix base).Clear id k r) →
      Safe ix (seenKey ix e'.mgr id) (e'.Knows ix base id) ts)
    (hindexes : ∀ t ∈ ts, ∀ x, t.index = some x → x ∈ cat.indexes) (hupdates : ∀ t ∈ ts, t.isUpdate = false) :
    KeyInv ix base cat e' := by
  have htasks : e'.tasks id = ts := by rw [he]; simp [goOn]
  have hothers : ∀ i, i ≠ id → e'.tasks i = e.tasks i := fun i hi => by rw [he]; exact goOn_of_ne hi
  have hlatch : e'.uniqueLatch = e.uniqueLatch := by rw [he]; rfl
  have hentries : e'.entries = e.entries := by rw [he]; rfl
  have hpassed : e'.passedOver = e.passedOver := by rw [he]; rfl
  have hmoves : Moves (fun i r k => (i = id ∧ r = rid) ∧ (e'.reservations ix base).claims i r k)
      (e.reservations ix base)
      (e'.reservations ix base) := by
    refine moves_of_steady hs (fun {i} ha => ?_) (fun {i r} ha hcold hw => ?_)
      (by rw [hpassed]; exact fun r hr => hr)
    · by_cases hi : i = id
      · subst hi; exact (hactive ha).2
      · rw [← hothers i hi]; exact ha.2
    · by_cases hi : i = id
      · subst hi
        rw [htasks]
        exact hawait r (fun hr => hcold ⟨rfl, hr⟩) hw
      · rw [hothers i hi]; exact hw
  have hp : Progress ix base cat id (fun i r k => (i = id ∧ r = rid) ∧
      (e'.reservations ix base).claims i r k) e e' := {
    moves := hmoves
    clear := by
      rintro i r k ⟨⟨rfl, rfl⟩, hc⟩ q hq
      exact (hnew k hc).clear hk.unique hq
    one := by
      rintro i j r q k ⟨⟨rfl, rfl⟩, _⟩ ⟨⟨rfl, rfl⟩, _⟩
      rfl
    taken := by
      rintro i k r j _ _ hclear ⟨⟨rfl, rfl⟩, hc⟩
      exact (hnew k hc).not_clear hclear
    filed := by
      rintro i r k ⟨⟨rfl, rfl⟩, hc⟩
      rw [hentries]
      rcases hnew k hc with hcl | ⟨hn, _⟩
      · exact hk.claimsFiled i r k hcl
      · exact hk.newestFiled r k hn
    entries := by rw [hentries]; exact fun x hx => hx
    committed := hs.committed
    tasks := hothers
    latch := fun i _ => by rw [hlatch]
    runs := fun i _ hr => hruns i hr
    seen := fun i hi ha r => by
      refine h.seenKey_change h' hc (hruns i ha.1) ha.1 (stampedRids_congr hl i) ?_ r
      rw [hwriter]
      simpa using hi.symm
    stays := fun r hr => hc.stays hr
    passed := by
      rw [hpassed]
      intro r hr
      obtain ⟨i, hi⟩ := hk.passed r hr
      exact ⟨i, by rw [stampedRids_congr hl]; exact hi⟩
    guarded := by rw [hlatch, htasks]; exact hguarded
    safe := fun ha => by
      rw [htasks]
      refine hsafe ha fun k r hr hclear => hclear.moves hmoves ha ?_
      rintro u ⟨⟨rfl, hrid⟩, hc⟩
      rw [hrid] at hc
      exact hr hrid hc
    indexes := by rw [htasks]; exact hindexes
    updates := by rw [htasks]; exact fun _ _ _ _ hm => (not_update hupdates hm).elim }
  exact hk.progress hp

/-- A key in the slot of a row the transaction may write is a key the transaction has. -/
theorem KeyInv.has_of_writable (hk : KeyInv ix base cat e) (h : Inv base e.mgr) (ha : e.Active id)
    (hc : e.mgr.caller id = some txn) {m : TupleMeta} {b : Bytes} (hs : e.mgr.heap.slot rid = some (m, b))
    (hm : m.ts = .txn id ∨ ∃ t, m.ts = .commit t ∧ t ≤ txn.readTs) (hw : ¬ AwaitsFile ix rid (e.tasks id))
    {k : IndexKey} (hkey : slotKey ix e.mgr rid = some k) : (e.reservations ix base).Has id k rid := by
  obtain ⟨ht, hend⟩ := caller_eq hc
  rcases hm with hm | ⟨c, hm, hle⟩
  · exact .inl ⟨ha, ⟨m, b, hs, by rw [hm, currentStamp_of_not_ending hend]⟩, hkey, hw⟩
  · have hlast : c ≤ e.mgr.lastCommitTs := Nat.le_trans hle (h.handles id txn ht).2.1
    refine .inr ⟨(h.newestKey_of_committed hs hm hlast).trans hkey, fun u hu => ?_, fun hskip => ?_⟩
    · obtain ⟨m', b', hs', hm'⟩ := hu
      rw [hs] at hs'
      cases hs'
      exact currentStamp_ne_published hlast (hm'.symm.trans hm)
    · obtain ⟨i, hi⟩ := hk.passed rid hskip
      obtain ⟨m', b', hs', hm', _⟩ := h.stamped hi
      rw [hs] at hs'
      cases hs'
      rw [hm] at hm'
      cases hm'
      omega

theorem KeyInv.active_rest (ht : e.tasks id = t :: rest) (hplain : ∀ err, t ≠ .taint err)
    (hruns : e'.mgr.Runs id → e.mgr.Runs id) (hrest : ∀ u ∈ rest, u ∈ e'.tasks id) (ha : e'.Active id) :
    e.Active id := by
  refine ⟨hruns ha.1, fun err hm => ?_⟩
  rw [ht] at hm
  rcases List.mem_cons.mp hm with hm | hm
  · exact hplain err hm.symm
  · exact ha.2 err (hrest _ hm)

theorem seenKey_own {s : TransactionManager} {new : Option Bytes} {b : Bytes} (hr : s.Runs id)
    (hs : s.heap.slot rid = some (⟨.txn id, new.isNone⟩, new.getD b))
    (ho : s.heap.owner rid.pageId = some ix.table) :
    seenKey ix s id rid = new.bind ix.keyOf := by
  obtain ⟨t, ht, _⟩ := hr
  rw [seenKey_of_writable ht hs (.inl rfl)]
  simp only [slotKey, ho, hs, if_true, Option.bind_some, live_new]

theorem KeyInv.update (hk : KeyInv ix base cat e) (h : Inv base e.mgr) (hix : ix ∈ cat.indexes)
    (hc : e.mgr.caller id = some txn) {table : Nat} {old new : Bytes} {mgr : TransactionManager}
    (ht : e.tasks id = .update table rid old new :: rest)
    (hw : e.mgr.writeVersion id txn rid (some new) = (mgr, .ok ())) (h' : Inv base mgr) :
    KeyInv ix base cat { e.goOn id rest with mgr := mgr } := by
  obtain ⟨⟨m, b, hs, hm, hs'⟩, hsteady, hl, ho, hruns⟩ := h.wrote_keys ix hc hw
  obtain ⟨hshape, hhome, _⟩ := hk.updates id table rid old new (by rw [ht]; simp)
  rw [ht] at hshape
  have hrest : rest = (cat.sorted table).map (.rekey · rid old new) := (List.cons.inj hshape).2
  have hactive : Engine.Active { e.goOn id rest with mgr := mgr } id → e.Active id :=
    KeyInv.active_rest ht (by simp) (hruns id) fun u hu => by simpa [goOn] using hu
  have hkey' : ∀ k, slotKey ix mgr rid = some k → table = ix.table ∧ ix.keyOf new = some k := by
    intro k hkey
    unfold slotKey at hkey
    rw [ho, hhome, hs'] at hkey
    split at hkey
    · rename_i htab
      exact ⟨Option.some.inj htab, by simpa [live] using hkey⟩
    · cases hkey
  refine hk.writes h h' (change_writeVersion hc hw) rfl hsteady hl hruns rfl hactive ?_ ?_ ?_ ?_ ?_
    (hk.rest_updates ht)
  · intro r _ hwait
    have := hwait.1 (.update table rid old new) (by rw [ht]; exact List.mem_cons_self)
    cases this
  · -- the key was not changed, so the transaction had it before
    rintro k ⟨ha, _, hkey, hwait⟩
    obtain ⟨htab, hnew⟩ := hkey' k hkey
    have hseen := hk.safe id (hactive ha)
    rw [ht] at hseen
    have hsame : ix.keyOf old = ix.keyOf new := by
      by_contra hne
      apply hwait
      have htask : (e.goOn id rest).tasks id = rest := by simp [goOn]
      rw [htask]
      refine ⟨hk.rest_updates ht, .rekey ix rid old new, ?_, rfl, rfl, by rw [hnew]; simp, hne⟩
      rw [hrest]
      exact List.mem_map.mpr ⟨ix, mem_sorted.mpr ⟨hix, htab.symm⟩, rfl⟩
    refine hk.has_of_writable h (hactive ha) hc hs hm (fun hwait => ?_) ?_
    · have := hwait.1 (.update table rid old new) (by rw [ht]; exact List.mem_cons_self)
      cases this
    · rw [← seenKey_of_writable (caller_eq hc).1 hs hm, hseen htab, hsame, hnew]
  · exact (hk.tail_guarded ht (by simp) (by simp)).2.2
  · intro ha _
    rw [hrest]
    refine safe_rekeys fun hmem => ?_
    have htab := (oid_mem_sorted hix).mp hmem
    rw [seenKey_own ha.1 hs' (by rw [ho, hhome, htab])]
    rfl
  · exact fun u hu => hk.indexes id u (by rw [ht]; exact List.mem_cons_of_mem _ hu)

theorem KeyInv.delete (hk : KeyInv ix base cat e) (h : Inv base e.mgr) (hc : e.mgr.caller id = some txn)
    {mgr : TransactionManager} (ht : e.tasks id = .delete rid :: rest)
    (hw : e.mgr.writeVersion id txn rid none = (mgr, .ok ())) (h' : Inv base mgr) :
    KeyInv ix base cat { e.goOn id rest with mgr := mgr } := by
  obtain ⟨⟨m, b, hs, hm, hs'⟩, hsteady, hl, ho, hruns⟩ := h.wrote_keys ix hc hw
  have hactive : Engine.Active { e.goOn id rest with mgr := mgr } id → e.Active id :=
    KeyInv.active_rest ht (by simp) (hruns id) fun u hu => by simpa [goOn] using hu
  have hnone : slotKey ix mgr rid = none := by
    simp [slotKey, hs', live]
  have hnever : ∀ i k, ¬ (Engine.reservations ix base { e.goOn id rest with mgr := mgr }).claims i rid k := by
    rintro i k ⟨_, _, hkey, _⟩
    rw [show slotKey ix mgr rid = some k from hkey] at hnone
    cases hnone
  refine hk.writes h h' (change_writeVersion hc hw) rfl hsteady hl hruns rfl hactive ?_ ?_ ?_ ?_ ?_
    (hk.rest_updates ht)
  · intro r _ hwait
    rw [ht] at hwait
    exact awaitsFile_goesOn (t := .delete rid) [] (fun u hu => by cases hu) (fun hf => hf.elim) hwait
  · exact fun k hcl => absurd hcl (hnever id k)
  · exact (hk.tail_guarded ht (by simp) (by simp)).2.2
  · intro ha hclear
    have hsafe := hk.safe id (hactive ha)
    rw [ht] at hsafe
    obtain ⟨hfiles, hsafe⟩ := hsafe
    refine (hsafe _).mono fun k r hcase hlatch => ?_
    by_cases hr : r = rid
    · subst hr
      exact ⟨fun u => hnever u k, fun _ => .inl ⟨_, _, hs', (currentStamp_of_not_ending (by
        simpa only [ending, hl] using (caller_eq hc).2) r).symm⟩⟩
    · apply hclear k r (fun hc => absurd hc hr)
      rcases hcase with hkn | hc' | hseen
      · exact hkn hlatch
      · exact absurd hc' hr
      · -- the row that moves had the key
        have hhas : (e.reservations ix base).Has id k rid := by
          refine hk.has_of_writable h (hactive ha) hc hs hm (fun hwait => ?_) ?_
          · obtain ⟨_, u, hu, hf⟩ := hwait
            rw [ht] at hu
            rcases List.mem_cons.mp hu with rfl | hu
            · exact hf
            · exact hfiles u hu hf
          · rw [← seenKey_of_writable (caller_eq hc).1 hs hm]
            exact hseen
        exact hhas.clear hk.unique hr
  · exact fun u hu => hk.indexes id u (by rw [ht]; exact List.mem_cons_of_mem _ hu)

theorem KeyInv.insert (hk : KeyInv ix base cat e) (h : Inv base e.mgr) (hix : ix ∈ cat.indexes)
    (hc : e.mgr.caller id = some txn) {table : Nat} {tuple : Bytes} {mgr : TransactionManager}
    (ht : e.tasks id = .insert table tuple :: rest)
    (hins : e.mgr.insertVersion id table fresh tuple = .ok (rid, mgr)) (h' : Inv base mgr) :
    KeyInv ix base cat { e.goOn id ((cat.sorted table).map (.file · tuple rid) ++ rest) with mgr := mgr } := by
  obtain ⟨htxn, hend⟩ := caller_eq hc
  obtain ⟨hwrote, hslot, hv⟩ := insertVersion_wrote htxn hins
  obtain ⟨hlatched, _, hrest⟩ := hk.tail_guarded ht (by simp) (by simp)
  have hchange : Change (.insert id table fresh tuple) e.mgr mgr :=
    .inserted id txn table rid tuple rfl hc hslot hwrote hv
  have hsteady : Steady ix base (fun i r => i = id ∧ r = rid) e.mgr mgr := by
    refine hwrote.steady h htxn hend (fun i _ m b hs => ?_) hslot.owner
    rw [hslot.old] at hs
    cases hs
  have htask : (e.goOn id ((cat.sorted table).map (.file · tuple rid) ++ rest)).tasks id =
      (cat.sorted table).map (.file · tuple rid) ++ rest := by simp [goOn]
  have hactive : Engine.Active { e.goOn id ((cat.sorted table).map (.file · tuple rid) ++ rest) with
      mgr := mgr } id → e.Active id :=
    KeyInv.active_rest ht (by simp) (hwrote.runs htxn) fun u hu => by
      show u ∈ (e.goOn id _).tasks id
      rw [htask]
      exact List.mem_append_right _ hu
  have hplain : ∀ u ∈ (cat.sorted table).map (Task.file · tuple rid) ++ rest, u.isUpdate = false := by
    intro u hu
    rcases List.mem_append.mp hu with hu | hu
    · obtain ⟨i, _, rfl⟩ := List.mem_map.mp hu
      rfl
    · exact hk.rest_updates ht u hu
  have hnever : ∀ k, ¬ (Engine.reservations ix base
      { e.goOn id ((cat.sorted table).map (.file · tuple rid) ++ rest) with mgr := mgr }).claims id rid k := by
    rintro k ⟨_, _, hkey, hwait⟩
    apply hwait
    have htab : table = ix.table := by
      simp only [slotKey, hslot.owned] at hkey
      split at hkey
      · rename_i htab
        exact Option.some.inj htab
      · cases hkey
    rw [htask]
    refine ⟨hplain, .file ix tuple rid, List.mem_append_left _ ?_, rfl, rfl⟩
    exact List.mem_map.mpr ⟨ix, mem_sorted.mpr ⟨hix, htab.symm⟩, rfl⟩
  refine hk.writes h h' hchange rfl hsteady hwrote.latch (fun i hr => hwrote.runs htxn hr) rfl hactive ?_
    (fun k hcl => absurd hcl (hnever k)) ?_ ?_ ?_ hplain
  · intro r _ hwait
    rw [ht] at hwait
    refine awaitsFile_goesOn (t := .insert table tuple) _ (fun u hu => ?_) (fun hf => hf.elim) hwait
    exact hplain u (List.mem_append_left _ hu)
  · rw [guarded_append fun u hu => ?_]
    · exact hrest
    · obtain ⟨i, hi, rfl⟩ := List.mem_map.mp hu
      refine ⟨by simp, by simp, fun ho => ?_, fun hc => hc.elim⟩
      simpa using hlatched ((oid_mem_sorted hix).mp (List.mem_map.mpr ⟨i, hi, ho⟩))
  · intro ha hclear
    have hsafe := hk.safe id (hactive ha)
    rw [ht] at hsafe
    have hknows : ∀ k r, e.Knows ix base id k r → Engine.Knows ix base
        { e.goOn id ((cat.sorted table).map (.file · tuple rid) ++ rest) with mgr := mgr } id k r :=
      fun k r hkn hl => hclear k r (fun _ => hnever k) (hkn hl)
    refine safe_files (fun hmem => ?_) (fun hmem k hkey r _ => ?_) ?_
    · have htab := (oid_mem_sorted hix).mp hmem
      have hown : seenKey ix mgr id rid = (some tuple).bind ix.keyOf :=
        seenKey_own (b := []) ha.1 hslot.new (by rw [← htab]; exact hslot.owned)
      rw [hown]
      rfl
    · exact hknows k r (hsafe.1 ((oid_mem_sorted hix).mp hmem) k hkey r)
    · exact (hsafe.2 _ rid).mono fun k r hkn => ⟨hknows k r hkn.1, hkn.2⟩
  · intro u hu x hx
    rcases List.mem_append.mp hu with hu | hu
    · obtain ⟨i, hi, rfl⟩ := List.mem_map.mp hu
      cases hx
      exact (mem_sorted.mp hi).1
    · exact hk.indexes id u (by rw [ht]; exact List.mem_cons_of_mem _ hu) x hx

theorem fileEntry_ok {i : IndexInfo} {tuple : Bytes} {e₁ : Engine} (h : e.fileEntry i tuple rid = .ok e₁) :
    (∀ oid, ∀ x ∈ e.entries oid, x ∈ e₁.entries oid) ∧ ∀ k, i.keyOf tuple = some k →
    (k, rid) ∈ e₁.entries i.oid := by
  unfold fileEntry at h
  split at h
  · cases h
  · rename_i hkey
    cases h
    exact ⟨fun _ _ hx => hx, fun k hk => by rw [keyOf_ok hkey] at hk; cases hk⟩
  · rename_i key hkey
    split at h
    · cases h
    · split at h
      · rename_i hmem
        cases h
        refine ⟨fun _ _ hx => hx, fun k hk => ?_⟩
        rw [keyOf_ok hkey] at hk
        cases hk
        exact hmem
      · cases h
        refine ⟨fun oid x hx => ?_, fun k hk => ?_⟩
        · by_cases ho : oid = i.oid
          · subst ho
            simp [List.mem_orderedInsert, hx]
          · simpa [Function.update_of_ne ho] using hx
        · rw [keyOf_ok hkey] at hk
          cases hk
          simp [List.mem_orderedInsert]

theorem KeyInv.file (hk : KeyInv ix base cat e) (h : Inv base e.mgr) (hix : ix ∈ cat.indexes)
    (hc : e.mgr.caller id = some txn) {i : IndexInfo} {tuple : Bytes} {e₁ : Engine}
    (ht : e.tasks id = .file i tuple rid :: rest) (hok : e.fileEntry i tuple rid = .ok e₁) :
    KeyInv ix base cat (e₁.goOn id rest) := by
  obtain ⟨htxn, hend⟩ := caller_eq hc
  obtain ⟨htasks, hmgr, hlatch, hpassed⟩ := fileEntry_tasks hok
  obtain ⟨hkept, hfiled⟩ := fileEntry_ok hok
  obtain ⟨hlatched, _, hrest⟩ := hk.tail_guarded ht (by simp) (by simp)
  have hmgr' : (e₁.goOn id rest).mgr = e.mgr := hmgr
  have htask : (e₁.goOn id rest).tasks id = rest := by simp [goOn]
  have hothers : ∀ j, j ≠ id → (e₁.goOn id rest).tasks j = e.tasks j := fun j hj => by rw [goOn_of_ne hj, htasks]
  have hactive : (e₁.goOn id rest).Active id → e.Active id :=
    KeyInv.active_rest ht (by simp) (by rw [hmgr']; exact fun hr => hr) fun u hu => by rw [htask]; exact hu
  have hquiet : Quiet e.mgr (e₁.goOn id rest).mgr := by rw [hmgr']; exact .refl _
  -- the one new claim is that of the row that was filed
  have hmoves : Moves (fun j r k => (i.oid = ix.oid ∧ j = id ∧ r = rid) ∧
      ((e₁.goOn id rest).reservations ix base).claims j r k) (e.reservations ix base)
      ((e₁.goOn id rest).reservations ix base) := by
    refine moves_of_steady ((hquiet.steady h).weaken fun _ _ hf => hf.elim) (fun {j} ha => ?_)
      (fun {j r} ha hcold hw => ?_)
      (by show ∀ r ∈ e.passedOver, r ∈ e₁.passedOver; rw [hpassed]; exact fun r hr => hr)
    · by_cases hj : j = id
      · subst hj; exact (hactive ha).2
      · rw [← hothers j hj]; exact ha.2
    · by_cases hj : j = id
      · subst hj
        rw [ht] at hw
        rw [htask]
        refine awaitsFile_goesOn (t := .file i tuple rid) [] (fun u hu => by cases hu) (fun hf => ?_) hw
        exact absurd ⟨hf.1, rfl, hf.2.symm⟩ hcold
      · rw [hothers j hj]; exact hw
  have hkey : ∀ {k}, i.oid = ix.oid → ((e₁.goOn id rest).reservations ix base).claims id rid k →
      e.Active id ∧ ix.keyOf tuple = some k := by
    rintro k ho ⟨ha, hholds, hslot, _⟩
    rw [hmgr'] at hholds hslot
    refine ⟨hactive ha, ?_⟩
    have hsafe := hk.safe id (hactive ha)
    rw [ht] at hsafe
    obtain ⟨m, b, hs, hm⟩ := hholds
    rw [currentStamp_of_not_ending hend] at hm
    rw [← (hsafe.1 ho).1, seenKey_of_writable htxn hs (.inl hm), hslot]
  have hmine : i.oid = ix.oid → e.uniqueLatch ix.oid = some id := fun ho => hlatched ho
  have hp : Progress ix base cat id (fun j r k => (i.oid = ix.oid ∧ j = id ∧ r = rid) ∧
      ((e₁.goOn id rest).reservations ix base).claims j r k) e (e₁.goOn id rest) := {
    moves := hmoves
    clear := by
      rintro j r k ⟨⟨ho, rfl, rfl⟩, hcl⟩ q hq
      obtain ⟨ha, hkt⟩ := hkey ho hcl
      have hsafe := hk.safe j ha
      rw [ht] at hsafe
      exact (hsafe.1 ho).2 k hkt q hq (hmine ho)
    one := by
      rintro _ _ r q k ⟨⟨_, _, rfl⟩, _⟩ ⟨⟨_, _, rfl⟩, _⟩
      rfl
    taken := by
      rintro j k r u hj hl _ ⟨⟨ho, _, _⟩, _⟩
      rw [hmine ho] at hl
      exact hj (Option.some.inj hl).symm
    filed := by
      rintro j r k ⟨⟨ho, rfl, rfl⟩, hcl⟩
      have hi : i = ix := hk.index_eq hix ht rfl ho
      subst hi
      exact hfiled k (hkey rfl hcl).2
    entries := hkept ix.oid
    committed := (hquiet.steady h).committed
    tasks := hothers
    latch := fun j _ => by show e₁.uniqueLatch ix.oid = _ ↔ _; rw [hlatch]
    runs := fun j _ hr => by rw [hmgr'] at hr; exact hr
    seen := fun j _ _ r => by rw [hmgr']
    stays := by rw [hmgr']; exact fun r hr => ⟨hr, rfl⟩
    passed := by
      show ∀ r ∈ e₁.passedOver, _
      rw [hpassed, hmgr']
      exact hk.passed
    guarded := by
      show Guarded ix (decide (e₁.uniqueLatch ix.oid = some id)) _
      rw [hlatch, htask]
      exact hrest
    safe := fun ha => by
      have hsafe := hk.safe id (hactive ha)
      rw [ht] at hsafe
      rw [htask, hmgr']
      refine hsafe.2.mono fun k r hkn hl => ?_
      refine (hkn.1 (by rw [← hlatch]; exact hl)).moves hmoves ha ?_
      rintro u ⟨⟨ho, _, hr⟩, _⟩
      exact hkn.2 ho hr
    indexes := by
      rw [htask]
      exact fun u hu => hk.indexes id u (by rw [ht]; exact List.mem_cons_of_mem _ hu)
    updates := by
      rw [htask]
      exact fun _ _ _ _ hm => (not_update (hk.rest_updates ht) hm).elim }
  exact hk.progress hp

end

end Engine

end Cmudb
