import Cmudb.KeyInv

/-!
# Every step keeps the keys unique

The tasks of a call one by one, then the steps of commits, aborts and garbage
collections. A check reads off the entries which rows to judge; a row that is
judged without error is clear of the key; an entry is filed when every other
row is clear.
-/

namespace Cmudb

namespace Engine

open TransactionManager Lib.Reservations

section
variable {cat : Catalog} {ix : IndexInfo} {base : RecordId → List Version} {e e' : Engine} {id fresh : Nat}
  {txn : Transaction} {t : Task} {rest us : List Task} {i : IndexInfo} {key : IndexKey}
  {r rid : RecordId} {old new : Bytes}

theorem awaitsFile_goesOn (us : List Task) (hus : ∀ u ∈ us, u.isUpdate = false)
    (hfiles : t.Files ix r → ∃ u ∈ us, u.Files ix r) (h : AwaitsFile ix r (t :: rest)) :
    AwaitsFile ix r (us ++ rest) := by
  obtain ⟨hno, u, hu, hf⟩ := h
  refine ⟨fun v hv => ?_, ?_⟩
  · rcases List.mem_append.mp hv with hv | hv
    · exact hus v hv
    · exact hno v (List.mem_cons_of_mem _ hv)
  · rcases List.mem_cons.mp hu with rfl | hu
    · obtain ⟨v, hv, hvf⟩ := hfiles hf
      exact ⟨v, List.mem_append_left _ hv, hvf⟩
    · exact ⟨u, List.mem_append_right _ hu, hf⟩

theorem KeyInv.rest_updates (hk : KeyInv ix base cat e) (ht : e.tasks id = t :: rest) :
    ∀ u ∈ rest, u.isUpdate = false := by
  intro u hu
  cases u with
  | update table rid old new =>
    obtain ⟨hshape, _⟩ := hk.updates id table rid old new (by rw [ht]; exact List.mem_cons_of_mem _ hu)
    rw [ht] at hshape
    cases hshape
    simp at hu
  | _ => rfl

theorem KeyInv.goesOn (us : List Task) (hk : KeyInv ix base cat e) (h : Inv base e.mgr)
    (ht : e.tasks id = t :: rest) (hq : Quiet e.mgr e'.mgr) (hentries : e'.entries = e.entries)
    (htasks : e'.tasks = Function.update e.tasks id (us ++ rest))
    (hlatch : ∀ i, i ≠ id → (e'.uniqueLatch ix.oid = some i ↔ e.uniqueLatch ix.oid = some i))
    (hskip : ∀ r ∈ e.passedOver, r ∈ e'.passedOver)
    (hpassed : ∀ r ∈ e'.passedOver, r ∈ e.passedOver ∨ ∃ i, r ∈ e.mgr.stampedRids i)
    (hplain : ∀ err, t ≠ .taint err)
    (hus : ∀ u ∈ us, u.isUpdate = false ∧ ∀ x, u.index = some x → x ∈ cat.indexes)
    (hfiles : ∀ r, t.Files ix r → ∃ u ∈ us, u.Files ix r)
    (hguarded : Guarded ix (e'.uniqueLatch ix.oid = some id) (us ++ rest))
    (hsafe : e.Active id → e'.Active id →
      (∀ k r, (e.reservations ix base).Clear id k r → (e'.reservations ix base).Clear id k r) →
      Safe ix (seenKey ix e.mgr id) (e'.Knows ix base id) (us ++ rest)) : KeyInv ix base cat e' := by
  have hown : e'.tasks id = us ++ rest := by rw [htasks]; simp
  have hactive : e'.Active id → e.Active id := by
    intro ha
    obtain ⟨t', ht', hr'⟩ := ha.1
    obtain ⟨t₁, ht₁, hs⟩ := hq.back ht'
    refine ⟨⟨t₁, ht₁, hs.running hr'⟩, fun err hm => ?_⟩
    rw [ht] at hm
    rcases List.mem_cons.mp hm with hm | hm
    · exact hplain err hm.symm
    · exact ha.2 err (by rw [hown]; exact List.mem_append_right _ hm)
  refine hk.quietTask h hq hentries (fun i hi => by rw [htasks]; exact Function.update_of_ne hi _ _)
    hlatch hskip hpassed
    (fun ha => ⟨hactive ha, fun r hw => ?_⟩) (by rw [hown]; exact hguarded) (fun ha hc => ?_) ?_ ?_
  · rw [ht] at hw
    rw [hown]
    exact awaitsFile_goesOn us (fun u hu => (hus u hu).1) (hfiles r) hw
  · rw [hown]
    exact hsafe (hactive ha) ha hc
  · rw [hown]
    intro u hu x hx
    rcases List.mem_append.mp hu with hu | hu
    · exact (hus u hu).2 x hx
    · exact hk.indexes id u (by rw [ht]; exact List.mem_cons_of_mem _ hu) x hx
  · rw [hown]
    intro table rid old new hm
    rcases List.mem_append.mp hm with hm | hm
    · exact (not_update (fun u hu => (hus u hu).1) hm).elim
    · exact (not_update (hk.rest_updates ht) hm).elim

theorem KeyInv.replaces (us : List Task) (hk : KeyInv ix base cat e) (h : Inv base e.mgr)
    (ht : e.tasks id = t :: rest) (hplain : ∀ err, t ≠ .taint err)
    (hus : ∀ u ∈ us, u.isUpdate = false ∧ ∀ x, u.index = some x → x ∈ cat.indexes)
    (hfiles : ∀ r, t.Files ix r → ∃ u ∈ us, u.Files ix r)
    (hguarded : Guarded ix (e.uniqueLatch ix.oid = some id) (us ++ rest))
    (hsafe : e.Active id → Safe ix (seenKey ix e.mgr id) (e.Knows ix base id) (t :: rest) →
      Safe ix (seenKey ix e.mgr id) (e.Knows ix base id) (us ++ rest)) :
    KeyInv ix base cat (e.goOn id (us ++ rest)) := by
  refine hk.goesOn us h ht (.refl _) rfl rfl (fun i _ => Iff.rfl) (fun r hr => hr)
    (fun r hr => .inl hr) hplain hus hfiles
    hguarded fun ha ha' hc => ?_
  have hs := hk.safe id ha
  rw [ht] at hs
  exact (hsafe ha hs).mono fun k r hkn hl => hc k r (hkn hl)

theorem KeyInv.lock (hk : KeyInv ix base cat e) (h : Inv base e.mgr) (ht : e.tasks id = .lock i :: rest)
    (hfree : e.uniqueLatch i.oid = none) :
    KeyInv ix base cat { e.goOn id rest with uniqueLatch := Function.update e.uniqueLatch i.oid (some id) } := by
  have hg := hk.guarded id
  rw [ht] at hg
  simp only [Guarded] at hg
  refine hk.goesOn [] h ht (.refl _) rfl rfl (fun j hj => ?_) (fun r hr => hr) (fun r hr => .inl hr) (by simp)
    (fun u hu => by cases hu) (fun r hf => hf.elim) ?_ fun ha ha' hc => ?_
  · by_cases ho : i.oid = ix.oid
    · rw [← ho, hfree]
      simp [hj.symm]
    · simp [Function.update_of_ne (Ne.symm ho)]
  · by_cases ho : i.oid = ix.oid
    · rw [if_pos ho] at hg
      simpa [← ho] using hg.2
    · rw [if_neg ho] at hg
      simpa [Function.update_of_ne (Ne.symm ho)] using hg
  · have hs := hk.safe id ha
    rw [ht] at hs
    refine Safe.mono (fun k r hkn => ?_) hs
    exact Knows.of_clear (Function.update_of_ne (Ne.symm hkn.1) _ _) hc hkn.2

theorem KeyInv.unlock (hk : KeyInv ix base cat e) (h : Inv base e.mgr) (ht : e.tasks id = .unlock i :: rest) :
    KeyInv ix base cat { e.goOn id rest with uniqueLatch := Function.update e.uniqueLatch i.oid none } := by
  have hg := hk.guarded id
  rw [ht] at hg
  simp only [Guarded] at hg
  refine hk.goesOn [] h ht (.refl _) rfl rfl (fun j hj => ?_) (fun r hr => hr) (fun r hr => .inl hr) (by simp)
    (fun u hu => by cases hu) (fun r hf => hf.elim) ?_ fun ha ha' hc => ?_
  · by_cases ho : i.oid = ix.oid
    · rw [if_pos ho] at hg
      have hmine : e.uniqueLatch ix.oid = some id := by simpa using hg.1
      simp [ho, hmine, hj.symm]
    · simp [Function.update_of_ne (Ne.symm ho)]
  · by_cases ho : i.oid = ix.oid
    · rw [if_pos ho] at hg
      simpa [ho] using hg.2
    · rw [if_neg ho] at hg
      simpa [Function.update_of_ne (Ne.symm ho)] using hg
  · have hs := hk.safe id ha
    rw [ht] at hs
    refine Safe.mono (fun k r hkn => ?_) hs
    by_cases ho : i.oid = ix.oid
    · intro hl
      simp [ho] at hl
    · exact Knows.of_clear (Function.update_of_ne (Ne.symm ho) _ _) hc hkn

/-! ## Uniqueness checks -/

theorem keyOf_ok {tuple : Bytes} {key : Option IndexKey} (h : i.keyOfTuple tuple = .ok key) :
    i.keyOf tuple = key := by
  simp [IndexInfo.keyOf, h]

theorem KeyInv.head_index (hk : KeyInv ix base cat e) (ht : e.tasks id = t :: rest) (hi : t.index = some i)
    : i ∈ cat.indexes :=
  hk.indexes id t (by rw [ht]; simp) i hi

theorem KeyInv.index_eq (hk : KeyInv ix base cat e) (hix : ix ∈ cat.indexes) (ht : e.tasks id = t :: rest)
    (hi : t.index = some i) (ho : i.oid = ix.oid) : i = ix :=
  index_ext (hk.head_index ht hi) hix ho

theorem KeyInv.tail_guarded (hk : KeyInv ix base cat e) (ht : e.tasks id = t :: rest) (hl : ∀ i, t ≠ .lock i)
    (hu : ∀ i, t ≠ .unlock i) : (t.Latched ix → e.uniqueLatch ix.oid = some id) ∧
      (t.Unlatched ix → e.uniqueLatch ix.oid ≠ some id) ∧ Guarded ix (e.uniqueLatch ix.oid = some id) rest := by
  have hg := hk.guarded id
  rw [ht] at hg
  cases t with
  | lock i => exact absurd rfl (hl i)
  | unlock i => exact absurd rfl (hu i)
  | _ => exact ⟨fun h => by simpa using hg.1 h, fun h => by simpa using hg.2.1 h, hg.2.2⟩

theorem mem_entriesForKey :
    r ∈ e.entriesForKey i key ↔ (key, r) ∈ e.entries i.oid := by
  unfold entriesForKey
  simp

theorem KeyInv.checkNull (hk : KeyInv ix base cat e) (h : Inv base e.mgr) (hix : ix ∈ cat.indexes)
    {tuple : Bytes} {own : Option RecordId} (ht : e.tasks id = .check i tuple own :: rest)
    (hkey : i.keyOfTuple tuple = .ok none) : KeyInv ix base cat (e.goOn id rest) := by
  refine hk.replaces [] h ht (by simp) (fun u hu => by cases hu) (fun r hf => hf.elim)
    (hk.tail_guarded ht (by simp) (by simp)).2.2 fun _ hs => ?_
  refine Safe.mono (fun k r hc => hc.resolve_right ?_) hs
  rintro ⟨ho, hk', _⟩
  rw [← hk.index_eq hix ht rfl ho, keyOf_ok hkey] at hk'
  cases hk'

theorem KeyInv.check (hk : KeyInv ix base cat e) (h : Inv base e.mgr) (hix : ix ∈ cat.indexes) {tuple : Bytes}
    {own : Option RecordId} (ht : e.tasks id = .check i tuple own :: rest)
    (hkey : i.keyOfTuple tuple = .ok (some key)) :
    KeyInv ix base cat
      (e.goOn id (((e.entriesForKey i key).filter fun r => some r ≠ own).map (.judge i key) ++ rest)) := by
  obtain ⟨hlatched, _, hrest⟩ := hk.tail_guarded ht (by simp) (by simp)
  refine hk.replaces _ h ht (by simp) (fun u hu => ?_) (fun r hf => hf.elim) ?_ fun ha hs => ?_
  · obtain ⟨r, _, rfl⟩ := List.mem_map.mp hu
    exact ⟨rfl, fun x hx => hk.head_index ht hx⟩
  · rw [guarded_append fun u hu => ?_]
    · exact hrest
    · obtain ⟨r, _, rfl⟩ := List.mem_map.mp hu
      exact ⟨by simp, by simp, fun ho => by simpa using hlatched ho, fun hc => hc.elim⟩
  · by_cases ho : i.oid = ix.oid
    · have hi : i = ix := hk.index_eq hix ht rfl ho
      subst hi
      refine safe_judges (Safe.mono (fun k r hc => ?_) hs)
      rcases hc with hc | ⟨_, hk', hown⟩
      · exact .inl hc
      · rw [keyOf_ok hkey] at hk'
        cases hk'
        by_cases hm : (key, r) ∈ e.entries i.oid
        · exact .inr ⟨rfl, List.mem_filter.mpr ⟨mem_entriesForKey.mpr hm, by simpa using hown⟩⟩
        · -- rows that are not filed under the key neither hold nor claim it
          refine .inl fun _ =>
            ⟨fun j hc => hm (hk.claimsFiled j r key hc), fun hn => absurd (hk.newestFiled r key hn) hm⟩
    · exact safe_judges_of_safe (Safe.mono (fun k r hc => hc.resolve_right fun hc => ho hc.1) hs)

theorem judge_ok {m : TupleMeta} {b : Bytes} (hj : judge id txn i key r m b = .ok ())
    : (live m.isDeleted b).bind i.keyOf ≠ some key ∧
      ∀ j, m.ts = .txn j → j = id := by
  unfold judge at hj
  split at hj
  · cases hj
  · rename_i stored hstored
    have hkey := keyOf_ok hstored
    simp only at hj
    split at hj
    · rename_i hstale
      simp only [Bool.and_eq_true, Bool.not_eq_true', Bool.and_eq_false_imp, beq_eq_false_iff_ne,
        bne_eq_false_iff_eq] at hstale
      refine ⟨fun hc => hstale.1 ?_, fun j hj => ?_⟩
      · cases hd : m.isDeleted with
        | true => simp [live, hd] at hc
        | false =>
          rw [← hkey]
          simpa [live, hd] using hc
      · have := hstale.2 (by rw [hj]; rfl)
        rw [hj] at this
        cases this
        rfl
    · split at hj
      · cases hj
      · rename_i hw
        split at hj
        · cases hj
        · rename_i hlive
          refine ⟨fun hc => hlive ?_, fun j hj => ?_⟩
          · cases hd : m.isDeleted with
            | true => simp [live, hd] at hc
            | false =>
              simp only [live, hd, Bool.false_eq_true, if_false, Option.bind_some, hkey] at hc
              simp [hc]
          · rcases checkWrite_ok.mp hw with hm | ⟨t, hm, _⟩
            · rw [hj] at hm; cases hm; rfl
            · rw [hj] at hm; cases hm

theorem commit_stamp {s : TransactionManager} (h : Inv base s) {m : TupleMeta} {b : Bytes} {c : Nat}
    (hs : s.heap.slot r = some (m, b)) (hm : m.ts = .commit c) :
    c ≤ s.lastCommitTs ∨ c = s.lastCommitTs + 1 ∧ ∃ i, r ∈ s.stampedRids i := by
  cases h.rows r with
  | absent slot => rw [hs] at slot; cases slot
  | dead b' slot =>
    rw [hs] at slot
    cases slot
    cases hm
    exact .inl (Nat.zero_le _)
  | idle m' b' t slot stamp published =>
    rw [hs] at slot
    cases slot
    rw [hm] at stamp
    cases stamp
    exact .inl published
  | owned i t m' b' slot stamp own =>
    rw [hs] at slot
    cases slot
    rw [hm] at stamp
    unfold currentStamp at stamp
    split at stamp
    · rename_i hmem
      cases stamp
      exact .inr ⟨rfl, i, hmem⟩
    · cases stamp

theorem judge_clear (h : Inv base e.mgr) (hmgr : e'.mgr = e.mgr) (hend : e.mgr.ending id = false)
    {m : TupleMeta} {b : Bytes} (hs : e.mgr.heap.slot r = some (m, b)) (hj : judge id txn ix key r m b = .ok ())
    (hpass : e.unpublished m = true → r ∈ e'.passedOver) :
    (e'.reservations ix base).Clear id key r := by
  obtain ⟨hkey, hpending⟩ := judge_ok hj
  have hslot : slotKey ix e.mgr r ≠ some key := by
    unfold slotKey
    split
    · rw [hs]; exact hkey
    · simp
  constructor
  · rintro j ⟨_, _, hc, _⟩
    rw [hmgr] at hc
    exact hslot hc
  · intro hn
    simp only [reservations, hmgr] at hn ⊢
    cases hts : m.ts with
    | txn j =>
      have := hpending j hts
      subst this
      exact .inl ⟨m, b, hs, by rw [hts, currentStamp_of_not_ending hend]⟩
    | commit c =>
      rcases commit_stamp h hs hts with hle | ⟨rfl, _⟩
      · rw [h.newestKey_of_committed hs hts hle] at hn
        exact absurd hn hslot
      · exact .inr (hpass (by simp [unpublished, hts]))

theorem KeyInv.judge (hk : KeyInv ix base cat e) (h : Inv base e.mgr) (hix : ix ∈ cat.indexes)
    (hend : e.mgr.ending id = false) {m : TupleMeta} {b : Bytes} (ht : e.tasks id = .judge i key r :: rest)
    (hs : e.mgr.heap.slot r = some (m, b)) (hj : Engine.judge id txn i key r m b = .ok ()) :
    KeyInv ix base cat { e.goOn id rest with
      passedOver := if e.unpublished m then r :: e.passedOver else e.passedOver } := by
  refine hk.goesOn [] h ht (.refl _) rfl rfl (fun j _ => Iff.rfl) (fun q hq => ?_) (fun q hq => ?_) (by simp)
    (fun u hu => by cases hu) (fun r hf => hf.elim) (hk.tail_guarded ht (by simp) (by simp)).2.2 fun ha ha' hc => ?_
  · show q ∈ if e.unpublished m then r :: e.passedOver else e.passedOver
    split
    · exact List.mem_cons_of_mem _ hq
    · exact hq
  · replace hq : q ∈ if e.unpublished m then r :: e.passedOver else e.passedOver := hq
    split at hq
    · rename_i hun
      rcases List.mem_cons.mp hq with rfl | hq
      · have hts : m.ts = .commit (e.mgr.lastCommitTs + 1) := by simpa [unpublished] using hun
        rcases commit_stamp h hs hts with hle | ⟨_, hst⟩
        · omega
        · exact .inr hst
      · exact .inl hq
    · exact .inl hq
  · have hsafe := hk.safe id ha
    rw [ht] at hsafe
    refine Safe.mono (fun k q hkn => ?_) hsafe
    rcases hkn with hkn | ⟨ho, rfl, rfl⟩
    · exact fun hl => hc k q (hkn hl)
    · have hi : i = ix := hk.index_eq hix ht rfl ho
      subst hi
      intro _
      refine judge_clear h ?_ hend hs hj fun hun => ?_
      · rfl
      · show q ∈ if e.unpublished m then q :: e.passedOver else e.passedOver
        rw [if_pos hun]
        exact List.mem_cons_self

/-! ## Keys that change -/

theorem KeyInv.rekeySame (hk : KeyInv ix base cat e) (h : Inv base e.mgr)
    (ht : e.tasks id = .rekey i rid old new :: rest) (hsame : i.oid = ix.oid → ¬ ix.Changes old new) :
    KeyInv ix base cat (e.goOn id rest) := by
  refine hk.replaces [] h ht (by simp) (fun u hu => by cases hu) (fun r hf => absurd hf.2.2 (hsame hf.1))
    (hk.tail_guarded ht (by simp) (by simp)).2.2 fun _ hs => ?_
  exact hs.2.mono fun k r hc => hc.2

theorem KeyInv.rekeyNew (hk : KeyInv ix base cat e) (h : Inv base e.mgr)
    (ht : e.tasks id = .rekey i rid old new :: rest) :
    KeyInv ix base cat
      (e.goOn id (.lock i :: .check i new (some rid) :: .file i new rid :: .unlock i :: rest)) := by
  obtain ⟨_, hfree, hrest⟩ := hk.tail_guarded ht (by simp) (by simp)
  have hmem : i ∈ cat.indexes := hk.head_index ht rfl
  refine hk.replaces [.lock i, .check i new (some rid), .file i new rid, .unlock i] h ht (by simp) ?_ ?_ ?_
    fun _ hs => ?_
  · intro u hu
    simp only [List.mem_cons, List.not_mem_nil, or_false] at hu
    rcases hu with rfl | rfl | rfl | rfl <;> exact ⟨rfl, fun x hx => by cases hx; exact hmem⟩
  · rintro r ⟨ho, hr, _⟩
    exact ⟨.file i new rid, by simp, ho, hr⟩
  · by_cases ho : i.oid = ix.oid
    · have hnot := decide_eq_false (hfree ho)
      rw [hnot] at hrest ⊢
      simpa [Guarded, Task.Latched, Task.Unlatched, ho] using hrest
    · simpa [Guarded, Task.Latched, Task.Unlatched, ho] using hrest
  · refine ⟨fun ho => ⟨hs.1 ho, fun k hkey r hr => .inr ⟨ho, hkey, by simpa using hr⟩⟩, ?_⟩
    exact hs.2.mono fun k r hc => ⟨.inl hc, fun ho => absurd ho hc.1⟩

theorem KeyInv.recheckSame (hk : KeyInv ix base cat e) (h : Inv base e.mgr)
    (ht : e.tasks id = .recheck i rid old new :: rest) (hsame : i.oid = ix.oid → ¬ ix.Changes old new) :
    KeyInv ix base cat (e.goOn id rest) := by
  refine hk.replaces [] h ht (by simp) (fun u hu => by cases hu) (fun r hf => hf.elim)
    (hk.tail_guarded ht (by simp) (by simp)).2.2 fun _ hs => ?_
  exact hs.2.mono fun k r hc => hc.resolve_right fun hc => hsame hc.1 hc.2.1

theorem KeyInv.recheckNew (hk : KeyInv ix base cat e) (h : Inv base e.mgr)
    (ht : e.tasks id = .recheck i rid old new :: rest) :
    KeyInv ix base cat (e.goOn id (.check i new (some rid) :: rest)) := by
  obtain ⟨hlatched, _, hrest⟩ := hk.tail_guarded ht (by simp) (by simp)
  have hmem : i ∈ cat.indexes := hk.head_index ht rfl
  refine hk.replaces [.check i new (some rid)] h ht (by simp) ?_ (fun r hf => hf.elim) ?_ fun _ hs => ?_
  · intro u hu
    rw [List.mem_singleton.mp hu]
    exact ⟨rfl, fun x hx => by cases hx; exact hmem⟩
  · exact ⟨fun ho => by simpa using hlatched ho, fun hc => hc.elim, hrest⟩
  · show Safe ix (seenKey ix e.mgr id) (fun k r => e.Knows ix base id k r ∨ i.oid = ix.oid ∧ ix.keyOf new = some k ∧
      some r ≠ some rid) rest
    exact hs.2.mono fun k r hc => hc.imp_right fun ⟨ho, _, hkey, hr⟩ => ⟨ho, hkey, by simpa using hr⟩

theorem KeyInv.logFirstWrite (hk : KeyInv ix base cat e) (h : Inv base e.mgr)
    (ht : e.tasks id = .logFirstWrite :: rest) :
    KeyInv ix base cat { e.goOn id rest with mgr := e.mgr.logFirstWrite id txn } := by
  refine hk.goesOn [] h ht logFirstWrite_quiet rfl rfl (fun j _ => Iff.rfl) (fun r hr => hr)
    (fun r hr => .inl hr) (by simp)
    (fun u hu => by cases hu) (fun r hf => hf.elim) (hk.tail_guarded ht (by simp) (by simp)).2.2 fun ha _ hc => ?_
  have hs := hk.safe id ha
  rw [ht] at hs
  exact Safe.mono (fun k r hkn hl => hc k r (hkn hl)) hs

theorem KeyInv.taint (hk : KeyInv ix base cat e) (h : Inv base e.mgr) {err : MvccError}
    (ht : e.tasks id = .taint err :: rest) :
    KeyInv ix base cat { e.goOn id rest with mgr := e.mgr.modifyTxn id (·.setTainted) } := by
  have htask : (e.goOn id rest).tasks id = rest := by simp [goOn]
  have hdoomed : ¬ Engine.Active { e.goOn id rest with mgr := e.mgr.modifyTxn id (·.setTainted) } id := by
    rintro ⟨⟨t, ht', hr⟩, _⟩
    cases hu : e.mgr.txns id with
    | none => simp [modifyTxn, hu] at ht'
    | some u =>
      rw [modifyTxn_self hu] at ht'
      cases ht'
      exact setTainted_ne_running u hr
  refine hk.quietTask h (modifyTxn_quiet SameWrites.setTainted e.mgr.commitLatch fun _ => rfl) rfl
    (fun i hi => goOn_of_ne hi) (fun j _ => Iff.rfl) (fun r hr => hr) (fun r hr => .inl hr)
      (fun ha => absurd ha hdoomed) ?_
    (fun ha => absurd ha hdoomed) ?_ ?_
  · show Guarded ix _ ((e.goOn id rest).tasks id)
    rw [htask]
    exact (hk.tail_guarded ht (by simp) (by simp)).2.2
  · show ∀ t ∈ (e.goOn id rest).tasks id, _
    rw [htask]
    intro u hu
    exact hk.indexes id u (by rw [ht]; exact List.mem_cons_of_mem _ hu)
  · show ∀ table rid old new, .update table rid old new ∈ (e.goOn id rest).tasks id → _
    rw [htask]
    exact fun table rid old new hm => (not_update (hk.rest_updates ht) hm).elim

theorem moveTuple_plain {table : Nat} {u : Task} (hu : u ∈ moveTuple cat table rid old new) :
    u.isUpdate = false ∧ (∀ x, u.index = some x → x ∈ cat.indexes) ∧ ∀ err, u ≠ .taint err := by
  simp only [moveTuple, List.mem_append, List.mem_map, List.mem_cons, List.not_mem_nil, or_false] at hu
  rcases hu with ((⟨i, hi, rfl⟩ | ⟨i, hi, rfl⟩) | (rfl | rfl)) | ⟨i, hi, rfl⟩
  · exact ⟨rfl, fun x hx => by cases hx; exact (mem_sorted.mp hi).1, by simp⟩
  · exact ⟨rfl, fun x hx => by cases hx; exact (mem_sorted.mp hi).1, by simp⟩
  · exact ⟨rfl, fun x hx => (by cases hx), by simp⟩
  · exact ⟨rfl, fun x hx => (by cases hx), by simp⟩
  · exact ⟨rfl, fun x hx => by cases hx; exact (mem_sorted.mp hi).1, by simp⟩

theorem KeyInv.move (hk : KeyInv ix base cat e) (h : Inv base e.mgr) (hix : ix ∈ cat.indexes) {table : Nat}
    {mgr : TransactionManager} (ht : e.tasks id = .update table rid old new :: rest) (hq : Quiet e.mgr mgr) :
    KeyInv ix base cat { e.goOn id (moveTuple cat table rid old new) with mgr := mgr } := by
  obtain ⟨hshape, _⟩ := hk.updates id table rid old new (by rw [ht]; simp)
  have htask : (e.goOn id (moveTuple cat table rid old new)).tasks id = moveTuple cat table rid old new := by
    simp [goOn]
  have hactive : Engine.Active { e.goOn id (moveTuple cat table rid old new) with mgr := mgr } id →
      e.Active id := by
    rintro ⟨⟨t', ht', hr'⟩, _⟩
    obtain ⟨t₁, ht₁, hs⟩ := hq.back ht'
    exact ⟨⟨t₁, ht₁, hs.running hr'⟩, fun err hm => by rw [hshape] at hm; simp at hm⟩
  have hfree := (hk.tail_guarded ht (by simp) (by simp)).2.1 trivial
  refine hk.quietTask h hq rfl (fun i hi => goOn_of_ne hi) (fun j _ => Iff.rfl) (fun r hr => hr)
    (fun r hr => .inl hr)
    (fun ha => ⟨hactive ha, fun r hw => ?_⟩) ?_ (fun ha hc => ?_) ?_ ?_
  · rw [ht] at hw
    have := hw.1 (.update table rid old new) (by simp)
    cases this
  · show Guarded ix (decide (e.uniqueLatch ix.oid = some id)) ((e.goOn id _).tasks id)
    rw [htask, decide_eq_false hfree]
    exact moveTuple_guarded hix table rid old new
  · show Safe ix _ _ ((e.goOn id _).tasks id)
    rw [htask]
    have hs := hk.safe id (hactive ha)
    rw [ht] at hs
    exact moveTuple_safe hix hs
  · show ∀ t ∈ (e.goOn id _).tasks id, _
    rw [htask]
    exact fun u hu => (moveTuple_plain hu).2.1
  · show ∀ table rid old new, .update table rid old new ∈ (e.goOn id _).tasks id → _
    rw [htask]
    exact fun _ _ _ _ hm => (not_update (fun u hu => (moveTuple_plain hu).1) hm).elim

end

end Engine

end Cmudb
