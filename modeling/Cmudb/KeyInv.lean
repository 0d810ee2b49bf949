import Cmudb.Calls
import Cmudb.Keys

/-!
# Who may hold a key

The rows of one index as reservations: a running transaction claims the keys of
the rows it holds once they are filed. `KeyInv` says that the claims are unique,
that every key is filed, and that each call under way knows what it needs.
`Progress` is what one task of a call does, and keeps the invariant.
-/

namespace Cmudb

namespace Engine

open TransactionManager Lib.Reservations

def Active (e : Engine) (i : Nat) : Prop := e.mgr.Runs i ∧ ∀ err, .taint err ∉ e.tasks i

section
variable (ix : IndexInfo) (base : RecordId → List Version)

def reservations (e : Engine) : Lib.Reservations Nat RecordId IndexKey where
  active := e.Active
  holds := e.mgr.Holds
  claims := fun i r k => e.Active i ∧ e.mgr.Holds i r ∧ slotKey ix e.mgr r = some k ∧ ¬ AwaitsFile ix r (e.tasks i)
  newest := newestKey ix base e.mgr
  skipped := fun r => r ∈ e.passedOver

/-- What a transaction knows about rows clear of a key is worth something under the latch only. -/
def Knows (e : Engine) (i : Nat) (k : IndexKey) (r : RecordId) : Prop :=
  e.uniqueLatch ix.oid = some i → (e.reservations ix base).Clear i k r

structure KeyInv (cat : Catalog) (e : Engine) : Prop where
  unique : (e.reservations ix base).Unique
  committed : ∀ t r q k, keyAt ix base e.mgr t r = some k → keyAt ix base e.mgr t q = some k → r = q
  newestFiled : ∀ r k, newestKey ix base e.mgr r = some k → (k, r) ∈ e.entries ix.oid
  claimsFiled : ∀ i r k, (e.reservations ix base).claims i r k → (k, r) ∈ e.entries ix.oid
  guarded : ∀ i, Guarded ix (e.uniqueLatch ix.oid = some i) (e.tasks i)
  safe : ∀ i, e.Active i → Safe ix (seenKey ix e.mgr i) (e.Knows ix base i) (e.tasks i)
  indexes : ∀ i, ∀ t ∈ e.tasks i, ∀ x, t.index = some x → x ∈ cat.indexes
  updates : ∀ i table rid old new, .update table rid old new ∈ e.tasks i →
    e.tasks i = .update table rid old new :: (cat.sorted table).map (.rekey · rid old new) ∧
      e.mgr.heap.owner rid.pageId = some table ∧ (e.mgr.heap.slot rid).isSome
  passed : ∀ r ∈ e.passedOver, ∃ i, r ∈ e.mgr.stampedRids i

structure Progress (cat : Catalog) (id : Nat) (new : Nat → RecordId → IndexKey → Prop) (e e' : Engine) : Prop where
  moves : Moves new (e.reservations ix base) (e'.reservations ix base)
  clear : ∀ {i r k}, new i r k → ∀ q, q ≠ r → (e.reservations ix base).Clear i k q
  one : ∀ {i j r q k}, new i r k → new j q k → r = q
  taken : ∀ {i k r j}, i ≠ id → e.uniqueLatch ix.oid = some i → (e.reservations ix base).Clear i k r → ¬ new j r k
  filed : ∀ {i r k}, new i r k → (k, r) ∈ e'.entries ix.oid
  entries : ∀ x ∈ e.entries ix.oid, x ∈ e'.entries ix.oid
  committed : ∀ t r, keyAt ix base e'.mgr t r = keyAt ix base e.mgr t r
  tasks : ∀ i, i ≠ id → e'.tasks i = e.tasks i
  latch : ∀ i, i ≠ id → (e'.uniqueLatch ix.oid = some i ↔ e.uniqueLatch ix.oid = some i)
  runs : ∀ i, i ≠ id → e'.mgr.Runs i → e.mgr.Runs i
  seen : ∀ i, i ≠ id → e'.Active i → ∀ r, seenKey ix e'.mgr i r = seenKey ix e.mgr i r
  stays : ∀ r, (e.mgr.heap.slot r).isSome →
    (e'.mgr.heap.slot r).isSome ∧ e'.mgr.heap.owner r.pageId = e.mgr.heap.owner r.pageId
  passed : ∀ r ∈ e'.passedOver, ∃ i, r ∈ e'.mgr.stampedRids i
  guarded : Guarded ix (e'.uniqueLatch ix.oid = some id) (e'.tasks id)
  safe : e'.Active id → Safe ix (seenKey ix e'.mgr id) (e'.Knows ix base id) (e'.tasks id)
  indexes : ∀ t ∈ e'.tasks id, ∀ x, t.index = some x → x ∈ cat.indexes
  updates : ∀ table rid old new, .update table rid old new ∈ e'.tasks id →
    e'.tasks id = .update table rid old new :: (cat.sorted table).map (.rekey · rid old new) ∧
      e'.mgr.heap.owner rid.pageId = some table ∧ (e'.mgr.heap.slot rid).isSome

end

section
variable {cat : Catalog} {ix : IndexInfo} {base : RecordId → List Version} {e e' : Engine} {id : Nat}
  {new : Nat → RecordId → IndexKey → Prop} {hot : Nat → RecordId → Prop}

theorem Progress.active (hp : Progress ix base cat id new e e') {i : Nat} (hi : i ≠ id)
    (ha : e'.Active i) : e.Active i :=
  ⟨hp.runs i hi ha.1, fun err => by rw [← hp.tasks i hi]; exact ha.2 err⟩

theorem Progress.knows (hp : Progress ix base cat id new e e') {i : Nat} (hi : i ≠ id) (ha : e'.Active i)
    {k : IndexKey} {r : RecordId} (hk : e.Knows ix base i k r) : e'.Knows ix base i k r := by
  intro hl
  have hl := (hp.latch i hi).mp hl
  exact (hk hl).moves hp.moves ha fun j => hp.taken hi hl (hk hl)

theorem KeyInv.progress (hk : KeyInv ix base cat e) (hp : Progress ix base cat id new e e') :
    KeyInv ix base cat e' where
  unique := hk.unique.moves hp.moves hp.clear hp.one
  committed := by
    intro t r q k hr hq
    rw [hp.committed] at hr hq
    exact hk.committed t r q k hr hq
  newestFiled := by
    intro r k hr
    rw [show newestKey ix base e'.mgr r = newestKey ix base e.mgr r from hp.moves.newest r] at hr
    exact hp.entries _ (hk.newestFiled r k hr)
  claimsFiled := by
    intro i r k hc
    rcases hp.moves.claims hc with hold | hnew
    · exact hp.entries _ (hk.claimsFiled i r k hold)
    · exact hp.filed hnew
  guarded := by
    intro i
    by_cases hi : i = id
    · subst hi; exact hp.guarded
    · rw [hp.tasks i hi, decide_eq_decide.mpr (hp.latch i hi)]
      exact hk.guarded i
  safe := by
    intro i ha
    by_cases hi : i = id
    · subst hi; exact hp.safe ha
    · rw [hp.tasks i hi, funext (hp.seen i hi ha)]
      exact (hk.safe i (hp.active hi ha)).mono fun k r hc => hp.knows hi ha hc
  indexes := by
    intro i
    by_cases hi : i = id
    · subst hi; exact hp.indexes
    · rw [hp.tasks i hi]; exact hk.indexes i
  updates := by
    intro i table rid old nw hm
    by_cases hi : i = id
    · subst hi
      exact hp.updates table rid old nw hm
    · rw [hp.tasks i hi] at hm ⊢
      obtain ⟨hshape, ho, hs⟩ := hk.updates i table rid old nw hm
      obtain ⟨hs', ho'⟩ := hp.stays rid hs
      exact ⟨hshape, ho'.trans ho, hs'⟩
  passed := hp.passed

/-- The claims after a step of the manager are those before it, but at hot rows. -/
theorem moves_of_steady (hs : Steady ix base hot e.mgr e'.mgr)
    (hclean : ∀ {i}, e'.Active i → ∀ err, .taint err ∉ e.tasks i)
    (hawait : ∀ {i r}, e'.Active i → ¬ hot i r → AwaitsFile ix r (e.tasks i) → AwaitsFile ix r (e'.tasks i))
    (hskip : ∀ r ∈ e.passedOver, r ∈ e'.passedOver) :
    Moves (fun i r k => hot i r ∧ (e'.reservations ix base).claims i r k) (e.reservations ix base)
      (e'.reservations ix base) where
  claims := by
    intro i r k hc
    by_cases hh : hot i r
    · exact .inr ⟨hh, hc⟩
    · obtain ⟨ha, hholds, hkey, hw⟩ := hc
      obtain ⟨h1, h2, h3⟩ := hs.keys hh ha.1 hholds hkey
      exact .inl ⟨⟨h1, hclean ha⟩, h2, h3, fun hc => hw (hawait ha hh hc)⟩
  actor := fun hc => hc.1
  newest := hs.newest
  holds := fun ha hh => hs.holds ha.1 hh
  skipped := fun hr => hskip _ hr

/-! ## Tasks that write no row -/

theorem KeyInv.quietTask (hk : KeyInv ix base cat e) (h : Inv base e.mgr) (hq : Quiet e.mgr e'.mgr)
    (hentries : e'.entries = e.entries) (htasks : ∀ i, i ≠ id → e'.tasks i = e.tasks i)
    (hlatch : ∀ i, i ≠ id → (e'.uniqueLatch ix.oid = some i ↔ e.uniqueLatch ix.oid = some i))
    (hskip : ∀ r ∈ e.passedOver, r ∈ e'.passedOver)
    (hpassed : ∀ r ∈ e'.passedOver, r ∈ e.passedOver ∨ ∃ i, r ∈ e.mgr.stampedRids i)
    (hactive : e'.Active id → e.Active id ∧ ∀ r, AwaitsFile ix r (e.tasks id) → AwaitsFile ix r (e'.tasks id))
    (hguarded : Guarded ix (e'.uniqueLatch ix.oid = some id) (e'.tasks id))
    (hsafe : e'.Active id →
      (∀ k r, (e.reservations ix base).Clear id k r → (e'.reservations ix base).Clear id k r) →
      Safe ix (seenKey ix e.mgr id) (e'.Knows ix base id) (e'.tasks id))
    (hindexes : ∀ t ∈ e'.tasks id, ∀ x, t.index = some x → x ∈ cat.indexes)
    (hupdates : ∀ table rid old new, .update table rid old new ∈ e'.tasks id →
      e'.tasks id = .update table rid old new :: (cat.sorted table).map (.rekey · rid old new) ∧
        e.mgr.heap.owner rid.pageId = some table ∧ (e.mgr.heap.slot rid).isSome) :
    KeyInv ix base cat e' := by
  have hmoves : Moves (fun i r k => False ∧ (e'.reservations ix base).claims i r k) (e.reservations ix base)
      (e'.reservations ix base) := moves_of_steady (hq.steady h)
    (fun {i} ha => by
      by_cases hi : i = id
      · subst hi; exact (hactive ha).1.2
      · rw [← htasks i hi]; exact ha.2)
    (fun {i r} ha _ hw => by
      by_cases hi : i = id
      · subst hi; exact (hactive ha).2 r hw
      · rw [htasks i hi]; exact hw)
    hskip
  have hp : Progress ix base cat id (fun i r k => False ∧ (e'.reservations ix base).claims i r k) e e' := {
    moves := hmoves
    clear := fun hn => hn.1.elim
    one := fun hn => hn.1.elim
    taken := fun _ _ _ hn => hn.1
    filed := fun hn => hn.1.elim
    entries := by rw [hentries]; exact fun x hx => hx
    committed := (Quiet.steady h hq).committed
    tasks := htasks
    latch := hlatch
    runs := fun i _ hr => by
      obtain ⟨t', ht', hr'⟩ := hr
      obtain ⟨t, ht, hs⟩ := hq.back ht'
      exact ⟨t, ht, hs.running hr'⟩
    seen := fun i _ _ r => hq.seenKey i r
    stays := by rw [hq.heap]; exact fun r hs => ⟨hs, rfl⟩
    passed := fun r hr => by
      simp only [hq.stamped]
      exact (hpassed r hr).elim (hk.passed r) fun hs => hs
    guarded := hguarded
    safe := fun ha => by
      rw [show seenKey ix e'.mgr id = seenKey ix e.mgr id from funext fun r => hq.seenKey id r]
      exact hsafe ha fun k r hc => hc.moves hmoves ha fun _ hn => hn.1
    indexes := hindexes
    updates := by rw [hq.heap]; exact hupdates }
  exact hk.progress hp

theorem not_update {ts : List Task} (hno : ∀ t ∈ ts, t.isUpdate = false) {table : Nat} {rid : RecordId}
    {old new : Bytes} (hm : .update table rid old new ∈ ts) : False := by
  have := hno _ hm
  cases this

theorem Knows.of_clear (hl : e'.uniqueLatch ix.oid = e.uniqueLatch ix.oid)
    (hclear : ∀ k r, (e.reservations ix base).Clear id k r → (e'.reservations ix base).Clear id k r) {k : IndexKey}
    {r : RecordId} (h : e.Knows ix base id k r) : e'.Knows ix base id k r := by
  intro hl'
  exact hclear k r (h (by rw [← hl]; exact hl'))

theorem guarded_fail {err : MvccError} (hix : ix ∈ cat.indexes) (held : Nat → Option Nat) :
    Guarded ix (held ix.oid = some id)
      ((cat.indexes.filter fun i => held i.oid = some id).map .unlock ++ [.taint err]) := by
  have hmem : ix.oid ∈ (cat.indexes.filter fun i => held i.oid = some id).map IndexInfo.oid ↔
      held ix.oid = some id := by
    constructor
    · intro hm
      obtain ⟨i, hi, ho⟩ := List.mem_map.mp hm
      rw [← ho]
      simpa using (List.mem_filter.mp hi).2
    · intro hl
      exact List.mem_map.mpr ⟨ix, List.mem_filter.mpr ⟨hix, by simpa using hl⟩, rfl⟩
  refine guarded_latches (b := true) (cat.distinct.sublist (List.filter_sublist.map _)) (fun _ _ _ => .rfl) ?_
  split
  · rename_i hm
    exact ⟨by simpa using hmem.mp hm, fun hc => hc.elim, fun hc => hc.elim, rfl⟩
  · rename_i hm
    have hne : ¬ held ix.oid = some id := fun hc => hm (hmem.mpr hc)
    exact ⟨fun hc => hc.elim, fun hc => hc.elim, decide_eq_false hne⟩

theorem KeyInv.fails (hk : KeyInv ix base cat e) (h : Inv base e.mgr) (hix : ix ∈ cat.indexes) {err : MvccError}
    (hq : Quiet e.mgr e'.mgr) (he : e' = { e.fail cat id err with mgr := e'.mgr, torn := e'.torn }) :
    KeyInv ix base cat e' := by
  have htask : e'.tasks id = (cat.indexes.filter fun i => e.uniqueLatch i.oid = some id).map .unlock ++
      [.taint err] := by
    rw [he]; simp [fail, goOn]
  have hlatch : e'.uniqueLatch = e.uniqueLatch := by rw [he]; rfl
  have hpass : e'.passedOver = e.passedOver := by rw [he]; rfl
  have hdoomed : ¬ e'.Active id := fun ha => ha.2 err (by rw [htask]; simp)
  refine hk.quietTask h hq (by rw [he]; rfl) (fun i hi => ?_) (fun i _ => by rw [hlatch])
    (by rw [hpass]; exact fun r hr => hr) (by rw [hpass]; exact fun r hr => .inl hr)
      (fun ha => absurd ha hdoomed) ?_
    (fun ha => absurd ha hdoomed) ?_ ?_
  · rw [he]; exact fail_of_ne hi
  · rw [htask, hlatch]; exact guarded_fail hix e.uniqueLatch
  · rw [htask]
    intro t ht x hx
    simp only [List.mem_append, List.mem_map, List.mem_singleton] at ht
    rcases ht with ⟨i, hi, rfl⟩ | rfl
    · cases hx
      exact (List.mem_filter.mp hi).1
    · cases hx
  · rw [htask]
    intro table rid old nw hm
    simp at hm

end

end Engine

end Cmudb
