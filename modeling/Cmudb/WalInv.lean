import Cmudb.LogInv

/-!
# The invariant of the open log

It relates the log file, what is still buffered, the page offsets and the open
transactions to the history, and is kept by every call, whichever of its
writes and fsyncs fail.
-/

namespace Cmudb

/-! ## Open transactions carried over -/

theorem filter_txn_flatMap {ts : List (Nat × List TxnRecord)} (hd : ts.Pairwise fun a b => a.1 ≠ b.1)
    (hown : ∀ e ∈ ts, ∀ r ∈ e.2, r.txn = e.1) (id : Nat) (us : List TxnRecord)
    (hid : ∀ v, (id, v) ∈ ts ↔ us ≠ [] ∧ v = us) : (ts.flatMap Prod.snd).filter (fun r => r.txn = id) = us := by
  induction ts generalizing us with
  | nil =>
    have : us = [] := by by_contra h; simpa using (hid us).mpr ⟨h, rfl⟩
    simp [this]
  | cons e ts ih =>
    obtain ⟨k, v⟩ := e
    have hd' := List.pairwise_cons.mp hd
    rw [List.flatMap_cons, List.filter_append]
    by_cases hk : k = id
    · subst hk
      have hv := (hid v).mp (by simp)
      have hrest := ih hd'.2 (fun e he => hown e (by simp [he])) [] fun w => by
        constructor
        · intro hw
          exact absurd rfl (hd'.1 (k, w) hw)
        · intro h; exact absurd rfl h.1
      rw [hrest, List.append_nil, ← hv.2, List.filter_eq_self]
      intro r hr
      simp [hown (k, v) (by simp) r hr]
    · have hnone : v.filter (fun r => r.txn = id) = [] := by
        rw [List.filter_eq_nil_iff]
        intro r hr
        simp [hown (k, v) (by simp) r hr, hk]
      show v.filter _ ++ _ = us
      rw [hnone, List.nil_append]
      refine ih hd'.2 (fun e he => hown e (by simp [he])) us fun w => ?_
      rw [← hid w]
      simp [Ne.symm hk]

theorem sinceEnd_mem {id : Nat} {ts : List TxnRecord} {r : TxnRecord} (h : r ∈ sinceEnd id ts) :
    r ∈ ts ∧ r.txn = id ∧ r.isEnd = false := by
  have hf := (List.rtakeWhile_suffix _ _).subset h
  have he := List.mem_rtakeWhile_imp h
  simp only [List.mem_filter, decide_eq_true_eq] at hf
  exact ⟨hf.1, hf.2, by simpa using he⟩

section
variable {openTxns : Std.TreeMap Nat (List TxnRecord)} {ts : List TxnRecord}
  (h : ∀ id, openTxns[id]? = openOf ts id)
include h

theorem mem_toList_openOf {id : Nat} {v : List TxnRecord} :
    (id, v) ∈ openTxns.toList ↔ sinceEnd id ts ≠ [] ∧ v = sinceEnd id ts := by
  rw [Std.TreeMap.mem_toList_iff_getElem?_eq_some, h, openOf]
  split
  · rename_i hn; simp [hn]
  · rename_i hn; simp [hn, eq_comm]

theorem sinceEnd_carried (id : Nat) : sinceEnd id (openTxns.toList.flatMap Prod.snd) = sinceEnd id ts := by
  have hd : openTxns.toList.Pairwise fun a b => a.1 ≠ b.1 :=
    Std.TreeMap.distinct_keys_toList.imp fun {a b} hab heq => hab (by rw [heq]; exact Nat.compare_eq_eq.mpr rfl)
  have hown : ∀ e ∈ openTxns.toList, ∀ r ∈ e.2, r.txn = e.1 := by
    intro e he r hr
    rw [((mem_toList_openOf h).mp he).2] at hr
    exact (sinceEnd_mem hr).2.1
  have hfilter := filter_txn_flatMap hd hown id (sinceEnd id ts) fun v => mem_toList_openOf h
  rw [sinceEnd, hfilter, List.rtakeWhile_eq_self_iff]
  intro r hr
  simp [(sinceEnd_mem hr).2.2]

theorem carried_subset {r : TxnRecord} (hr : r ∈ openTxns.toList.flatMap Prod.snd) : r ∈ ts := by
  obtain ⟨e, he, hr⟩ := List.mem_flatMap.mp hr
  rw [((mem_toList_openOf h).mp he).2] at hr
  exact (sinceEnd_mem hr).1

end

/-! ## The file and what is buffered -/

/-- The file holds the records `written` and `pending` is still to be written behind them. -/
structure TailInv (s : PageStore) (written : List LogRecord) (pending : List TxnRecord) : Prop where
  records : s.log.records = written ++ pending.map .txn
  buffered : s.wal.buffered = walFraming.encAll (pending.map .txn)
  ends : s.wal.endOffset = logHeaderLen + (walFraming.encAll written).length
  stored : logHeader ++ walFraming.encAll written <+: s.log.bytes
  pages : ∀ pid : Nat, s.wal.pages[pid]? = newestOffset pid (walFraming.views logHeaderLen written)

theorem prefix_overwrite {file p : Bytes} (h : p <+: file) (new : Bytes) :
    p ++ new <+: overwrite file p.length new := by
  obtain ⟨t, rfl⟩ := h
  rw [overwrite, List.take_left]
  exact List.prefix_append _ _

section
variable {s : PageStore} {written : List LogRecord} {pending : List TxnRecord}

theorem TailInv.offset (h : TailInv s written pending) :
    s.wal.endOffset = (logHeader ++ walFraming.encAll written).length := by
  rw [h.ends, List.length_append, logHeader_length]

theorem TailInv.failed (h : TailInv s written pending) (record : LogRecord) (k : Nat) :
    TailInv (s.writeOutWith record (some k)).1 written pending := by
  refine ⟨h.records, h.buffered, h.ends, ?_, h.pages⟩
  show _ <+: overwrite s.log.bytes s.wal.endOffset _
  rw [h.offset]
  exact (List.prefix_append _ _).trans (prefix_overwrite h.stored _)

theorem TailInv.wrote (h : TailInv s written pending) (record : LogRecord) :
    let t := (s.writeOutWith record none).1
    t.log.records = written ++ pending.map .txn ++ [record] ∧
    t.wal.endOffset = logHeaderLen + (walFraming.encAll (written ++ pending.map .txn ++ [record])).length ∧
    logHeader ++ walFraming.encAll (written ++ pending.map .txn ++ [record]) <+: t.log.bytes ∧
    s.wal.endOffset + s.wal.buffered.length =
      logHeaderLen + (walFraming.encAll (written ++ pending.map .txn)).length := by
  have henc : walFraming.encAll (written ++ pending.map .txn ++ [record]) =
      walFraming.encAll written ++ (s.wal.buffered ++ record.encode) := by
    rw [Lib.Framing.encAll_append, Lib.Framing.encAll_append, Lib.Framing.encAll_singleton, ← h.buffered,
      List.append_assoc]
    rfl
  refine ⟨?_, ?_, ?_, ?_⟩
  · show s.log.records ++ [record] = _
    rw [h.records]
  · show s.wal.endOffset + (s.wal.buffered ++ record.encode).length = _
    rw [henc, h.ends, Nat.add_assoc, ← List.length_append]
  · show _ <+: overwrite s.log.bytes s.wal.endOffset _
    rw [henc, h.offset, ← List.append_assoc]
    exact prefix_overwrite h.stored _
  · rw [h.ends, h.buffered, Lib.Framing.encAll_append, List.length_append, Nat.add_assoc]

/-! ## The invariant -/

structure StoreInv (data₀ : Nat → Bytes) (s : PageStore) (base : List LogRecord) (carried : List TxnRecord)
    (since written : List LogRecord) (pending : List TxnRecord) (n : Nat) : Prop where
  file : FileInv data₀ s.data base carried since s.log n
  tail : TailInv s written pending
  safe : n ≤ written.length
  history : s.history = base ++ since
  fits : ∀ r ∈ s.history, r.Fits
  openTxns : ∀ id : Nat, s.wal.openTxns[id]? = openOf (txnsOf s.history) id
  clean : s.wal.dirty = false → n = s.log.records.length
  unsynced : ∀ pid, s.unsynced pid = true → newestImage pid (s.log.records.take n) ≠ none
  promised : s.promised ≤ base.length + (n - (carried.length + 1))
  /-- The log that a rename replaced still stands for all that was logged before it. -/
  replaced : ∀ old, s.replaced = some old → s.wal.broken = true ∧ n = carried.length + 1 ∧
    (∀ pid, s.unsynced pid = false) ∧
    ∃ base' carried' since', FileInv data₀ s.data base' carried' since' old old.records.length ∧
    base' ++ since' = base

def PageStore.Inv (data₀ : Nat → Bytes) (s : PageStore) : Prop :=
  ∃ base carried since written pending n, StoreInv data₀ s base carried since written pending n

theorem FileInv.append {data₀ data : Nat → Bytes} {base since : List LogRecord} {carried : List TxnRecord}
    {l l' : LogFile} {n : Nat} (h : FileInv data₀ data base carried since l n) {r : LogRecord} (hr : r.Fits)
    (hrec : l'.records = l.records ++ [r]) (hsynced : l'.synced = l.synced)
    (hstored : logHeader ++ walFraming.encAll (l.records.take n) <+: l'.bytes) :
    FileInv data₀ data base carried (since ++ [r]) l' n := by
  have htake : l'.records.take n = l.records.take n := by rw [hrec, List.take_append_of_le_length h.bounded]
  constructor
  · rw [hrec, h.records, List.append_assoc]
  · intro r' hr'
    rw [hrec, List.mem_append, List.mem_singleton] at hr'
    rcases hr' with hr' | rfl
    · exact h.fits r' hr'
    · exact hr
  · exact h.carries
  · exact h.closed
  · exact h.started
  · rw [hrec, List.length_append]
    exact Nat.le_trans h.bounded (Nat.le_add_right _ _)
  · rw [htake]; exact h.durable
  · rw [htake]; exact hstored
  · rw [htake, hsynced]; exact h.synced
  · rw [htake]; exact h.data

section
variable {data₀ : Nat → Bytes} {base since : List LogRecord} {carried : List TxnRecord} {n : Nat}

theorem StoreInv.stored_take (h : StoreInv data₀ s base carried since written pending n) :
    logHeader ++ walFraming.encAll (s.log.records.take n) <+: logHeader ++ walFraming.encAll written := by
  rw [h.tail.records, List.take_append_of_le_length h.safe]
  obtain ⟨t, ht⟩ := List.take_prefix n written
  refine ⟨walFraming.encAll t, ?_⟩
  rw [List.append_assoc, ← Lib.Framing.encAll_append, ht]

theorem StoreInv.readPage (h : StoreInv data₀ s base carried since written pending n) (pid : Nat) :
    s.readPage pid = (newestImage pid s.history).getD (data₀ pid) := by
  have hdrop : walFraming.encAll written <+: s.log.bytes.drop logHeaderLen := by
    obtain ⟨t, ht⟩ := h.tail.stored
    rw [← ht, ← logHeader_length, List.append_assoc, List.drop_left]
    exact List.prefix_append _ _
  have himage := imageAt_newestOffset pid hdrop
  rw [← h.tail.pages] at himage
  have hall : newestImage pid s.log.records = newestImage pid written := by
    rw [h.tail.records, newestImage_append, newestImage_map_txn, Option.none_or]
  have hsince : newestImage pid written = newestImage pid since := by
    rw [← hall, h.file.records, newestImage_append, newestImage_append, newestImage_map_txn]
    cases newestImage pid since <;> rfl
  rw [h.history, newestImage_append, ← hsince, ← himage, PageStore.readPage]
  cases hp : s.wal.pages[pid]? with
  | some offset => rfl
  | none =>
    rw [hp] at himage
    have hnone : newestImage pid (s.log.records.take n) = none :=
      newestImage_none_of_initial (List.take_prefix _ _) (hall.trans himage.symm)
    exact h.file.data pid hnone

theorem StoreInv.failed (h : StoreInv data₀ s base carried since written pending n) (record : LogRecord) (k : Nat) :
    StoreInv data₀ (s.writeOutWith record (some k)).1 base carried since written pending n := by
  have htail := h.tail.failed record k
  exact ⟨⟨h.file.records, h.file.fits, h.file.carries, h.file.closed, h.file.started, h.file.bounded,
    h.file.durable, h.stored_take.trans htail.stored, h.file.synced, h.file.data⟩, htail, h.safe, h.history, h.fits,
    h.openTxns, h.clean, h.unsynced, h.promised, h.replaced⟩

theorem StoreInv.fits_concat (h : StoreInv data₀ s base carried since written pending n) {r : LogRecord}
    (hr : r.Fits) :
    ∀ r' ∈ s.history ++ [r], r'.Fits := by
  intro r' hr'
  rw [List.mem_append, List.mem_singleton] at hr'
  rcases hr' with hr' | rfl
  · exact h.fits r' hr'
  · exact hr

theorem StoreInv.not_replaced (h : StoreInv data₀ s base carried since written pending n)
    (hb : s.wal.broken = false) :
    s.replaced = none := by
  cases hr : s.replaced with
  | none => rfl
  | some old => have := (h.replaced old hr).1; rw [hb] at this; cases this

theorem StoreInv.wrote (h : StoreInv data₀ s base carried since written pending n) (hb : s.wal.broken = false)
    {r : LogRecord} (hr : r.Fits) (htxn : r.txn? = none) (pages : Std.TreeMap Nat Nat)
    (hpages : ∀ pid : Nat, pages[pid]? =
      newestOffset pid (walFraming.views logHeaderLen (written ++ pending.map .txn ++ [r]))) :
    let t := (s.writeOutWith r none).1
    StoreInv data₀ { t with wal := { t.wal with pages := pages, dirty := true } } base carried (since ++ [r])
      (written ++ pending.map .txn ++ [r]) [] n := by
  obtain ⟨hrec, hends, hstored, -⟩ := h.tail.wrote r
  have hlog : s.log.records = written ++ pending.map .txn := h.tail.records
  have htake : (s.writeOutWith r none).1.log.records.take n = s.log.records.take n :=
    List.take_append_of_le_length h.file.bounded
  have hpre : logHeader ++ walFraming.encAll written <+: logHeader ++
      walFraming.encAll (written ++ pending.map .txn ++ [r]) := by
    rw [List.append_assoc, Lib.Framing.encAll_append, ← List.append_assoc]
    exact List.prefix_append _ _
  constructor
  · exact h.file.append hr (hrec.trans (by rw [hlog])) rfl ((h.stored_take.trans hpre).trans hstored)
  · exact ⟨by rw [List.map_nil, List.append_nil]; exact hrec, rfl, hends, hstored, hpages⟩
  · refine Nat.le_trans h.safe ?_
    rw [List.length_append, List.length_append]
    omega
  · show s.history ++ [r] = _
    rw [h.history, List.append_assoc]
  · exact h.fits_concat hr
  · intro id
    show s.wal.openTxns[id]? = openOf (txnsOf (s.history ++ [r])) id
    have : txnsOf [r] = [] := by simp [txnsOf, htxn]
    rw [txnsOf_append, this, List.append_nil]
    exact h.openTxns id
  · intro hd; cases hd
  · intro pid hu
    show newestImage pid ((s.writeOutWith r none).1.log.records.take n) ≠ none
    rw [htake]
    exact h.unsynced pid hu
  · exact h.promised
  · intro old hold
    have : s.replaced = some old := hold
    rw [h.not_replaced hb] at this
    cases this

theorem StoreInv.logTxn (h : StoreInv data₀ s base carried since written pending n) {record : TxnRecord}
    (hr : record.Fits) :
    StoreInv data₀ (s.logTxn record) base carried (since ++ [.txn record]) written (pending ++ [record]) n := by
  have htake : (s.logTxn record).log.records.take n = s.log.records.take n :=
    List.take_append_of_le_length h.file.bounded
  constructor
  · exact h.file.append (r := .txn record) hr rfl rfl (h.stored_take.trans h.tail.stored)
  · refine ⟨?_, ?_, h.tail.ends, h.tail.stored, h.tail.pages⟩
    · show s.log.records ++ [.txn record] = _
      rw [h.tail.records, List.map_append, List.append_assoc]
      rfl
    · show s.wal.buffered ++ encodeTxnRecord record = _
      rw [h.tail.buffered, List.map_append, Lib.Framing.encAll_append]
      exact congrArg _ (Lib.Framing.encAll_singleton (F := walFraming) (.txn record)).symm
  · exact h.safe
  · show s.history ++ [.txn record] = _
    rw [h.history, List.append_assoc]
  · exact h.fits_concat (r := .txn record) hr
  · intro id
    show (trackOpenTxn s.wal.openTxns record)[id]? = openOf (txnsOf (s.history ++ [.txn record])) id
    rw [txnsOf_append]
    exact trackOpenTxn_openOf h.openTxns record id
  · intro hd; cases hd
  · intro pid hu
    rw [htake]
    exact h.unsynced pid hu
  · exact h.promised
  · exact h.replaced

theorem StoreInv.synced (h : StoreInv data₀ s base carried since written [] n) (hclosed : Closed written)
    (hb : s.wal.broken = false) :
    StoreInv data₀ { s with wal := { s.wal with dirty := false }, log := { s.log with synced := s.wal.endOffset }
                            promised := s.history.length }
      base carried since written [] written.length := by
  have hrec : s.log.records = written := by simpa using h.tail.records
  have htake : s.log.records.take written.length = written := by rw [hrec, List.take_length]
  have hlen : written.length = carried.length + 1 + since.length := by
    rw [← hrec, h.file.records]
    simp only [List.length_append, List.length_map, List.length_singleton]
  constructor
  · constructor
    · exact h.file.records
    · exact h.file.fits
    · exact h.file.carries
    · exact h.file.closed
    · exact Nat.le_trans h.file.started h.safe
    · rw [hrec]
    · show Closed (s.log.records.take _)
      rw [htake]; exact hclosed
    · show logHeader ++ walFraming.encAll (s.log.records.take _) <+: _
      rw [htake]; exact h.tail.stored
    · show s.wal.endOffset = _ + (walFraming.encAll (s.log.records.take _)).length
      rw [htake]; exact h.tail.ends
    · intro pid hn
      refine h.file.data pid (newestImage_none_of_initial ?_ hn)
      exact List.take_prefix_take_left h.safe
  · exact ⟨h.tail.records, h.tail.buffered, h.tail.ends, h.tail.stored, h.tail.pages⟩
  · exact Nat.le_refl _
  · exact h.history
  · exact h.fits
  · exact h.openTxns
  · intro _
    show written.length = s.log.records.length
    rw [hrec]
  · intro pid hu hn
    refine h.unsynced pid hu (newestImage_none_of_initial ?_ hn)
    exact List.take_prefix_take_left h.safe
  · show s.history.length ≤ _
    rw [h.history, List.length_append]
    omega
  · intro old hold
    have : s.replaced = some old := hold
    rw [h.not_replaced hb] at this
    cases this

/-! ## Checkpoints -/

/-- A checkpoint that stops before the rename changes the data file only where the safe part of the
log has images. -/
theorem StoreInv.copied (h : StoreInv data₀ s base carried since written [] written.length)
    (hb : s.wal.broken = false) (data : Nat → Bytes) (unsynced : Nat → Bool) (broken : Bool)
    (hdata : ∀ pid, s.wal.pages[pid]? = none → data pid = s.data pid)
    (hunsynced : ∀ pid, unsynced pid = true → s.unsynced pid = true ∨ (s.wal.pages[pid]?).isSome) :
    StoreInv data₀ { s with data := data, unsynced := unsynced, wal := { s.wal with broken := broken } }
      base carried since written [] written.length := by
  have hrec : s.log.records = written := by simpa using h.tail.records
  have hpages : ∀ pid : Nat, newestImage pid (s.log.records.take written.length) = none ↔
      s.wal.pages[pid]? = none := by
    intro pid
    have hdrop : walFraming.encAll written <+: s.log.bytes.drop logHeaderLen := by
      obtain ⟨t, ht⟩ := h.tail.stored
      rw [← ht, ← logHeader_length, List.append_assoc, List.drop_left]
      exact List.prefix_append _ _
    rw [hrec, List.take_length, ← imageAt_newestOffset pid hdrop, ← h.tail.pages, Option.map_eq_none_iff]
  constructor
  · refine ⟨h.file.records, h.file.fits, h.file.carries, h.file.closed, h.file.started, h.file.bounded,
      h.file.durable, h.file.stored, h.file.synced, fun pid hn => ?_⟩
    exact (hdata pid ((hpages pid).mp hn)).trans (h.file.data pid hn)
  · exact ⟨h.tail.records, h.tail.buffered, h.tail.ends, h.tail.stored, h.tail.pages⟩
  · exact h.safe
  · exact h.history
  · exact h.fits
  · exact h.openTxns
  · exact h.clean
  · intro pid hu hn
    rcases hunsynced pid hu with hu | hu
    · exact h.unsynced pid hu hn
    · rw [(hpages pid).mp hn] at hu; cases hu
  · exact h.promised
  · intro old hold
    have : s.replaced = some old := hold
    rw [h.not_replaced hb] at this
    cases this

theorem freshLog_inv {s : PageStore} {data₀ data : Nat → Bytes}
    (hopen : ∀ id : Nat, s.wal.openTxns[id]? = openOf (txnsOf base) id)
    (hfits : ∀ r ∈ base, r.Fits) (hclosed : Closed base)
    (hdata : ∀ pid, data pid = (newestImage pid base).getD (data₀ pid)) :
    FileInv data₀ data base s.carried [] s.freshLog (s.carried.length + 1) := by
  have hrec : s.freshLog.records = s.carried.map .txn ++ [.durable] := rfl
  have htake : s.freshLog.records.take (s.carried.length + 1) = s.freshLog.records := by
    rw [List.take_of_length_le]
    rw [hrec, List.length_append, List.length_map]
    exact Nat.le_refl _
  constructor
  · rw [hrec, List.append_nil]
  · intro r hr
    rw [hrec, List.mem_append, List.mem_map, List.mem_singleton] at hr
    rcases hr with ⟨t, ht, rfl⟩ | rfl
    · have hmem := carried_subset hopen ht
      obtain ⟨r, hr, hrt⟩ := List.mem_filterMap.mp hmem
      cases r with
      | txn record =>
        cases hrt
        exact hfits _ hr
      | page => cases hrt
      | durable => cases hrt
    · exact True.intro
  · exact sinceEnd_carried hopen
  · exact hclosed
  · exact Nat.le_refl _
  · rw [hrec, List.length_append, List.length_map]
    exact Nat.le_refl _
  · rw [htake, hrec]; exact closed_durable _
  · rw [htake]; exact List.prefix_refl _
  · rw [htake]
    show (logHeader ++ walFraming.encAll _).length = _
    rw [List.length_append, logHeader_length]
    rfl
  · intro pid _; exact hdata pid

theorem StoreInv.renamed (h : StoreInv data₀ s base carried since written [] written.length)
    (hclosed : Closed s.history) (replaced : Option LogFile) (broken : Bool)
    (hrep : replaced = none ∨ replaced = some s.log ∧ broken = true) :
    StoreInv data₀ { s with
        wal :=
  { s.wal with endOffset := s.freshLog.bytes.length, buffered := [], pages := ∅, dirty := false, broken := broken }
        log := s.freshLog, replaced := replaced, data := s.readPage, unsynced := fun _ => false }
      s.history s.carried [] (s.carried.map .txn ++ [.durable]) [] (s.carried.length + 1) := by
  have hrec : s.log.records = written := by simpa using h.tail.records
  have hfresh := freshLog_inv (s := s) h.openTxns h.fits hclosed h.readPage
  constructor
  · exact hfresh
  · refine ⟨by simp [PageStore.freshLog], rfl, ?_, List.prefix_refl _, fun pid => ?_⟩
    · show (logHeader ++ walFraming.encAll _).length = _
      rw [List.length_append, logHeader_length]
    · rw [Lib.Framing.views_append, newestOffset_append, newestOffset_map_txn]
      exact Std.TreeMap.getElem?_emptyc
  · rw [List.length_append, List.length_map]
    exact Nat.le_refl _
  · rw [List.append_nil]
  · exact h.fits
  · exact h.openTxns
  · intro _
    show _ = (s.carried.map LogRecord.txn ++ [LogRecord.durable]).length
    rw [List.length_append, List.length_map]
    rfl
  · intro pid hu; cases hu
  · have := h.promised
    have hlen : written.length = carried.length + 1 + since.length := by
      rw [← hrec, h.file.records]
      simp only [List.length_append, List.length_map, List.length_singleton]
    show s.promised ≤ s.history.length + _
    rw [h.history, List.length_append]
    omega
  · intro old hold
    rcases hrep with hrep | ⟨hrep, hbroken⟩
    · have : replaced = some old := hold
      rw [hrep] at this; cases this
    · have hold' : replaced = some old := hold
      rw [hrep, Option.some.injEq] at hold'
      subst hold'
      refine ⟨hbroken, rfl, fun _ => rfl, base, carried, since, ?_, h.history.symm⟩
      have hfile := h.file
      rw [← hrec] at hfile
      refine ⟨hfile.records, hfile.fits, hfile.carries, hfile.closed, hfile.started, hfile.bounded, hfile.durable,
        hfile.stored, hfile.synced, fun pid hn => ?_⟩
      rw [List.take_length, hfile.records, newestImage_append, newestImage_append, newestImage_map_txn] at hn
      have hsince : newestImage pid since = none := (Option.or_eq_none_iff.mp hn).1
      show s.readPage pid = _
      rw [h.readPage, h.history, newestImage_append, hsince, Option.none_or]

theorem StoreInv.checkpoint (h : StoreInv data₀ s base carried since written [] written.length)
    (hclosed : Closed s.history) (hb : s.wal.broken = false) (fin : CheckpointEnd) :
    (s.checkpoint fin).1.Inv data₀ := by
  have hcopy : ∀ pid, s.wal.pages[pid]? = none → s.readPage pid = s.data pid := by
    intro pid hp
    rw [PageStore.readPage, hp]
  have hlogged : ∀ pid, (s.unsynced pid || (s.wal.pages[pid]?).isSome) = true →
      s.unsynced pid = true ∨ (s.wal.pages[pid]?).isSome := by
    intro pid hu; simpa using hu
  have hnone : ∀ pid, false = true → s.unsynced pid = true ∨ (s.wal.pages[pid]?).isSome := fun _ hu => by cases hu
  cases fin with
  | copying pages => exact ⟨_, _, _, _, _, _, h.copied hb _ _ s.wal.broken (by intro pid hp; simp [hp]) hlogged⟩
  | dataSync => exact ⟨_, _, _, _, _, _, h.copied hb _ _ true hcopy hlogged⟩
  | aside => exact ⟨_, _, _, _, _, _, h.copied hb _ _ s.wal.broken hcopy hnone⟩
  | asideSync => exact ⟨_, _, _, _, _, _, h.copied hb _ _ true hcopy hnone⟩
  | rename => exact ⟨_, _, _, _, _, _, h.copied hb _ _ s.wal.broken hcopy hnone⟩
  | dirSync => exact ⟨_, _, _, _, _, _, h.renamed hclosed (some s.log) true (.inr ⟨rfl, rfl⟩)⟩
  | done => exact ⟨_, _, _, _, _, _, h.renamed hclosed none s.wal.broken (.inl rfl)⟩

/-! ## The calls -/

theorem StoreInv.logPage (h : StoreInv data₀ s base carried since written pending n) {id : Nat} {page : PageData}
    (hid : id ≤ maxPageId) (fails : Option Nat) : (s.logPage id page fails).1.Inv data₀ := by
  unfold PageStore.logPage
  cases hb : s.wal.broken with
  | true => exact ⟨_, _, _, _, _, _, h⟩
  | false =>
    cases fails with
    | some k => exact ⟨_, _, _, _, _, _, h.failed (.page id page) k⟩
    | none =>
      obtain ⟨-, -, -, hstart⟩ := h.tail.wrote (.page id page)
      refine ⟨_, _, _, _, _, _, h.wrote hb (r := .page id page) hid rfl (s.wal.pages.insert id
        (s.wal.endOffset + s.wal.buffered.length + (recordHeaderLen + pageIdLen))) fun pid => ?_⟩
      rw [Lib.Framing.views_append, newestOffset_append, Lib.Framing.views_append, newestOffset_append,
        newestOffset_map_txn, Option.none_or, ← h.tail.pages, Std.TreeMap.getElem?_insert, hstart]
      by_cases hp : id = pid <;>
        simp [hp, newestOffset, Lib.Framing.views, walFraming, LogRecord.decoded, Decoded.offsetOf]

theorem StoreInv.breaks (h : StoreInv data₀ s base carried since written pending n) :
    StoreInv data₀ s.breaks base carried since written pending n :=
  ⟨h.file, ⟨h.tail.records, h.tail.buffered, h.tail.ends, h.tail.stored, h.tail.pages⟩, h.safe, h.history,
    h.fits, h.openTxns, h.clean, h.unsynced, h.promised, fun old hold => ⟨rfl, (h.replaced old hold).2⟩⟩

def PageStore.pointLog (s : PageStore) : LogFile where
  bytes := overwrite s.log.bytes s.wal.endOffset (s.wal.buffered ++ LogRecord.durable.encode)
  synced := s.wal.endOffset + (s.wal.buffered ++ LogRecord.durable.encode).length
  records := s.log.records ++ [.durable]

def PageStore.pointed (s : PageStore) : PageStore :=
  { s with
    wal := { s.wal with
      endOffset := s.wal.endOffset + (s.wal.buffered ++ LogRecord.durable.encode).length
      buffered := []
      dirty := false }
    log := s.pointLog
    history := s.history ++ [.durable]
    promised := (s.history ++ [LogRecord.durable]).length }

/-- What a durable point can do: refuse, find nothing to write, fail to write, fail to sync, or succeed, in
which case a checkpoint may follow. -/
inductive PageStore.PointOutcome (s : PageStore) (fin : CheckpointEnd) : PageStore × Except LogError Unit → Prop
  | refused (hb : s.wal.broken = true) : PointOutcome s fin (s, .error .broken)
  | clean (hb : s.wal.broken = false) (hd : s.wal.dirty = false) : PointOutcome s fin (s, .ok ())
  | notWritten (hb : s.wal.broken = false) (hd : s.wal.dirty = true) (k : Nat) :
    PointOutcome s fin ((s.writeOutWith .durable (some k)).1, .error .io)
  | notSynced (hb : s.wal.broken = false) (hd : s.wal.dirty = true) :
    PointOutcome s fin ((s.writeOutWith .durable none).1.breaks, .error .io)
  | pointed (hb : s.wal.broken = false) (hd : s.wal.dirty = true)
    (hshort : ¬ s.pointed.wal.endOffset > s.pointed.wal.checkpointBytes) : PointOutcome s fin (s.pointed, .ok ())
  | checkpointed (hb : s.wal.broken = false) (hd : s.wal.dirty = true)
    (hlong : s.pointed.wal.endOffset > s.pointed.wal.checkpointBytes) :
    PointOutcome s fin ((s.pointed.checkpoint fin).1, .ok ())

theorem durablePoint_pointed (hb : s.wal.broken = false) (hd : s.wal.dirty = true) (fin : CheckpointEnd) :
    s.durablePoint none false fin = if s.pointed.wal.endOffset > s.pointed.wal.checkpointBytes then
      ((s.pointed.checkpoint fin).1, .ok ()) else (s.pointed, .ok ()) := by
  rw [PageStore.durablePoint, if_neg (by simp [hb]), if_neg (by simp [hd])]
  rfl

theorem durablePoint_outcome (s : PageStore) (writeFails : Option Nat) (syncFails : Bool) (fin : CheckpointEnd) :
    s.PointOutcome fin (s.durablePoint writeFails syncFails fin) := by
  cases hb : s.wal.broken with
  | true =>
    rw [PageStore.durablePoint, if_pos hb]
    exact .refused hb
  | false =>
    have hrefuse : ¬ s.wal.broken = true := by simp [hb]
    cases hd : s.wal.dirty with
    | false =>
      rw [PageStore.durablePoint, if_neg hrefuse, if_pos (by simp [hd])]
      exact .clean hb hd
    | true =>
      have hwrites : ¬ (!s.wal.dirty) = true := by simp [hd]
      cases writeFails with
      | some k =>
        rw [PageStore.durablePoint, if_neg hrefuse, if_neg hwrites]
        exact .notWritten hb hd k
      | none =>
        cases syncFails with
        | true =>
          rw [PageStore.durablePoint, if_neg hrefuse, if_neg hwrites]
          exact .notSynced hb hd
        | false =>
          rw [durablePoint_pointed hb hd]
          split
          case isTrue hlong => exact .checkpointed hb hd hlong
          case isFalse hshort => exact .pointed hb hd hshort

theorem StoreInv.wrotePoint (h : StoreInv data₀ s base carried since written pending n)
    (hb : s.wal.broken = false) :
    let t := (s.writeOutWith .durable none).1
    StoreInv data₀ { t with wal := { t.wal with pages := s.wal.pages, dirty := true } } base carried
      (since ++ [.durable])
      (written ++ pending.map .txn ++ [.durable]) [] n := by
  refine h.wrote hb (r := .durable) True.intro rfl s.wal.pages fun pid => ?_
  rw [Lib.Framing.views_append, newestOffset_append, Lib.Framing.views_append, newestOffset_append,
    newestOffset_map_txn, Option.none_or, ← h.tail.pages]
  rfl

theorem StoreInv.pointed (h : StoreInv data₀ s base carried since written pending n) (hb : s.wal.broken = false) :
    StoreInv data₀ s.pointed base carried (since ++ [.durable]) (written ++ pending.map .txn ++ [.durable]) []
      (written ++ pending.map LogRecord.txn ++ [LogRecord.durable]).length :=
  (h.wrotePoint hb).synced (closed_durable _) hb

theorem StoreInv.durablePoint (h : StoreInv data₀ s base carried since written pending n) (writeFails : Option Nat)
    (syncFails : Bool) (fin : CheckpointEnd) : (s.durablePoint writeFails syncFails fin).1.Inv data₀ := by
  have hout := durablePoint_outcome s writeFails syncFails fin
  generalize s.durablePoint writeFails syncFails fin = result at hout ⊢
  cases hout with
  | refused hb => exact ⟨_, _, _, _, _, _, h⟩
  | clean hb hd => exact ⟨_, _, _, _, _, _, h⟩
  | notWritten hb hd k => exact ⟨_, _, _, _, _, _, h.failed .durable k⟩
  | notSynced hb hd =>
    have hwrote := h.wrotePoint hb
    rw [← hd] at hwrote
    exact ⟨_, _, _, _, _, _, hwrote.breaks⟩
  | pointed hb hd hshort => exact ⟨_, _, _, _, _, _, h.pointed hb⟩
  | checkpointed hb hd hlong => exact (h.pointed hb).checkpoint (closed_durable _) hb fin

theorem PageStore.Inv.step (h : s.Inv data₀) {a : PageStore.Action} (ha : a.Fits) :
    (PageStore.step s a).Inv data₀ := by
  obtain ⟨base, carried, since, written, pending, n, h⟩ := h
  cases a with
  | logPage id page fails => exact h.logPage ha fails
  | logTxn record => exact ⟨_, _, _, _, _, _, h.logTxn ha⟩
  | durablePoint writeFails syncFails fin => exact h.durablePoint writeFails syncFails fin
  | setCheckpointBytes bytes =>
    exact ⟨_, _, _, _, _, _, h.file,
      ⟨h.tail.records, h.tail.buffered, h.tail.ends, h.tail.stored, h.tail.pages⟩, h.safe,
      h.history, h.fits, h.openTxns, h.clean, h.unsynced, h.promised, h.replaced⟩

theorem PageStore.Inv.run (h : s.Inv data₀) {actions : List PageStore.Action} (ha : ∀ a ∈ actions, a.Fits) :
    (s.run actions).Inv data₀ := by
  induction actions generalizing s with
  | nil => exact h
  | cons a as ih => exact ih (h.step (ha a (by simp))) fun a ha' => ha a (by simp [ha'])

end

end

/-! ## Opening -/

theorem replay_mem {ds : List Decoded} {acc : Replay} {r : TxnRecord}
    (h : r ∈ (ds.foldl Replay.step acc).durable ++ (ds.foldl Replay.step acc).sinceDurable) :
    r ∈ acc.durable ++ acc.sinceDurable ∨ .txn r ∈ ds := by
  induction ds generalizing acc with
  | nil => exact .inl h
  | cons d ds ih =>
    rcases ih h with h | h
    · cases d with
      | page => exact .inl h
      | durable => exact .inl (by simpa [Replay.step] using h)
      | txn r' =>
        simp only [Replay.step, ← List.append_assoc, List.mem_append, List.mem_singleton] at h
        rcases h with h | rfl
        · exact .inl (by simpa using h)
        · exact .inr (by simp)
    · exact .inr (List.mem_cons_of_mem _ h)

theorem replay_fits {log : Option Bytes} {ts : List TxnRecord} {pages : Std.TreeMap Nat Nat}
    (h : replay log = .ok (ts, pages)) :
    ∀ r ∈ ts, r.Fits := by
  intro r hr
  unfold replay at h
  split at h
  · cases h; cases hr
  · cases h; cases hr
  · split at h
    · cases h
    split at h
    · cases h
    split at h
    · cases h
    cases h
    rcases replay_mem (List.mem_append_left _ hr) with hmem | hmem
    · cases hmem
    · obtain ⟨o, bs, k, hdec⟩ := Lib.Framing.mem_scan hmem
      exact readRecord_fits hdec

theorem started_inv {s : PageStore} {ts : List TxnRecord} (hopen : ∀ id : Nat, s.wal.openTxns[id]? = openOf ts id)
    (hfits : ∀ r ∈ ts, r.Fits) (hlog : s.log = s.freshLog) (hends : s.wal.endOffset = s.freshLog.bytes.length)
    (hbuffered : s.wal.buffered = []) (hpages : s.wal.pages = ∅) (hreplaced : s.replaced = none)
    (hunsynced : ∀ pid, s.unsynced pid = false) (hhistory : s.history = s.carried.map .txn ++ [.durable])
    (hpromised : s.promised = s.carried.length + 1) : s.Inv s.data := by
  have htxns : txnsOf (s.carried.map .txn ++ [.durable]) = s.carried := by
    rw [txnsOf_append, txnsOf_map]; exact List.append_nil _
  have hcarried : ∀ id : Nat, s.wal.openTxns[id]? = openOf (txnsOf (s.carried.map .txn ++ [.durable])) id := by
    intro id
    have hsince : sinceEnd id s.carried = sinceEnd id ts := sinceEnd_carried hopen id
    rw [hopen id, htxns, openOf, openOf, hsince]
  have hfits' : ∀ r ∈ s.carried.map LogRecord.txn ++ [.durable], r.Fits := by
    intro r hr
    rw [List.mem_append, List.mem_map, List.mem_singleton] at hr
    rcases hr with ⟨t, ht, rfl⟩ | rfl
    · exact hfits t (carried_subset hopen ht)
    · exact True.intro
  have himage : ∀ pid, newestImage pid (s.carried.map .txn ++ [.durable]) = none := by
    intro pid
    rw [newestImage_append, newestImage_map_txn]
    rfl
  have hfile : FileInv s.data s.data (s.carried.map .txn ++ [.durable]) s.carried [] s.freshLog
      (s.carried.length + 1) :=
    freshLog_inv hcarried hfits' (closed_durable _) fun pid => by rw [himage]; rfl
  refine ⟨s.carried.map .txn ++ [.durable], s.carried, [], s.carried.map .txn ++ [.durable], [],
    s.carried.length + 1, ?_⟩
  constructor
  · rw [hlog]; exact hfile
  · refine ⟨by rw [hlog]; simp [PageStore.freshLog], hbuffered, ?_, by rw [hlog]; exact List.prefix_refl _,
      fun pid => ?_⟩
    · rw [hends]
      show (logHeader ++ walFraming.encAll _).length = _
      rw [List.length_append, logHeader_length]
    · rw [hpages, Lib.Framing.views_append, newestOffset_append, newestOffset_map_txn]
      exact Std.TreeMap.getElem?_emptyc
  · rw [List.length_append, List.length_map]
    exact Nat.le_refl _
  · rw [hhistory, List.append_nil]
  · rw [hhistory]; exact hfits'
  · rw [hhistory]; exact hcarried
  · intro _
    rw [hlog]
    show _ = (s.carried.map LogRecord.txn ++ [LogRecord.durable]).length
    rw [List.length_append, List.length_map]
    rfl
  · intro pid hu
    rw [hunsynced] at hu; cases hu
  · rw [hpromised, List.length_append, List.length_map]
    exact Nat.le_add_right _ _
  · intro old hold
    rw [hreplaced] at hold; cases hold

theorem open_done {disk : Disk} {ts : List TxnRecord} {pages : Std.TreeMap Nat Nat}
    (h : replay disk.log = .ok (ts, pages)) :
    ∃ s u, PageStore.open disk .done = .ok (s, .ok u) ∧ s.Inv s.data ∧
      (∀ pid, s.data pid = ((pages[pid]?).map (imageAt (disk.log.getD []))).getD (disk.data pid)) ∧
      ∀ x, x ∈ u ↔ recovered ts x.id = some x := by
  refine ⟨_, _, by rw [PageStore.open, h]; rfl, ?_, ?_, ?_⟩
  · exact started_inv (foldl_trackOpenTxn ts) (replay_fits h) rfl rfl rfl rfl rfl (fun _ => rfl) rfl rfl
  · intro pid
    dsimp only
    cases pages[pid]? <;> rfl
  · intro x
    rw [List.mem_map]
    constructor
    · rintro ⟨⟨k, y⟩, hmem, rfl⟩
      rw [Std.TreeMap.mem_toList_iff_getElem?_eq_some, foldl_trackUnfinished] at hmem
      exact recovered_id hmem ▸ hmem
    · intro hx
      exact ⟨(x.id, x), by rw [Std.TreeMap.mem_toList_iff_getElem?_eq_some, foldl_trackUnfinished]; exact hx, rfl⟩

end Cmudb
