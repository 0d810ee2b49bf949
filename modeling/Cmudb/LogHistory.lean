import Mathlib.Data.List.DropRight
import Cmudb.Wal

/-!
# What a log says

The specification of recovery, over the list of records logged: the part up to
the last durable point, the newest image of each page in it, and for each
transaction its records since it last ended. Replaying the records one by one
computes just these.
-/

namespace Cmudb

def TxnRecord.txn : TxnRecord → Nat
  | .writes txn | .undo txn .. | .ended txn => txn

def TxnRecord.isEnd : TxnRecord → Bool
  | .ended _ => true
  | _ => false

def LogRecord.isDurable : LogRecord → Bool
  | .durable => true
  | _ => false

def LogRecord.imageOf (pid : Nat) : LogRecord → Option Bytes
  | .page id image => if id = pid then some image.1 else none
  | _ => none

def LogRecord.txn? : LogRecord → Option TxnRecord
  | .txn record => some record
  | _ => none

def durablePart (rs : List LogRecord) : List LogRecord := rs.rdropWhile fun r => !r.isDurable

def afterDurable (rs : List LogRecord) : List LogRecord := rs.rtakeWhile fun r => !r.isDurable

def newestImage (pid : Nat) (rs : List LogRecord) : Option Bytes := rs.reverse.findSome? (·.imageOf pid)

def txnsOf (rs : List LogRecord) : List TxnRecord := rs.filterMap (·.txn?)

def sinceEnd (id : Nat) (ts : List TxnRecord) : List TxnRecord :=
  (ts.filter fun r => r.txn = id).rtakeWhile fun r => !r.isEnd

def TxnRecord.undoOf (rid : RecordId) : TxnRecord → Option UndoImage
  | .undo _ r tmeta data => if r = rid then some ⟨tmeta, data⟩ else none
  | _ => none

def firstUndo (rid : RecordId) (ts : List TxnRecord) : Option UndoImage := ts.findSome? (·.undoOf rid)

def recovered (ts : List TxnRecord) (id : Nat) : Option RecoveredTxn :=
  if sinceEnd id ts = [] then none else some ⟨id, fun rid => firstUndo rid (sinceEnd id ts)⟩

/-! ## One record more -/

theorem durablePart_append_afterDurable (rs : List LogRecord) : durablePart rs ++ afterDurable rs = rs :=
  List.rdropWhile_append_rtakeWhile

theorem durablePart_prefix (rs : List LogRecord) : durablePart rs <+: rs := List.rdropWhile_prefix _ _

theorem durablePart_durable (rs : List LogRecord) : durablePart (rs ++ [.durable]) = rs ++ [.durable] :=
  List.rdropWhile_concat_neg _ _ _ (by simp [LogRecord.isDurable])

theorem afterDurable_durable (rs : List LogRecord) : afterDurable (rs ++ [.durable]) = [] :=
  List.rtakeWhile_concat_neg _ _ _ (by simp [LogRecord.isDurable])

theorem durablePart_other {r : LogRecord} (h : r.isDurable = false) (rs : List LogRecord) :
    durablePart (rs ++ [r]) = durablePart rs :=
  List.rdropWhile_concat_pos _ _ _ (by simp [h])

theorem afterDurable_other {r : LogRecord} (h : r.isDurable = false) (rs : List LogRecord) :
    afterDurable (rs ++ [r]) = afterDurable rs ++ [r] :=
  List.rtakeWhile_concat_pos _ _ _ (by simp [h])

theorem newestImage_append (pid : Nat) (rs rs' : List LogRecord) :
    newestImage pid (rs ++ rs') = (newestImage pid rs').or (newestImage pid rs) := by
  simp [newestImage, List.findSome?_append]

theorem txnsOf_append (rs rs' : List LogRecord) : txnsOf (rs ++ rs') = txnsOf rs ++ txnsOf rs' := by
  simp [txnsOf]

theorem txnsOf_map (ts : List TxnRecord) : txnsOf (ts.map .txn) = ts := by
  simp [txnsOf, List.filterMap_map, LogRecord.txn?]

theorem newestImage_map_txn (pid : Nat) (ts : List TxnRecord) : newestImage pid (ts.map .txn) = none := by
  simp [newestImage, LogRecord.imageOf]

theorem sinceEnd_concat (id : Nat) (ts : List TxnRecord) (r : TxnRecord) : sinceEnd id (ts ++ [r]) =
    if r.txn = id then (if r.isEnd then [] else sinceEnd id ts ++ [r]) else sinceEnd id ts := by
  by_cases hid : r.txn = id
  · rw [if_pos hid, sinceEnd, List.filter_append, List.filter_singleton]
    simp only [hid, decide_true, cond_true, List.rtakeWhile_concat]
    cases r.isEnd <;> simp [sinceEnd]
  · rw [if_neg hid, sinceEnd, List.filter_append, List.filter_singleton]
    simp [hid, sinceEnd]

/-- What is open after two lists depends on the first only through what was open after it. -/
theorem sinceEnd_append_congr {id : Nat} {ts ts' : List TxnRecord} (h : sinceEnd id ts = sinceEnd id ts')
    (us : List TxnRecord) :
    sinceEnd id (ts ++ us) = sinceEnd id (ts' ++ us) := by
  induction us using List.reverseRecOn with
  | nil => simpa using h
  | append_singleton us r ih => rw [← List.append_assoc, ← List.append_assoc, sinceEnd_concat, sinceEnd_concat, ih]

theorem firstUndo_concat (rid : RecordId) (ts : List TxnRecord) (r : TxnRecord) :
    firstUndo rid (ts ++ [r]) = (firstUndo rid ts).or (r.undoOf rid) := by
  simp [firstUndo, List.findSome?_append]

/-! ## Tracking open transactions -/

def openOf (ts : List TxnRecord) (id : Nat) : Option (List TxnRecord) :=
  if sinceEnd id ts = [] then none else some (sinceEnd id ts)

theorem trackOpenTxn_openOf {openTxns : Std.TreeMap Nat (List TxnRecord)} {ts : List TxnRecord}
    (h : ∀ id, openTxns[id]? = openOf ts id) (r : TxnRecord) (id : Nat) :
    (trackOpenTxn openTxns r)[id]? = openOf (ts ++ [r]) id := by
  have hget : (openOf ts r.txn).getD [] = sinceEnd r.txn ts := by
    unfold openOf; split <;> simp_all
  have halter : (openTxns.alter r.txn fun old => some (old.getD [] ++ [r]))[id]? =
      if r.txn = id then some (sinceEnd id ts ++ [r]) else openOf ts id := by
    rw [Std.TreeMap.getElem?_alter]
    by_cases hid : r.txn = id
    · subst hid; simp [h, hget]
    · simp [hid, h]
  cases r with
  | ended txn =>
    rw [trackOpenTxn, Std.TreeMap.getElem?_erase, openOf, sinceEnd_concat]
    by_cases hid : txn = id
    · simp [hid, TxnRecord.txn, TxnRecord.isEnd]
    · simp [hid, TxnRecord.txn, h, openOf]
  | writes txn =>
    rw [openOf, sinceEnd_concat]
    refine halter.trans ?_
    by_cases hid : txn = id
    · simp [hid, TxnRecord.txn, TxnRecord.isEnd]
    · simp [hid, TxnRecord.txn, openOf]
  | undo txn =>
    rw [openOf, sinceEnd_concat]
    refine halter.trans ?_
    by_cases hid : txn = id
    · simp [hid, TxnRecord.txn, TxnRecord.isEnd]
    · simp [hid, TxnRecord.txn, openOf]

theorem foldl_trackOpenTxn (ts : List TxnRecord) (id : Nat) : (ts.foldl trackOpenTxn ∅)[id]? = openOf ts id := by
  induction ts using List.reverseRecOn generalizing id with
  | nil => simp [openOf, sinceEnd]
  | append_singleton ts r ih =>
    rw [List.foldl_append]
    exact trackOpenTxn_openOf ih r id

theorem recovered_getD (ts : List TxnRecord) (id : Nat) :
    (recovered ts id).getD ⟨id, fun _ => none⟩ = ⟨id, fun rid => firstUndo rid (sinceEnd id ts)⟩ := by
  unfold recovered
  split
  · rename_i h
    simp [h, firstUndo]
  · rfl

theorem recovered_id {ts : List TxnRecord} {id : Nat} {x : RecoveredTxn} (h : recovered ts id = some x) :
    x.id = id := by
  unfold recovered at h
  split at h
  · cases h
  · cases h; rfl

theorem recovered_congr {ts ts' : List TxnRecord} {id : Nat} (h : sinceEnd id ts = sinceEnd id ts') :
    recovered ts id = recovered ts' id := by
  rw [recovered, recovered, h]

theorem recovered_concat (ts : List TxnRecord) (r : TxnRecord) (id : Nat) : recovered (ts ++ [r]) id =
    if r.txn = id then
      (if r.isEnd then none else some ⟨id, fun rid => (firstUndo rid (sinceEnd id ts)).or (r.undoOf rid)⟩)
    else recovered ts id := by
  rw [recovered, sinceEnd_concat]
  split
  · split
    · simp
    · simp [firstUndo_concat]
  · rfl

theorem trackUnfinished_recovered {unfinished : Std.TreeMap Nat RecoveredTxn} {ts : List TxnRecord}
    (h : ∀ id, unfinished[id]? = recovered ts id) (r : TxnRecord) (id : Nat) :
    (trackUnfinished unfinished r)[id]? = recovered (ts ++ [r]) id := by
  rw [recovered_concat]
  cases r with
  | ended txn =>
    rw [trackUnfinished, Std.TreeMap.getElem?_erase]
    by_cases hid : txn = id
    · simp [hid, TxnRecord.txn, TxnRecord.isEnd]
    · simp [hid, TxnRecord.txn, h]
  | writes txn =>
    rw [trackUnfinished, Std.TreeMap.getElem?_alter]
    by_cases hid : txn = id
    · subst hid
      simp [TxnRecord.txn, TxnRecord.isEnd, TxnRecord.undoOf, h, recovered_getD]
    · simp [hid, TxnRecord.txn, h]
  | undo txn rid tmeta data =>
    rw [trackUnfinished, Std.TreeMap.getElem?_alter]
    by_cases hid : txn = id
    · subst hid
      simp only [TxnRecord.txn, TxnRecord.isEnd, TxnRecord.undoOf, h, recovered_getD, Nat.compare_eq_eq, if_true,
        Bool.false_eq_true, if_false, Option.some.injEq, RecoveredTxn.mk.injEq, true_and]
      funext rid'
      by_cases hrid : rid' = rid
      · subst hrid
        cases firstUndo rid' (sinceEnd txn ts) <;> simp
      · simp [Function.update_of_ne hrid, Ne.symm hrid]
    · simp [hid, TxnRecord.txn, h]

theorem foldl_trackUnfinished (ts : List TxnRecord) (id : Nat) :
    (ts.foldl trackUnfinished ∅)[id]? = recovered ts id := by
  induction ts using List.reverseRecOn generalizing id with
  | nil => simp [recovered, sinceEnd]
  | append_singleton ts r ih =>
    rw [List.foldl_append]
    exact trackUnfinished_recovered ih r id

/-! ## Replay -/

def Decoded.offsetOf (pid : Nat) : Decoded → Option Nat
  | .page id offset => if id = pid then some offset else none
  | _ => none

def Decoded.page? : Decoded → Option (Nat × Nat)
  | .page id offset => some (id, offset)
  | _ => none

def newestOffset (pid : Nat) (ds : List Decoded) : Option Nat := ds.reverse.findSome? (·.offsetOf pid)

theorem newestOffset_append (pid : Nat) (ds ds' : List Decoded) :
    newestOffset pid (ds ++ ds') = (newestOffset pid ds').or (newestOffset pid ds) := by
  simp [newestOffset, List.findSome?_append]

theorem newestOffset_map_txn (pid o : Nat) (ts : List TxnRecord) :
    newestOffset pid (walFraming.views o (ts.map .txn)) = none := by
  induction ts generalizing o with
  | nil => rfl
  | cons t ts ih =>
    have hcons : walFraming.views o ((t :: ts).map .txn) =
        [Decoded.txn t] ++ walFraming.views (o + (LogRecord.txn t).encode.length) (ts.map .txn) := rfl
    rw [hcons, newestOffset_append, ih]
    rfl

theorem foldl_insert_pages (ds : List Decoded) (pages : Std.TreeMap Nat Nat) (pid : Nat) :
    ((ds.filterMap (·.page?)).foldl (fun pages e => pages.insert e.1 e.2) pages)[pid]? =
      (newestOffset pid ds).or pages[pid]? := by
  induction ds using List.reverseRecOn with
  | nil => simp [newestOffset]
  | append_singleton ds d ih =>
    rw [newestOffset_append, List.filterMap_append, List.foldl_append]
    cases d with
    | page id offset =>
      have hd : [Decoded.page id offset].filterMap (·.page?) = [(id, offset)] := rfl
      rw [hd, List.foldl_cons, List.foldl_nil, Std.TreeMap.getElem?_insert, ih]
      by_cases hid : id = pid <;> simp [hid, newestOffset, Decoded.offsetOf]
    | durable => simpa [Decoded.page?, newestOffset, Decoded.offsetOf] using ih
    | txn r => simpa [Decoded.page?, newestOffset, Decoded.offsetOf] using ih

structure Replay.Gathered (acc : Replay) (o : Nat) (rs : List LogRecord) : Prop where
  durable : acc.durable = txnsOf (durablePart rs)
  pages : ∀ pid : Nat, acc.durablePages[pid]? = newestOffset pid (walFraming.views o (durablePart rs))
  sinceDurable : acc.sinceDurable = txnsOf (afterDurable rs)
  pagesSince : acc.pagesSinceDurable =
    (walFraming.views (o + (walFraming.encAll (durablePart rs)).length) (afterDurable rs)).filterMap (·.page?)

theorem Replay.Gathered.step {acc : Replay} {o : Nat} {rs : List LogRecord} (h : acc.Gathered o rs)
    (r : LogRecord) :
    (acc.step (r.decoded (o + (walFraming.encAll rs).length))).Gathered o (rs ++ [r]) := by
  have hlen : o + (walFraming.encAll (durablePart rs)).length + (walFraming.encAll (afterDurable rs)).length =
      o + (walFraming.encAll rs).length := by
    rw [Nat.add_assoc, ← List.length_append, ← Lib.Framing.encAll_append, durablePart_append_afterDurable]
  cases r with
  | page id image =>
    have hr : (LogRecord.page id image).isDurable = false := rfl
    refine ⟨?_, ?_, ?_, ?_⟩
    · rw [durablePart_other hr]; exact h.durable
    · rw [durablePart_other hr]; exact h.pages
    · rw [afterDurable_other hr, txnsOf_append, ← h.sinceDurable]
      simp [Replay.step, LogRecord.decoded, txnsOf, LogRecord.txn?]
    · rw [durablePart_other hr, afterDurable_other hr, Lib.Framing.views_append,
        List.filterMap_append, ← h.pagesSince, hlen]
      rfl
  | txn record =>
    have hr : (LogRecord.txn record).isDurable = false := rfl
    refine ⟨?_, ?_, ?_, ?_⟩
    · rw [durablePart_other hr]; exact h.durable
    · rw [durablePart_other hr]; exact h.pages
    · rw [afterDurable_other hr, txnsOf_append, ← h.sinceDurable]
      rfl
    · rw [durablePart_other hr, afterDurable_other hr, Lib.Framing.views_append,
        List.filterMap_append, ← h.pagesSince]
      simp [Replay.step, LogRecord.decoded, Lib.Framing.views, walFraming, Decoded.page?]
  | durable =>
    refine ⟨?_, ?_, ?_, ?_⟩
    · rw [durablePart_durable, txnsOf_append]
      conv => rhs; rw [← durablePart_append_afterDurable rs, txnsOf_append, ← h.durable, ← h.sinceDurable]
      simp [Replay.step, LogRecord.decoded, txnsOf, LogRecord.txn?]
    · intro pid
      rw [durablePart_durable]
      conv => rhs; rw [← durablePart_append_afterDurable rs]
      rw [Lib.Framing.views_append, Lib.Framing.views_append, newestOffset_append, newestOffset_append, ← h.pages]
      simp only [Replay.step, LogRecord.decoded, h.pagesSince, foldl_insert_pages]
      simp [newestOffset, Lib.Framing.views, walFraming, LogRecord.decoded, Decoded.offsetOf]
    · rw [afterDurable_durable]; rfl
    · rw [afterDurable_durable]; rfl

theorem foldl_replay (o : Nat) (rs : List LogRecord) :
    ((walFraming.views o rs).foldl Replay.step ⟨[], ∅, [], []⟩).Gathered o rs := by
  induction rs using List.reverseRecOn with
  | nil => exact ⟨rfl, fun _ => by simp [durablePart, newestOffset, Lib.Framing.views], rfl, rfl⟩
  | append_singleton rs r ih =>
    rw [Lib.Framing.views_append, List.foldl_append]
    exact ih.step r

theorem imageAt_newestOffset {bytes : Bytes} {o : Nat} {rs : List LogRecord} (pid : Nat)
    (h : walFraming.encAll rs <+: bytes.drop o) :
    (newestOffset pid (walFraming.views o rs)).map (imageAt bytes) = newestImage pid rs := by
  induction rs using List.reverseRecOn with
  | nil => rfl
  | append_singleton rs r ih =>
    rw [Lib.Framing.encAll_append, Lib.Framing.encAll_singleton] at h
    have ih := ih ((List.prefix_append _ _).trans h)
    rw [Lib.Framing.views_append, newestOffset_append, newestImage_append]
    cases r with
    | durable =>
      simpa [newestOffset, newestImage, Lib.Framing.views, walFraming, LogRecord.decoded, Decoded.offsetOf,
        LogRecord.imageOf] using ih
    | txn record =>
      simpa [newestOffset, newestImage, Lib.Framing.views, walFraming, LogRecord.decoded, Decoded.offsetOf,
        LogRecord.imageOf] using ih
    | page id image =>
      by_cases hid : id = pid
      · have himage : imageAt bytes (o + (walFraming.encAll rs).length + (recordHeaderLen + pageIdLen)) =
            image.1 := by
          obtain ⟨rest, hrest⟩ := h
          rw [imageAt, Nat.add_assoc, ← List.drop_drop, ← hrest, List.append_assoc, ← List.drop_drop,
            List.drop_left]
          have hpayload : (leBytes pageIdLen id ++ image.1 ++ rest).drop pageIdLen = image.1 ++ rest := by
            rw [List.append_assoc, List.drop_left' (leBytes_length _ _)]
          rw [← List.drop_drop]
          show (((encodeRecord kindPage _ ++ rest).drop recordHeaderLen).drop pageIdLen).take pageSize = image.1
          rw [drop_encodeRecord, hpayload, List.take_left' image.2]
        simp [newestOffset, newestImage, Lib.Framing.views, walFraming, LogRecord.decoded, Decoded.offsetOf,
          LogRecord.imageOf, hid]
        exact himage
      · simpa [newestOffset, newestImage, Lib.Framing.views, walFraming, LogRecord.decoded, Decoded.offsetOf,
          LogRecord.imageOf, hid] using ih

end Cmudb
