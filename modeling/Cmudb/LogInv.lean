import Cmudb.LogHistory

/-!
# What the log file stands for

A log file holds the records carried over by the checkpoint that started it, a
durable point, and what was logged since. Read after a crash, it and the data
file give the history up to its last durable point that is whole.
-/

namespace Cmudb

/-! ## Parts of a history -/

def Closed (rs : List LogRecord) : Prop := durablePart rs = rs

theorem closed_durable (rs : List LogRecord) : Closed (rs ++ [.durable]) := durablePart_durable rs

theorem Closed.append {rs : List LogRecord} (h : Closed rs) (rs' : List LogRecord) :
    durablePart (rs ++ rs') = rs ++ durablePart rs' := by
  induction rs' using List.reverseRecOn with
  | nil => rw [List.append_nil]; exact h.trans (List.append_nil rs).symm
  | append_singleton rs' r ih =>
    cases hr : r.isDurable with
    | true =>
      have hr : r = .durable := by cases r <;> simp [LogRecord.isDurable] at hr ⊢
      rw [hr, ← List.append_assoc, durablePart_durable, durablePart_durable, List.append_assoc]
    | false => rw [← List.append_assoc, durablePart_other hr, durablePart_other hr, ih]

theorem newestImage_none_of_initial {pid : Nat} {rs rs' : List LogRecord} (h : rs <+: rs')
    (hn : newestImage pid rs' = none) :
    newestImage pid rs = none := by
  obtain ⟨t, rfl⟩ := h
  rw [newestImage_append, Option.or_eq_none_iff] at hn
  exact hn.2

/-! ## The invariant of a log file -/

/-- The log `l` stands for the history `base ++ since`: `carried` holds what was open after `base`,
and the first `n` records are on storage. Where these hold no image of a page, the data file has it. -/
structure FileInv (data₀ data : Nat → Bytes) (base : List LogRecord) (carried : List TxnRecord)
    (since : List LogRecord) (l : LogFile) (n : Nat) : Prop where
  records : l.records = carried.map .txn ++ [.durable] ++ since
  fits : ∀ r ∈ l.records, r.Fits
  carries : ∀ id, sinceEnd id carried = sinceEnd id (txnsOf base)
  closed : Closed base
  started : carried.length + 1 ≤ n
  bounded : n ≤ l.records.length
  durable : Closed (l.records.take n)
  stored : logHeader ++ walFraming.encAll (l.records.take n) <+: l.bytes
  synced : l.synced = logHeaderLen + (walFraming.encAll (l.records.take n)).length
  data : ∀ pid, newestImage pid (l.records.take n) = none → data pid = (newestImage pid base).getD (data₀ pid)

section
variable {data₀ data data' : Nat → Bytes} {base since : List LogRecord} {carried : List TxnRecord}
  {l : LogFile} {n : Nat}

theorem logHeader_length : logHeader.length = logHeaderLen := rfl

theorem FileInv.take_records (h : FileInv data₀ data base carried since l n) {m : Nat}
    (hm : carried.length + 1 ≤ m) :
    l.records.take m = carried.map .txn ++ [.durable] ++ since.take (m - (carried.length + 1)) := by
  rw [h.records, List.take_append, List.take_of_length_le (by simpa using hm)]
  simp

/-- The durable part of what is found, over the records of the file and over the history. -/
theorem FileInv.durablePart_take (h : FileInv data₀ data base carried since l n) {m : Nat}
    (hm : carried.length + 1 ≤ m) :
    durablePart (l.records.take m) =
      carried.map .txn ++ [.durable] ++ durablePart (since.take (m - (carried.length + 1))) ∧
    durablePart ((base ++ since).take (base.length + (m - (carried.length + 1)))) =
      base ++ durablePart (since.take (m - (carried.length + 1))) := by
  constructor
  · rw [h.take_records hm, (closed_durable _).append]
  · rw [List.take_length_add_append, h.closed.append]

theorem FileInv.recovered_eq (h : FileInv data₀ data base carried since l n) {m : Nat}
    (hm : carried.length + 1 ≤ m) (id : Nat) :
    recovered (txnsOf (durablePart (l.records.take m))) id =
      recovered (txnsOf (durablePart ((base ++ since).take (base.length + (m - (carried.length + 1)))))) id := by
  rw [(h.durablePart_take hm).1, (h.durablePart_take hm).2, txnsOf_append, txnsOf_append, txnsOf_append, txnsOf_map]
  have hd : txnsOf [.durable] = [] := rfl
  have heq := sinceEnd_append_congr (h.carries id) (txnsOf (durablePart (since.take (m - (carried.length + 1)))))
  rw [hd, List.append_nil]
  exact recovered_congr heq

/-- Copying the images found into a data file that differs only where the safe part of the log has
images gives the pages of the history. -/
theorem FileInv.image_eq (h : FileInv data₀ data base carried since l n)
    (hdata : ∀ pid, newestImage pid (l.records.take n) = none → data' pid = data pid) {m : Nat}
    (hm : n ≤ m) (pid : Nat) :
    (newestImage pid (durablePart (l.records.take m))).getD (data' pid) =
      (newestImage pid (durablePart ((base ++ since).take (base.length + (m - (carried.length + 1)))))).getD
        (data₀ pid) := by
  have hm' := Nat.le_trans h.started hm
  have hsafe : l.records.take n <+: durablePart (l.records.take m) := by
    obtain ⟨t, ht⟩ : l.records.take n <+: l.records.take m := List.take_prefix_take_left hm
    rw [← ht, h.durable.append]
    exact List.prefix_append _ _
  rw [(h.durablePart_take hm').2, newestImage_append]
  cases hx : newestImage pid (durablePart (since.take (m - (carried.length + 1)))) with
  | some image => rw [(h.durablePart_take hm').1, newestImage_append, hx]; rfl
  | none =>
    have hnone : newestImage pid (durablePart (l.records.take m)) = none := by
      rw [(h.durablePart_take hm').1, newestImage_append, newestImage_append, newestImage_map_txn, hx]
      rfl
    have hn := newestImage_none_of_initial hsafe hnone
    rw [hnone, Option.getD_none, hdata pid hn, h.data pid hn, Option.none_or]

theorem replay_logHeader {rest : Bytes} {found : Replay}
    (h : (walFraming.scan (logHeaderLen + rest.length + 1) logHeaderLen rest).foldl Replay.step
      ⟨[], ∅, [], []⟩ = found) :
    Cmudb.replay (some (logHeader ++ rest)) = .ok (found.durable, found.durablePages) := by
  have htake : (logHeader ++ rest).take 8 = logMagic := rfl
  have hversion : leNat (((logHeader ++ rest).drop 8).take 4) = logVersion := rfl
  have hdrop : (logHeader ++ rest).drop logHeaderLen = rest := rfl
  have hlen : (logHeader ++ rest).length = logHeaderLen + rest.length := List.length_append
  have hcons : logHeader ++ rest = 67 :: (logHeader.tail ++ rest) := rfl
  rw [hcons, Cmudb.replay, ← hcons, htake, hversion, hdrop, hlen]
  · simp [h]
  · simp

theorem FileInv.replay (h : FileInv data₀ data base carried since l n) {bytes : Bytes} (hs : l.Survives bytes) :
    ∃ m pages, n ≤ m ∧ l.Whole bytes m ∧
      Cmudb.replay (some bytes) = .ok (txnsOf (durablePart (l.records.take m)), pages) ∧
      ∀ pid : Nat, (pages[pid]?).map (imageAt bytes) = newestImage pid (durablePart (l.records.take m)) := by
  have hsynced : l.bytes.take l.synced = logHeader ++ walFraming.encAll (l.records.take n) := by
    obtain ⟨t, ht⟩ := h.stored
    rw [h.synced, ← ht, ← logHeader_length, ← List.length_append, List.take_left]
  obtain ⟨hsafe, honly⟩ := hs
  rw [hsynced] at hsafe
  have hlen : l.synced - logHeaderLen = (walFraming.encAll (l.records.take n)).length := by rw [h.synced]; omega
  rw [hlen] at honly
  obtain ⟨t, ht⟩ := hsafe
  have hdrop : bytes.drop logHeaderLen = walFraming.encAll (l.records.take n) ++ t := by
    rw [← ht, ← logHeader_length, List.append_assoc, List.drop_left]
  have hpre : walFraming.encAll (l.records.take n) <+: bytes.drop logHeaderLen := by
    rw [hdrop]; exact List.prefix_append _ _
  obtain ⟨m, hnm, hml, hwhole, hscan⟩ :=
    Lib.Framing.scan_log walFraming_sound h.fits h.bounded hpre honly
      (show (bytes.drop logHeaderLen).length < logHeaderLen + (bytes.drop logHeaderLen).length + 1 by omega)
  have hheader : bytes = logHeader ++ bytes.drop logHeaderLen := by rw [hdrop, ← ht, List.append_assoc]
  have hg := foldl_replay logHeaderLen (l.records.take m)
  rw [← hscan] at hg
  generalize hfound : (walFraming.scan _ logHeaderLen (bytes.drop logHeaderLen)).foldl Replay.step ⟨[], ∅, [],
    []⟩ = found at hg
  have hreplay := replay_logHeader hfound
  rw [← hheader, hg.durable] at hreplay
  refine ⟨m, found.durablePages, hnm, ⟨hml, hwhole⟩, hreplay, fun pid => ?_⟩
  rw [hg.pages, imageAt_newestOffset]
  have hm := (hwhole m hml).mpr (Nat.le_refl m)
  obtain ⟨u, hu⟩ := durablePart_prefix (l.records.take m)
  rw [← hu, Lib.Framing.encAll_append] at hm
  exact (List.prefix_append _ _).trans hm

end

end Cmudb
