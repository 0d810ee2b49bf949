import Cmudb.LogReplay

/-!
# Leftovers of failed writes

A write that fails leaves bytes past the end of the log. The next write starts
at the same place, and when it is shorter some of them stay behind it. A record
does not tell where in the log it was written, so bytes of a page image that
line up with the end of the log are read as records.
-/

namespace Cmudb

def decodedLog (bytes : Bytes) : List Decoded :=
  walFraming.scan (bytes.length + 1) logHeaderLen (bytes.drop logHeaderLen)

namespace PageStore

def pointEnd (s : PageStore) : Nat :=
  if s.wal.dirty then s.wal.endOffset + (s.wal.buffered ++ LogRecord.durable.encode).length else s.wal.endOffset

def NothingBehind (s : PageStore) : Prop := readRecord s.pointEnd (s.log.bytes.drop s.pointEnd) = none

def StartsFresh (s : PageStore) (fin : CheckpointEnd) : Prop :=
  s.wal.dirty = true ∧ s.wal.checkpointBytes < s.pointEnd ∧ fin = .done

def Finds (s : PageStore) (l : LogFile) : Prop := l = s.log ∨ s.replaced = some l

/-- What a call writes to the log: the records logged before it and its own. When the write fails,
only the first so many bytes reach the file. -/
def attempt (s : PageStore) : Action → Option (Bytes × Option Nat)
  | .logPage id page fails =>
    if s.wal.broken then none else some (s.wal.buffered ++ (LogRecord.page id page).encode, fails)
  | .durablePoint writeFails _ _ =>
    if s.wal.broken || !s.wal.dirty then none else some (s.wal.buffered ++ LogRecord.durable.encode, writeFails)
  | .logTxn _ | .setCheckpointBytes _ => none

def replacesLog (s : PageStore) : Action → Bool
  | .durablePoint none false .done => !s.wal.broken && s.wal.dirty && decide (s.wal.checkpointBytes < s.pointEnd)
  | _ => false

/-- What stands behind the end of the log after a write, from what stood there before: a write that
fails leaves the bytes it got into the file, and one that does not covers as many as it has. -/
def leaves (left : Bytes) : Bytes × Option Nat → Bytes
  | (batch, some k) => batch.take k ++ left.drop (batch.take k).length
  | (batch, none) => left.drop batch.length

def leftover (s : PageStore) (left : Bytes) : List Action → Bytes
  | [] => left
  | a :: as => (step s a).leftover (if s.replacesLog a then [] else (s.attempt a).elim left (leaves left)) as

end PageStore

/-- Whatever a crash leaves of the bytes behind what was synced, the records of the log are read
and no others. -/
def LogFile.ReadsOnly (l : LogFile) : Prop :=
  ∀ j, l.synced ≤ j → decodedLog (l.bytes.take j) = walFraming.views logHeaderLen l.records

/-! ## Reading past the end -/

/-- The records at the start of a log are read, and nothing else unless a record can be read behind
them. -/
theorem decodedLog_eq_views {rs : List LogRecord} (hfits : ∀ r ∈ rs, r.Fits) (rest : Bytes) :
    decodedLog (logHeader ++ walFraming.encAll rs ++ rest) = walFraming.views logHeaderLen rs ↔
      readRecord (logHeaderLen + (walFraming.encAll rs).length) rest = none := by
  have hdrop : (logHeader ++ walFraming.encAll rs ++ rest).drop logHeaderLen = walFraming.encAll rs ++ rest := by
    rw [← logHeader_length, List.append_assoc, List.drop_left]
  have hlen := Lib.Framing.length_le_encAll walFraming_sound rs
  obtain ⟨fuel, hfuel⟩ : ∃ fuel, (logHeader ++ walFraming.encAll rs ++ rest).length + 1 =
      rs.length + (fuel + 1) := by
    refine ⟨(logHeader ++ walFraming.encAll rs ++ rest).length - rs.length, ?_⟩
    rw [List.length_append, List.length_append]
    omega
  rw [decodedLog, hdrop, hfuel, Lib.Framing.scan_append walFraming_sound hfits, List.append_right_eq_self]
  exact Lib.Framing.scan_succ_eq_nil

theorem readsOnly_iff {l : LogFile} (rest : Bytes) (hfits : ∀ r ∈ l.records, r.Fits)
    (hbytes : l.bytes = logHeader ++ walFraming.encAll l.records ++ rest)
    (hsynced : l.synced = logHeaderLen + (walFraming.encAll l.records).length) :
    l.ReadsOnly ↔ readRecord l.synced rest = none := by
  have hlen : l.synced = (logHeader ++ walFraming.encAll l.records).length := by
    rw [hsynced, List.length_append, logHeader_length]
  constructor
  · intro h
    have hall := h l.bytes.length (by rw [hbytes, List.length_append, ← hlen]; exact Nat.le_add_right _ _)
    rw [List.take_length, hbytes, decodedLog_eq_views hfits] at hall
    rw [hsynced]
    exact hall
  · intro hnone j hj
    -- what is cut off the leftovers does not make a record of them
    have hcut : l.bytes.take j = logHeader ++ walFraming.encAll l.records ++ rest.take (j - l.synced) := by
      rw [hbytes, List.take_append, List.take_of_length_le (by rw [← hlen]; exact hj), ← hlen]
    rw [hcut, decodedLog_eq_views hfits, ← hsynced]
    cases hread : readRecord l.synced (rest.take (j - l.synced)) with
    | none => rfl
    | some found =>
      obtain ⟨_, _, _, hstays⟩ := readRecord_found hread
      have := hstays (rest.drop (j - l.synced))
      rw [List.take_append_drop, hnone] at this
      cases this

/-! ## The durable point -/

section
variable {data₀ : Nat → Bytes} {s : PageStore} {base since written : List LogRecord}
  {carried pending : List TxnRecord} {n : Nat}

theorem TailInv.overwritten (h : TailInv s written pending) (batch : Bytes) :
    overwrite s.log.bytes s.wal.endOffset batch =
      logHeader ++ walFraming.encAll written ++ batch ++ s.log.bytes.drop (s.wal.endOffset + batch.length) := by
  obtain ⟨t, ht⟩ := h.stored
  have htake : s.log.bytes.take s.wal.endOffset = logHeader ++ walFraming.encAll written := by
    rw [h.offset, ← ht, List.take_left]
  rw [overwrite, htake]

theorem StoreInv.clean_log (h : StoreInv data₀ s base carried since written pending n) (hd : s.wal.dirty = false) :
    s.log.records = written ∧ s.log.synced = s.wal.endOffset := by
  have hn := h.clean hd
  have hsafe := h.safe
  have hrec := h.tail.records
  have hlen : pending.length = 0 := by
    have := congrArg List.length hrec
    rw [List.length_append, List.length_map] at this
    omega
  rw [List.eq_nil_of_length_eq_zero hlen, List.map_nil, List.append_nil] at hrec
  refine ⟨hrec, ?_⟩
  rw [h.file.synced, hn, List.take_length, hrec, h.tail.ends]

theorem StoreInv.fits_log (h : StoreInv data₀ s base carried since written pending n) :
    ∀ r ∈ written ++ pending.map .txn ++ [.durable], r.Fits := by
  intro r hr
  rw [← h.tail.records, List.mem_append, List.mem_singleton] at hr
  rcases hr with hr | rfl
  · exact h.file.fits r hr
  · exact True.intro

theorem StoreInv.pointLog_readsOnly (h : StoreInv data₀ s base carried since written pending n)
    (hd : s.wal.dirty = true) :
    s.pointLog.ReadsOnly ↔ s.NothingBehind := by
  have hrec : s.pointLog.records = written ++ pending.map .txn ++ [.durable] := by
    show s.log.records ++ _ = _
    rw [h.tail.records]
  have hsynced : s.pointLog.synced = s.pointEnd := by
    rw [PageStore.pointEnd, if_pos hd]
    rfl
  have henc : walFraming.encAll s.pointLog.records =
      walFraming.encAll written ++ (s.wal.buffered ++ LogRecord.durable.encode) := by
    rw [hrec, Lib.Framing.encAll_append, Lib.Framing.encAll_append, Lib.Framing.encAll_singleton, ← h.tail.buffered,
      List.append_assoc]
    rfl
  rw [readsOnly_iff (l := s.pointLog) (s.log.bytes.drop s.pointEnd) (hrec ▸ h.fits_log), hsynced]
  · rfl
  · rw [henc, ← List.append_assoc, ← hsynced]
    exact h.tail.overwritten _
  · rw [henc, List.length_append, ← Nat.add_assoc, ← h.tail.ends]
    rfl

theorem StoreInv.log_readsOnly (h : StoreInv data₀ s base carried since written pending n)
    (hd : s.wal.dirty = false) :
    s.log.ReadsOnly ↔ s.NothingBehind := by
  obtain ⟨hrec, hsynced⟩ := h.clean_log hd
  have hend : s.pointEnd = s.wal.endOffset := if_neg (by simp [hd])
  obtain ⟨t, ht⟩ := h.tail.stored
  rw [readsOnly_iff (l := s.log) (s.log.bytes.drop s.pointEnd) h.file.fits, hsynced, ← hend]
  · rfl
  · rw [hrec, hend, h.tail.offset, ← ht, List.drop_left]
  · rw [hsynced, hrec, h.tail.ends]

theorem StoreInv.freshLog_readsOnly (h : StoreInv data₀ s base carried since written pending n)
    (hclosed : Closed s.history) :
    s.freshLog.ReadsOnly := by
  have hfits := (freshLog_inv (s := s) h.openTxns h.fits hclosed h.readPage).fits
  have hbytes : s.freshLog.bytes = logHeader ++ walFraming.encAll s.freshLog.records ++ [] := by
    rw [List.append_nil]
    rfl
  rw [readsOnly_iff [] hfits hbytes]
  · rfl
  · show (logHeader ++ walFraming.encAll _).length = _
    rw [List.length_append, logHeader_length]
    rfl

/-- A checkpoint puts a fresh log in the place of the one it read, or leaves that one to be found. -/
theorem StoreInv.checkpoint_readsOnly (h : StoreInv data₀ s base carried since written pending n)
    (hclosed : Closed s.history) (hrep : s.replaced = none) (fin : CheckpointEnd) :
    (∀ l, (s.checkpoint fin).1.Finds l → l.ReadsOnly) ↔ fin = .done ∨ s.log.ReadsOnly := by
  have hfresh := h.freshLog_readsOnly hclosed
  have hkept : (∀ l, (l = s.log ∨ s.replaced = some l) → l.ReadsOnly) ↔ s.log.ReadsOnly := by
    simp [hrep]
  cases fin with
  | copying pages => simpa [PageStore.checkpoint, PageStore.Finds] using hkept
  | dataSync => simpa [PageStore.checkpoint, PageStore.Finds, PageStore.breaks] using hkept
  | aside => simpa [PageStore.checkpoint, PageStore.Finds] using hkept
  | asideSync => simpa [PageStore.checkpoint, PageStore.Finds, PageStore.breaks] using hkept
  | rename => simpa [PageStore.checkpoint, PageStore.Finds] using hkept
  | dirSync => simp [PageStore.checkpoint, PageStore.Finds, PageStore.breaks, hfresh]
  | done => simp [PageStore.checkpoint, PageStore.Finds, hfresh]

theorem StoreInv.durablePoint_readsOnly (h : StoreInv data₀ s base carried since written pending n)
    {writeFails : Option Nat} {syncFails : Bool} {fin : CheckpointEnd}
    (hok : (s.durablePoint writeFails syncFails fin).2 = .ok ()) :
    (∀ l, (s.durablePoint writeFails syncFails fin).1.Finds l → l.ReadsOnly) ↔ s.StartsFresh fin ∨
    s.NothingBehind := by
  have hend : s.wal.dirty = true → s.pointed.wal.endOffset = s.pointEnd := by
    intro hd
    rw [PageStore.pointEnd, if_pos hd]
    rfl
  have hout := durablePoint_outcome s writeFails syncFails fin
  generalize s.durablePoint writeFails syncFails fin = result at hout hok ⊢
  cases hout with
  | refused hb => cases hok
  | notWritten hb hd k => cases hok
  | notSynced hb hd => cases hok
  | clean hb hd =>
    have hfresh : ¬ s.StartsFresh fin := by simp [PageStore.StartsFresh, hd]
    simp [PageStore.Finds, h.not_replaced hb, h.log_readsOnly hd, hfresh]
  | pointed hb hd hshort =>
    have hpoint : s.pointed.log.ReadsOnly ↔ s.NothingBehind := h.pointLog_readsOnly hd
    have hfresh : ¬ s.StartsFresh fin := fun hs => hshort (by rw [hend hd]; exact hs.2.1)
    have hrep : s.pointed.replaced = none := h.not_replaced hb
    rw [← hpoint]
    simp [PageStore.Finds, hrep, hfresh]
  | checkpointed hb hd hlong =>
    have hpoint : s.pointed.log.ReadsOnly ↔ s.NothingBehind := h.pointLog_readsOnly hd
    rw [hend hd] at hlong
    have hfresh : s.StartsFresh fin ↔ fin = .done := by
      simp only [PageStore.StartsFresh, hd, true_and]
      exact and_iff_right hlong
    rw [hfresh, ← hpoint]
    exact (h.pointed hb).checkpoint_readsOnly (closed_durable _) (h.not_replaced hb) fin

end

/-! ## What the calls leave behind -/

theorem overwrite_drop {file : Bytes} {o : Nat} (h : o ≤ file.length) (new : Bytes) :
    (overwrite file o new).drop o = new ++ (file.drop o).drop new.length := by
  rw [overwrite, List.append_assoc, List.drop_left' (by rw [List.length_take, Nat.min_eq_left h]), List.drop_drop]

theorem overwrite_drop_end {file : Bytes} {o : Nat} (h : o ≤ file.length) (new : Bytes) :
    (overwrite file o new).drop (o + new.length) = (file.drop o).drop new.length := by
  rw [← List.drop_drop, overwrite_drop h, List.drop_left]

variable {s : PageStore}

def PageStore.behind (s : PageStore) : Bytes := s.log.bytes.drop s.wal.endOffset

theorem writeOutWith_behind (h : s.wal.endOffset ≤ s.log.bytes.length) (r : LogRecord) (fails : Option Nat) :
    (s.writeOutWith r fails).1.behind = PageStore.leaves s.behind (s.wal.buffered ++ r.encode, fails) := by
  cases fails with
  | some k => exact overwrite_drop h _
  | none => exact overwrite_drop_end h _

theorem broken_step (h : s.wal.broken = true) (a : PageStore.Action) : (PageStore.step s a).wal.broken = true := by
  cases a with
  | logPage id page fails =>
    show (s.logPage id page fails).1.wal.broken = true
    rw [PageStore.logPage, if_pos h]
    exact h
  | logTxn record => exact h
  | durablePoint writeFails syncFails fin =>
    show (s.durablePoint writeFails syncFails fin).1.wal.broken = true
    rw [PageStore.durablePoint, if_pos h]
    exact h
  | setCheckpointBytes bytes => exact h

theorem broken_run (h : s.wal.broken = true) (actions : List PageStore.Action) :
    (s.run actions).wal.broken = true := by
  induction actions generalizing s with
  | nil => exact h
  | cons a as ih => exact ih (broken_step h a)

section

variable {writeFails : Option Nat} {syncFails : Bool} {fin : CheckpointEnd}

theorem replacesLog_clean (hd : s.wal.dirty = false) :
    s.replacesLog (.durablePoint writeFails syncFails fin) = false := by
  unfold PageStore.replacesLog
  split
  · simp [hd]
  · rfl

variable (hb : s.wal.broken = false) (hd : s.wal.dirty = true)

include hb hd

theorem replacesLog_iff : s.replacesLog (.durablePoint none false fin) = true ↔ s.StartsFresh fin := by
  cases fin <;> simp [PageStore.replacesLog, PageStore.StartsFresh, hb, hd]

theorem attempt_dirty : s.attempt (.durablePoint writeFails syncFails fin) =
    some (s.wal.buffered ++ LogRecord.durable.encode, writeFails) := by
  simp [PageStore.attempt, hb, hd]

theorem point_behind (hkept : (s.durablePoint none false fin).1.wal.broken = false) :
    (s.durablePoint none false fin).1.behind =
      if s.replacesLog (.durablePoint none false fin) then [] else s.pointed.behind := by
  have hend : s.pointed.wal.endOffset = s.pointEnd := by
    rw [PageStore.pointEnd, if_pos hd]
    rfl
  rw [durablePoint_pointed hb hd] at hkept ⊢
  by_cases hlong : s.pointed.wal.endOffset > s.pointed.wal.checkpointBytes
  · rw [if_pos hlong] at hkept ⊢
    rw [hend] at hlong
    cases fin with
    | done =>
      rw [if_pos ((replacesLog_iff hb hd).mpr ⟨hd, hlong, rfl⟩)]
      exact List.drop_length
    | dirSync => cases hkept
    | _ => rfl
  · rw [if_neg hlong, if_neg fun h => hlong (by rw [hend]; exact ((replacesLog_iff hb hd).mp h).2.1)]

end

/-- As long as no fsync fails, what stands behind the log is what the calls left there. -/
theorem step_behind (h : s.wal.endOffset ≤ s.log.bytes.length) {a : PageStore.Action}
    (hb : (PageStore.step s a).wal.broken = false) :
    (PageStore.step s a).behind = if s.replacesLog a then []
    else (s.attempt a).elim s.behind (PageStore.leaves s.behind) := by
  cases a with
  | logTxn record => rfl
  | setCheckpointBytes bytes => rfl
  | logPage id page fails =>
    simp only [PageStore.step, PageStore.logPage, PageStore.attempt, PageStore.replacesLog] at hb ⊢
    cases hbroken : s.wal.broken with
    | true => rfl
    | false =>
      have hwrite := writeOutWith_behind h (.page id page) fails
      cases fails <;> exact hwrite
  | durablePoint writeFails syncFails fin =>
    have hbroken : s.wal.broken = false := by
      cases hbroken : s.wal.broken with
      | false => rfl
      | true => rw [broken_step hbroken] at hb; cases hb
    simp only [PageStore.step] at hb ⊢
    cases hd : s.wal.dirty with
    | false =>
      rw [PageStore.durablePoint, if_neg (by simp [hbroken]), if_pos (by simp [hd]), replacesLog_clean hd]
      simp [PageStore.attempt, hbroken, hd]
    | true =>
      rw [attempt_dirty hbroken hd, Option.elim_some, ← writeOutWith_behind h]
      cases writeFails with
      | some k =>
        rw [PageStore.durablePoint, if_neg (by simp [hbroken]), if_neg (by simp [hd])]
        rfl
      | none =>
        cases syncFails with
        | true =>
          rw [PageStore.durablePoint, if_neg (by simp [hbroken]), if_neg (by simp [hd])] at hb
          cases hb
        | false => exact point_behind hbroken hd hb

theorem PageStore.Inv.end_le {data₀ : Nat → Bytes} (h : s.Inv data₀) :
    s.wal.endOffset ≤ s.log.bytes.length := by
  obtain ⟨base, carried, since, written, pending, n, h⟩ := h
  rw [h.tail.offset]
  exact h.tail.stored.length_le

theorem PageStore.Inv.run_behind {data₀ : Nat → Bytes} (h : s.Inv data₀) {actions : List PageStore.Action}
    (hfits : ∀ a ∈ actions, a.Fits) (hb : (s.run actions).wal.broken = false) :
    (s.run actions).behind = s.leftover s.behind actions := by
  induction actions generalizing s with
  | nil => rfl
  | cons a as ih =>
    have hstep : (PageStore.step s a).wal.broken = false := by
      cases hbroken : (PageStore.step s a).wal.broken with
      | false => rfl
      | true =>
        rw [PageStore.run, List.foldl_cons] at hb
        exact absurd (broken_run hbroken as) (by rw [PageStore.run, hb]; exact Bool.false_ne_true)
    rw [PageStore.leftover, ← step_behind h.end_le hstep]
    exact ih (h.step (hfits a (by simp))) (fun a ha => hfits a (by simp [ha])) hb

theorem leftover_append (s : PageStore) (left : Bytes) (as : List PageStore.Action) (a : PageStore.Action) :
    s.leftover left (as ++ [a]) = if (s.run as).replacesLog a then []
      else ((s.run as).attempt a).elim (s.leftover left as) (PageStore.leaves (s.leftover left as)) := by
  induction as generalizing s left with
  | nil => rfl
  | cons b as ih => exact ih _ _

theorem opened_behind {disk : Disk} {u : List RecoveredTxn} (h : PageStore.open disk .done = .ok (s, .ok u))
    : s.behind = [] := by
  cases hr : replay disk.log with
  | error e => rw [PageStore.open, hr] at h; cases h
  | ok found =>
    rw [PageStore.open, hr] at h
    cases h
    exact List.drop_length

theorem not_beginsRecord_nil : ¬ BeginsRecord [] := (readRecord_eq_none (o := 0)).mp rfl

/-- Behind a durable point that returned `Ok`. -/
theorem point_leaves {writeFails : Option Nat} {syncFails : Bool} {fin : CheckpointEnd}
    (hok : (s.durablePoint writeFails syncFails fin).2 = .ok ()) : s.StartsFresh fin ∨ s.NothingBehind ↔
      ¬ BeginsRecord (if s.replacesLog (.durablePoint writeFails syncFails fin) then []
        else (s.attempt (.durablePoint writeFails syncFails fin)).elim s.behind (PageStore.leaves s.behind)) := by
  have hb : s.wal.broken = false := by
    cases hb : s.wal.broken with
    | false => rfl
    | true =>
      rw [PageStore.durablePoint, if_pos hb] at hok
      cases hok
  have hwrites : ¬ s.wal.broken = true := by simp [hb]
  cases hd : s.wal.dirty with
  | false =>
    have hfresh : ¬ s.StartsFresh fin := by simp [PageStore.StartsFresh, hd]
    rw [replacesLog_clean hd]
    simp [hfresh, PageStore.NothingBehind, PageStore.pointEnd, PageStore.attempt, PageStore.behind, hb, hd,
      readRecord_eq_none]
  | true =>
    have hwrite : ¬ (!s.wal.dirty) = true := by simp [hd]
    rw [PageStore.durablePoint, if_neg hwrites, if_neg hwrite] at hok
    cases writeFails with
    | some k => cases hok
    | none =>
      cases syncFails with
      | true => cases hok
      | false =>
        have hbehind : PageStore.leaves s.behind (s.wal.buffered ++ LogRecord.durable.encode, none) =
            s.log.bytes.drop s.pointEnd := by
          rw [PageStore.pointEnd, if_pos hd]
          exact List.drop_drop
        rw [attempt_dirty hb hd, Option.elim_some, hbehind]
        by_cases hfresh : s.StartsFresh fin
        · rw [if_pos ((replacesLog_iff hb hd).mpr hfresh)]
          exact iff_of_true (.inl hfresh) not_beginsRecord_nil
        · rw [if_neg (mt (replacesLog_iff hb hd).mp hfresh), ← readRecord_eq_none, or_iff_right hfresh]
          rfl

/-! ## The theorem -/

/-- After any calls, with any failures, that end in a durable point that returned `Ok`: whatever a
crash finds, opening reads the records of the log and no others, just when what the failed writes
left behind its end does not begin with an encoded record. -/
theorem PageStore.leftovers_unread_iff {disk₀ : Disk} {s : PageStore} {u₀ : List RecoveredTxn}
    (hopen : PageStore.open disk₀ .done = .ok (s, .ok u₀)) {actions : List PageStore.Action}
    (hfits : ∀ a ∈ actions, a.Fits) {writeFails : Option Nat} {syncFails : Bool} {fin : CheckpointEnd}
    (hok : ((s.run actions).durablePoint writeFails syncFails fin).2 = .ok ()) :
    (∀ l, ((s.run actions).durablePoint writeFails syncFails fin).1.Finds l → l.ReadsOnly) ↔
      ¬ BeginsRecord (s.leftover [] (actions ++ [.durablePoint writeFails syncFails fin])) := by
  obtain ⟨hinv, -⟩ := open_inv hopen
  obtain ⟨base, carried, since, written, pending, n, h⟩ := hinv.run hfits
  have hb : (s.run actions).wal.broken = false := by
    cases hb : (s.run actions).wal.broken with
    | false => rfl
    | true =>
      rw [PageStore.durablePoint, if_pos hb] at hok
      cases hok
  have hleft : (s.run actions).behind = s.leftover [] actions := by
    rw [hinv.run_behind hfits hb, opened_behind hopen]
  rw [h.durablePoint_readsOnly hok, leftover_append, ← hleft]
  exact point_leaves hok

/-- A log that an open of the empty disk has just made. -/
structure PageStore.Blank (s : PageStore) : Prop where
  sound : s.wal.broken = false
  buffered : s.wal.buffered = []
  limit : s.wal.checkpointBytes = checkpointLogBytes
  history : s.history = [.durable]
  bytes : s.log.bytes = logHeader ++ LogRecord.durable.encode
  ends : s.wal.endOffset = s.log.bytes.length

theorem opened_empty : ∃ s u₀, PageStore.open emptyDisk .done = .ok (s, .ok u₀) ∧ s.Blank := by
  obtain ⟨s, u₀, hopen, -⟩ := open_done (show replay emptyDisk.log = .ok ([], ∅) from rfl)
  refine ⟨s, u₀, hopen, ?_⟩
  cases hopen
  exact ⟨rfl, rfl, rfl, rfl, rfl, rfl⟩

theorem PageStore.Blank.length (h : s.Blank) : s.log.bytes.length = 21 := by
  rw [h.bytes, List.length_append, LogRecord.encode, encodeRecord_length]
  rfl

/-- The files as the calls have left them. -/
def PageStore.disk (s : PageStore) : Disk := ⟨some s.log.bytes, s.data, s.log.synced⟩

theorem firstBatch_length : (encodeTxnRecord (.writes 1) ++ LogRecord.durable.encode).length = 26 := by
  simp [encodeTxnRecord, LogRecord.encode, encodeRecord_length, recordHeaderLen]

theorem zeros_unread {bytes : Bytes} (h : bytes.take recordHeaderLen = 0 :: List.replicate 8 0) (o : Nat) :
    readRecord o bytes = none := by
  have hkind : ∀ payload, decodePayload 0 payload o = none := by
    intro payload
    simp [decodePayload, kindPage, kindDurable, kindWrites, kindEnd, kindUndo]
  unfold readRecord
  rw [h]
  simp only [hkind, Option.map_none]
  split
  · rfl
  · split
    · rfl
    · exact ite_self _

def zeroPage : PageData := ⟨List.replicate pageSize 0, List.length_replicate⟩

/-- The write of the page fails once all its bytes are in the file, and the page's last bytes stay
behind the durable point that follows. -/
theorem PageStore.leftovers_unread_iff_zeros : ∃ s u₀, PageStore.open emptyDisk .done = .ok (s, .ok u₀) ∧
    s.leftover [] ([.logPage 0 zeroPage (some 8209), .logTxn (.writes 1)] ++ [.durablePoint none false .rename]) =
      List.replicate 8183 0 ∧
    ∀ l,
      ((s.run [.logPage 0 zeroPage (some 8209), .logTxn (.writes 1)]).durablePoint none false .rename).1.Finds l →
      l.ReadsOnly := by
  obtain ⟨s, u₀, hopen, h⟩ := opened_empty
  have hpage : (LogRecord.page 0 zeroPage).encode.length = 8209 := by
    rw [LogRecord.encode, encodeRecord_length, List.length_append, leBytes_length, zeroPage.2]
    rfl
  have hbehind : (LogRecord.page 0 zeroPage).encode.drop 26 = List.replicate 8183 0 := by
    have hpayload := drop_encodeRecord kindPage (leBytes pageIdLen 0 ++ zeroPage.1) []
    rw [List.append_nil, List.append_nil] at hpayload
    have hid : leBytes pageIdLen 0 = List.replicate 8 0 := rfl
    show (encodeRecord kindPage _).drop (recordHeaderLen + 17) = _
    rw [← List.drop_drop, hpayload, hid, zeroPage, List.replicate_append_replicate, List.drop_replicate]
    rfl
  have hleft :
      s.leftover [] ([.logPage 0 zeroPage (some 8209), .logTxn (.writes 1)] ++ [.durablePoint none false .rename]) =
      List.replicate 8183 0 := by
    rw [← hbehind, ← firstBatch_length]
    simp [PageStore.leftover, PageStore.step, PageStore.logPage, PageStore.logTxn, PageStore.writeOutWith,
      PageStore.attempt, PageStore.replacesLog, PageStore.leaves, h.sound, h.buffered,
      List.take_of_length_le (Nat.le_of_eq hpage)]
  refine ⟨s, u₀, hopen, hleft, (PageStore.leftovers_unread_iff hopen ?_ ?_).mpr ?_⟩
  · simp [PageStore.Action.Fits, TxnRecord.Fits]
  · simp only [PageStore.run, PageStore.step, PageStore.logPage, PageStore.logTxn, PageStore.durablePoint,
      PageStore.writeOutWith, List.foldl_cons, List.foldl_nil, h.sound, Bool.not_true, Bool.false_eq_true, if_false]
    split <;> rfl
  · rw [hleft, ← readRecord_eq_none (o := 0)]
    exact zeros_unread (by rw [List.take_replicate]; rfl) _

/-! ## Bytes of a page that are read as records -/

def forgedPadding : Bytes := List.replicate (pageSize - 35) 0

/-- Behind its first nine bytes the page holds the bytes of an end record and of a durable point. -/
def forgedPage : PageData :=
  ⟨List.replicate 9 0 ++ walFraming.encAll [.txn (.ended 1), .durable] ++ forgedPadding, by
    have hrecords : (walFraming.encAll [.txn (.ended 1), .durable]).length = 26 := by
      simp [Lib.Framing.encAll, walFraming, LogRecord.encode, encodeTxnRecord, encodeRecord_length, recordHeaderLen]
    rw [List.length_append, List.length_append, hrecords, List.length_replicate, forgedPadding,
      List.length_replicate]
    rfl⟩

/-- The write of the page fails once all its bytes are in the file. -/
def forgedRun : List PageStore.Action :=
  [.logPage 0 forgedPage (some (recordHeaderLen + (pageIdLen + pageSize))), .logTxn (.writes 1)]

theorem overwrite_end (file new : Bytes) : overwrite file file.length new = file ++ new := by
  rw [overwrite, List.take_length, List.drop_eq_nil_of_le (Nat.le_add_right _ _), List.append_nil]

theorem overwrite_twice (file a b : Bytes) :
    overwrite (overwrite file file.length a) file.length b = file ++ b ++ a.drop b.length := by
  rw [overwrite_end, overwrite, List.take_left, List.drop_length_add_append]

theorem forgedPage_behind : (LogRecord.page 0 forgedPage).encode.drop 26 =
    walFraming.encAll [.txn (.ended 1), .durable] ++ forgedPadding := by
  have hpage : (LogRecord.page 0 forgedPage).encode.drop recordHeaderLen = leBytes pageIdLen 0 ++ forgedPage.1 := by
    have := drop_encodeRecord kindPage (leBytes pageIdLen 0 ++ forgedPage.1) []
    rw [List.append_nil, List.append_nil] at this
    exact this
  have hcut : (26 : Nat) = recordHeaderLen + (pageIdLen + 9) := rfl
  have hfront : (leBytes pageIdLen 0 ++ List.replicate 9 (0 : UInt8)).length = pageIdLen + 9 := by
    rw [List.length_append, leBytes_length, List.length_replicate]
  have hbytes : forgedPage.1 = List.replicate 9 0 ++
      (walFraming.encAll [.txn (.ended 1), .durable] ++ forgedPadding) :=
    List.append_assoc _ _ _
  rw [hcut, ← List.drop_drop, hpage, hbytes, ← List.append_assoc, List.drop_left' hfront]

def forgedRecords : List LogRecord := [.durable, .txn (.writes 1), .durable, .txn (.ended 1), .durable]

def forgedLog : Bytes := logHeader ++ walFraming.encAll forgedRecords ++ forgedPadding

theorem forgedRun_log (h : s.Blank) :
    let t := (s.run forgedRun).durablePoint none false .done
    t.2 = .ok () ∧ t.1.log.bytes = forgedLog ∧ t.1.history = s.history ++ [.txn (.writes 1), .durable] := by
  have hpage : (LogRecord.page 0 forgedPage).encode.length = recordHeaderLen + (pageIdLen + pageSize) := by
    rw [LogRecord.encode, encodeRecord_length, List.length_append, leBytes_length, forgedPage.2]
  have hfull : (LogRecord.page 0 forgedPage).encode.take (recordHeaderLen + (pageIdLen + pageSize)) =
      (LogRecord.page 0 forgedPage).encode := List.take_of_length_le (Nat.le_of_eq hpage)
  have hshort : ¬ s.wal.endOffset + 26 > s.wal.checkpointBytes := by
    rw [h.ends, h.length, h.limit]
    decide
  have hrecords : walFraming.encAll forgedRecords = LogRecord.durable.encode ++
      (encodeTxnRecord (.writes 1) ++ LogRecord.durable.encode) ++
        walFraming.encAll [.txn (.ended 1), .durable] := by
    simp [forgedRecords, Lib.Framing.encAll, walFraming, LogRecord.encode]
  have hover : overwrite (overwrite s.log.bytes s.wal.endOffset (LogRecord.page 0 forgedPage).encode)
      s.wal.endOffset (encodeTxnRecord (.writes 1) ++ LogRecord.durable.encode) = forgedLog := by
    rw [h.ends, overwrite_twice, firstBatch_length, forgedPage_behind, h.bytes, forgedLog, hrecords]
    simp only [List.append_assoc]
  simp only [forgedRun, PageStore.run, PageStore.step, PageStore.logPage, PageStore.logTxn, PageStore.durablePoint,
    PageStore.writeOutWith, List.foldl_cons, List.foldl_nil, h.sound, h.buffered, List.nil_append, hfull,
    firstBatch_length, hshort, hover, Bool.not_true, Bool.false_eq_true, if_false]
  exact ⟨trivial, trivial, by rw [List.append_assoc]; rfl⟩

theorem replay_decodedLog (rest : Bytes) : replay (some (logHeader ++ rest)) =
    .ok (((decodedLog (logHeader ++ rest)).foldl Replay.step ⟨[], ∅, [], []⟩).durable,
      ((decodedLog (logHeader ++ rest)).foldl Replay.step ⟨[], ∅, [], []⟩).durablePages) := by
  apply replay_logHeader
  rw [decodedLog, List.length_append, logHeader_length, ← logHeader_length, List.drop_left]

/-- Records with nothing readable behind them are what replay finds. -/
theorem replay_unread (rs : List LogRecord) (rest : Bytes) (hfits : ∀ r ∈ rs, r.Fits)
    (hrest : readRecord (logHeaderLen + (walFraming.encAll rs).length) rest = none) :
    decodedLog (logHeader ++ walFraming.encAll rs ++ rest) = walFraming.views logHeaderLen rs ∧
    ∃ pages, replay (some (logHeader ++ walFraming.encAll rs ++ rest)) = .ok (txnsOf (durablePart rs), pages) ∧
      ∀ pid : Nat, (pages[pid]?).map (imageAt (logHeader ++ walFraming.encAll rs ++ rest)) =
        newestImage pid (durablePart rs) := by
  have hread := (decodedLog_eq_views hfits rest).mpr hrest
  have hfound := foldl_replay logHeaderLen rs
  have hreplay := replay_decodedLog (walFraming.encAll rs ++ rest)
  rw [← List.append_assoc, hread, hfound.durable] at hreplay
  refine ⟨hread, _, hreplay, fun pid => ?_⟩
  rw [hfound.pages, imageAt_newestOffset]
  obtain ⟨since, hsince⟩ := durablePart_prefix rs
  have hall := Lib.Framing.encAll_append (F := walFraming) (durablePart rs) since
  rw [hsince] at hall
  rw [List.append_assoc, ← logHeader_length, List.drop_left, hall, List.append_assoc]
  exact List.prefix_append _ _

theorem replay_forgedLog : .txn (.ended 1) ∈ decodedLog forgedLog ∧
    ∃ pages, replay (some forgedLog) = .ok ([.writes 1, .ended 1], pages) := by
  have hfits : ∀ r ∈ forgedRecords, r.Fits := by simp [forgedRecords, LogRecord.Fits, TxnRecord.Fits]
  obtain ⟨hread, pages, hreplay, -⟩ :=
    replay_unread forgedRecords forgedPadding hfits
      (zeros_unread (by rw [forgedPadding, List.take_replicate]; rfl) _)
  refine ⟨?_, pages, hreplay⟩
  rw [forgedLog, hread]
  simp [forgedRecords, Lib.Framing.views, walFraming, LogRecord.decoded]

/-- The end record in the page is read back as a record of the log: the transaction that wrote
before the durable point and never ended is not rolled back. -/
theorem PageStore.forged_end_replayed : ∃ s u₀ t, PageStore.open emptyDisk .done = .ok (s, .ok u₀) ∧
    ((s.run forgedRun).durablePoint none false .done).2 = .ok () ∧
    ((s.run forgedRun).durablePoint none false .done).1.history = [.durable, .txn (.writes 1), .durable] ∧
    .txn (.ended 1) ∈ decodedLog ((s.run forgedRun).durablePoint none false .done).1.log.bytes ∧
    PageStore.open ((s.run forgedRun).durablePoint none false .done).1.disk .done = .ok (t, .ok []) := by
  obtain ⟨s, u₀, hopen, h⟩ := opened_empty
  obtain ⟨hok, hlog, hall⟩ := forgedRun_log h
  obtain ⟨hmem, pages, hreplay⟩ := replay_forgedLog
  have hagain : ∀ data synced, ∃ t, PageStore.open ⟨some forgedLog, data, synced⟩ .done = .ok (t, .ok []) := by
    intro data synced
    rw [PageStore.open, hreplay]
    exact ⟨_, rfl⟩
  obtain ⟨t, ht⟩ := hagain ((s.run forgedRun).durablePoint none false .done).1.data
    ((s.run forgedRun).durablePoint none false .done).1.log.synced
  refine ⟨s, u₀, t, hopen, hok, ?_, ?_, ?_⟩
  · rw [hall, h.history]
    rfl
  · rw [hlog]
    exact hmem
  · rw [PageStore.disk, hlog]
    exact ht

end Cmudb
