import Cmudb.WalInv

/-!
# Log replay

After any calls and any crash, opening the log recovers the history up to its
last durable point that is whole: the newest image of every page logged before
it, and the transactions that had not ended, each with the first version it
replaced in every slot. A durable point that returned `Ok` is never lost.
-/

namespace Cmudb

variable {s : PageStore}

/-- Opening after a crash recovers the history up to a point that covers what was promised. -/
theorem StoreInv.crash {data₀ : Nat → Bytes} {base since written : List LogRecord}
    {carried pending : List TxnRecord} {n : Nat} (h : StoreInv data₀ s base carried since written pending n)
    {l : LogFile} {bytes : Bytes} {disk : Disk} (hc : s.Crash l bytes disk) :
    ∃ m k later t u, l.Whole bytes m ∧ s.history.drop k = l.records.drop m ++ later ∧ (l = s.log → later = []) ∧
      s.promised ≤ k ∧ k ≤ s.history.length ∧ PageStore.open disk .done = .ok (t, .ok u) ∧ t.Inv t.data ∧
      (∀ pid, t.data pid = (newestImage pid (durablePart (s.history.take k))).getD (data₀ pid)) ∧
      ∀ x, x ∈ u ↔ recovered (txnsOf (durablePart (s.history.take k))) x.id = some x := by
  -- the file found, the history it stands for, and that its safe part covers what was promised
  obtain ⟨base', carried', since', n', later, hfile, hh, hlater, hpromised, hdata⟩ :
      ∃ base' carried' since' n' later,
      FileInv data₀ s.data base' carried' since' l n' ∧ s.history = base' ++ since' ++ later ∧
      (l = s.log → later = []) ∧
      s.promised ≤ base'.length + (n' - (carried'.length + 1)) ∧
      ∀ pid, newestImage pid (l.records.take n') = none → disk.data pid = s.data pid := by
    by_cases hl : l = s.log
    · subst hl
      refine ⟨base, carried, since, n, [], h.file, by rw [h.history, List.append_nil], fun _ => rfl, h.promised, ?_⟩
      intro pid hn
      refine hc.data pid ?_
      cases hu : s.unsynced pid with
      | false => rfl
      | true => exact absurd hn (h.unsynced pid hu)
    · rcases hc.found with hl' | hold
      · exact absurd hl' hl
      obtain ⟨-, hn, hsync, base', carried', since', hfile, hbase⟩ := h.replaced l hold
      refine ⟨base', carried', since', l.records.length, since, hfile, by rw [h.history, hbase],
        fun hl' => absurd hl' hl, ?_, fun pid _ => hc.data pid (hsync pid)⟩
      have hlen : l.records.length = carried'.length + 1 + since'.length := by
        rw [hfile.records]
        simp only [List.length_append, List.length_map, List.length_singleton]
      have hb : base.length = base'.length + since'.length := by rw [← hbase, List.length_append]
      have := h.promised
      omega
  obtain ⟨m, pages, hnm, hwhole, hreplay, hpages⟩ := hfile.replay hc.survives
  rw [← hc.log] at hreplay
  obtain ⟨t, u, hopen, hinv, hd, hu⟩ := open_done hreplay
  have hm := Nat.le_trans hfile.started hnm
  have hlen : l.records.length = carried'.length + 1 + since'.length := by
    rw [hfile.records]
    simp only [List.length_append, List.length_map, List.length_singleton]
  have hml := hwhole.1
  have htake : s.history.take (base'.length + (m - (carried'.length + 1))) =
      (base' ++ since').take (base'.length + (m - (carried'.length + 1))) := by
    rw [hh, List.take_append_of_le_length]
    rw [List.length_append]
    omega
  refine ⟨m, base'.length + (m - (carried'.length + 1)), later, t, u, hwhole, ?_, hlater, by omega, ?_,
    hopen, hinv, ?_, ?_⟩
  · have hlogged : l.records.drop m = since'.drop (m - (carried'.length + 1)) := by
      rw [hfile.records, List.drop_append, List.drop_eq_nil_of_le (by simpa using hm)]
      simp
    rw [hh, List.append_assoc, List.drop_length_add_append, List.drop_append_of_le_length (by omega), hlogged]
  · rw [hh, List.length_append, List.length_append]
    omega
  · intro pid
    rw [hd, hc.log, Option.getD_some, hpages, htake]
    exact hfile.image_eq hdata hnm pid
  · intro x
    rw [hu, htake, hfile.recovered_eq hm]

/-! ## What was promised -/

def PageStore.Kept (s : PageStore) : Prop :=
  s.promised ≤ s.history.length ∧ (s.wal.dirty = false → s.promised = s.history.length)

theorem checkpoint_promised (s : PageStore) (fin : CheckpointEnd) :
    (s.checkpoint fin).1.promised = s.promised ∧ (s.checkpoint fin).1.history = s.history := by
  cases fin <;> exact ⟨rfl, rfl⟩

theorem durablePoint_promised (h : s.Kept) (writeFails : Option Nat) (syncFails : Bool) (fin : CheckpointEnd) :
    (s.durablePoint writeFails syncFails fin).1.Kept ∧
    s.promised ≤ (s.durablePoint writeFails syncFails fin).1.promised ∧
      ((s.durablePoint writeFails syncFails fin).2 = .ok () →
        (s.durablePoint writeFails syncFails fin).1.promised =
          (s.durablePoint writeFails syncFails fin).1.history.length) := by
  have hle : s.promised ≤ (s.history ++ [LogRecord.durable]).length := by
    rw [List.length_append]
    exact Nat.le_trans h.1 (Nat.le_add_right _ _)
  have hout := durablePoint_outcome s writeFails syncFails fin
  generalize s.durablePoint writeFails syncFails fin = result at hout ⊢
  cases hout with
  | refused hb => exact ⟨h, Nat.le_refl _, fun hok => by cases hok⟩
  | clean hb hd => exact ⟨h, Nat.le_refl _, fun _ => h.2 hd⟩
  | notWritten hb hd k => exact ⟨h, Nat.le_refl _, fun hok => by cases hok⟩
  | notSynced hb hd =>
    refine ⟨⟨hle, fun hd' => ?_⟩, Nat.le_refl _, fun hok => by cases hok⟩
    have : s.wal.dirty = false := hd'
    rw [hd] at this
    cases this
  | pointed hb hd hshort => exact ⟨⟨Nat.le_refl _, fun _ => rfl⟩, hle, fun _ => rfl⟩
  | checkpointed hb hd hlong =>
    obtain ⟨hp, hh⟩ := checkpoint_promised s.pointed fin
    dsimp only [PageStore.Kept]
    rw [hp, hh]
    exact ⟨⟨Nat.le_refl _, fun _ => rfl⟩, hle, fun _ => rfl⟩

theorem PageStore.Kept.step (h : s.Kept) (a : PageStore.Action) :
    (PageStore.step s a).Kept ∧ s.promised ≤ (PageStore.step s a).promised := by
  have hle : ∀ r, s.promised ≤ (s.history ++ [r]).length := by
    intro r
    rw [List.length_append]
    exact Nat.le_trans h.1 (Nat.le_add_right _ _)
  cases a with
  | logPage id page fails =>
    unfold PageStore.step PageStore.logPage
    cases s.wal.broken with
    | true => exact ⟨h, Nat.le_refl _⟩
    | false =>
      cases fails with
      | some k => exact ⟨h, Nat.le_refl _⟩
      | none => exact ⟨⟨hle _, fun hd => by cases hd⟩, Nat.le_refl _⟩
  | logTxn record => exact ⟨⟨hle _, fun hd => by cases hd⟩, Nat.le_refl _⟩
  | durablePoint writeFails syncFails fin =>
    have := durablePoint_promised h writeFails syncFails fin
    exact ⟨this.1, this.2.1⟩
  | setCheckpointBytes bytes => exact ⟨h, Nat.le_refl _⟩

theorem PageStore.Kept.run (h : s.Kept) (actions : List PageStore.Action) :
    (s.run actions).Kept ∧ s.promised ≤ (s.run actions).promised := by
  induction actions generalizing s with
  | nil => exact ⟨h, Nat.le_refl _⟩
  | cons a as ih =>
    have hstep := h.step a
    have hrun := ih hstep.1
    exact ⟨hrun.1, Nat.le_trans hstep.2 hrun.2⟩

/-- A durable point that returned `Ok` is part of what is promised from then on. -/
theorem PageStore.Kept.covers (h : s.Kept) {actions before after : List PageStore.Action}
    {writeFails : Option Nat} {syncFails : Bool} {fin : CheckpointEnd}
    (hsplit : actions = before ++ .durablePoint writeFails syncFails fin :: after)
    (hok : ((s.run before).durablePoint writeFails syncFails fin).2 = .ok ()) :
    ((s.run before).durablePoint writeFails syncFails fin).1.history.length ≤ (s.run actions).promised := by
  obtain ⟨hkept, -, hall⟩ := durablePoint_promised (h.run before).1 writeFails syncFails fin
  have hrun : s.run actions = (((s.run before).durablePoint writeFails syncFails fin).1).run after := by
    rw [hsplit, PageStore.run, List.foldl_append]
    rfl
  have hle := (hkept.run after).2
  rw [hall hok, ← hrun] at hle
  exact hle

theorem open_inv {disk : Disk} {u : List RecoveredTxn} (h : PageStore.open disk .done = .ok (s, .ok u)) :
    s.Inv s.data ∧ s.Kept := by
  cases hr : replay disk.log with
  | error e => rw [PageStore.open, hr] at h; cases h
  | ok found =>
    obtain ⟨ts, pages⟩ := found
    obtain ⟨s', u', hopen, hinv, -⟩ := open_done hr
    rw [hopen] at h
    cases h
    refine ⟨hinv, ?_⟩
    rw [PageStore.open, hr] at hopen
    cases hopen
    have hlen :
        (List.map LogRecord.txn ((ts.foldl trackOpenTxn ∅).toList.flatMap Prod.snd) ++ [LogRecord.durable]).length =
        ((ts.foldl trackOpenTxn ∅).toList.flatMap Prod.snd).length + 1 := by
      rw [List.length_append, List.length_map]; rfl
    exact ⟨Nat.le_of_eq hlen.symm, fun _ => hlen.symm⟩

/-! ## The theorem -/

/-- After any calls, with any failures, and any crash, the log is opened again. It recovers the
history up to the last durable point that is whole in what was found of the log, and that covers
every durable point that returned `Ok`. -/
theorem PageStore.log_replay {disk₀ : Disk} {s : PageStore} {u₀ : List RecoveredTxn}
    (hopen : PageStore.open disk₀ .done = .ok (s, .ok u₀)) {actions : List PageStore.Action}
    (hfits : ∀ a ∈ actions, a.Fits) {l : LogFile} {bytes : Bytes} {disk : Disk}
    (hc : (s.run actions).Crash l bytes disk) :
    ∃ m k later t u, l.Whole bytes m ∧
      (s.run actions).history.drop k = l.records.drop m ++ later ∧ (l = (s.run actions).log → later = []) ∧
      (∀ before after writeFails syncFails fin, actions =
        before ++ .durablePoint writeFails syncFails fin :: after →
        ((s.run before).durablePoint writeFails syncFails fin).2 = .ok () →
        ((s.run before).durablePoint writeFails syncFails fin).1.history.length ≤ k) ∧
      PageStore.open disk .done = .ok (t, .ok u) ∧
      (∀ pid, t.data pid = (newestImage pid (durablePart ((s.run actions).history.take k))).getD (s.data pid)) ∧
      ∀ x, x ∈ u ↔ recovered (txnsOf (durablePart ((s.run actions).history.take k))) x.id = some x := by
  obtain ⟨hinv, hkept⟩ := open_inv hopen
  obtain ⟨base, carried, since, written, pending, n, h⟩ := hinv.run hfits
  obtain ⟨m, k, later, t, u, hwhole, hdrop, hlater, hpromised, -, hopen', -, hdata, hu⟩ := h.crash hc
  refine ⟨m, k, later, t, u, hwhole, hdrop, hlater, ?_, hopen', hdata, hu⟩
  intro before after writeFails syncFails fin hsplit hok
  exact Nat.le_trans (hkept.covers hsplit hok) hpromised

/-! ## A transaction that logs again after its end -/

theorem survives_cut (l : LogFile) : l.Survives (l.bytes.take l.synced) := by
  refine ⟨List.prefix_refl _, fun k d n hk hdec => ?_⟩
  have hnil : ((l.bytes.take l.synced).drop logHeaderLen).drop k = [] := by
    rw [List.drop_drop, List.drop_eq_nil_iff, List.length_take]
    omega
  rw [hnil] at hdec
  cases hdec

theorem survives_synced {l : LogFile} (h : l.synced = l.bytes.length) : l.Survives l.bytes := by
  have hcut := survives_cut l
  rw [h, List.take_length] at hcut
  exact hcut

def emptyDisk : Disk := ⟨none, fun _ => [], 0⟩

def loggedAgain : List PageStore.Action :=
  [.setCheckpointBytes 0, .logTxn (.writes 1), .logTxn (.ended 1), .logTxn (.writes 1),
    .durablePoint none false .done]

theorem loggedAgain_fits : ∀ a ∈ loggedAgain, a.Fits := by
  simp [loggedAgain, PageStore.Action.Fits, TxnRecord.Fits]

theorem loggedAgain_run {s : PageStore} (hb : s.wal.broken = false) :
    (s.run loggedAgain).log.synced = (s.run loggedAgain).log.bytes.length ∧
      (s.run loggedAgain).history = s.history ++ [.txn (.writes 1), .txn (.ended 1), .txn (.writes 1), .durable] ∧
      (s.run loggedAgain).promised = (s.run loggedAgain).history.length := by
  have hpos : 0 < LogRecord.durable.encode.length := List.length_pos_iff.mpr (encode_ne_nil _)
  simp [loggedAgain, PageStore.run, PageStore.step, PageStore.durablePoint, PageStore.logTxn,
    PageStore.writeOutWith, PageStore.checkpoint, PageStore.freshLog, hb, hpos]

theorem PageStore.log_replay_logged_again : ∃ s u₀ l bytes disk m k later t u,
    PageStore.open emptyDisk .done = .ok (s, .ok u₀) ∧ (s.run loggedAgain).Crash l bytes disk ∧ l.Whole bytes m ∧
      (s.run loggedAgain).history.drop k = l.records.drop m ++ later ∧
      PageStore.open disk .done = .ok (t, .ok u) ∧
      ∀ x, x ∈ u ↔ recovered (txnsOf (durablePart ((s.run loggedAgain).history.take k))) x.id = some x := by
  obtain ⟨s, u₀, hopen, -⟩ := open_done (show replay emptyDisk.log = .ok ([], ∅) from rfl)
  have hb : s.wal.broken = false := by cases hopen; rfl
  obtain ⟨hsynced, -, -⟩ := loggedAgain_run hb
  have hc : (s.run loggedAgain).Crash (s.run loggedAgain).log (s.run loggedAgain).log.bytes
      ⟨some (s.run loggedAgain).log.bytes, (s.run loggedAgain).data, (s.run loggedAgain).log.synced⟩ :=
    ⟨.inl rfl, rfl, survives_synced hsynced, rfl, fun _ _ => rfl⟩
  obtain ⟨m, k, later, t, u, hwhole, hdrop, -, -, hopen', -, hu⟩ := PageStore.log_replay hopen loggedAgain_fits hc
  exact ⟨s, u₀, _, _, _, m, k, later, t, u, hopen, hc, hwhole, hdrop, hopen', hu⟩

/-- A transaction that has an end record before the durable point is reported as unfinished, when
it logged again after it. -/
theorem PageStore.ended_txn_unfinished : ∃ s u₀ disk t u,
    PageStore.open emptyDisk .done = .ok (s, .ok u₀) ∧ (s.run loggedAgain).Crash (s.run loggedAgain).log
      (s.run loggedAgain).log.bytes disk ∧
      durablePart (s.run loggedAgain).history = (s.run loggedAgain).history ∧
      .txn (.ended 1) ∈ (s.run loggedAgain).history ∧ PageStore.open disk .done = .ok (t, .ok u) ∧
      ∃ x ∈ u, x.id = 1 := by
  obtain ⟨s, u₀, hopen, hinv, -⟩ := open_done (show replay emptyDisk.log = .ok ([], ∅) from rfl)
  have hb : s.wal.broken = false := by cases hopen; rfl
  have hs : s.history = [.durable] := by cases hopen; rfl
  obtain ⟨hsynced, hhistory, hpromised⟩ := loggedAgain_run hb
  rw [hs] at hhistory
  have hc : (s.run loggedAgain).Crash (s.run loggedAgain).log (s.run loggedAgain).log.bytes
      ⟨some (s.run loggedAgain).log.bytes, (s.run loggedAgain).data, (s.run loggedAgain).log.synced⟩ :=
    ⟨.inl rfl, rfl, survives_synced hsynced, rfl, fun _ _ => rfl⟩
  obtain ⟨base, carried, since, written, pending, n, h⟩ := hinv.run loggedAgain_fits
  obtain ⟨m, k, later, t, u, -, -, -, hp, hk, hopen', -, -, hu⟩ := h.crash hc
  have hk' : (s.run loggedAgain).history.take k = (s.run loggedAgain).history :=
    List.take_of_length_le (hpromised ▸ hp)
  rw [hk', hhistory] at hu
  refine ⟨s, u₀, _, t, u, hopen, hc, by rw [hhistory]; rfl, by rw [hhistory]; simp, hopen',
    ⟨1, fun _ => none⟩, ?_, rfl⟩
  rw [hu]
  rfl

end Cmudb
