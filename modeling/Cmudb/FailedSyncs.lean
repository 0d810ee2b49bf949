import Mathlib.Logic.Relation
import Cmudb.Leftovers

/-!
# Failed fsyncs

An fsync that fails may have lost any of the bytes it covered, and a later one
may succeed without them. So the log takes no more writes once an fsync of it,
of the data file or of the directory has failed. The next open that succeeds
recovers every durable point that returned `Ok`.

An open copies pages out of a log that it has not synced. When it fails after
that, and the storage then loses the end of that log, the pages stay in the
data file while the records logged with them are gone.
-/

namespace Cmudb

def CheckpointEnd.syncFails : CheckpointEnd → Bool
  | .dataSync | .asideSync | .dirSync => true
  | _ => false

namespace PageStore

/-- An fsync fails in the call: of the log, or one of those of the checkpoint that follows. -/
def SyncFails (s : PageStore) : Action → Prop
  | .durablePoint writeFails syncFails fin => s.wal.broken = false ∧ s.wal.dirty = true ∧ writeFails = none ∧
    (syncFails = true ∨ s.wal.checkpointBytes < s.pointEnd ∧ fin.syncFails = true)
  | _ => False

def Refuses (s : PageStore) : Prop :=
  (∀ id page fails, (s.logPage id page fails).2 = .error .broken) ∧
    ∀ writeFails syncFails fin, (s.durablePoint writeFails syncFails fin).2 = .error .broken

end PageStore

/-- What a log of which `synced` bytes were covered by an fsync may have turned into: those bytes are
there, and what the reader accepts after them was there before. -/
def Lost (bytes : Bytes) (synced : Nat) (bytes' : Bytes) : Prop :=
  bytes.take synced <+: bytes' ∧ ∀ o d n, synced ≤ o → readRecord o (bytes'.drop o) = some (d, n) →
    readRecord o (bytes.drop o) = some (d, n) ∧ (bytes'.drop o).take n = (bytes.drop o).take n

namespace Disk

/-- The storage loses bytes of the log that were not synced. An open that fails before it has copied
a page leaves nothing else behind. -/
def Loses (disk disk' : Disk) : Prop :=
  disk'.data = disk.data ∧ disk'.synced = disk.synced ∧
    ∃ bytes, disk'.log = some bytes ∧ Lost (disk.log.getD []) disk.synced bytes

/-- An open fails once it has read the log. The storage is left with the log `l`: the one that was
read, or the one put in its place. What was not synced, of that log or of the data file, may be lost. -/
def FailsOpen (disk : Disk) (l : LogFile) (disk' : Disk) : Prop :=
  ∃ fin s e bytes, PageStore.open disk fin = .ok (s, .error e) ∧ s.Finds l ∧
    (∀ pid, s.unsynced pid = false → disk'.data pid = s.data pid) ∧
    disk'.log = some bytes ∧ Lost l.bytes l.synced bytes ∧ disk'.synced = l.synced

def FailsKeepingLog (disk disk' : Disk) : Prop := ∃ l, disk.FailsOpen l disk' ∧ disk'.log = some l.bytes

end Disk

/-! ## After a failed fsync -/

variable {s : PageStore}

theorem refuses_of_broken (h : s.wal.broken = true) : s.Refuses := by
  constructor
  · intro id page fails
    rw [PageStore.logPage, if_pos h]
  · intro writeFails syncFails fin
    rw [PageStore.durablePoint, if_pos h]

theorem checkpoint_breaks {fin : CheckpointEnd} (h : fin.syncFails = true) :
    (s.checkpoint fin).1.wal.broken = true := by
  cases fin with
  | dataSync => rfl
  | asideSync => rfl
  | dirSync => rfl
  | copying pages => cases h
  | aside => cases h
  | rename => cases h
  | done => cases h

theorem broken_of_syncFails {a : PageStore.Action} (h : s.SyncFails a) :
    (PageStore.step s a).wal.broken = true := by
  cases a with
  | logPage id page fails => cases h
  | logTxn record => cases h
  | setCheckpointBytes bytes => cases h
  | durablePoint writeFails syncFails fin =>
    obtain ⟨hb, hd, rfl, hfails⟩ := h
    cases syncFails with
    | true =>
      show (s.durablePoint none true fin).1.wal.broken = true
      rw [PageStore.durablePoint, if_neg (by simp [hb]), if_neg (by simp [hd])]
      rfl
    | false =>
      have hfails := hfails.resolve_left Bool.false_ne_true
      have hlong : s.pointed.wal.endOffset > s.pointed.wal.checkpointBytes := by
        have := hfails.1
        rw [PageStore.pointEnd, if_pos hd] at this
        exact this
      show (s.durablePoint none false fin).1.wal.broken = true
      rw [durablePoint_pointed hb hd, if_pos hlong]
      exact checkpoint_breaks hfails.2

/-! ## What a disk stands for -/

/-- An open of the disk that succeeds finds these pages and hands back these transactions. -/
def Disk.Recovers (disk : Disk) (pages : Nat → Bytes) (unfinished : Nat → Option RecoveredTxn) : Prop :=
  ∀ ts offsets, replay disk.log = .ok (ts, offsets) →
    (∀ pid, ((offsets[pid]?).map (imageAt (disk.log.getD []))).getD (disk.data pid) = pages pid) ∧
      ∀ id, recovered ts id = unfinished id

theorem replay_getD (log : Option Bytes) : replay (some (log.getD [])) = replay log := by
  cases log <;> rfl

theorem replay_freshLog {ts : List TxnRecord} (hopen : ∀ id : Nat, s.wal.openTxns[id]? = openOf ts id)
    (hfits : ∀ r ∈ ts, r.Fits) {ts' : List TxnRecord} {offsets : Std.TreeMap Nat Nat}
    (h : replay (some s.freshLog.bytes) = .ok (ts', offsets)) :
    (∀ id, recovered ts' id = recovered ts id) ∧ ∀ pid : Nat, offsets[pid]? = none := by
  have htxns : txnsOf (ts.map .txn ++ [.durable]) = ts := by
    rw [txnsOf_append, txnsOf_map]
    exact List.append_nil _
  have hbase : ∀ r ∈ ts.map LogRecord.txn ++ [.durable], r.Fits := by
    intro r hr
    rcases List.mem_append.mp hr with hr | hr
    · obtain ⟨t, ht, rfl⟩ := List.mem_map.mp hr
      exact hfits t ht
    · rw [List.mem_singleton.mp hr]
      exact True.intro
  have hnone : ∀ pid (us : List TxnRecord), newestImage pid (us.map .txn ++ [.durable]) = none := by
    intro pid us
    rw [newestImage_append, newestImage_map_txn]
    rfl
  have hfile : FileInv (fun _ => []) (fun _ => []) (ts.map .txn ++ [.durable]) s.carried [] s.freshLog
      (s.carried.length + 1) := by
    refine freshLog_inv (by rw [htxns]; exact hopen) hbase (closed_durable _) fun pid => ?_
    rw [hnone]
    rfl
  obtain ⟨m, pages, hm, hwhole, hreplay, hpages⟩ := hfile.replay (survives_synced rfl)
  have hall : durablePart (s.freshLog.records.take m) = s.carried.map .txn ++ [.durable] := by
    rw [List.take_of_length_le]
    · exact closed_durable _
    · show (s.carried.map LogRecord.txn ++ [LogRecord.durable]).length ≤ m
      rw [List.length_append, List.length_map]
      exact hm
  rw [h, hall] at hreplay
  cases hreplay
  constructor
  · intro id
    have hcarried : txnsOf (s.carried.map .txn ++ [.durable]) = s.carried := by
      rw [txnsOf_append, txnsOf_map]
      exact List.append_nil _
    rw [hcarried]
    exact recovered_congr (sinceEnd_carried hopen id)
  · intro pid
    have := hpages pid
    rw [hall, hnone] at this
    exact Option.map_eq_none_iff.mp this

/-- The log a crash finds in a checkpoint is the one it started with, or the fresh one once the data
file has every page. -/
theorem checkpoint_found {fin : CheckpointEnd} {l : LogFile} (hrep : s.replaced = none)
    (h : (s.checkpoint fin).1.Finds l) : l = s.log ∨
      l = s.freshLog ∧ ∀ pid, (s.checkpoint fin).1.unsynced pid = false ∧
      (s.checkpoint fin).1.data pid = s.readPage pid := by
  have hkept : (l = s.log ∨ s.replaced = some l) → l = s.log := by simp [hrep]
  cases fin with
  | copying pages => exact .inl (hkept h)
  | dataSync => exact .inl (hkept h)
  | aside => exact .inl (hkept h)
  | asideSync => exact .inl (hkept h)
  | rename => exact .inl (hkept h)
  | dirSync =>
    rcases h with h | h
    · exact .inr ⟨h, fun _ => ⟨rfl, rfl⟩⟩
    · exact .inl (Option.some.inj h).symm
  | done =>
    rcases h with h | h
    · exact .inr ⟨h, fun _ => ⟨rfl, rfl⟩⟩
    · cases h

theorem checkpoint_unlogged {pid : Nat} (h : s.wal.pages[pid]? = none) (hs : s.unsynced pid = false)
    (fin : CheckpointEnd) :
    (s.checkpoint fin).1.unsynced pid = false ∧ (s.checkpoint fin).1.data pid = s.data pid := by
  have hread : s.readPage pid = s.data pid := by rw [PageStore.readPage, h]
  have hwritten : (s.unsynced pid || (s.wal.pages[pid]?).isSome) = false := by rw [hs, h]; rfl
  cases fin with
  | copying pages =>
    refine ⟨hwritten, if_neg ?_⟩
    rw [h]
    exact Bool.false_ne_true
  | dataSync => exact ⟨hwritten, hread⟩
  | aside => exact ⟨rfl, hread⟩
  | asideSync => exact ⟨rfl, hread⟩
  | rename => exact ⟨rfl, hread⟩
  | dirSync => exact ⟨rfl, hread⟩
  | done => exact ⟨rfl, hread⟩

theorem open_checkpoint {disk : Disk} {fin : CheckpointEnd} {r : Except LogError (List RecoveredTxn)}
    {ts : List TxnRecord} {offsets : Std.TreeMap Nat Nat} (hr : replay disk.log = .ok (ts, offsets))
    (h : PageStore.open disk fin = .ok (s, r)) :
    ∃ s₀ : PageStore, s = (s₀.checkpoint fin).1 ∧ s₀.wal.pages = offsets ∧
      s₀.wal.openTxns = ts.foldl trackOpenTxn ∅ ∧ s₀.log.bytes = disk.log.getD [] ∧ s₀.replaced = none ∧
      s₀.data = disk.data ∧ ∀ pid, s₀.unsynced pid = false := by
  rw [PageStore.open, hr] at h
  refine ⟨{
      wal := ⟨0, [], offsets, false, ts.foldl trackOpenTxn ∅, checkpointLogBytes, false⟩
      log := ⟨disk.log.getD [], disk.synced, []⟩
      replaced := none
      data := disk.data
      unsynced := fun _ => false
      history := ((ts.foldl trackOpenTxn ∅).toList.flatMap Prod.snd).map .txn ++ [.durable]
      promised := ((ts.foldl trackOpenTxn ∅).toList.flatMap Prod.snd).length + 1 }, ?_, rfl, rfl, rfl, rfl,
      rfl, fun _ => rfl⟩
  cases fin <;> cases h <;> rfl

theorem Disk.Recovers.failsOpen {disk disk' : Disk} {pages : Nat → Bytes} {unfinished : Nat → Option RecoveredTxn}
    (h : disk.Recovers pages unfinished) (hfail : disk.FailsKeepingLog disk') :
    disk'.Recovers pages unfinished := by
  obtain ⟨l, ⟨fin, s, e, -, hopen, hfound, hdata, -⟩, hlog⟩ := hfail
  cases hr : replay disk.log with
  | error e => rw [PageStore.open, hr] at hopen; cases hopen
  | ok found =>
    obtain ⟨ts, offsets⟩ := found
    obtain ⟨hpages, hunfinished⟩ := h ts offsets hr
    obtain ⟨s₀, rfl, hoffsets, hopenTxns, hbytes, hrep, hdata₀, hsynced⟩ := open_checkpoint hr hopen
    rcases checkpoint_found hrep hfound with rfl | ⟨rfl, hcopied⟩
    · -- the log is the one that was read, and the data file differs only in pages that it holds
      intro ts' offsets' hr'
      rw [hlog, hbytes, replay_getD, hr] at hr'
      cases hr'
      refine ⟨fun pid => ?_, hunfinished⟩
      rw [← hpages pid, hlog, hbytes, Option.getD_some]
      cases ho : offsets[pid]? with
      | some offset => rfl
      | none =>
        obtain ⟨hs, hd⟩ := checkpoint_unlogged (by rw [hoffsets]; exact ho) (hsynced pid) fin
        exact (hdata pid hs).trans (hd.trans (congrFun hdata₀ pid))
    · -- the fresh log has no images, and every page is in the data file
      intro ts' offsets' hr'
      rw [hlog] at hr'
      obtain ⟨hrec, hnone⟩ := replay_freshLog (by rw [hopenTxns]; exact foldl_trackOpenTxn ts) (replay_fits hr) hr'
      refine ⟨fun pid => ?_, fun id => (hrec id).trans (hunfinished id)⟩
      rw [hnone pid, Option.map_none, Option.getD_none, hdata pid (hcopied pid).1, (hcopied pid).2, ← hpages pid,
        PageStore.readPage, hoffsets, hbytes, hdata₀]
      cases offsets[pid]? <;> rfl

theorem Disk.Recovers.failsOpens {disk disk' : Disk} {pages : Nat → Bytes} {unfinished : Nat → Option RecoveredTxn}
    (h : disk.Recovers pages unfinished) (hfail : Relation.ReflTransGen Disk.FailsKeepingLog disk disk') :
    disk'.Recovers pages unfinished := by
  induction hfail with
  | refl => exact h
  | tail _ hlast ih => exact ih.failsOpen hlast

theorem Disk.Recovers.opened {disk : Disk} {pages : Nat → Bytes} {unfinished : Nat → Option RecoveredTxn}
    (h : disk.Recovers pages unfinished) {t : PageStore} {u : List RecoveredTxn}
    (hopen : PageStore.open disk .done = .ok (t, .ok u)) :
    (∀ pid, t.data pid = pages pid) ∧ ∀ x, x ∈ u ↔ unfinished x.id = some x := by
  cases hr : replay disk.log with
  | error e => rw [PageStore.open, hr] at hopen; cases hopen
  | ok found =>
    obtain ⟨ts, offsets⟩ := found
    obtain ⟨hpages, hunfinished⟩ := h ts offsets hr
    obtain ⟨t', u', hopen', -, hd, hu⟩ := open_done hr
    rw [hopen] at hopen'
    cases hopen'
    refine ⟨fun pid => (hd pid).trans (hpages pid), fun x => ?_⟩
    rw [hu, hunfinished]

theorem recovers_of_opened {disk : Disk} {pages : Nat → Bytes} {hist : List TxnRecord} {t : PageStore}
    {u : List RecoveredTxn} (hopen : PageStore.open disk .done = .ok (t, .ok u))
    (hdata : ∀ pid, t.data pid = pages pid) (hu : ∀ x, x ∈ u ↔ recovered hist x.id = some x) :
    disk.Recovers pages (recovered hist) := by
  intro ts offsets hr
  obtain ⟨t', u', hopen', -, hd, hu'⟩ := open_done hr
  rw [hopen] at hopen'
  cases hopen'
  refine ⟨fun pid => (hd pid).symm.trans (hdata pid), fun id => ?_⟩
  have hsame : ∀ x, recovered ts x.id = some x ↔ recovered hist x.id = some x := fun x => (hu' x).symm.trans (hu x)
  cases hx : recovered ts id with
  | some x =>
    have hid := recovered_id hx
    subst hid
    exact ((hsame x).mp hx).symm
  | none =>
    cases hy : recovered hist id with
    | none => rfl
    | some y =>
      have hid := recovered_id hy
      subst hid
      rw [(hsame y).mpr hy] at hx
      cases hx

/-! ## Losses before a page is copied -/

theorem StoreInv.found_fits {data₀ : Nat → Bytes} {base since written : List LogRecord}
    {carried pending : List TxnRecord} {n : Nat} (h : StoreInv data₀ s base carried since written pending n)
    {l : LogFile} (hl : s.Finds l) : ∀ r ∈ l.records, r.Fits := by
  rcases hl with rfl | hold
  · exact h.file.fits
  · obtain ⟨-, -, -, _, _, _, hfile, -⟩ := h.replaced l hold
    exact hfile.fits

theorem LogFile.Survives.lost {l : LogFile} {bytes bytes' : Bytes} (hfits : ∀ r ∈ l.records, r.Fits)
    (h : l.Survives bytes) (hlost : Lost bytes l.synced bytes') : l.Survives bytes' := by
  obtain ⟨hsafe, honly⟩ := h
  obtain ⟨hkept, hread⟩ := hlost
  constructor
  · exact (List.prefix_take_iff.mpr ⟨hsafe, List.length_take_le _ _⟩).trans hkept
  · intro k d n hk hdec
    have hdec' : readRecord (logHeaderLen + k) (bytes'.drop (logHeaderLen + k)) = some (d, n) := by
      rw [← List.drop_drop]
      exact hdec
    obtain ⟨hbefore, hsame⟩ := hread _ d n (by omega) hdec'
    rw [← List.drop_drop] at hbefore
    obtain ⟨pre, r, hpre, hlen, henc⟩ := honly k d n hk hbefore
    refine ⟨pre, r, hpre, hlen, ?_⟩
    have hr : r.Fits := hfits r (hpre.subset (List.mem_append_right _ (List.mem_singleton_self r)))
    obtain ⟨rest, hrest⟩ := henc
    have hn : n = (walFraming.enc r).length := by
      have hreads := walFraming_sound.reads hr (logHeaderLen + k) rest
      rw [hrest] at hreads
      exact congrArg Prod.snd (Option.some.inj (hbefore.symm.trans hreads))
    rw [List.drop_drop] at hrest ⊢
    rw [hn, ← hrest, List.take_left] at hsame
    rw [← hsame]
    exact List.take_prefix _ _

theorem PageStore.Crash.loses {l : LogFile} {bytes : Bytes} {disk disk' : Disk}
    (hfits : ∀ r ∈ l.records, r.Fits) (hc : s.Crash l bytes disk)
    (h : Relation.ReflTransGen Disk.Loses disk disk') : ∃ bytes', s.Crash l bytes' disk' := by
  induction h with
  | refl => exact ⟨bytes, hc⟩
  | tail _ hlast ih =>
    obtain ⟨found, hc⟩ := ih
    obtain ⟨hdata, hsynced, bytes', hlog, hlost⟩ := hlast
    rw [hc.log, hc.synced] at hlost
    exact ⟨bytes', hc.found, hlog, hc.survives.lost hfits hlost, hsynced.trans hc.synced,
      fun id hid => by rw [hdata]; exact hc.data id hid⟩

/-! ## The theorem -/

/-- After any calls, with any failures: once an fsync has failed, the log takes neither a page nor a
durable point. The storage may then lose what was not synced, until an open copies a page out of the
log. If from there on the log loses nothing, then whatever opens fail before it, the open that succeeds
recovers the history up to a point that covers every durable point that returned `Ok`. -/
theorem PageStore.failed_syncs_keep_points {disk₀ : Disk} {s : PageStore} {u₀ : List RecoveredTxn}
    (hopen : PageStore.open disk₀ .done = .ok (s, .ok u₀)) {actions : List PageStore.Action}
    (hfits : ∀ a ∈ actions, a.Fits) :
    (∀ before a after, actions = before ++ a :: after → (s.run before).SyncFails a → (s.run actions).Refuses) ∧
      ∀ l bytes disk copied disk' t u, (s.run actions).Crash l bytes disk →
        Relation.ReflTransGen Disk.Loses disk copied → Relation.ReflTransGen Disk.FailsKeepingLog copied disk' →
        PageStore.open disk' .done = .ok (t, .ok u) →
        ∃ k, k ≤ (s.run actions).history.length ∧
          (∀ before after writeFails syncFails fin, actions =
            before ++ .durablePoint writeFails syncFails fin :: after →
            ((s.run before).durablePoint writeFails syncFails fin).2 = .ok () →
            ((s.run before).durablePoint writeFails syncFails fin).1.history.length ≤ k) ∧
          (∀ pid, t.data pid = (newestImage pid (durablePart ((s.run actions).history.take k))).getD (s.data pid)) ∧
          ∀ x, x ∈ u ↔ recovered (txnsOf (durablePart ((s.run actions).history.take k))) x.id = some x := by
  obtain ⟨hinv, hkept⟩ := open_inv hopen
  constructor
  · intro before a after hsplit hfail
    have hrun : s.run actions = (PageStore.step (s.run before) a).run after := by
      rw [hsplit, PageStore.run, List.foldl_append]
      rfl
    rw [hrun]
    exact refuses_of_broken (broken_run (broken_of_syncFails hfail) after)
  · intro l bytes disk copied disk' t u hc hloses hfails hopen'
    obtain ⟨base, carried, since, written, pending, n, h⟩ := hinv.run hfits
    obtain ⟨bytes', hc⟩ := hc.loses (h.found_fits hc.found) hloses
    obtain ⟨m, k, later, t₁, u₁, -, -, -, hpromised, hk, hopen₁, -, hdata, hu⟩ := h.crash hc
    have hrecovers := (recovers_of_opened hopen₁ hdata hu).failsOpens hfails
    obtain ⟨hdata', hu'⟩ := hrecovers.opened hopen'
    refine ⟨k, hk, ?_, hdata', hu'⟩
    intro before after writeFails syncFails fin hsplit hok
    exact Nat.le_trans (hkept.covers hsplit hok) hpromised

/-! ## A lost byte that forges records -/

/-- Tuple data that holds an end record and a durable point. With its last four bytes, the undo
record it is part of has the checksum that it has without the data. -/
def lostData : Bytes :=
  walFraming.encAll [.txn (.ended 1), .durable] ++ List.replicate 226 0 ++ [92, 45, 165, 114]

def lostRun : List PageStore.Action :=
  [.logTxn (.writes 1), .durablePoint none false .done, .logTxn (.undo 2 ⟨0, 0⟩ ⟨.commit 0, false⟩ lostData),
    .durablePoint none true .done]

/-- The fields of the undo record before its data. -/
def lostFields : Bytes := leBytes 8 2 ++ leBytes 4 0 ++ leBytes 4 0 ++ leBytes 8 (Stamp.commit 0).encode ++ [0]

theorem crcBytes_zeros : crcBytes 0xa8780c94 (List.replicate 226 0) = crcBytes 0xf69c36ec (List.replicate 2 0) := by
  -- in pieces that the kernel evaluates one by one
  have hsplit : List.replicate 226 (0 : UInt8) = List.replicate 32 0 ++
    (List.replicate 32 0 ++ (List.replicate 32 0 ++
      (List.replicate 32 0 ++
        (List.replicate 32 0 ++ (List.replicate 32 0 ++ (List.replicate 32 0 ++ List.replicate 2 0)))))) := by
    simp only [List.replicate_append_replicate, Nat.reduceAdd]
  have h1 : crcBytes 0xa8780c94 (List.replicate 32 0) = 0xee65ee4e := by decide +kernel
  have h2 : crcBytes 0xee65ee4e (List.replicate 32 0) = 0xde8152ea := by decide +kernel
  have h3 : crcBytes 0xde8152ea (List.replicate 32 0) = 0xad2198d2 := by decide +kernel
  have h4 : crcBytes 0xad2198d2 (List.replicate 32 0) = 0x41cc91b2 := by decide +kernel
  have h5 : crcBytes 0x41cc91b2 (List.replicate 32 0) = 0xfe4db22a := by decide +kernel
  have h6 : crcBytes 0xfe4db22a (List.replicate 32 0) = 0x127c95a8 := by decide +kernel
  have h7 : crcBytes 0x127c95a8 (List.replicate 32 0) = 0xf69c36ec := by decide +kernel
  rw [hsplit, crcBytes_append, h1, crcBytes_append, h2, crcBytes_append, h3, crcBytes_append, h4,
    crcBytes_append, h5, crcBytes_append, h6, crcBytes_append, h7]

theorem lostData_crc : crc32 [[kindUndo], leBytes 4 281, lostFields ++ lostData] =
    crc32 [[kindUndo], leBytes 4 25, lostFields] := by
  have hhead : crcBytes (crcBytes (crcBytes (~~~ 0) [kindUndo]) (leBytes 4 281)) lostFields = 0xd4b807a9 := by
    decide +kernel
  have hrecords : crcBytes 0xd4b807a9 (walFraming.encAll [.txn (.ended 1), .durable]) = 0xa8780c94 := by
    decide +kernel
  have htail : crcBytes (crcBytes 0xf69c36ec (List.replicate 2 0)) [92, 45, 165, 114] = 0xd50dfab4 := by
    decide +kernel
  have hshort : crcBytes (crcBytes (crcBytes (~~~ 0) [kindUndo]) (leBytes 4 25)) lostFields = 0xd50dfab4 := by
    decide +kernel
  simp only [crc32_eq, List.foldl_cons, List.foldl_nil, lostData]
  rw [crcBytes_append, crcBytes_append, crcBytes_append, hhead, hrecords, crcBytes_zeros, htail, hshort]

def lostUndo (data : Bytes) : LogRecord := .txn (.undo 2 ⟨0, 0⟩ ⟨.commit 0, false⟩ data)

theorem lostUndo_encode (data : Bytes) : (lostUndo data).encode = encodeRecord kindUndo (lostFields ++ data) := rfl

theorem lostData_length : (lostFields ++ lostData).length = 281 := by
  have hrecords : (walFraming.encAll [.txn (.ended 1), .durable]).length = 26 := by
    simp [Lib.Framing.encAll, walFraming, LogRecord.encode, encodeTxnRecord, encodeRecord_length, recordHeaderLen]
  rw [List.length_append, lostData, List.length_append, List.length_append, hrecords, List.length_replicate]
  rfl

/-- The second byte of the length is lost: the record ends where its data starts. -/
theorem lostUndo_set (front rest : Bytes) :
    (front ++ ((lostUndo lostData).encode ++ rest)).set (front.length + 2) 0 =
    front ++ ((lostUndo []).encode ++ (lostData ++ rest)) := by
  have hlong : (lostUndo lostData).encode = kindUndo :: 25 :: 1 :: ([0, 0] ++
      leBytes 4 (crc32 [[kindUndo], leBytes 4 281, lostFields ++ lostData]).toNat ++ (lostFields ++ lostData)) := by
    rw [lostUndo_encode, encodeRecord, lostData_length]
    rfl
  have hshort : (lostUndo []).encode = kindUndo :: 25 :: 0 :: ([0, 0] ++
      leBytes 4 (crc32 [[kindUndo], leBytes 4 25, lostFields]).toNat ++ lostFields) := by
    rw [lostUndo_encode, encodeRecord, List.append_nil]
    rfl
  rw [hlong, hshort, lostData_crc, List.set_append_right _ _ (Nat.le_add_right _ _), Nat.add_sub_cancel_left]
  simp

def firstPoint : List LogRecord := [.durable, .txn (.writes 1), .durable]

theorem firstPoint_length : (walFraming.encAll firstPoint).length = 35 := by
  simp [firstPoint, Lib.Framing.encAll, walFraming, LogRecord.encode, encodeTxnRecord, encodeRecord_length,
    recordHeaderLen]

theorem lostRun_point (h : s.Blank) :
    (s.run (lostRun.take 1)).durablePoint none false .done = ((s.logTxn (.writes 1)).pointed, .ok ()) ∧
    (s.logTxn (.writes 1)).pointed.log.synced = 47 ∧
    (s.logTxn (.writes 1)).pointed.wal.endOffset = (s.logTxn (.writes 1)).pointed.log.bytes.length ∧
    (s.logTxn (.writes 1)).pointed.log.bytes = logHeader ++ walFraming.encAll firstPoint := by
  have hpointEnd : (s.logTxn (.writes 1)).pointed.wal.endOffset = 47 := by
    show s.wal.endOffset + (s.wal.buffered ++ encodeTxnRecord (.writes 1) ++ _).length = _
    rw [h.buffered, List.nil_append, firstBatch_length, h.ends, h.length]
  have hpointBytes : (s.logTxn (.writes 1)).pointed.log.bytes =
      logHeader ++ walFraming.encAll firstPoint := by
    show overwrite s.log.bytes s.wal.endOffset (s.wal.buffered ++ encodeTxnRecord (.writes 1) ++ _) = _
    rw [h.buffered, List.nil_append, h.ends, overwrite_end, h.bytes]
    simp [firstPoint, Lib.Framing.encAll, walFraming, LogRecord.encode]
  refine ⟨?_, hpointEnd, ?_, hpointBytes⟩
  · show (s.logTxn (.writes 1)).durablePoint none false .done = _
    rw [durablePoint_pointed (s := s.logTxn (.writes 1)) h.sound rfl, if_neg]
    show ¬ _ > s.wal.checkpointBytes
    rw [hpointEnd, h.limit]
    decide
  · rw [hpointEnd, hpointBytes, List.length_append, logHeader_length, firstPoint_length]
    rfl

theorem durablePoint_unsynced (hb : s.wal.broken = false) (hd : s.wal.dirty = true)
    (hend : s.wal.endOffset = s.log.bytes.length) (fin : CheckpointEnd) :
    (s.durablePoint none true fin).1.log.synced = s.log.synced ∧
    (s.durablePoint none true fin).1.log.bytes = s.log.bytes ++ (s.wal.buffered ++ LogRecord.durable.encode) := by
  rw [PageStore.durablePoint, if_neg (by simp [hb]), if_neg (by simp [hd])]
  refine ⟨rfl, ?_⟩
  show overwrite s.log.bytes s.wal.endOffset (s.wal.buffered ++ LogRecord.durable.encode) = _
  rw [hend, overwrite_end]

theorem logPage_written (hb : s.wal.broken = false) (hend : s.wal.endOffset = s.log.bytes.length) (id : Nat)
    (page : PageData) :
    let s' := (s.logPage id page none).1
    s'.wal.broken = false ∧ s'.wal.buffered = [] ∧ s'.wal.dirty = true ∧ s'.log.synced = s.log.synced ∧
      s'.log.bytes = s.log.bytes ++ (s.wal.buffered ++ (LogRecord.page id page).encode) ∧
      s'.wal.endOffset = s'.log.bytes.length := by
  have hbytes : overwrite s.log.bytes s.wal.endOffset (s.wal.buffered ++ (LogRecord.page id page).encode) =
      s.log.bytes ++ (s.wal.buffered ++ (LogRecord.page id page).encode) := by rw [hend, overwrite_end]
  rw [PageStore.logPage, if_neg (by simp [hb])]
  refine ⟨hb, rfl, rfl, rfl, hbytes, ?_⟩
  show s.wal.endOffset + _ = (overwrite _ _ _).length
  rw [hbytes, hend]
  simp only [List.length_append]

theorem lostRun_log (h : s.Blank) :
    (s.run lostRun).log.synced = 47 ∧
    (s.run lostRun).log.bytes = logHeader ++ walFraming.encAll firstPoint ++
      ((lostUndo lostData).encode ++ LogRecord.durable.encode) := by
  obtain ⟨hpoint, hpointSynced, hpointEnd, hpointBytes⟩ := lostRun_point h
  obtain ⟨hsynced, hlog⟩ := durablePoint_unsynced
    (s := (s.logTxn (.writes 1)).pointed.logTxn (.undo 2 ⟨0, 0⟩ ⟨.commit 0, false⟩ lostData)) h.sound rfl
      hpointEnd .done
  have hrun : s.run lostRun =
      (((s.logTxn (.writes 1)).pointed.logTxn (.undo 2 ⟨0, 0⟩ ⟨.commit 0, false⟩ lostData)).durablePoint none true
        .done).1 := by
    show ((((s.run (lostRun.take 1)).durablePoint none false .done).1.logTxn _).durablePoint none true .done).1 = _
    rw [hpoint]
  rw [hrun]
  exact ⟨hsynced.trans hpointSynced, hlog.trans (congrArg (· ++ _) hpointBytes)⟩

def lostRecords : List LogRecord := [.durable, .txn (.writes 1), .durable, lostUndo [], .txn (.ended 1), .durable]

theorem replay_lost {bytes : Bytes}
    (hbytes : bytes = logHeader ++ walFraming.encAll firstPoint ++
      ((lostUndo lostData).encode ++ LogRecord.durable.encode)) :
    ∃ pages, replay (some (bytes.set 49 0)) = .ok (txnsOf lostRecords, pages) := by
  have hfront : (logHeader ++ walFraming.encAll firstPoint).length + 2 = 49 := by
    rw [List.length_append, logHeader_length, firstPoint_length]
    rfl
  have hrest : ∃ rest, bytes.set 49 0 = logHeader ++ walFraming.encAll lostRecords ++
      (List.replicate 226 0 ++ rest) := by
    refine ⟨[92, 45, 165, 114] ++ LogRecord.durable.encode, ?_⟩
    rw [hbytes, ← hfront, lostUndo_set, lostData, lostRecords, firstPoint]
    simp only [Lib.Framing.encAll, walFraming, List.flatMap_cons, List.flatMap_nil, List.append_assoc,
      List.append_nil]
  obtain ⟨rest, hrest⟩ := hrest
  have hfits : ∀ r ∈ lostRecords, r.Fits := by
    simp [lostRecords, lostUndo, LogRecord.Fits, TxnRecord.Fits, Stamp.inRange, Stamp.encode, txnStartId,
      maxPageId, pageSize]
  have hunread : ∀ o, readRecord o (List.replicate 226 0 ++ rest) = none := by
    apply zeros_unread
    rw [List.take_append_of_le_length (by rw [List.length_replicate]; decide), List.take_replicate]
    rfl
  obtain ⟨-, pages, hreplay, -⟩ := replay_unread lostRecords _ hfits (hunread _)
  rw [hrest]
  exact ⟨pages, hreplay⟩

/-! ## A page copied out of a log that is then lost -/

/-- A second transaction logs a page, and the fsync of its durable point fails. -/
def copiedRun (page : PageData) : List PageStore.Action :=
  lostRun.take 2 ++ [.logTxn (.writes 2), .logPage 5 page none, .durablePoint none true .done]

def copiedRecords (page : PageData) : List LogRecord :=
  firstPoint ++ [.txn (.writes 2), .page 5 page, .durable]

theorem copiedRun_log (h : s.Blank) (page : PageData) : (s.run (copiedRun page)).log.synced = 47 ∧
      (s.run (copiedRun page)).log.bytes = logHeader ++ walFraming.encAll (copiedRecords page) := by
  obtain ⟨hpoint, hpointSynced, hpointEnd, hpointBytes⟩ := lostRun_point h
  obtain ⟨hb', hbuffered', hd', hsynced', hbytes', hend'⟩ :=
    logPage_written (s := (s.logTxn (.writes 1)).pointed.logTxn (.writes 2)) h.sound hpointEnd 5 page
  obtain ⟨hsynced, hlog⟩ := durablePoint_unsynced hb' hd' hend' .done
  have hrun : s.run (copiedRun page) =
      ((((s.logTxn (.writes 1)).pointed.logTxn (.writes 2)).logPage 5 page none).1.durablePoint none true
        .done).1 := by
    show (((((s.run (lostRun.take 1)).durablePoint none false .done).1.logTxn (.writes 2)).logPage
      5 page none).1.durablePoint none true .done).1 = _
    rw [hpoint]
  rw [hrun]
  refine ⟨hsynced.trans (hsynced'.trans hpointSynced), ?_⟩
  rw [hlog, hbytes', hbuffered', copiedRecords, Lib.Framing.encAll_append]
  show (s.logTxn (.writes 1)).pointed.log.bytes ++ (([] ++ encodeTxnRecord (.writes 2)) ++ _) ++ ([] ++ _) = _
  rw [hpointBytes]
  simp [Lib.Framing.encAll, walFraming, LogRecord.encode]

theorem open_asideSync {disk : Disk} {ts : List TxnRecord} {offsets : Std.TreeMap Nat Nat}
    (hr : replay disk.log = .ok (ts, offsets)) : ∃ s, PageStore.open disk .asideSync = .ok (s, .error .io) ∧
      s.Finds ⟨disk.log.getD [], disk.synced, []⟩ ∧
      ∀ pid, s.data pid = ((offsets[pid]?).map (imageAt (disk.log.getD []))).getD (disk.data pid) := by
  refine ⟨_, by rw [PageStore.open, hr]; rfl, .inl rfl, fun pid => ?_⟩
  dsimp only [PageStore.breaks]
  cases offsets[pid]? <;> rfl

theorem lost_take (bytes : Bytes) (synced : Nat) : Lost bytes synced (bytes.take synced) := by
  refine ⟨List.prefix_refl _, fun o d n ho hread => ?_⟩
  rw [List.drop_eq_nil_of_le ((List.length_take_le _ _).trans ho)] at hread
  cases hread

theorem open_loses_records (h : s.Blank) (page : PageData) : ∃ l disk t u,
      (s.run (copiedRun page)).disk.FailsOpen l disk ∧
      PageStore.open disk .done = .ok (t, .ok u) ∧ t.data 5 = page.val ∧ ∀ x ∈ u, x.id ≠ 2 := by
  obtain ⟨hsynced, hlog⟩ := copiedRun_log h page
  have hfits : ∀ r ∈ copiedRecords page, r.Fits := by
    simp [copiedRecords, firstPoint, LogRecord.Fits, TxnRecord.Fits, maxPageId]
  -- the open reads all of the log and copies the page before it fails
  obtain ⟨-, pages, hreplay, hpages⟩ := replay_unread (copiedRecords page) [] hfits rfl
  rw [List.append_nil, ← hlog] at hreplay hpages
  obtain ⟨copied, hopen, hfound, hcopied⟩ :=
    open_asideSync (show replay (s.run (copiedRun page)).disk.log = _ from hreplay)
  have hpage : copied.data 5 = page.val := by
    rw [hcopied, PageStore.disk, Option.getD_some, hpages]
    rfl
  -- what is left of the log ends with the first durable point
  have hleft : (s.run (copiedRun page)).log.bytes.take 47 =
      logHeader ++ walFraming.encAll firstPoint ++ [] := by
    rw [hlog, copiedRecords, Lib.Framing.encAll_append, ← List.append_assoc, List.append_nil, List.take_left']
    rw [List.length_append, logHeader_length, firstPoint_length]
    rfl
  obtain ⟨-, pages', hreplay', hpages'⟩ := replay_unread firstPoint []
    (by simp [firstPoint, LogRecord.Fits, TxnRecord.Fits]) rfl
  rw [← hleft] at hreplay'
  obtain ⟨t, u, hagain, -, hdata, hu⟩ := open_done (show replay
    (Disk.log ⟨some ((s.run (copiedRun page)).log.bytes.take 47), copied.data, 47⟩) = _ from hreplay')
  refine ⟨_, _, t, u, ⟨.asideSync, copied, .io, _, hopen, hfound, fun _ _ => rfl, rfl, ?_, hsynced.symm⟩,
    hagain, ?_, ?_⟩
  · exact hsynced ▸ lost_take _ _
  · rw [hdata, Option.map_eq_none_iff.mp (hpages' 5)]
    exact hpage
  · intro x hx hid
    have := (hu x).mp hx
    rw [hid] at this
    cases this

/-- A durable point that returned `Ok` is not what is recovered. First, a later durable point's fsync
fails, an open copies the page logged for it into the data file and fails to sync the fresh log, and
then the storage loses what was never synced: the page stays, while the transaction that logged it is
not handed back. Second, one byte that a failed fsync covered is lost, what is left is read as an end
record, and the transaction of the durable point is not handed back. -/
theorem PageStore.synced_point_not_recovered : ∃ s u₀, PageStore.open emptyDisk .done = .ok (s, .ok u₀) ∧
    ((s.run (lostRun.take 1)).durablePoint none false .done).2 = .ok () ∧
    ((s.run (lostRun.take 1)).durablePoint none false .done).1.history = [.durable, .txn (.writes 1), .durable] ∧
    (∀ page, ∃ l disk t u,
      (s.run (copiedRun page)).disk.FailsOpen l disk ∧
      PageStore.open disk .done = .ok (t, .ok u) ∧ t.data 5 = page.val ∧ ∀ x ∈ u, x.id ≠ 2) ∧
    ∃ t u, (s.run lostRun).log.synced ≤ 49 ∧
      PageStore.open { (s.run lostRun).disk with log := some ((s.run lostRun).log.bytes.set 49 0) } .done =
        .ok (t, .ok u) ∧ ∀ x ∈ u, x.id ≠ 1 := by
  obtain ⟨s, u₀, hopen, h⟩ := opened_empty
  obtain ⟨hpoint, -, -, -⟩ := lostRun_point h
  obtain ⟨hsynced, hlog⟩ := lostRun_log h
  obtain ⟨pages, hreplay⟩ := replay_lost hlog
  obtain ⟨t, u, hagain, -, -, hu⟩ := open_done (show replay (Disk.log
    { (s.run lostRun).disk with log := some ((s.run lostRun).log.bytes.set 49 0) }) = _ from hreplay)
  refine ⟨s, u₀, hopen, by rw [hpoint], ?_, open_loses_records h, t, u,
    by rw [hsynced]; decide, hagain, ?_⟩
  · rw [hpoint]
    show s.history ++ [_] ++ [_] = _
    rw [h.history]
    rfl
  · intro x hx hid
    have := (hu x).mp hx
    rw [hid] at this
    cases this

/-- The fsync of the second durable point fails and everything it covered is lost; an open then fails
at the fsync of the fresh log, and the next one succeeds. -/
theorem PageStore.failed_syncs_keep_points_lost : ∃ s u₀ bytes disk disk' t u k,
    PageStore.open emptyDisk .done = .ok (s, .ok u₀) ∧ (s.run lostRun).Refuses ∧
    (s.run lostRun).Crash (s.run lostRun).log bytes disk ∧ disk.FailsKeepingLog disk' ∧
    PageStore.open disk' .done = .ok (t, .ok u) ∧ 3 ≤ k ∧
    ∀ x, x ∈ u ↔ recovered (txnsOf (durablePart ((s.run lostRun).history.take k))) x.id = some x := by
  obtain ⟨s, u₀, hopen, h⟩ := opened_empty
  obtain ⟨hpoint, -, -, -⟩ := lostRun_point h
  have hfits : ∀ a ∈ lostRun, a.Fits := by
    have hdata : lostData.length ≤ pageSize := by
      have hlen := lostData_length
      rw [List.length_append] at hlen
      simp only [pageSize]
      omega
    simp [lostRun, PageStore.Action.Fits, TxnRecord.Fits, Stamp.inRange, Stamp.encode, txnStartId, maxPageId, hdata]
  obtain ⟨hrefuses, hrecovers⟩ := PageStore.failed_syncs_keep_points hopen hfits
  have hc : (s.run lostRun).Crash (s.run lostRun).log ((s.run lostRun).log.bytes.take (s.run lostRun).log.synced)
      ⟨some ((s.run lostRun).log.bytes.take (s.run lostRun).log.synced), (s.run lostRun).data,
        (s.run lostRun).log.synced⟩ :=
    ⟨.inl rfl, rfl, survives_cut _, rfl, fun _ _ => rfl⟩
  obtain ⟨base, carried, since, written, pending, n, hinv⟩ := (open_inv hopen).1.run hfits
  obtain ⟨_, pages, -, -, hreplay, -⟩ := hinv.file.replay hc.survives
  rw [← hc.log] at hreplay
  obtain ⟨left, hfails, hfound, -⟩ := open_asideSync hreplay
  have hstep : Disk.FailsKeepingLog _ ⟨some ((s.run lostRun).log.bytes.take (s.run lostRun).log.synced), left.data,
      (s.run lostRun).log.synced⟩ :=
    ⟨_, ⟨.asideSync, left, .io, _, hfails, hfound, fun _ _ => rfl, rfl,
      ⟨List.take_prefix _ _, fun o d n _ hread => ⟨hread, rfl⟩⟩, rfl⟩, rfl⟩
  obtain ⟨t, u, hagain, -⟩ :=
    open_done (show replay (Disk.log ⟨some ((s.run lostRun).log.bytes.take (s.run lostRun).log.synced),
    left.data, (s.run lostRun).log.synced⟩) = _ from hreplay)
  obtain ⟨k, -, hcovers, -, hu⟩ := hrecovers _ _ _ _ _ t u hc .refl (.single hstep) hagain
  refine ⟨s, u₀, _, _, _, t, u, k, hopen, ?_, hc, hstep, hagain, ?_, hu⟩
  · refine hrefuses (lostRun.take 3) (.durablePoint none true .done) [] rfl ⟨?_, rfl, rfl, .inl rfl⟩
    show ((s.run (lostRun.take 1)).durablePoint none false .done).1.wal.broken = false
    rw [hpoint]
    exact h.sound
  · have := hcovers (lostRun.take 1) _ none false .done rfl (by rw [hpoint])
    rw [hpoint] at this
    have hlen : (s.logTxn (.writes 1)).pointed.history.length = 3 := by
      show (s.history ++ [_] ++ [_]).length = 3
      rw [h.history]
      rfl
    rw [hlen] at this
    exact this

end Cmudb
