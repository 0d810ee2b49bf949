import Cmudb.LogReplay

/-!
# Checkpoints do not show

What a caller of the log can tell is its history, whether something was logged
since the last durable point, and whether an fsync failed. These develop with
the calls alone, however the durable points between them checkpoint, and reads
and recovery depend on nothing else.
-/

namespace Cmudb

namespace PageStore

inductive Call where
  | logPage (id : Nat) (page : PageData) (fails : Option Nat)
  | logTxn (record : TxnRecord)
  | durablePoint (writeFails : Option Nat) (syncFails : Bool)

def Action.call? : Action → Option Call
  | .logPage id page fails => some (.logPage id page fails)
  | .logTxn record => some (.logTxn record)
  | .durablePoint writeFails syncFails _ => some (.durablePoint writeFails syncFails)
  | .setCheckpointBytes _ => none

def Action.checkpointSyncs : Action → Bool
  | .durablePoint _ _ .dataSync | .durablePoint _ _ .asideSync | .durablePoint _ _ .dirSync => false
  | _ => true

structure View where
  history : List LogRecord
  dirty : Bool
  promised : Nat

def view (s : PageStore) : View := ⟨s.history, s.wal.dirty, s.promised⟩

def View.call (v : View) (broken : Bool) : Call → View × Bool
  | .logPage id page fails =>
    if broken then (v, broken)
    else match fails with
      | some _ => (v, broken)
      | none => (⟨v.history ++ [.page id page], true, v.promised⟩, broken)
  | .logTxn record => (⟨v.history ++ [.txn record], true, v.promised⟩, broken)
  | .durablePoint writeFails syncFails =>
    if broken || !v.dirty then (v, broken)
    else match writeFails with
      | some _ => (v, broken)
      | none =>
        if syncFails then (⟨v.history ++ [.durable], true, v.promised⟩, true)
        else (⟨v.history ++ [.durable], false, v.history.length + 1⟩, broken)

theorem checkpoint_view (s : PageStore) (hd : s.wal.dirty = false) (fin : CheckpointEnd) :
    (s.checkpoint fin).1.view = s.view := by
  cases fin <;> simp [checkpoint, view, breaks, hd]

theorem checkpoint_broken (s : PageStore) {w : Option Nat} {y : Bool} {fin : CheckpointEnd}
    (h : (Action.durablePoint w y fin).checkpointSyncs = true) :
    (s.checkpoint fin).1.wal.broken = s.wal.broken := by
  cases fin <;> first | rfl | cases h

theorem step_view (s : PageStore) (a : Action) :
    (step s a).view = (match a.call? with | some c => (s.view.call s.wal.broken c).1 | none => s.view) ∧
      (a.checkpointSyncs = true →
        (step s a).wal.broken =
          (match a.call? with | some c => (s.view.call s.wal.broken c).2 | none => s.wal.broken)) := by
  cases a with
  | logPage id page fails =>
    simp only [step, logPage, Action.call?, View.call]
    cases hb : s.wal.broken with
    | true => simp [hb]
    | false => cases fails <;> simp [writeOutWith, view, hb]
  | logTxn record => exact ⟨rfl, fun _ => rfl⟩
  | setCheckpointBytes bytes => exact ⟨rfl, fun _ => rfl⟩
  | durablePoint writeFails syncFails fin =>
    simp only [step, durablePoint, Action.call?, View.call]
    cases hb : s.wal.broken with
    | true => simp [hb]
    | false =>
      cases hd : s.wal.dirty with
      | false => simp [view, hb, hd]
      | true =>
        cases writeFails with
        | some k => simp [writeOutWith, view, hb, hd]
        | none =>
          cases syncFails with
          | true => simp [writeOutWith, view, breaks, hd]
          | false =>
            simp only [writeOutWith, view, Bool.false_eq_true, if_false, Bool.not_true, Bool.or_self, hd]
            split
            · refine ⟨(checkpoint_view _ rfl fin).trans (by simp [view]), fun hs => ?_⟩
              exact (checkpoint_broken _ hs).trans hb
            · exact ⟨by simp, fun _ => hb⟩

theorem run_view {s : PageStore} {actions : List Action} (h : ∀ a ∈ actions, a.checkpointSyncs = true) :
    ((s.run actions).view, (s.run actions).wal.broken) =
      (actions.filterMap Action.call?).foldl (fun v c => v.1.call v.2 c) (s.view, s.wal.broken) := by
  induction actions generalizing s with
  | nil => rfl
  | cons a as ih =>
    obtain ⟨hview, hbroken⟩ := step_view s a
    have hbroken := hbroken (h a (by simp))
    refine (ih (s := step s a) fun a ha => h a (by simp [ha])).trans ?_
    rw [hview, hbroken, List.filterMap_cons]
    cases a.call? <;> rfl

/-- What a crash of the state leads to: the log and the data file recover the history up to `k`. -/
structure Reopened (s : PageStore) (l : LogFile) (bytes : Bytes) (k : Nat) (t : PageStore) (u : List RecoveredTxn)
    (data₀ : Nat → Bytes) : Prop where
  lost : ∃ m later, l.Whole bytes m ∧ s.history.drop k = l.records.drop m ++ later ∧ (l = s.log → later = [])
  promised : s.promised ≤ k
  bounded : k ≤ s.history.length
  data : ∀ pid, t.data pid = (newestImage pid (durablePart (s.history.take k))).getD (data₀ pid)
  unfinished : ∀ x, x ∈ u ↔ recovered (txnsOf (durablePart (s.history.take k))) x.id = some x

theorem Inv.reopened {data₀ : Nat → Bytes} {s : PageStore} (h : s.Inv data₀) {l : LogFile}
    {bytes : Bytes} {disk : Disk} (hc : s.Crash l bytes disk) :
    ∃ k t u, PageStore.open disk .done = .ok (t, .ok u) ∧ s.Reopened l bytes k t u data₀ := by
  obtain ⟨base, carried, since, written, pending, n, h⟩ := h
  obtain ⟨m, k, later, t, u, hwhole, hdrop, hlater, hpromised, hk, hopen, -, hdata, hu⟩ := h.crash hc
  exact ⟨k, t, u, hopen, ⟨m, later, hwhole, hdrop, hlater⟩, hpromised, hk, hdata, hu⟩

/-- Two runs of the same calls from one open, each with its own choice of checkpoints, read the same
pages. Crashed in the same call, also inside the checkpoints it takes in them, they are recovered to
the same pages and unfinished transactions when the same records survive, as they do once a durable
point has returned from its fsync. -/
theorem checkpoints_transparent {disk₀ : Disk} {s : PageStore} {u₀ : List RecoveredTxn}
    (hopen : PageStore.open disk₀ .done = .ok (s, .ok u₀)) {actions actions' : List Action} {last last' : Action}
    (hfits : ∀ a ∈ actions ++ [last], a.Fits) (hfits' : ∀ a ∈ actions' ++ [last'], a.Fits)
    (hsyncs : ∀ a ∈ actions, a.checkpointSyncs = true) (hsyncs' : ∀ a ∈ actions', a.checkpointSyncs = true)
    (hcalls : actions.filterMap Action.call? = actions'.filterMap Action.call?) (hlast : last.call? = last'.call?) :
    (∀ pid, (s.run actions).readPage pid = (s.run actions').readPage pid) ∧
    (∀ pid, (s.run (actions ++ [last])).readPage pid = (s.run (actions' ++ [last'])).readPage pid) ∧
    (s.run (actions ++ [last])).history = (s.run (actions' ++ [last'])).history ∧
    ∀ {l l' : LogFile} {bytes bytes' : Bytes} {disk disk' : Disk}, (s.run (actions ++ [last])).Crash l bytes disk →
      (s.run (actions' ++ [last'])).Crash l' bytes' disk' →
      ∃ k t u k' t' u', PageStore.open disk .done = .ok (t, .ok u) ∧ PageStore.open disk' .done = .ok (t', .ok u') ∧
        (s.run (actions ++ [last])).Reopened l bytes k t u s.data ∧
        (s.run (actions' ++ [last'])).Reopened l' bytes' k' t' u' s.data ∧
        (∀ writeFails syncFails fin, last = .durablePoint writeFails syncFails fin →
          ((s.run actions).durablePoint writeFails syncFails fin).2 = .ok () → k = k') ∧
        (k = k' → (∀ pid, t.data pid = t'.data pid) ∧ ∀ x, x ∈ u ↔ x ∈ u') := by
  obtain ⟨hinv, hkept⟩ := open_inv hopen
  have hsub : ∀ a ∈ actions, a.Fits := fun a ha => hfits a (List.mem_append_left _ ha)
  have hsub' : ∀ a ∈ actions', a.Fits := fun a ha => hfits' a (List.mem_append_left _ ha)
  -- the two runs look the same before the last call, and after it
  have hrun : ((s.run actions).view, (s.run actions).wal.broken) =
      ((s.run actions').view, (s.run actions').wal.broken) := by
    rw [run_view hsyncs, run_view hsyncs', hcalls]
  have hview : (s.run actions).view = (s.run actions').view := congrArg Prod.fst hrun
  have hbroken : (s.run actions).wal.broken = (s.run actions').wal.broken := congrArg Prod.snd hrun
  have hcat : ∀ (as : List Action) (a : Action), s.run (as ++ [a]) = step (s.run as) a := by
    intro as a
    rw [run, List.foldl_append]
    rfl
  have hview' : (s.run (actions ++ [last])).view = (s.run (actions' ++ [last'])).view := by
    rw [hcat, hcat, (step_view _ last).1, (step_view _ last').1, hlast, hview, hbroken]
  have hhistory : (s.run (actions ++ [last])).history = (s.run (actions' ++ [last'])).history :=
    congrArg View.history hview'
  have hread : ∀ {as as' : List Action}, (∀ a ∈ as, a.Fits) → (∀ a ∈ as', a.Fits) →
      (s.run as).history = (s.run as').history →
      ∀ pid, (s.run as).readPage pid = (s.run as').readPage pid := by
    intro as as' has has' heq pid
    obtain ⟨_, _, _, _, _, _, h⟩ := hinv.run has
    obtain ⟨_, _, _, _, _, _, h'⟩ := hinv.run has'
    rw [h.readPage, h'.readPage, heq]
  refine ⟨hread hsub hsub' (congrArg View.history hview), hread hfits hfits' hhistory, hhistory, ?_⟩
  intro l l' bytes bytes' disk disk' hc hc'
  obtain ⟨k, t, u, hopen₁, hre⟩ := (hinv.run hfits).reopened hc
  obtain ⟨k', t', u', hopen₂, hre'⟩ := (hinv.run hfits').reopened hc'
  refine ⟨k, t, u, k', t', u', hopen₁, hopen₂, hre, hre', ?_, ?_⟩
  · intro writeFails syncFails fin heq hok
    obtain ⟨-, -, hall⟩ := durablePoint_promised (hkept.run actions).1 writeFails syncFails fin
    have hp : (s.run (actions ++ [last])).promised = (s.run (actions ++ [last])).history.length := by
      rw [hcat, heq]; exact hall hok
    have hp' : (s.run (actions ++ [last])).promised = (s.run (actions' ++ [last'])).promised :=
      congrArg View.promised hview'
    have h₁ := hre.promised
    have h₂ := hre.bounded
    have h₃ := hre'.promised
    have h₄ := hre'.bounded
    rw [← hhistory] at h₄
    omega
  · intro hk
    subst hk
    refine ⟨fun pid => ?_, fun x => ?_⟩
    · rw [hre.data, hre'.data, hhistory]
    · rw [hre.unfinished, hre'.unfinished, hhistory]

/-! ## One run checkpoints, the other does not -/

def checkpointing : List Action :=
  [.setCheckpointBytes 0, .logTxn (.writes 1)] ++ [.durablePoint none false .dirSync]

def notCheckpointing : List Action := [.logTxn (.writes 1)] ++ [.durablePoint none false .done]

theorem checkpointing_synced {s : PageStore} (hb : s.wal.broken = false) :
    (s.run checkpointing).log.synced = (s.run checkpointing).log.bytes.length := by
  have hpos : 0 < LogRecord.durable.encode.length := List.length_pos_iff.mpr (encode_ne_nil _)
  simp [checkpointing, run, step, durablePoint, logTxn, writeOutWith, checkpoint, freshLog, hb, hpos, breaks]

theorem notCheckpointing_synced {s : PageStore} (hb : s.wal.broken = false) (hbuffered : s.wal.buffered = [])
    (hlimit : s.wal.checkpointBytes = checkpointLogBytes) (hends : s.wal.endOffset = 21)
    (hlen : s.log.bytes.length = 21) :
    (s.run notCheckpointing).log.synced = (s.run notCheckpointing).log.bytes.length := by
  have hrec : (encodeTxnRecord (.writes 1) ++ LogRecord.durable.encode).length = 26 := by
    simp [encodeTxnRecord, LogRecord.encode, encodeRecord_length, recordHeaderLen]
  have hsmall : ¬ checkpointLogBytes <
      s.wal.endOffset + (encodeTxnRecord (.writes 1) ++ LogRecord.durable.encode).length := by
    rw [hends, hrec]
    decide
  simp only [notCheckpointing, List.singleton_append, run, List.foldl_cons, List.foldl_nil, step,
    durablePoint, logTxn, writeOutWith, hb, hbuffered, List.nil_append, hlimit, Bool.false_eq_true, if_false,
    Bool.not_true, gt_iff_lt, if_neg hsmall]
  simp only [overwrite, List.length_append, List.length_take, List.length_drop] at hrec ⊢
  omega

theorem nothing_lost {s : PageStore} (h : s.log.synced = s.log.bytes.length) :
    s.Crash s.log s.log.bytes ⟨some s.log.bytes, s.data, s.log.synced⟩ :=
  ⟨.inl rfl, rfl, survives_synced h, rfl, fun _ _ => rfl⟩

theorem checkpoints_transparent_renamed :
    ∃ (s : PageStore) (u₀ : List RecoveredTxn) (disk disk' : Disk) (t t' : PageStore)
    (u u' : List RecoveredTxn), PageStore.open emptyDisk .done = .ok (s, .ok u₀) ∧
    (s.run checkpointing).Crash (s.run checkpointing).log (s.run checkpointing).log.bytes disk ∧
    (s.run notCheckpointing).Crash (s.run notCheckpointing).log (s.run notCheckpointing).log.bytes disk' ∧
    PageStore.open disk .done = .ok (t, .ok u) ∧ PageStore.open disk' .done = .ok (t', .ok u') ∧
    (∀ pid, t.data pid = t'.data pid) ∧ ∀ x, x ∈ u ↔ x ∈ u' := by
  obtain ⟨s, u₀, hopen, -⟩ := open_done (show replay emptyDisk.log = .ok ([], ∅) from rfl)
  have hb : s.wal.broken = false := by cases hopen; rfl
  have hends : s.wal.endOffset = 21 := by
    cases hopen
    show (logHeader ++ (encodeRecord kindDurable [] ++ [])).length = 21
    rw [List.length_append, List.append_nil, encodeRecord_length]
    rfl
  have hlen : s.log.bytes.length = s.wal.endOffset := by cases hopen; rfl
  have hc := nothing_lost (checkpointing_synced hb)
  have hc' :=
    nothing_lost (notCheckpointing_synced hb (by cases hopen; rfl) (by cases hopen; rfl) hends (hlen.trans hends))
  have hfits : ∀ a ∈ checkpointing, a.Fits := by simp [checkpointing, Action.Fits, TxnRecord.Fits]
  have hfits' : ∀ a ∈ notCheckpointing, a.Fits := by simp [notCheckpointing, Action.Fits, TxnRecord.Fits]
  obtain ⟨-, -, -, hcrash⟩ := checkpoints_transparent hopen hfits hfits' (by simp [Action.checkpointSyncs])
    (by simp [Action.checkpointSyncs]) rfl rfl
  obtain ⟨k, t, u, k', t', u', hopen₁, hopen₂, -, -, hsame, heq⟩ := hcrash hc hc'
  have hpos : 0 < LogRecord.durable.encode.length := List.length_pos_iff.mpr (encode_ne_nil _)
  have hk := hsame none false .dirSync rfl (by simp [run, step, durablePoint, logTxn, writeOutWith, hb, hpos])
  exact ⟨s, u₀, _, _, t, t', u, u', hopen, hc, hc', hopen₁, hopen₂, heq hk⟩

end PageStore

end Cmudb
