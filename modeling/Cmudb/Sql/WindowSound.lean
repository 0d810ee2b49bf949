import Cmudb.Sql.Window

/-!
# What the window pass emits

After some of the sorted rows the pass has emitted `rowOutput` of every row whose
peers are complete, and holds the others back. A step either emits rows that are
complete now, one of which may fail, or finds `row_num` full.
-/

namespace Cmudb.Sql

open Std AggregateState

section
variable [FloatUnit] (checks : Bool) (plan : WindowFunctionPlanNode) (schema : Schema)

/-- The state of the pass over `rows` after the rows `p`, of which all but the last peers are `done`. -/
structure WindowAfter (rows done p : List Bytes) (st : WindowState) : Prop where
  cut : Lib.Cut (plan.partCmp schema) (plan.ordCmp schema) done st.peerBuffer p
  output : done.mapM (rowOutput checks plan schema rows) = .ok st.output
  aggregates : ∀ b ∈ st.peerBuffer, ∃ states,
    updates checks schema plan.aggregates (new plan.aggregates)
      (Lib.partition (plan.partCmp schema) done b) = .ok states ∧
      st.aggregates = updateRank true (Int32.ofNat ((Lib.partition (plan.partCmp schema) done b).length + 1)) states
  rowNum : ∀ b ∈ st.peerBuffer, st.rowNum = Int32.ofNat ((Lib.partition (plan.partCmp schema) p b).length + 1)
  room : checks → ∀ b ∈ p, (Lib.partition (plan.partCmp schema) p b).length + 1 ≤ 2 ^ 31 - 1
  prev : (p = [] ∧ st.prevPartitionKey = none) ∨ ∃ l ∈ st.peerBuffer,
    st.prevPartitionKey = some (plan.partKey schema l) ∧ st.prevOrderKey = some (plan.orderKey schema l)

theorem windowAfter_start (rows : List Bytes) :
    WindowAfter checks plan schema rows [] [] (WindowState.start plan) :=
  ⟨Lib.cut_nil _ _, rfl, by simp [WindowState.start], by simp [WindowState.start], by simp, .inl ⟨rfl, rfl⟩⟩

end

section
variable [FloatUnit] {checks : Bool} {plan : WindowFunctionPlanNode} {schema : Schema}
  {rows done p rest : List Bytes} {st : WindowState}

theorem flush_eq {states : List AggState} (D B : List Bytes) (pos : Int32)
    (hD : updates checks schema plan.aggregates (new plan.aggregates) D = .ok states)
    (hst : st.aggregates = updateRank true pos states) (hB : st.peerBuffer = B)
    (hrow : ∀ b ∈ B, rowOutput checks plan schema rows b =
      updates checks schema plan.aggregates (new plan.aggregates) (D ++ B) >>= fun states =>
        emitRow plan schema (updateRank true pos states) b) :
    (∃ b stop, b ∈ B ∧ rowOutput checks plan schema rows b = .error stop ∧
      flushPeerGroup checks plan schema st = .error stop) ∨
    ∃ states' out, updates checks schema plan.aggregates (new plan.aggregates) (D ++ B) = .ok states' ∧
      B.mapM (rowOutput checks plan schema rows) = .ok out ∧
      flushPeerGroup checks plan schema st =
        .ok
        { st with aggregates := updateRank true pos states', peerBuffer := [], output := st.output ++ out } := by
  have hall : updates checks schema plan.aggregates (new plan.aggregates) (D ++ B) =
      updates checks schema plan.aggregates states B := Lib.foldlM_append_ok hD
  have hflush : flushPeerGroup checks plan schema st =
      updates checks schema plan.aggregates (updateRank true pos states) B >>= fun aggregates =>
        B.mapM (emitRow plan schema aggregates) >>= fun rows =>
          .ok { st with aggregates, peerBuffer := [], output := st.output ++ rows } := by
    rw [flushPeerGroup, hB, hst]
    rfl
  rw [updates_updateRank, ← hall] at hflush
  cases hu : updates checks schema plan.aggregates (new plan.aggregates) (D ++ B) with
  | error stop =>
    rw [hu] at hrow hflush
    cases B with
    | nil => rw [List.append_nil, hD] at hu; cases hu
    | cons b B => exact .inl ⟨b, stop, by simp, hrow b (by simp), hflush⟩
  | ok states' =>
    rw [hu] at hrow hflush
    have hmap : B.mapM (rowOutput checks plan schema rows) =
        B.mapM (emitRow plan schema (updateRank true pos states')) := by
      apply Lib.mapM_congr
      intro b hb
      exact hrow b hb
    rw [hmap]
    cases hm : B.mapM (emitRow plan schema (updateRank true pos states')) with
    | error stop =>
      obtain ⟨l, b, r, _, rfl, _, hb⟩ := Lib.mapM_eq_error hm
      refine .inl ⟨b, stop, by simp, (hrow b (by simp)).trans hb, ?_⟩
      rw [hflush]
      simp only [Except.map, Lib.ok_bind, hm, Lib.error_bind]
    | ok out =>
      refine .inr ⟨states', out, rfl, rfl, ?_⟩
      rw [hflush]
      simp only [Except.map, Lib.ok_bind, hm]

theorem WindowAfter.rowOutput_eq (h : WindowAfter checks plan schema rows done p st) (hs : rows = p ++ rest)
    (ho : Lib.Ordered (plan.partCmp schema) (plan.ordCmp schema) rows) {b : Bytes} (hb : b ∈ st.peerBuffer)
    (hrest : ∀ r ∈ rest, ¬ Lib.Peers (plan.partCmp schema) (plan.ordCmp schema) b r) :
    rowOutput checks plan schema rows b =
      updates checks schema plan.aggregates (new plan.aggregates)
          (Lib.partition (plan.partCmp schema) done b ++ st.peerBuffer) >>= fun states =>
        emitRow plan schema
          (updateRank true (Int32.ofNat ((Lib.partition (plan.partCmp schema) done b).length + 1)) states) b := by
  rw [hs] at ho
  obtain ⟨h₁, h₂⟩ := h.cut.frame_eq hb ho hrest
  rw [rowOutput, windowFrame_eq, windowRank_eq, hs, h₁, h₂]

/-- Flushing emits the held rows once no more of their peers come, or fails as one of them does. -/
theorem WindowAfter.flush (h : WindowAfter checks plan schema rows done p st) (hs : rows = p ++ rest)
    (ho : Lib.Ordered (plan.partCmp schema) (plan.ordCmp schema) rows)
    (hrest : ∀ b ∈ st.peerBuffer, ∀ r ∈ rest, ¬ Lib.Peers (plan.partCmp schema) (plan.ordCmp schema) b r) :
    (∃ b stop, b ∈ p ∧ rowOutput checks plan schema rows b = .error stop ∧
      flushPeerGroup checks plan schema st = .error stop) ∨
    ∃ aggregates out, p.mapM (rowOutput checks plan schema rows) = .ok out ∧
      flushPeerGroup checks plan schema st = .ok { st with aggregates, peerBuffer := [], output := out } ∧
      ∀ b ∈ st.peerBuffer, ∃ states pos, aggregates = updateRank true pos states ∧
        updates checks schema plan.aggregates (new plan.aggregates) (Lib.partition (plan.partCmp schema) p b) =
          .ok states := by
  have hp : ∀ out, st.peerBuffer.mapM (rowOutput checks plan schema rows) = .ok out →
      p.mapM (rowOutput checks plan schema rows) = .ok (st.output ++ out) := by
    intro out hout
    rw [h.cut.eq, List.mapM_append, h.output, hout]
    rfl
  by_cases hne : st.peerBuffer = []
  · refine .inr ⟨st.aggregates, st.output, ?_, ?_, by simp [hne]⟩
    · simpa using hp [] (by rw [hne]; rfl)
    · rw [flushPeerGroup, hne]
      simp [pure, Except.pure]
  · obtain ⟨b₀, hb₀⟩ := List.exists_mem_of_ne_nil _ hne
    obtain ⟨states, hD, hst⟩ := h.aggregates b₀ hb₀
    have hsame : ∀ b ∈ st.peerBuffer, Lib.partition (plan.partCmp schema) done b =
        Lib.partition (plan.partCmp schema) done b₀ :=
      fun b hb => Lib.partition_congr (h.cut.same b hb b₀ hb₀).1 done
    have hrow : ∀ b ∈ st.peerBuffer, _ := fun b hb => hsame b hb ▸ h.rowOutput_eq hs ho hb (hrest b hb)
    rcases flush_eq _ _ _ hD hst rfl hrow with ⟨b, stop, hb, hr, hf⟩ | ⟨states', out, hu, hout, hf⟩
    · exact .inl ⟨b, stop, by simp [h.cut.eq, hb], hr, hf⟩
    · refine .inr ⟨_, _, hp out hout, hf, ?_⟩
      intro b hb
      refine ⟨states', _, rfl, ?_⟩
      have hpart : Lib.partition (plan.partCmp schema) p b =
          Lib.partition (plan.partCmp schema) done b₀ ++ st.peerBuffer := by
        rw [Lib.partition, h.cut.eq, List.filter_append, ← Lib.partition, hsame b hb]
        congr 1
        apply List.filter_eq_self.mpr
        intro a ha
        simp [(h.cut.same a ha b hb).1]
      rw [hpart, hu]

/-! ## One step -/

variable {t : Bytes}

theorem windowAfter_push {currRank rowNum : Int32} {aggregates : List AggState}
    (hcut : Lib.Cut (plan.partCmp schema) (plan.ordCmp schema) done (st.peerBuffer ++ [t]) (p ++ [t]))
    (hout : done.mapM (rowOutput checks plan schema rows) = .ok st.output)
    (hagg : ∃ states,
      updates checks schema plan.aggregates (new plan.aggregates)
      (Lib.partition (plan.partCmp schema) done t) = .ok states ∧
        aggregates = updateRank true (Int32.ofNat ((Lib.partition (plan.partCmp schema) done t).length + 1)) states)
    (hnum : rowNum = Int32.ofNat ((Lib.partition (plan.partCmp schema) p t).length + 2))
    (hroom : checks → ∀ b ∈ p, (Lib.partition (plan.partCmp schema) p b).length + 1 ≤ 2 ^ 31 - 1)
    (hlt : checks → (Lib.partition (plan.partCmp schema) p t).length + 1 < 2 ^ 31 - 1) :
    WindowAfter checks plan schema rows done (p ++ [t])
      { st with
        aggregates, currRank, rowNum
        peerBuffer := st.peerBuffer ++ [t]
        prevPartitionKey := some (plan.partKey schema t)
        prevOrderKey := some (plan.orderKey schema t) } := by
  have hpeer : ∀ b ∈ st.peerBuffer ++ [t], plan.partCmp schema b t = .eq :=
    fun b hb => (hcut.same b hb t (by simp)).1
  refine ⟨hcut, hout, ?_, ?_, ?_, .inr ⟨t, by simp, rfl, rfl⟩⟩
  · intro b hb
    rw [Lib.partition_congr (hpeer b hb)]
    exact hagg
  · intro b hb
    rw [Lib.partition_congr (hpeer b hb), Lib.partition_concat_self, List.length_append, hnum]
    rfl
  · intro hc b hb
    have hle : ∀ b ∈ p, (Lib.partition (plan.partCmp schema) p b).length ≤ 2 ^ 31 - 1 - 1 := by
      intro b hb
      have := hroom hc b hb
      omega
    have hlt := hlt hc
    have := Lib.partition_concat_le hle (by omega) b hb
    omega

omit [FloatUnit] in
theorem pushRow_eq (newPartition newPeerGroup : Bool) (kp ko : ExprKey) {n : Nat}
    (hnum : (if newPartition then 1 else st.rowNum) = Int32.ofNat (n + 1)) (hn : checks → n + 1 ≤ 2 ^ 31 - 1) :
    (checks ∧ n + 1 = 2 ^ 31 - 1 ∧ pushRow checks plan newPartition newPeerGroup kp ko t st = .error .panicked) ∨
    ((checks → n + 1 < 2 ^ 31 - 1) ∧ ∃ currRank, (newPeerGroup → currRank = Int32.ofNat (n + 1)) ∧
      pushRow checks plan newPartition newPeerGroup kp ko t st = .ok
        { st with
          aggregates :=
  updateRank newPeerGroup currRank (if newPartition then new plan.aggregates else st.aggregates)
          peerBuffer := st.peerBuffer ++ [t]
          currRank
          rowNum := Int32.ofNat (n + 2)
          prevPartitionKey := some kp
          prevOrderKey := some ko }) := by
  have hinc := increment32_ofNat (n := n + 1) hn
  by_cases hfull : checks ∧ n + 1 = 2 ^ 31 - 1
  · rw [if_pos hfull] at hinc
    refine .inl ⟨hfull.1, hfull.2, ?_⟩
    cases newPartition with
    | false => rw [pushRow, if_neg (by simp), show st.rowNum = _ from hnum, hinc]; rfl
    | true => rw [pushRow, if_pos rfl, show (1 : Int32) = _ from hnum, hinc]; rfl
  · rw [if_neg hfull] at hinc
    refine .inr ⟨?_, if newPeerGroup then Int32.ofNat (n + 1) else st.currRank, ?_, ?_⟩
    · intro hc
      have := hn hc
      have : n + 1 ≠ 2 ^ 31 - 1 := fun he => hfull ⟨hc, he⟩
      omega
    · intro hg
      simp [hg]
    · cases newPartition with
      | false => rw [pushRow, if_neg (by simp), show st.rowNum = _ from hnum, hinc]; rfl
      | true => rw [pushRow, if_pos rfl, show (1 : Int32) = _ from hnum, hinc]; rfl

theorem windowStep_eq (ht : KeysEvaluate plan.sortExprs schema t) (newPartition newKey flushNow : Bool)
    (hp : (st.prevPartitionKey != some (plan.partKey schema t)) = newPartition)
    (ho : (st.prevOrderKey != some (plan.orderKey schema t)) = newKey)
    (hf : (if newPartition then st.prevPartitionKey.isSome
      else plan.orderByExprs.isSome && (newPartition || newKey) && !st.peerBuffer.isEmpty) = flushNow) :
    windowStep checks plan schema st t =
      (if flushNow then flushPeerGroup checks plan schema st else .ok st) >>=
        pushRow checks plan newPartition (newPartition || newKey) (plan.partKey schema t)
        (plan.orderKey schema t) t := by
  simp only [windowStep, WindowFunctionPlanNode.evalKey_partition ht,
    WindowFunctionPlanNode.evalKey_order ht, failing, Lib.ok_bind, hp, ho, hf]
  cases flushNow <;> rfl

theorem orderByExprs_isSome {l : Bytes} (h : plan.ordCmp schema l t ≠ .eq) : plan.orderByExprs.isSome := by
  cases ho : plan.orderByExprs with
  | some keys => rfl
  | none =>
    rw [WindowFunctionPlanNode.ordCmp, WindowFunctionPlanNode.orderBy, ho] at h
    exact absurd rfl h

theorem WindowAfter.apart (h : WindowAfter checks plan schema rows done p st) (hs : rows = p ++ t :: rest)
    (ho : Lib.Ordered (plan.partCmp schema) (plan.ordCmp schema) rows) {l : Bytes} (hl : l ∈ st.peerBuffer)
    (hlt : ¬ Lib.Peers (plan.partCmp schema) (plan.ordCmp schema) l t) :
    ∀ b ∈ st.peerBuffer, ∀ r ∈ t :: rest, ¬ Lib.Peers (plan.partCmp schema) (plan.ordCmp schema) b r := by
  intro b hb
  rw [hs] at ho
  apply Lib.not_peers_after ho (by simp [h.cut.eq, hb])
  intro hbt
  exact hlt ((h.cut.same l hl b hb).trans hbt)

def StepIs (checks : Bool) (plan : WindowFunctionPlanNode) (schema : Schema) (rows p : List Bytes) (t : Bytes)
    (r : Except Stop WindowState) : Prop :=
  (∃ u stop, u ∈ p ∧ ¬ Lib.Peers (plan.partCmp schema) (plan.ordCmp schema) u t ∧
    rowOutput checks plan schema rows u = .error stop ∧ r = .error stop) ∨
  (∀ u ∈ p, ¬ Lib.Peers (plan.partCmp schema) (plan.ordCmp schema) u t →
    ∃ out, rowOutput checks plan schema rows u = .ok out) ∧
    ((checks ∧ (Lib.partition (plan.partCmp schema) p t).length + 1 = 2 ^ 31 - 1 ∧ r = .error .panicked) ∨
      ∃ done st, r = .ok st ∧ WindowAfter checks plan schema rows done (p ++ [t]) st)

theorem stepIs_start {out : List Bytes} (hout : p.mapM (rowOutput checks plan schema rows) = .ok out)
    (hcut : Lib.Cut (plan.partCmp schema) (plan.ordCmp schema) p [t] (p ++ [t])) (newPartition : Bool)
    (hnum : (if newPartition then 1 else st.rowNum) =
      Int32.ofNat ((Lib.partition (plan.partCmp schema) p t).length + 1))
    (hroom : checks → ∀ b ∈ p, (Lib.partition (plan.partCmp schema) p b).length + 1 ≤ 2 ^ 31 - 1)
    (hn : checks → (Lib.partition (plan.partCmp schema) p t).length + 1 ≤ 2 ^ 31 - 1)
    (hbuf : st.peerBuffer = []) (hst : st.output = out)
    (hagg : ∃ states pos,
      updates checks schema plan.aggregates (new plan.aggregates)
      (Lib.partition (plan.partCmp schema) p t) = .ok states ∧
        (if newPartition then new plan.aggregates else st.aggregates) = updateRank true pos states) :
    StepIs checks plan schema rows p t
      (pushRow checks plan newPartition true (plan.partKey schema t) (plan.orderKey schema t) t st) := by
  refine .inr ⟨fun u hu _ => Lib.mapM_ok_mem hout hu, ?_⟩
  rcases pushRow_eq newPartition true (plan.partKey schema t) (plan.orderKey schema t) hnum hn with
    hfull | ⟨hlt, rank, hrank, hpush⟩
  · exact .inl hfull
  · right
    obtain ⟨states, pos, hu, ha⟩ := hagg
    refine ⟨p, _, hpush, windowAfter_push ?_ ?_ ?_ rfl hroom hlt⟩
    · rw [hbuf]
      exact hcut
    · rw [hst]
      exact hout
    · exact ⟨states, hu, by rw [ha, updateRank_updateRank, hrank rfl]⟩

theorem WindowAfter.step_join (h : WindowAfter checks plan schema rows done p st) {l : Bytes}
    (hl : l ∈ st.peerBuffer) (hpeers : Lib.Peers (plan.partCmp schema) (plan.ordCmp schema) l t) :
    StepIs checks plan schema rows p t
      (pushRow checks plan false false (plan.partKey schema t) (plan.orderKey schema t) t st) := by
  have hsame := fun rows => Lib.partition_congr hpeers.1 rows
  refine .inr ⟨?_, ?_⟩
  · intro u hu hut
    rw [h.cut.eq] at hu
    rcases List.mem_append.mp hu with hu | hu
    · exact Lib.mapM_ok_mem h.output hu
    · exact absurd ((h.cut.same u hu l hl).trans hpeers) hut
  · rcases pushRow_eq false false (plan.partKey schema t) (plan.orderKey schema t) (h.rowNum l hl)
      (fun hc => h.room hc l (by simp [h.cut.eq, hl])) with hfull | ⟨hlt, rank, _, hpush⟩
    · rw [hsame] at hfull
      exact .inl hfull
    · right
      rw [hsame] at hpush hlt
      obtain ⟨states, hu, ha⟩ := h.aggregates l hl
      refine ⟨done, _, hpush, windowAfter_push (h.cut.join hl hpeers) h.output ?_ rfl h.room hlt⟩
      rw [updateRank_false, if_neg (by simp), ← hsame]
      exact ⟨states, hu, ha⟩

theorem WindowAfter.prev_keys (h : WindowAfter checks plan schema rows done p st)
    (hk : ∀ u ∈ p, KeysEvaluate plan.sortExprs schema u) (ht : KeysEvaluate plan.sortExprs schema t) :
    (p = [] ∧ st.prevPartitionKey = none) ∨ ∃ l ∈ st.peerBuffer,
      st.prevPartitionKey.isSome ∧
      (st.prevPartitionKey != some (plan.partKey schema t)) = !(plan.partCmp schema l t == .eq) ∧
      (st.prevOrderKey != some (plan.orderKey schema t)) = !(plan.ordCmp schema l t == .eq) := by
  rcases h.prev with hprev | ⟨l, hl, hp, ho⟩
  · exact .inl hprev
  · have hlk := hk l (by simp [h.cut.eq, hl])
    refine .inr ⟨l, hl, by simp [hp], ?_, ?_⟩
    · rw [hp]
      show (!(plan.partKey schema l == plan.partKey schema t)) = _
      rw [Bool.eq_iff_iff.mpr ((WindowFunctionPlanNode.partKey_beq hlk ht).trans beq_iff_eq.symm)]
    · rw [ho]
      show (!(plan.orderKey schema l == plan.orderKey schema t)) = _
      rw [Bool.eq_iff_iff.mpr ((WindowFunctionPlanNode.orderKey_beq hlk ht).trans beq_iff_eq.symm)]

theorem WindowAfter.step (h : WindowAfter checks plan schema rows done p st) (hs : rows = p ++ t :: rest)
    (ho : Lib.Ordered (plan.partCmp schema) (plan.ordCmp schema) rows)
    (hk : ∀ u ∈ rows, KeysEvaluate plan.sortExprs schema u) :
    StepIs checks plan schema rows p t (windowStep checks plan schema st t) := by
  have ht : KeysEvaluate plan.sortExprs schema t := hk t (by simp [hs])
  have hop : Lib.Ordered (plan.partCmp schema) (plan.ordCmp schema) (p ++ [t]) := by
    rw [hs, List.append_cons] at ho
    exact (List.pairwise_append.mp ho).1
  rcases h.prev_keys (fun u hu => hk u (by simp [hs, hu])) ht with ⟨rfl, hprev⟩ | ⟨l, hl, hsome, hnp, hno⟩
  · -- the first row of all
    obtain ⟨rfl, hb⟩ := List.append_eq_nil_iff.mp h.cut.eq.symm
    rw [windowStep_eq ht true _ false (by rw [hprev]; rfl) rfl (by rw [hprev]; rfl)]
    refine stepIs_start h.output ?_ true rfl (by simp) (by simp [Lib.partition]) hb rfl
      ⟨_, 1, rfl, (updateRank_new _).symm⟩
    exact ⟨rfl, by simp [Lib.Peers, ReflCmp.compare_self], by simp, by simp⟩
  · by_cases hpart : plan.partCmp schema l t = .eq
    · have hsame := fun rows => Lib.partition_congr hpart rows
      by_cases hord : plan.ordCmp schema l t = .eq
      · -- another peer
        rw [windowStep_eq ht false false false (by simp [hnp, hpart]) (by simp [hno, hord]) (by simp)]
        exact h.step_join hl ⟨hpart, hord⟩
      · -- new peers in the partition
        have hnot : ¬ Lib.Peers (plan.partCmp schema) (plan.ordCmp schema) l t := fun hp => hord hp.2
        rw [windowStep_eq ht false true true (by simp [hnp, hpart]) (by simp [hno, hord])
          (by simp [orderByExprs_isSome hord]; exact List.ne_nil_of_mem hl)]
        rcases h.flush hs ho (h.apart hs ho hl hnot) with ⟨u, stop, hu, hr, hf⟩ | ⟨aggs, out, hout, hf, hagg⟩
        · exact .inl ⟨u, stop, hu, h.cut.not_peers hl hnot hop u hu, hr, by rw [if_pos rfl, hf]; rfl⟩
        · rw [if_pos rfl, hf, Lib.ok_bind]
          obtain ⟨states, pos, ha, hu⟩ := hagg l hl
          rw [hsame] at hu
          refine stepIs_start hout (h.cut.start hl hnot hop) false ?_ h.room ?_ rfl rfl ⟨states, pos, hu, ha⟩
          · rw [← hsame]
            exact h.rowNum l hl
          · intro hc
            rw [← hsame]
            exact h.room hc l (by simp [h.cut.eq, hl])
    · -- a new partition
      have hnot : ¬ Lib.Peers (plan.partCmp schema) (plan.ordCmp schema) l t := fun hp => hpart hp.1
      have hfresh := h.cut.fresh hl hpart hop
      rw [windowStep_eq ht true _ true (by simp [hnp, hpart]) rfl hsome]
      rcases h.flush hs ho (h.apart hs ho hl hnot) with ⟨u, stop, hu, hr, hf⟩ | ⟨aggs, out, hout, hf, _⟩
      · exact .inl ⟨u, stop, hu, h.cut.not_peers hl hnot hop u hu, hr, by rw [if_pos rfl, hf]; rfl⟩
      · rw [if_pos rfl, hf, Lib.ok_bind]
        refine stepIs_start hout (h.cut.start hl hnot hop) true ?_ h.room ?_ rfl rfl
          ⟨new plan.aggregates, 1, ?_, (updateRank_new _).symm⟩
        · rw [hfresh]; rfl
        · rw [hfresh]; simp
        · rw [hfresh]; rfl

/-! ## The whole pass -/

theorem WindowAfter.run {q : List Bytes} {st' : WindowState} (h : WindowAfter checks plan schema rows done p st)
    (hs : rows = p ++ q ++ rest) (ho : Lib.Ordered (plan.partCmp schema) (plan.ordCmp schema) rows)
    (hk : ∀ u ∈ rows, KeysEvaluate plan.sortExprs schema u)
    (hr : q.foldlM (windowStep checks plan schema) st = .ok st') :
    ∃ done', WindowAfter checks plan schema rows done' (p ++ q) st' := by
  induction q generalizing done p st with
  | nil =>
    cases hr
    exact ⟨done, by simpa using h⟩
  | cons t q ih =>
    rw [List.foldlM_cons] at hr
    obtain ⟨st₁, h₁, hr⟩ := Lib.bind_eq_ok hr
    rcases h.step (by rw [hs, List.append_assoc, List.cons_append]) ho hk with
      ⟨_, _, _, _, _, hx⟩ | ⟨_, ⟨_, _, hx⟩ | ⟨done₁, st₂, hx, h₂⟩⟩
    · rw [h₁] at hx; cases hx
    · rw [h₁] at hx; cases hx
    · rw [h₁] at hx
      cases hx
      have := ih h₂ (by simpa using hs) hr
      simpa using this

def windowOrder (plan : WindowFunctionPlanNode) (schema : Schema) (rows : List Bytes) : List Bytes :=
  sortRows plan.sortExprs schema id rows

theorem windowOrder_perm (plan : WindowFunctionPlanNode) (schema : Schema) (rows : List Bytes) :
    (windowOrder plan schema rows).Perm rows := sortRows_perm rows

theorem partition_windowOrder (plan : WindowFunctionPlanNode) (schema : Schema) (rows : List Bytes) (t : Bytes) :
    (Lib.partition (plan.partCmp schema) (windowOrder plan schema rows) t).length =
      (Lib.partition (plan.partCmp schema) rows t).length :=
  ((windowOrder_perm plan schema rows).filter _).length_eq

variable {tuples : List Bytes}

theorem windowRows_eq (hk : ∀ u ∈ tuples, KeysEvaluate plan.sortExprs schema u) :
    windowRows checks plan schema tuples =
      (windowOrder plan schema tuples).foldlM (windowStep checks plan schema) (WindowState.start plan) >>= fun st =>
        flushPeerGroup checks plan schema st >>= fun st => .ok st.output := by
  rw [windowRows, @sortedByExprs_ok _ _ id _ _ _ hk]
  rfl

/-- The pass ends with every row emitted, or at a row that fails, or where `row_num` is full. -/
theorem windowRows_cases (hk : ∀ u ∈ tuples, KeysEvaluate plan.sortExprs schema u) :
    (∃ p rest u stop, windowOrder plan schema tuples = p ++ rest ∧ u ∈ p ∧
      (∀ r ∈ rest, ¬ Lib.Peers (plan.partCmp schema) (plan.ordCmp schema) u r) ∧
      (checks → ∀ b ∈ p, (Lib.partition (plan.partCmp schema) p b).length + 1 ≤ 2 ^ 31 - 1) ∧
      rowOutput checks plan schema (windowOrder plan schema tuples) u = .error stop ∧
      windowRows checks plan schema tuples = .error stop) ∨
    (∃ p t rest, windowOrder plan schema tuples = p ++ t :: rest ∧
      (∀ u ∈ p, ¬ Lib.Peers (plan.partCmp schema) (plan.ordCmp schema) u t →
        ∃ out, rowOutput checks plan schema (windowOrder plan schema tuples) u = .ok out) ∧
      checks ∧ (Lib.partition (plan.partCmp schema) p t).length + 1 = 2 ^ 31 - 1 ∧
      windowRows checks plan schema tuples = .error .panicked) ∨
    ∃ out, (windowOrder plan schema tuples).mapM (rowOutput checks plan schema (windowOrder plan schema tuples)) =
      .ok out ∧
      windowRows checks plan schema tuples = .ok out ∧
      (checks → ∀ t ∈ tuples, (Lib.partition (plan.partCmp schema) tuples t).length < 2 ^ 31 - 1) := by
  have ho := WindowFunctionPlanNode.ordered_sortRows hk
  have hmem : ∀ u ∈ windowOrder plan schema tuples, KeysEvaluate plan.sortExprs schema u :=
    fun u hu => hk u ((windowOrder_perm plan schema tuples).mem_iff.mp hu)
  have hstart := windowAfter_start checks plan schema (windowOrder plan schema tuples)
  rw [windowRows_eq hk]
  cases hr : (windowOrder plan schema tuples).foldlM (windowStep checks plan schema) (WindowState.start plan) with
  | error stop =>
    obtain ⟨p, t, rest, st, hs, hp, he⟩ := Lib.foldlM_error hr
    obtain ⟨done, h⟩ := hstart.run (by rw [List.nil_append]; exact hs) ho hmem hp
    rw [List.nil_append] at h
    rcases h.step hs ho hmem with ⟨u, stop', hu, hut, hx, hst⟩ | ⟨hall, ⟨hc, hn, hst⟩ | ⟨_, _, hst, _⟩⟩
    · rw [he] at hst
      cases hst
      refine .inl ⟨p, t :: rest, u, stop, hs, hu, ?_, h.room, hx, rfl⟩
      have hop : Lib.Ordered (plan.partCmp schema) (plan.ordCmp schema) (p ++ t :: rest) := hs ▸ ho
      exact Lib.not_peers_after hop hu hut
    · rw [he] at hst
      cases hst
      exact .inr (.inl ⟨p, t, rest, hs, hall, hc, hn, rfl⟩)
    · rw [he] at hst
      cases hst
  | ok st =>
    obtain ⟨done, h⟩ := hstart.run (by simp : _ = [] ++ _ ++ []) ho hmem hr
    rw [List.nil_append] at h
    rcases h.flush (List.append_nil _).symm ho (by simp) with ⟨u, stop, hu, hx, hf⟩ | ⟨aggs, out, hout, hf, _⟩
    · exact .inl ⟨_, [], u, stop, (List.append_nil _).symm, hu, by simp, h.room, hx, by rw [Lib.ok_bind, hf]; rfl⟩
    · refine .inr (.inr ⟨out, hout, by rw [Lib.ok_bind, hf]; rfl, ?_⟩)
      intro hc t ht
      have hroom := h.room hc t ((windowOrder_perm plan schema tuples).mem_iff.mpr ht)
      rw [partition_windowOrder] at hroom
      omega

end

end Cmudb.Sql
