import Mathlib.Algebra.BigOperators.Group.List.Basic
import Cmudb.TablePage

/-!
# What table page operations do to slots

`Wf` is the page invariant: regions are apart, lie in the tuple area and leave
room for the directory. Every operation keeps it, changes the slot it is
called on and no other, and never shrinks a slot's capacity, so a tuple the
slot once held can always be written back.
-/

namespace Cmudb

open Lib

namespace TablePage

def view (p : TablePage) (i : Nat) : Option (TupleMeta × Bytes) :=
  (p.slot i).map fun s => (s.tmeta, readAt p.buf s.regionStart s.size)

def capacity (p : TablePage) (i : Nat) : Nat := ((p.slot i).map Slot.capacity).getD 0

def Apart (a b : Slot) : Prop := a.offset ≤ b.regionStart ∨ b.offset ≤ a.regionStart

/-- The page invariant, but for the size of slot `i` (which `none` exempts nothing from). -/
structure WfBut (p : TablePage) (i : Option Nat) : Prop where
  dir : p.directoryEnd ≤ p.freeSpaceOffset
  free : p.freeSpaceOffset ≤ pageSize
  size : ∀ j s, p.slot j = some s → some j ≠ i → s.size ≤ s.capacity
  cap : ∀ j s, p.slot j = some s → s.capacity ≤ s.offset
  low : ∀ j s, p.slot j = some s → p.freeSpaceOffset ≤ s.regionStart
  high : ∀ j s, p.slot j = some s → s.offset ≤ pageSize
  apart : ∀ j k s t, p.slot j = some s → p.slot k = some t → j ≠ k → Apart s t
  room : (p.slots.map Slot.capacity).sum ≤ pageSize - p.freeSpaceOffset
  deleted : p.numDeleted = p.slots.countP fun s => s.tmeta.isDeleted

abbrev Wf (p : TablePage) : Prop := WfBut p none

section
variable {p : TablePage} {i : Nat} {s : Slot}

theorem view_of_slot (h : p.slot i = some s) :
    p.view i = some (s.tmeta, readAt p.buf s.regionStart s.size) := by simp [view, h]

theorem capacity_of_slot (h : p.slot i = some s) :
    p.capacity i = s.capacity := by simp [capacity, h]

theorem slot_lt (h : p.slot i = some s) : i < p.numTuples := by
  unfold slot at h
  exact (List.getElem?_eq_some_iff.mp h).1

theorem view_eq_none : p.view i = none ↔ p.numTuples ≤ i := by
  simp [view, slot, numTuples]

theorem WfBut.numTuples_le {i : Option Nat} (h : p.WfBut i) : p.numTuples ≤ 481 := by
  have h1 := h.dir
  have h2 := h.free
  unfold directoryEnd headerSize slotSize at h1
  unfold pageSize at h2
  omega

theorem Wf.validate (h : p.Wf) : p.validate = .ok () := by
  unfold TablePage.validate
  rw [if_neg]
  have h1 := h.dir
  have h2 := h.free
  omega

theorem WfBut.checkRegion {i : Option Nat} (h : p.WfBut i) {j : Nat} (hs : p.slot j = some s) (hj : some j ≠ i)
    : p.checkRegion s = .ok () := by
  unfold TablePage.checkRegion
  rw [if_neg]
  have h1 := h.size j s hs hj
  have h2 := h.cap j s hs
  have h3 := h.low j s hs
  have h4 := h.high j s hs
  omega

theorem Wf.tupleBytes (h : p.Wf) {j : Nat} (hs : p.slot j = some s) :
    p.tupleBytes s = .ok (readAt p.buf s.regionStart s.size) := by
  unfold TablePage.tupleBytes
  rw [WfBut.checkRegion h hs (by simp)]

theorem Wf.view_length (h : p.Wf) {m : TupleMeta} {d : Bytes} (hv : p.view i = some (m, d))
    : d.length ≤ p.capacity i := by
  cases hs : p.slot i with
  | none => simp [view, hs] at hv
  | some s =>
    rw [view_of_slot hs] at hv
    cases hv
    rw [capacity_of_slot hs, readAt_length]
    exact h.size i s hs (by simp)

/-- Capacities add up to at most the tuple area, so any one of them fits a page. -/
theorem Wf.capacity_le (h : p.Wf) (i : Nat) : p.capacity i ≤ maxTupleSize := by
  cases hs : p.slot i with
  | none => simp [capacity, hs]
  | some s =>
    rw [capacity_of_slot hs]
    have h1 := h.cap i s hs
    have h2 := h.low i s hs
    have h3 := h.high i s hs
    have h4 := h.dir
    have h5 := slot_lt hs
    unfold directoryEnd headerSize slotSize at h4
    unfold Slot.regionStart at h2
    unfold maxTupleSize headerSize slotSize
    omega

/-! ## Formatting and linking -/

theorem init_wf (b : Buf) : (init b).Wf where
  dir := by simp [init, directoryEnd, numTuples, headerSize, pageSize]
  free := Nat.le_refl _
  size := by intro j s h; simp [init, slot] at h
  cap := by intro j s h; simp [init, slot] at h
  low := by intro j s h; simp [init, slot] at h
  high := by intro j s h; simp [init, slot] at h
  apart := by intro j k s t h; simp [init, slot] at h
  room := by simp [init]
  deleted := by simp [init]

theorem setNextPageId_wf (h : p.Wf) (q : Nat) : (p.setNextPageId q).Wf :=
  ⟨h.dir, h.free, h.size, h.cap, h.low, h.high, h.apart, h.room, h.deleted⟩

/-! ## Inserting -/

theorem tupleLen_ok {d : Bytes} {n : Nat} (h : tupleLen d = .ok n) : n = d.length ∧ d.length ≤ maxTupleSize := by
  unfold tupleLen at h
  split at h
  · rename_i hd
    cases h
    exact ⟨rfl, hd.2⟩
  · cases h

theorem tupleLen_of_le {d : Bytes} (h : d.length ≤ maxTupleSize) : tupleLen d = .ok d.length := by
  unfold tupleLen
  have h' := h
  unfold maxTupleSize pageSize headerSize slotSize at h'
  rw [if_pos ⟨by omega, h⟩]

theorem insertWithMeta_ok {p p' : TablePage} {m : TupleMeta} {d : Bytes}
    (h : p.insertWithMeta m d = .ok (i, p')) :
    i = p.numTuples ∧ p.directoryEnd + slotSize + d.length ≤ p.freeSpaceOffset ∧
      p' = { p with
        numDeleted := p.numDeleted + m.isDeleted.toNat
        freeSpaceOffset := p.freeSpaceOffset - d.length
        slots := p.slots ++ [⟨p.freeSpaceOffset, d.length, d.length, m⟩]
        buf := copyAt p.buf (p.freeSpaceOffset - d.length) d } := by
  unfold insertWithMeta at h
  split at h
  · cases h
  · rename_i hfit
    split at h
    · cases h
    · split at h
      · cases h
      · rename_i n hn
        obtain ⟨rfl, _⟩ := tupleLen_ok hn
        cases h
        refine ⟨rfl, ?_, rfl⟩
        simpa [canInsert] using hfit

end

section
variable {p p' : TablePage} {m : TupleMeta} {d : Bytes} {i : Nat}

theorem insert_slot_cases (h : p.insertWithMeta m d = .ok (i, p')) (j : Nat) :
    p'.slot j = if j = i then some ⟨p.freeSpaceOffset, d.length, d.length, m⟩ else p.slot j := by
  obtain ⟨rfl, _, rfl⟩ := insertWithMeta_ok h
  simp only [slot]
  rcases Nat.lt_trichotomy j p.slots.length with hj | hj | hj
  · rw [List.getElem?_append_left hj, if_neg (Nat.ne_of_lt hj)]
  · subst hj; simp
  · rw [if_neg (Nat.ne_of_gt hj), List.getElem?_eq_none (Nat.le_of_lt hj), List.getElem?_eq_none]
    simpa using Nat.succ_le_of_lt hj

theorem insert_wf (hw : p.Wf) (h : p.insertWithMeta m d = .ok (i, p')) : p'.Wf := by
  have hslot := insert_slot_cases h
  obtain ⟨hi, hfit, rfl⟩ := insertWithMeta_ok h
  have hfree := hw.free
  have hslotSize : slotSize = 17 := rfl
  constructor
  · simp only [directoryEnd, numTuples, List.length_append, List.length_singleton, Nat.add_mul] at hfit ⊢
    omega
  · simp only; omega
  · intro j s hs _
    rw [hslot j] at hs
    split at hs
    · cases hs; exact Nat.le_refl _
    · exact hw.size j s hs (by simp)
  · intro j s hs
    rw [hslot j] at hs
    split at hs
    · cases hs; simp only; omega
    · exact hw.cap j s hs
  · intro j s hs
    rw [hslot j] at hs
    split at hs
    · cases hs; exact Nat.le_refl _
    · have := hw.low j s hs
      simp only; omega
  · intro j s hs
    rw [hslot j] at hs
    split at hs
    · cases hs; exact hfree
    · exact hw.high j s hs
  · intro j k s t hs ht hjk
    rw [hslot j] at hs
    rw [hslot k] at ht
    split at hs
    · split at ht
      · omega
      · cases hs; exact Or.inl (hw.low k t ht)
    · split at ht
      · cases ht; exact Or.inr (hw.low j s hs)
      · exact hw.apart j k s t hs ht hjk
  · have := hw.room
    simp only [List.map_append, List.sum_append, List.map_cons, List.map_nil, List.sum_cons, List.sum_nil]
    omega
  · have := hw.deleted
    simp only [List.countP_append, List.countP_singleton]
    rw [this]
    cases m.isDeleted <;> simp

theorem insert_view (hw : p.Wf) (h : p.insertWithMeta m d = .ok (i, p')) (j : Nat) :
    p'.view j = if j = i then some (m, d) else p.view j := by
  have hslot := insert_slot_cases h j
  obtain ⟨_, hfit, rfl⟩ := insertWithMeta_ok h
  by_cases hj : j = i
  · rw [if_pos hj] at hslot ⊢
    rw [view_of_slot hslot]
    simp only [Slot.regionStart]
    rw [readAt_copyAt]
  · rw [if_neg hj] at hslot ⊢
    cases hs : p.slot j with
    | none => simp [view, hslot, hs]
    | some s =>
      rw [hs] at hslot
      rw [view_of_slot hslot, view_of_slot hs]
      have := hw.low j s hs
      rw [readAt_copyAt_disjoint]
      omega

theorem insert_capacity (h : p.insertWithMeta m d = .ok (i, p')) {j : Nat} (hj : j ≠ i) :
    p'.capacity j = p.capacity j := by
  simp [capacity, insert_slot_cases h j, hj]

end

/-! ## Overwriting metadata -/

theorem existingSlot_ok {p : TablePage} {i : Nat} {s : Slot} : p.existingSlot i = .ok s ↔ p.slot i = some s := by
  unfold existingSlot
  cases p.slot i <;> simp

theorem set_slot_cases {l : List Slot} {i : Nat} {s t : Slot} (hs : l[i]? = some s) (j : Nat) :
    (l.set i t)[j]? = if j = i then some t else l[j]? := by
  have hi := (List.getElem?_eq_some_iff.mp hs).1
  rw [List.getElem?_set]
  by_cases hj : j = i
  · subst hj; simp [hi]
  · simp [hj, Ne.symm hj]

theorem sum_capacity {l : List Slot} {i : Nat} {s : Slot} (hs : l[i]? = some s) :
    (l.map Slot.capacity).sum = s.capacity + ((l.eraseIdx i).map Slot.capacity).sum := by
  obtain ⟨hi, rfl⟩ := List.getElem?_eq_some_iff.mp hs
  rw [((List.getElem_cons_eraseIdx_perm hi).map Slot.capacity).sum_eq.symm]
  simp

theorem countP_set_deleted {l : List Slot} {i : Nat} {s t : Slot} (hs : l[i]? = some s) {n : Nat}
    (h : deletedCount (l.countP fun s => s.tmeta.isDeleted) s.tmeta.isDeleted t.tmeta.isDeleted = some n) :
    n = (l.set i t).countP fun s => s.tmeta.isDeleted := by
  obtain ⟨hi, rfl⟩ := List.getElem?_eq_some_iff.mp hs
  rw [List.countP_set hi]
  cases h1 : l[i].tmeta.isDeleted <;> cases h2 : t.tmeta.isDeleted <;>
    simp only [h1, h2, deletedCount] at h <;> (try split at h) <;> (try cases h) <;> simp
  have : 0 < l.countP fun s => s.tmeta.isDeleted := List.countP_pos_iff.mpr ⟨_, List.getElem_mem hi, h1⟩
  omega

theorem updateMeta_ok {p p' : TablePage} {i : Nat} {m : TupleMeta} (h : p.updateMeta i m = .ok p') :
    ∃ s n, p.slot i = some s ∧ deletedCount p.numDeleted s.tmeta.isDeleted m.isDeleted = some n ∧
      p' = { p with numDeleted := n, slots := p.slots.set i { s with tmeta := m } } := by
  unfold updateMeta at h
  split at h
  · cases h
  · rename_i s hs
    split at h
    · cases h
    · rename_i n hn
      cases h
      exact ⟨s, n, existingSlot_ok.mp hs, hn, rfl⟩

theorem Wf.updateMeta_succeeds {p : TablePage} (hw : p.Wf) {i : Nat} {s : Slot} (hs : p.slot i = some s)
    (m : TupleMeta) : ∃ p', p.updateMeta i m = .ok p' := by
  obtain ⟨hi, hsi⟩ := List.getElem?_eq_some_iff.mp hs
  have hle : p.numDeleted ≤ 481 := by
    rw [hw.deleted]; exact Nat.le_trans List.countP_le_length hw.numTuples_le
  unfold updateMeta
  rw [existingSlot_ok.mpr hs]
  cases h1 : s.tmeta.isDeleted with
  | false =>
    cases h2 : m.isDeleted with
    | false => simp [deletedCount, h1]
    | true =>
      have : p.numDeleted + 1 ≤ 65535 := by omega
      simp [deletedCount, h1, this]
  | true =>
    cases h2 : m.isDeleted with
    | false =>
      have : 1 ≤ p.numDeleted := by
        rw [hw.deleted]
        exact List.countP_pos_iff.mpr ⟨s, hsi ▸ List.getElem_mem hi, h1⟩
      simp [deletedCount, h1, this]
    | true => simp [deletedCount, h1]

section
variable {p p' : TablePage} {i : Nat} {m : TupleMeta}

theorem updateMeta_slot (h : p.updateMeta i m = .ok p') (j : Nat) :
    p'.slot j = if j = i then (p.slot i).map fun s => { s with tmeta := m } else p.slot j := by
  obtain ⟨s, n, hs, _, rfl⟩ := updateMeta_ok h
  unfold slot at hs ⊢
  rw [set_slot_cases hs j, hs]
  rfl

theorem updateMeta_wf (hw : p.Wf) (h : p.updateMeta i m = .ok p') : p'.Wf := by
  have hslot : ∀ j t, p'.slot j = some t → ∃ s, p.slot j = some s ∧ t.offset = s.offset ∧
      t.size = s.size ∧ t.capacity = s.capacity := by
    intro j t ht
    rw [updateMeta_slot h j] at ht
    split at ht
    · rename_i hj
      subst hj
      obtain ⟨s, hs, rfl⟩ := Option.map_eq_some_iff.mp ht
      exact ⟨s, hs, rfl, rfl, rfl⟩
    · exact ⟨t, ht, rfl, rfl, rfl⟩
  obtain ⟨s, n, hs, hn, rfl⟩ := updateMeta_ok h
  constructor
  · have := hw.dir
    simpa [directoryEnd, numTuples] using this
  · exact hw.free
  · intro j t ht _
    obtain ⟨s, hs, _, h2, h3⟩ := hslot j t ht
    rw [h2, h3]; exact hw.size j s hs (by simp)
  · intro j t ht
    obtain ⟨s, hs, h1, _, h3⟩ := hslot j t ht
    rw [h1, h3]; exact hw.cap j s hs
  · intro j t ht
    obtain ⟨s, hs, h1, _, h3⟩ := hslot j t ht
    unfold Slot.regionStart
    rw [h1, h3]; exact hw.low j s hs
  · intro j t ht
    obtain ⟨s, hs, h1, _, _⟩ := hslot j t ht
    rw [h1]; exact hw.high j s hs
  · intro j k t u ht hu hjk
    obtain ⟨s, hs, h1, _, h3⟩ := hslot j t ht
    obtain ⟨v, hv, h4, _, h6⟩ := hslot k u hu
    unfold Apart Slot.regionStart
    rw [h1, h3, h4, h6]; exact hw.apart j k s v hs hv hjk
  · have hr := hw.room
    rw [sum_capacity hs] at hr
    simp only
    have hset : (p.slots.set i { s with tmeta := m })[i]? = some { s with tmeta := m } := by
      rw [set_slot_cases hs i]; simp
    rw [sum_capacity hset, List.eraseIdx_set_eq]
    exact hr
  · rw [hw.deleted] at hn
    exact countP_set_deleted hs hn

theorem updateMeta_view (h : p.updateMeta i m = .ok p') (j : Nat) :
    p'.view j = if j = i then (p.view i).map fun v => (m, v.2) else p.view j := by
  unfold view
  rw [updateMeta_slot h j]
  obtain ⟨s, n, hs, _, rfl⟩ := updateMeta_ok h
  by_cases hj : j = i
  · subst hj; simp [hs, Slot.regionStart]
  · simp [hj]

theorem updateMeta_capacity (h : p.updateMeta i m = .ok p') (j : Nat) : p'.capacity j = p.capacity j := by
  unfold capacity
  rw [updateMeta_slot h j]
  by_cases hj : j = i
  · subst hj; simp [Function.comp_def]
  · simp [hj]

end

end TablePage

end Cmudb
