import Cmudb.TablePageSound

/-!
# Updating a tuple in place

`updateInPlace` writes over the old tuple when the slot's capacity holds the
new one. Otherwise the slot gets a new region from the free space, after
packing every other region against the end of the page when the free space is
too small. No path disturbs another slot or shrinks a capacity.
-/

namespace Cmudb

open Lib

namespace TablePage

/-! ## Compaction -/

def packSize (skip : Nat) : Nat → List Slot → Nat
  | _, [] => 0
  | i, s :: rest => (if i = skip then 0 else s.capacity) + packSize skip (i + 1) rest

theorem packSize_past (skip : Nat) : ∀ (l : List Slot) (i : Nat), skip < i →
    packSize skip i l = (l.map Slot.capacity).sum
  | [], _, _ => rfl
  | s :: l, i, h => by
    rw [packSize, if_neg (Nat.ne_of_gt h), packSize_past skip l (i + 1) (Nat.lt_succ_of_lt h)]
    simp

theorem packSize_eq (skip : Nat) : ∀ (l : List Slot) (i : Nat), i ≤ skip →
    packSize skip i l = ((l.eraseIdx (skip - i)).map Slot.capacity).sum
  | [], _, _ => rfl
  | s :: l, i, h => by
    rw [packSize]
    by_cases hi : i = skip
    · subst hi
      rw [if_pos rfl, packSize_past i l (i + 1) (Nat.lt_succ_self i)]
      simp
    · have hs : skip - i = (skip - (i + 1)) + 1 := by omega
      rw [if_neg hi, packSize_eq skip l (i + 1) (by omega), hs]
      simp

/-- What packing the slots `l`, numbered from `i` on, below `fin` leaves behind. -/
structure Packed (old : Buf) (skip i fin : Nat) (l : List Slot) (b : Buf) (l' : List Slot) (fin' : Nat)
    (b' : Buf) : Prop where
  length : l'.length = l.length
  fin_eq : fin' + packSize skip i l = fin
  outside : ∀ x, x < fin' ∨ fin ≤ x → b' x = b x
  slot : ∀ (j : Nat) (s : Slot), l[j]? = some s → ∃ s', l'[j]? = some s' ∧ s'.tmeta = s.tmeta ∧ s'.size = s.size ∧
    s'.capacity = (if i + j = skip then 0 else s.capacity) ∧ s'.capacity ≤ s'.offset ∧
    fin' ≤ s'.regionStart ∧ s'.offset ≤ fin ∧
    (i + j ≠ skip → ∀ k < s.capacity, b' (s'.regionStart + k) = old (s.regionStart + k))
  below : ∀ (j k : Nat) (s t : Slot), j < k → l'[j]? = some s → l'[k]? = some t → t.offset ≤ s.regionStart

theorem Packed.get {old : Buf} {skip i fin fin' : Nat} {l l' : List Slot} {b b' : Buf}
    (h : Packed old skip i fin l b l' fin' b') {k : Nat} {t : Slot} (ht : l'[k]? = some t) : t.offset ≤ fin := by
  have hk := (List.getElem?_eq_some_iff.mp ht).1
  rw [h.length] at hk
  obtain ⟨v', hv', _, _, _, _, _, hle, _⟩ := h.slot k l[k] (List.getElem?_eq_getElem hk)
  rw [hv'] at ht
  cases ht
  exact hle

theorem packFrom_packed (old : Buf) (skip : Nat) : ∀ (l : List Slot) (i fin : Nat) (b : Buf) (l' : List Slot)
    (fin' : Nat) (b' : Buf), packFrom old skip i fin l b = (l', fin', b') → packSize skip i l ≤ fin →
    Packed old skip i fin l b l' fin' b'
  | [], i, fin, b, l', fin', b', he, _ => by
    cases he
    constructor <;> simp [packSize]
  | s :: l, i, fin, b, l', fin', b', he, h => by
    rw [packSize] at h
    by_cases hi : i = skip
    · -- the skipped slot keeps its place in the directory with an empty region
      rw [if_pos hi] at h
      obtain ⟨l₁, f₁, b₁, hrec⟩ : ∃ l₁ f₁ b₁, packFrom old skip (i + 1) fin l b = (l₁, f₁, b₁) := ⟨_, _, _, rfl⟩
      have ih := packFrom_packed old skip l (i + 1) fin b l₁ f₁ b₁ hrec (by omega)
      rw [packFrom, if_pos hi, hrec] at he
      cases he
      have hfin := ih.fin_eq
      constructor
      · simp [ih.length]
      · rw [packSize, if_pos hi]; omega
      · exact ih.outside
      · intro j t hj
        cases j with
        | zero =>
          cases hj
          exact ⟨_, rfl, rfl, rfl, by simp [hi], by simp, by simp only [Slot.regionStart]; omega,
            Nat.le_refl _, fun hn => absurd hi hn⟩
        | succ j =>
          obtain ⟨t', ht'⟩ := ih.slot j t hj
          rw [show i + 1 + j = i + (j + 1) by omega] at ht'
          exact ⟨t', ht'⟩
      · intro j k t u hjk ht hu
        cases k with
        | zero => omega
        | succ k =>
          cases j with
          | zero => cases ht; simpa [Slot.regionStart] using ih.get hu
          | succ j => exact ih.below j k t u (by omega) ht hu
    · rw [if_neg hi] at h
      obtain ⟨l₁, f₁, b₁, hrec⟩ : ∃ l₁ f₁ b₁, packFrom old skip (i + 1) (fin - s.capacity) l
          (copyAt b (fin - s.capacity) (readAt old s.regionStart s.capacity)) = (l₁, f₁, b₁) := ⟨_, _, _, rfl⟩
      have ih := packFrom_packed old skip l (i + 1) (fin - s.capacity) _ l₁ f₁ b₁ hrec (by omega)
      simp only [packFrom, if_neg hi, hrec] at he
      cases he
      have hfin := ih.fin_eq
      constructor
      · simp [ih.length]
      · rw [packSize, if_neg hi]; omega
      · intro x hx
        rw [ih.outside x (by omega)]
        apply copyAt_outside
        rw [readAt_length]; omega
      · intro j t hj
        cases j with
        | zero =>
          cases hj
          refine ⟨_, rfl, rfl, rfl, by simp [hi], by simp only; omega,
            by simp only [Slot.regionStart]; omega, Nat.le_refl _, fun _ k hk => ?_⟩
          -- the packed copy is not touched by the slots packed below it
          rw [ih.outside _ (by simp only [Slot.regionStart]; omega)]
          simp only [Slot.regionStart]
          rw [copyAt_inside _ _ _ _ (by rw [readAt_length]; exact hk), readAt_getD _ _ _ _ hk]
        | succ j =>
          obtain ⟨t', h1, h2, h3, h4, h5, h6, h7, h8⟩ := ih.slot j t hj
          rw [show i + 1 + j = i + (j + 1) by omega] at h4 h8
          exact ⟨t', h1, h2, h3, h4, h5, h6, by omega, h8⟩
      · intro j k t u hjk ht hu
        cases k with
        | zero => omega
        | succ k =>
          cases j with
          | zero => cases ht; simpa [Slot.regionStart] using ih.get hu
          | succ j => exact ih.below j k t u (by omega) ht hu

/-! ## Making room -/

section
variable {p : TablePage} {i : Nat} {s : Slot}

theorem claim_slot (hs : p.slot i = some s) (size j : Nat) :
    (p.claimFreeRegion i size).slot j =
      if j = i then some { s with offset := p.freeSpaceOffset, capacity := size } else p.slot j := by
  unfold claimFreeRegion slot at *
  simp only [List.getElem?_modify]
  by_cases hj : j = i
  · subst hj; simp [hs]
  · simp [hj, Ne.symm hj]

/-- A region taken from the free space keeps the page invariant, but for the size of its slot. -/
theorem claim_wf {i size : Nat} (hw : p.WfBut (some i)) (hs : p.slot i = some s) (hsize : size ≤ p.freeBytes)
    (hroom : size + p.otherRegions i ≤ pageSize - (p.freeSpaceOffset - size)) :
    (p.claimFreeRegion i size).WfBut (some i) := by
  have hslot := claim_slot hs size
  have hdir := hw.dir
  have hfree := hw.free
  unfold freeBytes at hsize
  have hnum : (p.claimFreeRegion i size).numTuples = p.numTuples := by
    simp [claimFreeRegion, numTuples]
  have hfs : (p.claimFreeRegion i size).freeSpaceOffset = p.freeSpaceOffset - size := rfl
  constructor
  · unfold directoryEnd at hdir hsize ⊢
    rw [hnum, hfs]; omega
  · rw [hfs]; omega
  · intro j t ht hj
    rw [hslot j, if_neg (fun h => hj (congrArg some h))] at ht
    exact hw.size j t ht hj
  · intro j t ht
    rw [hslot j] at ht
    split at ht
    · cases ht; simp only; omega
    · exact hw.cap j t ht
  · intro j t ht
    rw [hslot j] at ht
    rw [hfs]
    split at ht
    · cases ht; exact Nat.le_refl _
    · have := hw.low j t ht; omega
  · intro j t ht
    rw [hslot j] at ht
    split at ht
    · cases ht; exact hfree
    · exact hw.high j t ht
  · intro j k t u ht hu hjk
    rw [hslot j] at ht
    rw [hslot k] at hu
    split at ht
    · split at hu
      · omega
      · cases ht; exact Or.inl (hw.low k u hu)
    · split at hu
      · cases hu; exact Or.inr (hw.low j t ht)
      · exact hw.apart j k t u ht hu hjk
  · have hsi := hslot i
    rw [if_pos rfl] at hsi
    rw [sum_capacity hsi, hfs]
    have : ((p.claimFreeRegion i size).slots.eraseIdx i) = p.slots.eraseIdx i := by
      simp only [claimFreeRegion]
      rw [List.eraseIdx_modify_of_eq]
    rw [this]
    exact hroom
  · rw [show (p.claimFreeRegion i size).numDeleted = p.numDeleted from rfl, hw.deleted]
    obtain ⟨hi, rfl⟩ := List.getElem?_eq_some_iff.mp hs
    simp only [claimFreeRegion]
    rw [List.modify_eq_set_get _ hi, List.get_eq_getElem, List.countP_set hi]
    have : p.slots[i].tmeta.isDeleted = true → 0 < p.slots.countP fun s => s.tmeta.isDeleted :=
      fun h => List.countP_pos_iff.mpr ⟨_, List.getElem_mem hi, h⟩
    split
    · rename_i h; have := this h; omega
    · omega

/-- What compaction leaves of a page that has room for the other slots' regions. -/
theorem compactWithout_packed (hroom : p.otherRegions i ≤ pageSize) :
    Packed p.buf i 0 pageSize p.slots p.buf (p.compactWithout i).slots (p.compactWithout i).freeSpaceOffset
      (p.compactWithout i).buf ∧ (p.compactWithout i).freeSpaceOffset + p.otherRegions i = pageSize := by
  have hsize : packSize i 0 p.slots = p.otherRegions i := by
    rw [packSize_eq i p.slots 0 (Nat.zero_le _)]; rfl
  obtain ⟨l, f, b, he⟩ : ∃ l f b, packFrom p.buf i 0 pageSize p.slots p.buf = (l, f, b) := ⟨_, _, _, rfl⟩
  have hp := packFrom_packed p.buf i p.slots 0 pageSize p.buf l f b he (hsize ▸ hroom)
  simp only [compactWithout, he]
  refine ⟨hp, ?_⟩
  rw [← hsize]; exact hp.fin_eq

theorem compact_packed (hw : p.Wf) (hs : p.slot i = some s) :
    Packed p.buf i 0 pageSize p.slots p.buf (p.compactWithout i).slots (p.compactWithout i).freeSpaceOffset
      (p.compactWithout i).buf ∧ (p.compactWithout i).freeSpaceOffset + p.otherRegions i = pageSize := by
  apply compactWithout_packed
  have := hw.room
  rw [sum_capacity hs] at this
  unfold otherRegions
  omega

theorem compact_slot (hw : p.Wf) (hs : p.slot i = some s) {j : Nat} {t : Slot}
    (ht : (p.compactWithout i).slot j = some t) : ∃ u, p.slot j = some u := by
  have hp := (compact_packed hw hs).1
  have := (List.getElem?_eq_some_iff.mp ht).1
  rw [hp.length] at this
  exact ⟨_, List.getElem?_eq_getElem this⟩

theorem compact_view (hw : p.Wf) (hs : p.slot i = some s) {j : Nat} (hj : j ≠ i) :
    (p.compactWithout i).view j = p.view j ∧ (p.compactWithout i).capacity j = p.capacity j := by
  have hp := (compact_packed hw hs).1
  cases ht : p.slot j with
  | none =>
    have hlen := hp.length
    have : (p.compactWithout i).slot j = none := by
      unfold slot at ht ⊢
      rw [List.getElem?_eq_none_iff] at ht ⊢
      rw [hlen]; exact ht
    simp [view, capacity, ht, this]
  | some t =>
    obtain ⟨t', h1, h2, h3, h4, _, _, _, h8⟩ := hp.slot j t ht
    rw [Nat.zero_add] at h4 h8
    rw [if_neg hj] at h4
    rw [view_of_slot ht, view_of_slot (p := p.compactWithout i) h1, capacity_of_slot ht,
      capacity_of_slot (p := p.compactWithout i) h1, h2, h3, h4]
    refine ⟨?_, rfl⟩
    have := hw.size j t ht (by simp)
    rw [readAt_congr fun k hk => h8 hj k (by omega)]

theorem compact_otherRegions (hw : p.Wf) (hs : p.slot i = some s) :
    (p.compactWithout i).otherRegions i = p.otherRegions i := by
  have hp := (compact_packed hw hs).1
  have hcap : ∀ j, j ≠ i →
      ((p.compactWithout i).slots.map Slot.capacity)[j]? = (p.slots.map Slot.capacity)[j]? := by
    intro j hj
    rw [List.getElem?_map, List.getElem?_map]
    cases ht : p.slots[j]? with
    | none =>
      have : (p.compactWithout i).slots[j]? = none := by
        rw [List.getElem?_eq_none_iff] at ht ⊢
        rw [hp.length]; exact ht
      rw [this]
    | some t =>
      obtain ⟨t', h1, _, _, h4, _⟩ := hp.slot j t ht
      rw [Nat.zero_add, if_neg hj] at h4
      rw [h1, Option.map_some, Option.map_some, h4]
  unfold otherRegions
  rw [← List.eraseIdx_map, ← List.eraseIdx_map]
  congr 1
  apply List.ext_getElem?
  intro k
  rw [List.getElem?_eraseIdx, List.getElem?_eraseIdx]
  split
  · exact hcap k (by omega)
  · exact hcap (k + 1) (by omega)

theorem compact_wf (hw : p.Wf) (hs : p.slot i = some s)
    (hdir : p.directoryEnd ≤ pageSize - p.otherRegions i) : (p.compactWithout i).WfBut (some i) := by
  obtain ⟨hp, hfree⟩ := compact_packed hw hs
  have hslot : ∀ j t, (p.compactWithout i).slot j = some t → ∃ u, p.slot j = some u ∧ t.tmeta = u.tmeta ∧
      t.size = u.size ∧ t.capacity = (if j = i then 0 else u.capacity) ∧ t.capacity ≤ t.offset ∧
      (p.compactWithout i).freeSpaceOffset ≤ t.regionStart ∧ t.offset ≤ pageSize := by
    intro j t ht
    obtain ⟨u, hu⟩ := compact_slot hw hs ht
    obtain ⟨t', h1, h2, h3, h4, h5, h6, h7, _⟩ := hp.slot j u hu
    unfold slot at ht
    rw [h1] at ht
    cases ht
    rw [Nat.zero_add] at h4
    exact ⟨u, hu, h2, h3, h4, h5, h6, h7⟩
  have hlen : (p.compactWithout i).numTuples = p.numTuples := hp.length
  constructor
  · unfold directoryEnd at hdir ⊢
    rw [hlen]; omega
  · omega
  · intro j t ht hj
    obtain ⟨u, hu, _, h3, h4, _⟩ := hslot j t ht
    rw [h3, h4, if_neg (fun h => hj (congrArg some h))]
    exact hw.size j u hu (by simp)
  · intro j t ht
    obtain ⟨_, _, _, _, _, h, _⟩ := hslot j t ht
    exact h
  · intro j t ht
    obtain ⟨_, _, _, _, _, _, h, _⟩ := hslot j t ht
    exact h
  · intro j t ht
    obtain ⟨_, _, _, _, _, _, _, h⟩ := hslot j t ht
    exact h
  · intro j k t u ht hu hjk
    rcases Nat.lt_or_gt_of_ne hjk with h | h
    · exact Or.inr (hp.below j k t u h ht hu)
    · exact Or.inl (hp.below k j u t h hu ht)
  · obtain ⟨s', h1, _, _, h4, _⟩ := hp.slot i s hs
    rw [Nat.zero_add, if_pos rfl] at h4
    rw [sum_capacity h1, h4]
    have hother := compact_otherRegions hw hs
    unfold otherRegions at hother hfree
    omega
  · rw [show (p.compactWithout i).numDeleted = p.numDeleted from rfl, hw.deleted]
    have : (p.compactWithout i).slots.map (fun s => s.tmeta.isDeleted) = p.slots.map fun s =>
        s.tmeta.isDeleted := by
      apply List.ext_getElem?
      intro j
      rw [List.getElem?_map, List.getElem?_map]
      cases ht : p.slots[j]? with
      | none =>
        have : (p.compactWithout i).slots[j]? = none := by
          rw [List.getElem?_eq_none_iff] at ht ⊢
          rw [hp.length]; exact ht
        rw [this]
      | some t =>
        obtain ⟨t', h1, h2, _⟩ := hp.slot j t ht
        rw [h1, Option.map_some, Option.map_some, h2]
    have hc := congrArg (List.countP id) this
    rw [List.countP_map, List.countP_map] at hc
    exact hc.symm

theorem makeRoom_spec (hw : p.Wf) {i len : Nat} (hs : p.slot i = some s) {pl : Placement}
    (hp : p.place s i len = .ok pl) :
    (p.makeRoom i len pl).WfBut (some i) ∧
      (∃ s', (p.makeRoom i len pl).slot i = some s' ∧ s'.tmeta = s.tmeta ∧ len ≤ s'.capacity ∧
        s.capacity ≤ s'.capacity) ∧
      ∀ j, j ≠ i → (p.makeRoom i len pl).view j = p.view j ∧ (p.makeRoom i len pl).capacity j = p.capacity j := by
  have hbut : p.WfBut (some i) :=
    ⟨hw.dir, hw.free, fun j t ht _ => hw.size j t ht (by simp), hw.cap, hw.low, hw.high, hw.apart,
      hw.room, hw.deleted⟩
  have hroom := hw.room
  rw [sum_capacity hs] at hroom
  unfold place at hp
  split at hp
  · rename_i hle
    cases hp
    exact ⟨hbut, ⟨s, hs, rfl, hle, Nat.le_refl _⟩, fun j _ => ⟨rfl, rfl⟩⟩
  · rename_i hcap
    split at hp
    · rename_i hfree
      cases hp
      have hfree' := hfree
      unfold freeBytes at hfree'
      have hfs := hw.free
      simp only [makeRoom]
      refine ⟨claim_wf hbut hs hfree (by unfold otherRegions; omega), ⟨_, (claim_slot hs len i).trans (if_pos rfl),
        rfl, Nat.le_refl _, Nat.le_of_not_le hcap⟩, fun j hj => ?_⟩
      have hj' := claim_slot hs len j
      rw [if_neg hj] at hj'
      simp only [view, capacity, hj']
      exact ⟨rfl, trivial⟩
    · simp only at hp
      split at hp
      · rename_i hav
        cases hp
        have hdir := hw.dir
        have hfs := hw.free
        have hcw := compact_wf hw hs (by omega)
        obtain ⟨hpk, hfree⟩ := compact_packed hw hs
        obtain ⟨s', hs', htm, _, hc0, _⟩ := hpk.slot i s hs
        have hdirc : (p.compactWithout i).directoryEnd = p.directoryEnd := by
          unfold directoryEnd numTuples; rw [hpk.length]
        have hothers := compact_otherRegions hw hs
        have hfit : len ≤ (p.compactWithout i).freeBytes := by
          unfold freeBytes; rw [hdirc]; omega
        simp only [makeRoom]
        refine ⟨claim_wf hcw hs' hfit (by rw [hothers]; omega), ⟨_, (claim_slot hs' len i).trans (if_pos rfl),
          htm, Nat.le_refl _, Nat.le_of_not_le hcap⟩, fun j hj => ?_⟩
        have hj' := claim_slot (p := p.compactWithout i) hs' len j
        rw [if_neg hj] at hj'
        have hcv := compact_view hw hs hj
        unfold view capacity at hcv ⊢
        rw [hj']
        exact hcv
      · cases hp

/-! ## Writing the tuple -/

end

section
variable {p : TablePage} {i : Nat} {s : Slot} {d : Bytes}

theorem writeTuple_slot (hs : p.slot i = some s) (j : Nat) :
    (p.writeTuple i d).slot j = if j = i then some { s with size := d.length } else p.slot j := by
  unfold writeTuple
  rw [hs]
  exact set_slot_cases hs j

theorem writeTuple_wf (hw : p.WfBut (some i)) (hs : p.slot i = some s) (hd : d.length ≤ s.capacity) :
    (p.writeTuple i d).Wf := by
  have hslot : ∀ j t, (p.writeTuple i d).slot j = some t → ∃ u, p.slot j = some u ∧ t.offset = u.offset ∧
      t.capacity = u.capacity ∧ t.size ≤ u.capacity := by
    intro j t ht
    rw [writeTuple_slot hs j] at ht
    split at ht
    · rename_i hj
      subst hj
      cases ht
      exact ⟨s, hs, rfl, rfl, hd⟩
    · rename_i hj
      exact ⟨t, ht, rfl, rfl, hw.size j t ht (fun h => hj (Option.some.inj h))⟩
  have he : p.writeTuple i d =
      { p with buf := copyAt p.buf s.regionStart d, slots := p.slots.set i { s with size := d.length } } := by
    unfold writeTuple; rw [hs]
  constructor
  · have := hw.dir
    rw [he]; simpa [directoryEnd, numTuples] using this
  · rw [he]; exact hw.free
  · intro j t ht _
    obtain ⟨u, _, _, h3, h4⟩ := hslot j t ht
    rw [h3]; exact h4
  · intro j t ht
    obtain ⟨u, hu, h2, h3, _⟩ := hslot j t ht
    rw [h2, h3]; exact hw.cap j u hu
  · intro j t ht
    obtain ⟨u, hu, h2, h3, _⟩ := hslot j t ht
    unfold Slot.regionStart
    rw [he, h2, h3]; exact hw.low j u hu
  · intro j t ht
    obtain ⟨u, hu, h2, _, _⟩ := hslot j t ht
    rw [h2]; exact hw.high j u hu
  · intro j k t u ht hu hjk
    obtain ⟨t', ht', h2, h3, _⟩ := hslot j t ht
    obtain ⟨u', hu', h5, h6, _⟩ := hslot k u hu
    unfold Apart Slot.regionStart
    rw [h2, h3, h5, h6]; exact hw.apart j k t' u' ht' hu' hjk
  · have hsi := writeTuple_slot (d := d) hs i
    rw [if_pos rfl] at hsi
    have hr := hw.room
    rw [sum_capacity hs] at hr
    rw [sum_capacity hsi]
    rw [he]
    simp only [List.eraseIdx_set_eq]
    exact hr
  · obtain ⟨hi, rfl⟩ := List.getElem?_eq_some_iff.mp hs
    have : p.slots[i].tmeta.isDeleted = true → 0 < p.slots.countP fun s => s.tmeta.isDeleted :=
      fun h => List.countP_pos_iff.mpr ⟨_, List.getElem_mem hi, h⟩
    rw [he]
    simp only [hw.deleted]
    rw [List.countP_set hi]
    split
    · rename_i h; have := this h; omega
    · omega

theorem writeTuple_view (hw : p.WfBut (some i)) (hs : p.slot i = some s) (hd : d.length ≤ s.capacity) (j : Nat) :
    (p.writeTuple i d).view j = if j = i then some (s.tmeta, d) else p.view j := by
  have hslot := writeTuple_slot (d := d) hs j
  have hbuf : (p.writeTuple i d).buf = copyAt p.buf s.regionStart d := by
    unfold writeTuple; rw [hs]
  by_cases hj : j = i
  · rw [if_pos hj] at hslot ⊢
    rw [view_of_slot hslot, hbuf]
    simp only [Slot.regionStart]
    rw [readAt_copyAt]
  · rw [if_neg hj] at hslot ⊢
    cases ht : p.slot j with
    | none => rw [ht] at hslot; simp [view, hslot, ht]
    | some t =>
      rw [ht] at hslot
      rw [view_of_slot hslot, view_of_slot ht, hbuf]
      have h1 := hw.size j t ht (fun h => hj (Option.some.inj h))
      have h2 := hw.cap j t ht
      have h3 := hw.cap i s hs
      have h4 := hw.apart j i t s ht hs hj
      rw [readAt_copyAt_disjoint]
      unfold Apart Slot.regionStart at h4
      unfold Slot.regionStart
      omega

theorem writeTuple_capacity (hs : p.slot i = some s) (j : Nat) :
    (p.writeTuple i d).capacity j = p.capacity j := by
  unfold capacity
  rw [writeTuple_slot hs j]
  split
  · rename_i hj; subst hj; simp [hs]
  · rfl

/-! ## The whole update -/

theorem place_congr {p p' : TablePage} {i len : Nat} {m : TupleMeta} (hs : p.slot i = some s)
    (h : p.updateMeta i m = .ok p') : p'.place { s with tmeta := m } i len = p.place s i len := by
  obtain ⟨t, n, ht, _, rfl⟩ := updateMeta_ok h
  rw [hs] at ht
  cases ht
  unfold place freeBytes directoryEnd numTuples otherRegions
  simp only [List.length_set, List.eraseIdx_set_eq]

theorem updateInPlace_ok {p p' : TablePage} {m : TupleMeta} {d : Bytes} (h : p.updateInPlace i m d = .ok p') :
    ∃ s pl q, p.slot i = some s ∧ d.length ≤ maxTupleSize ∧ p.place s i d.length = .ok pl ∧
      p.updateMeta i m = .ok q ∧ p' = (q.makeRoom i d.length pl).writeTuple i d := by
  unfold updateInPlace at h
  split at h
  · cases h
  · rename_i s hs
    split at h
    · cases h
    · split at h
      · cases h
      · rename_i n hn
        split at h
        · cases h
        · rename_i pl hpl
          split at h
          · cases h
          · rename_i q hq
            cases h
            obtain ⟨rfl, hle⟩ := tupleLen_ok hn
            exact ⟨s, pl, q, existingSlot_ok.mp hs, hle, hpl, hq, rfl⟩

theorem updateInPlace_spec {p p' : TablePage} (hw : p.Wf) {m : TupleMeta} {d : Bytes}
    (h : p.updateInPlace i m d = .ok p') :
    p'.Wf ∧ (∀ j, p'.view j = if j = i then some (m, d) else p.view j) ∧ ∀ j, p.capacity j ≤ p'.capacity j := by
  obtain ⟨s, pl, q, hs, _, hpl, hq, rfl⟩ := updateInPlace_ok h
  have hqw := updateMeta_wf hw hq
  have hqs : q.slot i = some { s with tmeta := m } := by rw [updateMeta_slot hq i, if_pos rfl, hs]; rfl
  obtain ⟨hrw, ⟨s', hs', htm, hlen, hcap⟩, hoth⟩ := makeRoom_spec hqw hqs ((place_congr hs hq).trans hpl)
  refine ⟨writeTuple_wf hrw hs' hlen, fun j => ?_, fun j => ?_⟩
  · rw [writeTuple_view hrw hs' hlen j]
    by_cases hj : j = i
    · rw [if_pos hj, if_pos hj, htm]
    · rw [if_neg hj, if_neg hj, (hoth j hj).1, updateMeta_view hq j, if_neg hj]
  · rw [writeTuple_capacity hs' j]
    by_cases hj : j = i
    · subst hj
      rw [capacity_of_slot hs, capacity_of_slot hs']
      exact hcap
    · rw [(hoth j hj).2, updateMeta_capacity hq j]

/-- A tuple no longer than the slot's capacity is always written: this is what an abort relies on. -/
theorem updateInPlace_fits (hw : p.Wf) (hs : p.slot i = some s) (m : TupleMeta) {d : Bytes}
    (hd : d.length ≤ p.capacity i) : ∃ p', p.updateInPlace i m d = .ok p' := by
  have hmax := Nat.le_trans hd (hw.capacity_le i)
  rw [capacity_of_slot hs] at hd
  obtain ⟨q, hq⟩ := hw.updateMeta_succeeds hs m
  unfold updateInPlace
  rw [existingSlot_ok.mpr hs]
  simp only
  rw [hw.checkRegion hs (by simp), tupleLen_of_le hmax]
  have hpl : p.place s i d.length = .ok .inPlace := by unfold place; rw [if_pos hd]
  simp only
  rw [hpl, hq]
  exact ⟨_, rfl⟩

end

end TablePage

end Cmudb
