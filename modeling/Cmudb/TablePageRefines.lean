import Cmudb.TablePageHolds

/-!
# Table pages do on their bytes what they say

Each function of a buffer that holds a page refines the function of the page:
it ends in the same error with the buffer as it was, or in a buffer that holds
the page the function gives.
-/

namespace Cmudb

open Lib

namespace RawTablePage

open TablePage (headerSize slotSize tupleLen Placement)

/-! ## Steps -/

section

variable {α β : Type} {x : PageM α} {f : α → PageM β} {b b' : Bytes} {a : α} {e : TablePageError}

theorem bind_ok (h : x b = some (.ok a, b')) : (x >>= f) b = f a b' := by
  show PageM.bind x f b = _
  simp only [PageM.bind, h]

theorem bind_error (h : x b = some (.error e, b')) : (x >>= f) b = some (.error e, b') := by
  show PageM.bind x f b = _
  simp only [PageM.bind, h]

theorem bind_panic (h : x b = none) : (x >>= f) b = none := by
  show PageM.bind x f b = _
  simp only [PageM.bind, h]

theorem get_eq {g : Bytes → Option α} (h : g b = some a) : get g b = some (.ok a, b) := by
  rw [get, h]
  rfl

theorem check_eq {g : Bytes → Option (Except TablePageError α)} {r : Except TablePageError α} (h : g b = some r) :
    check g b = some (r, b) := by
  rw [check, h]
  rfl

theorem write_eq {g : Bytes → Option Bytes} (h : g b = some b') : write g b = some (.ok (), b') := by
  rw [write, h]
  rfl

theorem write_put {off : Nat} {bs : Bytes} (h : off + bs.length ≤ b.length) :
    write (fun b => put b off bs) b = some (.ok (), patch b off bs) :=
  write_eq (put_eq h)

theorem write_u16 {off v : Nat} (h : off + 2 ≤ b.length) :
    write (fun b => putU16Le b off v) b = some (.ok (), patch b off (leBytes 2 v)) :=
  write_eq (put_eq (by rw [leBytes_length]; exact h))

theorem write_u32 {off v : Nat} (h : off + 4 ≤ b.length) :
    write (fun b => putU32Le b off v) b = some (.ok (), patch b off (leBytes 4 v)) :=
  write_eq (put_eq (by rw [leBytes_length]; exact h))

theorem write_u64 {off v : Nat} (h : off + 8 ≤ b.length) :
    write (fun b => putU64Le b off v) b = some (.ok (), patch b off (leBytes 8 v)) :=
  write_eq (put_eq (by rw [leBytes_length]; exact h))

theorem ensure_ok {p : Prop} [Decidable p] (h : p) : ensure p e b = some (.ok (), b) := by
  rw [ensure, if_pos h]

theorem ensure_error {p : Prop} [Decidable p] (h : ¬ p) : ensure p e b = some (.error e, b) := by
  rw [ensure, if_neg h]

end

/-- The step does to the buffer what the function has done to the page it holds. -/
def Refines {α : Type} (r : Option (Except TablePageError α × Bytes)) (b : Bytes) :
    Except TablePageError (α × TablePage) → Prop
  | .error e => r = some (.error e, b)
  | .ok (a, p') => ∃ b', r = some (.ok a, b') ∧ Holds b' p'

namespace Holds

variable {b d : Bytes} {p : TablePage} {i : Nat} {s : Slot} {m : TupleMeta} (h : Holds b p)

include h

/-! ## Reading tuples -/

theorem checkRegion (s : Slot) : checkRegion b s = some (p.checkRegion s) := by
  unfold RawTablePage.checkRegion TablePage.checkRegion
  rw [h.freeSpaceOffset]
  simp only [Option.bind_eq_bind, Option.bind_some, Option.pure_def]
  by_cases hbad : s.size > s.capacity ∨ s.capacity > s.offset
  · rw [if_pos hbad, if_pos (by omega)]
    rfl
  · rw [if_neg hbad, regionStart, minus_of_le (by omega), Option.bind_some, Option.some.injEq,
      show s.offset - s.capacity = s.regionStart from rfl]
    by_cases hout : s.regionStart < p.freeSpaceOffset ∨ s.offset > pageSize
    · rw [if_pos hout, if_pos (by omega)]
      rfl
    · rw [if_neg hout, if_neg (by omega)]

omit h in
theorem slice?_readAt {n : Nat} (hle : i + n ≤ b.length) :
    slice? b i (i + n) = some (readAt (fun j => b.getD j 0) i n) := by
  rw [slice?_eq hle, Option.some.injEq]
  apply List.ext_getElem?
  intro k
  rw [getElem?_slice]
  split
  · rename_i hk
    rw [List.getElem?_eq_getElem (by omega), List.getElem?_eq_getElem (by rw [readAt_length]; exact hk)]
    simp only [readAt, List.getElem_map, List.getElem_range, List.getD_eq_getElem?_getD]
    rw [List.getElem?_eq_getElem (by omega)]
    rfl
  · rename_i hk
    rw [List.getElem?_eq_none (by rw [readAt_length]; omega)]

theorem slice (hdir : p.directoryEnd ≤ i) {n : Nat} (hle : i + n ≤ pageSize) :
    slice? b i (i + n) = some (readAt p.buf i n) := by
  rw [slice?_readAt (by rw [h.length]; exact hle), readAt_congr fun k hk => h.data (i + k) (by omega) (by omega)]

theorem tupleBytes (hv : p.directoryEnd ≤ p.freeSpaceOffset) (s : Slot) :
    tupleBytes b s = some (p.tupleBytes s) := by
  unfold RawTablePage.tupleBytes TablePage.tupleBytes
  rw [h.checkRegion]
  simp only [Option.bind_eq_bind, Option.bind_some]
  cases hc : p.checkRegion s with
  | error e => rfl
  | ok u =>
    unfold TablePage.checkRegion at hc
    split at hc
    · cases hc
    · rename_i hok
      unfold Slot.regionStart at hok
      simp only [tupleRange, regionStart, minus_of_le (show s.capacity ≤ s.offset by omega), Option.bind_eq_bind,
        Option.bind_some, Slot.regionStart]
      rw [h.slice (by omega) (by omega)]
      rfl

theorem canInsert {len : Nat} (hdir : p.directoryEnd ≤ pageSize) (hlen : len < 2 ^ 63) :
    canInsert b len = some (p.canInsert len) := by
  have hsize : slotSize = 17 := rfl
  have hpage : pageSize = 8192 := rfl
  unfold RawTablePage.canInsert
  rw [h.directoryEnd, h.freeSpaceOffset]
  simp only [Option.bind_eq_bind, Option.bind_some, addUsize]
  rw [if_pos (by omega)]
  rfl

theorem existingSlot (hdir : p.directoryEnd ≤ pageSize) (i : Nat) :
    existingSlot i b = some (p.existingSlot i, b) := by
  refine check_eq ?_
  simp only [h.slot hdir i, Option.bind_eq_bind, Option.bind_some]
  unfold TablePage.existingSlot
  cases p.slot i with
  | some s => rfl
  | none =>
    simp only [slotMissing, h.numTuples, Option.bind_eq_bind, Option.bind_some]
    rfl

/-! ## Metadata -/

theorem updateMeta (hdir : p.directoryEnd ≤ pageSize) (hm : m.Stored) :
    Refines (updateMeta i m b) b ((p.updateMeta i m).map fun p' => ((), p')) := by
  have hslot := h.existingSlot hdir i
  unfold RawTablePage.updateMeta TablePage.updateMeta
  cases hs : p.existingSlot i with
  | error e =>
    rw [hs] at hslot
    exact bind_error hslot
  | ok s =>
    rw [hs] at hslot
    rw [TablePage.existingSlot_ok] at hs
    rw [bind_ok hslot, bind_ok (get_eq h.numDeletedTuples)]
    have hcount :=
      check_eq (b := b) (g := fun _ =>
          some (counterOf p.numDeleted i (TablePage.deletedCount p.numDeleted s.tmeta.isDeleted m.isDeleted))) rfl
    have hlt := h.deleted_lt
    cases hd : TablePage.deletedCount p.numDeleted s.tmeta.isDeleted m.isDeleted with
    | none =>
      rw [hd] at hcount
      simp only [hd]
      exact bind_error hcount
    | some n =>
      rw [hd] at hcount
      have hn : n < 2 ^ 16 := by
        unfold TablePage.deletedCount at hd
        split at hd
        all_goals first | (split at hd <;> cases hd <;> omega) | (cases hd; exact hlt)
      have hbase := slotBase_le (TablePage.slot_lt hs)
      have h₁ := h.putTs hdir hs hm.1 hm.2
      have hs₁ : TablePage.slot { p with slots := p.slots.set i { s with tmeta := ⟨m.ts, s.tmeta.isDeleted⟩ } } i =
          some { s with tmeta := ⟨m.ts, s.tmeta.isDeleted⟩ } := (TablePage.set_slot_cases hs i).trans (if_pos rfl)
      have hdir₁ : TablePage.directoryEnd { p with
          slots := p.slots.set i { s with tmeta := ⟨m.ts, s.tmeta.isDeleted⟩ } } ≤ pageSize := by
        simpa [TablePage.directoryEnd, TablePage.numTuples] using hdir
      have h₂ := h₁.putDeleted hdir₁ hs₁ m.isDeleted
      have h₃ := h₂.putNumDeleted hn
      rw [bind_ok hcount, bind_ok (write_u64 (by rw [h.length]; omega)),
        bind_ok (write_put (by rw [show (flag m.isDeleted).length = 1 from rfl, h₁.length]; omega))]
      simp only [hd]
      refine ⟨_, write_u16 (by rw [h₂.length]; decide), ?_⟩
      simpa [List.set_set] using h₃

theorem stored (hs : p.slot i = some s) (x : Bool) : ({ s.tmeta with isDeleted := x } : TupleMeta).Stored := by
  rw [← h.slots i s hs]
  exact Stamp.decode_fits (num_lt 8 b _)

theorem markDeleted (hdir : p.directoryEnd ≤ pageSize) :
    Refines (markDeleted i b) b ((p.markDeleted i).map fun p' => ((), p')) := by
  have hslot := h.existingSlot hdir i
  unfold RawTablePage.markDeleted TablePage.markDeleted
  cases hs : p.existingSlot i with
  | error e =>
    rw [hs] at hslot
    exact bind_error hslot
  | ok s =>
    rw [hs] at hslot
    rw [TablePage.existingSlot_ok] at hs
    rw [bind_ok hslot]
    simp only
    cases hx : s.tmeta.isDeleted with
    | true =>
      rw [if_pos rfl]
      exact bind_error (ensure_error (by simp))
    | false =>
      rw [if_neg Bool.false_ne_true, bind_ok (ensure_ok rfl), bind_ok (get_eq h.numDeletedTuples)]
      by_cases hfull : p.numDeleted = 65535
      · rw [if_pos hfull]
        exact bind_error (ensure_error (by simpa using hfull))
      · rw [if_neg hfull, bind_ok (ensure_ok hfull)]
        exact h.updateMeta hdir (h.stored hs true)

/-! ## Inserting -/

omit h in
theorem canInsert_bounds {len : Nat} (hfree : p.freeSpaceOffset ≤ pageSize) (hc : p.canInsert len = true) :
    p.directoryEnd + slotSize + len ≤ p.freeSpaceOffset ∧ p.numTuples ≤ 480 ∧ len ≤ TablePage.maxTupleSize := by
  have hfit : p.directoryEnd + slotSize + len ≤ p.freeSpaceOffset := of_decide_eq_true hc
  have hpage : pageSize = 8192 := rfl
  refine ⟨hfit, ?_, ?_⟩
  · unfold TablePage.directoryEnd slotSize at hfit
    omega
  · have := header_le p
    unfold TablePage.maxTupleSize headerSize
    omega

theorem insertWithMeta (hv : p.directoryEnd ≤ p.freeSpaceOffset) (hfree : p.freeSpaceOffset ≤ pageSize)
    (hm : m.Stored) (hd : d.length < 2 ^ 63)
    (hno : p.canInsert d.length = true → m.isDeleted = true → p.numDeleted ≠ 65535) :
    Refines (insertWithMeta m d b) b (p.insertWithMeta m d) := by
  have hdir := Nat.le_trans hv hfree
  have hpage : pageSize = 8192 := rfl
  have hslotSize : slotSize = 17 := rfl
  unfold RawTablePage.insertWithMeta TablePage.insertWithMeta
  rw [bind_ok (get_eq (h.canInsert hdir hd))]
  cases hc : p.canInsert d.length with
  | false => exact bind_error (ensure_error (by simp))
  | true =>
    obtain ⟨hfit, hcount, hlen⟩ := canInsert_bounds hfree hc
    have hlt := h.deleted_lt
    have hdeleted : p.numDeleted + m.isDeleted.toNat < 2 ^ 16 := by
      cases hx : m.isDeleted with
      | false => exact hlt
      | true =>
        have := hno hc hx
        simp only [Bool.toNat_true]
        omega
    have hbase : slotBase p.numTuples = p.directoryEnd := rfl
    have hmax : d.length < 2 ^ 16 := by
      unfold TablePage.maxTupleSize at hlen
      omega
    -- the tuple, then its entry behind the directory, then the header
    have h₁ := h.patchData (p.freeSpaceOffset - d.length) (d) (by omega) (by omega)
    have h₂ :=
      h₁.patchData (slotBase p.numTuples) (leBytes 4 p.freeSpaceOffset) (Nat.le_refl _)
          (by rw [leBytes_length]; omega)
    have h₃ :=
      h₂.patchData (slotBase p.numTuples + 4) (leBytes 2 d.length) (Nat.le_add_right _ _)
          (by rw [leBytes_length]; omega)
    have h₄ :=
      h₃.patchData (slotBase p.numTuples + 6) (leBytes 2 d.length) (Nat.le_add_right _ _)
          (by rw [leBytes_length]; omega)
    have h₅ :=
      h₄.patchData (slotBase p.numTuples + 8) (leBytes 8 m.ts.encode) (Nat.le_add_right _ _)
          (by rw [leBytes_length]; omega)
    have h₆ := h₅.patchData (slotBase p.numTuples + 16) (flag m.isDeleted) (Nat.le_add_right _ _)
      (by rw [show (flag m.isDeleted).length = 1 from rfl]; omega)
    have h₇ := h₆.putNumTuples (by show p.numTuples + 1 < 2 ^ 16; omega)
    have h₈ := h₇.putNumDeleted hdeleted
    have h₉ := h₈.putFree (v := p.freeSpaceOffset - d.length) (by omega)
    have hroom : slotBase p.numTuples + 17 ≤ pageSize := by omega
    have hslot := slotOf_deleted (i := p.numTuples) (by rw [h₅.length]; exact hroom) m.isDeleted
    rw [slotOf_ts (by rw [h₄.length]; exact hroom) hm.1 hm.2, slotOf_capacity (by rw [h₃.length]; exact hroom) hmax,
      slotOf_size (by rw [h₂.length]; exact hroom) hmax,
      slotOf_offset (by rw [h₁.length]; exact hroom) (by omega)] at hslot
    rw [bind_ok (ensure_ok rfl), bind_ok (get_eq h.numTuples), bind_ok (ensure_ok (by omega)),
      bind_ok (get_eq h.freeSpaceOffset), bind_ok (check_eq (congrArg some (TablePage.tupleLen_of_le hlen))),
      bind_ok (get_eq (minus_of_le (by omega))), bind_ok (get_eq h.numDeletedTuples),
      bind_ok (get_eq (if_pos hdeleted)),
      bind_ok (write_eq ((if_pos (by omega)).trans (put_eq (by rw [h.length]; omega)))),
      bind_ok (write_u32 (by rw [h₁.length]; omega)), bind_ok (write_u16 (by rw [h₂.length]; omega)),
      bind_ok (write_u16 (by rw [h₃.length]; omega)), bind_ok (write_u64 (by rw [h₄.length]; omega)),
      bind_ok (write_put (by rw [show (flag m.isDeleted).length = 1 from rfl, h₅.length]; omega)),
      bind_ok (write_u16 (by rw [h₆.length]; decide)), bind_ok (write_u16 (by rw [h₇.length]; decide)),
      bind_ok (write_u32 (by rw [h₈.length]; decide))]
    rw [TablePage.tupleLen_of_le hlen, if_neg (by simp), if_neg (by omega)]
    refine ⟨_, rfl, h₉.congr rfl rfl rfl ?_ fun j hj _ => ?_⟩
    · simp only
      rw [hslot]
    · have hj : p.directoryEnd + 17 ≤ j := by
        simpa [TablePage.directoryEnd, TablePage.numTuples, Nat.succ_mul, hslotSize, Nat.add_assoc] using hj
      symm
      dsimp only
      rw [copyAt_outside _ _ _ j (by rw [show (flag m.isDeleted).length = 1 from rfl]; omega),
        copyAt_outside _ _ _ j (by rw [leBytes_length]; omega),
        copyAt_outside _ _ _ j (by rw [leBytes_length]; omega),
        copyAt_outside _ _ _ j (by rw [leBytes_length]; omega),
        copyAt_outside _ _ _ j (by rw [leBytes_length]; omega)]

theorem insert_panics (hdir : p.directoryEnd ≤ pageSize) (hfree : p.freeSpaceOffset ≤ pageSize)
    (hd : d.length < 2 ^ 63) (hc : p.canInsert d.length = true) (hx : m.isDeleted = true)
    (hfull : p.numDeleted = 65535) : RawTablePage.insertWithMeta m d b = none := by
  obtain ⟨hfit, hcount, hlen⟩ := canInsert_bounds hfree hc
  have hover : addU16 p.numDeleted m.isDeleted.toNat = none := by
    rw [addU16, hx, hfull]
    rfl
  unfold RawTablePage.insertWithMeta
  rw [bind_ok (get_eq (h.canInsert hdir hd)), bind_ok (ensure_ok hc), bind_ok (get_eq h.numTuples),
    bind_ok (ensure_ok (by omega)), bind_ok (get_eq h.freeSpaceOffset),
    bind_ok (check_eq (congrArg some (TablePage.tupleLen_of_le hlen))),
    bind_ok (get_eq (minus_of_le (by omega))), bind_ok (get_eq h.numDeletedTuples)]
  apply bind_panic
  rw [get, hover]
  rfl

/-! ## Making room -/

omit h in
theorem otherRegions_eq (l : List Slot) (i : Nat) : otherRegions l i = ((l.eraseIdx i).map Slot.capacity).sum := by
  have hfrom : ∀ (l : List Slot) (k : Nat), (((l.zipIdx k).filter fun x => x.2 ≠ i).map fun x => x.1.capacity).sum =
      TablePage.packSize i k l := by
    intro l
    induction l with
    | nil => intro k; rfl
    | cons s l ih =>
      intro k
      rw [List.zipIdx_cons, TablePage.packSize, ← ih (k + 1)]
      by_cases hk : k = i <;> simp [hk]
  rw [otherRegions, hfrom l 0, TablePage.packSize_eq i l 0 (Nat.zero_le _)]
  rfl

theorem place (s : Slot) (i len : Nat) (hdir : p.directoryEnd ≤ pageSize)
    (hroom : s.capacity < len → p.freeBytes < len → p.directoryEnd + p.otherRegions i ≤ pageSize) :
    place s i len b = some (p.place s i len) := by
  unfold RawTablePage.place TablePage.place
  by_cases hcap : len ≤ s.capacity
  · rw [if_pos hcap, if_pos hcap]
  rw [if_neg hcap, if_neg hcap, h.freeBytes]
  simp only [Option.bind_eq_bind, Option.bind_some]
  by_cases hfree : len ≤ p.freeBytes
  · rw [if_pos hfree, if_pos hfree]
    rfl
  rw [if_neg hfree, if_neg hfree]
  have hsum := hroom (by omega) (by omega)
  have hother : RawTablePage.otherRegions p.slots i = p.otherRegions i := otherRegions_eq p.slots i
  simp only [placeAfterCompaction, h.slots_eq hdir, h.directoryEnd, Option.bind_eq_bind, Option.bind_some,
    minus_of_le hdir, hother]
  rw [minus_of_le (by omega)]
  rfl

theorem place_panics {len : Nat} (hdir : p.directoryEnd ≤ pageSize) (hcap : s.capacity < len)
    (hfree : p.freeBytes < len) (hroom : pageSize < p.directoryEnd + p.otherRegions i) :
    RawTablePage.place s i len b = none := by
  have hother : RawTablePage.otherRegions p.slots i = p.otherRegions i := otherRegions_eq p.slots i
  have hminus : minus (pageSize - p.directoryEnd) (p.otherRegions i) = none := if_neg (by omega)
  unfold RawTablePage.place
  rw [if_neg (by omega), h.freeBytes]
  simp only [Option.bind_eq_bind, Option.bind_some]
  rw [if_neg (by omega)]
  simp only [placeAfterCompaction, h.slots_eq hdir, h.directoryEnd, Option.bind_eq_bind, Option.bind_some,
    minus_of_le hdir, hother, hminus]
  rfl

theorem claimFreeRegion (size : Nat) (hdir : p.directoryEnd ≤ pageSize) (hs : p.slot i = some s)
    (hsize : size ≤ p.freeSpaceOffset) (hlt : size < 2 ^ 16) :
    ∃ b', claimFreeRegion i size b = some (.ok { s with offset := p.freeSpaceOffset, capacity := size }, b') ∧
    Holds b' (p.claimFreeRegion i size) := by
  have hbase := slotBase_le (TablePage.slot_lt hs)
  have hfree := h.free_lt
  have h₁ := h.putOffset hdir hs hfree
  let p₁ : TablePage := { p with slots := p.slots.set i { s with offset := p.freeSpaceOffset } }
  have hs₁ : p₁.slot i = some { s with offset := p.freeSpaceOffset } :=
    (TablePage.set_slot_cases hs i).trans (if_pos rfl)
  have hdir₁ : p₁.directoryEnd ≤ pageSize := by simpa [p₁, TablePage.directoryEnd, TablePage.numTuples] using hdir
  have h₂ := h₁.putCapacity hdir₁ hs₁ hlt
  have h₃ := h₂.putFree (v := p.freeSpaceOffset - size) (by omega)
  have heq : p.claimFreeRegion i size =
      { p₁ with
        slots := p₁.slots.set i { s with offset := p.freeSpaceOffset, capacity := size }, freeSpaceOffset :=
        p.freeSpaceOffset - size } := by
    unfold TablePage.claimFreeRegion
    obtain ⟨hi, rfl⟩ := List.getElem?_eq_some_iff.mp hs
    rw [List.modify_eq_set_get _ hi, List.get_eq_getElem]
    simp only [p₁, List.set_set]
  have h₄ : Holds _ (p.claimFreeRegion i size) := heq ▸ h₃
  have hdir₄ : (p.claimFreeRegion i size).directoryEnd ≤ pageSize := by
    simpa [TablePage.claimFreeRegion, TablePage.directoryEnd, TablePage.numTuples] using hdir
  refine ⟨_, ?_, h₄⟩
  unfold RawTablePage.claimFreeRegion
  rw [bind_ok (get_eq h.freeSpaceOffset), bind_ok (get_eq (minus_of_le hsize)),
    bind_ok (write_u32 (by rw [h.length]; omega)), bind_ok (write_u16 (by rw [h₁.length]; omega)),
    bind_ok (write_u32 (by rw [h₂.length]; decide))]
  refine get_eq ?_
  rw [h₄.slot hdir₄, TablePage.claim_slot hs, if_pos rfl]
  rfl

/-! ## Compaction -/

omit h in
theorem packFrom (next : Option Nat) (deleted free : Nat) (old : Buf) (skip : Nat) :
    ∀ (l pre : List Slot) (fin : Nat) (cur : Buf) (b : Bytes),
    Holds b ⟨next, deleted, free, pre ++ l, cur⟩ →
    (⟨next, deleted, free, pre ++ l, cur⟩ : TablePage).directoryEnd + TablePage.packSize skip pre.length l ≤ fin →
    fin ≤ pageSize →
    ∃ b', RawTablePage.packFrom skip pre.length fin (l.zip (l.map fun s => readAt old s.regionStart s.capacity)) b =
        some (.ok (TablePage.packFrom old skip pre.length fin l cur).2.1, b') ∧
      Holds b' ⟨next, deleted, free, pre ++ (TablePage.packFrom old skip pre.length fin l cur).1,
        (TablePage.packFrom old skip pre.length fin l cur).2.2⟩
  | [], pre, fin, cur, b, h, _, _ => ⟨b, rfl, h⟩
  | s :: l, pre, fin, cur, b, h, hroom, hfin => by
    have hpage : pageSize = 8192 := rfl
    have hset : ∀ t, (pre ++ s :: l).set pre.length t = (pre ++ [t]) ++ l := fun t => by simp
    have hset₁ : ∀ u t, ((pre ++ [u]) ++ l).set pre.length t = (pre ++ [t]) ++ l := fun u t => by simp
    have hs : (⟨next, deleted, free, pre ++ s :: l, cur⟩ : TablePage).slot pre.length = some s := by
      simp [TablePage.slot]
    have hdir : ∀ t cur', (⟨next, deleted, free, (pre ++ [t]) ++ l, cur'⟩ : TablePage).directoryEnd =
        (⟨next, deleted, free, pre ++ s :: l, cur⟩ : TablePage).directoryEnd := by
      intro t cur'
      simp [TablePage.directoryEnd, TablePage.numTuples]
    have hbase := slotBase_le (TablePage.slot_lt hs)
    have hsmall := h.capacity_lt hs
    rw [TablePage.packSize] at hroom
    simp only [List.map_cons, List.zip_cons_cons, RawTablePage.packFrom, TablePage.packFrom]
    by_cases hskip : pre.length = skip
    · rw [if_pos hskip] at hroom
      rw [if_pos hskip, if_pos hskip]
      have h₁ := h.putOffset (v := fin) (by omega) hs (by omega)
      simp only [hset] at h₁
      have hs₁ : (⟨next, deleted, free, (pre ++ [{ s with offset := fin }]) ++ l, cur⟩ : TablePage).slot
          pre.length = some { s with offset := fin } := by
        simp [TablePage.slot]
      have h₂ := h₁.putCapacity (v := 0) (by rw [hdir]; omega) hs₁ (by decide)
      simp only [hset₁] at h₂
      obtain ⟨b', hb', h'⟩ :=
        packFrom next deleted free old skip l (pre ++ [{ s with offset := fin, capacity := 0 }]) fin cur _ h₂
        (by rw [hdir, List.length_append]; simpa using hroom) hfin
      rw [List.length_append, List.length_singleton] at hb' h'
      refine ⟨b', ?_, ?_⟩
      · rw [bind_ok (write_u32 (by rw [h.length]; omega)), bind_ok (write_u16 (by rw [h₁.length]; omega))]
        exact hb'
      · rw [List.append_assoc] at h'
        exact h'
    · rw [if_neg hskip] at hroom
      rw [if_neg hskip, if_neg hskip]
      have hlen : (readAt old s.regionStart s.capacity).length = s.capacity := readAt_length _ _ _
      have h₁ := h.patchData (fin - s.capacity) (readAt old s.regionStart s.capacity) (by omega) (by omega)
      have h₂ := h₁.putOffset (v := fin) (show TablePage.directoryEnd ⟨_, _, _, _, _⟩ ≤ _ from by
        have : (⟨next, deleted, free, pre ++ s :: l, cur⟩ : TablePage).directoryEnd ≤ pageSize := by omega
        exact this) hs (by omega)
      simp only [hset] at h₂
      obtain ⟨b', hb', h'⟩ :=
        packFrom next deleted free old skip l (pre ++ [{ s with offset := fin }]) (fin - s.capacity) _ _ h₂
        (by rw [hdir, List.length_append, List.length_singleton]; omega) (by omega)
      rw [List.length_append, List.length_singleton] at hb' h'
      refine ⟨b', ?_, ?_⟩
      · rw [bind_ok (get_eq (minus_of_le (by omega))),
          bind_ok (write_eq ((if_pos (by omega)).trans (put_eq (by rw [h.length]; omega)))),
          bind_ok (write_u32 (by rw [h₁.length]; omega))]
        exact hb'
      · rw [List.append_assoc] at h'
        exact h'

theorem compactWithout (hdir : p.directoryEnd ≤ pageSize) (hroom : p.directoryEnd + p.otherRegions i ≤ pageSize)
    (hregions : ∀ t ∈ p.slots, region b t = some (readAt p.buf t.regionStart t.capacity)) :
    ∃ b', compactWithout i b = some (.ok (), b') ∧ Holds b' (p.compactWithout i) := by
  have hsize : TablePage.packSize i 0 p.slots = p.otherRegions i :=
    TablePage.packSize_eq i p.slots 0 (Nat.zero_le _)
  obtain ⟨b', hb', h'⟩ := packFrom p.nextPageId p.numDeleted p.freeSpaceOffset p.buf i p.slots [] pageSize p.buf b h
    (by rw [List.length_nil, hsize]; exact hroom) (Nat.le_refl _)
  rw [List.length_nil] at hb'
  rw [List.length_nil, List.nil_append] at h'
  have hfin := (TablePage.compactWithout_packed (p := p) (i := i) (by omega)).2
  have hlt : (p.compactWithout i).freeSpaceOffset < 2 ^ 32 := by
    have hpage : pageSize = 8192 := rfl
    omega
  refine ⟨_, ?_, h'.putFree hlt⟩
  unfold RawTablePage.compactWithout
  have hread : get (fun b => p.slots.mapM (region b)) b =
      some (.ok (p.slots.map fun t => readAt p.buf t.regionStart t.capacity), b) :=
    get_eq (mapM_some hregions)
  rw [bind_ok (get_eq (h.slots_eq hdir)), bind_ok hread, bind_ok hb']
  exact write_u32 (by rw [h'.length]; decide)

structure Ready (p : TablePage) (i len : Nat) (t : Slot) : Prop where
  slot : p.slot i = some t
  dir : p.directoryEnd ≤ pageSize
  fits : len ≤ t.capacity
  cap : t.capacity ≤ t.offset
  high : t.offset ≤ pageSize
  low : p.directoryEnd ≤ t.regionStart

omit h in
theorem directoryEnd_claim (p : TablePage) (i size : Nat) :
    (p.claimFreeRegion i size).directoryEnd = p.directoryEnd := by
  simp [TablePage.claimFreeRegion, TablePage.directoryEnd, TablePage.numTuples]

theorem makeRoom {len : Nat} {pl : Placement} {s₀ : Slot} (hv : p.directoryEnd ≤ p.freeSpaceOffset)
    (hfree : p.freeSpaceOffset ≤ pageSize) (hs : p.slot i = some s)
    (hsame : s₀.offset = s.offset ∧ s₀.capacity = s.capacity) (hc : p.checkRegion s = .ok ())
    (hpl : p.place s i len = .ok pl) (hlen : len < 2 ^ 16)
    (hregions : pl = .afterCompaction → ∀ t ∈ p.slots, region b t = some (readAt p.buf t.regionStart t.capacity)) :
    ∃ s' t b', makeRoom s₀ i len pl b = some (.ok s', b') ∧ Holds b' (p.makeRoom i len pl) ∧ s'.offset = t.offset ∧
    s'.capacity = t.capacity ∧
      Ready (p.makeRoom i len pl) i len t := by
  have hdir := Nat.le_trans hv hfree
  unfold TablePage.place at hpl
  split at hpl
  · rename_i hcap
    cases hpl
    unfold TablePage.checkRegion at hc
    split at hc
    · cases hc
    · rename_i hok
      exact ⟨s₀, s, b, rfl, h, hsame.1, hsame.2, hs, hdir,
        hcap, by omega, by omega, by show p.directoryEnd ≤ s.regionStart; omega⟩
  rename_i hcap
  split at hpl
  · rename_i hle
    cases hpl
    unfold TablePage.freeBytes at hle
    obtain ⟨b', hb', h'⟩ := h.claimFreeRegion len hdir hs (by omega) hlen
    refine ⟨_, _, b', hb', h', rfl, rfl, (TablePage.claim_slot hs len i).trans (if_pos rfl), ?_, Nat.le_refl _,
      ?_, hfree, ?_⟩
    · show (p.claimFreeRegion i len).directoryEnd ≤ pageSize
      rw [directoryEnd_claim]
      exact hdir
    · show len ≤ p.freeSpaceOffset
      omega
    · show (p.claimFreeRegion i len).directoryEnd ≤ p.freeSpaceOffset - len
      rw [directoryEnd_claim]
      omega
  · simp only at hpl
    split at hpl
    · rename_i hle
      cases hpl
      obtain ⟨b₁, hb₁, h₁⟩ := h.compactWithout (i := i) hdir (by omega) (hregions rfl)
      obtain ⟨hpk, hfin⟩ := TablePage.compactWithout_packed (p := p) (i := i) (by omega)
      obtain ⟨t, ht, -⟩ := hpk.slot i s hs
      have hdir₁ : (p.compactWithout i).directoryEnd = p.directoryEnd := by
        unfold TablePage.directoryEnd TablePage.numTuples
        rw [hpk.length]
      obtain ⟨b', hb', h'⟩ := h₁.claimFreeRegion len (by rw [hdir₁]; exact hdir) ht (by omega) hlen
      refine ⟨_, _, b', (bind_ok hb₁).trans hb', h', rfl, rfl, (TablePage.claim_slot ht len i).trans (if_pos rfl),
        ?_, Nat.le_refl _, ?_, ?_, ?_⟩
      · show ((p.compactWithout i).claimFreeRegion i len).directoryEnd ≤ pageSize
        rw [directoryEnd_claim, hdir₁]
        exact hdir
      · show len ≤ (p.compactWithout i).freeSpaceOffset
        omega
      · show (p.compactWithout i).freeSpaceOffset ≤ pageSize
        omega
      · show ((p.compactWithout i).claimFreeRegion i len).directoryEnd ≤ (p.compactWithout i).freeSpaceOffset - len
        rw [directoryEnd_claim, hdir₁]
        omega
    · cases hpl

/-! ## Updating -/

theorem writeTuple {t : Slot} (hr : Ready p i d.length t) (hd : d.length < 2 ^ 16) :
    ∃ b', (write (copyFromSlice t.regionStart (t.regionStart + d.length) d) >>= fun _ => write fun b =>
      putU16Le b (slotBase i + 4) d.length) b =
      some (.ok (), b') ∧ Holds b' (p.writeTuple i d) := by
  have hbase := slotBase_le (TablePage.slot_lt hr.slot)
  have hdir := hr.dir
  have hfits := hr.fits
  have hcap := hr.cap
  have hhigh := hr.high
  have hstart : t.regionStart = t.offset - t.capacity := rfl
  have h₁ := h.patchData (t.regionStart) (d) hr.low (by omega)
  have h₂ := h₁.putSize (show TablePage.directoryEnd { p with buf := _ } ≤ pageSize from hdir) hr.slot hd
  refine ⟨_,
    (bind_ok (write_eq ((if_pos rfl).trans (put_eq (by rw [h.length]; omega))))).trans
      (write_u16 (by rw [h₁.length]; omega)), ?_⟩
  unfold TablePage.writeTuple
  rw [hr.slot]
  exact h₂

theorem updateAfterMeta {pl : Placement} {s₀ : Slot} (hv : p.directoryEnd ≤ p.freeSpaceOffset)
    (hfree : p.freeSpaceOffset ≤ pageSize) (hs : p.slot i = some s)
    (hsame : s₀.offset = s.offset ∧ s₀.capacity = s.capacity) (hc : p.checkRegion s = .ok ())
    (hpl : p.place s i d.length = .ok pl) (hlen : d.length < 2 ^ 16)
    (hregions : pl = .afterCompaction → ∀ t ∈ p.slots, region b t = some (readAt p.buf t.regionStart t.capacity)) :
    ∃ b', (RawTablePage.makeRoom s₀ i d.length pl >>= fun region =>
      (get fun _ => regionStart region) >>= fun start =>
        write (copyFromSlice start (start + d.length) d) >>= fun _ => write fun b =>
        putU16Le b (slotBase i + 4) d.length) b = some (.ok (), b') ∧
      Holds b' ((p.makeRoom i d.length pl).writeTuple i d) := by
  obtain ⟨s', t, b₁, hb₁, h₁, hoff, hcap, hr⟩ := h.makeRoom hv hfree hs hsame hc hpl hlen hregions
  obtain ⟨b', hb', h'⟩ := h₁.writeTuple hr hlen
  refine ⟨b', ?_, h'⟩
  have hstart : regionStart s' = some t.regionStart := by
    rw [regionStart, hoff, hcap]
    exact minus_of_le hr.cap
  rw [bind_ok hb₁, bind_ok (get_eq hstart)]
  exact hb'

theorem region_eq {t : Slot} (hcap : t.capacity ≤ t.offset) (hhigh : t.offset ≤ pageSize)
    (hlow : p.directoryEnd ≤ t.regionStart) :
    region b t = some (readAt p.buf t.regionStart t.capacity) := by
  have hoff : t.offset = t.regionStart + t.capacity := by
    unfold Slot.regionStart
    omega
  unfold region regionStart
  rw [minus_of_le hcap]
  have hslice := h.slice hlow (n := t.capacity) (by omega)
  rw [← hoff] at hslice
  exact hslice

theorem updateInPlace (hw : p.Wf) (hm : m.Stored) :
    Refines (updateInPlace i m d b) b ((p.updateInPlace i m d).map fun p' => ((), p')) := by
  have hdir := Nat.le_trans hw.dir hw.free
  have hslot := h.existingSlot hdir i
  unfold RawTablePage.updateInPlace TablePage.updateInPlace
  cases hs : p.existingSlot i with
  | error e =>
    rw [hs] at hslot
    exact bind_error hslot
  | ok s =>
  rw [hs] at hslot
  rw [TablePage.existingSlot_ok] at hs
  have hc := hw.checkRegion hs (by simp)
  rw [bind_ok hslot, bind_ok (check_eq ((h.checkRegion s).trans (congrArg some hc)))]
  simp only [hc]
  cases ht : tupleLen d with
  | error e => exact bind_error (check_eq rfl)
  | ok n =>
  obtain ⟨rfl, hlen⟩ := TablePage.tupleLen_ok ht
  have hsmall : d.length < 2 ^ 16 := by
    unfold TablePage.maxTupleSize pageSize headerSize slotSize at hlen
    omega
  have hroom := hw.room
  rw [TablePage.sum_capacity hs] at hroom
  have hplace := h.place s i d.length hdir fun _ _ => by
    have := hw.dir
    have := hw.free
    unfold TablePage.otherRegions
    omega
  rw [bind_ok (check_eq rfl)]
  cases hpl : p.place s i d.length with
  | error e => exact bind_error (check_eq (hplace.trans (congrArg some hpl)))
  | ok pl =>
  rw [bind_ok (check_eq (hplace.trans (congrArg some hpl)))]
  obtain ⟨q, hq⟩ := hw.updateMeta_succeeds hs m
  have hmeta := h.updateMeta (i := i) hdir hm
  rw [hq] at hmeta
  obtain ⟨b₁, hb₁, h₁⟩ := hmeta
  have hqw := TablePage.updateMeta_wf hw hq
  have hqs : q.slot i = some { s with tmeta := m } := by
    rw [TablePage.updateMeta_slot hq i, if_pos rfl, hs]
    rfl
  rw [bind_ok hb₁]
  simp only [hq]
  exact h₁.updateAfterMeta hqw.dir hqw.free hqs ⟨rfl, rfl⟩ (hqw.checkRegion hqs (by simp))
    ((TablePage.place_congr hs hq).trans hpl) hsmall
    fun _ t ht => by
      obtain ⟨j, hj⟩ := List.getElem?_of_mem ht
      exact h₁.region_eq (hqw.cap j t hj) (hqw.high j t hj) (Nat.le_trans hqw.dir (hqw.low j t hj))

end Holds

end RawTablePage

end Cmudb
