import Cmudb.TablePageBytes
import Cmudb.TablePageUpdate

/-!
# The bytes of a table page and what they say

`Holds b p` says that the buffer `b` is the page `p`: its header and directory
read as those of `p`, and the bytes behind the directory are those of `p`. Each
function of the buffer does what its counterpart does to the page.
-/

namespace Cmudb

open Lib

def TupleMeta.Stored (m : TupleMeta) : Prop := m.ts.inRange ∧ m.ts.encode < 2 ^ 64

theorem TupleMeta.stored_ofU64 (ts : UInt64) (isDeleted : Bool) : (TupleMeta.ofU64 ts isDeleted).Stored :=
  Stamp.decode_fits (UInt64.toNat_lt ts)

namespace RawTablePage

open TablePage (headerSize slotSize tupleLen Placement)

/-! ## Numbers behind patches -/

section

variable {b bs : Bytes} {a k off v : Nat}

def num (k : Nat) (b : Bytes) (off : Nat) : Nat := leNat (slice b off k)

theorem getLe_eq (h : off + k ≤ b.length) : getLe k b off = some (num k b off) := by
  rw [getLe, slice?_eq h]
  rfl

theorem num_lt (k : Nat) (b : Bytes) (off : Nat) : num k b off < 256 ^ k := by
  have hlen : (slice b off k).length ≤ k := by
    rw [slice, List.length_take]
    exact Nat.min_le_left _ _
  exact Nat.lt_of_lt_of_le (leNat_lt _) (Nat.pow_le_pow_right (Nat.succ_pos 255) hlen)

theorem num_patch_self (h : a + k ≤ b.length) (hv : v < 256 ^ k) : num k (patch b a (leBytes k v)) a = v := by
  have hs := slice_patch_self (l := b) (b := leBytes k v) (a := a) (by rw [leBytes_length]; exact h)
  rw [leBytes_length] at hs
  rw [num, hs, leNat_leBytes hv]

theorem num_patch_apart (h : a + bs.length ≤ b.length) (hap : off + k ≤ a ∨ a + bs.length ≤ off) :
    num k (patch b a bs) off = num k b off := by
  rw [num, slice_patch_apart h hap]
  rfl

theorem getD_patch (h : a + bs.length ≤ b.length) (j : Nat) :
    (patch b a bs).getD j 0 = if a ≤ j ∧ j < a + bs.length then bs.getD (j - a) 0 else b.getD j 0 := by
  simp only [List.getD_eq_getElem?_getD, getElem?_patch h]
  split <;> rfl

theorem put_eq (h : a + bs.length ≤ b.length) : put b a bs = some (patch b a bs) := if_pos h

end

/-! ## The directory -/

section

variable {b bs : Bytes} {i a v : Nat}

def slotOf (b : Bytes) (i : Nat) : Slot :=
  ⟨num 4 b (slotBase i), num 2 b (slotBase i + 4), num 2 b (slotBase i + 6),
    ⟨Stamp.decode (num 8 b (slotBase i + 8)), b.getD (slotBase i + 16) 0 != 0⟩⟩

theorem entry_eq (h : slotBase i + 17 ≤ b.length) : entry b i = some (slotOf b i) := by
  unfold entry getU32Le getU16Le getU64Le
  rw [getLe_eq (by omega), getLe_eq (by omega), getLe_eq (by omega), getLe_eq (by omega),
    List.getElem?_eq_getElem (by omega)]
  simp only [Option.bind_eq_bind, Option.bind_some, Option.pure_def, Option.some.injEq, slotOf]
  rw [List.getD_eq_getElem?_getD, List.getElem?_eq_getElem (by omega)]
  rfl

theorem slotOf_apart (h : a + bs.length ≤ b.length) (hap : slotBase i + 17 ≤ a ∨ a + bs.length ≤ slotBase i) :
    slotOf (patch b a bs) i = slotOf b i := by
  unfold slotOf
  rw [num_patch_apart h (by omega), num_patch_apart h (by omega), num_patch_apart h (by omega),
    num_patch_apart h (by omega), getD_patch h, if_neg (by omega)]

section

variable (h : slotBase i + 17 ≤ b.length)

include h

theorem slotOf_offset (hv : v < 2 ^ 32) :
    slotOf (patch b (slotBase i) (leBytes 4 v)) i = { slotOf b i with offset := v } := by
  have hle : slotBase i + (leBytes 4 v).length ≤ b.length := by rw [leBytes_length]; omega
  have hlen := leBytes_length 4 v
  unfold slotOf
  rw [num_patch_self (by omega) hv, num_patch_apart hle (by omega), num_patch_apart hle (by omega),
    num_patch_apart hle (by omega), getD_patch hle, if_neg (by omega)]

theorem slotOf_size (hv : v < 2 ^ 16) :
    slotOf (patch b (slotBase i + 4) (leBytes 2 v)) i = { slotOf b i with size := v } := by
  have hle : slotBase i + 4 + (leBytes 2 v).length ≤ b.length := by rw [leBytes_length]; omega
  have hlen := leBytes_length 2 v
  unfold slotOf
  rw [num_patch_apart hle (by omega), num_patch_self (by omega) hv, num_patch_apart hle (by omega),
    num_patch_apart hle (by omega), getD_patch hle, if_neg (by omega)]

theorem slotOf_capacity (hv : v < 2 ^ 16) :
    slotOf (patch b (slotBase i + 6) (leBytes 2 v)) i = { slotOf b i with capacity := v } := by
  have hle : slotBase i + 6 + (leBytes 2 v).length ≤ b.length := by rw [leBytes_length]; omega
  have hlen := leBytes_length 2 v
  unfold slotOf
  rw [num_patch_apart hle (by omega), num_patch_apart hle (by omega), num_patch_self (by omega) hv,
    num_patch_apart hle (by omega), getD_patch hle, if_neg (by omega)]

theorem slotOf_ts {ts : Stamp} (hr : ts.inRange) (hv : ts.encode < 2 ^ 64) :
    slotOf (patch b (slotBase i + 8) (leBytes 8 ts.encode)) i =
      { slotOf b i with tmeta := ⟨ts, (slotOf b i).tmeta.isDeleted⟩ } := by
  have hle : slotBase i + 8 + (leBytes 8 ts.encode).length ≤ b.length := by rw [leBytes_length]; omega
  have hlen := leBytes_length 8 ts.encode
  unfold slotOf
  rw [num_patch_apart hle (by omega), num_patch_apart hle (by omega), num_patch_apart hle (by omega),
    num_patch_self (by omega) hv, getD_patch hle, if_neg (by omega), Stamp.decode_encode hr]

theorem slotOf_deleted (x : Bool) :
    slotOf (patch b (slotBase i + 16) (flag x)) i = { slotOf b i with tmeta := ⟨(slotOf b i).tmeta.ts, x⟩ } := by
  have hlen : (flag x).length = 1 := rfl
  have hle : slotBase i + 16 + (flag x).length ≤ b.length := by omega
  have hx : ((flag x).getD 0 0 != 0) = x := by cases x <;> rfl
  unfold slotOf
  rw [num_patch_apart hle (by omega), num_patch_apart hle (by omega), num_patch_apart hle (by omega),
    num_patch_apart hle (by omega), getD_patch hle, if_pos (by omega), Nat.sub_self, hx]

end

end

/-! ## Buffers that hold a page -/

structure Holds (b : Bytes) (p : TablePage) : Prop where
  length : b.length = pageSize
  next : decodeU32 (num 4 b 0) = p.nextPageId
  count : num 2 b 4 = p.numTuples
  deleted : num 2 b 6 = p.numDeleted
  free : num 4 b 8 = p.freeSpaceOffset
  slots : ∀ i s, p.slot i = some s → slotOf b i = s
  data : ∀ j, p.directoryEnd ≤ j → j < pageSize → b.getD j 0 = p.buf j

def decode (b : Bytes) : TablePage :=
  ⟨decodeU32 (num 4 b 0), num 2 b 6, num 4 b 8, (List.range (num 2 b 4)).map (slotOf b), fun j => b.getD j 0⟩

theorem holds_decode {b : Bytes} (h : b.length = pageSize) : Holds b (decode b) := by
  refine ⟨h, rfl, by simp [decode, TablePage.numTuples], rfl, rfl, fun i s hs => ?_, fun _ _ _ => rfl⟩
  simp only [TablePage.slot, decode, List.getElem?_map, Option.map_eq_some_iff] at hs
  obtain ⟨j, hj, rfl⟩ := hs
  rw [List.getElem?_eq_some_iff] at hj
  obtain ⟨hlt, rfl⟩ := hj
  rw [List.getElem_range]

section

variable {b bs : Bytes} {p : TablePage} {i a v : Nat} {s : Slot}

theorem slotBase_le (hi : i < p.numTuples) : slotBase i + 17 ≤ p.directoryEnd := by
  unfold slotBase TablePage.directoryEnd
  have : slotSize = 17 := rfl
  have : (i + 1) * slotSize ≤ p.numTuples * slotSize := Nat.mul_le_mul_right _ hi
  rw [Nat.succ_mul] at this
  omega

theorem header_le (p : TablePage) : 12 ≤ p.directoryEnd := Nat.le_add_right _ _

theorem slotBase_apart {j : Nat} (h : j ≠ i) : slotBase j + 17 ≤ slotBase i ∨ slotBase i + 17 ≤ slotBase j := by
  unfold slotBase slotSize
  omega

theorem header_le_slotBase (i : Nat) : 12 ≤ slotBase i := Nat.le_add_right _ _

namespace Holds

variable (h : Holds b p)

include h

theorem sameSlots : (decode b).slots = p.slots := by
  apply List.ext_getElem?
  intro i
  simp only [decode, List.getElem?_map]
  cases hs : p.slots[i]? with
  | none =>
    rw [List.getElem?_eq_none_iff] at hs
    rw [List.getElem?_eq_none (by rw [List.length_range, h.count]; exact hs), Option.map_none]
  | some s =>
    have hi := (List.getElem?_eq_some_iff.mp hs).1
    rw [List.getElem?_range (by rw [h.count]; exact hi), Option.map_some, h.slots i s hs]

theorem congr {p' : TablePage} (hn : p'.nextPageId = p.nextPageId) (hd : p'.numDeleted = p.numDeleted)
    (hf : p'.freeSpaceOffset = p.freeSpaceOffset) (hs : p'.slots = p.slots)
    (hb : ∀ j, p.directoryEnd ≤ j → j < pageSize → p'.buf j = p.buf j) : Holds b p' := by
  have hdir : p'.directoryEnd = p.directoryEnd := by
    unfold TablePage.directoryEnd TablePage.numTuples
    rw [hs]
  refine ⟨h.length, hn ▸ h.next, ?_, hd ▸ h.deleted, hf ▸ h.free, fun i s => ?_, fun j hj hlt => ?_⟩
  · unfold TablePage.numTuples
    rw [hs]
    exact h.count
  · unfold TablePage.slot
    rw [hs]
    exact h.slots i s
  · rw [hdir] at hj
    rw [hb j hj hlt]
    exact h.data j hj hlt

/-! ### Reading -/

theorem numTuples : numTuples b = some p.numTuples := by
  rw [RawTablePage.numTuples, getU16Le, getLe_eq (by rw [h.length]; decide), h.count]

theorem numDeletedTuples : numDeletedTuples b = some p.numDeleted := by
  rw [RawTablePage.numDeletedTuples, getU16Le, getLe_eq (by rw [h.length]; decide), h.deleted]

theorem freeSpaceOffset : freeSpaceOffset b = some p.freeSpaceOffset := by
  rw [RawTablePage.freeSpaceOffset, getU32Le, getLe_eq (by rw [h.length]; decide), h.free]

theorem directoryEnd : directoryEnd b = some p.directoryEnd := by
  rw [RawTablePage.directoryEnd, h.numTuples]
  rfl

theorem deleted_lt : p.numDeleted < 2 ^ 16 := h.deleted ▸ num_lt 2 b 6

theorem free_lt : p.freeSpaceOffset < 2 ^ 32 := h.free ▸ num_lt 4 b 8

theorem freeBytes : freeBytes b = some p.freeBytes := by
  rw [RawTablePage.freeBytes, h.freeSpaceOffset, h.directoryEnd]
  rfl

theorem capacity_lt (hs : p.slot i = some s) : s.capacity < 2 ^ 16 := by
  rw [← h.slots i s hs]
  exact num_lt 2 b _

section

variable (hdir : p.directoryEnd ≤ pageSize)

include hdir

theorem slot (i : Nat) : slot b i = some (p.slot i) := by
  rw [RawTablePage.slot, h.numTuples]
  simp only [Option.bind_eq_bind, Option.bind_some, Option.pure_def]
  split
  · rename_i hle
    rw [TablePage.slot, List.getElem?_eq_none hle]
  · rename_i hlt
    have hi := Nat.lt_of_not_le hlt
    have hs := List.getElem?_eq_getElem hi
    rw [entry_eq (by rw [h.length]; exact Nat.le_trans (slotBase_le hi) hdir), h.slots i _ hs, TablePage.slot, hs]
    rfl

theorem slots_eq : RawTablePage.slots b = some p.slots := by
  have hall : (List.range p.numTuples).mapM (RawTablePage.slot b) = some ((List.range p.numTuples).map p.slot) :=
    mapM_some fun i _ => h.slot hdir i
  rw [RawTablePage.slots, h.numTuples]
  simp only [Option.bind_eq_bind, Option.bind_some, hall, Option.pure_def, Option.some.injEq]
  rw [List.filterMap_map]
  have : (List.range p.numTuples).map p.slot = p.slots.map some := by
    apply List.ext_getElem?
    intro i
    rw [List.getElem?_map, List.getElem?_map]
    rcases Nat.lt_or_ge i p.numTuples with hi | hi
    · rw [List.getElem?_range hi, List.getElem?_eq_getElem hi, Option.map_some, Option.map_some, TablePage.slot,
        List.getElem?_eq_getElem hi]
    · rw [List.getElem?_eq_none (by rw [List.length_range]; exact hi), List.getElem?_eq_none hi]
      rfl
  rw [← List.filterMap_map, this, List.filterMap_map]
  exact List.filterMap_some

end

/-! ### Writing -/

theorem patchData (a : Nat) (bs : Bytes) (ha : p.directoryEnd ≤ a) (hle : a + bs.length ≤ pageSize) :
    Holds (patch b a bs) { p with buf := copyAt p.buf a bs } := by
  have hlen : a + bs.length ≤ b.length := h.length ▸ hle
  have hhdr := header_le p
  refine ⟨(patch_length hlen).trans h.length, ?_, ?_, ?_, ?_, fun i s hs => ?_, fun j hj hlt => ?_⟩
  · rw [num_patch_apart hlen (by omega)]
    exact h.next
  · rw [num_patch_apart hlen (by omega)]
    exact h.count
  · rw [num_patch_apart hlen (by omega)]
    exact h.deleted
  · rw [num_patch_apart hlen (by omega)]
    exact h.free
  · rw [slotOf_apart hlen (.inl (Nat.le_trans (slotBase_le (TablePage.slot_lt hs)) ha))]
    exact h.slots i s hs
  · rw [getD_patch hlen, h.data j hj hlt]
    rfl

section

variable (hdir : p.directoryEnd ≤ pageSize)

include hdir

theorem patchSlot (off : Nat) {s' : Slot} (hs : p.slot i = some s) (hoff : off + bs.length ≤ 17)
    (hnew : slotOf (patch b (slotBase i + off) bs) i = s') :
    Holds (patch b (slotBase i + off) bs) { p with slots := p.slots.set i s' } := by
  have hbase := slotBase_le (TablePage.slot_lt hs)
  have hlen : slotBase i + off + bs.length ≤ b.length := by
    rw [h.length]
    omega
  have hhdr := header_le_slotBase i
  refine ⟨(patch_length hlen).trans h.length, ?_, ?_, ?_, ?_, fun j t ht => ?_, fun j hj hlt => ?_⟩
  · rw [num_patch_apart hlen (by omega)]
    exact h.next
  · rw [num_patch_apart hlen (by omega), h.count]
    simp [TablePage.numTuples]
  · rw [num_patch_apart hlen (by omega)]
    exact h.deleted
  · rw [num_patch_apart hlen (by omega)]
    exact h.free
  · have ht' := TablePage.set_slot_cases (t := s') hs j
    rw [TablePage.slot, ht'] at ht
    split at ht
    · rename_i hj
      subst hj
      cases ht
      exact hnew
    · rename_i hj
      have hap := slotBase_apart (i := i) hj
      rw [slotOf_apart hlen (by omega)]
      exact h.slots j t ht
  · have hj : p.directoryEnd ≤ j := by simpa [TablePage.directoryEnd, TablePage.numTuples] using hj
    rw [getD_patch hlen, if_neg (by omega)]
    exact h.data j hj hlt

section

variable (hs : p.slot i = some s)

include hs

theorem putOffset (hv : v < 2 ^ 32) :
    Holds (patch b (slotBase i) (leBytes 4 v)) { p with slots := p.slots.set i { s with offset := v } } := by
  have hbase := slotBase_le (TablePage.slot_lt hs)
  refine h.patchSlot hdir 0 hs (by rw [leBytes_length]; decide) ?_
  rw [Nat.add_zero, slotOf_offset (by rw [h.length]; omega) hv, h.slots i s hs]

theorem putSize (hv : v < 2 ^ 16) :
    Holds (patch b (slotBase i + 4) (leBytes 2 v)) { p with slots := p.slots.set i { s with size := v } } := by
  have hbase := slotBase_le (TablePage.slot_lt hs)
  refine h.patchSlot hdir 4 hs (by rw [leBytes_length]; decide) ?_
  rw [slotOf_size (by rw [h.length]; omega) hv, h.slots i s hs]

theorem putCapacity (hv : v < 2 ^ 16) :
    Holds (patch b (slotBase i + 6) (leBytes 2 v)) { p with slots := p.slots.set i { s with capacity := v } } := by
  have hbase := slotBase_le (TablePage.slot_lt hs)
  refine h.patchSlot hdir 6 hs (by rw [leBytes_length]; decide) ?_
  rw [slotOf_capacity (by rw [h.length]; omega) hv, h.slots i s hs]

theorem putTs {ts : Stamp} (hr : ts.inRange) (hv : ts.encode < 2 ^ 64) :
    Holds (patch b (slotBase i + 8) (leBytes 8 ts.encode)) { p with
      slots := p.slots.set i { s with tmeta := ⟨ts, s.tmeta.isDeleted⟩ } } := by
  have hbase := slotBase_le (TablePage.slot_lt hs)
  refine h.patchSlot hdir 8 hs (by rw [leBytes_length]; decide) ?_
  rw [slotOf_ts (by rw [h.length]; omega) hr hv, h.slots i s hs]

theorem putDeleted (x : Bool) :
    Holds (patch b (slotBase i + 16) (flag x)) { p with
      slots := p.slots.set i { s with tmeta := ⟨s.tmeta.ts, x⟩ } } := by
  have hbase := slotBase_le (TablePage.slot_lt hs)
  refine h.patchSlot hdir 16 hs (by simp [flag]) ?_
  rw [slotOf_deleted (by rw [h.length]; omega) x, h.slots i s hs]

end

end

theorem patchHeader (p' : TablePage) {off : Nat} (hoff : off + bs.length ≤ 12) (hbuf : p'.buf = p.buf)
    (hnext : decodeU32 (num 4 (patch b off bs) 0) = p'.nextPageId)
    (hcount : num 2 (patch b off bs) 4 = p'.numTuples) (hdeleted : num 2 (patch b off bs) 6 = p'.numDeleted)
    (hfree : num 4 (patch b off bs) 8 = p'.freeSpaceOffset) (hslots : ∀ j t, p'.slot j = some t → slotOf b j = t)
    (hmore : p.directoryEnd ≤ p'.directoryEnd) : Holds (patch b off bs) p' := by
  have hlen : off + bs.length ≤ b.length := by
    rw [h.length]
    exact Nat.le_trans hoff (by decide)
  refine ⟨(patch_length hlen).trans h.length, hnext, hcount, hdeleted, hfree, fun j t ht => ?_, fun j hj hlt => ?_⟩
  · have := header_le_slotBase j
    rw [slotOf_apart hlen (by omega)]
    exact hslots j t ht
  · have := header_le p
    rw [getD_patch hlen, if_neg (by omega), hbuf]
    exact h.data j (Nat.le_trans hmore hj) hlt

theorem putNumDeleted (hv : v < 2 ^ 16) : Holds (patch b 6 (leBytes 2 v)) { p with numDeleted := v } := by
  have hlen : 6 + (leBytes 2 v).length ≤ b.length := by rw [leBytes_length, h.length]; decide
  have hk := leBytes_length 2 v
  apply h.patchHeader { p with numDeleted := v } (by omega) rfl
  · rw [num_patch_apart hlen (by omega)]
    exact h.next
  · rw [num_patch_apart hlen (by omega)]
    exact h.count
  · exact num_patch_self (by omega) hv
  · rw [num_patch_apart hlen (by omega)]
    exact h.free
  · exact h.slots
  · exact Nat.le_refl _

theorem putFree (hv : v < 2 ^ 32) : Holds (patch b 8 (leBytes 4 v)) { p with freeSpaceOffset := v } := by
  have hlen : 8 + (leBytes 4 v).length ≤ b.length := by rw [leBytes_length, h.length]; decide
  have hk := leBytes_length 4 v
  apply h.patchHeader { p with freeSpaceOffset := v } (by omega) rfl
  · rw [num_patch_apart hlen (by omega)]
    exact h.next
  · rw [num_patch_apart hlen (by omega)]
    exact h.count
  · rw [num_patch_apart hlen (by omega)]
    exact h.deleted
  · exact num_patch_self (by omega) hv
  · exact h.slots
  · exact Nat.le_refl _

theorem putNumTuples (hv : p.numTuples + 1 < 2 ^ 16) :
    Holds (patch b 4 (leBytes 2 (p.numTuples + 1))) { p with slots := p.slots ++ [slotOf b p.numTuples] } := by
  have hlen : 4 + (leBytes 2 (p.numTuples + 1)).length ≤ b.length := by rw [leBytes_length, h.length]; decide
  have hk := leBytes_length 2 (p.numTuples + 1)
  apply h.patchHeader { p with slots := p.slots ++ [slotOf b p.numTuples] } (by omega) rfl
  · rw [num_patch_apart hlen (by omega)]
    exact h.next
  · rw [num_patch_self (by omega) hv]
    simp [TablePage.numTuples]
  · rw [num_patch_apart hlen (by omega)]
    exact h.deleted
  · rw [num_patch_apart hlen (by omega)]
    exact h.free
  · intro j t ht
    rcases Nat.lt_trichotomy j p.slots.length with hj | hj | hj
    · rw [TablePage.slot, List.getElem?_append_left hj] at ht
      exact h.slots j t ht
    · subst hj
      simpa [TablePage.slot] using ht
    · rw [TablePage.slot, List.getElem?_eq_none (by rw [List.length_append, List.length_singleton]; exact hj)] at ht
      cases ht
  · simp only [TablePage.directoryEnd, TablePage.numTuples, List.length_append, List.length_singleton, Nat.succ_mul]
    omega

end Holds

end

end RawTablePage

end Cmudb
