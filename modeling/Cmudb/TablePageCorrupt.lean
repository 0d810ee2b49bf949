import Cmudb.TablePageRuns

/-!
# Table pages that may be corrupt

`TablePage::new` looks at the header of a page only. `SafeFor` is what the
slots and the counter have to satisfy for each function to return on a page it
has accepted.
-/

namespace Cmudb

open Lib

namespace RawTablePage

open TablePage (maxTupleSize tupleLen Placement)

/-- The step returns, with a buffer of the size of a page. -/
def Ended {α : Type} (r : Option (Except TablePageError α × Bytes)) : Prop :=
  ∃ res b', r = some (res, b') ∧ b'.length = pageSize

/-- An update of slot `i` finds no room in its region and the free space. -/
structure NeedsRoom (p : TablePage) (i : Nat) (d : Bytes) (s : Slot) : Prop where
  slot : p.slot i = some s
  region : p.checkRegion s = .ok ()
  fits : d.length ≤ maxTupleSize
  capacity : s.capacity < d.length
  free : p.freeBytes < d.length

/-- What a page has to satisfy for the functions called with these arguments. -/
structure SafeFor (p : TablePage) (i : Nat) (m : TupleMeta) (d : Bytes) : Prop where
  counter : p.canInsert d.length = true → m.isDeleted = true → p.numDeleted ≠ 65535
  room : ∀ s, NeedsRoom p i d s → p.directoryEnd + p.otherRegions i ≤ pageSize
  regions : ∀ s, NeedsRoom p i d s → p.directoryEnd + p.otherRegions i + d.length ≤ pageSize →
    TablePage.deletedCount p.numDeleted s.tmeta.isDeleted m.isDeleted ≠ none →
    ∀ t ∈ p.slots, t.capacity ≤ t.offset ∧ t.offset ≤ pageSize

structure AllReturn (b : Bytes) (i : Nat) (m : TupleMeta) (d : Bytes) : Prop where
  tupleBytes : ∃ o, slot b i = some o ∧ ∀ s, o = some s → ∃ r, tupleBytes b s = some r
  canInsert : ∃ c, canInsert b d.length = some c
  insertWithMeta : Ended (insertWithMeta m d b)
  markDeleted : Ended (markDeleted i b)
  updateMeta : Ended (updateMeta i m b)
  updateInPlace : Ended (updateInPlace i m d b)

section

variable {α : Type} {b d : Bytes} {p : TablePage} {i : Nat} {s t : Slot} {m : TupleMeta}

theorem Refines.ended {r : Option (Except TablePageError α × Bytes)} (hlen : b.length = pageSize) :
    ∀ {spec : Except TablePageError (α × TablePage)},
    Refines r b spec → Ended r
  | .error e, h => ⟨.error e, b, h, hlen⟩
  | .ok _, h => by
    obtain ⟨b', hb', h'⟩ := h
    exact ⟨_, b', hb', h'.length⟩

theorem region_self (hlen : b.length = pageSize) (hcap : t.capacity ≤ t.offset) (hhigh : t.offset ≤ pageSize) :
    region b t = some (readAt (fun j => b.getD j 0) t.regionStart t.capacity) := by
  have hoff : t.offset = t.regionStart + t.capacity := by
    unfold Slot.regionStart
    omega
  have hslice := Holds.slice?_readAt (b := b) (i := t.regionStart) (n := t.capacity) (by rw [hlen]; omega)
  unfold region regionStart
  rw [minus_of_le hcap]
  rw [← hoff] at hslice
  exact hslice

theorem region_none (hlen : b.length = pageSize) (h : ¬ (t.capacity ≤ t.offset ∧ t.offset ≤ pageSize)) :
    region b t = none := by
  unfold region regionStart minus
  split
  · rename_i hcap
    exact if_neg fun hle => h ⟨hcap, hlen ▸ hle.2⟩
  · rfl

/-- The placement after compaction is the one that takes the other regions apart. -/
theorem NeedsRoom.of_place (hs : p.slot i = some s) (hc : p.checkRegion s = .ok ()) (hlen : d.length ≤ maxTupleSize)
    (hpl : p.place s i d.length = .ok .afterCompaction) :
    NeedsRoom p i d s ∧ p.directoryEnd + p.otherRegions i + d.length ≤ pageSize := by
  unfold TablePage.place at hpl
  split at hpl
  · cases hpl
  · split at hpl
    · cases hpl
    · simp only at hpl
      split at hpl
      · exact ⟨⟨hs, hc, hlen, by omega, by omega⟩, by omega⟩
      · cases hpl

theorem NeedsRoom.place (hn : NeedsRoom p i d s) (hroom : p.directoryEnd + p.otherRegions i + d.length ≤ pageSize) :
    p.place s i d.length = .ok .afterCompaction := by
  have hcap := hn.capacity
  have hfree := hn.free
  unfold TablePage.place
  rw [if_neg (by omega), if_neg (by omega)]
  exact if_pos (by omega)

theorem checkRegion_meta (m : TupleMeta) : p.checkRegion { s with tmeta := m } = p.checkRegion s := rfl

theorem after_updateMeta {q : TablePage} {b₁ : Bytes} (hs : p.slot i = some s) (hq : p.updateMeta i m = .ok q)
    (h₁ : Holds b₁ q) :
    Holds b₁ (decode b₁) ∧ (decode b₁).slots = p.slots.set i { s with tmeta := m } ∧
    (decode b₁).freeSpaceOffset = p.freeSpaceOffset ∧
      (decode b₁).directoryEnd = p.directoryEnd ∧ (decode b₁).slot i = some { s with tmeta := m } ∧
      (decode b₁).place { s with tmeta := m } i d.length = p.place s i d.length := by
  have hplace : q.place { s with tmeta := m } i d.length = p.place s i d.length := TablePage.place_congr hs hq
  have hslot := TablePage.updateMeta_slot hq i
  obtain ⟨s', n, hs', -, rfl⟩ := TablePage.updateMeta_ok hq
  rw [hs] at hs'
  cases hs'
  rw [if_pos rfl, hs] at hslot
  refine ⟨holds_decode h₁.length, h₁.sameSlots, ?_, ?_, ?_, ?_⟩
  · rw [h₁.decode_eq]
  · rw [h₁.decode_eq]
    simp [TablePage.directoryEnd, TablePage.numTuples]
  · rw [h₁.decode_eq]
    exact hslot
  · rw [h₁.decode_eq]
    exact hplace

theorem updateInPlace_ended (h : Holds b p) (hv : p.directoryEnd ≤ p.freeSpaceOffset)
    (hfree : p.freeSpaceOffset ≤ pageSize) (hm : m.Stored) (hsafe : SafeFor p i m d) :
    Ended (updateInPlace i m d b) := by
  have hdir := Nat.le_trans hv hfree
  have hslot := h.existingSlot hdir i
  unfold updateInPlace
  cases hs : p.existingSlot i with
  | error e =>
    rw [hs] at hslot
    exact ⟨_, b, bind_error hslot, h.length⟩
  | ok s =>
  rw [hs] at hslot
  rw [TablePage.existingSlot_ok] at hs
  rw [bind_ok hslot]
  cases hc : p.checkRegion s with
  | error e => exact ⟨_, b, bind_error (check_eq ((h.checkRegion s).trans (congrArg some hc))), h.length⟩
  | ok u =>
  rw [bind_ok (check_eq ((h.checkRegion s).trans (congrArg some hc)))]
  cases ht : tupleLen d with
  | error e => exact ⟨_, b, bind_error (check_eq rfl), h.length⟩
  | ok n =>
  obtain ⟨rfl, hlen⟩ := TablePage.tupleLen_ok ht
  have hsmall : d.length < 2 ^ 16 := Nat.lt_of_le_of_lt hlen (by decide)
  rw [bind_ok (check_eq rfl)]
  have hplace := h.place s i d.length hdir fun hcap hno => hsafe.room s ⟨hs, hc, hlen, hcap, hno⟩
  cases hpl : p.place s i d.length with
  | error e => exact ⟨_, b, bind_error (check_eq (hplace.trans (congrArg some hpl))), h.length⟩
  | ok pl =>
  rw [bind_ok (check_eq (hplace.trans (congrArg some hpl)))]
  have hmeta := h.updateMeta (i := i) hdir hm
  cases hq : p.updateMeta i m with
  | error e =>
    rw [hq] at hmeta
    exact ⟨_, b, bind_error hmeta, h.length⟩
  | ok q =>
  rw [hq] at hmeta
  obtain ⟨b₁, hb₁, h₁⟩ := hmeta
  obtain ⟨h₂, hslots, hfree₂, hdir₂, hs₂, hplace₂⟩ := after_updateMeta (d := d) hs hq h₁
  rw [bind_ok hb₁]
  have hafter : pl = .afterCompaction → ∀ t ∈ (decode b₁).slots, region b₁ t =
      some (readAt (decode b₁).buf t.regionStart t.capacity) := by
    rintro rfl t ht
    obtain ⟨hn, hroom⟩ := NeedsRoom.of_place hs hc hlen hpl
    have hcount : TablePage.deletedCount p.numDeleted s.tmeta.isDeleted m.isDeleted ≠ none := by
      obtain ⟨s', n, hs', hn', -⟩ := TablePage.updateMeta_ok hq
      rw [hs] at hs'
      cases hs'
      rw [hn']
      exact Option.some_ne_none n
    have hgood := hsafe.regions s hn hroom hcount
    have ht' : t.capacity ≤ t.offset ∧ t.offset ≤ pageSize := by
      rw [hslots] at ht
      rcases List.mem_or_eq_of_mem_set ht with ht | rfl
      · exact hgood t ht
      · exact hgood s (List.mem_of_getElem? hs)
    exact region_self h₁.length ht'.1 ht'.2
  obtain ⟨b', hb', h'⟩ := h₂.updateAfterMeta (by rw [hdir₂, hfree₂]; exact hv) (by rw [hfree₂]; exact hfree) hs₂
    (show s.offset = ({ s with tmeta := m } : Slot).offset ∧
      s.capacity = ({ s with tmeta := m } : Slot).capacity from ⟨rfl, rfl⟩)
    (by
      have := checkRegion_meta (p := p) (s := s) m
      unfold TablePage.checkRegion at this hc ⊢
      rw [hfree₂]
      exact hc) (hplace₂.trans hpl) hsmall hafter
  exact ⟨_, b', hb', h'.length⟩

theorem updateInPlace_place (h : Holds b p) (hdir : p.directoryEnd ≤ pageSize) (hn : NeedsRoom p i d s) :
    updateInPlace i m d b = (check (place s i d.length) >>= fun placement => updateMeta i m >>= fun _ =>
      makeRoom s i d.length placement >>= fun region => (get fun _ => regionStart region) >>= fun start =>
        write (copyFromSlice start (start + d.length) d) >>= fun _ => write fun b =>
        putU16Le b (slotBase i + 4) d.length) b := by
  have hslot := h.existingSlot hdir i
  rw [TablePage.existingSlot_ok.mpr hn.slot] at hslot
  unfold updateInPlace
  rw [bind_ok hslot, bind_ok (check_eq ((h.checkRegion s).trans (congrArg some hn.region))),
    bind_ok (check_eq (congrArg some (TablePage.tupleLen_of_le hn.fits)))]

theorem update_panics_room (h : Holds b p) (hdir : p.directoryEnd ≤ pageSize) (hn : NeedsRoom p i d s)
    (hroom : ¬ p.directoryEnd + p.otherRegions i ≤ pageSize) : updateInPlace i m d b = none := by
  rw [updateInPlace_place h hdir hn]
  apply bind_panic
  rw [check, h.place_panics hdir hn.capacity hn.free (Nat.lt_of_not_le hroom)]
  rfl

theorem update_panics_regions (h : Holds b p) (hdir : p.directoryEnd ≤ pageSize) (hm : m.Stored)
    (hn : NeedsRoom p i d s) (hroom : p.directoryEnd + p.otherRegions i + d.length ≤ pageSize)
    (hcount : TablePage.deletedCount p.numDeleted s.tmeta.isDeleted m.isDeleted ≠ none) (ht : t ∈ p.slots)
    (hbad : ¬ (t.capacity ≤ t.offset ∧ t.offset ≤ pageSize)) : updateInPlace i m d b = none := by
  have hpl := hn.place hroom
  have hplace := h.place s i d.length hdir fun _ _ => by omega
  have hmeta := h.updateMeta (i := i) hdir hm
  obtain ⟨q, hq⟩ : ∃ q, p.updateMeta i m = .ok q := by
    obtain ⟨n, hn'⟩ := Option.ne_none_iff_exists'.mp hcount
    unfold TablePage.updateMeta
    rw [TablePage.existingSlot_ok.mpr hn.slot]
    simp only [hn']
    exact ⟨_, rfl⟩
  rw [hq] at hmeta
  obtain ⟨b₁, hb₁, h₁⟩ := hmeta
  obtain ⟨h₂, hslots, -, hdir₂, -⟩ := after_updateMeta (d := d) hn.slot hq h₁
  -- the slot of the update passes its check, so the bad one is another and still there
  have ht₂ : t ∈ (decode b₁).slots := by
    obtain ⟨j, hj⟩ := List.getElem?_of_mem ht
    rw [hslots]
    refine List.mem_of_getElem? (i := j) ?_
    rw [TablePage.set_slot_cases hn.slot j, if_neg, hj]
    rintro rfl
    have hs := hn.slot
    rw [TablePage.slot, hj, Option.some.injEq] at hs
    subst hs
    have hc := hn.region
    unfold TablePage.checkRegion at hc
    split at hc
    · cases hc
    · exact hbad (by omega)
  have hcompact : compactWithout i b₁ = none := by
    unfold compactWithout
    rw [bind_ok (get_eq (h₂.slots_eq (by rw [hdir₂]; exact hdir)))]
    apply bind_panic
    rw [get, mapM_none ht₂ (region_none h₁.length hbad)]
    rfl
  rw [updateInPlace_place h hdir hn, bind_ok (check_eq (hplace.trans (congrArg some hpl))), bind_ok hb₁]
  exact bind_panic (bind_panic hcompact)

theorem not_ended_none : ¬ Ended (none : Option (Except TablePageError α × Bytes)) := by
  rintro ⟨_, _, h, -⟩
  cases h

theorem validate_ok (hlen : b.length = pageSize) (hv : validate b = some (.ok ())) :
    (decode b).directoryEnd ≤ (decode b).freeSpaceOffset ∧ (decode b).freeSpaceOffset ≤ pageSize := by
  have h := holds_decode hlen
  unfold validate at hv
  rw [if_neg (not_not.mpr hlen), h.directoryEnd, h.freeSpaceOffset] at hv
  simp only [Option.bind_eq_bind, Option.bind_some, Option.pure_def, Option.some.injEq] at hv
  split at hv
  · cases hv
  · omega

theorem validate_length (hv : validate b = some (.ok ())) : b.length = pageSize := by
  by_contra hlen
  rw [validate, if_pos hlen] at hv
  cases hv

end

/-- On a page whose header is accepted, the functions return exactly where its counter and slots are safe for them.
-/
theorem pages_return_iff (b : Bytes) (hv : validate b = some (.ok ())) (i : Nat) (ts : UInt64)
    (isDeleted : Bool) (d : Data) :
    AllReturn b i (.ofU64 ts isDeleted) d.val ↔ SafeFor (decode b) i (.ofU64 ts isDeleted) d.val := by
  have hlen := validate_length hv
  obtain ⟨hdir, hfree⟩ := validate_ok hlen hv
  have h := holds_decode hlen
  have hle := Nat.le_trans hdir hfree
  have hm := TupleMeta.stored_ofU64 ts isDeleted
  constructor
  · intro hall
    refine ⟨fun hc hx hfull => ?_, fun s hn => ?_, fun s hn hroom hcount t ht => ?_⟩
    · have hins := hall.insertWithMeta
      rw [h.insert_panics hle hfree d.property hc hx hfull] at hins
      exact not_ended_none hins
    · by_contra hroom
      have hup := hall.updateInPlace
      rw [update_panics_room h hle hn hroom] at hup
      exact not_ended_none hup
    · by_contra hbad
      have hup := hall.updateInPlace
      rw [update_panics_regions h hle hm hn hroom hcount ht hbad] at hup
      exact not_ended_none hup
  · intro hsafe
    refine ⟨⟨_, h.slot hle i, fun s _ => ⟨_, h.tupleBytes hdir s⟩⟩, ⟨_, h.canInsert hle d.property⟩, ?_, ?_, ?_,
      updateInPlace_ended h hdir hfree hm hsafe⟩
    · exact (h.insertWithMeta hdir hfree hm d.property hsafe.counter).ended hlen
    · exact (h.markDeleted hle).ended hlen
    · exact (h.updateMeta hle hm).ended hlen

/-- Growing the first of two slots makes room by compacting the page. -/
theorem two_slots_return : ∃ b₀ b, init (List.replicate pageSize 0) = some b₀ ∧ run b₀ twoInserts = some b ∧
    (∃ s, NeedsRoom (decode b) 0 (sevens 4100 (by decide)).val s) ∧
    AllReturn b 0 (.ofU64 1 false) (sevens 4100 (by decide)).val := by
  obtain ⟨b₀, b, s, t, hinit, hrun, hs, hfirst, ht, hfree, hdir, hother⟩ := twoInserts_page
  obtain ⟨_, hinit', hlen₀, hw₀⟩ := init_holds (b := List.replicate pageSize 0) List.length_replicate
  cases hinit.symm.trans hinit'
  obtain ⟨_, hrun', hlen, hw⟩ := run_wf twoInserts hlen₀ hw₀
  cases hrun.symm.trans hrun'
  have hdata : (sevens 4100 (by decide)).val.length = 4100 := List.length_replicate
  have hneeds : NeedsRoom (decode b) 0 (sevens 4100 (by decide)).val s := by
    have hslot : (decode b).slot 0 = some s := by rw [TablePage.slot, hs]; rfl
    refine ⟨hslot, hw.checkRegion hslot (by simp), by rw [hdata]; decide, ?_, ?_⟩
    · rw [hdata, (Prod.mk.inj hfirst).2]
      decide
    · rw [TablePage.freeBytes, hfree, hdir, hdata]
      decide
  have hvalid : validate b = some (.ok ()) := by
    unfold validate
    rw [if_neg (not_not.mpr hlen), (holds_decode hlen).directoryEnd,
      (holds_decode hlen).freeSpaceOffset, hdir, hfree]
    rfl
  refine ⟨b₀, b, hinit, hrun, ⟨s, hneeds⟩, (pages_return_iff b hvalid 0 1 false (sevens 4100 (by decide))).mpr ?_⟩
  refine ⟨fun _ hdeleted => Bool.noConfusion hdeleted, fun _ _ => ?_, fun _ _ _ _ u hu => ?_⟩
  · rw [hdir, hother]
    decide
  obtain ⟨hs0, hs1⟩ := Prod.mk.inj hfirst
  obtain ⟨ht0, ht1⟩ := Prod.mk.inj ht
  rw [hs] at hu
  rcases List.mem_cons.mp hu with rfl | hu
  · rw [hs0, hs1]
    decide
  · rw [List.mem_singleton.mp hu, ht0, ht1]
    decide

/-! ## Empty pages -/

/-- A page without slots whose counter of deleted tuples is `low + 256 * high`. -/
def emptyPage (low high : UInt8) : Bytes :=
  [255, 255, 255, 255, 0, 0, low, high, 0, 32, 0, 0] ++ List.replicate 8180 0

theorem num_append {l r : Bytes} {k off : Nat} (h : off + k ≤ l.length) : num k (l ++ r) off = num k l off := by
  rw [num, slice_append h]
  rfl

theorem emptyPage_decode (low high : UInt8) :
    (emptyPage low high).length = pageSize ∧ (decode (emptyPage low high)).slots = [] ∧
    (decode (emptyPage low high)).freeSpaceOffset = pageSize ∧
    (decode (emptyPage low high)).numDeleted = leNat [low, high] := by
  have hcount : num 2 (emptyPage low high) 4 = leNat [0, 0] := num_append (by simp)
  have hfree : num 4 (emptyPage low high) 8 = leNat [0, 32, 0, 0] := num_append (by simp)
  refine ⟨?_, ?_, hfree.trans (by decide), num_append (by simp)⟩
  · have hheader : [255, 255, 255, 255, 0, 0, low, high, 0, 32, 0, 0].length = 12 := rfl
    rw [emptyPage, List.length_append, List.length_replicate, hheader]
    rfl
  · rw [decode, hcount]
    rfl

theorem emptyPage_valid (low high : UInt8) : validate (emptyPage low high) = some (.ok ()) := by
  obtain ⟨hlen, hslots, hfree, -⟩ := emptyPage_decode low high
  have h := holds_decode hlen
  have hdir : (decode (emptyPage low high)).directoryEnd = 12 := by
    rw [TablePage.directoryEnd, TablePage.numTuples, hslots]
    rfl
  unfold validate
  rw [if_neg (not_not.mpr hlen), h.directoryEnd, h.freeSpaceOffset, hdir, hfree]
  rfl

/-- With the counter at its largest, inserting a deleted tuple overflows it. -/
theorem full_counter_panics : validate (emptyPage 255 255) = some (.ok ()) ∧
    insertWithMeta (.ofU64 0 true) [] (emptyPage 255 255) = none := by
  obtain ⟨hlen, hslots, hfree, hdeleted⟩ := emptyPage_decode 255 255
  have hdir : (decode (emptyPage 255 255)).directoryEnd = 12 := by
    rw [TablePage.directoryEnd, TablePage.numTuples, hslots]
    rfl
  refine ⟨emptyPage_valid 255 255,
    (holds_decode hlen).insert_panics (by rw [hdir]; decide) (by rw [hfree]) (by decide) ?_ rfl hdeleted⟩
  rw [TablePage.canInsert, hdir, hfree]
  rfl

end RawTablePage

end Cmudb
