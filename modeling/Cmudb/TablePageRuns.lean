import Cmudb.TablePageRefines

/-!
# Runs on the bytes of a table page

From a formatted page on, whatever is asked of it, the slots keep to regions of
their own and an operation changes its own slot alone. A page that comes from
elsewhere may be corrupt behind its header; `SafeFor` says when the functions of
a page still return on it.
-/

namespace Cmudb

open Lib

namespace TablePage

theorem Wf.relink {p : TablePage} (hw : p.Wf) (next : Option Nat) :
    ({ p with nextPageId := next } : TablePage).Wf :=
  ⟨hw.dir, hw.free, hw.size, hw.cap, hw.low, hw.high, hw.apart, hw.room, hw.deleted⟩

/-! ## When an update fits -/

theorem updateInPlace_iff {p : TablePage} (hw : p.Wf) {i : Nat} {s : Slot} (hs : p.slot i = some s)
    (m : TupleMeta) (d : Bytes) :
    (∃ p', p.updateInPlace i m d = .ok p') ↔
      d.length ≤ maxTupleSize ∧
      (d.length ≤ s.capacity ∨ d.length ≤ pageSize - p.directoryEnd - p.otherRegions i) := by
  have hroom := hw.room
  rw [sum_capacity hs] at hroom
  have hdir := hw.dir
  have hfree := hw.free
  have hother : p.otherRegions i ≤ pageSize - p.freeSpaceOffset := by
    unfold otherRegions
    omega
  constructor
  · rintro ⟨p', h⟩
    obtain ⟨s', pl, q, hs', hlen, hpl, -, -⟩ := updateInPlace_ok h
    rw [hs] at hs'
    cases hs'
    refine ⟨hlen, ?_⟩
    unfold place freeBytes at hpl
    split at hpl
    · exact .inl ‹_›
    · split at hpl
      · exact .inr (by omega)
      · simp only at hpl
        split at hpl
        · exact .inr ‹_›
        · cases hpl
  · rintro ⟨hlen, hfits⟩
    obtain ⟨q, hq⟩ := hw.updateMeta_succeeds hs m
    have hplace : ∃ pl, p.place s i d.length = .ok pl := by
      unfold place
      split
      · exact ⟨_, rfl⟩
      · split
        · exact ⟨_, rfl⟩
        · simp only
          rw [if_pos (hfits.resolve_left ‹_›)]
          exact ⟨_, rfl⟩
    obtain ⟨pl, hpl⟩ := hplace
    unfold updateInPlace
    rw [existingSlot_ok.mpr hs]
    simp only [hw.checkRegion hs (by simp), tupleLen_of_le hlen, hpl, hq]
    exact ⟨_, rfl⟩

theorem markDeleted_ok {p p' : TablePage} {i : Nat} (h : p.markDeleted i = .ok p') :
    ∃ m, p.updateMeta i m = .ok p' := by
  unfold markDeleted at h
  split at h
  · cases h
  · split at h
    · cases h
    · split at h
      · cases h
      · exact ⟨_, h⟩

end TablePage

namespace RawTablePage

open TablePage (maxTupleSize)

/-- A slice of bytes, which is never longer than `isize::MAX`. -/
abbrev Data := { d : Bytes // d.length < 2 ^ 63 }

inductive Op where
  | insertWithMeta (ts : UInt64) (isDeleted : Bool) (data : Data)
  | markDeleted (slot : Nat)
  | updateMeta (slot : Nat) (ts : UInt64) (isDeleted : Bool)
  | updateInPlace (slot : Nat) (ts : UInt64) (isDeleted : Bool) (data : Data)

/-- An operation, with the slot id an insert returns left out. -/
def Op.apply : Op → PageM Unit
  | .insertWithMeta ts isDeleted data => do
    let _ ← RawTablePage.insertWithMeta (.ofU64 ts isDeleted) data.val
    pure ()
  | .markDeleted slot => RawTablePage.markDeleted slot
  | .updateMeta slot ts isDeleted => RawTablePage.updateMeta slot (.ofU64 ts isDeleted)
  | .updateInPlace slot ts isDeleted data => RawTablePage.updateInPlace slot (.ofU64 ts isDeleted) data.val

def Op.slot (n : Nat) : Op → Nat
  | .insertWithMeta .. => n
  | .markDeleted slot => slot
  | .updateMeta slot .. => slot
  | .updateInPlace slot .. => slot

/-- The operations one after the other, whether they fail or not; `none` if one panics. -/
def run (b : Bytes) (ops : List Op) : Option Bytes := ops.foldlM (fun b op => (op.apply b).map Prod.snd) b

structure Step (b : Bytes) (op : Op) (r : Except TablePageError Unit) (b' : Bytes) : Prop where
  wf : (decode b').Wf
  failed : ∀ e, r = .error e → b' = b
  others : ∀ j, j ≠ op.slot (decode b).numTuples → (decode b').view j = (decode b).view j
  capacity : ∀ j, (decode b).capacity j ≤ (decode b').capacity j
  updates : ∀ i ts isDeleted data s, op = .updateInPlace i ts isDeleted data → (decode b).slot i = some s →
    (r = .ok () ↔ data.val.length ≤ maxTupleSize ∧
      (data.val.length ≤ s.capacity ∨
        data.val.length ≤ pageSize - (decode b).directoryEnd - (decode b).otherRegions i))

section

variable {b : Bytes} {p : TablePage} {op : Op}

theorem Holds.decode_eq (h : Holds b p) : decode b = { p with buf := fun j => b.getD j 0 } := by
  have hs := h.sameSlots
  obtain ⟨next, deleted, free, slots, buf⟩ := p
  simp only at hs
  show (⟨_, _, _, (decode b).slots, _⟩ : TablePage) = _
  rw [hs, h.next, h.deleted, h.free]

theorem Holds.wf (h : Holds b p) (hw : p.Wf) : (decode b).Wf := by
  rw [h.decode_eq]
  exact ⟨hw.dir, hw.free, hw.size, hw.cap, hw.low, hw.high, hw.apart, hw.room, hw.deleted⟩

theorem Holds.view (h : Holds b p) (hw : p.Wf) (j : Nat) : (decode b).view j = p.view j := by
  rw [h.decode_eq]
  unfold TablePage.view
  show Option.map _ (p.slot j) = _
  cases hs : p.slot j with
  | none => rfl
  | some s =>
    have hsize := hw.size j s hs (by simp)
    have hcap := hw.cap j s hs
    have hlow := hw.low j s hs
    have hhigh := hw.high j s hs
    have hdir := hw.dir
    simp only [Option.map_some]
    rw [readAt_congr fun k hk => h.data (s.regionStart + k) (by omega) (by unfold Slot.regionStart at *; omega)]

theorem Holds.capacity (h : Holds b p) (j : Nat) : (decode b).capacity j = p.capacity j := by
  rw [h.decode_eq]
  rfl

theorem Step.of_ok {b' : Bytes} {p' : TablePage} (hw : (decode b).Wf) (h' : Holds b' p') (hw' : p'.Wf)
    (hothers : ∀ j, j ≠ op.slot (decode b).numTuples → p'.view j = (decode b).view j)
    (hcap : ∀ j, (decode b).capacity j ≤ p'.capacity j)
    (hupd : ∀ i ts isDeleted data, op = .updateInPlace i ts isDeleted data →
      ∃ q, (decode b).updateInPlace i (.ofU64 ts isDeleted) data.val = .ok q) :
    Step b op (.ok ()) b' := by
  refine ⟨h'.wf hw', fun e he => ?_, fun j hj => (h'.view hw' j).trans (hothers j hj),
    fun j => h'.capacity j ▸ hcap j, fun i ts isDeleted data s hop hs => ?_⟩
  · cases he
  · rw [← TablePage.updateInPlace_iff hw hs (.ofU64 ts isDeleted)]
    exact iff_of_true rfl (hupd i ts isDeleted data hop)

theorem Step.of_error {e : TablePageError} (hw : (decode b).Wf)
    (hupd : ∀ i ts isDeleted data, op = .updateInPlace i ts isDeleted data →
      (decode b).updateInPlace i (.ofU64 ts isDeleted) data.val = .error e) :
    Step b op (.error e) b := by
  refine ⟨hw, fun _ _ => rfl, fun _ _ => rfl, fun _ => Nat.le_refl _, fun i ts isDeleted data s hop hs => ?_⟩
  rw [← TablePage.updateInPlace_iff hw hs (.ofU64 ts isDeleted)]
  refine iff_of_false (by simp) ?_
  rintro ⟨q, hq⟩
  rw [hupd i ts isDeleted data hop] at hq
  cases hq

theorem Op.step (hlen : b.length = pageSize) (hw : (decode b).Wf) (op : Op) :
    ∃ r b', op.apply b = some (r, b') ∧ b'.length = pageSize ∧ Step b op r b' := by
  have h := holds_decode hlen
  have hdir := Nat.le_trans hw.dir hw.free
  cases op with
  | insertWithMeta ts isDeleted data =>
    have hcount : (decode b).numDeleted ≤ 481 := by
      rw [hw.deleted]
      exact Nat.le_trans List.countP_le_length hw.numTuples_le
    have href :=
      h.insertWithMeta (m := .ofU64 ts isDeleted) hw.dir hw.free
          (TupleMeta.stored_ofU64 _ _) data.property fun _ _ => by omega
    cases hins : (decode b).insertWithMeta (.ofU64 ts isDeleted) data.val with
    | error e =>
      rw [hins] at href
      exact ⟨.error e, b, bind_error href, hlen, .of_error hw fun _ _ _ _ hop => by cases hop⟩
    | ok x =>
      obtain ⟨i, p'⟩ := x
      rw [hins] at href
      obtain ⟨b', hb', h'⟩ := href
      have hi := (TablePage.insertWithMeta_ok hins).1
      refine ⟨.ok (), b', bind_ok hb', h'.length,
        .of_ok hw h' (TablePage.insert_wf hw hins) (fun j hj => ?_) (fun j => ?_) fun _ _ _ _ hop => by cases hop⟩
      · rw [TablePage.insert_view hw hins, if_neg (by rw [hi]; exact hj)]
      · by_cases hj : j = i
        · have hnone : (decode b).capacity j = 0 := by
            rw [TablePage.capacity, TablePage.slot, List.getElem?_eq_none (by rw [hj, hi])]
            rfl
          rw [hnone]
          exact Nat.zero_le _
        · rw [TablePage.insert_capacity hins hj]
  | markDeleted slot =>
    have href := h.markDeleted (i := slot) hdir
    cases hmark : (decode b).markDeleted slot with
    | error e =>
      rw [hmark] at href
      exact ⟨.error e, b, href, hlen, .of_error hw fun _ _ _ _ hop => by cases hop⟩
    | ok p' =>
      rw [hmark] at href
      obtain ⟨b', hb', h'⟩ := href
      obtain ⟨m, hm⟩ := TablePage.markDeleted_ok hmark
      refine ⟨.ok (), b', hb', h'.length,
        .of_ok hw h' (TablePage.updateMeta_wf hw hm) (fun j hj => ?_) (fun j => ?_) fun _ _ _ _ hop => by cases hop⟩
      · rw [TablePage.updateMeta_view hm]
        exact if_neg hj
      · rw [TablePage.updateMeta_capacity hm]
  | updateMeta slot ts isDeleted =>
    have href := h.updateMeta (i := slot) hdir (TupleMeta.stored_ofU64 ts isDeleted)
    cases hm : (decode b).updateMeta slot (.ofU64 ts isDeleted) with
    | error e =>
      rw [hm] at href
      exact ⟨.error e, b, href, hlen, .of_error hw fun _ _ _ _ hop => by cases hop⟩
    | ok p' =>
      rw [hm] at href
      obtain ⟨b', hb', h'⟩ := href
      refine ⟨.ok (), b', hb', h'.length,
        .of_ok hw h' (TablePage.updateMeta_wf hw hm) (fun j hj => ?_) (fun j => ?_) fun _ _ _ _ hop => by cases hop⟩
      · rw [TablePage.updateMeta_view hm]
        exact if_neg hj
      · rw [TablePage.updateMeta_capacity hm]
  | updateInPlace slot ts isDeleted data =>
    have href := h.updateInPlace (i := slot) (d := data.val) hw (TupleMeta.stored_ofU64 ts isDeleted)
    cases hu : (decode b).updateInPlace slot (.ofU64 ts isDeleted) data.val with
    | error e =>
      rw [hu] at href
      exact ⟨.error e, b, href, hlen, .of_error hw fun _ _ _ _ hop => by cases hop; exact hu⟩
    | ok p' =>
      rw [hu] at href
      obtain ⟨b', hb', h'⟩ := href
      obtain ⟨hw', hview, hcap⟩ := TablePage.updateInPlace_spec hw hu
      refine ⟨.ok (), b', hb', h'.length,
        .of_ok hw h' hw' (fun j hj => ?_) hcap fun _ _ _ _ hop => by cases hop; exact ⟨p', hu⟩⟩
      rw [hview]
      exact if_neg hj

theorem run_wf : ∀ (ops : List Op) {b : Bytes}, b.length = pageSize → (decode b).Wf → ∃ b', run b ops = some b' ∧
    b'.length = pageSize ∧ (decode b').Wf
  | [], b, hlen, hw => ⟨b, rfl, hlen, hw⟩
  | op :: ops, b, hlen, hw => by
    obtain ⟨r, b₁, hb₁, hlen₁, hstep⟩ := op.step hlen hw
    obtain ⟨b', hb', hlen', hw'⟩ := run_wf ops hlen₁ hstep.wf
    refine ⟨b', ?_, hlen', hw'⟩
    rw [run, List.foldlM_cons, hb₁]
    exact hb'

theorem init_holds (hlen : b.length = pageSize) :
    ∃ b', init b = some b' ∧ b'.length = pageSize ∧ (decode b').Wf := by
  let b₁ := patch b 0 (leBytes 4 (encodeU32 none))
  have hle₁ : 0 + (leBytes 4 (encodeU32 none)).length ≤ b.length := by rw [leBytes_length, hlen]; decide
  have hlen₁ : b₁.length = pageSize := (patch_length hle₁).trans hlen
  have h₁ := holds_decode hlen₁
  let b₂ := patch b₁ 4 (leBytes 2 0)
  have hle₂ : 4 + (leBytes 2 0).length ≤ b₁.length := by rw [leBytes_length, hlen₁]; decide
  have hlen₂ : b₂.length = pageSize := (patch_length hle₂).trans hlen₁
  have hcount : num 2 b₂ 4 = 0 := num_patch_self (by rw [hlen₁]; decide) (by decide)
  have h₂ := holds_decode hlen₂
  have h₃ := h₂.putNumDeleted (v := 0) (by decide)
  have h₄ := h₃.putFree (v := pageSize) (by decide)
  refine ⟨_, ?_, h₄.length, h₄.wf ?_⟩
  · unfold init putU32Le putU16Le
    rw [put_eq hle₁, some_bind, put_eq hle₂, some_bind, put_eq (by rw [leBytes_length, hlen₂]; decide), some_bind,
      put_eq (by rw [leBytes_length, h₃.length]; decide)]
  · have hnil : (decode b₂).slots = [] := by
      simp only [decode, hcount, List.range_zero, List.map_nil]
    have heq : ({ decode b₂ with numDeleted := 0, freeSpaceOffset := pageSize } : TablePage) =
        { TablePage.init (decode b₂).buf with nextPageId := (decode b₂).nextPageId } := by
      simp only [TablePage.init, hnil]
    rw [heq]
    exact (TablePage.init_wf _).relink _

end

/-- On a formatted page the slots' regions stay apart, and an operation changes nothing but its own slot. -/
theorem slots_stay_apart (buf : Bytes) (hlen : buf.length = pageSize) (ops : List Op) :
    ∃ b₀ b, init buf = some b₀ ∧ run b₀ ops = some b ∧ (decode b).Wf ∧
    ∀ op : Op, ∃ r b', op.apply b = some (r, b') ∧ Step b op r b' := by
  obtain ⟨b₀, hb₀, hlen₀, hw₀⟩ := init_holds hlen
  obtain ⟨b, hb, hlen', hw⟩ := run_wf ops hlen₀ hw₀
  refine ⟨b₀, b, hb₀, hb, hw, fun op => ?_⟩
  obtain ⟨r, b', hb', -, hstep⟩ := op.step hlen' hw
  exact ⟨r, b', hb', hstep⟩

def sevens (n : Nat) (h : n < 2 ^ 63) : Data := ⟨List.replicate n 7, by rw [List.length_replicate]; exact h⟩

def twoInserts : List Op :=
  [.insertWithMeta 0 false (sevens 4096 (by decide)), .insertWithMeta 0 false (sevens 2 (by decide))]

theorem twoInserts_page : ∃ b₀ b s t, init (List.replicate pageSize 0) = some b₀ ∧ run b₀ twoInserts = some b ∧
    (decode b).slots = [s, t] ∧ (s.offset, s.capacity) = (8192, 4096) ∧ (t.offset, t.capacity) = (4096, 2) ∧
    (decode b).freeSpaceOffset = 4094 ∧ (decode b).directoryEnd = 46 ∧ (decode b).otherRegions 0 = 2 := by
  have heval : ((init (List.replicate pageSize 0)).bind fun b₀ => run b₀ twoInserts).map
      (fun b => ((decode b).slots.map fun s => (s.offset, s.capacity), (decode b).freeSpaceOffset)) =
        some ([(8192, 4096), (4096, 2)], 4094) := by
    decide +kernel
  obtain ⟨b, hb, heq⟩ := Option.map_eq_some_iff.mp heval
  obtain ⟨b₀, hinit, hrun⟩ := Option.bind_eq_some_iff.mp hb
  obtain ⟨hslots, hfree⟩ := Prod.mk.inj heq
  obtain ⟨s, rest, hs, hfirst, hall⟩ := List.map_eq_cons_iff.mp hslots
  obtain ⟨t, last, rfl, ht, hnil⟩ := List.map_eq_cons_iff.mp hall
  obtain rfl := List.map_eq_nil_iff.mp hnil
  refine ⟨b₀, b, s, t, hinit, hrun, hs, hfirst, ht, hfree, ?_, ?_⟩
  · rw [TablePage.directoryEnd, TablePage.numTuples, hs]
    rfl
  · rw [TablePage.otherRegions, hs]
    exact (Nat.add_zero _).trans (Prod.mk.inj ht).2

/-- The first slot grows past the free bytes, so the page is compacted around the second. -/
theorem two_slots_apart : ∃ b₀ b b', init (List.replicate pageSize 0) = some b₀ ∧ run b₀ twoInserts = some b ∧
    (decode b).Wf ∧ (decode b).freeBytes < 4100 ∧
    (Op.updateInPlace 0 1 false (sevens 4100 (by decide))).apply b = some (.ok (), b') ∧ (decode b').Wf ∧
    (decode b').view 1 = (decode b).view 1 := by
  obtain ⟨b₀, b, hinit, hrun, hw, hops⟩ :=
    slots_stay_apart (List.replicate pageSize 0) List.length_replicate twoInserts
  obtain ⟨_, _, s, t, hinit', hrun', hs, -, -, hfree, hdir, hother⟩ := twoInserts_page
  cases hinit.symm.trans hinit'
  cases hrun.symm.trans hrun'
  obtain ⟨r, b', hb', hstep⟩ := hops (.updateInPlace 0 1 false (sevens 4100 (by decide)))
  have hlen : (sevens 4100 (by decide)).val.length = 4100 := List.length_replicate
  have hok : r = .ok () := by
    refine (hstep.updates 0 1 false _ s rfl (by rw [TablePage.slot, hs]; rfl)).mpr ⟨?_, .inr ?_⟩
    · rw [hlen]
      decide
    · rw [hlen, hdir, hother]
      decide
  refine ⟨b₀, b, b', hinit, hrun, hw, ?_, hok ▸ hb', hstep.wf, hstep.others 1 Nat.one_ne_zero⟩
  rw [TablePage.freeBytes, hfree, hdir]
  decide

end RawTablePage

end Cmudb
