import Mathlib.Logic.Function.Basic
import Cmudb.TablePageUpdate

/-!
# Table heaps

A `Heap` is what the buffer pool holds of the tables: the table pages by page
id, and for each table its first page, its tail and the room inserts leave for
updates. Record ids name pages directly, so slots are read and written without
naming their table. `readSlot`, `writeSlotThen` and `insertWithMeta` each run
under one page latch (an insert under the table's tail lock), so each is one
step. The lemmas below say what each does to the slots, which is all the layers
above use.
-/

namespace Cmudb

structure Tail where
  pageId : Nat
  numTuples : Nat
  deriving DecidableEq, Repr

structure TableHeap where
  firstPageId : Nat
  tail : Tail
  updateReserve : Nat
  deriving DecidableEq, Repr

inductive TableHeapError where
  | slotMissing (rid : RecordId) (numSlots : Nat)
  | deleted (rid : RecordId)
  | tooLarge (size max : Nat)
  | bpm
  | page (pageId : Nat) (source : TablePageError)
  | pageChainCycle (pageId : Nat)
  | unallocatedPageLink (source target : Nat)
  deriving DecidableEq, Repr

/-- The new state of a slot; `none` keeps the bytes. -/
structure SlotWrite where
  tmeta : TupleMeta
  data : Option Bytes
  deriving DecidableEq, Repr

/-- Pages and tables. `owner` is the table whose page links reach a page. -/
structure Heap where
  pages : Nat → Option TablePage
  tables : Nat → Option TableHeap
  owner : Nat → Option Nat
  wf : ∀ p page, pages p = some page → page.Wf
  tailOwner : ∀ t th, tables t = some th → owner th.tail.pageId = some t
  ownerPage : ∀ p t, owner p = some t → (pages p).isSome

def TablePage.applyWrite (p : TablePage) (i : Nat) (w : SlotWrite) : Except TablePageError TablePage :=
  match w.data with
  | some d => p.updateInPlace i w.tmeta d
  | none => p.updateMeta i w.tmeta

namespace TablePage

theorem applyWrite_spec {p p' : TablePage} (hw : p.Wf) {i : Nat} {w : SlotWrite} (h : p.applyWrite i w = .ok p') :
    p'.Wf ∧ (∀ j, p'.view j = if j = i then (p.view i).map fun v => (w.tmeta, w.data.getD v.2) else p.view j) ∧
      ∀ j, p.capacity j ≤ p'.capacity j := by
  unfold applyWrite at h
  cases hd : w.data with
  | some d =>
    rw [hd] at h
    obtain ⟨s, _, _, hs, _⟩ := updateInPlace_ok h
    obtain ⟨h1, h2, h3⟩ := updateInPlace_spec hw h
    refine ⟨h1, fun j => ?_, h3⟩
    rw [h2 j, view_of_slot hs]
    rfl
  | none =>
    rw [hd] at h
    exact ⟨updateMeta_wf hw h, updateMeta_view h, fun j => Nat.le_of_eq (updateMeta_capacity h j).symm⟩

theorem applyWrite_fits {p : TablePage} (hw : p.Wf) {i : Nat} {v : TupleMeta × Bytes} (hv : p.view i = some v)
    {w : SlotWrite} (hd : ∀ d, w.data = some d → d.length ≤ p.capacity i) : ∃ p', p.applyWrite i w = .ok p' := by
  cases hs : p.slot i with
  | none => simp [view, hs] at hv
  | some s =>
    unfold applyWrite
    cases h : w.data with
    | some d => exact updateInPlace_fits hw hs w.tmeta (hd d h)
    | none => exact hw.updateMeta_succeeds hs w.tmeta

end TablePage

namespace Heap

def putPage (h : Heap) (pid : Nat) (page : TablePage) (hw : page.Wf) : Heap where
  pages := Function.update h.pages pid (some page)
  tables := h.tables
  owner := h.owner
  wf := by
    intro p q hq
    by_cases hp : p = pid
    · subst hp; rw [Function.update_self] at hq; cases hq; exact hw
    · rw [Function.update_of_ne hp] at hq; exact h.wf p q hq
  tailOwner := h.tailOwner
  ownerPage := by
    intro p t ho
    by_cases hp : p = pid
    · subst hp; simp
    · rw [Function.update_of_ne hp]; exact h.ownerPage p t ho

def slot (h : Heap) (rid : RecordId) : Option (TupleMeta × Bytes) :=
  (h.pages rid.pageId).bind fun p => p.view rid.slotId

def capacity (h : Heap) (rid : RecordId) : Nat :=
  ((h.pages rid.pageId).map fun p => p.capacity rid.slotId).getD 0

def readSlot (h : Heap) (rid : RecordId) : Except TableHeapError (TupleMeta × Bytes) :=
  match h.pages rid.pageId with
  | none => .error .bpm
  | some page =>
    match page.validate with
    | .error e => .error (.page rid.pageId e)
    | .ok () =>
      match page.slot rid.slotId with
      | none => .error (.slotMissing rid page.numTuples)
      | some s =>
        match page.tupleBytes s with
        | .error e => .error (.page rid.pageId e)
        | .ok bytes => .ok (s.tmeta, bytes)

/-- `write_slot_then`: `f` plans the write from the slot and hands a value on to the
caller, who acts on it once the slot is overwritten. -/
def writeSlotThen {ε α : Type} (lift : TableHeapError → ε) (h : Heap) (rid : RecordId)
    (f : TupleMeta → Bytes → Except ε (SlotWrite × α)) : Except ε (Heap × α) :=
  match hp : h.pages rid.pageId with
  | none => .error (lift .bpm)
  | some page =>
    match h.readSlot rid with
    | .error e => .error (lift e)
    | .ok (tmeta, bytes) =>
      match f tmeta bytes with
      | .error e => .error e
      | .ok (w, planned) =>
        match hw : page.applyWrite rid.slotId w with
        | .error e => .error (lift (.page rid.pageId e))
        | .ok page' => .ok (h.putPage rid.pageId page' (TablePage.applyWrite_spec (h.wf _ _ hp) hw).1, planned)

/-! ## Reading and writing slots -/

theorem readSlot_eq (h : Heap) (rid : RecordId) (v : TupleMeta × Bytes) :
    h.readSlot rid = .ok v ↔ h.slot rid = some v := by
  unfold readSlot slot
  cases hp : h.pages rid.pageId with
  | none => simp
  | some page =>
    have hw := h.wf _ _ hp
    simp only [hw.validate, Option.bind_some]
    cases hs : page.slot rid.slotId with
    | none => simp [TablePage.view, hs]
    | some s =>
      simp only [hw.tupleBytes hs, TablePage.view_of_slot hs]
      simp

theorem readSlot_of_none {h : Heap} {rid : RecordId} (hn : h.slot rid = none) : ∃ e, h.readSlot rid = .error e := by
  cases hr : h.readSlot rid with
  | error e => exact ⟨e, rfl⟩
  | ok v => rw [readSlot_eq] at hr; rw [hn] at hr; cases hr

theorem slot_length {h : Heap} {rid : RecordId} {m : TupleMeta} {d : Bytes} (hs : h.slot rid = some (m, d)) :
    d.length ≤ h.capacity rid := by
  unfold slot at hs
  unfold capacity
  cases hp : h.pages rid.pageId with
  | none => simp [hp] at hs
  | some page =>
    rw [hp] at hs
    exact (h.wf _ _ hp).view_length hs

section
variable {ε α : Type} {lift : TableHeapError → ε} {h h' : Heap} {rid : RecordId}
  {f : TupleMeta → Bytes → Except ε (SlotWrite × α)} {a : α}

structure Written (h : Heap) (rid : RecordId) (v : TupleMeta × Bytes) (w : SlotWrite) (h' : Heap) : Prop where
  old : h.slot rid = some v
  new : h'.slot rid = some (w.tmeta, w.data.getD v.2)
  frame : ∀ r, r ≠ rid → h'.slot r = h.slot r
  grows : ∀ r, h.capacity r ≤ h'.capacity r
  owner : h'.owner = h.owner

theorem putPage_slot (page : TablePage) (hw : page.Wf) (pid : Nat) (r : RecordId) :
    (h.putPage pid page hw).slot r = if r.pageId = pid then page.view r.slotId else h.slot r := by
  unfold slot putPage
  simp only
  by_cases hr : r.pageId = pid
  · simp [hr]
  · simp [hr, Function.update_of_ne]

theorem putPage_capacity (page : TablePage) (hw : page.Wf) (pid : Nat) (r : RecordId) :
    (h.putPage pid page hw).capacity r = if r.pageId = pid then page.capacity r.slotId else h.capacity r := by
  unfold capacity putPage
  simp only
  by_cases hr : r.pageId = pid
  · simp [hr]
  · simp [hr, Function.update_of_ne]

theorem rid_ext {r s : RecordId} (h1 : r.pageId = s.pageId) (h2 : r.slotId = s.slotId) : r = s := by
  cases r; cases s; simp_all

theorem writeSlotThen_ok (hok : writeSlotThen lift h rid f = .ok (h', a)) :
    ∃ v w, f v.1 v.2 = .ok (w, a) ∧ Written h rid v w h' := by
  unfold writeSlotThen at hok
  split at hok
  · cases hok
  · rename_i page hp
    split at hok
    · cases hok
    · rename_i m b hr
      rw [readSlot_eq] at hr
      split at hok
      · cases hok
      · rename_i w planned hf
        split at hok
        · cases hok
        · rename_i page' hw
          cases hok
          have hv : page.view rid.slotId = some (m, b) := by
            unfold slot at hr; rw [hp] at hr; exact hr
          obtain ⟨hwf, hview, hcap⟩ := TablePage.applyWrite_spec (h.wf _ _ hp) hw
          refine ⟨(m, b), w, hf, hr, ?_, ?_, ?_, rfl⟩
          · rw [putPage_slot, if_pos rfl, hview, if_pos rfl, hv]; rfl
          · intro r hne
            rw [putPage_slot]
            split
            · rename_i hpg
              rw [hview, if_neg fun hs => hne (rid_ext hpg hs)]
              unfold slot; rw [hpg, hp]; rfl
            · rfl
          · intro r
            rw [putPage_capacity]
            split
            · rename_i hpg
              have := hcap r.slotId
              unfold capacity; rw [hpg, hp]; exact this
            · exact Nat.le_refl _

theorem writeSlotThen_fits {v : TupleMeta × Bytes} (hs : h.slot rid = some v) {w : SlotWrite}
    (hf : f v.1 v.2 = .ok (w, a)) (hd : ∀ d, w.data = some d → d.length ≤ h.capacity rid) :
    ∃ h', writeSlotThen lift h rid f = .ok (h', a) := by
  cases hp : h.pages rid.pageId with
  | none => simp [slot, hp] at hs
  | some page =>
    have hv : page.view rid.slotId = some v := by
      unfold slot at hs; rw [hp] at hs; exact hs
    obtain ⟨page', hw⟩ := TablePage.applyWrite_fits (h.wf _ _ hp) hv (w := w) (fun d h1 => by
      have := hd d h1
      unfold capacity at this; rw [hp] at this; exact this)
    refine ⟨h.putPage rid.pageId page' (TablePage.applyWrite_spec (h.wf _ _ hp) hw).1, ?_⟩
    unfold writeSlotThen
    split
    · rename_i h0; rw [hp] at h0; cases h0
    · rename_i pg hpg
      rw [hp] at hpg
      cases hpg
      rw [(readSlot_eq h rid v).mpr hs]
      simp only [hf]
      split
      · rename_i e he; rw [hw] at he; cases he
      · rename_i pg he; rw [hw] at he; cases he; rfl

end

/-! ## Inserting -/

/-- The room an insert leaves on `page` for its rows to grow in. An empty page takes any tuple that fits. -/
def reserve (th : TableHeap) (page : TablePage) : Nat :=
  if page.numTuples = 0 then 0 else th.updateReserve

section
variable (h : Heap) (t : Nat) (th : TableHeap) (ht : h.tables t = some th)

def appendTail (page : TablePage) (hw : page.Wf) (slotId : Nat) : Heap where
  pages := Function.update h.pages th.tail.pageId (some page)
  tables := Function.update h.tables t (some { th with tail := ⟨th.tail.pageId, slotId + 1⟩ })
  owner := h.owner
  wf := (h.putPage th.tail.pageId page hw).wf
  tailOwner := by
    intro t' th' h'
    by_cases h1 : t' = t
    · subst h1
      rw [Function.update_self] at h'
      cases h'
      exact h.tailOwner t' th ht
    · rw [Function.update_of_ne h1] at h'
      exact h.tailOwner t' th' h'
  ownerPage := (h.putPage th.tail.pageId page hw).ownerPage

def growTail (fresh : Nat) (hf : h.pages fresh = none) (linked page : TablePage) (hl : linked.Wf) (hw : page.Wf)
    (slotId : Nat) : Heap where
  pages := Function.update (Function.update h.pages fresh (some page)) th.tail.pageId (some linked)
  tables := Function.update h.tables t (some { th with tail := ⟨fresh, slotId + 1⟩ })
  owner := Function.update h.owner fresh (some t)
  wf := ((h.putPage fresh page hw).putPage th.tail.pageId linked hl).wf
  tailOwner := by
    intro t' th' h'
    by_cases h1 : t' = t
    · subst h1
      rw [Function.update_self] at h'
      cases h'
      simp
    · rw [Function.update_of_ne h1] at h'
      have ho := h.tailOwner t' th' h'
      have hne : th'.tail.pageId ≠ fresh := by
        intro he
        have := h.ownerPage _ _ ho
        rw [he, hf] at this
        cases this
      rw [Function.update_of_ne hne]
      exact ho
  ownerPage := by
    intro p t' ho
    by_cases hp : p = th.tail.pageId
    · subst hp; simp
    · rw [Function.update_of_ne hp]
      by_cases hp' : p = fresh
      · subst hp'; simp
      · rw [Function.update_of_ne hp'] at ho ⊢
        exact h.ownerPage p t' ho

end

/-- Appends a tuple to table `t`. `fresh` is the page id the buffer pool hands out should the
tail page have no room. -/
def insertWithMeta (h : Heap) (t fresh : Nat) (tmeta : TupleMeta) (data : Bytes) :
    Except TableHeapError (RecordId × Heap) :=
  match ht : h.tables t with
  | none => .error .bpm
  | some th =>
    if data.length > TablePage.maxTupleSize then .error (.tooLarge data.length TablePage.maxTupleSize)
    else match hp : h.pages th.tail.pageId with
      | none => .error .bpm
      | some page =>
        if page.canInsert (data.length + reserve th page) then
          match hi : page.insertWithMeta tmeta data with
          | .error e => .error (.page th.tail.pageId e)
          | .ok (slotId, page') =>
            .ok (⟨th.tail.pageId, slotId⟩,
              h.appendTail t th ht page' (TablePage.insert_wf (h.wf _ _ hp) hi) slotId)
        else match hf : h.pages fresh with
          | some _ => .error .bpm
          | none =>
            match hi : (TablePage.init fun _ => 0).insertWithMeta tmeta data with
            | .error e => .error (.page fresh e)
            | .ok (slotId, page') =>
              .ok (⟨fresh, slotId⟩,
                h.growTail t th ht fresh hf (page.setNextPageId fresh) page'
                  (TablePage.setNextPageId_wf (h.wf _ _ hp) fresh)
                  (TablePage.insert_wf (TablePage.init_wf _) hi) slotId)

/-- An insert that needs a new page has put its row on it, and then cannot reach the tail page to
link it: a page of no table is left behind. -/
def strand (h : Heap) (t fresh : Nat) (tmeta : TupleMeta) (data : Bytes) : Option Heap :=
  match h.tables t with
  | none => none
  | some th =>
    match h.pages th.tail.pageId, h.pages fresh with
    | some page, none =>
      if data.length > TablePage.maxTupleSize then none
      else if page.canInsert (data.length + reserve th page) then none
      else match hi : (TablePage.init fun _ => 0).insertWithMeta tmeta data with
        | .error _ => none
        | .ok (_, page') => some (h.putPage fresh page' (TablePage.insert_wf (TablePage.init_wf _) hi))
    | _, _ => none

structure Inserted (h : Heap) (t : Nat) (rid : RecordId) (tmeta : TupleMeta) (data : Bytes) (h' : Heap) : Prop where
  old : h.slot rid = none
  new : h'.slot rid = some (tmeta, data)
  frame : ∀ r, r ≠ rid → h'.slot r = h.slot r
  grows : ∀ r, r ≠ rid → h'.capacity r = h.capacity r
  owned : h'.owner rid.pageId = some t
  owner : ∀ r, (h.slot r).isSome → h'.owner r.pageId = h.owner r.pageId

theorem slot_owner_ne {h : Heap} {r : RecordId} {fresh : Nat} (hf : h.pages fresh = none)
    (hs : (h.slot r).isSome) : r.pageId ≠ fresh := by
  intro he
  simp [slot, he, hf] at hs

theorem insertWithMeta_ok {h h' : Heap} {t fresh : Nat} {m : TupleMeta} {d : Bytes} {rid : RecordId}
    (hok : h.insertWithMeta t fresh m d = .ok (rid, h')) : Inserted h t rid m d h' := by
  unfold insertWithMeta at hok
  split at hok
  · cases hok
  · rename_i th ht
    split at hok
    · cases hok
    · split at hok
      · cases hok
      · rename_i page hp
        have hw := h.wf _ _ hp
        have hown := h.tailOwner t th ht
        split at hok
        · split at hok
          · cases hok
          · rename_i slotId page' hi
            cases hok
            have hview := TablePage.insert_view hw hi
            have hcap := fun j => TablePage.insert_capacity (j := j) hi
            obtain ⟨hid, _, _⟩ := TablePage.insertWithMeta_ok hi
            have hslot : ∀ r, (h.appendTail t th ht page' (TablePage.insert_wf hw hi) slotId).slot r =
                if r.pageId = th.tail.pageId then page'.view r.slotId else h.slot r :=
              fun r => putPage_slot (h := h) page' (TablePage.insert_wf hw hi) th.tail.pageId r
            constructor
            · simp only [slot, hp, Option.bind_some]
              exact TablePage.view_eq_none.mpr (Nat.le_of_eq hid.symm)
            · rw [hslot, if_pos rfl, hview, if_pos rfl]
            · intro r hr
              rw [hslot]
              split
              · rename_i hpg
                rw [hview, if_neg fun he => hr (rid_ext hpg he)]
                unfold slot; rw [hpg, hp]; rfl
              · rfl
            · intro r hr
              have : (h.appendTail t th ht page' (TablePage.insert_wf hw hi) slotId).capacity r =
                  if r.pageId = th.tail.pageId then page'.capacity r.slotId else h.capacity r :=
                putPage_capacity (h := h) page' (TablePage.insert_wf hw hi) _ r
              rw [this]
              split
              · rename_i hpg
                rw [hcap _ fun he => hr (rid_ext hpg he)]
                unfold capacity; rw [hpg, hp]; rfl
              · rfl
            · exact hown
            · intro r _; rfl
        · split at hok
          · cases hok
          · rename_i hf
            split at hok
            · cases hok
            · rename_i slotId page' hi
              cases hok
              have hne : fresh ≠ th.tail.pageId := by
                intro he; rw [he, hp] at hf; cases hf
              have hview := TablePage.insert_view (TablePage.init_wf _) hi
              have hcap := fun j => TablePage.insert_capacity (j := j) hi
              have hslot : ∀ r, (h.growTail t th ht fresh hf (page.setNextPageId fresh) page'
                  (TablePage.setNextPageId_wf hw fresh) (TablePage.insert_wf (TablePage.init_wf _) hi)
                    slotId).slot r =
                  if r.pageId = th.tail.pageId then page.view r.slotId
                  else if r.pageId = fresh then page'.view r.slotId else h.slot r := by
                intro r
                have := putPage_slot (h := h.putPage fresh page' (TablePage.insert_wf (TablePage.init_wf _) hi))
                  (page.setNextPageId fresh) (TablePage.setNextPageId_wf hw fresh) th.tail.pageId r
                rw [putPage_slot (h := h)] at this
                exact this
              have hcap' : ∀ r, (h.growTail t th ht fresh hf (page.setNextPageId fresh) page'
                  (TablePage.setNextPageId_wf hw fresh) (TablePage.insert_wf (TablePage.init_wf _) hi)
                    slotId).capacity r =
                  if r.pageId = th.tail.pageId then page.capacity r.slotId
                  else if r.pageId = fresh then page'.capacity r.slotId else h.capacity r := by
                intro r
                have := putPage_capacity (h := h.putPage fresh page' (TablePage.insert_wf (TablePage.init_wf _) hi))
                  (page.setNextPageId fresh) (TablePage.setNextPageId_wf hw fresh) th.tail.pageId r
                rw [putPage_capacity (h := h)] at this
                exact this
              constructor
              · simp [slot, hf]
              · rw [hslot, if_neg hne, if_pos rfl, hview, if_pos rfl]
              · intro r hr
                rw [hslot]
                split
                · rename_i hpg
                  unfold slot; rw [hpg, hp]; rfl
                · split
                  · rename_i hpg
                    rw [hview, if_neg fun he => hr (rid_ext hpg he)]
                    simp [slot, hpg, hf, TablePage.view, TablePage.slot, TablePage.init]
                  · rfl
              · intro r hr
                rw [hcap']
                split
                · rename_i hpg
                  unfold capacity; rw [hpg, hp]; rfl
                · split
                  · rename_i hpg
                    rw [hcap _ fun he => hr (rid_ext hpg he)]
                    simp [capacity, hpg, hf, TablePage.capacity, TablePage.slot, TablePage.init]
                  · rfl
              · simp [growTail]
              · intro r hs
                simp only [growTail]
                rw [Function.update_of_ne (slot_owner_ne hf hs)]

/-! ## New tables -/

def empty : Heap where
  pages := fun _ => none
  tables := fun _ => none
  owner := fun _ => none
  wf := fun _ _ h => by cases h
  tailOwner := fun _ _ h => by cases h
  ownerPage := fun _ _ h => by cases h

def create (h : Heap) (t fresh updateReserve : Nat) (hf : h.pages fresh = none) : Heap where
  pages := Function.update h.pages fresh (some (TablePage.init fun _ => 0))
  tables := Function.update h.tables t (some ⟨fresh, ⟨fresh, 0⟩, updateReserve⟩)
  owner := Function.update h.owner fresh (some t)
  wf := (h.putPage fresh _ (TablePage.init_wf _)).wf
  tailOwner := by
    intro t' th' h'
    by_cases h1 : t' = t
    · subst h1
      rw [Function.update_self] at h'
      cases h'
      simp
    · rw [Function.update_of_ne h1] at h'
      have ho := h.tailOwner t' th' h'
      have hne : th'.tail.pageId ≠ fresh := by
        intro he
        have := h.ownerPage _ _ ho
        rw [he, hf] at this
        cases this
      rw [Function.update_of_ne hne]
      exact ho
  ownerPage := by
    intro p t' ho
    by_cases hp : p = fresh
    · subst hp; simp
    · rw [Function.update_of_ne hp] at ho ⊢
      exact h.ownerPage p t' ho

theorem create_slot {h : Heap} {t fresh reserve : Nat} (hf : h.pages fresh = none) (r : RecordId) :
    (h.create t fresh reserve hf).slot r = h.slot r := by
  have : (h.create t fresh reserve hf).slot r =
      if r.pageId = fresh then (TablePage.init fun _ => 0).view r.slotId else h.slot r :=
    putPage_slot (h := h) _ (TablePage.init_wf _) fresh r
  rw [this]
  split
  · rename_i hr
    simp [slot, hr, hf, TablePage.view, TablePage.slot, TablePage.init]
  · rfl

end Heap

end Cmudb
