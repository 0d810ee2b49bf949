import Cmudb.LeafView
import Cmudb.LeafSound

/-!
# Editing the bytes of a leaf

`LeafRaw` is a leaf page's bytes taken apart into the numbers of its header and
its entries, whether or not they agree with each other, so that every single
write of an edit goes from one `LeafRaw` to the next. The bytes that
`LeafPage.encode` writes are those of `LeafRaw.ofPage`, and an edit in place
goes from there to the bytes of the edited page.
-/

namespace Cmudb

namespace BPlus

open Lib

/-! ## Bytes taken apart -/

def leafHead (size next count : Nat) (slots : List Nat) : Bytes :=
  magic ++ leBytes 2 version ++ [kindLeaf, 0] ++ leBytes 4 size ++ leBytes 4 0 ++ leBytes 8 next ++
    leBytes 4 count ++
    cells (leBytes 4) slots

structure LeafRaw where
  size : Nat
  next : Nat
  count : Nat
  slots : List Nat
  entries : List (Key × Bytes)

namespace LeafRaw

def head (r : LeafRaw) : Bytes := leafHead r.size r.next r.count r.slots

def bytes (layout : Layout) (r : LeafRaw) : Bytes := layout.leafArea.image r.head r.entries

def view (layout : Layout) (r : LeafRaw) : LeafPageView := ⟨r.bytes layout, layout⟩

/-- The numbers of the header are those of the entries, and everything has room. -/
structure Ok (layout : Layout) (r : LeafRaw) : Prop where
  size : r.size = r.entries.length
  slots : r.slots.length = layout.tombstoneCapacity
  count : r.count ≤ layout.tombstoneCapacity
  small : ∀ s ∈ r.slots, s < 2 ^ 32
  payloads : ∀ e ∈ r.entries, e.2.length = layout.leafArea.payloadLen
  fits : layout.leafArea.slotsStart + r.entries.length * 2 + (dataBytes r.entries).length ≤ pageSize

variable {layout : Layout} {r : LeafRaw}

theorem head_length (r : LeafRaw) : r.head.length = 28 + r.slots.length * 4 := by
  simp only [head, leafHead, List.length_append, leBytes_length, cells_length (leBytes_length 4), magic,
    List.length_cons, List.length_nil]

theorem Ok.packed (h : r.Ok layout) : layout.leafArea.Packed r.head r.entries := by
  refine ⟨?_, h.payloads, h.fits⟩
  rw [head_length, h.slots]
  rfl

theorem bytes_eq (layout : Layout) (r : LeafRaw) :
    r.bytes layout = r.head ++ layout.leafArea.image [] r.entries := by
  simp [bytes, EntryArea.image]

theorem Ok.bytes_length (h : r.Ok layout) : (r.bytes layout).length = pageSize := h.packed.image_length

/-! ## Reading and writing the header -/

theorem slice?_head {a e : Nat} {b : Bytes} (h : slice? r.head a e = some b) :
    slice? (r.bytes layout) a e = some b := by
  rw [bytes_eq]
  exact slice?_left h _

theorem getLe_head {k off n : Nat} (h : slice? r.head off (off + k) = some (leBytes k n)) (hn : n < 256 ^ k) :
    getLe k (r.bytes layout) off = some n := by
  rw [getLe, slice?_head h, Option.map_some, leNat_leBytes hn]

theorem slice?_magic : slice? r.head 0 4 = some magic := by
  unfold head leafHead
  simp only [List.append_assoc]
  exact @slice?_mid UInt8 [] magic _ 0 4 rfl rfl

theorem slice?_version : slice? r.head 4 (4 + 2) = some (leBytes 2 version) := by
  unfold head leafHead
  simp only [List.append_assoc]
  rw [← List.append_assoc]
  exact slice?_mid rfl rfl

theorem slice?_kind : slice? r.head 6 (6 + 1) = some (leBytes 1 kindLeaf.toNat) := by
  have hsplit : r.head = magic ++ leBytes 2 version ++ [kindLeaf] ++ ([0] ++ leBytes 4 r.size ++ leBytes 4 0 ++
      leBytes 8 r.next ++ leBytes 4 r.count ++ cells (leBytes 4) r.slots) := by
    simp [head, leafHead]
  rw [hsplit]
  exact slice?_mid rfl rfl

theorem head_size (r : LeafRaw) : r.head = magic ++ leBytes 2 version ++ [kindLeaf, 0] ++ leBytes 4 r.size ++
    (leBytes 4 0 ++ leBytes 8 r.next ++ leBytes 4 r.count ++ cells (leBytes 4) r.slots) := by
  simp [head, leafHead]

theorem slice?_size : slice? r.head nodeSizeOffset (nodeSizeOffset + 4) = some (leBytes 4 r.size) := by
  rw [head_size]
  exact slice?_mid rfl rfl

theorem slice?_reserved : slice? r.head (nodeSizeOffset + 4) (nodeSizeOffset + 4 + 4) = some (leBytes 4 0) := by
  have hsplit : r.head = magic ++ leBytes 2 version ++ [kindLeaf, 0] ++ leBytes 4 r.size ++ leBytes 4 0 ++
      (leBytes 8 r.next ++ leBytes 4 r.count ++ cells (leBytes 4) r.slots) := by
    simp [head, leafHead]
  rw [hsplit]
  exact slice?_mid (by simp [nodeSizeOffset, commonHeaderBytes, magic]) (by simp)

theorem head_next (r : LeafRaw) :
    r.head = magic ++ leBytes 2 version ++ [kindLeaf, 0] ++ leBytes 4 r.size ++ leBytes 4 0 ++
    leBytes 8 r.next ++ (leBytes 4 r.count ++ cells (leBytes 4) r.slots) := by
  simp [head, leafHead]

theorem slice?_next : slice? r.head nodePageIdOffset (nodePageIdOffset + 8) = some (leBytes 8 r.next) := by
  rw [head_next]
  exact slice?_mid (by simp [nodePageIdOffset, commonHeaderBytes, magic]) (by simp)

theorem slice?_count :
    slice? r.head leafTombstoneCountOffset (leafTombstoneCountOffset + 4) = some (leBytes 4 r.count) :=
  slice?_mid (by simp [leafTombstoneCountOffset, leafFixedHeaderBytes, nodePageIdOffset, commonHeaderBytes, magic])
    (by simp)

theorem slots_offset {as : List Nat} {i : Nat} (hi : i = as.length) :
    leafTombstoneOffset i = (magic ++ leBytes 2 version ++ [kindLeaf, 0] ++ leBytes 4 r.size ++ leBytes 4 0 ++
      leBytes 8 r.next ++ leBytes 4 r.count).length + as.length * 4 := by
  simp [leafTombstoneOffset, leafFixedHeaderBytes, nodePageIdOffset, commonHeaderBytes, magic, hi]

theorem slice?_slot {as bs : List Nat} {s i : Nat} (hr : r.slots = as ++ s :: bs) (hi : i = as.length) :
    slice? r.head (leafTombstoneOffset i) (leafTombstoneOffset i + 4) = some (leBytes 4 s) := by
  have h := @slice?_cell UInt8 Nat (leBytes 4) 4 (leBytes_length 4) (magic ++ leBytes 2 version ++ [kindLeaf, 0] ++
    leBytes 4 r.size ++ leBytes 4 0 ++ leBytes 8 r.next ++ leBytes 4 r.count) [] as bs s _ _ (slots_offset hi) rfl
  rwa [List.append_nil, ← hr] at h

theorem view_size (h : r.size < 2 ^ 32) : (r.view layout).size = some r.size := getLe_head slice?_size h

theorem view_count (h : r.count < 2 ^ 32) : (r.view layout).tombstoneCount = some r.count :=
  getLe_head slice?_count h

theorem view_tombstone {as bs : List Nat} {s i : Nat} (hr : r.slots = as ++ s :: bs) (hi : i = as.length)
    (hcap : i < layout.tombstoneCapacity) (hs : s < 2 ^ 32) : (r.view layout).tombstone i = some s := by
  have hcap' : i < (r.view layout).tombstoneCapacity := hcap
  rw [LeafPageView.tombstone, guard_bind hcap']
  exact getLe_head (slice?_slot hr hi) hs

theorem write_head {off : Nat} {b : Bytes} {r' : LeafRaw} (h : put r.head off b = some r'.head)
    (he : r'.entries = r.entries) :
    (r.view layout).write (put (r.view layout).buf off b) = some (r'.view layout) := by
  have hput : put (r.view layout).buf off b = some (r'.bytes layout) := by
    show put (r.bytes layout) off b = _
    rw [bytes_eq, bytes_eq, he]
    exact put_left h _
  rw [hput]
  rfl

theorem put_size (n : Nat) : put r.head nodeSizeOffset (leBytes 4 n) = some { r with size := n }.head := by
  rw [head_size, head_size]
  exact put_mid rfl (by simp)

theorem put_next (n : Nat) : put r.head nodePageIdOffset (leBytes 8 n) = some { r with next := n }.head := by
  rw [head_next, head_next]
  exact put_mid (by simp [nodePageIdOffset, commonHeaderBytes, magic]) (by simp)

theorem put_count (n : Nat) : put r.head leafTombstoneCountOffset (leBytes 4 n) = some { r with count := n }.head :=
  put_mid (by simp [leafTombstoneCountOffset, leafFixedHeaderBytes, nodePageIdOffset, commonHeaderBytes, magic])
    (by simp)

theorem view_setSize (n : Nat) : (r.view layout).setSize n = some ({ r with size := n }.view layout) :=
  write_head (put_size n) rfl

theorem view_setTombstoneCount (n : Nat) :
    (r.view layout).setTombstoneCount n = some ({ r with count := n }.view layout) :=
  write_head (put_count n) rfl

theorem view_setTombstone {as bs : List Nat} {s s' i : Nat} (hr : r.slots = as ++ s :: bs) (hi : i = as.length) :
    (r.view layout).setTombstone i s' = some ({ r with slots := as ++ s' :: bs }.view layout) := by
  apply write_head
  · have h := @put_cell UInt8 Nat (leBytes 4) 4 (leBytes_length 4) (magic ++ leBytes 2 version ++ [kindLeaf, 0] ++
      leBytes 4 r.size ++ leBytes 4 0 ++ leBytes 8 r.next ++ leBytes 4 r.count) [] as bs s s' _ (slots_offset hi)
    rw [List.append_nil, List.append_nil, ← hr] at h
    exact h
  · rfl

/-! ## Rewriting the tombstones -/

section
variable {σ : Type} (f : σ → Nat → Option Nat × σ)

def keep : σ → List Nat → List Nat × σ
  | s, [] => ([], s)
  | s, t :: ts =>
    let rest := keep (f s t).2 ts
    (((f s t).1.toList ++ rest.1), rest.2)

theorem keep_length (s : σ) (ts : List Nat) : (keep f s ts).1.length ≤ ts.length := by
  induction ts generalizing s with
  | nil => simp [keep]
  | cons t ts ih =>
    have h := ih (f s t).2
    rw [keep, List.length_append, List.length_cons]
    cases (f s t).1 with
    | none => simp only [Option.toList_none, List.length_nil]; omega
    | some v => simp only [Option.toList_some, List.length_cons, List.length_nil]; omega

theorem rewriteStep_none {v : LeafPageView} {kept i t : Nat} {s s' : σ} (hread : v.tombstone i = some t)
    (hf : f s t = (none, s')) : LeafPageView.rewriteStep f (v, kept, s) i = some (v, kept, s') := by
  rw [LeafPageView.rewriteStep]
  dsimp only
  rw [hread, some_bind, hf]
  rfl

theorem rewriteStep_some {v v' : LeafPageView} {kept i t slot : Nat} {s s' : σ} (hread : v.tombstone i = some t)
    (hf : f s t = (some slot, s')) (hwrite : v.setTombstone kept slot = some v') :
    LeafPageView.rewriteStep f (v, kept, s) i = some (v', kept + 1, s') := by
  rw [LeafPageView.rewriteStep]
  dsimp only
  rw [hread, some_bind, hf]
  dsimp only
  rw [hwrite, some_bind]
  rfl

/-- The loop over the tombstones `ts` that are still to be read. The kept slots are written over the first ones, and
`stale` stands between them and `ts`. -/
theorem rewrite_loop {kept stale ts rest : List Nat} {s : σ} (hr : r.slots = kept ++ stale ++ ts ++ rest)
    (hcap : kept.length + stale.length + ts.length ≤ layout.tombstoneCapacity) (hts : ∀ t ∈ ts, t < 2 ^ 32) :
    ∃ stale', stale'.length + (keep f s ts).1.length = stale.length + ts.length ∧
      (List.range' (kept.length + stale.length) ts.length).foldlM (LeafPageView.rewriteStep f)
        (r.view layout, kept.length, s) =
        some ({ r with slots := kept ++ (keep f s ts).1 ++ stale' ++ rest }.view layout,
          kept.length + (keep f s ts).1.length, (keep f s ts).2) := by
  induction ts generalizing r kept stale s with
  | nil =>
    refine ⟨stale, by simp [keep], ?_⟩
    simp only [keep, List.append_nil, List.length_nil, Nat.add_zero] at hr ⊢
    rw [List.range'_zero, List.foldlM_nil, ← hr]
    rfl
  | cons t ts ih =>
    have hread : (r.view layout).tombstone (kept.length + stale.length) = some t := by
      apply @view_tombstone layout r (kept ++ stale) (ts ++ rest) t
      · simp [hr]
      · simp
      · simp only [List.length_cons] at hcap
        omega
      · exact hts t (by simp)
    have hts' : ∀ u ∈ ts, u < 2 ^ 32 := fun u hu => hts u (by simp [hu])
    rw [List.length_cons] at hcap ⊢
    rw [List.range'_succ, List.foldlM_cons]
    cases hf : f s t with
    | mk slot s' =>
      cases slot with
      | none =>
        obtain ⟨stale', hlen, hrun⟩ := @ih r kept (stale ++ [t]) s' (by simp [hr])
          (by rw [List.length_append, List.length_singleton]; omega) hts'
        have hkeep : keep f s (t :: ts) = keep f s' ts := by simp [keep, hf]
        rw [List.length_append, List.length_singleton] at hlen hrun
        refine ⟨stale', by rw [hkeep]; omega, ?_⟩
        rw [rewriteStep_none f hread hf, some_bind, hkeep]
        exact hrun
      | some slot =>
        -- the kept slot goes over the first stale one, or over `t` itself
        obtain ⟨u, us, hu⟩ : ∃ u us, stale ++ [t] = u :: us := by
          cases stale with
          | nil => exact ⟨t, [], rfl⟩
          | cons u us => exact ⟨u, us ++ [t], rfl⟩
        have hlen' : us.length = stale.length := by
          have := congrArg List.length hu
          simpa using this.symm
        have hslots : r.slots = kept ++ u :: (us ++ ts ++ rest) := by
          have hassoc : kept ++ stale ++ t :: ts ++ rest = kept ++ (stale ++ [t]) ++ (ts ++ rest) := by simp
          rw [hr, hassoc, hu]
          simp
        have hwrite := @view_setTombstone layout r kept (us ++ ts ++ rest) u slot kept.length hslots rfl
        obtain ⟨stale', hlen, hrun⟩ :=
          @ih { r with slots := kept ++ slot :: (us ++ ts ++ rest) } (kept ++ [slot]) us s'
          (by simp) (by rw [List.length_append, List.length_singleton]; omega) hts'
        have hkeep : keep f s (t :: ts) = (slot :: (keep f s' ts).1, (keep f s' ts).2) := by simp [keep, hf]
        rw [List.length_append, List.length_singleton] at hrun
        refine ⟨stale', by rw [hkeep, List.length_cons]; omega, ?_⟩
        rw [rewriteStep_some f hread hf hwrite, some_bind, hkeep, List.length_cons]
        have hidx : kept.length + stale.length + 1 = kept.length + 1 + us.length := by omega
        rw [hidx, hrun]
        simp only [List.append_assoc, List.cons_append, List.nil_append]
        congr 3
        omega

theorem zero_loop {kept stale rest : List Nat} (hr : r.slots = kept ++ stale ++ rest) :
    (List.range' kept.length stale.length).foldlM (fun v i => v.setTombstone i 0) (r.view layout) =
      some ({ r with slots := kept ++ List.replicate stale.length 0 ++ rest }.view layout) := by
  induction stale generalizing r kept with
  | nil =>
    simp only [List.append_nil, List.length_nil, List.replicate_zero] at hr ⊢
    rw [List.range'_zero, List.foldlM_nil, ← hr]
    rfl
  | cons u us ih =>
    have hwrite := @view_setTombstone layout r kept (us ++ rest) u 0 kept.length (by simp [hr]) rfl
    have hrun := @ih { r with slots := kept ++ 0 :: (us ++ rest) } (kept ++ [0]) (by simp)
    rw [List.length_append, List.length_singleton] at hrun
    rw [List.length_cons, List.range'_succ, List.foldlM_cons, hwrite, some_bind, hrun]
    simp [List.replicate_succ]

theorem rewriteTombstones_view {ts rest : List Nat} {s : σ} (hr : r.slots = ts ++ rest)
    (hcount : r.count = ts.length) (hcap : ts.length ≤ layout.tombstoneCapacity) (hts : ∀ t ∈ ts, t < 2 ^ 32)
    (hlt : ts.length < 2 ^ 32) :
    (r.view layout).rewriteTombstones f s =
      some ({ r with
        count := (keep f s ts).1.length
        slots :=
  (keep f s ts).1 ++ List.replicate (ts.length - (keep f s ts).1.length) 0 ++ rest }.view layout) := by
  obtain ⟨stale, hlen, hrun⟩ := @rewrite_loop layout r σ f [] [] ts rest s (by simp [hr]) (by simpa using hcap) hts
  simp only [List.length_nil, Nat.zero_add, List.nil_append] at hlen hrun
  have hstale : ts.length - (keep f s ts).1.length = stale.length := by omega
  have hzero :=
    @zero_loop layout { r with slots := (keep f s ts).1 ++ stale ++ rest } (keep f s ts).1 stale rest rfl
  rw [LeafPageView.rewriteTombstones, view_count (by rw [hcount]; exact hlt), some_bind, hcount,
    List.range_eq_range', hrun, some_bind]
  dsimp only
  rw [hstale, hzero, some_bind, view_setTombstoneCount]

end

/-! ## The bytes of a page -/

def ofPage (layout : Layout) (p : LeafPage) : LeafRaw :=
  ⟨p.entries.length, encodePageId p.nextLeafId, p.tombstones.length,
    p.tombstones ++ List.replicate (layout.tombstoneCapacity - p.tombstones.length) 0, p.encodedEntries⟩

end LeafRaw

namespace LeafPage

variable {layout : Layout} {p : LeafPage}

@[simp] theorem encodeRecordIdBytes_length (rid : RecordId) : (encodeRecordIdBytes rid).length = 16 := by
  simp [encodeRecordIdBytes]

theorem dataBytes_entries (es : List (Key × RecordId)) :
    (dataBytes (es.map encodedEntry)).length + es.length * 2 =
      ((es.map Prod.fst).map fun k => layout.leafArea.entryCost k.length).sum := by
  have hpays : ∀ e ∈ es.map encodedEntry, e.2.length = layout.leafArea.payloadLen := by
    intro e he
    obtain ⟨x, -, rfl⟩ := List.mem_map.mp he
    exact encodeRecordIdBytes_length x.2
  have hkeys : (es.map encodedEntry).map Prod.fst = es.map Prod.fst := by
    rw [List.map_map]
    rfl
  have hcost := dataBytes_cost hpays
  rwa [List.length_map, hkeys] at hcost

theorem usedBytes_eq (layout : Layout) (p : LeafPage) :
    p.usedBytes layout = (dataBytes p.encodedEntries).length + p.entries.length * 2 :=
  (dataBytes_entries p.entries).symm

theorem length_encodedEntries (p : LeafPage) : p.encodedEntries.length = p.entries.length := by
  simp [encodedEntries]

theorem encodedEntries_split {as bs : List (Key × RecordId)} {e : Key × RecordId} (h : p.entries = as ++ e :: bs) :
    p.encodedEntries = as.map encodedEntry ++ encodedEntry e :: bs.map encodedEntry := by
  rw [encodedEntries, h, List.map_append, List.map_cons]

theorem slotsStart_lt (layout : Layout) : layout.leafArea.slotsStart < pageSize := layout.tombstonesFit

theorem raw_ok (h : p.encodes layout = true) : (LeafRaw.ofPage layout p).Ok layout := by
  simp only [encodes, check, Bool.and_eq_true, decide_eq_true_eq, List.all_eq_true] at h
  obtain ⟨⟨⟨⟨-, hfew⟩, hslots⟩, -⟩, hfit⟩ := h
  rw [usedBytes_eq, EntryArea.capacity] at hfit
  have hstart := slotsStart_lt layout
  have hpage : pageSize = 8192 := rfl
  refine ⟨(length_encodedEntries p).symm, ?_, hfew, ?_, ?_, ?_⟩
  · simp only [LeafRaw.ofPage, List.length_append, List.length_replicate]
    omega
  · intro s hs
    rcases List.mem_append.mp hs with hs | hs
    · have := hslots s hs
      omega
    · rw [List.eq_of_mem_replicate hs]
      decide
  · intro e he
    obtain ⟨x, -, rfl⟩ := List.mem_map.mp he
    exact encodeRecordIdBytes_length x.2
  · simp only [LeafRaw.ofPage, length_encodedEntries]
    omega

theorem small_of_encodes (h : p.encodes layout = true) :
    p.entries.length < 2 ^ 32 ∧ p.tombstones.length < 2 ^ 32 ∧ ∀ s ∈ p.tombstones, s < 2 ^ 32 := by
  have hok := raw_ok h
  have hfits := hok.fits
  have hstart : layout.leafArea.slotsStart = 28 + layout.tombstoneCapacity * 4 := rfl
  have hpage : pageSize = 8192 := rfl
  have hcount := hok.count
  simp only [LeafRaw.ofPage, length_encodedEntries] at hfits hcount
  refine ⟨by omega, by omega, fun s hs => hok.small s ?_⟩
  simp [LeafRaw.ofPage, hs]

theorem checkKeys_iff {ks : List Key} :
    ks.forM layout.checkKey = (pure () : Codec Unit) ↔ ∀ k ∈ ks, k.length ≤ layout.maxKeyLen := by
  induction ks with
  | nil => simp
  | cons k ks ih =>
    have hcons : (k :: ks).forM layout.checkKey = (layout.checkKey k >>= fun _ => ks.forM layout.checkKey) := rfl
    rw [hcons, Layout.checkKey, ensure_bind_iff, ih, List.forall_mem_cons]

theorem checked_iff : p.checked layout = (pure () : Codec Unit) ↔ p.check layout = true := by
  rw [checked, ensure_bind_iff, ensure_bind_iff, ensure_bind_iff, checkKeys_iff]
  simp only [check, Bool.and_eq_true, decide_eq_true_eq, List.all_eq_true, and_assoc]

theorem encodes_iff : p.encodes layout = true ↔ p.check layout = true ∧
    p.usedBytes layout ≤ layout.leafArea.capacity := by
  rw [encodes, Bool.and_eq_true, decide_eq_true_eq]

theorem putTombstones_zero {ts as : List Nat} {l r : Bytes} {rest : Nat} (hl : l.length = 28) :
    (ts.zipIdx as.length).foldlM (fun buf s => putU32Le buf (leafTombstoneOffset s.2) s.1)
      (l ++ cells (leBytes 4) (as ++ List.replicate (ts.length + rest) 0) ++ r) =
    some (l ++ cells (leBytes 4) (as ++ ts ++ List.replicate rest 0) ++ r) := by
  induction ts generalizing as with
  | nil => simp [pure]
  | cons t ts ih =>
    have ih' := @ih (as ++ [t])
    rw [List.length_append, List.length_singleton] at ih'
    have hput :=
      @put_cell UInt8 Nat (leBytes 4) 4 (leBytes_length 4) l r as (List.replicate (ts.length + rest) 0) 0 t
      (leafTombstoneOffset as.length) (by rw [hl]; rfl)
    rw [List.zipIdx_cons, List.foldlM_cons, List.length_cons, Nat.add_right_comm, List.replicate_succ]
    have hstep : putU32Le (l ++ cells (leBytes 4) (as ++ 0 :: List.replicate (ts.length + rest) 0) ++ r)
        (leafTombstoneOffset as.length) t =
          some (l ++ cells (leBytes 4) (as ++ [t] ++ List.replicate (ts.length + rest) 0) ++ r) := by
      rw [putU32Le, hput]
      simp
    rw [hstep, some_bind, ih']
    simp

theorem leBytes_zero (k : Nat) : leBytes k 0 = List.replicate k 0 := by
  induction k with
  | zero => rfl
  | succ k ih =>
    rw [leBytes, Nat.zero_div, ih, List.replicate_succ]
    rfl

theorem cells_zero (k n : Nat) : cells (leBytes k) (List.replicate n 0) = List.replicate (n * k) 0 := by
  induction n with
  | zero => simp
  | succ n ih =>
    rw [List.replicate_succ, cells_cons, ih, leBytes_zero, ← List.replicate_add, Nat.succ_mul, Nat.add_comm]

theorem putCommonHeader_over {a b c d r : Bytes} {kind : UInt8} (ha : a.length = 4) (hb : b.length = 2)
    (hc : c.length = 1) (hd : d.length = 1) :
    putCommonHeader (a ++ b ++ c ++ d ++ r) kind = some (magic ++ leBytes 2 version ++ [kind] ++ [0] ++ r) := by
  have h₁ : put (a ++ (b ++ (c ++ (d ++ r)))) 0 magic = some (magic ++ (b ++ (c ++ (d ++ r)))) :=
    @put_mid UInt8 [] a magic _ 0 rfl ha.symm
  have h₂ : put (magic ++ b ++ (c ++ (d ++ r))) 4 (leBytes 2 version) =
      some (magic ++ leBytes 2 version ++ (c ++ (d ++ r))) :=
    put_mid rfl (by simp [hb])
  have h₃ : put (magic ++ leBytes 2 version ++ c ++ (d ++ r)) kindOffset [kind] =
      some (magic ++ leBytes 2 version ++ [kind] ++ (d ++ r)) := put_mid rfl (by simp [hc])
  have h₄ : put (magic ++ leBytes 2 version ++ [kind] ++ d ++ r) 7 [0] =
      some (magic ++ leBytes 2 version ++ [kind] ++ [0] ++ r) := put_mid rfl (by simp [hd])
  simp only [List.append_assoc] at h₁ h₂ h₃ h₄ ⊢
  rw [putCommonHeader, h₁, some_bind, h₂, some_bind, h₃, some_bind, h₄]

theorem putCommonHeader_zero (cap z : Nat) (es : List (Key × Bytes)) :
    putCommonHeader (List.replicate (28 + cap * 4 + z) 0) kindLeaf =
      some ((LeafRaw.mk 0 0 0 (List.replicate cap 0) es).head ++ List.replicate z 0) := by
  have hsplit : (List.replicate (28 + cap * 4 + z) 0 : Bytes) = List.replicate 4 0 ++ List.replicate 2 0 ++
      List.replicate 1 0 ++
      List.replicate 1 0 ++ List.replicate (20 + cap * 4 + z) 0 := by
    simp only [← List.replicate_add]
    congr 1
    omega
  have hrest : leBytes 4 0 ++ leBytes 4 0 ++ leBytes 8 0 ++ leBytes 4 0 ++
      cells (leBytes 4) (List.replicate cap 0) ++
      List.replicate z 0 = (List.replicate (20 + cap * 4 + z) 0 : Bytes) := by
    simp only [leBytes_zero, cells_zero, ← List.replicate_add]
  rw [hsplit, putCommonHeader_over (by simp) (by simp) (by simp) (by simp), ← hrest]
  simp [LeafRaw.head, leafHead]

/-- A page that passes the checks is encoded as its bytes, whatever the buffer held. -/
theorem encode_of (h : p.encodes layout = true) {buf : Bytes} (hbuf : buf.length = pageSize) :
    p.encode layout buf = pure ((LeafRaw.ofPage layout p).bytes layout) := by
  obtain ⟨hcheck, hfit⟩ := encodes_iff.mp h
  obtain ⟨hsize, hcount, -⟩ := small_of_encodes h
  have hok := raw_ok h
  have hfits := hok.fits
  have hstart : layout.leafArea.slotsStart = 28 + layout.tombstoneCapacity * 4 := rfl
  have hfew : p.tombstones.length ≤ layout.tombstoneCapacity := hok.count
  have hused := usedBytes_eq layout p
  obtain ⟨z, hz⟩ : ∃ z, pageSize = 28 + layout.tombstoneCapacity * 4 + z :=
    ⟨pageSize - layout.leafArea.slotsStart, by omega⟩
  -- the header, field by field over zeroed bytes
  have hcommon := putCommonHeader_zero layout.tombstoneCapacity z p.encodedEntries
  rw [← hz] at hcommon
  generalize hr₀ : LeafRaw.mk 0 0 0 (List.replicate layout.tombstoneCapacity 0) p.encodedEntries = r₀ at hcommon
  have h₁ := put_left (@LeafRaw.put_size r₀ p.entries.length) (List.replicate z 0)
  have h₂ :=
    put_left (@LeafRaw.put_next { r₀ with size := p.entries.length } (encodePageId p.nextLeafId))
        (List.replicate z 0)
  have h₃ := put_left (@LeafRaw.put_count { r₀ with size := p.entries.length, next := encodePageId p.nextLeafId }
    p.tombstones.length) (List.replicate z 0)
  have hslots : putTombstones p.tombstones
      (({ r₀ with size := p.entries.length, next := encodePageId p.nextLeafId, count := p.tombstones.length } :
        LeafRaw).head ++
        List.replicate z 0) = some ((LeafRaw.ofPage layout p).head ++ List.replicate z 0) := by
    have hrest : layout.tombstoneCapacity =
        p.tombstones.length + (layout.tombstoneCapacity - p.tombstones.length) := by omega
    have hput :=
      @putTombstones_zero p.tombstones []
          (magic ++ leBytes 2 version ++ [kindLeaf, 0] ++ leBytes 4 p.entries.length ++
      leBytes 4 0 ++ leBytes 8 (encodePageId p.nextLeafId) ++ leBytes 4 p.tombstones.length) (List.replicate z 0)
      (layout.tombstoneCapacity - p.tombstones.length) (by simp [magic])
    rw [← hrest, List.nil_append] at hput
    rw [← hr₀]
    exact hput
  -- the entries behind it
  have hdata : pageSize - (p.usedBytes layout - p.entries.length * 2) =
      pageSize - (dataBytes p.encodedEntries).length := by omega
  have hentries :=
    @EntryArea.putEntries_zero layout.leafArea (LeafRaw.ofPage layout p).head p.encodedEntries hok.packed z
    (by rw [hok.packed.head, hstart]; omega)
  have hneeded : pageSize - layout.leafArea.capacity + p.usedBytes layout ≤ pageSize := by
    unfold EntryArea.capacity at hfit ⊢
    omega
  rw [encode, checked_iff.mpr hcheck, pure_bind]
  dsimp only
  rw [ensureFitsPage, ensure_bind hneeded, ensure_bind hbuf, hbuf, hcommon, lift_some, pure_bind, toU32,
    ensure_bind hsize, pure_bind, putU32Le, h₁, lift_some, pure_bind, putU64Le, h₂, lift_some, pure_bind, toU32,
    ensure_bind hcount, pure_bind, putU32Le, h₃, lift_some, pure_bind, hslots, lift_some, pure_bind, hdata,
    hentries, lift_some, pure_bind]
  rfl

theorem encode_ok {buf image : Bytes} (h : p.encode layout buf = pure image) :
    p.encodes layout = true ∧ buf.length = pageSize ∧ image = (LeafRaw.ofPage layout p).bytes layout := by
  have hrun := h
  rw [encode] at hrun
  obtain ⟨u, hchecked, hrun⟩ := bind_eq_pure hrun
  dsimp only at hrun
  rw [ensureFitsPage, ensure_bind_iff, ensure_bind_iff] at hrun
  obtain ⟨hneeded, hbuf, -⟩ := hrun
  have hcap : layout.leafArea.capacity ≤ pageSize := Nat.sub_le _ _
  have henc : p.encodes layout = true := encodes_iff.mpr ⟨checked_iff.mp hchecked, by omega⟩
  refine ⟨henc, hbuf, ?_⟩
  rw [encode_of henc hbuf] at h
  exact (Except.ok.inj (Option.some.inj h)).symm

/-! ## Reading a page back -/

structure Fits (p : LeafPage) : Prop where
  next : ∀ id ∈ p.nextLeafId, id ≤ maxPageId
  rids : ∀ e ∈ p.entries, e.2.pageId ≤ maxPageId ∧ e.2.slotId < 2 ^ 32

theorem decodePageId_encode {link : Option Nat} (h : ∀ id ∈ link, id ≤ maxPageId) :
    decodePageId (encodePageId link) = pure link := by
  cases link with
  | none => exact if_pos rfl
  | some id =>
    have hid : id ≤ maxPageId := h id rfl
    have hne : id ≠ noPageU64 := by
      unfold maxPageId at hid
      unfold noPageU64
      omega
    rw [encodePageId, decodePageId, if_neg hne, pageIdOfU64, ensure_bind hid]
    rfl

theorem decodeRecordIdBytes_encode {rid : RecordId} (hp : rid.pageId ≤ maxPageId) (hs : rid.slotId < 2 ^ 32) :
    decodeRecordIdBytes (encodeRecordIdBytes rid) = pure rid := by
  have hp' : rid.pageId < 256 ^ 8 := by unfold maxPageId at hp; omega
  have hs' : rid.slotId < 256 ^ 8 := by omega
  have h₁ : slice? (encodeRecordIdBytes rid) 0 8 = some (leBytes 8 rid.pageId) :=
    @slice?_mid UInt8 [] (leBytes 8 rid.pageId) _ 0 8 rfl (by simp)
  have h₂ : slice? (encodeRecordIdBytes rid) 8 16 = some (leBytes 8 rid.slotId) := by
    have := @slice?_mid UInt8 (leBytes 8 rid.pageId) (leBytes 8 rid.slotId) [] 8 16 (by simp) (by simp)
    rwa [List.append_nil] at this
  have hhalf₁ : payloadHalf (encodeRecordIdBytes rid) 0 8 = pure rid.pageId := by
    rw [payloadHalf, h₁]
    dsimp only
    rw [leNat_leBytes hp']
  have hhalf₂ : payloadHalf (encodeRecordIdBytes rid) 8 16 = pure rid.slotId := by
    rw [payloadHalf, h₂]
    dsimp only
    rw [leNat_leBytes hs']
  rw [decodeRecordIdBytes, hhalf₁, pure_bind, hhalf₂, pure_bind, decodeRecordId, pageIdOfU64,
    ensure_bind hp, pure_bind, ensure_bind hs]

theorem readLe_of {buf : Bytes} {pos k n : Nat} (h : slice? buf pos (pos + k) = some (leBytes k n))
    (hn : n < 256 ^ k) :
    readLe k buf pos = pure n := by
  obtain ⟨-, hle, heq⟩ := slice?_some h
  rw [Nat.add_sub_cancel_left] at heq
  rw [readLe, readBytes, if_pos hle, pure_bind, ← heq, leNat_leBytes hn]

theorem slice?_of_readBytes {buf b : Bytes} {pos k : Nat} (h : readBytes buf pos k = pure b) :
    slice? buf pos (pos + k) = some b := by
  unfold readBytes at h
  by_cases hle : pos + k ≤ buf.length
  · rw [if_pos hle] at h
    rw [slice?_eq hle, Except.ok.inj (Option.some.inj h)]
  · rw [if_neg hle] at h
    cases h

theorem getLe_of_readLe {buf : Bytes} {pos k n : Nat} (h : readLe k buf pos = pure n) :
    getLe k buf pos = some n := by
  obtain ⟨bs, hbs, hn⟩ := bind_eq_pure h
  rw [getLe, slice?_of_readBytes hbs, Option.map_some, Except.ok.inj (Option.some.inj hn)]

theorem expect_of_read {buf : Bytes} {kind : UInt8} (h : readCommonHeaderOfKind buf kind = pure ()) :
    expectCommonHeader buf kind = pure () := by
  obtain ⟨actual, hread, h⟩ := bind_eq_pure h
  obtain ⟨bs, hmagic, hread⟩ := bind_eq_pure hread
  rw [ensure_bind_iff] at hread
  obtain ⟨rfl, hread⟩ := hread
  obtain ⟨found, hversion, hread⟩ := bind_eq_pure hread
  rw [ensure_bind_iff] at hread
  obtain ⟨rfl, hread⟩ := hread
  obtain ⟨k, hkind, hread⟩ := bind_eq_pure hread
  obtain ⟨reserved, hreserved, hread⟩ := bind_eq_pure hread
  rw [Except.ok.inj (Option.some.inj hread)] at hkind
  have hlong : commonHeaderBytes ≤ buf.length := by
    obtain ⟨b, hb, -⟩ := bind_eq_pure hreserved
    exact (slice?_some (slice?_of_readBytes hb)).2.1
  have hmagic' := slice?_of_readBytes hmagic
  rw [Nat.zero_add] at hmagic'
  have hversion' : getU16Le buf 4 = some version := getLe_of_readLe hversion
  have hpeek : peekCommonHeader buf = pure actual := by
    rw [peekCommonHeader, ensure_bind hlong, hmagic', lift_some, pure_bind, ensure_bind rfl, hversion',
      lift_some, pure_bind, ensure_bind rfl, getLe_of_readLe hkind, lift_some]
  rw [expectCommonHeader, hpeek, pure_bind]
  exact h

theorem readCommonHeader_raw (r : LeafRaw) : readCommonHeaderOfKind (r.bytes layout) kindLeaf = pure () := by
  have hmagic : readBytes (r.bytes layout) 0 4 = pure magic := by
    obtain ⟨-, hle, heq⟩ := slice?_some (@LeafRaw.slice?_head layout r _ _ _ LeafRaw.slice?_magic)
    rw [readBytes, if_pos hle, heq]
  have hversion : readLe 2 (r.bytes layout) 4 = pure version :=
    readLe_of (LeafRaw.slice?_head LeafRaw.slice?_version) (by decide)
  have hkind : readLe 1 (r.bytes layout) kindOffset = pure kindLeaf.toNat :=
    readLe_of (LeafRaw.slice?_head LeafRaw.slice?_kind) (by decide)
  have hreserved : readLe 1 (r.bytes layout) 7 = pure 0 := by
    have hsplit : r.head = magic ++ leBytes 2 version ++ [kindLeaf] ++ leBytes 1 0 ++
      (leBytes 4 r.size ++ leBytes 4 0 ++
        leBytes 8 r.next ++ leBytes 4 r.count ++ cells (leBytes 4) r.slots) := by
      simp [LeafRaw.head, leafHead, leBytes]
    refine readLe_of (LeafRaw.slice?_head ?_) (by decide)
    rw [hsplit]
    exact slice?_mid rfl rfl
  have hread : readCommonHeader (r.bytes layout) = pure kindLeaf.toNat := by
    rw [readCommonHeader, hmagic, pure_bind, ensure_bind rfl, hversion, pure_bind, ensure_bind rfl, hkind,
      pure_bind, hreserved, pure_bind]
  rw [readCommonHeaderOfKind, hread, pure_bind, ensure, if_pos rfl]

theorem encodePageId_lt {link : Option Nat} (h : ∀ id ∈ link, id ≤ maxPageId) : encodePageId link < 256 ^ 8 := by
  cases link with
  | none => decide
  | some id =>
    have hid : id ≤ maxPageId := h id rfl
    unfold maxPageId at hid
    show id < _
    omega

theorem decode_of (h : p.encodes layout = true) (hfits : p.Fits) :
    decode layout ((LeafRaw.ofPage layout p).bytes layout) = pure p := by
  obtain ⟨hcheck, -⟩ := encodes_iff.mp h
  obtain ⟨hsize, hcount, hsmall⟩ := small_of_encodes h
  have hok := raw_ok h
  have hread₁ : readLe 4 ((LeafRaw.ofPage layout p).bytes layout) nodeSizeOffset = pure p.entries.length :=
    readLe_of (LeafRaw.slice?_head LeafRaw.slice?_size) hsize
  have hread₂ : readLe 4 ((LeafRaw.ofPage layout p).bytes layout) (nodeSizeOffset + 4) = pure 0 :=
    readLe_of (LeafRaw.slice?_head LeafRaw.slice?_reserved) (by decide)
  have hread₃ : readLe 8 ((LeafRaw.ofPage layout p).bytes layout) nodePageIdOffset =
      pure (encodePageId p.nextLeafId) :=
    readLe_of (LeafRaw.slice?_head LeafRaw.slice?_next) (encodePageId_lt hfits.next)
  have hread₄ : readLe 4 ((LeafRaw.ofPage layout p).bytes layout) leafFixedHeaderBytes = pure p.tombstones.length :=
    readLe_of (LeafRaw.slice?_head LeafRaw.slice?_count) hcount
  have htombs : (List.range p.tombstones.length).mapM (fun i => readLe 4 ((LeafRaw.ofPage layout p).bytes layout)
      (leafFixedHeaderBytes + 4 + i * 4)) = pure p.tombstones := by
    apply mapM_range
    intro as a bs hsplit
    refine readLe_of (LeafRaw.slice?_head (@LeafRaw.slice?_slot _ as
      (bs ++ List.replicate (layout.tombstoneCapacity - p.tombstones.length) 0) a _ ?_ rfl))
        (hsmall a (by simp [hsplit]))
    simp [LeafRaw.ofPage, hsplit]
  have hentries : (List.range p.entries.length).mapM
      (decodeEntry layout ((LeafRaw.ofPage layout p).bytes layout) p.entries.length) = pure p.entries := by
    apply mapM_range
    intro as e bs hsplit
    have hents : (LeafRaw.ofPage layout p).entries = _ := encodedEntries_split hsplit
    have hpacked := hok.packed
    rw [hents] at hpacked
    have hlen : p.entries.length = (as.map encodedEntry ++ encodedEntry e :: bs.map encodedEntry).length := by
      simp [hsplit]
    have hkey := EntryArea.key_image hpacked hlen (show as.length = (as.map _).length by simp)
    have hpay := EntryArea.payload_image hpacked hlen (show as.length = (as.map _).length by simp)
    obtain ⟨hp, hs⟩ := hfits.rids e (by simp [hsplit])
    rw [decodeEntry, LeafRaw.bytes, hents, hkey, lift_some, pure_bind, hpay, lift_some, pure_bind,
      decodeRecordIdBytes_encode hp hs, pure_bind]
  have harea :
      (ExceptT.mk (layout.leafArea.check ((LeafRaw.ofPage layout p).bytes layout) p.entries.length) : Codec Unit) =
      pure () := by
    rw [LeafRaw.bytes, EntryArea.check_image hok.packed (length_encodedEntries p).symm]
    rfl
  have hfew : p.tombstones.length ≤ layout.tombstoneCapacity := hok.count
  rw [decode, ensure_bind (Nat.le_of_eq hok.bytes_length.symm), readCommonHeader_raw, pure_bind, hread₁,
    pure_bind, hread₂, pure_bind, hread₃, pure_bind, decodePageId_encode hfits.next, pure_bind, harea, pure_bind,
    hread₄, pure_bind, ensure_bind hfew, htombs, pure_bind, hentries, pure_bind]
  dsimp only
  rw [checked_iff.mpr hcheck, pure_bind]

/-! ## Reading through the view -/

/-- The view reads what the page holds. -/
structure SeenBy (p : LeafPage) (v : LeafPageView) : Prop where
  size : v.size = some p.entries.length
  key : ∀ i < p.entries.length, v.key i = p.keys[i]?
  tombstoneCount : v.tombstoneCount = some p.tombstones.length
  tombstone : ∀ i s, p.tombstones[i]? = some s → v.tombstone i = some s

section
variable {v : LeafPageView} (h : p.SeenBy v)
include h

theorem SeenBy.tombstoneIs (g : Nat → Bool) {count : Nat} (hc : count = p.tombstones.length) :
    (List.range count).anyM (v.tombstoneIs g) = some (p.tombstones.any g) := by
  rw [hc]
  apply anyM_range
  intro as s bs hsplit
  rw [LeafPageView.tombstoneIs, h.tombstone as.length s (by simp [hsplit])]
  rfl

theorem SeenBy.isTombstoned (slot : Nat) : v.isTombstoned slot = some (p.isTombstoned slot) := by
  rw [LeafPageView.isTombstoned, h.tombstoneCount, some_bind, h.tombstoneIs _ rfl, LeafPage.isTombstoned]
  congr 1
  rw [Bool.eq_iff_iff]
  simp

theorem SeenBy.lowerBound (key : Key) : v.lowerBound key = some (p.lowerBound key) := by
  have hbelow : ∀ i, i < p.entries.length → v.keyBelow key i = some ((p.keys[i]?).any (· < key)) := by
    intro i hi
    have hi' : i < p.keys.length := by rwa [length_keys]
    rw [LeafPageView.keyBelow, h.key i hi, List.getElem?_eq_getElem hi']
    rfl
  rw [LeafPageView.lowerBound, h.size, some_bind, LeafPage.lowerBound, length_keys]
  exact partitionPoint?_eq hbelow

theorem SeenBy.upperBound (key : Key) : v.upperBound key = some (p.upperBound key) := by
  have hatMost : ∀ i, i < p.entries.length → v.keyAtMost key i = some ((p.keys[i]?).any (· ≤ key)) := by
    intro i hi
    have hi' : i < p.keys.length := by rwa [length_keys]
    rw [LeafPageView.keyAtMost, h.key i hi, List.getElem?_eq_getElem hi']
    rfl
  rw [LeafPageView.upperBound, h.size, some_bind, LeafPage.upperBound, length_keys]
  exact partitionPoint?_eq hatMost

theorem SeenBy.search (key : Key) : v.search key = some (p.search key) := by
  have hpoint := h.lowerBound key
  rw [LeafPageView.lowerBound, h.size, some_bind] at hpoint
  rw [LeafPageView.search, h.size, some_bind, hpoint, some_bind, LeafPage.search]
  dsimp only
  by_cases hlt : p.lowerBound key < p.entries.length
  · have hlt' : p.lowerBound key < p.keys.length := by rwa [length_keys]
    rw [if_pos hlt, h.key _ hlt, List.getElem?_eq_getElem hlt', some_bind]
    by_cases heq : p.keys[p.lowerBound key] = key
    · rw [if_pos heq, if_pos (by rw [heq])]
      rfl
    · rw [if_neg heq, if_neg (by simpa using heq)]
      rfl
  · have hnone : p.keys[p.lowerBound key]? = none := List.getElem?_eq_none (by rw [length_keys]; omega)
    rw [if_neg hlt, if_neg (by rw [hnone]; intro hno; cases hno)]
    rfl

theorem SeenBy.new (hlen : v.buf.length = pageSize) (hheader : expectCommonHeader v.buf kindLeaf = pure ())
    (harea : v.layout.leafArea.check v.buf p.entries.length = some (.ok ())) (hcheck : p.check v.layout = true) :
    LeafPageView.new v.buf v.layout = pure v := by
  have hsize : getU32Le v.buf nodeSizeOffset = some p.entries.length := h.size
  have hcount : getU32Le v.buf leafTombstoneCountOffset = some p.tombstones.length := h.tombstoneCount
  have harea' : (ExceptT.mk (v.layout.leafArea.check v.buf p.entries.length) : Codec Unit) = pure () := by
    rw [harea]
    rfl
  simp only [check, Bool.and_eq_true, List.all_eq_true, decide_eq_true_eq] at hcheck
  have houtside : (List.range p.tombstones.length).anyM (v.tombstoneIs (p.entries.length ≤ ·)) = some false := by
    have hany : p.tombstones.any (p.entries.length ≤ ·) = false := by
      rw [List.any_eq_false]
      intro s hs
      have := hcheck.1.2 s hs
      simp only [decide_eq_true_eq]
      omega
    rw [← hany]
    exact h.tombstoneIs (p.entries.length ≤ ·) rfl
  have hview : LeafPageView.mk v.buf v.layout = v := rfl
  rw [LeafPageView.new, ensure_bind hlen, hheader, pure_bind, hsize, lift_some, pure_bind, harea', pure_bind,
    hcount, lift_some, pure_bind, ensure_bind hcheck.1.1.2, hview, houtside, lift_some, pure_bind, ensure_bind rfl]

end

def view (layout : Layout) (p : LeafPage) : LeafPageView := (LeafRaw.ofPage layout p).view layout

section
variable (h : p.encodes layout = true)
include h

theorem view_size : (p.view layout).size = some p.entries.length := LeafRaw.view_size (small_of_encodes h).1

theorem view_tombstoneCount : (p.view layout).tombstoneCount = some p.tombstones.length :=
  LeafRaw.view_count (small_of_encodes h).2.1

theorem view_tombstone {i s : Nat} (hs : p.tombstones[i]? = some s) : (p.view layout).tombstone i = some s := by
  have hfew : p.tombstones.length ≤ layout.tombstoneCapacity := (raw_ok h).count
  obtain ⟨as, t, bs, hp, rfl⟩ := exists_at (List.getElem?_eq_some_iff.mp hs).1
  have hst : t = s := by simpa [hp] using hs
  subst hst
  refine @LeafRaw.view_tombstone layout _ as
    (bs ++ List.replicate (layout.tombstoneCapacity - p.tombstones.length) 0) t _ ?_ rfl ?_
    ((small_of_encodes h).2.2 t (by simp [hp]))
  · simp [LeafRaw.ofPage, hp]
  · rw [hp, List.length_append, List.length_cons] at hfew
    omega

theorem split_at {i : Nat} (hi : i < p.entries.length) : ∃ as e bs, p.entries = as ++ e :: bs ∧ i = as.length ∧
    layout.leafArea.Packed (LeafRaw.ofPage layout p).head
    (as.map encodedEntry ++ encodedEntry e :: bs.map encodedEntry) ∧
    (p.view layout).buf =
      layout.leafArea.image (LeafRaw.ofPage layout p).head
      (as.map encodedEntry ++ encodedEntry e :: bs.map encodedEntry) := by
  obtain ⟨as, e, bs, hsplit, rfl⟩ := exists_at hi
  have hpacked := (raw_ok h).packed
  have hents : (LeafRaw.ofPage layout p).entries = _ := encodedEntries_split hsplit
  rw [hents] at hpacked
  exact ⟨as, e, bs, hsplit, rfl, hpacked, congrArg (layout.leafArea.image _) hents⟩

theorem view_key {i : Nat} (hi : i < p.entries.length) : (p.view layout).key i = p.keys[i]? := by
  obtain ⟨as, e, bs, hsplit, rfl, hpacked, hbuf⟩ := split_at h hi
  have hkeys : p.keys[as.length]? = some e.1 := by
    rw [getElem?_keys, hsplit]
    simp
  rw [LeafPageView.key, view_size h, some_bind, hkeys, hbuf]
  exact EntryArea.key_image hpacked (by simp [hsplit]) (by simp)

theorem seenBy_view : p.SeenBy (p.view layout) :=
  ⟨view_size h, fun _ hi => view_key h hi, view_tombstoneCount h, fun _ _ hs => view_tombstone h hs⟩

theorem view_isTombstoned (slot : Nat) : (p.view layout).isTombstoned slot = some (p.isTombstoned slot) :=
  (seenBy_view h).isTombstoned slot

theorem view_search (key : Key) : (p.view layout).search key = some (p.search key) := (seenBy_view h).search key

theorem view_new : LeafPageView.new ((LeafRaw.ofPage layout p).bytes layout) layout = pure (p.view layout) := by
  have hok := raw_ok h
  apply (seenBy_view h).new hok.bytes_length (expect_of_read (readCommonHeader_raw _)) ?_ (encodes_iff.mp h).1
  exact EntryArea.check_image hok.packed (length_encodedEntries p).symm

end

/-! ## Editing through the view -/

theorem keep_map (f : Nat → Option Nat) (ts : List Nat) :
    LeafRaw.keep (fun (_ : Unit) t => (f t, ())) () ts = (ts.filterMap f, ()) := by
  induction ts with
  | nil => rfl
  | cons t ts ih =>
    rw [LeafRaw.keep]
    dsimp only
    rw [ih, List.filterMap_cons]
    cases f t with
    | none => rfl
    | some v => rfl

theorem keep_dropFirst (ts : List Nat) : (LeafRaw.keep LeafPageView.dropFirst true ts).1 = ts.tail := by
  have hrest : ∀ ts, (LeafRaw.keep LeafPageView.dropFirst false ts).1 = ts := by
    intro ts
    induction ts with
    | nil => rfl
    | cons t ts ih =>
      rw [LeafRaw.keep]
      exact congrArg (t :: ·) ih
  cases ts with
  | nil => rfl
  | cons t ts => exact hrest ts

structure Slots (layout : Layout) (p : LeafPage) : Prop where
  few : p.tombstones.length ≤ layout.tombstoneCapacity
  count : p.tombstones.length < 2 ^ 32
  small : ∀ s ∈ p.tombstones, s < 2 ^ 32

theorem slots_of_encodes (h : p.encodes layout = true) : p.Slots layout :=
  ⟨(raw_ok h).count, (small_of_encodes h).2.1, (small_of_encodes h).2.2⟩

theorem slots_kept (h : p.encodes layout = true) {q : LeafPage} (hq : q.tombstones = p.tombstones) :
    q.Slots layout := by
  obtain ⟨hfew, hcount, hsmall⟩ := slots_of_encodes h
  rw [← hq] at hfew hcount hsmall
  exact ⟨hfew, hcount, hsmall⟩

theorem Slots.rewrite (h : p.Slots layout) {σ : Type} {f : σ → Nat → Option Nat × σ} {s : σ} {ts : List Nat}
    (hkeep : (LeafRaw.keep f s p.tombstones).1 = ts) :
    (p.view layout).rewriteTombstones f s = some (({ p with tombstones := ts } : LeafPage).view layout) := by
  have hlen := LeafRaw.keep_length f s p.tombstones
  have hfew := h.few
  rw [view, @LeafRaw.rewriteTombstones_view layout _ σ f p.tombstones _ s rfl rfl hfew h.small h.count, hkeep]
  rw [hkeep] at hlen
  have hzeros : List.replicate (p.tombstones.length - ts.length) 0 ++
      List.replicate (layout.tombstoneCapacity - p.tombstones.length) 0 =
        List.replicate (layout.tombstoneCapacity - ts.length) 0 := by
    rw [← List.replicate_add]
    congr 1
    omega
  rw [List.append_assoc, hzeros]
  rfl

theorem Slots.map (h : p.Slots layout) (f : Nat → Option Nat) :
    (p.view layout).mapTombstones f =
      some (({ p with tombstones := p.tombstones.filterMap f } : LeafPage).view layout) :=
  h.rewrite (by rw [keep_map])

/-- What reviving through the view makes of a page: unlike `revive`, it drops every tombstone of the slot. -/
def reviveAll (p : LeafPage) (slot : Nat) (key : Key) (rid : RecordId) : LeafPage :=
  { p with
    entries := p.entries.set slot (key, rid), tombstones :=
      p.tombstones.filterMap fun s => if s ≠ slot then some s else none }

theorem view_setPayload (h : p.encodes layout = true) {pos : Nat} {key : Key} (hk : p.keys[pos]? = some key)
    (rid : RecordId) :
    (p.view layout).write
      ((p.view layout).area.setPayload (p.view layout).buf p.entries.length pos (encodeRecordIdBytes rid)) =
      some (({ p with entries := p.entries.set pos (key, rid) } : LeafPage).view layout) := by
  have hi : pos < p.entries.length := by
    have := (List.getElem?_eq_some_iff.mp hk).1
    rwa [length_keys] at this
  obtain ⟨as, e, bs, hsplit, rfl, hpacked, hbuf⟩ := split_at h hi
  have hkey : e.1 = key := by
    rw [getElem?_keys, hsplit] at hk
    simpa using hk
  have hset := EntryArea.setPayload_image hpacked (show p.entries.length = _ by simp [hsplit])
    (show as.length = (as.map encodedEntry).length by simp)
      (encodeRecordIdBytes_length rid)
  have hents : p.entries.set as.length (key, rid) = as ++ (key, rid) :: bs := by simp [hsplit]
  have harea : (p.view layout).area = layout.leafArea := rfl
  rw [hbuf, harea, hset, hents, ← hkey]
  simp only [view, LeafRaw.view, LeafPageView.write, Option.map_some, LeafRaw.bytes, LeafRaw.ofPage, LeafRaw.head,
    encodedEntries, List.map_append, List.map_cons, hsplit, List.length_append, List.length_cons]

theorem view_revive (h : p.encodes layout = true) {pos : Nat} {key : Key} {rid : RecordId}
    (hsr : p.search key = .ok pos) (ht : p.isTombstoned pos = true) :
    (p.view layout).insert key rid = some (.ok (), (p.reviveAll pos key rid).view layout) := by
  have hslots : ({ p with entries := p.entries.set pos (key, rid) } : LeafPage).Slots layout := slots_kept h rfl
  rw [LeafPageView.insert, view_search h, some_bind, hsr]
  dsimp only
  rw [view_isTombstoned h, some_bind, if_pos ht, view_size h, some_bind, view_setPayload h (search_ok hsr),
    some_bind, hslots.map, some_bind]
  rfl

theorem view_duplicate (h : p.encodes layout = true) {pos : Nat} {key : Key} {rid : RecordId}
    (hsr : p.search key = .ok pos) (ht : ¬ p.isTombstoned pos = true) :
    (p.view layout).insert key rid = some (.error .duplicateKey, p.view layout) := by
  rw [LeafPageView.insert, view_search h, some_bind, hsr]
  dsimp only
  rw [view_isTombstoned h, some_bind, if_neg ht]
  rfl

theorem view_free (h : p.encodes layout = true) :
    (p.view layout).area.free (p.view layout).buf p.entries.length =
      some (layout.leafArea.capacity - p.usedBytes layout) := by
  have hfree := EntryArea.free_image (raw_ok h).packed (length_encodedEntries p).symm
  have hused : p.usedBytes layout = (LeafRaw.ofPage layout p).entries.length * 2 +
      (dataBytes (LeafRaw.ofPage layout p).entries).length := by
    rw [usedBytes_eq, Nat.add_comm, ← length_encodedEntries]
    rfl
  rw [hused]
  exact hfree

theorem view_full (h : p.encodes layout = true) {pos : Nat} {key : Key} {rid : RecordId}
    (hsr : p.search key = .error pos)
    (hroom : layout.leafArea.capacity - p.usedBytes layout < layout.leafArea.entryCost key.length) :
    (p.view layout).insert key rid = some (.error .full, p.view layout) := by
  rw [LeafPageView.insert, view_search h, some_bind, hsr]
  dsimp only
  rw [view_size h, some_bind, view_free h, some_bind]
  exact if_pos hroom

theorem view_insertAt (h : p.encodes layout = true) {pos : Nat} {key : Key} {rid : RecordId}
    (hsr : p.search key = .error pos) (hpos : pos ≤ p.entries.length)
    (hroom : ¬ layout.leafArea.capacity - p.usedBytes layout < layout.leafArea.entryCost key.length) :
    (p.view layout).insert key rid = some (.ok (), (p.insertAt pos key rid).view layout) := by
  have hpacked := (raw_ok h).packed
  have hused := usedBytes_eq layout p
  have hsplit : p.encodedEntries = p.encodedEntries.take pos ++ p.encodedEntries.drop pos :=
    (List.take_append_drop _ _).symm
  have hents : (LeafRaw.ofPage layout p).entries = p.encodedEntries.take pos ++ p.encodedEntries.drop pos := hsplit
  rw [hents] at hpacked
  have hins := @EntryArea.insert_image layout.leafArea (LeafRaw.ofPage layout p).head (p.encodedEntries.take pos)
    (p.encodedEntries.drop pos) (key, encodeRecordIdBytes rid) p.entries.length pos hpacked
      (encodeRecordIdBytes_length rid)
    (by
      rw [← hsplit, length_encodedEntries]
      show layout.leafArea.entryCost key.length ≤ _
      omega)
    (by rw [← hsplit, length_encodedEntries]) (by simp [length_encodedEntries, hpos])
  rw [← hsplit] at hins
  have hnew : p.encodedEntries.take pos ++ (key, encodeRecordIdBytes rid) :: p.encodedEntries.drop pos =
      (p.insertAt pos key rid).encodedEntries := by
    have hlist : (p.insertAt pos key rid).entries = p.entries.take pos ++ (key, rid) :: p.entries.drop pos :=
      Lib.insertIdx_eq_append hpos _
    simp [encodedEntries, hlist]
  have hwrite : (p.view layout).write ((p.view layout).area.insert (p.view layout).buf p.entries.length pos key
      (encodeRecordIdBytes rid)) =
      some (({ LeafRaw.ofPage layout p with entries := (p.insertAt pos key rid).encodedEntries } :
        LeafRaw).view layout) := by
    rw [← hnew]
    exact congrArg (Option.map _) hins
  have hlen : (p.insertAt pos key rid).entries.length = p.entries.length + 1 :=
    List.length_insertIdx_of_le_length hpos _
  have hslots : ({ p.insertAt pos key rid with tombstones := p.tombstones } : LeafPage).Slots layout :=
    slots_kept h rfl
  have hmap := hslots.map fun s => some (if pos ≤ s then s + 1 else s)
  have harea : (p.view layout).area.entryCost key.length = layout.leafArea.entryCost key.length := rfl
  rw [LeafPageView.insert, view_search h, some_bind, hsr]
  dsimp only
  rw [view_size h, some_bind, view_free h, some_bind, harea, if_neg hroom, hwrite, some_bind,
    LeafRaw.view_setSize, some_bind]
  have hview :
    ({ LeafRaw.ofPage layout p
      with entries := (p.insertAt pos key rid).encodedEntries, size := p.entries.length + 1 } :
      LeafRaw) = LeafRaw.ofPage layout { p.insertAt pos key rid with tombstones := p.tombstones } := by
    rw [LeafRaw.ofPage, LeafRaw.ofPage, LeafRaw.mk.injEq]
    exact ⟨hlen.symm, rfl, rfl, rfl, rfl⟩
  rw [hview]
  have hadjust : p.tombstones.filterMap (fun s => some (if pos ≤ s then s + 1 else s)) =
      adjustTombstonesAfterInsert p.tombstones pos :=
    congrFun List.filterMap_eq_map p.tombstones
  rw [view] at hmap
  dsimp only at hmap ⊢
  rw [hmap, some_bind, hadjust]
  rfl

theorem view_physicalRemoveAt (h : p.encodes layout = true) {slot : Nat} (hs : slot < p.entries.length) :
    (p.view layout).physicalRemoveAt slot = some ((p.physicalRemoveAt slot).view layout) := by
  obtain ⟨as, e, bs, hsplit, rfl, hpacked, hbuf⟩ := split_at h hs
  have hrem := EntryArea.remove_image hpacked (show p.entries.length = _ by simp [hsplit])
    (show as.length = (as.map encodedEntry).length by simp)
  have hnew : as.map encodedEntry ++ bs.map encodedEntry =
      (p.physicalRemoveAt as.length).encodedEntries := by
    have hlist : (p.physicalRemoveAt as.length).entries = as ++ bs := by
      show p.entries.eraseIdx as.length = _
      rw [hsplit, List.eraseIdx_append_of_length_le (Nat.le_refl _)]
      simp
    rw [encodedEntries, hlist, List.map_append]
  have hwrite : (p.view layout).write ((p.view layout).area.remove (p.view layout).buf p.entries.length as.length) =
      some (({ LeafRaw.ofPage layout p with entries := (p.physicalRemoveAt as.length).encodedEntries } :
        LeafRaw).view layout) := by
    rw [← hnew, hbuf]
    exact congrArg (Option.map _) hrem
  have hlen : (p.physicalRemoveAt as.length).entries.length = p.entries.length - 1 := List.length_eraseIdx_of_lt hs
  have hslots : ({ p.physicalRemoveAt as.length with tombstones := p.tombstones } : LeafPage).Slots layout :=
    slots_kept h rfl
  have hmap := hslots.map fun s => if s = as.length then none else if as.length < s then some (s - 1) else some s
  have hview :
    ({ LeafRaw.ofPage layout p
      with entries := (p.physicalRemoveAt as.length).encodedEntries, size := p.entries.length - 1 } :
      LeafRaw) = LeafRaw.ofPage layout { p.physicalRemoveAt as.length with tombstones := p.tombstones } := by
    rw [LeafRaw.ofPage, LeafRaw.ofPage, LeafRaw.mk.injEq]
    exact ⟨hlen.symm, rfl, rfl, rfl, rfl⟩
  have hadjust : p.tombstones.filterMap (fun s => if s = as.length then none else if as.length < s then some (s - 1)
      else some s) =
      adjustTombstonesAfterRemove p.tombstones as.length := by
    rw [adjustTombstonesAfterRemove, ← List.filterMap_eq_filter, List.map_filterMap]
    apply List.filterMap_congr
    intro s _
    by_cases heq : s = as.length
    · simp [heq]
    · by_cases hlt : as.length < s
      · simp [heq, hlt, Option.guard]
      · simp [heq, hlt, Option.guard]
  rw [LeafPageView.physicalRemoveAt, view_size h, some_bind, hwrite, some_bind, minus_of_le (by omega), some_bind,
    LeafRaw.view_setSize, some_bind, hview]
  rw [view] at hmap
  rw [hmap, hadjust]
  rfl

theorem Slots.push (h : p.Slots layout) (hroom : p.tombstones.length < layout.tombstoneCapacity) (slot : Nat) :
    (p.view layout).pushTombstone slot =
      some (({ p with tombstones := p.tombstones ++ [slot] } : LeafPage).view layout) := by
  obtain ⟨rest, hrest⟩ : ∃ rest, layout.tombstoneCapacity - p.tombstones.length = rest + 1 :=
    ⟨layout.tombstoneCapacity - p.tombstones.length - 1, by omega⟩
  have hslots : ({ LeafRaw.ofPage layout p with count := p.tombstones.length + 1 } : LeafRaw).slots =
      p.tombstones ++ 0 :: List.replicate rest 0 := by
    show p.tombstones ++ List.replicate _ 0 = _
    rw [hrest, List.replicate_succ]
  have hlast : layout.tombstoneCapacity - (p.tombstones ++ [slot]).length = rest := by
    rw [List.length_append, List.length_singleton]
    omega
  have hcount : (p.view layout).tombstoneCount = some p.tombstones.length := LeafRaw.view_count h.count
  have hset : (p.view layout).setTombstoneCount (p.tombstones.length + 1) =
      some (({ LeafRaw.ofPage layout p with count := p.tombstones.length + 1 } : LeafRaw).view layout) :=
    LeafRaw.view_setTombstoneCount _
  rw [LeafPageView.pushTombstone, hcount, some_bind, hset, some_bind, LeafRaw.view_setTombstone hslots rfl]
  rw [view, LeafRaw.ofPage, LeafRaw.ofPage]
  dsimp only
  rw [hlast, List.append_assoc, List.length_append]
  rfl

theorem view_removeKey {lo : Key} {hi : Option Key} (hok : p.Ok layout lo hi)
    (hfit : p.usedBytes layout ≤ layout.leafArea.capacity) (key : Key) :
    (p.view layout).removeKey key =
      some ((p.removeKey layout key).elim (false, p.view layout) fun q => (true, q.view layout)) := by
  have h := encodes_of_ok hok hfit
  rw [LeafPageView.removeKey, view_search h, some_bind, removeKey]
  cases hsr : p.search key with
  | error pos => rfl
  | ok slot =>
    have hk := search_ok hsr
    have hslot : slot < p.entries.length := by
      have := (List.getElem?_eq_some_iff.mp hk).1
      rwa [length_keys] at this
    have hcapacity : (p.view layout).tombstoneCapacity = layout.tombstoneCapacity := rfl
    dsimp only
    rw [view_isTombstoned h, some_bind, hcapacity]
    by_cases ht : p.isTombstoned slot = true
    · rw [if_pos ht, if_pos ht]
      rfl
    rw [if_neg ht, if_neg ht]
    by_cases hcap : layout.tombstoneCapacity = 0
    · rw [if_pos hcap, if_pos hcap, view_physicalRemoveAt h hslot]
      rfl
    rw [if_neg hcap, if_neg hcap, LeafPageView.evictOldest, view_tombstoneCount h, some_bind, hcapacity]
    by_cases hfull : p.tombstonesFull layout = true
    · have hfull' : layout.tombstoneCapacity ≤ p.tombstones.length := of_decide_eq_true hfull
      rw [if_pos hfull, if_pos hfull']
      cases htombs : p.tombstones with
      | nil =>
        rw [htombs, List.length_nil] at hfull'
        omega
      | cons oldest rest =>
        have henc : ({ p with tombstones := rest } : LeafPage).encodes layout = true :=
          encodes_of_ok (hok.tail htombs) hfit
        have holdest : oldest < p.entries.length := hok.slots oldest (by simp [htombs])
        have hdrop : (p.view layout).rewriteTombstones LeafPageView.dropFirst true =
            some (({ p with tombstones := rest } : LeafPage).view layout) :=
          (slots_of_encodes h).rewrite (by rw [keep_dropFirst, htombs, List.tail_cons])
        have hpurge := view_physicalRemoveAt henc holdest
        rw [← purgeOldest_eq htombs] at hpurge
        have hused : p.purgeOldestTombstone.usedBytes layout ≤ p.usedBytes layout := by
          apply usedBytes_le_of_sublist
          rw [purgeOldest_eq htombs, keys_physicalRemoveAt]
          exact List.eraseIdx_sublist _ _
        have hslots := slots_of_encodes (encodes_of_ok hok.purge (Nat.le_trans hused hfit))
        have hroom : p.purgeOldestTombstone.tombstones.length < layout.tombstoneCapacity := by
          have h₁ := length_tombstones_physicalRemoveAt { p with tombstones := rest } oldest
          have h₂ := hok.few
          rw [htombs, List.length_cons] at h₂
          rw [purgeOldest_eq htombs]
          exact Nat.lt_of_le_of_lt h₁ h₂
        have hfirst : (p.view layout).tombstone 0 = some oldest := view_tombstone h (by rw [htombs]; rfl)
        rw [hfirst, some_bind, hdrop, some_bind, hpurge, some_bind, pure_bind]
        dsimp only
        rw [hslots.push hroom, some_bind]
        rfl
    · have hroom : p.tombstones.length < layout.tombstoneCapacity :=
        Nat.lt_of_not_le fun hle => hfull (decide_eq_true hle)
      rw [if_neg hfull, if_neg (Nat.not_le.mpr hroom), pure_bind]
      dsimp only
      rw [(slots_of_encodes h).push hroom, some_bind]
      rfl

/-! ## The two ways to edit a leaf -/

/-- Inserting in place does what inserting into the decoded page does, when that fits. -/
structure InsertAgrees (layout : Layout) (p : LeafPage) (image : Bytes) (key : Key) (rid : RecordId)
    (result : Except LeafInsertError Unit) (after : Bytes) : Prop where
  ok : result = .ok () ↔ ∃ q, p.insert key rid = .ok q ∧ q.isOverfull layout = false
  bytes : ∀ q, result = .ok () → p.insert key rid = .ok q → ∀ page : Bytes, page.length = pageSize →
    q.encode layout page = pure after
  full : result = .error .full ↔ ∃ q, p.insert key rid = .ok q ∧ q.isOverfull layout = true
  duplicate : result = .error .duplicateKey ↔ p.insert key rid = .error .duplicateKey
  unchanged : ∀ e, result = .error e → after = image
  asserts : ∀ q, p.insert key rid = .ok q → q.check layout = true

/-- Removing in place does what removing from the decoded page does. -/
structure RemoveAgrees (layout : Layout) (p : LeafPage) (image : Bytes) (key : Key) (done : Bool)
    (after : Bytes) : Prop where
  ok : done = true ↔ ∃ q, p.removeKey layout key = some q
  bytes : ∀ q, p.removeKey layout key = some q → ∀ page : Bytes, page.length = pageSize →
    q.encode layout page = pure after
  unchanged : done = false → after = image
  asserts : ∀ q, p.removeKey layout key = some q → q.check layout = true

theorem nil_le_key (k : Key) : ([] : Key) ≤ k := not_lt.mp (List.not_lt_nil k)

theorem ok_of_encodes (h : p.encodes layout = true) (hkeys : p.keys.Pairwise (· < ·))
    (htombs : p.tombstones.Nodup) :
    p.Ok layout [] none := by
  simp only [encodes, check, Bool.and_eq_true, decide_eq_true_eq, List.all_eq_true] at h
  obtain ⟨⟨⟨⟨-, hfew⟩, hslots⟩, hshort⟩, -⟩ := h
  exact ⟨hkeys, fun k _ => ⟨nil_le_key k, fun u hu => by cases hu⟩, hshort, htombs, hslots, hfew⟩

theorem reviveAll_eq (htombs : p.tombstones.Nodup) (slot : Nat) (key : Key) (rid : RecordId) :
    p.reviveAll slot key rid = p.revive slot key rid := by
  have hfilter : p.tombstones.filterMap (fun s => if s ≠ slot then some s else none) =
      p.tombstones.filter (· != slot) := by
    rw [← List.filterMap_eq_filter]
    apply List.filterMap_congr
    intro s _
    by_cases hs : s = slot
    · simp [hs, Option.guard]
    · simp [hs, Option.guard]
  rw [reviveAll, revive, hfilter, htombs.erase_eq_filter]

section
variable {image after : Bytes} {key : Key} {rid : RecordId} {q : LeafPage}

theorem InsertAgrees.of_ok (hins : p.insert key rid = .ok q) (hover : q.isOverfull layout = false)
    (hcheck : q.check layout = true)
    (hbytes : ∀ page : Bytes, page.length = pageSize → q.encode layout page = pure after) :
    InsertAgrees layout p image key rid (.ok ()) after := by
  have huniq : ∀ q', p.insert key rid = .ok q' → q' = q := by
    intro q' hq'
    rw [hins] at hq'
    exact (Except.ok.inj hq').symm
  refine ⟨⟨fun _ => ⟨q, hins, hover⟩, fun _ => rfl⟩, ?_, ⟨fun hno => (by cases hno), ?_⟩,
    ⟨fun hno => (by cases hno), ?_⟩, fun e hno => (by cases hno), ?_⟩
  · intro q' _ hq'
    rw [huniq q' hq']
    exact hbytes
  · intro hfull
    obtain ⟨q', hq', hfull⟩ := hfull
    rw [huniq q' hq', hover] at hfull
    cases hfull
  · intro hno
    rw [hins] at hno
    cases hno
  · intro q' hq'
    rw [huniq q' hq']
    exact hcheck

theorem InsertAgrees.of_full (hins : p.insert key rid = .ok q) (hover : q.isOverfull layout = true)
    (hcheck : q.check layout = true) :
    InsertAgrees layout p image key rid (.error .full) image := by
  have huniq : ∀ q', p.insert key rid = .ok q' → q' = q := by
    intro q' hq'
    rw [hins] at hq'
    exact (Except.ok.inj hq').symm
  refine ⟨⟨fun hno => (by cases hno), ?_⟩, fun q' hno => (by cases hno), ⟨fun _ => ⟨q, hins, hover⟩, fun _ => rfl⟩,
    ⟨fun hno => (by cases hno), ?_⟩, fun _ _ => rfl, ?_⟩
  · intro hfit
    obtain ⟨q', hq', hfit⟩ := hfit
    rw [huniq q' hq', hover] at hfit
    cases hfit
  · intro hno
    rw [hins] at hno
    cases hno
  · intro q' hq'
    rw [huniq q' hq']
    exact hcheck

theorem InsertAgrees.of_duplicate (hins : p.insert key rid = .error .duplicateKey) :
    InsertAgrees layout p image key rid (.error .duplicateKey) image := by
  have hno : ∀ q, ¬ p.insert key rid = .ok q := by
    intro q hq
    rw [hins] at hq
    cases hq
  refine ⟨⟨fun h => (by cases h), ?_⟩, fun q h => (by cases h), ⟨fun h => (by cases h), ?_⟩,
    ⟨fun _ => hins, fun _ => rfl⟩, fun _ _ => rfl, fun q hq => absurd hq (hno q)⟩
  · intro hq
    obtain ⟨q, hq, -⟩ := hq
    exact absurd hq (hno q)
  · intro hq
    obtain ⟨q, hq, -⟩ := hq
    exact absurd hq (hno q)

end

theorem usedBytes_insertAt {pos : Nat} (hpos : pos ≤ p.entries.length) (key : Key) (rid : RecordId) :
    (p.insertAt pos key rid).usedBytes layout = p.usedBytes layout + layout.leafArea.entryCost key.length := by
  have hsum : p.usedBytes layout = ((p.keys.take pos).map fun k => layout.leafArea.entryCost k.length).sum +
      ((p.keys.drop pos).map fun k => layout.leafArea.entryCost k.length).sum := by
    rw [← List.sum_append, ← List.map_append, List.take_append_drop]
    rfl
  rw [usedBytes, keys_insertAt, Lib.insertIdx_eq_append (by rw [length_keys]; exact hpos), List.map_append,
    List.map_cons, List.sum_append, List.sum_cons, hsum]
  omega

theorem insert_agrees (hok : p.Ok layout [] none) (hfit : p.usedBytes layout ≤ layout.leafArea.capacity) {key : Key}
    (hkey : key.length ≤ layout.maxKeyLen) (rid : RecordId) :
    ∃ result v, (p.view layout).insert key rid = some (result, v) ∧
      InsertAgrees layout p (p.view layout).buf key rid result v.buf := by
  have h := encodes_of_ok hok hfit
  have hin : InRange [] none key := ⟨nil_le_key key, fun u hu => by cases hu⟩
  cases hsr : p.search key with
  | ok pos =>
    by_cases ht : p.isTombstoned pos = true
    · have hins : p.insert key rid = .ok (p.revive pos key rid) := by
        rw [insert, hsr]
        exact if_pos ht
      have hok' : (p.revive pos key rid).Ok layout [] none := hok.revive (search_ok hsr)
      have hused : (p.revive pos key rid).usedBytes layout ≤ layout.leafArea.capacity := by
        rw [usedBytes, keys_revive (search_ok hsr)]
        exact hfit
      refine ⟨_, _, view_revive h hsr ht,
        .of_ok hins (decide_eq_false (Nat.not_lt.mpr hused)) (check_of_ok hok') ?_⟩
      intro page hpage
      rw [reviveAll_eq hok.distinct]
      exact encode_of (encodes_of_ok hok' hused) hpage
    · have hins : p.insert key rid = .error .duplicateKey := by
        rw [insert, hsr]
        exact if_neg ht
      exact ⟨_, _, view_duplicate h hsr ht, .of_duplicate hins⟩
  | error pos =>
    have hins : p.insert key rid = .ok (p.insertAt pos key rid) := by
      rw [insert, hsr]
    have hpos : pos ≤ p.entries.length := by
      have := (search_error hok.sorted hsr).1
      rwa [length_keys] at this
    have hok' := (insert_spec hok hin hkey hins).1
    have hused := @usedBytes_insertAt layout p pos hpos key rid
    by_cases hroom : layout.leafArea.capacity - p.usedBytes layout < layout.leafArea.entryCost key.length
    · have hover : (p.insertAt pos key rid).isOverfull layout = true := decide_eq_true (by omega)
      exact ⟨_, _, view_full h hsr hroom, .of_full hins hover (check_of_ok hok')⟩
    · have hfit' : (p.insertAt pos key rid).usedBytes layout ≤ layout.leafArea.capacity := by omega
      refine ⟨_, _, view_insertAt h hsr hpos hroom,
        .of_ok hins (decide_eq_false (Nat.not_lt.mpr hfit')) (check_of_ok hok') fun page hpage => ?_⟩
      exact encode_of (encodes_of_ok hok' hfit') hpage

theorem remove_agrees (hok : p.Ok layout [] none)
    (hfit : p.usedBytes layout ≤ layout.leafArea.capacity) (key : Key) :
    ∃ done v, (p.view layout).removeKey key = some (done, v) ∧
      RemoveAgrees layout p (p.view layout).buf key done v.buf := by
  have hview := view_removeKey hok hfit key
  cases hrem : p.removeKey layout key with
  | none =>
    rw [hrem] at hview
    refine ⟨false, p.view layout, hview, ⟨fun hno => (by cases hno), ?_⟩, ?_, fun _ => rfl, ?_⟩
    · intro hq
      obtain ⟨q, hq⟩ := hq
      rw [hrem] at hq
      cases hq
    · intro q hq
      rw [hrem] at hq
      cases hq
    · intro q hq
      rw [hrem] at hq
      cases hq
  | some q =>
    rw [hrem] at hview
    obtain ⟨hok', -, hsub, -⟩ := removeKey_spec hok hrem
    have hfit' : q.usedBytes layout ≤ layout.leafArea.capacity :=
      Nat.le_trans (usedBytes_le_of_sublist (hsub.map _)) hfit
    have huniq : ∀ q', p.removeKey layout key = some q' → q' = q := by
      intro q' hq'
      rw [hrem] at hq'
      exact (Option.some.inj hq').symm
    refine ⟨true, q.view layout, hview, ⟨fun _ => ⟨q, hrem⟩, fun _ => rfl⟩, ?_, fun hno => (by cases hno), ?_⟩
    · intro q' hq' page hpage
      rw [huniq q' hq']
      exact encode_of (encodes_of_ok hok' hfit') hpage
    · intro q' hq'
      rw [huniq q' hq']
      exact check_of_ok hok'

/-- Editing the bytes of an encoded leaf is editing the decoded leaf and encoding the result. -/
theorem leaf_edits_in_place (layout : Layout) (p : LeafPage) (hfits : p.Fits) (buf image : Bytes)
    (henc : p.encode layout buf = pure image) (hkeys : p.keys.Pairwise (· < ·)) (htombs : p.tombstones.Nodup) :
    LeafPage.decode layout image = pure p ∧ ∃ v, LeafPageView.new image layout = pure v ∧ v.buf = image ∧
      (∀ key rid, key.length ≤ layout.maxKeyLen →
        ∃ result v', v.insert key rid = some (result, v') ∧ InsertAgrees layout p image key rid result v'.buf) ∧
      (∀ key, ∃ done v', v.removeKey key = some (done, v') ∧ RemoveAgrees layout p image key done v'.buf) := by
  obtain ⟨h, -, rfl⟩ := encode_ok henc
  have hok := ok_of_encodes h hkeys htombs
  have hfit := (encodes_iff.mp h).2
  refine ⟨decode_of h hfits, p.view layout, view_new h, rfl, ?_, ?_⟩
  · intro key rid hkey
    exact insert_agrees hok hfit hkey rid
  · intro key
    exact remove_agrees hok hfit key

def smallLayout : Layout := ⟨1, 2, by decide, by decide, by decide, by decide⟩

def oneEntry : LeafPage := ⟨[([7], ⟨0, 0⟩)], none, [0]⟩

theorem one_entry_edits_in_place : ∃ image : Bytes, LeafPage.decode smallLayout image = pure oneEntry ∧
    ∃ v, LeafPageView.new image smallLayout = pure v ∧ v.buf = image ∧
      (∀ key rid, key.length ≤ smallLayout.maxKeyLen →
        ∃ result v', v.insert key rid = some (result, v') ∧
        InsertAgrees smallLayout oneEntry image key rid result v'.buf) ∧
      (∀ key, ∃ done v', v.removeKey key = some (done, v') ∧
        RemoveAgrees smallLayout oneEntry image key done v'.buf) := by
  have hfits : oneEntry.Fits := by
    refine ⟨fun id hid => (by cases hid), fun e he => ?_⟩
    rw [oneEntry, List.mem_singleton] at he
    rw [he]
    decide
  exact ⟨_, leaf_edits_in_place smallLayout oneEntry hfits (List.replicate pageSize 0) _
    (encode_of (by decide) List.length_replicate) (by decide) (by decide)⟩

/-- The slot of the only entry is tombstoned twice. -/
def twiceDead : LeafPage := ⟨[([7], ⟨0, 0⟩)], none, [0, 0]⟩

/-- One key is stored twice, and only its first slot is tombstoned. -/
def twiceStored : LeafPage := ⟨[([7], ⟨0, 0⟩), ([7], ⟨1, 1⟩)], none, [0]⟩

theorem bytes_injective {p q : LeafPage} (hp : p.encodes layout = true) (hq : q.encodes layout = true)
    (hpf : p.Fits) (hqf : q.Fits)
    (heq : (LeafRaw.ofPage layout p).bytes layout = (LeafRaw.ofPage layout q).bytes layout) : p = q := by
  have h := decode_of hp hpf
  rw [heq, decode_of hq hqf] at h
  exact (Except.ok.inj (Option.some.inj h)).symm

/-- Reviving in place drops both tombstones, reviving in the decoded page one. And where a key is stored twice the
view finds its first slot, which is dead, although the other one is live. -/
theorem revive_in_place_differs :
    (∃ image q v v', twiceDead.encode smallLayout (List.replicate pageSize 0) = pure image ∧
      LeafPage.decode smallLayout image = pure twiceDead ∧ LeafPageView.new image smallLayout = pure v ∧
      twiceDead.insert [7] ⟨1, 1⟩ = .ok q ∧ q.isOverfull smallLayout = false ∧
      v.insert [7] ⟨1, 1⟩ = some (.ok (), v') ∧
      q.encode smallLayout image ≠ pure v'.buf) ∧
    (∃ image v v', twiceStored.encode smallLayout (List.replicate pageSize 0) = pure image ∧
      LeafPageView.new image smallLayout = pure v ∧ twiceStored.keys[1]? = some [7] ∧
      twiceStored.isTombstoned 1 = false ∧
      v.insert [7] ⟨2, 2⟩ = some (.ok (), v')) := by
  have hdead : twiceDead.encodes smallLayout = true := by decide
  have hstored : twiceStored.encodes smallLayout = true := by decide
  have hfits : ∀ r, r.pageId ≤ 1 → r.slotId ≤ 1 → ∀ ts, (LeafPage.mk [([7], r)] none ts).Fits := by
    intro r hp hs ts
    refine ⟨fun id hid => (by cases hid), fun e he => ?_⟩
    rw [List.mem_singleton] at he
    rw [he]
    exact ⟨Nat.le_trans hp (by decide), Nat.lt_of_le_of_lt hs (by decide)⟩
  constructor
  · refine ⟨_, ⟨[([7], ⟨1, 1⟩)], none, [0]⟩, _, _, encode_of hdead List.length_replicate,
      decode_of hdead (hfits _ (by decide) (by decide) _), view_new hdead, by decide, by decide,
      view_revive hdead (by decide : twiceDead.search [7] = .ok 0) (by decide), ?_⟩
    rw [encode_of (by decide) (raw_ok hdead).bytes_length]
    intro heq
    have hbytes := bytes_injective (by decide) (by decide) (hfits _ (by decide) (by decide) _)
      (hfits _ (by decide) (by decide) _) (Except.ok.inj (Option.some.inj heq))
    cases hbytes
  · exact ⟨_, _, _, encode_of hstored List.length_replicate, view_new hstored, by decide, by decide,
      view_revive hstored (by decide : twiceStored.search [7] = .ok 0) (by decide)⟩

end LeafPage

end BPlus

end Cmudb
