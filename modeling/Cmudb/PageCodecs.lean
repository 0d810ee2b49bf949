import Cmudb.EntryEdits
import Cmudb.InternalView
import Cmudb.LeafViewSound

/-!
# Pages and their bytes

Decoding gives back every page that was encoded. What it accepts from an
arbitrary buffer passes the page's check and fits, and looking a key up in the
decoded page is looking it up through the view of the buffer.
-/

namespace Cmudb

namespace BPlus

open Lib

/-! ## Reading does not panic -/

theorem returns_readBytes (buf : Bytes) (pos n : Nat) : Returns (readBytes buf pos n) := by
  by_cases h : pos + n ≤ buf.length
  · rw [readBytes, if_pos h]
    exact returns_pure _
  · rw [readBytes, if_neg h]
    exact returns_throw _

theorem returns_readLe (k : Nat) (buf : Bytes) (pos : Nat) : Returns (readLe k buf pos) := by
  apply (returns_readBytes buf pos k).bind
  intro bs _
  exact returns_pure _

theorem returns_readCommonHeaderOfKind (buf : Bytes) (kind : UInt8) :
    Returns (readCommonHeaderOfKind buf kind) := by
  have hread : Returns (readCommonHeader buf) := by
    apply (returns_readBytes buf 0 4).bind
    intro bs _
    apply (returns_ensure _ _).bind
    intro _ _
    apply (returns_readLe 2 buf 4).bind
    intro found _
    apply (returns_ensure _ _).bind
    intro _ _
    apply (returns_readLe 1 buf kindOffset).bind
    intro actual _
    apply (returns_readLe 1 buf 7).bind
    intro _ _
    exact returns_pure actual
  apply hread.bind
  intro actual _
  exact returns_ensure _ _

theorem returns_pageIdOfU64 (raw : Nat) : Returns (pageIdOfU64 raw) := by
  apply (returns_ensure _ _).bind
  intro _ _
  exact returns_pure raw

theorem returns_decodePageId (raw : Nat) : Returns (decodePageId raw) := by
  by_cases h : raw = noPageU64
  · rw [decodePageId, if_pos h]
    exact returns_pure none
  · rw [decodePageId, if_neg h, map_eq_pure_bind]
    apply (returns_pageIdOfU64 raw).bind
    intro id _
    exact returns_pure (some id)

theorem returns_decodeChildPageId (raw : Nat) : Returns (decodeChildPageId raw) := by
  apply (returns_decodePageId raw).bind
  intro link _
  cases link with
  | none => exact returns_throw _
  | some id => exact returns_pure id

theorem returns_payloadHalf (payload : Bytes) (a e : Nat) : Returns (payloadHalf payload a e) := by
  unfold payloadHalf
  cases slice? payload a e with
  | none => exact returns_throw _
  | some bytes => exact returns_pure _

theorem returns_decodeRecordIdBytes (payload : Bytes) : Returns (decodeRecordIdBytes payload) := by
  apply (returns_payloadHalf payload 0 8).bind
  intro pageId _
  apply (returns_payloadHalf payload 8 16).bind
  intro slotId _
  apply (returns_pageIdOfU64 pageId).bind
  intro id _
  apply (returns_ensure _ _).bind
  intro _ _
  exact returns_pure _

theorem returns_checkKeys (layout : Layout) (ks : List Key) : Returns (ks.forM layout.checkKey) := by
  induction ks with
  | nil => exact returns_pure ()
  | cons k ks ih =>
    have hcons : (k :: ks).forM layout.checkKey = (layout.checkKey k >>= fun _ => ks.forM layout.checkKey) := rfl
    rw [hcons]
    apply (returns_ensure _ _).bind
    intro _ _
    exact ih

theorem lift_eq_pure {α : Type} {o : Option α} {a : α} (h : (liftM o : Codec α) = pure a) : o = some a := by
  cases o with
  | none => cases h
  | some b => rw [Except.ok.inj (Option.some.inj h)]

theorem returns_lift {α : Type} {o : Option α} {a : α} (h : o = some a) : Returns (liftM o : Codec α) := by
  rw [h]
  exact returns_pure a

namespace EntryArea

variable {area : EntryArea} {buf : Bytes} {n : Nat}

theorem start_some (hlen : buf.length = pageSize) {i : Nat} (hi : area.slotOffset i + 2 ≤ pageSize) :
    ∃ s, area.start buf i = some s := by
  rw [← hlen] at hi
  exact ⟨_, by rw [start, getU16Le, getLe, slice?_eq hi]; rfl⟩

theorem check_some (hlen : buf.length = pageSize) : ∃ result, area.check buf n = some result := by
  by_cases hslots : pageSize < area.slotsStart + n * 2
  · exact ⟨_, by rw [check, if_neg (not_not_intro hlen), if_pos hslots]; rfl⟩
  · by_cases h0 : n = 0
    · exact ⟨_, by rw [check, if_neg (not_not_intro hlen), if_neg hslots, if_pos h0]; rfl⟩
    · have hstart : ∀ i < n, ∃ s, area.start buf i = some s := by
        intro i hi
        apply start_some hlen
        unfold slotOffset
        omega
      have hcut : ∀ i ∈ List.range n, ∃ b, area.cutShort buf n i = some b := by
        intro i hi
        rw [List.mem_range] at hi
        obtain ⟨s, hs⟩ := hstart i hi
        have hend : ∃ stop, area.entryEnd buf n i = some stop := by
          by_cases hlt : i + 1 < n
          · rw [entryEnd, if_pos hlt]
            exact hstart (i + 1) hlt
          · rw [entryEnd, if_neg hlt]
            exact ⟨pageSize, rfl⟩
        obtain ⟨stop, hstop⟩ := hend
        exact ⟨_, by rw [cutShort, hs, some_bind, hstop, some_bind]; rfl⟩
      obtain ⟨first, hfirst⟩ := hstart 0 (Nat.pos_of_ne_zero h0)
      obtain ⟨cut, hany⟩ := anyM_some hcut
      rw [check, if_neg (not_not_intro hlen), if_neg hslots, if_neg h0, hfirst, some_bind]
      by_cases hlow : first < area.slotsStart + n * 2
      · exact ⟨_, by rw [if_pos hlow]; rfl⟩
      · rw [if_neg hlow, hany, some_bind]
        cases cut with
        | true => exact ⟨_, rfl⟩
        | false => exact ⟨_, rfl⟩

theorem returns_check (hlen : buf.length = pageSize) : Returns (ExceptT.mk (area.check buf n) : Codec Unit) := by
  obtain ⟨result, h⟩ := @check_some area buf n hlen
  intro hnone
  rw [ExceptT.run_mk, h] at hnone
  cases hnone

theorem reads_of_check (h : area.check buf n = some (.ok ())) :
    ∃ es, es.length = n ∧ (∀ e ∈ es, e.2.length = area.payloadLen) ∧ (dataBytes es).length + n * 2 ≤ area.capacity ∧
      ∀ i e, es[i]? = some e → area.key buf n i = some e.1 ∧ area.payload buf n i = some e.2 := by
  obtain ⟨gap, es, htiled, rfl, hbuf⟩ := exists_picture h
  have hroom := htiled.room
  refine ⟨es, rfl, htiled.payloads, by unfold capacity; omega, ?_⟩
  intro i e hi
  obtain ⟨as, x, bs, rfl, rfl⟩ := exists_at (List.getElem?_eq_some_iff.mp hi).1
  have hx : x = e := by simpa using hi
  subst hx
  rw [hbuf, key_picture htiled rfl rfl, payload_picture htiled rfl rfl]
  exact ⟨rfl, rfl⟩

theorem cost_le_capacity {ks : List Key} (h : area.check buf ks.length = some (.ok ()))
    (hks : ∀ i k, ks[i]? = some k → area.key buf ks.length i = some k) :
    (ks.map fun k => area.entryCost k.length).sum ≤ area.capacity := by
  obtain ⟨es, hes, hpays, hfits, hreads⟩ := reads_of_check h
  have hkeys : ks = es.map Prod.fst := by
    apply List.ext_getElem?
    intro i
    rw [List.getElem?_map]
    by_cases hi : i < ks.length
    · rw [List.getElem?_eq_getElem hi, List.getElem?_eq_getElem (by omega)]
      have h₁ := hks i _ (List.getElem?_eq_getElem hi)
      have h₂ := (hreads i _ (List.getElem?_eq_getElem (by omega))).1
      rw [h₁] at h₂
      exact h₂
    · rw [List.getElem?_eq_none (by omega), List.getElem?_eq_none (by omega)]
      rfl
  rw [← hes, dataBytes_cost hpays, ← hkeys] at hfits
  exact hfits

end EntryArea

/-! ## Leaves read from any buffer -/

namespace LeafPage

variable {layout : Layout} {p : LeafPage} {buf : Bytes}

theorem returns_decode (hlen : buf.length = pageSize) : Returns (decode layout buf) := by
  apply (returns_ensure _ _).bind
  intro _ _
  apply (returns_readCommonHeaderOfKind buf kindLeaf).bind
  intro _ _
  apply (returns_readLe 4 buf nodeSizeOffset).bind
  intro size _
  apply (returns_readLe 4 buf (nodeSizeOffset + 4)).bind
  intro _ _
  apply (returns_readLe 8 buf nodePageIdOffset).bind
  intro raw _
  apply (returns_decodePageId raw).bind
  intro next _
  apply (EntryArea.returns_check hlen).bind
  intro _ harea
  obtain ⟨es, hes, -, -, hreads⟩ :=
    EntryArea.reads_of_check (show layout.leafArea.check buf size = some (.ok ()) from harea)
  apply (returns_readLe 4 buf leafFixedHeaderBytes).bind
  intro count _
  apply (returns_ensure _ _).bind
  intro _ _
  apply Returns.bind
  · apply returns_mapM
    intro i _
    exact returns_readLe 4 buf _
  intro tombstones _
  apply Returns.bind
  · apply returns_mapM
    intro i hi
    rw [List.mem_range, ← hes] at hi
    obtain ⟨hkey, hpay⟩ := hreads i _ (List.getElem?_eq_getElem hi)
    apply (returns_lift hkey).bind
    intro key _
    apply (returns_lift hpay).bind
    intro payload _
    apply (returns_decodeRecordIdBytes payload).bind
    intro rid _
    exact returns_pure (key, rid)
  intro entries _
  apply Returns.bind
  · apply (returns_ensure _ _).bind
    intro _ _
    apply (returns_ensure _ _).bind
    intro _ _
    apply (returns_ensure _ _).bind
    intro _ _
    exact returns_checkKeys layout _
  intro _ _
  exact returns_pure _

structure DecodedFrom (layout : Layout) (buf : Bytes) (p : LeafPage) : Prop where
  header : readCommonHeaderOfKind buf kindLeaf = pure ()
  size : readLe 4 buf nodeSizeOffset = pure p.entries.length
  area : layout.leafArea.check buf p.entries.length = some (.ok ())
  tombstoneCount : readLe 4 buf leafFixedHeaderBytes = pure p.tombstones.length
  tombstone : ∀ i s, p.tombstones[i]? = some s → readLe 4 buf (leafFixedHeaderBytes + 4 + i * 4) = pure s
  entry : ∀ i e, p.entries[i]? = some e → decodeEntry layout buf p.entries.length i = pure e
  checks : p.check layout = true

theorem decodedFrom (h : decode layout buf = pure p) : p.DecodedFrom layout buf := by
  rw [decode, ensure_bind_iff] at h
  obtain ⟨-, h⟩ := h
  obtain ⟨u, hheader, h⟩ := bind_eq_pure h
  obtain ⟨size, hsize, h⟩ := bind_eq_pure h
  obtain ⟨-, -, h⟩ := bind_eq_pure h
  obtain ⟨raw, -, h⟩ := bind_eq_pure h
  obtain ⟨next, -, h⟩ := bind_eq_pure h
  obtain ⟨u, harea, h⟩ := bind_eq_pure h
  obtain ⟨count, hcount, h⟩ := bind_eq_pure h
  rw [ensure_bind_iff] at h
  obtain ⟨-, h⟩ := h
  obtain ⟨tombstones, htombs, h⟩ := bind_eq_pure h
  obtain ⟨entries, hentries, h⟩ := bind_eq_pure h
  obtain ⟨u, hchecked, h⟩ := bind_eq_pure h
  have hp : p = ⟨entries, next, tombstones⟩ := (Except.ok.inj (Option.some.inj h)).symm
  subst hp
  obtain ⟨hlen, hentry⟩ := mapM_range_eq_pure hentries
  obtain ⟨hlen', htomb⟩ := mapM_range_eq_pure htombs
  subst hlen hlen'
  exact ⟨hheader, hsize, harea, hcount, htomb, hentry, checked_iff.mp hchecked⟩

namespace DecodedFrom

variable (h : p.DecodedFrom layout buf)
include h

theorem entry_read {i : Nat} {e : Key × RecordId} (hi : p.entries[i]? = some e) :
    layout.leafArea.key buf p.entries.length i = some e.1 ∧
      ∃ payload, layout.leafArea.payload buf p.entries.length i = some payload ∧
      decodeRecordIdBytes payload = pure e.2 := by
  have hentry := h.entry i e hi
  obtain ⟨key, hkey, hentry⟩ := bind_eq_pure hentry
  obtain ⟨payload, hpay, hentry⟩ := bind_eq_pure hentry
  obtain ⟨rid, hrid, hentry⟩ := bind_eq_pure hentry
  have he : e = (key, rid) := (Except.ok.inj (Option.some.inj hentry)).symm
  subst he
  exact ⟨lift_eq_pure hkey, payload, lift_eq_pure hpay, hrid⟩

theorem seenBy : p.SeenBy ⟨buf, layout⟩ := by
  have hsize : (LeafPageView.mk buf layout).size = some p.entries.length := getLe_of_readLe h.size
  refine ⟨hsize, ?_, getLe_of_readLe h.tombstoneCount, ?_⟩
  · intro i hi
    rw [LeafPageView.key, hsize, some_bind, getElem?_keys, List.getElem?_eq_getElem hi]
    exact (h.entry_read (List.getElem?_eq_getElem hi)).1
  · intro i s hs
    have hchecks := h.checks
    simp only [check, Bool.and_eq_true, decide_eq_true_eq] at hchecks
    have hlt := (List.getElem?_eq_some_iff.mp hs).1
    have hcap : i < (LeafPageView.mk buf layout).tombstoneCapacity := Nat.lt_of_lt_of_le hlt hchecks.1.1.2
    rw [LeafPageView.tombstone, guard_bind hcap]
    exact getLe_of_readLe (h.tombstone i s hs)

theorem recordId {i : Nat} {e : Key × RecordId} (hi : p.entries[i]? = some e) :
    (LeafPageView.mk buf layout).recordId i = pure e.2 := by
  obtain ⟨-, payload, hpay, hrid⟩ := h.entry_read hi
  have hsize := h.seenBy.size
  rw [LeafPageView.recordId, hsize, lift_some, pure_bind, LeafPageView.area, hpay, lift_some, pure_bind]
  exact hrid

theorem usedBytes_le : p.usedBytes layout ≤ layout.leafArea.capacity := by
  have hlen := length_keys p
  apply @EntryArea.cost_le_capacity layout.leafArea buf
  · rw [hlen]
    exact h.area
  · intro i k hi
    rw [getElem?_keys] at hi
    obtain ⟨e, he, rfl⟩ := Option.map_eq_some_iff.mp hi
    rw [hlen]
    exact (h.entry_read he).1

theorem get (key : Key) : (LeafPageView.mk buf layout).get key = pure (p.get key) := by
  rw [LeafPageView.get, h.seenBy.search, lift_some, pure_bind, LeafPage.get]
  cases hsr : p.search key with
  | error pos => rfl
  | ok pos =>
    dsimp only
    rw [h.seenBy.isTombstoned, lift_some, pure_bind]
    cases p.isTombstoned pos with
    | true => rfl
    | false =>
      have hkey := search_ok hsr
      rw [getElem?_keys] at hkey
      obtain ⟨e, he, -⟩ := Option.map_eq_some_iff.mp hkey
      rw [he, h.recordId he]
      rfl

end DecodedFrom

/-- What the library's binary search may answer: the slot of some key that is equal, or else where it would go. -/
def MayFind (p : LeafPage) (key : Key) : Except Nat Nat → Prop
  | .ok pos => p.keys[pos]? = some key
  | .error pos => key ∉ p.keys ∧ pos = p.keys.countP fun k => decide (k < key)

theorem lowerBound_count (h : p.keys.Pairwise (· ≤ ·)) (key : Key) :
    p.lowerBound key = p.keys.countP fun k => decide (k < key) := by
  rw [(partitioned_lt h key).countP_eq]
  exact partitionPoint_eq (partitioned_lt h key)

theorem upperBound_count (h : p.keys.Pairwise (· ≤ ·)) (key : Key) :
    p.upperBound key = p.keys.countP fun k => decide (k ≤ key) := by
  rw [(partitioned_le h key).countP_eq]
  exact partitionPoint_eq (partitioned_le h key)

theorem mayFind_iff (h : p.keys.Pairwise (· < ·)) (key : Key) (result : Except Nat Nat) :
    p.MayFind key result ↔ result = p.search key := by
  have hcount := lowerBound_count (h.imp le_of_lt) key
  constructor
  · intro hfind
    cases hsr : p.search key with
    | ok pos =>
      cases result with
      | ok i => rw [keys_index_unique h hfind (search_ok hsr)]
      | error i => exact absurd (List.mem_of_getElem? (search_ok hsr)) hfind.1
    | error pos =>
      have hpos : pos = p.lowerBound key := by
        unfold search at hsr
        dsimp only at hsr
        split at hsr
        · cases hsr
        · exact (Except.error.inj hsr).symm
      cases result with
      | ok i => exact absurd (List.mem_of_getElem? hfind) (search_error_not_mem h hsr)
      | error i => rw [hfind.2, hpos, hcount]
  · rintro rfl
    cases hsr : p.search key with
    | ok pos => exact search_ok hsr
    | error pos =>
      refine ⟨search_error_not_mem h hsr, ?_⟩
      unfold search at hsr
      dsimp only at hsr
      split at hsr
      · cases hsr
      · rw [← Except.error.inj hsr, hcount]

end LeafPage

/-! ## Internal pages -/

def nodeHead (kind : UInt8) (size id : Nat) : Bytes :=
  magic ++ leBytes 2 version ++ [kind] ++ [0] ++ leBytes 4 size ++ leBytes 4 0 ++ leBytes 8 id

section
variable {kind : UInt8} {size id : Nat} {r : Bytes}

theorem nodeHead_length : (nodeHead kind size id).length = 24 := by simp [nodeHead, magic]

theorem readCommonHeader_nodeHead : readCommonHeaderOfKind (nodeHead kind size id ++ r) kind = pure () := by
  have hmagic : readBytes (nodeHead kind size id ++ r) 0 4 = pure magic := by
    have hslice : slice? (nodeHead kind size id ++ r) 0 4 = some magic := by
      simp only [nodeHead, List.append_assoc]
      exact @slice?_mid UInt8 [] magic _ 0 4 rfl rfl
    obtain ⟨-, hle, heq⟩ := slice?_some hslice
    rw [readBytes, if_pos hle, heq]
  have hversion : readLe 2 (nodeHead kind size id ++ r) 4 = pure version := by
    apply LeafPage.readLe_of _ (by decide)
    simp only [nodeHead, List.append_assoc]
    rw [← List.append_assoc]
    exact slice?_mid rfl rfl
  have hkind : readLe 1 (nodeHead kind size id ++ r) kindOffset = pure kind.toNat := by
    have hone : leBytes 1 kind.toNat = [kind] := by simp [leBytes]
    apply LeafPage.readLe_of _ (UInt8.toNat_lt kind)
    rw [hone]
    simp only [nodeHead, List.append_assoc]
    rw [← List.append_assoc, ← List.append_assoc]
    exact slice?_mid rfl rfl
  have hreserved : readLe 1 (nodeHead kind size id ++ r) 7 = pure 0 := by
    apply LeafPage.readLe_of _ (by decide)
    have hzero : leBytes 1 0 = [0] := rfl
    rw [hzero]
    simp only [nodeHead, List.append_assoc]
    rw [← List.append_assoc, ← List.append_assoc, ← List.append_assoc]
    exact slice?_mid rfl rfl
  have hread : readCommonHeader (nodeHead kind size id ++ r) = pure kind.toNat := by
    rw [readCommonHeader, hmagic, pure_bind, ensure_bind rfl, hversion, pure_bind, ensure_bind rfl, hkind,
      pure_bind, hreserved, pure_bind]
  rw [readCommonHeaderOfKind, hread, pure_bind, ensure, if_pos rfl]

theorem nodeHead_size :
    nodeHead kind size id ++ r = (magic ++ leBytes 2 version ++ [kind] ++ [0]) ++ leBytes 4 size ++
    (leBytes 4 0 ++ leBytes 8 id ++ r) := by
  simp [nodeHead]

theorem nodeHead_reserved :
    nodeHead kind size id ++ r = (magic ++ leBytes 2 version ++ [kind] ++ [0] ++ leBytes 4 size) ++
    leBytes 4 0 ++ (leBytes 8 id ++ r) := by
  simp [nodeHead]

theorem readLe_nodeSize (h : size < 2 ^ 32) : readLe 4 (nodeHead kind size id ++ r) nodeSizeOffset = pure size := by
  apply LeafPage.readLe_of _ h
  rw [nodeHead_size]
  exact slice?_mid rfl rfl

theorem readLe_nodeReserved : readLe 4 (nodeHead kind size id ++ r) (nodeSizeOffset + 4) = pure 0 := by
  apply LeafPage.readLe_of _ (by decide)
  rw [nodeHead_reserved]
  exact slice?_mid (by simp [nodeSizeOffset, commonHeaderBytes, magic]) (by simp)

theorem readLe_nodePageId (h : id < 256 ^ 8) :
    readLe 8 (nodeHead kind size id ++ r) nodePageIdOffset = pure id := by
  apply LeafPage.readLe_of _ h
  exact slice?_mid (by simp [nodePageIdOffset, commonHeaderBytes, magic]) (by simp)

theorem putNodeHead {z : Nat} :
    putCommonHeader (List.replicate (24 + z) 0) kind = some (nodeHead kind 0 0 ++ List.replicate z 0) := by
  have hsplit : (List.replicate (24 + z) 0 : Bytes) = List.replicate 4 0 ++ List.replicate 2 0 ++
      List.replicate 1 0 ++
      List.replicate 1 0 ++ List.replicate (16 + z) 0 := by
    simp only [← List.replicate_add]
    congr 1
    omega
  have hrest : leBytes 4 0 ++ leBytes 4 0 ++ leBytes 8 0 ++ List.replicate z 0 =
      (List.replicate (16 + z) 0 : Bytes) := by
    simp only [LeafPage.leBytes_zero, ← List.replicate_add]
  rw [hsplit, LeafPage.putCommonHeader_over (by simp) (by simp) (by simp) (by simp), ← hrest]
  simp only [nodeHead, List.append_assoc]

theorem putNodeSize (n : Nat) :
    putU32Le (nodeHead kind size id ++ r) nodeSizeOffset n = some (nodeHead kind n id ++ r) := by
  rw [nodeHead_size, nodeHead_size]
  exact put_mid rfl (by simp)

theorem putNodePageId (n : Nat) :
    putU64Le (nodeHead kind size id ++ r) nodePageIdOffset n = some (nodeHead kind size n ++ r) :=
  put_mid (by simp [nodePageIdOffset, commonHeaderBytes, magic]) (by simp)

end

namespace InternalPage

variable {layout : Layout} {p : InternalPage} {buf : Bytes}

theorem checked_iff : p.checked layout = (pure () : Codec Unit) ↔ p.check layout = true := by
  by_cases h : (p.children.isEmpty && p.keys.isEmpty) = true
  · rw [checked, if_pos h, check, h, Bool.true_or]
    exact ⟨fun _ => rfl, fun _ => rfl⟩
  · rw [checked, if_neg h, ensure_bind_iff, ensure_bind_iff, LeafPage.checkKeys_iff, check, Bool.eq_false_iff.mpr h,
      Bool.false_or]
    simp only [Bool.and_eq_true, decide_eq_true_eq, beq_iff_eq, List.all_eq_true, and_assoc]

theorem counts_of_check (h : p.check layout = true) (hne : p.children ≠ []) :
    p.children.length = p.keys.length + 1 := by
  simp only [check, Bool.or_eq_true, Bool.and_eq_true, List.isEmpty_iff, beq_iff_eq] at h
  rcases h with h | h
  · exact absurd h.1 hne
  · exact h.1.1

def Fits (p : InternalPage) : Prop := ∀ child ∈ p.children, child ≤ maxPageId

theorem encodeChild_length (child : Nat) : (encodeChild child).length = 8 := leBytes_length _ _

theorem decodeChild_encode {child : Nat} (h : child ≤ maxPageId) :
    decodeChildPageId (leNat (encodeChild child)) = pure child := by
  have hlink : ∀ id ∈ some child, id ≤ maxPageId := by
    intro id hid
    rwa [← Option.some.inj hid]
  rw [encodeChild, leNat_leBytes (LeafPage.encodePageId_lt hlink), decodeChildPageId,
    LeafPage.decodePageId_encode hlink, pure_bind]

section
variable {leftmost : Nat} {rest : List Nat}

def bytes (leftmost : Nat) (keys : List Key) (rest : List Nat) : Bytes :=
  internalArea.image (nodeHead kindInternal keys.length leftmost) (keys.zip (rest.map encodeChild))

theorem packed {keys : List Key} (hlen : rest.length = keys.length)
    (hfit : (keys.map fun k => internalArea.entryCost k.length).sum ≤ internalArea.capacity) :
    internalArea.Packed (nodeHead kindInternal keys.length leftmost) (keys.zip (rest.map encodeChild)) := by
  have hpays : ∀ e ∈ keys.zip (rest.map encodeChild), e.2.length = internalArea.payloadLen := by
    intro e he
    obtain ⟨child, -, hchild⟩ := List.mem_map.mp (List.of_mem_zip he).2
    rw [← hchild]
    exact encodeChild_length child
  refine ⟨nodeHead_length, hpays, ?_⟩
  have hcost := dataBytes_cost hpays
  rw [List.map_fst_zip (by rw [List.length_map]; omega)] at hcost
  have hcap : internalArea.capacity = pageSize - 24 := rfl
  have hstart : internalArea.slotsStart = 24 := rfl
  have hpage : pageSize = 8192 := rfl
  omega

theorem encode_of (h : p.check layout = true) (hfit : p.usedBytes ≤ internalArea.capacity)
    (hp : p.children = leftmost :: rest) (hbuf : buf.length = pageSize) :
    p.encode layout buf = pure (bytes leftmost p.keys rest) := by
  have hcount := counts_of_check h (by rw [hp]; exact List.cons_ne_nil _ _)
  have hlen : rest.length = p.keys.length := by
    rw [hp, List.length_cons] at hcount
    omega
  have hpacked := @packed leftmost rest p.keys hlen hfit
  have hroom := hpacked.fits
  have hzip : (p.keys.zip (rest.map encodeChild)).length = p.keys.length := by
    rw [List.length_zip, List.length_map]
    omega
  have hstart : internalArea.slotsStart = 24 := rfl
  have hpage : pageSize = 8192 := rfl
  have hneeded : internalFixedHeaderBytes + p.usedBytes ≤ pageSize := by
    have hcap : internalArea.capacity = pageSize - 24 := rfl
    have hfixed : internalFixedHeaderBytes = 24 := rfl
    omega
  have hsmall : p.keys.length < 2 ^ 32 := by omega
  -- the entries take the bytes of their keys and eight for each child
  have hdata : (dataBytes (p.keys.zip (rest.map encodeChild))).length =
      (p.keys.map List.length).sum + p.keys.length * 8 := by
    have hcost := dataBytes_cost hpacked.payloads
    rw [List.map_fst_zip (by rw [List.length_map]; omega), hzip] at hcost
    have hsum : (p.keys.map fun k => internalArea.entryCost k.length).sum =
        (p.keys.map List.length).sum + p.keys.length * 10 := by
      generalize p.keys = ks
      induction ks with
      | nil => rfl
      | cons k ks ih =>
        have hone : internalArea.entryCost k.length = 2 + k.length + 8 := rfl
        simp only [List.map_cons, List.sum_cons, List.length_cons] at ih ⊢
        omega
    omega
  have hput := @EntryArea.putEntries_zero internalArea (nodeHead kindInternal p.keys.length leftmost)
    (p.keys.zip (rest.map encodeChild)) hpacked (pageSize - 24) (by rw [nodeHead_length]; omega)
  have hzeros : pageSize = 24 + (pageSize - 24) := by omega
  have hcommon := @putNodeHead kindInternal (pageSize - 24)
  rw [← hzeros] at hcommon
  have hid : encodePageId (some leftmost) = leftmost := rfl
  rw [encode, checked_iff.mpr h, pure_bind, hp]
  dsimp only
  rw [ensureFitsPage, ensure_bind hneeded, ensure_bind hbuf, hbuf, hcommon, lift_some, pure_bind, toU32,
    ensure_bind hsmall, pure_bind, putNodeSize, lift_some, pure_bind, hid, putNodePageId, lift_some, pure_bind,
    minus_of_le (by omega), lift_some, pure_bind, minus_of_le (by omega), lift_some, pure_bind,
    Nat.sub_sub, ← hdata, hput, lift_some, pure_bind]
  rfl

theorem decode_of (h : p.check layout = true) (hfit : p.usedBytes ≤ internalArea.capacity) (hids : p.Fits)
    (hp : p.children = leftmost :: rest) : decode layout (bytes leftmost p.keys rest) = pure p := by
  have hcount := counts_of_check h (by rw [hp]; exact List.cons_ne_nil _ _)
  have hlen : rest.length = p.keys.length := by
    rw [hp, List.length_cons] at hcount
    omega
  have hpacked := @packed leftmost rest p.keys hlen hfit
  have hroom := hpacked.fits
  have hpage : pageSize = 8192 := rfl
  have hzip : (p.keys.zip (rest.map encodeChild)).length = p.keys.length := by
    rw [List.length_zip, List.length_map]
    omega
  have hsmall : p.keys.length < 2 ^ 32 := by omega
  obtain ⟨r, hr⟩ : ∃ r, bytes leftmost p.keys rest = nodeHead kindInternal p.keys.length leftmost ++ r := by
    simp only [bytes, EntryArea.image, List.append_assoc]
    exact ⟨_, rfl⟩
  have hleft : leftmost ≤ maxPageId := hids leftmost (by rw [hp]; exact List.mem_cons_self)
  have hleft' : leftmost < 256 ^ 8 := by
    unfold maxPageId at hleft
    omega
  have hchild : decodeChildPageId leftmost = pure leftmost := by
    have hdecode := decodeChild_encode hleft
    rwa [encodeChild, encodePageId, leNat_leBytes hleft'] at hdecode
  have hcheck : (ExceptT.mk (internalArea.check (bytes leftmost p.keys rest) p.keys.length) : Codec Unit) =
      pure () := by
    rw [bytes, EntryArea.check_image hpacked hzip.symm]
    rfl
  have hentries : (List.range p.keys.length).mapM (decodeEntry (bytes leftmost p.keys rest) p.keys.length) =
      pure (p.keys.zip rest) := by
    have hzlen : p.keys.length = (p.keys.zip rest).length := by
      rw [List.length_zip]
      omega
    rw [hzlen]
    apply mapM_range
    intro as e bs hsplit
    have hents : p.keys.zip (rest.map encodeChild) = as.map (Prod.map id encodeChild) ++ (e.1, encodeChild e.2) ::
        bs.map (Prod.map id encodeChild) := by
      rw [List.zip_map_right, hsplit, List.map_append, List.map_cons]
      rfl
    have hpacked' := hpacked
    rw [hents] at hpacked'
    have hn : (p.keys.zip rest).length = (as.map (Prod.map id encodeChild) ++ (e.1, encodeChild e.2) ::
        bs.map (Prod.map id encodeChild)).length := by
      rw [hsplit]
      simp
    have hkey := EntryArea.key_image hpacked' hn (show as.length = (as.map _).length by simp)
    have hpay := EntryArea.payload_image hpacked' hn (show as.length = (as.map _).length by simp)
    have he : e.2 ∈ rest := (List.of_mem_zip (show (e.1, e.2) ∈ p.keys.zip rest by rw [hsplit]; simp)).2
    have hid : e.2 ≤ maxPageId := hids e.2 (by rw [hp]; exact List.mem_cons_of_mem _ he)
    rw [decodeEntry, bytes, hents, hkey, lift_some, pure_bind, hpay, lift_some, pure_bind,
      ensure_bind (encodeChild_length _), decodeChild_encode hid, pure_bind]
  have hpageEq : InternalPage.mk (leftmost :: (p.keys.zip rest).map Prod.snd)
      ((p.keys.zip rest).map Prod.fst) = p := by
    rw [List.map_snd_zip (by omega), List.map_fst_zip (by omega), ← hp]
  have hlong : pageSize ≤ (bytes leftmost p.keys rest).length := Nat.le_of_eq hpacked.image_length.symm
  have hread₁ : readLe 4 (bytes leftmost p.keys rest) nodeSizeOffset = pure p.keys.length := by
    rw [hr]
    exact readLe_nodeSize hsmall
  have hread₂ : readLe 4 (bytes leftmost p.keys rest) (nodeSizeOffset + 4) = pure 0 := by
    rw [hr]
    exact readLe_nodeReserved
  have hread₃ : readLe 8 (bytes leftmost p.keys rest) nodePageIdOffset = pure leftmost := by
    rw [hr]
    exact readLe_nodePageId hleft'
  have hheader : readCommonHeaderOfKind (bytes leftmost p.keys rest) kindInternal = pure () := by
    rw [hr]
    exact readCommonHeader_nodeHead
  rw [decode, ensure_bind hlong, hheader, pure_bind, hread₁, pure_bind, hread₂, pure_bind, hread₃, pure_bind,
    hchild, pure_bind, hcheck, pure_bind, hentries, pure_bind]
  dsimp only
  rw [hpageEq, checked_iff.mpr h, pure_bind]

end

/-! ## Internal pages read from any buffer -/

theorem returns_decode (hlen : buf.length = pageSize) : Returns (decode layout buf) := by
  apply (returns_ensure _ _).bind
  intro _ _
  apply (returns_readCommonHeaderOfKind buf kindInternal).bind
  intro _ _
  apply (returns_readLe 4 buf nodeSizeOffset).bind
  intro size _
  apply (returns_readLe 4 buf (nodeSizeOffset + 4)).bind
  intro _ _
  apply (returns_readLe 8 buf nodePageIdOffset).bind
  intro raw _
  apply (returns_decodeChildPageId raw).bind
  intro leftmost _
  apply (EntryArea.returns_check hlen).bind
  intro _ harea
  obtain ⟨es, hes, -, -, hreads⟩ :=
    EntryArea.reads_of_check (show internalArea.check buf size = some (.ok ()) from harea)
  apply Returns.bind
  · apply returns_mapM
    intro i hi
    rw [List.mem_range, ← hes] at hi
    obtain ⟨hkey, hpay⟩ := hreads i _ (List.getElem?_eq_getElem hi)
    apply (returns_lift hkey).bind
    intro key _
    apply (returns_lift hpay).bind
    intro child _
    apply (returns_ensure _ _).bind
    intro _ _
    apply (returns_decodeChildPageId (leNat child)).bind
    intro id _
    exact returns_pure (key, id)
  intro entries _
  apply Returns.bind
  · unfold checked
    split
    · exact returns_pure ()
    · apply (returns_ensure _ _).bind
      intro _ _
      apply (returns_ensure _ _).bind
      intro _ _
      exact returns_checkKeys layout _
  intro _ _
  exact returns_pure _

structure DecodedFrom (layout : Layout) (buf : Bytes) (p : InternalPage) : Prop where
  header : readCommonHeaderOfKind buf kindInternal = pure ()
  size : readLe 4 buf nodeSizeOffset = pure p.keys.length
  area : internalArea.check buf p.keys.length = some (.ok ())
  key : ∀ i k, p.keys[i]? = some k → internalArea.key buf p.keys.length i = some k
  checks : p.check layout = true

theorem decodedFrom (h : decode layout buf = pure p) : p.DecodedFrom layout buf := by
  rw [decode, ensure_bind_iff] at h
  obtain ⟨-, h⟩ := h
  obtain ⟨u, hheader, h⟩ := bind_eq_pure h
  obtain ⟨size, hsize, h⟩ := bind_eq_pure h
  obtain ⟨-, -, h⟩ := bind_eq_pure h
  obtain ⟨raw, -, h⟩ := bind_eq_pure h
  obtain ⟨leftmost, -, h⟩ := bind_eq_pure h
  obtain ⟨u, harea, h⟩ := bind_eq_pure h
  obtain ⟨entries, hentries, h⟩ := bind_eq_pure h
  obtain ⟨u, hchecked, h⟩ := bind_eq_pure h
  have hp : p = ⟨leftmost :: entries.map Prod.snd, entries.map Prod.fst⟩ := (Except.ok.inj (Option.some.inj h)).symm
  obtain ⟨hlen, hentry⟩ := mapM_range_eq_pure hentries
  have hkeys : p.keys.length = size := by rw [hp, List.length_map, hlen]
  rw [← hkeys] at hsize harea hentry
  refine ⟨hheader, hsize, harea, ?_, ?_⟩
  · intro i k hi
    have hi' : (entries.map Prod.fst)[i]? = some k := by rwa [hp] at hi
    rw [List.getElem?_map] at hi'
    obtain ⟨e, he, rfl⟩ := Option.map_eq_some_iff.mp hi'
    obtain ⟨key, hkey, hrest⟩ := bind_eq_pure (hentry i e he)
    obtain ⟨child, -, hrest⟩ := bind_eq_pure hrest
    rw [ensure_bind_iff] at hrest
    obtain ⟨id, -, hrest⟩ := bind_eq_pure hrest.2
    have hpair : e = (key, id) := (Except.ok.inj (Option.some.inj hrest)).symm
    rw [hpair]
    exact lift_eq_pure hkey
  · rw [hp]
    exact checked_iff.mp hchecked

namespace DecodedFrom

variable (h : p.DecodedFrom layout buf)
include h

theorem usedBytes_le : p.usedBytes ≤ internalArea.capacity := EntryArea.cost_le_capacity h.area h.key

theorem new (hlen : buf.length = pageSize) : InternalPageView.new buf layout = pure ⟨buf, layout⟩ := by
  have hsize : getU32Le buf nodeSizeOffset = some p.keys.length := LeafPage.getLe_of_readLe h.size
  have harea : (ExceptT.mk (internalArea.check buf p.keys.length) : Codec Unit) = pure () := by
    rw [h.area]
    rfl
  rw [InternalPageView.new, ensure_bind hlen, LeafPage.expect_of_read h.header, pure_bind, hsize, lift_some,
    pure_bind, harea, pure_bind]

theorem findChildIndex (key : Key) :
    (InternalPageView.mk buf layout).findChildIndex key = some (p.findChildIndex key) := by
  have hsize : (InternalPageView.mk buf layout).size = some p.keys.length := LeafPage.getLe_of_readLe h.size
  have hle : ∀ i, i < p.keys.length → (InternalPageView.mk buf layout).keyAtMost key i =
      some ((p.keys[i]?).any (· ≤ key)) := by
    intro i hi
    have hread := h.key i _ (List.getElem?_eq_getElem hi)
    rw [InternalPageView.keyAtMost, InternalPageView.key, hsize, some_bind, hread, List.getElem?_eq_getElem hi]
    rfl
  rw [InternalPageView.findChildIndex, hsize, some_bind, InternalPage.findChildIndex]
  exact partitionPoint?_eq hle

end DecodedFrom

theorem findChildIndex_count (h : p.check layout = true) (key : Key) :
    p.findChildIndex key = p.keys.countP fun k => decide (k ≤ key) := by
  have hsorted : p.keys.Pairwise (· ≤ ·) := by
    simp only [check, Bool.or_eq_true, Bool.and_eq_true, decide_eq_true_eq, List.isEmpty_iff] at h
    rcases h with h | h
    · rw [h.2]
      exact List.Pairwise.nil
    · exact h.1.2
  rw [(LeafPage.partitioned_le hsorted key).countP_eq]
  exact partitionPoint_eq (LeafPage.partitioned_le hsorted key)

end InternalPage

/-- An internal page without children passes its check and takes no bytes, but is not encoded. -/
theorem empty_internal_page_not_encoded : (InternalPage.mk [] []).check LeafPage.smallLayout = true ∧
    (InternalPage.mk [] []).usedBytes ≤ internalArea.capacity ∧ (InternalPage.mk [] []).Fits ∧
      (InternalPage.mk [] []).encode LeafPage.smallLayout (List.replicate pageSize 0) =
        throw (.malformed "internal page has no children") := by
  refine ⟨rfl, Nat.zero_le _, ?_, rfl⟩
  intro child hchild
  cases hchild

theorem tree_page_codecs (layout : Layout) :
    (∀ (p : LeafPage) (buf : Bytes), p.Fits → p.check layout = true →
      p.usedBytes layout ≤ layout.leafArea.capacity →
      buf.length = pageSize → ∃ image, p.encode layout buf = pure image ∧ LeafPage.decode layout image = pure p) ∧
    (∀ (p : InternalPage) (buf : Bytes), p.Fits → p.check layout = true → p.usedBytes ≤ internalArea.capacity →
      p.children ≠ [] → buf.length = pageSize →
        ∃ image, p.encode layout buf = pure image ∧ InternalPage.decode layout image = pure p) ∧
    (∀ buf : Bytes, buf.length = pageSize → (∃ e, LeafPage.decode layout buf = throw e) ∨
      ∃ p v, LeafPage.decode layout buf = pure p ∧ p.check layout = true ∧
      p.usedBytes layout ≤ layout.leafArea.capacity ∧
        LeafPageView.new buf layout = pure v ∧ v.buf = buf ∧
        (∀ key, v.lowerBound key = some (p.lowerBound key) ∧
          p.lowerBound key = p.keys.countP (fun k => decide (k < key)) ∧
          v.upperBound key = some (p.upperBound key) ∧
          p.upperBound key = p.keys.countP (fun k => decide (k ≤ key))) ∧
        (p.keys.Nodup → ∀ key, v.get key = pure (p.get key) ∧ ∀ result, p.MayFind key result ↔
          result = p.search key)) ∧
    ∀ buf : Bytes, buf.length = pageSize → (∃ e, InternalPage.decode layout buf = throw e) ∨
      ∃ p v, InternalPage.decode layout buf = pure p ∧ p.check layout = true ∧ p.usedBytes ≤ internalArea.capacity ∧
        InternalPageView.new buf layout = pure v ∧ v.buf = buf ∧
        ∀ key, v.findChildIndex key = some (p.findChildIndex key) ∧
          p.findChildIndex key = p.keys.countP (fun k => decide (k ≤ key)) := by
  refine ⟨?_, ?_, ?_, ?_⟩
  · intro p buf hids hcheck hfit hbuf
    have henc := LeafPage.encodes_iff.mpr ⟨hcheck, hfit⟩
    exact ⟨_, LeafPage.encode_of henc hbuf, LeafPage.decode_of henc hids⟩
  · intro p buf hids hcheck hfit hne hbuf
    obtain ⟨leftmost, rest, hp⟩ := List.exists_cons_of_ne_nil hne
    exact ⟨_, InternalPage.encode_of hcheck hfit hp hbuf, InternalPage.decode_of hcheck hfit hids hp⟩
  · intro buf hlen
    rcases (@LeafPage.returns_decode layout buf hlen).cases with herror | ⟨p, hp⟩
    · exact Or.inl herror
    · have hfrom := LeafPage.decodedFrom hp
      have hcheck := hfrom.checks
      have hsorted : p.keys.Pairwise (· ≤ ·) := by
        simp only [LeafPage.check, Bool.and_eq_true, decide_eq_true_eq] at hcheck
        exact hcheck.1.1.1
      have hnew := hfrom.seenBy.new hlen (LeafPage.expect_of_read hfrom.header) hfrom.area hfrom.checks
      refine Or.inr ⟨p, ⟨buf, layout⟩, hp, hfrom.checks, hfrom.usedBytes_le, hnew, rfl, ?_, ?_⟩
      · intro key
        exact ⟨hfrom.seenBy.lowerBound key, LeafPage.lowerBound_count hsorted key, hfrom.seenBy.upperBound key,
          LeafPage.upperBound_count hsorted key⟩
      · intro hdistinct key
        have hstrict : p.keys.Pairwise (· < ·) := hsorted.imp₂ (fun _ _ hle hne => lt_of_le_of_ne hle hne) hdistinct
        exact ⟨hfrom.get key, LeafPage.mayFind_iff hstrict key⟩
  · intro buf hlen
    rcases (@InternalPage.returns_decode layout buf hlen).cases with herror | ⟨p, hp⟩
    · exact Or.inl herror
    · have hfrom := InternalPage.decodedFrom hp
      refine Or.inr ⟨p, ⟨buf, layout⟩, hp, hfrom.checks, hfrom.usedBytes_le, hfrom.new hlen, rfl, ?_⟩
      intro key
      exact ⟨hfrom.findChildIndex key, InternalPage.findChildIndex_count hfrom.checks key⟩

end BPlus

end Cmudb
