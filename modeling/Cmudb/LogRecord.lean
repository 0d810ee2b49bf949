import Cmudb.Lib.Framing
import Cmudb.Buf
import Cmudb.Manager

/-!
# Records of the write-ahead log

Each record is a kind byte, a little-endian `u32` payload length, the CRC-32 of
the kind, length and payload, and the payload. `readRecord` reads a record back
that `encode` wrote, whatever stands behind it.
-/

namespace Cmudb

/-! ## Checksums -/

def crcEntry (i : UInt32) : UInt32 :=
  (List.range 8).foldl (fun c _ => if c &&& 1 != 0 then (0xEDB88320 : UInt32) ^^^ (c >>> 1) else c >>> 1) i

def crc32 (parts : List Bytes) : UInt32 :=
  ~~~
    (parts.foldl (fun c part =>
      part.foldl (fun c b => crcEntry ((c ^^^ b.toUInt32) &&& 0xff) ^^^ (c >>> 8)) c) (~~~ 0))

def crcBytes (c : UInt32) (part : Bytes) : UInt32 :=
  part.foldl (fun c b => crcEntry ((c ^^^ b.toUInt32) &&& 0xff) ^^^ (c >>> 8)) c

theorem crc32_eq (parts : List Bytes) : crc32 parts = ~~~ (parts.foldl crcBytes (~~~ 0)) := rfl

theorem crcBytes_append (c : UInt32) (a b : Bytes) : crcBytes c (a ++ b) = crcBytes (crcBytes c a) b :=
  List.foldl_append

/-! ## Encoding -/

def kindPage : UInt8 := 1
def kindDurable : UInt8 := 2
def kindWrites : UInt8 := 3
def kindUndo : UInt8 := 4
def kindEnd : UInt8 := 5

def recordHeaderLen : Nat := 1 + 4 + 4

def pageIdLen : Nat := 8

def undoFixedLen : Nat := 8 + 4 + 4 + 8 + 1

/-- The longest payload a record can have: an undo record holding a whole page of tuple bytes. -/
def maxPayloadLen : Nat := undoFixedLen + pageSize

abbrev PageData := { b : Bytes // b.length = pageSize }

def encodeRecord (kind : UInt8) (payload : Bytes) : Bytes :=
  let len := leBytes 4 payload.length
  let crc := crc32 [[kind], len, payload]
  kind :: (len ++ leBytes 4 crc.toNat ++ payload)

def encodeTxnRecord : TxnRecord → Bytes
  | .writes txn => encodeRecord kindWrites (leBytes 8 txn)
  | .ended txn => encodeRecord kindEnd (leBytes 8 txn)
  | .undo txn rid tmeta data =>
    encodeRecord kindUndo (leBytes 8 txn ++ leBytes 4 rid.pageId ++ leBytes 4 rid.slotId ++
      leBytes 8 tmeta.ts.encode ++ [if tmeta.isDeleted then 1 else 0] ++ data)

inductive LogRecord where
  | page (id : Nat) (image : PageData)
  | durable
  | txn (record : TxnRecord)
  deriving DecidableEq

def LogRecord.encode : LogRecord → Bytes
  | page id image => encodeRecord kindPage (leBytes pageIdLen id ++ image.1)
  | durable => encodeRecord kindDurable []
  | txn record => encodeTxnRecord record

/-! ## Decoding -/

/-- A record read back from the log, with the page image left in the file. -/
inductive Decoded where
  | page (id imageOffset : Nat)
  | durable
  | txn (record : TxnRecord)
  deriving DecidableEq

def u64At (bytes : Bytes) (i : Nat) : Nat := leNat ((bytes.drop i).take 8)

def u32At (bytes : Bytes) (i : Nat) : Nat := leNat ((bytes.drop i).take 4)

/-- The record a payload of some kind holds; `none` for a kind this version does not know. -/
def decodePayload (kind : UInt8) (payload : Bytes) (offset : Nat) : Option Decoded :=
  if kind = kindPage then
    if payload.length = pageIdLen + pageSize ∧ u64At payload 0 ≤ maxPageId then
      some (.page (u64At payload 0) (offset + (recordHeaderLen + pageIdLen)))
    else none
  else if kind = kindDurable then
    if payload.length = 0 then some .durable else none
  else if kind = kindWrites then
    if payload.length = 8 then some (.txn (.writes (u64At payload 0))) else none
  else if kind = kindEnd then
    if payload.length = 8 then some (.txn (.ended (u64At payload 0))) else none
  else if kind = kindUndo then
    if undoFixedLen ≤ payload.length ∧ u32At payload 8 ≤ maxPageId then
      some (.txn (.undo (u64At payload 0) ⟨u32At payload 8, u32At payload 12⟩
        ⟨Stamp.decode (u64At payload 16), payload.getD 24 0 != 0⟩ (payload.drop undoFixedLen)))
    else none
  else none

/-- Reads the record the rest of the file starts with, at `offset`, and its length. -/
def readRecord (offset : Nat) (bytes : Bytes) : Option (Decoded × Nat) :=
  match bytes.take recordHeaderLen with
  | kind :: header =>
    if header.length < 8 then none
    else
      let lenBytes := header.take 4
      let crc := leNat (header.drop 4)
      let len := leNat lenBytes
      if len > maxPayloadLen then none
      else
        let payload := (bytes.drop recordHeaderLen).take len
        if payload.length < len ∨ (crc32 [[kind], lenBytes, payload]).toNat ≠ crc then none
        else (decodePayload kind payload offset).map fun d => (d, recordHeaderLen + len)
  | [] => none

/-! ## What was written is read back -/

/-- The fields fit the widths they are written with, and the tuple fits a page. -/
def TxnRecord.Fits : TxnRecord → Prop
  | .writes txn | .ended txn => txn < 2 ^ 64
  | .undo txn rid tmeta data => txn < 2 ^ 64 ∧ rid.pageId ≤ maxPageId ∧ rid.slotId < 2 ^ 32 ∧
    tmeta.ts.inRange ∧ tmeta.ts.encode < 2 ^ 64 ∧ data.length ≤ pageSize

instance (s : Stamp) : Decidable s.inRange := by
  cases s with
  | commit ts => exact inferInstanceAs (Decidable (ts < txnStartId))
  | txn id => exact inferInstanceAs (Decidable True)

instance (r : TxnRecord) : Decidable r.Fits := by
  cases r with
  | writes txn => exact inferInstanceAs (Decidable (txn < 2 ^ 64))
  | ended txn => exact inferInstanceAs (Decidable (txn < 2 ^ 64))
  | undo => exact inferInstanceAs (Decidable (_ ∧ _))

def LogRecord.Fits : LogRecord → Prop
  | page id _ => id ≤ maxPageId
  | durable => True
  | txn record => record.Fits

def LogRecord.decoded (offset : Nat) : LogRecord → Decoded
  | page id _ => .page id (offset + (recordHeaderLen + pageIdLen))
  | durable => .durable
  | txn record => .txn record

def walFraming : Lib.Framing LogRecord Decoded UInt8 := ⟨LogRecord.encode, readRecord, LogRecord.decoded⟩

theorem encodeRecord_length (kind : UInt8) (payload : Bytes) :
    (encodeRecord kind payload).length = recordHeaderLen + payload.length := by
  simp [encodeRecord, recordHeaderLen]
  omega

theorem drop_encodeRecord (kind : UInt8) (payload rest : Bytes) :
    (encodeRecord kind payload ++ rest).drop recordHeaderLen = payload ++ rest := by
  simp [encodeRecord, recordHeaderLen, List.drop_append]

theorem readRecord_encodeRecord {kind : UInt8} {payload : Bytes} (h : payload.length ≤ maxPayloadLen) (o : Nat)
    (rest : Bytes) : readRecord o (encodeRecord kind payload ++ rest) =
      (decodePayload kind payload o).map fun d => (d, recordHeaderLen + payload.length) := by
  have hlen : payload.length < 256 ^ 4 := Nat.lt_of_le_of_lt h (by decide)
  have hcrc : (crc32 [[kind], leBytes 4 payload.length, payload]).toNat < 256 ^ 4 := UInt32.toNat_lt _
  have hhead : (encodeRecord kind payload ++ rest).take recordHeaderLen =
      kind ::
        (leBytes 4 payload.length ++ leBytes 4 (crc32 [[kind], leBytes 4 payload.length, payload]).toNat) := by
    simp [encodeRecord, recordHeaderLen, List.take_append]
  unfold readRecord
  rw [hhead]
  simp only [List.length_append, leBytes_length, List.take_left', List.drop_left', leNat_leBytes hlen,
    leNat_leBytes hcrc, drop_encodeRecord]
  rw [if_neg (by decide), if_neg (Nat.not_lt.mpr h)]
  simp

theorem u64At_eq {payload a b : Bytes} {i n : Nat} (hp : payload = a ++ (leBytes 8 n ++ b)) (ha : a.length = i)
    (h : n < 2 ^ 64) : u64At payload i = n := by
  rw [u64At, hp, ← ha, List.drop_left, List.take_left' (leBytes_length 8 n)]
  exact leNat_leBytes h

theorem u32At_eq {payload a b : Bytes} {i n : Nat} (hp : payload = a ++ (leBytes 4 n ++ b)) (ha : a.length = i)
    (h : n < 2 ^ 32) : u32At payload i = n := by
  rw [u32At, hp, ← ha, List.drop_left, List.take_left' (leBytes_length 4 n)]
  exact leNat_leBytes h

theorem decodePayload_undo {txn : Nat} {rid : RecordId} {tmeta : TupleMeta} {data : Bytes}
    (h : (TxnRecord.undo txn rid tmeta data).Fits) (o : Nat) :
    decodePayload kindUndo (leBytes 8 txn ++ leBytes 4 rid.pageId ++ leBytes 4 rid.slotId ++
      leBytes 8 tmeta.ts.encode ++ [if tmeta.isDeleted then 1 else 0] ++ data) o =
        some (.txn (.undo txn rid tmeta data)) := by
  obtain ⟨htxn, hpage, hslot, hrange, hts, _⟩ := h
  have hpage' : rid.pageId < 2 ^ 32 := Nat.lt_of_le_of_lt hpage (by decide)
  generalize hflag : (if tmeta.isDeleted then (1 : UInt8) else 0) = flag
  generalize hp : leBytes 8 txn ++ leBytes 4 rid.pageId ++ leBytes 4 rid.slotId ++ leBytes 8 tmeta.ts.encode ++
    [flag] ++ data = payload
  -- the payload, cut before each field
  have cut0 : payload = leBytes 8 txn ++
    (leBytes 4 rid.pageId ++ (leBytes 4 rid.slotId ++ (leBytes 8 tmeta.ts.encode ++
      ([flag] ++ data)))) := by rw [← hp]; simp only [List.append_assoc]
  have cut12 := cut0.trans (List.append_assoc _ _ _).symm
  have cut16 := cut12.trans (List.append_assoc _ _ _).symm
  have cut24 := cut16.trans (List.append_assoc _ _ _).symm
  have h0 : u64At payload 0 = txn := u64At_eq (a := []) cut0 rfl htxn
  have h8 : u32At payload 8 = rid.pageId := u32At_eq cut0 (leBytes_length _ _) hpage'
  have h12 : u32At payload 12 = rid.slotId := u32At_eq cut12 (by simp) hslot
  have h16 : u64At payload 16 = tmeta.ts.encode := u64At_eq cut16 (by simp) hts
  have hfixed :
      (leBytes 8 txn ++ leBytes 4 rid.pageId ++ leBytes 4 rid.slotId ++ leBytes 8 tmeta.ts.encode).length = 24 := by
    simp
  have h24 : payload.getD 24 0 = flag := by
    rw [List.getD, cut24, List.getElem?_append_right (by rw [hfixed]), hfixed]
    rfl
  have hdata : payload.drop undoFixedLen = data := by
    rw [cut24, ← List.append_assoc, List.drop_left']
    rw [List.length_append, hfixed]
    rfl
  have hlen : undoFixedLen ≤ payload.length := by
    rw [cut24, List.length_append, hfixed, List.length_append]
    exact Nat.add_le_add_left (Nat.le_add_right _ _) _
  rw [decodePayload, if_neg (by decide), if_neg (by decide), if_neg (by decide), if_neg (by decide),
    if_pos rfl, h0, h8, h12, h16, hdata, h24, if_pos ⟨hlen, hpage⟩, Stamp.decode_encode hrange, ← hflag]
  obtain ⟨ts, isDeleted⟩ := tmeta
  cases isDeleted <;> rfl

theorem encode_ne_nil (r : LogRecord) : r.encode ≠ [] := by
  cases r with
  | txn r => cases r <;> exact List.cons_ne_nil _ _
  | _ => exact List.cons_ne_nil _ _

theorem walFraming_sound : walFraming.Sound LogRecord.Fits where
  nonempty := encode_ne_nil
  reads := by
    intro r h o rest
    show readRecord o (r.encode ++ rest) = some (r.decoded o, r.encode.length)
    cases r with
    | page id image =>
      have hid : id < 2 ^ 64 := Nat.lt_of_le_of_lt h (by decide)
      have h0 : u64At (leBytes pageIdLen id ++ image.1) 0 = id := u64At_eq (a := []) rfl rfl hid
      have hlen : (leBytes pageIdLen id ++ image.1).length = pageIdLen + pageSize := by simp [image.2]
      rw [LogRecord.encode, readRecord_encodeRecord (by rw [hlen]; decide), encodeRecord_length, decodePayload,
        if_pos rfl, h0, if_pos ⟨hlen, h⟩]
      rfl
    | durable => rw [LogRecord.encode, readRecord_encodeRecord (Nat.zero_le _), encodeRecord_length]; rfl
    | txn r =>
      cases r with
      | writes txn =>
        have h0 : u64At (leBytes 8 txn) 0 = txn := u64At_eq (a := []) (b := []) (by simp) rfl h
        rw [LogRecord.encode, encodeTxnRecord, readRecord_encodeRecord (by simp; decide), encodeRecord_length,
          decodePayload, if_neg (by decide), if_neg (by decide), if_pos rfl, if_pos (leBytes_length 8 txn), h0]
        rfl
      | ended txn =>
        have h0 : u64At (leBytes 8 txn) 0 = txn := u64At_eq (a := []) (b := []) (by simp) rfl h
        rw [LogRecord.encode, encodeTxnRecord, readRecord_encodeRecord (by simp; decide), encodeRecord_length,
          decodePayload, if_neg (by decide), if_neg (by decide), if_neg (by decide), if_pos rfl,
          if_pos (leBytes_length 8 txn), h0]
        rfl
      | undo txn rid tmeta data =>
        have hlen := h.2.2.2.2.2
        rw [LogRecord.encode, encodeTxnRecord, readRecord_encodeRecord, decodePayload_undo h, encodeRecord_length]
        · rfl
        · simp only [List.length_append, leBytes_length, List.length_singleton, maxPayloadLen, undoFixedLen]
          omega

/-! ## What is read stands within the file -/

theorem readRecord_found {o n : Nat} {bs : Bytes} {d : Decoded} (h : readRecord o bs = some (d, n)) :
    ∃ len, n = recordHeaderLen + len ∧ n ≤ bs.length ∧ ∀ rest, readRecord o (bs ++ rest) = some (d, n) := by
  unfold readRecord at h
  split at h
  case h_2 => cases h
  case h_1 kind header hhead =>
    simp only at h
    split at h
    · cases h
    rename_i hlen
    split at h
    · cases h
    rename_i hmax
    split at h
    · cases h
    rename_i hcrc
    obtain ⟨_, _, heq⟩ := Option.map_eq_some_iff.mp h
    have hn : recordHeaderLen + leNat (header.take 4) = n := congrArg Prod.snd heq
    have hbs : recordHeaderLen ≤ bs.length := by
      have htake := congrArg List.length hhead
      rw [List.length_take, List.length_cons] at htake
      simp only [recordHeaderLen] at htake ⊢
      omega
    have hpayload : leNat (header.take 4) ≤ (bs.drop recordHeaderLen).length := by
      have hshort := (not_or.mp hcrc).1
      rw [List.length_take] at hshort
      omega
    refine ⟨_, hn.symm, ?_, ?_⟩
    · rw [List.length_drop] at hpayload
      omega
    · intro rest
      unfold readRecord
      rw [List.take_append_of_le_length hbs, hhead]
      simp only [List.drop_append_of_le_length hbs, List.take_append_of_le_length hpayload]
      rw [if_neg hlen, if_neg hmax, if_neg hcrc]
      exact h

theorem walFraming_local : walFraming.Local where
  inside := by
    intro o bs d n h
    obtain ⟨len, rfl, hle, _⟩ := readRecord_found h
    exact ⟨Nat.add_pos_left (by decide) len, hle⟩
  stays := by
    intro o bs d n h
    obtain ⟨_, _, _, hstays⟩ := readRecord_found h
    exact hstays

/-! ## What is read fits -/

theorem u64At_lt (bytes : Bytes) (i : Nat) : u64At bytes i < 2 ^ 64 := by
  have hlen : ((bytes.drop i).take 8).length ≤ 8 := by rw [List.length_take]; omega
  exact Nat.lt_of_lt_of_le (leNat_lt _) (Nat.pow_le_pow_right (by decide) hlen)

theorem u32At_lt (bytes : Bytes) (i : Nat) : u32At bytes i < 2 ^ 32 := by
  have hlen : ((bytes.drop i).take 4).length ≤ 4 := by rw [List.length_take]; omega
  exact Nat.lt_of_lt_of_le (leNat_lt _) (Nat.pow_le_pow_right (by decide) hlen)

theorem decodePayload_fits {kind : UInt8} {payload : Bytes} {o : Nat} {r : TxnRecord}
    (hlen : payload.length ≤ maxPayloadLen) (h : decodePayload kind payload o = some (.txn r)) : r.Fits := by
  unfold decodePayload at h
  split at h
  · split at h <;> cases h
  split at h
  · split at h <;> cases h
  split at h
  · split at h
    · cases h; exact u64At_lt _ _
    · cases h
  split at h
  · split at h
    · cases h; exact u64At_lt _ _
    · cases h
  split at h
  · split at h
    · rename_i hundo
      cases h
      have hts := Stamp.decode_fits (u64At_lt payload 16)
      refine ⟨u64At_lt _ _, hundo.2, u32At_lt _ _, hts.1, hts.2, ?_⟩
      rw [List.length_drop]
      exact Nat.sub_le_iff_le_add'.mpr hlen
    · cases h
  · cases h

theorem readRecord_fits {o k : Nat} {bytes : Bytes} {r : TxnRecord}
    (h : readRecord o bytes = some (.txn r, k)) : r.Fits := by
  unfold readRecord at h
  split at h
  · simp only at h
    split at h
    · cases h
    split at h
    · cases h
    split at h
    · cases h
    rename_i hmax _
    obtain ⟨d, hd, heq⟩ := Option.map_eq_some_iff.mp h
    cases heq
    refine decodePayload_fits ?_ hd
    rw [List.length_take]
    omega
  · cases h

/-! ## What is read was encoded -/

def TakesPayload (kind : UInt8) (payload : Bytes) : Prop :=
  kind = kindPage ∧ payload.length = pageIdLen + pageSize ∧ u64At payload 0 ≤ maxPageId ∨
    kind = kindDurable ∧ payload.length = 0 ∨ (kind = kindWrites ∨ kind = kindEnd) ∧ payload.length = 8 ∨
    kind = kindUndo ∧ undoFixedLen ≤ payload.length ∧ payload.length ≤ maxPayloadLen ∧ u32At payload 8 ≤ maxPageId

def BeginsRecord (bytes : Bytes) : Prop :=
  ∃ kind payload, TakesPayload kind payload ∧ encodeRecord kind payload <+: bytes

theorem TakesPayload.length_le {kind : UInt8} {payload : Bytes} (h : TakesPayload kind payload) :
    payload.length ≤ maxPayloadLen := by
  rcases h with ⟨_, h, _⟩ | ⟨_, h⟩ | ⟨_, h⟩ | ⟨_, _, h, _⟩
  · rw [h]; decide
  · rw [h]; decide
  · rw [h]; decide
  · exact h

theorem takesPayload_iff {kind : UInt8} {payload : Bytes} (hlen : payload.length ≤ maxPayloadLen) (o : Nat) :
    TakesPayload kind payload ↔ (decodePayload kind payload o).isSome = true := by
  constructor
  · rintro (⟨rfl, h⟩ | ⟨rfl, h⟩ | ⟨rfl | rfl, h⟩ | ⟨rfl, h, _, hid⟩)
    · simp [decodePayload, h]
    · simp [decodePayload, kindPage, kindDurable, h]
    · simp [decodePayload, kindPage, kindDurable, kindWrites, h]
    · simp [decodePayload, kindPage, kindDurable, kindWrites, kindEnd, h]
    · simp [decodePayload, kindPage, kindDurable, kindWrites, kindEnd, kindUndo, h, hid]
  · intro h
    unfold decodePayload at h
    split at h
    · split at h
      · rename_i hk hp; exact .inl ⟨hk, hp⟩
      · cases h
    split at h
    · split at h
      · rename_i hk hp; exact .inr (.inl ⟨hk, hp⟩)
      · cases h
    split at h
    · split at h
      · rename_i hk hp; exact .inr (.inr (.inl ⟨.inl hk, hp⟩))
      · cases h
    split at h
    · split at h
      · rename_i hk hp; exact .inr (.inr (.inl ⟨.inr hk, hp⟩))
      · cases h
    split at h
    · split at h
      · rename_i hk hp; exact .inr (.inr (.inr ⟨hk, hp.1, hlen, hp.2⟩))
      · cases h
    · cases h

theorem encoded_of_readRecord {o n : Nat} {bytes : Bytes} {d : Decoded} (h : readRecord o bytes = some (d, n)) :
    ∃ kind payload, payload.length ≤ maxPayloadLen ∧ decodePayload kind payload o = some d ∧
      encodeRecord kind payload <+: bytes := by
  unfold readRecord at h
  split at h
  case h_2 => cases h
  case h_1 kind header hhead =>
    simp only at h
    split at h
    · cases h
    split at h
    · cases h
    split at h
    · cases h
    rename_i hheader hmax hcrc
    obtain ⟨hfull, hcrc⟩ := not_or.mp hcrc
    obtain ⟨_, hd, heq⟩ := Option.map_eq_some_iff.mp h
    cases heq
    have hlen : ((bytes.drop recordHeaderLen).take (leNat (header.take 4))).length = leNat (header.take 4) := by
      rw [List.length_take] at hfull ⊢
      omega
    have hheader : header.length = 8 := by
      have htake := congrArg List.length hhead
      rw [List.length_take, List.length_cons] at htake
      simp only [recordHeaderLen] at htake
      omega
    refine ⟨kind, _, by rw [hlen]; exact Nat.not_lt.mp hmax, hd, ?_⟩
    -- the header is the one the payload is written with
    have hl : leBytes 4 (leNat (header.take 4)) = header.take 4 := by
      have := leBytes_leNat (header.take 4)
      rwa [List.length_take, hheader] at this
    have hc : leBytes 4 (leNat (header.drop 4)) = header.drop 4 := by
      have := leBytes_leNat (header.drop 4)
      rwa [List.length_drop, hheader] at this
    rw [encodeRecord, hlen, hl, not_not.mp hcrc, hc, List.take_append_drop, ← List.cons_append, ← hhead]
    exact ⟨_, by rw [List.append_assoc, List.take_append_drop, List.take_append_drop]⟩

/-- The reader accepts bytes just when they begin with an encoded record. -/
theorem readRecord_eq_none {o : Nat} {bytes : Bytes} : readRecord o bytes = none ↔ ¬ BeginsRecord bytes := by
  constructor
  · rintro hnone ⟨kind, payload, htakes, rest, rfl⟩
    rw [readRecord_encodeRecord htakes.length_le, Option.map_eq_none_iff] at hnone
    have hsome := (takesPayload_iff htakes.length_le o).mp htakes
    rw [hnone] at hsome
    cases hsome
  · intro hbegins
    cases hread : readRecord o bytes with
    | none => rfl
    | some found =>
      obtain ⟨kind, payload, hlen, hd, hpre⟩ := encoded_of_readRecord hread
      exact absurd ⟨kind, payload, (takesPayload_iff hlen o).mpr (by rw [hd]; rfl), hpre⟩ hbegins

end Cmudb
