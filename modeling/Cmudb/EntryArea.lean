import Cmudb.BPlusPage
import Cmudb.Buf

/-!
# Entries packed at the end of a page

Each entry is a key and a payload of fixed length. The entries stand in order
against the end of the page, an array of `u16` offsets behind the page's header
says where each starts, and a gap lies between the two. `picture` is that page,
`image` the one whose gap is zero, as the encoders leave it, and inserting or
removing an entry in place takes one picture to the other. `none` is a panic of
the code.
-/

namespace Cmudb

open Lib

namespace BPlus

def pageOffset (off : Nat) : Option Nat := if off < 65536 then some off else none

theorem pageOffset_of_le {off : Nat} (h : off ≤ pageSize) : pageOffset off = some off := by
  unfold pageSize at h
  exact if_pos (by omega)

namespace EntryArea

variable (area : EntryArea)

def slotOffset (i : Nat) : Nat := area.slotsStart + i * 2

def start (buf : Bytes) (i : Nat) : Option Nat := getU16Le buf (area.slotOffset i)

/-- The source's `end`. -/
def entryEnd (buf : Bytes) (n i : Nat) : Option Nat := if i + 1 < n then area.start buf (i + 1) else some pageSize

def dataStart (buf : Bytes) (n : Nat) : Option Nat := if n = 0 then some pageSize else area.start buf 0

def used (buf : Bytes) (n : Nat) : Option Nat := do
  let data ← minus pageSize (← area.dataStart buf n)
  return n * 2 + data

def free (buf : Bytes) (n : Nat) : Option Nat := do minus area.capacity (← area.used buf n)

def slotsPastPage : PageCodecError := .malformed "slot array runs past the page"

def entryOutOfBounds : PageCodecError := .malformed "entry offsets are out of order or outside the page"

def cutShort (buf : Bytes) (n i : Nat) : Option Bool := do
  let start ← area.start buf i
  let stop ← area.entryEnd buf n i
  return stop < start + area.payloadLen

def check (buf : Bytes) (n : Nat) : Option (Except PageCodecError Unit) := do
  let slotsEnd := area.slotsStart + n * 2
  if buf.length ≠ pageSize then return .error .invalidSize
  if pageSize < slotsEnd then return .error slotsPastPage
  if n = 0 then return .ok ()
  if (← area.start buf 0) < slotsEnd then return .error entryOutOfBounds
  if ← (List.range n).anyM (area.cutShort buf n) then return .error entryOutOfBounds
  return .ok ()

def key (buf : Bytes) (n i : Nat) : Option Bytes := do
  guard (i < n)
  let stop ← area.entryEnd buf n i
  slice? buf (← area.start buf i) (← minus stop area.payloadLen)

def payload (buf : Bytes) (n i : Nat) : Option Bytes := do
  guard (i < n)
  let stop ← area.entryEnd buf n i
  slice? buf (← minus stop area.payloadLen) stop

def putEntry (buf : Bytes) (i off : Nat) (key payload : Bytes) : Option (Bytes × Nat) := do
  guard (payload.length = area.payloadLen)
  let buf ← putU16Le buf (area.slotOffset i) (← pageOffset off)
  let keyEnd := off + key.length
  let buf ← put buf off key
  let buf ← put buf keyEnd payload
  return (buf, keyEnd + payload.length)

/-- The loop of the encoders over the entries of a page, the first of them at `off`. -/
def putEntries (buf : Bytes) (off : Nat) (es : List (Key × Bytes)) : Option (Bytes × Nat) :=
  es.zipIdx.foldlM (fun acc e => area.putEntry acc.1 e.2 acc.2 e.1.1 e.1.2) (buf, off)

def setPayload (buf : Bytes) (n i : Nat) (payload : Bytes) : Option Bytes := do
  guard (payload.length = area.payloadLen)
  let stop ← area.entryEnd buf n i
  put buf (← minus stop area.payloadLen) payload

/-- The loop of `insert` and `remove` over the slots before `pos`, whose entries move. -/
def moveSlots (moved : Nat → Option Nat) (pos : Nat) (buf : Bytes) : Option Bytes :=
  (List.range pos).foldlM (fun buf i => do
    let off ← moved (← area.start buf i)
    putU16Le buf (area.slotOffset i) (← pageOffset off)) buf

def insertOffset (buf : Bytes) (n pos : Nat) : Option Nat := if pos < n then area.start buf pos else some pageSize

def insert (buf : Bytes) (n pos : Nat) (key payload : Bytes) : Option Bytes := do
  guard (pos ≤ n)
  let len := key.length + payload.length
  guard (area.entryCost key.length ≤ (← area.free buf n))
  let dataStart ← area.dataStart buf n
  let off ← area.insertOffset buf n pos
  let buf ← copyWithin buf dataStart off (← minus dataStart len)
  let buf ← area.moveSlots (fun s => minus s len) pos buf
  let slot := area.slotOffset pos
  let buf ← copyWithin buf slot (area.slotOffset n) (slot + 2)
  return (← area.putEntry buf pos (← minus off len) key payload).1

def remove (buf : Bytes) (n pos : Nat) : Option Bytes := do
  guard (pos < n)
  let start ← area.start buf pos
  let len ← minus (← area.entryEnd buf n pos) start
  let dataStart ← area.dataStart buf n
  let buf ← copyWithin buf dataStart start (dataStart + len)
  let buf ← fill buf dataStart (dataStart + len) 0
  let buf ← area.moveSlots (fun s => some (s + len)) pos buf
  let slot := area.slotOffset pos
  let slotsEnd := area.slotOffset n
  let buf ← copyWithin buf (slot + 2) slotsEnd slot
  fill buf (← minus slotsEnd 2) slotsEnd 0

end EntryArea

/-! ## Images -/

def entryBytes (e : Key × Bytes) : Bytes := e.1 ++ e.2

def dataBytes (es : List (Key × Bytes)) : Bytes := es.flatMap entryBytes

def starts : Nat → List (Key × Bytes) → List Nat
  | _, [] => []
  | off, e :: es => off :: starts (off + (entryBytes e).length) es

@[simp] theorem entryBytes_length (e : Key × Bytes) : (entryBytes e).length = e.1.length + e.2.length := by
  simp [entryBytes]

@[simp] theorem dataBytes_nil : dataBytes [] = [] := rfl

@[simp] theorem dataBytes_cons (e : Key × Bytes) (es : List (Key × Bytes)) :
    dataBytes (e :: es) = entryBytes e ++ dataBytes es := rfl

@[simp] theorem dataBytes_append (as bs : List (Key × Bytes)) :
    dataBytes (as ++ bs) = dataBytes as ++ dataBytes bs :=
  List.flatMap_append

theorem dataBytes_cost {area : EntryArea} {es : List (Key × Bytes)} (h : ∀ e ∈ es, e.2.length = area.payloadLen) :
    (dataBytes es).length + es.length * 2 = ((es.map Prod.fst).map fun k => area.entryCost k.length).sum := by
  induction es with
  | nil => rfl
  | cons e es ih =>
    have ih' := ih fun x hx => h x (List.mem_cons_of_mem e hx)
    have hpay := h e List.mem_cons_self
    have hcost : area.entryCost e.1.length = 2 + e.1.length + area.payloadLen := rfl
    simp only [List.map_cons, dataBytes_cons, List.length_append, entryBytes_length, List.length_cons,
      List.sum_cons] at ih' ⊢
    omega

@[simp] theorem starts_length (off : Nat) (es : List (Key × Bytes)) : (starts off es).length = es.length := by
  induction es generalizing off with
  | nil => rfl
  | cons e es ih => simp [starts, ih]

theorem starts_append (off : Nat) (as bs : List (Key × Bytes)) :
    starts off (as ++ bs) = starts off as ++ starts (off + (dataBytes as).length) bs := by
  induction as generalizing off with
  | nil => simp [starts]
  | cons e as ih => simp [starts, ih, Nat.add_assoc]

theorem starts_bounds {off s : Nat} {es : List (Key × Bytes)} (h : s ∈ starts off es) :
    off ≤ s ∧ s ≤ off + (dataBytes es).length := by
  induction es generalizing off with
  | nil => cases h
  | cons e es ih =>
    rw [dataBytes_cons, List.length_append]
    cases h with
    | head => omega
    | tail _ h =>
      have := ih h
      omega

theorem starts_map_add (off len : Nat) (es : List (Key × Bytes)) :
    (starts off es).map (· + len) = starts (off + len) es := by
  induction es generalizing off with
  | nil => rfl
  | cons e es ih => simp [starts, ih, Nat.add_right_comm]

theorem starts_map_sub (off len : Nat) (es : List (Key × Bytes)) :
    (starts (off + len) es).map (· - len) = starts off es := by
  induction es generalizing off with
  | nil => rfl
  | cons e es ih => rw [starts, List.map_cons, Nat.add_sub_cancel, Nat.add_right_comm, ih, starts]

theorem starts_back (e : Key × Bytes) (bs : List (Key × Bytes)) (h : (dataBytes (e :: bs)).length ≤ pageSize) :
    starts (pageSize - (dataBytes (e :: bs)).length) (e :: bs) =
      (pageSize - (dataBytes (e :: bs)).length) :: starts (pageSize - (dataBytes bs).length) bs := by
  rw [dataBytes_cons, List.length_append] at h ⊢
  rw [starts]
  congr 2
  omega

/-- The bytes of a page with the header `head`, the entries `es` and `gap` between their slots and them. -/
def picture (head gap : Bytes) (es : List (Key × Bytes)) : Bytes :=
  head ++ cells (leBytes 2) (starts (pageSize - (dataBytes es).length) es) ++ gap ++ dataBytes es

namespace EntryArea

variable (area : EntryArea)

def image (head : Bytes) (es : List (Key × Bytes)) : Bytes :=
  head ++ cells (leBytes 2) (starts (pageSize - (dataBytes es).length) es) ++
    List.replicate (pageSize - area.slotsStart - es.length * 2 - (dataBytes es).length) 0 ++ dataBytes es

structure Packed (head : Bytes) (es : List (Key × Bytes)) : Prop where
  head : head.length = area.slotsStart
  payloads : ∀ e ∈ es, e.2.length = area.payloadLen
  fits : area.slotsStart + es.length * 2 + (dataBytes es).length ≤ pageSize

structure Tiled (head gap : Bytes) (es : List (Key × Bytes)) : Prop where
  head : head.length = area.slotsStart
  payloads : ∀ e ∈ es, e.2.length = area.payloadLen
  room : area.slotsStart + es.length * 2 + gap.length + (dataBytes es).length = pageSize

variable {area} {head gap : Bytes} {es : List (Key × Bytes)}

theorem Packed.tiled (h : area.Packed head es) :
    area.Tiled head (List.replicate (pageSize - area.slotsStart - es.length * 2 - (dataBytes es).length) 0) es := by
  have hfits := h.fits
  refine ⟨h.head, h.payloads, ?_⟩
  rw [List.length_replicate]
  omega

theorem Tiled.packed (h : area.Tiled head gap es) :
    area.Packed head es := by
  have hroom := h.room
  exact ⟨h.head, h.payloads, by omega⟩

theorem Tiled.picture_length (h : area.Tiled head gap es) :
    (picture head gap es).length = pageSize := by
  simp only [picture, List.length_append, cells_length (leBytes_length 2), starts_length, h.head]
  exact h.room

theorem Packed.image_length (h : area.Packed head es) :
    (area.image head es).length = pageSize :=
  h.tiled.picture_length

theorem start_cell {head r : Bytes} {ns ms : List Nat} {s i : Nat} (hhead : head.length = area.slotsStart)
    (hs : s ≤ pageSize) (hi : i = ns.length) :
    area.start (head ++ cells (leBytes 2) (ns ++ s :: ms) ++ r) i = some s := by
  unfold pageSize at hs
  exact getLe_cell (by omega) (by rw [slotOffset, hhead, hi])

theorem putSlot_cell {head r : Bytes} {ns ms : List Nat} {s s' i : Nat} (hhead : head.length = area.slotsStart)
    (hi : i = ns.length) :
    putU16Le (head ++ cells (leBytes 2) (ns ++ s :: ms) ++ r) (area.slotOffset i) s' =
      some (head ++ cells (leBytes 2) (ns ++ s' :: ms) ++ r) :=
  put_cell (leBytes_length 2) (by rw [slotOffset, hhead, hi])

/-- The loop moves every slot it passes. The list of slots grows at its end, as the loop's range does. -/
theorem moveSlots_cells {moved : Nat → Option Nat} {g : Nat → Nat} {head : Bytes}
    (hhead : head.length = area.slotsStart) {ns : List Nat}
    (hns : ∀ s ∈ ns, s ≤ pageSize ∧ moved s = some (g s) ∧ g s ≤ pageSize) (r : Bytes) :
    area.moveSlots moved ns.length (head ++ cells (leBytes 2) ns ++ r) =
      some (head ++ cells (leBytes 2) (ns.map g) ++ r) := by
  induction ns using List.reverseRecOn generalizing r with
  | nil => rfl
  | append_singleton ns s ih =>
    obtain ⟨hs, hm, hg⟩ := hns s (by simp)
    have ih' := ih (fun t ht => hns t (List.mem_append_left _ ht)) (leBytes 2 s ++ r)
    have hread := @start_cell area head r (ns.map g) [] s ns.length hhead hs (by simp)
    have hwrite := @putSlot_cell area head r (ns.map g) [] s (g s) ns.length hhead (by simp)
    unfold moveSlots at ih' ⊢
    rw [List.length_append, List.length_singleton, List.range_succ, List.foldlM_append]
    simp only [cells_append, cells_cons, cells_nil, List.append_nil, List.append_assoc, List.map_append,
      List.map_cons, List.map_nil] at ih' hread hwrite ⊢
    rw [ih', some_bind, List.foldlM_cons, hread, some_bind, hm, some_bind, pageOffset_of_le hg, some_bind,
      hwrite]
    rfl

variable {as bs : List (Key × Bytes)} {e : Key × Bytes} {n i : Nat}

theorem picture_append (h : area.Tiled head gap (as ++ bs)) :
    picture head gap (as ++ bs) = head ++
      cells (leBytes 2) (starts (pageSize - (dataBytes as).length - (dataBytes bs).length) as ++
        starts (pageSize - (dataBytes bs).length) bs) ++ gap ++ (dataBytes as ++ dataBytes bs) := by
  have hroom := h.room
  simp only [dataBytes_append, List.length_append] at hroom
  have hoff : pageSize - (dataBytes as).length - (dataBytes bs).length + (dataBytes as).length =
      pageSize - (dataBytes bs).length := by omega
  rw [picture, dataBytes_append, List.length_append, starts_append, Nat.sub_add_eq, hoff]

theorem start_picture (h : area.Tiled head gap (as ++ e :: bs)) (hi : i = as.length) :
    area.start (picture head gap (as ++ e :: bs)) i = some (pageSize - (dataBytes (e :: bs)).length) := by
  rw [picture_append h, starts, List.append_assoc (head ++ _)]
  exact start_cell h.head (Nat.sub_le _ _) (by simp [hi])

theorem entryEnd_picture (h : area.Tiled head gap (as ++ e :: bs)) (hn : n = (as ++ e :: bs).length)
    (hi : i = as.length) :
    area.entryEnd (picture head gap (as ++ e :: bs)) n i = some (pageSize - (dataBytes bs).length) := by
  cases bs with
  | nil => exact if_neg (by simp [hn, hi])
  | cons e' bs =>
    have h' : area.Tiled head gap ((as ++ [e]) ++ e' :: bs) := by simpa using h
    rw [entryEnd, if_pos (by simp [hn, hi])]
    simpa using start_picture h' (show i + 1 = (as ++ [e]).length by simp [hi])

theorem dataStart_picture (h : area.Tiled head gap es) (hn : n = es.length) :
    area.dataStart (picture head gap es) n = some (pageSize - (dataBytes es).length) := by
  cases es with
  | nil => exact if_pos hn
  | cons e es =>
    rw [dataStart, if_neg (by simp [hn])]
    exact @start_picture area head gap [] es e 0 h rfl

theorem used_picture (h : area.Tiled head gap es) (hn : n = es.length) :
    area.used (picture head gap es) n = some (es.length * 2 + (dataBytes es).length) := by
  have hroom := h.room
  have hback : pageSize - (pageSize - (dataBytes es).length) = (dataBytes es).length := by omega
  rw [used, dataStart_picture h hn, some_bind, minus_of_le (Nat.sub_le _ _), some_bind, hback, hn]
  rfl

theorem free_picture (h : area.Tiled head gap es) (hn : n = es.length) :
    area.free (picture head gap es) n = some (area.capacity - (es.length * 2 + (dataBytes es).length)) := by
  have hroom := h.room
  rw [free, used_picture h hn, some_bind, minus_of_le (by unfold capacity; omega)]

theorem free_image (h : area.Packed head es) (hn : n = es.length) :
    area.free (area.image head es) n = some (area.capacity - (es.length * 2 + (dataBytes es).length)) :=
  free_picture h.tiled hn

theorem Tiled.setPayload (h : area.Tiled head gap (as ++ e :: bs)) {p : Bytes} (hp : p.length = area.payloadLen) :
    area.Tiled head gap (as ++ (e.1, p) :: bs) := by
  have hpay : e.2.length = area.payloadLen := h.payloads e (by simp)
  refine ⟨h.head, ?_, by simpa [hp, hpay] using h.room⟩
  intro x hx
  rcases List.mem_append.mp hx with hx | hx
  · exact h.payloads x (by simp [hx])
  · rcases List.mem_cons.mp hx with rfl | hx
    · exact hp
    · exact h.payloads x (by simp [hx])

theorem picture_entry (h : area.Tiled head gap (as ++ e :: bs)) :
    ∃ l r, l.length = pageSize - (dataBytes (e :: bs)).length ∧
      ∀ p, p.length = area.payloadLen → picture head gap (as ++ (e.1, p) :: bs) = l ++ e.1 ++ p ++ r := by
  have hpay : e.2.length = area.payloadLen := h.payloads e (by simp)
  have hlen := h.picture_length
  rw [picture_append h] at hlen
  refine ⟨head ++ cells (leBytes 2) (starts (pageSize - (dataBytes as).length - (dataBytes (e :: bs)).length) as ++
    starts (pageSize - (dataBytes (e :: bs)).length) (e :: bs)) ++ gap ++ dataBytes as, dataBytes bs, ?_, ?_⟩
  · rw [← List.append_assoc, List.length_append] at hlen
    omega
  · intro p hp
    rw [picture_append (h.setPayload hp)]
    simp [starts, entryBytes, hp, hpay]

theorem key_picture (h : area.Tiled head gap (as ++ e :: bs)) (hn : n = (as ++ e :: bs).length)
    (hi : i = as.length) :
    area.key (picture head gap (as ++ e :: bs)) n i = some e.1 := by
  have hroom := h.room
  have hpay : e.2.length = area.payloadLen := h.payloads e (by simp)
  simp only [dataBytes_append, dataBytes_cons, List.length_append, entryBytes_length] at hroom
  obtain ⟨l, r, hl, hpicture⟩ := picture_entry h
  rw [key, guard_bind (by simp [hn, hi]), entryEnd_picture h hn hi, some_bind, start_picture h hi, some_bind,
    minus_of_le (by omega), some_bind, hpicture e.2 hpay, List.append_assoc (l ++ e.1)]
  simp only [dataBytes_cons, List.length_append, entryBytes_length] at hl ⊢
  exact slice?_mid hl.symm (by omega)

theorem key_image (h : area.Packed head (as ++ e :: bs)) (hn : n = (as ++ e :: bs).length) (hi : i = as.length) :
    area.key (area.image head (as ++ e :: bs)) n i = some e.1 :=
  key_picture h.tiled hn hi

theorem payload_picture (h : area.Tiled head gap (as ++ e :: bs)) (hn : n = (as ++ e :: bs).length)
    (hi : i = as.length) :
    area.payload (picture head gap (as ++ e :: bs)) n i = some e.2 := by
  have hroom := h.room
  have hpay : e.2.length = area.payloadLen := h.payloads e (by simp)
  simp only [dataBytes_append, dataBytes_cons, List.length_append, entryBytes_length] at hroom
  obtain ⟨l, r, hl, hpicture⟩ := picture_entry h
  simp only [dataBytes_cons, List.length_append, entryBytes_length] at hl
  rw [payload, guard_bind (by simp [hn, hi]), entryEnd_picture h hn hi, some_bind,
    minus_of_le (by omega), some_bind, hpicture e.2 hpay]
  exact slice?_mid (by rw [List.length_append]; omega) (by omega)

theorem payload_image (h : area.Packed head (as ++ e :: bs)) (hn : n = (as ++ e :: bs).length)
    (hi : i = as.length) :
    area.payload (area.image head (as ++ e :: bs)) n i = some e.2 :=
  payload_picture h.tiled hn hi

theorem setPayload_picture (h : area.Tiled head gap (as ++ e :: bs)) (hn : n = (as ++ e :: bs).length)
    (hi : i = as.length) {p : Bytes} (hp : p.length = area.payloadLen) :
    area.setPayload (picture head gap (as ++ e :: bs)) n i p = some (picture head gap (as ++ (e.1, p) :: bs)) := by
  have hroom := h.room
  have hpay : e.2.length = area.payloadLen := h.payloads e (by simp)
  simp only [dataBytes_append, dataBytes_cons, List.length_append, entryBytes_length] at hroom
  obtain ⟨l, r, hl, hpicture⟩ := picture_entry h
  simp only [dataBytes_cons, List.length_append, entryBytes_length] at hl
  rw [setPayload, guard_bind hp, entryEnd_picture h hn hi, some_bind, minus_of_le (by omega), some_bind,
    hpicture p hp, hpicture e.2 hpay]
  exact put_mid (by rw [List.length_append]; omega) (by omega)

theorem setPayload_image (h : area.Packed head (as ++ e :: bs)) (hn : n = (as ++ e :: bs).length)
    (hi : i = as.length) {p : Bytes} (hp : p.length = area.payloadLen) :
    area.setPayload (area.image head (as ++ e :: bs)) n i p = some (area.image head (as ++ (e.1, p) :: bs)) := by
  have hpay : e.2.length = area.payloadLen := h.payloads e (by simp)
  have himage : area.image head (as ++ (e.1, p) :: bs) = picture head (List.replicate (pageSize - area.slotsStart -
      (as ++ e :: bs).length * 2 - (dataBytes (as ++ e :: bs)).length) 0) (as ++ (e.1, p) :: bs) := by
    simp [image, picture, hp, hpay]
  rw [himage]
  exact setPayload_picture h.tiled hn hi hp

/-- A slot whose bytes are stale is pointed at an entry that is written over stale bytes. -/
theorem putEntry_gaps {l g m x r : Bytes} {off : Nat} {p : Bytes} {k : Key} (hp : p.length = area.payloadLen)
    (hl : l.length = area.slotOffset i) (hg : g.length = 2) (hoff : off = l.length + 2 + m.length)
    (hx : x.length = k.length + p.length) (hle : off ≤ pageSize) :
    area.putEntry (l ++ g ++ m ++ x ++ r) i off k p =
      some (l ++ leBytes 2 off ++ m ++ (k ++ p) ++ r, off + k.length + p.length) := by
  have hslot : putU16Le (l ++ g ++ m ++ x ++ r) (area.slotOffset i) off =
      some (l ++ leBytes 2 off ++ m ++ x ++ r) := by
    rw [List.append_assoc (l ++ g), List.append_assoc (l ++ g), List.append_assoc (l ++ leBytes 2 off),
      List.append_assoc (l ++ leBytes 2 off)]
    exact put_mid hl.symm (by simp [hg])
  have hcut : x = x.take k.length ++ x.drop k.length := (List.take_append_drop _ _).symm
  have hkey : put (l ++ leBytes 2 off ++ m ++ x ++ r) off k =
      some (l ++ leBytes 2 off ++ m ++ k ++ x.drop k.length ++ r) := by
    rw [hcut, ← List.append_assoc, List.append_assoc (l ++ leBytes 2 off ++ m ++ _), ← hcut,
      List.append_assoc (l ++ leBytes 2 off ++ m ++ _)]
    exact put_mid (by simp; omega) (by simp; omega)
  have hpayload : put (l ++ leBytes 2 off ++ m ++ k ++ x.drop k.length ++ r) (off + k.length) p =
      some (l ++ leBytes 2 off ++ m ++ k ++ p ++ r) := put_mid (by simp; omega) (by simp; omega)
  rw [putEntry, guard_bind hp, pageOffset_of_le hle, some_bind, hslot, some_bind, hkey, some_bind,
    hpayload, some_bind, List.append_assoc (l ++ leBytes 2 off ++ m)]
  rfl

theorem Packed.insert (h : area.Packed head (as ++ bs)) (hpay : e.2.length = area.payloadLen)
    (hfree : area.entryCost e.1.length ≤ area.capacity - ((as ++ bs).length * 2 + (dataBytes (as ++ bs)).length)) :
    area.Packed head (as ++ e :: bs) := by
  have hfits := h.fits
  refine ⟨h.head, ?_, ?_⟩
  · intro x hx
    rcases List.mem_append.mp hx with hx | hx
    · exact h.payloads x (by simp [hx])
    · rcases List.mem_cons.mp hx with rfl | hx
      · exact hpay
      · exact h.payloads x (by simp [hx])
  · unfold entryCost capacity at hfree
    simp only [dataBytes_append, dataBytes_cons, List.length_append, entryBytes_length, List.length_cons]
      at hfits hfree ⊢
    omega

theorem insertOffset_picture (h : area.Tiled head gap (as ++ bs)) (hn : n = (as ++ bs).length)
    (hi : i = as.length) :
    area.insertOffset (picture head gap (as ++ bs)) n i = some (pageSize - (dataBytes bs).length) := by
  cases bs with
  | nil => exact if_neg (by simp [hn, hi])
  | cons e bs =>
    rw [insertOffset, if_pos (by simp [hn, hi])]
    exact start_picture h hi

theorem Tiled.insert {z x : Bytes} (h : area.Tiled head (z ++ gap ++ x) (as ++ bs))
    (hpay : e.2.length = area.payloadLen) (hz : z.length = 2) (hx : x.length = e.1.length + e.2.length) :
    area.Tiled head gap (as ++ e :: bs) := by
  have hroom := h.room
  refine ⟨h.head, ?_, ?_⟩
  · intro y hy
    rcases List.mem_append.mp hy with hy | hy
    · exact h.payloads y (by simp [hy])
    · rcases List.mem_cons.mp hy with rfl | hy
      · exact hpay
      · exact h.payloads y (by simp [hy])
  · simp only [dataBytes_append, dataBytes_cons, List.length_append, entryBytes_length, List.length_cons] at hroom ⊢
    omega

/-- The new slot takes the first two bytes of the gap, and the new entry as many of its last ones as it needs. -/
theorem insert_picture {z x : Bytes} (h : area.Tiled head (z ++ gap ++ x) (as ++ bs))
    (hpay : e.2.length = area.payloadLen) (hz : z.length = 2) (hx : x.length = e.1.length + e.2.length)
    (hn : n = (as ++ bs).length) (hi : i = as.length) :
    area.insert (picture head (z ++ gap ++ x) (as ++ bs)) n i e.1 e.2 =
      some (picture head gap (as ++ e :: bs)) := by
  have h' := h.insert hpay hz hx
  have hroom := h.room
  simp only [dataBytes_append, List.length_append] at hroom
  have hhead := h.head
  have hfree : area.entryCost e.1.length ≤
      area.capacity - ((as ++ bs).length * 2 + (dataBytes (as ++ bs)).length) := by
    unfold entryCost capacity
    simp only [dataBytes_append, List.length_append]
    omega
  rw [insert, guard_bind (by simp [hn, hi]), free_picture h hn, some_bind, guard_bind hfree,
    dataStart_picture h hn, some_bind, insertOffset_picture h hn hi, some_bind, dataBytes_append,
    List.length_append, minus_of_le (by omega), some_bind, picture_append h, picture_append h']
  -- the pieces the bytes fall into
  generalize hA : starts (pageSize - (dataBytes as).length - (dataBytes bs).length) as = A
  generalize hB : starts (pageSize - (dataBytes bs).length) bs = B
  have hAlen : A.length = as.length := by rw [← hA, starts_length]
  have hBlen : B.length = bs.length := by rw [← hB, starts_length]
  have hcells := cells_length (leBytes_length 2)
  have hshift : A.map (· - (e.1.length + e.2.length)) =
      starts (pageSize - (dataBytes as).length - (dataBytes (e :: bs)).length) as := by
    have hdown : pageSize - (dataBytes as).length - (dataBytes bs).length =
        pageSize - (dataBytes as).length - (dataBytes (e :: bs)).length + (e.1.length + e.2.length) := by
      rw [dataBytes_cons, List.length_append, entryBytes_length]
      omega
    rw [← hA, hdown, starts_map_sub]
  have hoff : pageSize - (dataBytes bs).length - (e.1.length + e.2.length) =
      pageSize - (dataBytes (e :: bs)).length := by
    rw [dataBytes_cons, List.length_append, entryBytes_length]
    omega
  have hB' := starts_back e bs (by rw [dataBytes_cons, List.length_append, entryBytes_length]; omega)
  rw [← hshift, hB', hB]
  -- the entries before the new one move down
  obtain ⟨g, hg, hmove⟩ :=
    @copyWithin_down UInt8 (head ++ cells (leBytes 2) (A ++ B) ++ (z ++ gap)) x (dataBytes as)
    (dataBytes bs) (pageSize - ((dataBytes as).length + (dataBytes bs).length)) (pageSize - (dataBytes bs).length)
    (pageSize - ((dataBytes as).length + (dataBytes bs).length) - (e.1.length + e.2.length))
    (by simp only [List.length_append, hcells, hAlen, hBlen]; omega) (by omega) (by omega)
  rw [hx] at hg
  -- and their slots with them
  have hslots :=
    @moveSlots_cells area (fun s => minus s (e.1.length + e.2.length)) (· - (e.1.length + e.2.length)) head hhead A
    (by
      intro s hs
      rw [← hA] at hs
      have := starts_bounds hs
      exact ⟨by omega, minus_of_le (by omega), by omega⟩)
    (cells (leBytes 2) B ++ (z ++ (gap ++ (dataBytes as ++ (g ++ dataBytes bs)))))
  rw [hAlen, ← hi] at hslots
  -- the slots behind it move up by one
  obtain ⟨g', hg', hup⟩ := @copyWithin_up UInt8 (head ++ cells (leBytes 2) (A.map (· - (e.1.length + e.2.length))))
    z (cells (leBytes 2) B) (gap ++ dataBytes as ++ g ++ dataBytes bs)
    (area.slotOffset i) (area.slotOffset n) (area.slotOffset i + 2)
    (by simp only [List.length_append, hcells, List.length_map, slotOffset]; omega)
    (by simp only [hcells, slotOffset, hn, List.length_append]; omega) (by rw [hz])
  rw [hz] at hg'
  have hput := @putEntry_gaps area i (head ++ cells (leBytes 2) (A.map (· - (e.1.length + e.2.length)))) g'
    (cells (leBytes 2) B ++ gap ++ dataBytes as) g (dataBytes bs)
    (pageSize - (dataBytes (e :: bs)).length) e.2 e.1 hpay
    (by simp only [List.length_append, hcells, List.length_map, slotOffset]; omega) hg'
    (by
      simp only [List.length_append, hcells, List.length_map, dataBytes_cons, entryBytes_length]
      omega)
    hg (Nat.sub_le _ _)
  simp only [cells_append, cells_cons, List.append_assoc] at hmove hslots hup hput ⊢
  rw [hmove, some_bind, hslots, some_bind, hup, some_bind, minus_of_le (by omega), some_bind, hoff, hput, some_bind,
    dataBytes_cons, entryBytes, List.append_assoc]
  rfl

/-- An entry takes a slot and its bytes from the zeros between the slots and the data. -/
theorem image_gap (h : area.Packed head (as ++ e :: bs)) :
    List.replicate
        (pageSize - area.slotsStart - (as ++ bs).length * 2 - (dataBytes (as ++ bs)).length) (0 : UInt8) =
      List.replicate 2 0 ++
        List.replicate
          (pageSize - area.slotsStart - (as ++ e :: bs).length * 2 - (dataBytes (as ++ e :: bs)).length) 0 ++
        List.replicate (e.1.length + e.2.length) 0 := by
  have hfits := h.fits
  rw [← List.replicate_add, ← List.replicate_add]
  simp only [dataBytes_append, dataBytes_cons, List.length_append, entryBytes_length, List.length_cons] at hfits ⊢
  congr 1
  omega

theorem insert_image (h : area.Packed head (as ++ bs)) (hpay : e.2.length = area.payloadLen)
    (hfree : area.entryCost e.1.length ≤ area.capacity - ((as ++ bs).length * 2 + (dataBytes (as ++ bs)).length))
    (hn : n = (as ++ bs).length) (hi : i = as.length) :
    area.insert (area.image head (as ++ bs)) n i e.1 e.2 = some (area.image head (as ++ e :: bs)) := by
  have htiled := h.tiled
  have hbefore : area.image head (as ++ bs) = picture head _ (as ++ bs) := rfl
  rw [image_gap (h.insert hpay hfree)] at htiled hbefore
  rw [hbefore]
  exact insert_picture htiled hpay List.length_replicate List.length_replicate hn hi

theorem Packed.remove (h : area.Packed head (as ++ e :: bs)) : area.Packed head (as ++ bs) := by
  have hfits := h.fits
  refine ⟨h.head, ?_, ?_⟩
  · intro x hx
    apply h.payloads
    rcases List.mem_append.mp hx with hx | hx
    · simp [hx]
    · simp [hx]
  · simp only [dataBytes_append, dataBytes_cons, List.length_append, List.length_cons] at hfits ⊢
    omega

theorem Tiled.remove (h : area.Tiled head gap (as ++ e :: bs)) :
    area.Tiled head (List.replicate 2 0 ++ gap ++ List.replicate (e.1.length + e.2.length) 0) (as ++ bs) := by
  have hroom := h.room
  refine ⟨h.head, h.packed.remove.payloads, ?_⟩
  simp only [dataBytes_append, dataBytes_cons, List.length_append, List.length_replicate, entryBytes_length,
    List.length_cons] at hroom ⊢
  omega

theorem remove_picture (h : area.Tiled head gap (as ++ e :: bs)) (hn : n = (as ++ e :: bs).length)
    (hi : i = as.length) :
    area.remove (picture head gap (as ++ e :: bs)) n i =
      some (picture head (List.replicate 2 0 ++ gap ++ List.replicate (e.1.length + e.2.length) 0) (as ++ bs)) := by
  have h' := h.remove
  have hroom := h.room
  simp only [dataBytes_append, dataBytes_cons, List.length_append, entryBytes_length, List.length_cons] at hroom
  have hhead := h.head
  have hlen : pageSize - (dataBytes bs).length - (pageSize - (dataBytes (e :: bs)).length) =
      e.1.length + e.2.length := by
    rw [dataBytes_cons, List.length_append, entryBytes_length]
    omega
  rw [remove, guard_bind (by simp [hn, hi]), start_picture h hi, some_bind, entryEnd_picture h hn hi, some_bind,
    minus_of_le (by rw [dataBytes_cons, List.length_append]; omega), some_bind, hlen,
    dataStart_picture h hn, some_bind, dataBytes_append, List.length_append, picture_append h, picture_append h']
  generalize hA : starts (pageSize - (dataBytes as).length - (dataBytes (e :: bs)).length) as = A
  generalize hB : starts (pageSize - (dataBytes bs).length) bs = B
  have hAlen : A.length = as.length := by rw [← hA, starts_length]
  have hBlen : B.length = bs.length := by rw [← hB, starts_length]
  have hcells := cells_length (leBytes_length 2)
  have hshift : A.map (· + (e.1.length + e.2.length)) =
      starts (pageSize - (dataBytes as).length - (dataBytes bs).length) as := by
    rw [← hA, starts_map_add, dataBytes_cons, List.length_append, entryBytes_length]
    congr 1
    omega
  have hB' := starts_back e bs (by rw [dataBytes_cons, List.length_append, entryBytes_length]; omega)
  generalize hstart : pageSize - (dataBytes (e :: bs)).length = start at hB'
  rw [hB] at hB'
  rw [dataBytes_cons, List.length_append, entryBytes_length] at hstart
  rw [← hshift, hB', dataBytes_cons, List.length_append, entryBytes_length]
  -- the entries before it move up, over its bytes
  obtain ⟨g, hg, hmove⟩ := @copyWithin_up UInt8 (head ++ cells (leBytes 2) (A ++ start :: B) ++ gap)
    (entryBytes e) (dataBytes as) (dataBytes bs)
    (pageSize - ((dataBytes as).length + (e.1.length + e.2.length + (dataBytes bs).length))) start
    (pageSize - ((dataBytes as).length + (e.1.length + e.2.length + (dataBytes bs).length)) +
      (e.1.length + e.2.length))
    (by simp only [List.length_append, hcells, List.length_cons, hAlen, hBlen]; omega)
    (by omega) (by rw [entryBytes_length])
  rw [entryBytes_length] at hg
  have hzero := @fill_mid UInt8 (head ++ cells (leBytes 2) (A ++ start :: B) ++ gap) g
    (dataBytes as ++ dataBytes bs)
    (pageSize - ((dataBytes as).length + (e.1.length + e.2.length + (dataBytes bs).length)))
    (pageSize - ((dataBytes as).length + (e.1.length + e.2.length + (dataBytes bs).length)) +
      (e.1.length + e.2.length)) 0
    (by simp only [List.length_append, hcells, List.length_cons, hAlen, hBlen]; omega)
    (by rw [hg])
  rw [hg] at hzero
  have hslots :=
    @moveSlots_cells area (fun s => some (s + (e.1.length + e.2.length)))
        (· + (e.1.length + e.2.length)) head hhead A
    (by
      intro s hs
      rw [← hA, dataBytes_cons, List.length_append, entryBytes_length] at hs
      have := starts_bounds hs
      exact ⟨by omega, rfl, by omega⟩)
    (leBytes 2 start ++ cells (leBytes 2) B ++ gap ++ List.replicate (e.1.length + e.2.length) 0 ++
      dataBytes as ++ dataBytes bs)
  rw [hAlen, ← hi] at hslots
  -- the slots behind it move down by one
  obtain ⟨g', hg', hdown⟩ :=
    @copyWithin_down UInt8 (head ++ cells (leBytes 2) (A.map (· + (e.1.length + e.2.length))))
    (leBytes 2 start) (cells (leBytes 2) B)
    (gap ++ List.replicate (e.1.length + e.2.length) 0 ++ dataBytes as ++ dataBytes bs)
    (area.slotOffset i + 2) (area.slotOffset n) (area.slotOffset i)
    (by simp only [List.length_append, hcells, List.length_map, slotOffset]; omega)
    (by simp) (by simp only [hcells, slotOffset, hn, List.length_append, List.length_cons]; omega)
  rw [leBytes_length] at hg'
  have hlast :=
    @fill_mid UInt8 (head ++ cells (leBytes 2) (A.map (· + (e.1.length + e.2.length))) ++ cells (leBytes 2) B) g'
    (gap ++ List.replicate (e.1.length + e.2.length) 0 ++ dataBytes as ++ dataBytes bs)
    (area.slotOffset n - 2) (area.slotOffset n) 0
    (by simp only [List.length_append, hcells, List.length_map, slotOffset, hn, List.length_cons]; omega)
    (by simp only [hg', slotOffset, hn, List.length_append, List.length_cons]; omega)
  rw [hg'] at hlast
  simp only [cells_append, cells_cons, List.append_assoc] at hmove hzero hslots hdown hlast ⊢
  rw [hmove, some_bind, hzero, some_bind, hslots, some_bind, hdown, some_bind,
    minus_of_le (by simp only [slotOffset, hn, List.length_append, List.length_cons]; omega), some_bind, hlast]

theorem remove_image (h : area.Packed head (as ++ e :: bs)) (hn : n = (as ++ e :: bs).length) (hi : i = as.length) :
    area.remove (area.image head (as ++ e :: bs)) n i = some (area.image head (as ++ bs)) := by
  have hafter : area.image head (as ++ bs) = picture head _ (as ++ bs) := rfl
  rw [hafter, image_gap h]
  exact remove_picture h.tiled hn hi

/-- The bytes while the encoder runs: `as` is written, and zero bytes wait for `bs`. -/
def half (area : EntryArea) (head : Bytes) (as bs : List (Key × Bytes)) : Bytes :=
  head ++ cells (leBytes 2) (starts (pageSize - (dataBytes (as ++ bs)).length) as) ++
    List.replicate
      (bs.length * 2 + (pageSize - area.slotsStart - (as ++ bs).length * 2 - (dataBytes (as ++ bs)).length)) 0 ++
    dataBytes as ++ List.replicate (dataBytes bs).length 0

theorem putEntry_half (h : area.Packed head (as ++ e :: bs)) (hi : i = as.length) {off : Nat}
    (hoff : off = pageSize - (dataBytes (e :: bs)).length) :
    area.putEntry (half area head as (e :: bs)) i off e.1 e.2 =
      some (half area head (as ++ [e]) bs, pageSize - (dataBytes bs).length) := by
  have hpay : e.2.length = area.payloadLen := h.payloads e (by simp)
  have hfits := h.fits
  have hhead := h.head
  have hcells := cells_length (leBytes_length 2)
  have has : as ++ [e] ++ bs = as ++ e :: bs := by simp
  simp only [half, has, starts_append]
  simp only [dataBytes_append, dataBytes_cons, dataBytes_nil, List.append_nil, List.length_append,
    entryBytes_length, List.length_cons, starts] at hfits hoff ⊢
  generalize hgap : pageSize - area.slotsStart - (as.length + (bs.length + 1)) * 2 -
      ((dataBytes as).length + (e.1.length + e.2.length + (dataBytes bs).length)) = gap
  have hroom : (bs.length + 1) * 2 + gap = 2 + (bs.length * 2 + gap) := by omega
  have hat : pageSize - ((dataBytes as).length + (e.1.length + e.2.length + (dataBytes bs).length)) +
      (dataBytes as).length = off := by
    omega
  generalize hA :
    starts (pageSize - ((dataBytes as).length + (e.1.length + e.2.length + (dataBytes bs).length))) as = A
  have hAlen : A.length = as.length := by rw [← hA, starts_length]
  have hput := @putEntry_gaps area i (head ++ cells (leBytes 2) A) (List.replicate 2 0)
    (List.replicate (bs.length * 2 + gap) 0 ++ dataBytes as) (List.replicate (e.1.length + e.2.length) 0)
    (List.replicate (dataBytes bs).length 0) off e.2 e.1 hpay
    (by simp only [List.length_append, hcells, slotOffset]; omega) (by simp)
    (by simp only [List.length_append, hcells, List.length_replicate]; omega) (by simp) (by omega)
  rw [hroom, List.replicate_add 2, List.replicate_add (e.1.length + e.2.length), hat]
  simp only [cells_append, cells_cons, cells_nil, List.append_nil, List.append_assoc, entryBytes] at hput ⊢
  rw [hput]
  congr 2
  omega

theorem putEntries_half (h : area.Packed head (as ++ bs)) :
    (bs.zipIdx as.length).foldlM (fun acc e => area.putEntry acc.1 e.2 acc.2 e.1.1 e.1.2)
      (half area head as bs, pageSize - (dataBytes bs).length) = some (half area head (as ++ bs) [], pageSize) := by
  induction bs generalizing as with
  | nil => simp [pure]
  | cons e bs ih =>
    have has : as ++ [e] ++ bs = as ++ e :: bs := by simp
    have ih' := @ih (as ++ [e]) (by rwa [has])
    rw [has, List.length_append, List.length_singleton] at ih'
    rw [List.zipIdx_cons, List.foldlM_cons, putEntry_half h rfl rfl, some_bind]
    exact ih'

theorem putEntries_zero (h : area.Packed head es) {zeros : Nat}
    (hz : head.length + zeros = pageSize) :
    area.putEntries (head ++ List.replicate zeros 0) (pageSize - (dataBytes es).length) es =
      some (area.image head es, pageSize) := by
  have hfits := h.fits
  have hhead := h.head
  have hrun := @putEntries_half area head [] es h
  have hstart : half area head [] es = head ++ List.replicate zeros 0 := by
    simp only [half, starts, cells_nil, List.append_nil, dataBytes_nil, List.nil_append]
    rw [List.append_assoc, ← List.replicate_add]
    congr 2
    omega
  have hend : half area head es [] = area.image head es := by simp [half, image]
  rw [hstart, List.nil_append, hend] at hrun
  exact hrun

theorem check_picture (h : area.Tiled head gap es) (hn : n = es.length) :
    area.check (picture head gap es) n = some (.ok ()) := by
  have hroom := h.room
  have hlen := h.picture_length
  have hcut : ∀ i ∈ List.range n, area.cutShort (picture head gap es) n i = some false := by
    intro i hi
    rw [List.mem_range, hn] at hi
    obtain ⟨as, e, bs, rfl, rfl⟩ := exists_at hi
    have hpay : e.2.length = area.payloadLen := h.payloads e (by simp)
    simp only [dataBytes_append, dataBytes_cons, List.length_append, entryBytes_length] at hroom
    rw [cutShort, start_picture h rfl, some_bind, entryEnd_picture h hn rfl, some_bind, dataBytes_cons,
      List.length_append, entryBytes_length]
    have : ¬ pageSize - (dataBytes bs).length <
        pageSize - (e.1.length + e.2.length + (dataBytes bs).length) + area.payloadLen := by omega
    rw [decide_eq_false this]
    rfl
  have hany : (List.range n).anyM (area.cutShort (picture head gap es) n) = some false := anyM_eq_false.mpr hcut
  have hstart := dataStart_picture h hn
  unfold dataStart at hstart
  unfold check
  rw [if_neg (not_not_intro hlen), if_neg (by omega)]
  by_cases h0 : n = 0
  · rw [if_pos h0]
    rfl
  · rw [if_neg h0] at hstart
    rw [if_neg h0, hstart, some_bind, if_neg (by omega), hany]
    rfl

theorem check_image (h : area.Packed head es) (hn : n = es.length) :
    area.check (area.image head es) n = some (.ok ()) :=
  check_picture h.tiled hn

end EntryArea

end BPlus

end Cmudb
