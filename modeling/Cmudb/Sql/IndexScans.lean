import Cmudb.Lib.Grouping
import Cmudb.Sql.IndexKeys

/-!
# Index scans

An index files record ids in a tree, an ordered map from tree keys to record
ids. A scan asks the tree for the keys between two brackets, which are the rows
filed under the keys between the bounds, sorted by key and then by record id.
-/

namespace Cmudb.Sql

open Lib Std

inductive Bound (α : Type) where
  | included (a : α)
  | excluded (a : α)
  | unbounded
  deriving DecidableEq, Repr

def Bound.startsBefore : Bound Bytes → Bytes → Bool
  | included a, k => List.compareLex byteCmp a k != .gt
  | excluded a, k => List.compareLex byteCmp a k == .lt
  | unbounded, _ => true

def Bound.endsAfter : Bound Bytes → Bytes → Bool
  | included a, k => List.compareLex byteCmp k a != .gt
  | excluded a, k => List.compareLex byteCmp k a == .lt
  | unbounded, _ => true

abbrev Sorted (es : List (Bytes × RecordId)) : Prop :=
  es.Pairwise fun a b => List.compareLex byteCmp a.1 b.1 = .lt

/-- The trees behind a table index, as ordered maps: an insert of a key that is there fails, and a scan
yields the entries within its bounds in the order of their keys. -/
class Index (τ : Type) where
  empty : τ
  insert : τ → Bytes → RecordId → Option τ
  scan : τ → Bound Bytes → Bound Bytes → List (Bytes × RecordId)
  mem_empty : ∀ e, e ∉ scan empty .unbounded .unbounded
  duplicate : ∀ t k r, insert t k r = none ↔ ∃ r', (k, r') ∈ scan t .unbounded .unbounded
  inserted : ∀ t k r t', insert t k r = some t' →
    ∀ e, e ∈ scan t' .unbounded .unbounded ↔ e = (k, r) ∨ e ∈ scan t .unbounded .unbounded
  sorted : ∀ t start stop, Sorted (scan t start stop)
  mem_scan : ∀ t start stop e, e ∈ scan t start stop ↔
    e ∈ scan t .unbounded .unbounded ∧ start.startsBefore e.1 = true ∧ stop.endsAfter e.1 = true

structure TableIndex (τ : Type) where
  tableSchema : Schema
  indexedColIdxs : List Nat
  schema : List DataType
  treeKeyLen : Nat
  tree : τ

def entryKey (key : Bytes) (rid : RecordId) : Bytes := key ++ ridSuffix rid

namespace TableIndex

variable {τ : Type} [Index τ]

def new (tableSchema : Schema) (indexedColIdxs : List Nat) : Option (TableIndex τ) :=
  (keySchema tableSchema indexedColIdxs).map fun k => ⟨tableSchema, indexedColIdxs, k.1, k.2, Index.empty⟩

def keyValues (s : Schema) (tuple : Bytes) : List Nat → Except CatalogError (Option (List Value))
  | [] => .ok (some [])
  | i :: is => do
    match ← s.getValue tuple i with
    | some v => return (← keyValues s tuple is).map (v :: ·)
    | none => return none

variable (ix : TableIndex τ)

/-- `none` is the panic for another number of values. -/
def keyOfValues (vals : List Value) : Option Bytes :=
  if vals.length = ix.indexedColIdxs.length then some (vals.flatMap Value.encodeOrderPreserving) else none

def keyOfTuple (tuple : Bytes) : Except CatalogError (Option Bytes) := do
  return (← keyValues ix.tableSchema tuple ix.indexedColIdxs).bind ix.keyOfValues

/-- `rid` under the key. An entry that is there already stays. -/
def file (key : Bytes) (rid : RecordId) : TableIndex τ :=
  { ix with tree := (Index.insert ix.tree (entryKey key rid) rid).getD ix.tree }

def insert (tuple : Bytes) (rid : RecordId) : Except IndexError (TableIndex τ) :=
  match ix.keyOfTuple tuple with
  | .error _ => .error .catalog
  | .ok none => .ok ix
  | .ok (some key) =>
    if (entryKey key rid).length ≤ ix.treeKeyLen then .ok (ix.file key rid)
    else .error (.keyTooLong (ix.treeKeyLen - ridSuffixLen) ((entryKey key rid).length - ridSuffixLen))

/-- The record id is cut off the keys the tree yields. -/
def scanKeys (start stop : Bound Bytes) : List (Bytes × RecordId) :=
  (Index.scan ix.tree start stop).map fun e => (e.1.take (e.1.length - ridSuffixLen), e.2)

def bracket (vals : List Value) (rid : RecordId) : Option Bytes := (ix.keyOfValues vals).map (entryKey · rid)

def startBracket : Bound (List Value) → Option (Bound Bytes)
  | .included v => (ix.bracket v ridMin).map .included
  | .excluded v => (ix.bracket v ridMax).map .excluded
  | .unbounded => some .unbounded

def stopBracket : Bound (List Value) → Option (Bound Bytes)
  | .included v => (ix.bracket v ridMax).map .included
  | .excluded v => (ix.bracket v ridMin).map .excluded
  | .unbounded => some .unbounded

def scan (start stop : Bound (List Value)) : Option (List (Bytes × RecordId)) := do
  let start ← ix.startBracket start
  let stop ← ix.stopBracket stop
  return ix.scanKeys start stop

def search (vals : List Value) : Option (List RecordId) :=
  (ix.scan (.included vals) (.included vals)).map fun es => es.map Prod.snd

def entriesForKey (key : Bytes) : List RecordId :=
  (ix.scanKeys (.included (entryKey key ridMin)) (.included (entryKey key ridMax))).map Prod.snd

end TableIndex

/-! ## The code of an entry -/

def InU32 (rid : RecordId) : Prop := rid.pageId < 2 ^ 32 ∧ rid.slotId < 2 ^ 32

def ridCmp (r s : RecordId) : Ordering := (compare r.pageId s.pageId).then (compare r.slotId s.slotId)

abbrev keyCmp : List Value → List Value → Ordering := List.compareLex Value.cmp

abbrev IsKey (ts : List DataType) (v : List Value) : Prop := List.Forall₂ HasType ts v

theorem rid_ordered : OrderedCode byteCmp InU32 ridCmp ridSuffix :=
  ((be_ordered 4).append (be_ordered 4)).of_map (fun r => (r.pageId, r.slotId)) (fun _ h => h)
    (fun _ _ _ _ => rfl) fun _ _ => rfl

theorem key_ordered (ts : List DataType) :
    OrderedCode byteCmp (IsKey ts) keyCmp fun v => v.flatMap Value.encodeOrderPreserving :=
  .flatMap value_ordered ts

theorem entry_ordered (ts : List DataType) :
    OrderedCode byteCmp (fun p : List Value × RecordId => IsKey ts p.1 ∧ InU32 p.2)
      (fun p q => (keyCmp p.1 q.1).then (ridCmp p.2 q.2))
      fun p => entryKey (p.1.flatMap Value.encodeOrderPreserving) p.2 :=
  (key_ordered ts).append rid_ordered

theorem length_ridSuffix (rid : RecordId) : (ridSuffix rid).length = ridSuffixLen := by
  simp [ridSuffix, ridSuffixLen]

theorem take_entryKey (key : Bytes) (rid : RecordId) :
    (entryKey key rid).take ((entryKey key rid).length - ridSuffixLen) = key := by
  simp [entryKey, length_ridSuffix]

theorem ridCmp_lt {r s : RecordId} :
    ridCmp r s = .lt ↔ r.pageId < s.pageId ∨ (r.pageId = s.pageId ∧ r.slotId < s.slotId) := by
  rw [ridCmp, Ordering.then_eq_lt, Nat.compare_eq_lt, Nat.compare_eq_lt, Nat.compare_eq_eq]

theorem ridCmp_gt {r s : RecordId} :
    ridCmp r s = .gt ↔ s.pageId < r.pageId ∨ (r.pageId = s.pageId ∧ s.slotId < r.slotId) := by
  rw [ridCmp, Ordering.then_eq_gt, Nat.compare_eq_gt, Nat.compare_eq_gt, Nat.compare_eq_eq]

theorem ridCmp_min (rid : RecordId) : ridCmp ridMin rid ≠ .gt ∧ ridCmp rid ridMin ≠ .lt := by
  rw [Ne, Ne, ridCmp_gt, ridCmp_lt]
  simp only [ridMin]
  omega

theorem ridCmp_max {rid : RecordId} (h : InU32 rid) : ridCmp rid ridMax ≠ .gt ∧ ridCmp ridMax rid ≠ .lt := by
  obtain ⟨hp, hs⟩ := h
  rw [Ne, Ne, ridCmp_gt, ridCmp_lt]
  simp only [ridMax]
  omega

theorem ridCmp_eq {r s : RecordId} (h : ridCmp r s = .eq) : r = s := by
  obtain ⟨rp, rs⟩ := r
  obtain ⟨sp, ss⟩ := s
  rw [ridCmp, Ordering.then_eq_eq, Nat.compare_eq_eq, Nat.compare_eq_eq] at h
  rw [RecordId.mk.injEq]
  exact h

instance byteCmp_lawful : LawfulEqCmp byteCmp where
  eq_of_compare h := UInt8.toNat_inj.mp (Nat.compare_eq_eq.mp h)

/-! ## What is filed -/

abbrev keyOf (p : List Value × RecordId) : Bytes := entryKey (p.1.flatMap Value.encodeOrderPreserving) p.2

section
variable {ts : List DataType} {p q : List Value × RecordId}

theorem compare_keyOf (hp : IsKey ts p.1 ∧ InU32 p.2) (hq : IsKey ts q.1 ∧ InU32 q.2) :
    List.compareLex byteCmp (keyOf p) (keyOf q) = (keyCmp p.1 q.1).then (ridCmp p.2 q.2) :=
  (entry_ordered ts).compare hp hq

theorem rid_of_keyOf (hp : IsKey ts p.1 ∧ InU32 p.2) (hq : IsKey ts q.1 ∧ InU32 q.2) (h : keyOf p = keyOf q) :
    p.2 = q.2 := by
  have hcmp := compare_keyOf hp hq
  rw [h, @ReflCmp.compare_self _ (List.compareLex byteCmp) _ _] at hcmp
  exact ridCmp_eq (Ordering.then_eq_eq.mp hcmp.symm).2

end

section
variable {τ : Type} [Index τ]

def Files (filed : List (List Value × RecordId)) (t : τ) : Prop :=
  ∀ e, e ∈ Index.scan t .unbounded .unbounded ↔ ∃ p ∈ filed, e = (keyOf p, p.2)

namespace TableIndex

def fileAll (ix : TableIndex τ) (filed : List (List Value × RecordId)) : TableIndex τ :=
  filed.foldr (fun p ix => ix.file (p.1.flatMap Value.encodeOrderPreserving) p.2) ix

theorem fileAll_schema (ix : TableIndex τ) (filed : List (List Value × RecordId)) :
    (ix.fileAll filed).indexedColIdxs = ix.indexedColIdxs ∧ (ix.fileAll filed).schema = ix.schema := by
  induction filed with
  | nil => exact ⟨rfl, rfl⟩
  | cons p filed ih => exact ih

variable {ix : TableIndex τ} {ts : List DataType} {filed : List (List Value × RecordId)}

theorem file_files (hf : Files filed ix.tree) (hfiled : ∀ p ∈ filed, IsKey ts p.1 ∧ InU32 p.2)
    {p : List Value × RecordId} (hp : IsKey ts p.1 ∧ InU32 p.2) :
    Files (p :: filed) (ix.file (p.1.flatMap Value.encodeOrderPreserving) p.2).tree := by
  intro e
  have hfirst : (∃ q ∈ p :: filed, e = (keyOf q, q.2)) ↔ e = (keyOf p, p.2) ∨
      ∃ q ∈ filed, e = (keyOf q, q.2) := by simp
  rw [hfirst]
  show e ∈ Index.scan ((Index.insert ix.tree (keyOf p) p.2).getD ix.tree) _ _ ↔ _
  cases ht : Index.insert ix.tree (keyOf p) p.2 with
  | some t => rw [Option.getD_some, Index.inserted _ _ _ _ ht, hf]
  | none =>
    -- the key is there, and so with the same record id
    obtain ⟨r, hr⟩ := (Index.duplicate _ _ _).mp ht
    obtain ⟨q, hq, heq⟩ := (hf _).mp hr
    obtain ⟨hkey, -⟩ := Prod.mk.inj heq
    rw [Option.getD_none, hf, iff_or_self]
    rintro rfl
    exact ⟨q, hq, Prod.ext hkey (rid_of_keyOf hp (hfiled q hq) hkey)⟩

theorem fileAll_files (hempty : ix.tree = Index.empty) (hfiled : ∀ p ∈ filed, IsKey ts p.1 ∧ InU32 p.2) :
    Files filed (ix.fileAll filed).tree := by
  induction filed with
  | nil =>
    intro e
    have hnil : (ix.fileAll []).tree = Index.empty := hempty
    rw [hnil]
    simpa using Index.mem_empty e
  | cons p filed ih =>
    have hrest : ∀ q ∈ filed, IsKey ts q.1 ∧ InU32 q.2 := fun q hq => hfiled q (List.mem_cons_of_mem _ hq)
    exact file_files (ih hrest) hrest (hfiled p (List.mem_cons_self ..))

end TableIndex

end

/-! ## Brackets -/

def Bound.below : Bound (List Value) → List Value → Prop
  | included s, v => keyCmp s v ≠ .gt
  | excluded s, v => keyCmp s v = .lt
  | unbounded, _ => True

def Bound.above : Bound (List Value) → List Value → Prop
  | included s, v => keyCmp v s ≠ .gt
  | excluded s, v => keyCmp v s = .lt
  | unbounded, _ => True

def Bound.All {α : Type} (P : α → Prop) : Bound α → Prop
  | included a | excluded a => P a
  | unbounded => True

theorem inU32_min : InU32 ridMin := ⟨by decide, by decide⟩

theorem inU32_max : InU32 ridMax := ⟨by decide, by decide⟩

namespace TableIndex

variable {τ : Type} {ix : TableIndex τ} {ts : List DataType} {p : List Value × RecordId}

theorem bracket_eq (hlen : ts.length = ix.indexedColIdxs.length) {v : List Value} (hv : IsKey ts v)
    (rid : RecordId) :
    ix.bracket v rid = some (keyOf (v, rid)) := by
  rw [bracket, keyOfValues, if_pos (hv.length_eq.symm.trans hlen)]
  rfl

theorem startBracket_eq (hlen : ts.length = ix.indexedColIdxs.length) {b : Bound (List Value)}
    (hb : b.All (IsKey ts)) :
    ∃ b', ix.startBracket b = some b' ∧ ∀ p : List Value × RecordId, IsKey ts p.1 ∧ InU32 p.2 →
    (b'.startsBefore (keyOf p) = true ↔ b.below p.1) := by
  cases b with
  | included s =>
    refine ⟨.included (keyOf (s, ridMin)), by rw [startBracket, bracket_eq hlen hb]; rfl, fun p hp => ?_⟩
    have hmin := (ridCmp_min p.2).1
    rw [Bound.startsBefore, compare_keyOf (p := (s, ridMin)) ⟨hb, inU32_min⟩ hp, bne_iff_ne, Bound.below, Ne,
      Ordering.then_eq_gt]
    tauto
  | excluded s =>
    refine ⟨.excluded (keyOf (s, ridMax)), by rw [startBracket, bracket_eq hlen hb]; rfl, fun p hp => ?_⟩
    have hmax := (ridCmp_max hp.2).2
    rw [Bound.startsBefore, compare_keyOf (p := (s, ridMax)) ⟨hb, inU32_max⟩ hp, beq_iff_eq, Bound.below,
      Ordering.then_eq_lt]
    tauto
  | unbounded => exact ⟨.unbounded, rfl, fun p _ => by simp [Bound.startsBefore, Bound.below]⟩

theorem stopBracket_eq (hlen : ts.length = ix.indexedColIdxs.length) {b : Bound (List Value)}
    (hb : b.All (IsKey ts)) :
    ∃ b', ix.stopBracket b = some b' ∧ ∀ p : List Value × RecordId, IsKey ts p.1 ∧ InU32 p.2 →
    (b'.endsAfter (keyOf p) = true ↔ b.above p.1) := by
  cases b with
  | included s =>
    refine ⟨.included (keyOf (s, ridMax)), by rw [stopBracket, bracket_eq hlen hb]; rfl, fun p hp => ?_⟩
    have hmax := (ridCmp_max hp.2).1
    rw [Bound.endsAfter, compare_keyOf (q := (s, ridMax)) hp ⟨hb, inU32_max⟩, bne_iff_ne, Bound.above, Ne,
      Ordering.then_eq_gt]
    tauto
  | excluded s =>
    refine ⟨.excluded (keyOf (s, ridMin)), by rw [stopBracket, bracket_eq hlen hb]; rfl, fun p hp => ?_⟩
    have hmin := (ridCmp_min p.2).2
    rw [Bound.endsAfter, compare_keyOf (q := (s, ridMin)) hp ⟨hb, inU32_min⟩, beq_iff_eq, Bound.above,
      Ordering.then_eq_lt]
    tauto
  | unbounded => exact ⟨.unbounded, rfl, fun p _ => by simp [Bound.endsAfter, Bound.above]⟩

end TableIndex

/-- `out` is what is filed within the bounds, by key and then by record id. -/
structure Scanned (ts : List DataType) (filed : List (List Value × RecordId)) (start stop : Bound (List Value))
    (out : List (Bytes × RecordId)) : Prop where
  mem : ∀ k r, (k, r) ∈ out ↔ ∃ v, (v, r) ∈ filed ∧ k = v.flatMap Value.encodeOrderPreserving ∧
    start.below v ∧ stop.above v
  order : out.Pairwise fun a b => ∀ v w, IsKey ts v → IsKey ts w → a.1 = v.flatMap Value.encodeOrderPreserving →
    b.1 = w.flatMap Value.encodeOrderPreserving → (keyCmp v w).then (ridCmp a.2 b.2) = .lt

theorem scanKeys_scanned {τ : Type} [Index τ] {ix : TableIndex τ} {ts : List DataType}
    {filed : List (List Value × RecordId)} {start stop : Bound (List Value)} {b b' : Bound Bytes}
    (hfiled : ∀ p ∈ filed, IsKey ts p.1 ∧ InU32 p.2) (hf : Files filed ix.tree)
    (hb : ∀ p : List Value × RecordId, IsKey ts p.1 ∧ InU32 p.2 →
      (b.startsBefore (keyOf p) = true ↔ start.below p.1))
    (hb' : ∀ p : List Value × RecordId, IsKey ts p.1 ∧ InU32 p.2 →
      (b'.endsAfter (keyOf p) = true ↔ stop.above p.1)) :
    Scanned ts filed start stop (ix.scanKeys b b') := by
  constructor
  · intro k r
    simp only [TableIndex.scanKeys, List.mem_map, Index.mem_scan ix.tree b b', hf _]
    constructor
    · rintro ⟨_, ⟨⟨p, hp, rfl⟩, hstart, hstop⟩, heq⟩
      rw [take_entryKey, Prod.mk.injEq] at heq
      obtain ⟨rfl, rfl⟩ := heq
      exact ⟨p.1, hp, rfl, (hb p (hfiled p hp)).mp hstart, (hb' p (hfiled p hp)).mp hstop⟩
    · rintro ⟨v, hv, rfl, hbelow, habove⟩
      refine ⟨_, ⟨⟨(v, r), hv, rfl⟩, (hb _ (hfiled _ hv)).mpr hbelow, (hb' _ (hfiled _ hv)).mpr habove⟩, ?_⟩
      rw [take_entryKey]
  · refine List.pairwise_map.mpr (List.Pairwise.imp_of_mem ?_ (Index.sorted ix.tree b b'))
    intro x y hx hy hlt v w hv hw hxv hyw
    obtain ⟨p, hp, rfl⟩ := (hf x).mp ((Index.mem_scan ..).mp hx).1
    obtain ⟨q, hq, rfl⟩ := (hf y).mp ((Index.mem_scan ..).mp hy).1
    rw [take_entryKey] at hxv hyw
    dsimp only at hxv hyw
    rw [← compare_keyOf (p := (v, p.2)) (q := (w, q.2)) ⟨hv, (hfiled p hp).2⟩ ⟨hw, (hfiled q hq).2⟩]
    rw [keyOf, keyOf, hxv, hyw] at hlt
    exact hlt

/-! ## The length of keys -/

theorem utf8EncodeChar_ne_zero {c : Char} (hc : c.val.toNat ≠ 0) : ∀ b ∈ String.utf8EncodeChar c, b ≠ 0 := by
  have hbyte : ∀ n, 0 < n → n < 256 → UInt8.ofNat n ≠ 0 := by
    intro n h0 h heq
    have hn := congrArg UInt8.toNat heq
    rw [UInt8.toNat_ofNat_of_lt' h] at hn
    simp at hn
    omega
  obtain ⟨v, hv⟩ : ∃ v, v = c.val.toNat := ⟨_, rfl⟩
  have hchar : String.utf8EncodeChar c = if v ≤ 0x7f then [UInt8.ofNat v]
      else if v ≤ 0x7ff then [UInt8.ofNat (v / 64 % 0x20 + 0xc0), UInt8.ofNat (v % 0x40 + 0x80)]
      else if v ≤ 0xffff then [UInt8.ofNat (v / 4096 % 0x10 + 0xe0), UInt8.ofNat (v / 64 % 0x40 + 0x80),
        UInt8.ofNat (v % 0x40 + 0x80)]
      else [UInt8.ofNat (v / 262144 % 0x08 + 0xf0), UInt8.ofNat (v / 4096 % 0x40 + 0x80),
        UInt8.ofNat (v / 64 % 0x40 + 0x80), UInt8.ofNat (v % 0x40 + 0x80)] := by
    rw [hv]
    rfl
  rw [hchar]
  intro b hb
  split at hb
  · rw [List.mem_singleton.mp hb]
    exact hbyte v (by omega) (by omega)
  · -- each byte of a longer character has its top bit set
    obtain ⟨n, hn, rfl⟩ : ∃ n, (0 < n ∧ n < 256) ∧ b = UInt8.ofNat n := by
      split at hb
      · rcases List.mem_cons.mp hb with rfl | hb
        · exact ⟨_, by omega, rfl⟩
        · exact ⟨_, by omega, List.mem_singleton.mp hb⟩
      · split at hb
        · rcases List.mem_cons.mp hb with rfl | hb
          · exact ⟨_, by omega, rfl⟩
          · rcases List.mem_cons.mp hb with rfl | hb
            · exact ⟨_, by omega, rfl⟩
            · exact ⟨_, by omega, List.mem_singleton.mp hb⟩
        · rcases List.mem_cons.mp hb with rfl | hb
          · exact ⟨_, by omega, rfl⟩
          · rcases List.mem_cons.mp hb with rfl | hb
            · exact ⟨_, by omega, rfl⟩
            · rcases List.mem_cons.mp hb with rfl | hb
              · exact ⟨_, by omega, rfl⟩
              · exact ⟨_, by omega, List.mem_singleton.mp hb⟩
    exact hbyte n hn.1 hn.2

theorem escaped_char_le (c : Char) :
    ((String.utf8EncodeChar c).flatMap fun b => if b = 0 then [0, 255] else [b]).length ≤ maxUtf8CharLen := by
  by_cases hc : c.val.toNat = 0
  · have hzero : String.utf8EncodeChar c = [0] := by
      rw [show c = Char.ofNat 0 from Char.ext (UInt32.toNat_inj.mp hc)]
      rfl
    rw [hzero]
    decide
  · have hsame : ((String.utf8EncodeChar c).flatMap fun b => if b = 0 then [0, 255] else [b]) =
        (String.utf8EncodeChar c).flatMap fun b => [b] := by
      apply List.flatMap_congr
      intro b hb
      rw [if_neg (utf8EncodeChar_ne_zero hc b hb)]
    rw [hsame, List.flatMap_singleton', String.length_utf8EncodeChar]
    exact c.utf8Size_le_four

theorem length_escaped_le (s : Text) :
    (escaped s.asBytes).length ≤ s.length * maxUtf8CharLen + textKeyTerminatorLen := by
  have hchars : (s.asBytes.flatMap fun b => if b = 0 then [0, 255] else [b]).length ≤
      s.length * maxUtf8CharLen := by
    induction s with
    | nil => exact Nat.zero_le _
    | cons c s ih =>
      have hc := escaped_char_le c
      rw [Text.asBytes, List.flatMap_cons, List.flatMap_append, List.length_append, List.length_cons, Nat.add_mul,
        Nat.one_mul, Nat.add_comm]
      exact Nat.add_le_add ih hc
  rw [escaped, List.length_append]
  exact Nat.add_le_add_right hchars 2

theorem checked_some {n m : Nat} (h : checked n = some m) : m = n := by
  unfold checked at h
  split at h <;> cases h
  rfl

abbrev Widths (ts : List DataType) (ws : List Nat) : Prop := List.Forall₂ (fun t w => t.keyWidth = some w) ts ws

theorem userKeyLen_eq {ts : List DataType} {ws : List Nat} (h : Widths ts ws) {len : Nat}
    (hfit : len + ws.sum < 2 ^ 64) : userKeyLen len ts = some (len + ws.sum) := by
  induction h generalizing len with
  | nil => rfl
  | cons hw _ ih =>
    rw [List.sum_cons] at hfit ⊢
    rw [userKeyLen, hw, Option.bind_some, checked, if_pos (by omega), Option.bind_some, ih (by omega),
      Nat.add_assoc]

section
variable [FloatUnit]

theorem fits_chars {n : Nat} {v : Value} (h : Fits (.varchar n) v ∨ Fits (.char n) v) :
    ∃ s, v = .text s ∧ s.length ≤ n := by
  have hfit : ∀ {s t : Text}, fitChars s n = .ok (.text t) → t.length ≤ n := by
    intro s t hs
    unfold fitChars at hs
    split at hs
    · cases hs
      assumption
    · cases hs
  rcases h with h | h <;> cases v <;> first | cases h | exact ⟨_, rfl, hfit h⟩

theorem length_of_fits {t : DataType} {v : Value} {w : Nat} (h : Fits t v) (hw : t.keyWidth = some w) :
    v.encodeOrderPreserving.length ≤ w := by
  have htext : ∀ n, (checked (n * maxUtf8CharLen)).bind (fun bytes =>
      checked (bytes + textKeyTerminatorLen)) = some w →
      (∃ s, v = .text s ∧ s.length ≤ n) → v.encodeOrderPreserving.length ≤ w := by
    rintro n hn ⟨s, rfl, hs⟩
    obtain ⟨bytes, hbytes, hsum⟩ := Option.bind_eq_some_iff.mp hn
    rw [checked_some hsum, checked_some hbytes]
    exact (length_escaped_le s).trans (Nat.add_le_add_right (Nat.mul_le_mul_right _ hs) _)
  have hdata := fits_dataType h
  cases t with
  | text => cases hw
  | varchar n => exact htext n hw (fits_chars (.inl h))
  | char n => exact htext n hw (fits_chars (.inr h))
  | _ =>
    cases hw
    cases v <;> first | (cases hdata; done) | simp [Value.encodeOrderPreserving, DataType.fixedWidth]

theorem keyValues_fits {s : Schema} {values : List (Option Value)} {tuple : Bytes}
    (h : s.encodeTuple values = .ok tuple) {cols : List Nat} {ts : List DataType}
    (hts : List.Forall₂ (fun i t => s.dtypeAt i = some t) cols ts) {vals : List Value}
    (hv : TableIndex.keyValues s tuple cols = .ok (some vals)) :
    List.Forall₂ Fits ts vals := by
  induction hts generalizing vals with
  | nil =>
    cases hv
    exact .nil
  | cons ht _ ih =>
    unfold TableIndex.keyValues at hv
    obtain ⟨x, hx, hv⟩ := bind_eq_ok hv
    cases x with
    | none => cases hv
    | some x =>
      obtain ⟨rest, hrest, hv⟩ := bind_eq_ok hv
      cases rest with
      | none => cases hv
      | some rest =>
        cases hv
        obtain ⟨t', ht', hfit⟩ := Schema.getValue_fits h ht hx x rfl
        cases ht'
        exact .cons hfit (ih hrest)

theorem length_key_le {ts : List DataType} {vals : List Value} {ws : List Nat} (h : List.Forall₂ Fits ts vals)
    (hw : Widths ts ws) :
    (vals.flatMap Value.encodeOrderPreserving).length ≤ ws.sum := by
  induction h generalizing ws with
  | nil =>
    cases hw
    exact Nat.le_refl _
  | cons hfit _ ih =>
    obtain ⟨w, ws, hfirst, hws, rfl⟩ := List.forall₂_cons_left_iff.mp hw
    rw [List.flatMap_cons, List.length_append, List.sum_cons]
    exact Nat.add_le_add (length_of_fits hfit hfirst) (ih hws)

end

theorem new_eq {τ : Type} [Index τ] {s : Schema} {cols : List Nat} {ix : TableIndex τ}
    (h : TableIndex.new s cols = some ix) : ix.tableSchema = s ∧ ix.indexedColIdxs = cols ∧
      List.Forall₂ (fun i t => s.dtypeAt i = some t) cols ix.schema ∧ ix.tree = Index.empty ∧
      ix.treeKeyLen = ((userKeyLen 0 ix.schema).bind fun len => checked (len + ridSuffixLen)).elim longestTreeKey
        fun len => min len longestTreeKey := by
  unfold TableIndex.new keySchema at h
  obtain ⟨k, hk, rfl⟩ := Option.map_eq_some_iff.mp h
  obtain ⟨ts, hts, hk⟩ := Option.bind_eq_some_iff.mp hk
  cases hk
  exact ⟨rfl, rfl, Lib.mapM_eq_some.mp hts, rfl, rfl⟩

section

variable [FloatUnit] {τ : Type} [Index τ] {s : Schema} {cols : List Nat} {ix : TableIndex τ}
  (h : TableIndex.new s cols = some ix) {ws : List Nat} (hws : ix.schema.mapM DataType.keyWidth = some ws)
  (hfit : ws.sum + ridSuffixLen ≤ longestTreeKey) {values : List (Option Value)} {tuple : Bytes}
  (henc : s.encodeTuple values = .ok tuple)

include h hws hfit henc

theorem entryKey_fits {key : Bytes} (hkey : ix.keyOfTuple tuple = .ok (some key)) (rid : RecordId) :
    (entryKey key rid).length ≤ ix.treeKeyLen := by
  obtain ⟨hs, hcols, hts, -, hlong⟩ := new_eq h
  unfold TableIndex.keyOfTuple at hkey
  obtain ⟨vals, hvals, hkey⟩ := bind_eq_ok hkey
  cases vals with
  | none => cases hkey
  | some vals =>
    have hkey : ix.keyOfValues vals = some key := Except.ok.inj hkey
    unfold TableIndex.keyOfValues at hkey
    split at hkey
    · cases hkey
      rw [hs, hcols] at hvals
      have hws := Lib.mapM_eq_some.mp hws
      have hle := length_key_le (keyValues_fits henc hts hvals) hws
      have hmax : longestTreeKey < 2 ^ 63 := by decide
      rw [hlong, userKeyLen_eq hws (by omega), Option.bind_some, Nat.zero_add, checked, if_pos (by omega),
        Option.elim_some, Nat.min_eq_left hfit, entryKey, List.length_append, length_ridSuffix]
      exact Nat.add_le_add_right hle _
    · cases hkey

/-- A row whose key columns are bounded is never refused for the length of its key. -/
theorem insert_ne_keyTooLong (rid : RecordId) (limit len : Nat) :
    ix.insert tuple rid ≠ .error (.keyTooLong limit len) := by
  intro hins
  unfold TableIndex.insert at hins
  split at hins
  · cases hins
  · cases hins
  · rename_i key hkey
    rw [if_pos (entryKey_fits h hws hfit henc hkey rid)] at hins
    cases hins

end

/-- Keys sort like the rows they are made of, an index reads what is filed between two keys, and
keys of bounded columns fit the tree. -/
theorem index_keys_order_like_rows [FloatUnit] {τ : Type} [Index τ] {s : Schema} {cols : List Nat}
    {ix : TableIndex τ} (h : TableIndex.new s cols = some ix) :
    (∀ ts v w, IsKey ts v → IsKey ts w →
      List.compareLex byteCmp (v.flatMap Value.encodeOrderPreserving)
        (w.flatMap Value.encodeOrderPreserving) = keyCmp v w ∧
      (v.flatMap Value.encodeOrderPreserving = w.flatMap Value.encodeOrderPreserving ↔ keyCmp v w = .eq) ∧
      (v.flatMap Value.encodeOrderPreserving <+: w.flatMap Value.encodeOrderPreserving →
        v.flatMap Value.encodeOrderPreserving = w.flatMap Value.encodeOrderPreserving)) ∧
    (∀ filed : List (List Value × RecordId), (∀ p ∈ filed, IsKey ix.schema p.1 ∧ InU32 p.2) →
      (∀ start stop : Bound (List Value), start.All (IsKey ix.schema) → stop.All (IsKey ix.schema) →
        ∃ out, (ix.fileAll filed).scan start stop = some out ∧ Scanned ix.schema filed start stop out) ∧
      (∀ v, IsKey ix.schema v → ∃ out, (ix.fileAll filed).search v = some (out.map Prod.snd) ∧
        (ix.fileAll filed).entriesForKey (v.flatMap Value.encodeOrderPreserving) = out.map Prod.snd ∧
        Scanned ix.schema filed (.included v) (.included v) out)) ∧
    (∀ ws, ix.schema.mapM DataType.keyWidth = some ws → ws.sum + ridSuffixLen ≤ longestTreeKey →
      ∀ values tuple, s.encodeTuple values = .ok tuple →
      ∀ key, ix.keyOfTuple tuple = .ok (some key) → ∀ rid, (entryKey key rid).length ≤ ix.treeKeyLen) := by
  obtain ⟨-, hcols, hts, hempty, -⟩ := new_eq h
  refine ⟨fun ts v w hv hw => ⟨(key_ordered ts).compare hv hw, ?_, ?_⟩, fun filed hfiled => ?_,
    fun ws hws hfit values tuple henc key hkey rid => ?_⟩
  · rw [← (key_ordered ts).compare hv hw]
    exact ⟨fun heq => by rw [heq, @ReflCmp.compare_self _ (List.compareLex byteCmp) _ _],
      fun heq => LawfulEqCmp.eq_of_compare heq⟩
  · rintro ⟨more, hmore⟩
    cases more with
    | nil => rw [← hmore, List.append_nil]
    | cons b more => exact ((key_ordered ts).not_continued hv hw hmore.symm).elim
  · have hf := TableIndex.fileAll_files hempty hfiled
    have hlen : ix.schema.length = (ix.fileAll filed).indexedColIdxs.length := by
      rw [(TableIndex.fileAll_schema ix filed).1, hcols]
      exact hts.length_eq.symm
    have hscan : ∀ start stop : Bound (List Value), start.All (IsKey ix.schema) → stop.All (IsKey ix.schema) →
        ∃ b b', (ix.fileAll filed).startBracket start = some b ∧ (ix.fileAll filed).stopBracket stop = some b' ∧
          Scanned ix.schema filed start stop ((ix.fileAll filed).scanKeys b b') := by
      intro start stop hstart hstop
      obtain ⟨b, hb, hbelow⟩ := TableIndex.startBracket_eq hlen hstart
      obtain ⟨b', hb', habove⟩ := TableIndex.stopBracket_eq hlen hstop
      exact ⟨b, b', hb, hb', scanKeys_scanned hfiled hf hbelow habove⟩
    refine ⟨fun start stop hstart hstop => ?_, fun v hv => ?_⟩
    · obtain ⟨b, b', hb, hb', hsc⟩ := hscan start stop hstart hstop
      exact ⟨_, by rw [TableIndex.scan, hb, hb']; rfl, hsc⟩
    · obtain ⟨b, b', hb, hb', hsc⟩ := hscan (.included v) (.included v) hv hv
      have hscanned : (ix.fileAll filed).search v = some (((ix.fileAll filed).scanKeys b b').map Prod.snd) := by
        rw [TableIndex.search, TableIndex.scan, hb, hb']
        rfl
      rw [TableIndex.startBracket, TableIndex.bracket_eq hlen hv] at hb
      rw [TableIndex.stopBracket, TableIndex.bracket_eq hlen hv] at hb'
      cases hb
      cases hb'
      exact ⟨_, hscanned, rfl, hsc⟩
  · exact entryKey_fits h hws hfit henc hkey rid

/-! ## Sorted lists as trees -/

def insertEntry (key : Bytes) (rid : RecordId) : List (Bytes × RecordId) → List (Bytes × RecordId)
  | [] => [(key, rid)]
  | e :: es => if List.compareLex byteCmp key e.1 = .lt then (key, rid) :: e :: es else e :: insertEntry key rid es

theorem mem_insertEntry {k : Bytes} {r : RecordId} {es : List (Bytes × RecordId)} {e : Bytes × RecordId} :
    e ∈ insertEntry k r es ↔ e = (k, r) ∨ e ∈ es := by
  induction es with
  | nil => simp [insertEntry]
  | cons x es ih =>
    rw [insertEntry]
    split
    · simp
    · rw [List.mem_cons, ih, List.mem_cons]
      tauto

theorem sorted_insertEntry {k : Bytes} {r : RecordId} {es : List (Bytes × RecordId)} (hs : Sorted es)
    (hnew : ∀ e ∈ es, e.1 ≠ k) : Sorted (insertEntry k r es) := by
  induction es with
  | nil => exact List.pairwise_singleton _ _
  | cons e es ih =>
    obtain ⟨hfirst, hrest⟩ := List.pairwise_cons.mp hs
    rw [insertEntry]
    split
    · rename_i hlt
      refine List.pairwise_cons.mpr ⟨fun x hx => ?_, hs⟩
      rcases List.mem_cons.mp hx with rfl | hx
      · exact hlt
      · exact TransCmp.lt_trans hlt (hfirst x hx)
    · rename_i hlt
      refine List.pairwise_cons.mpr ⟨fun x hx => ?_, ih hrest fun x hx => hnew x (List.mem_cons_of_mem _ hx)⟩
      rcases mem_insertEntry.mp hx with rfl | hx
      · rw [@OrientedCmp.eq_swap _ (List.compareLex byteCmp) _]
        cases hc : List.compareLex byteCmp k e.1 with
        | lt => exact absurd hc hlt
        | eq => exact absurd (LawfulEqCmp.eq_of_compare hc).symm (hnew e (List.mem_cons_self ..))
        | gt => rfl
      · exact hfirst x hx

abbrev SortedEntries : Type := { es : List (Bytes × RecordId) // Sorted es }

instance : Index SortedEntries where
  empty := ⟨[], List.Pairwise.nil⟩
  insert t k r :=
    if h : ∀ e ∈ t.val, e.1 ≠ k then some ⟨insertEntry k r t.val, sorted_insertEntry t.property h⟩ else none
  scan t start stop := t.val.filter fun e => start.startsBefore e.1 && stop.endsAfter e.1
  mem_empty e := List.not_mem_nil
  duplicate t k r := by
    simp [Bound.startsBefore, Bound.endsAfter]
  inserted t k r t' h e := by
    split at h
    · cases h
      simp [Bound.startsBefore, Bound.endsAfter, mem_insertEntry]
    · cases h
  sorted t start stop := t.property.filter _
  mem_scan t start stop e := by
    simp [Bound.startsBefore, Bound.endsAfter]

/-- One text goes on with a zero byte where another ends, and two rows have the same key. -/
def pairsFiled : List (List Value × RecordId) :=
  [([.text ['b'], .int 1], ⟨1, 0⟩), ([.text ['a', '\x00'], .int (-3)], ⟨2, 0⟩), ([.text ['a'], .int 2], ⟨1, 1⟩),
    ([.text ['a'], .int (-1)], ⟨1, 2⟩), ([.text ['a'], .int 2], ⟨0, 9⟩)]

def pairsIndex : TableIndex SortedEntries :=
  ⟨⟨[(.text, "a"), (.int, "b")]⟩, [0, 1], [.text, .int], longestTreeKey, Index.empty⟩

theorem index_keys_order_like_rows_pairs :
    TableIndex.new ⟨[(.text, "a"), (.int, "b")]⟩ [0, 1] = some pairsIndex ∧
    ∃ out, (pairsIndex.fileAll pairsFiled).scan (.excluded [.text ['a'], .int (-1)])
      (.excluded [.text ['b'], .int 1]) =
        some out ∧ out.map Prod.snd = [⟨0, 9⟩, ⟨1, 1⟩, ⟨2, 0⟩] ∧
      Scanned [.text, .int] pairsFiled (.excluded [.text ['a'], .int (-1)])
        (.excluded [.text ['b'], .int 1]) out := by
  have hkey : ∀ (s : Text) (i : Int32), IsKey [.text, .int] [.text s, .int i] :=
    fun s i => .cons rfl (.cons rfl .nil)
  have hnew : TableIndex.new ⟨[(.text, "a"), (.int, "b")]⟩ [0, 1] = some pairsIndex := by
    have hschema : keySchema ⟨[(.text, "a"), (.int, "b")]⟩ [0, 1] = some ([.text, .int], longestTreeKey) := by
      decide +kernel
    rw [TableIndex.new, hschema]
    rfl
  have hrun : ((pairsIndex.fileAll pairsFiled).scan (.excluded [.text ['a'], .int (-1)])
      (.excluded [.text ['b'], .int 1])).map (fun es => es.map Prod.snd) = some [⟨0, 9⟩, ⟨1, 1⟩, ⟨2, 0⟩] := by
    decide +kernel
  obtain ⟨-, hscan, -⟩ := @index_keys_order_like_rows FloatUnit.idle _ _ _ _ _ hnew
  obtain ⟨hscan, -⟩ := hscan pairsFiled (by
    simp only [pairsFiled, List.forall_mem_cons]
    simp [hkey, InU32, pairsIndex])
  obtain ⟨out, hout, hscanned⟩ := hscan (.excluded [.text ['a'], .int (-1)]) (.excluded [.text ['b'], .int 1])
    (hkey ['a'] (-1)) (hkey ['b'] 1)
  rw [hout] at hrun
  exact ⟨hnew, out, hout, Option.some.inj hrun, hscanned⟩

end Cmudb.Sql
