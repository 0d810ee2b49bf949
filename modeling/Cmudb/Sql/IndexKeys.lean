import Cmudb.BPlusPage
import Cmudb.Lib.OrderedCodes
import Cmudb.Sql.Typing

/-!
# Index keys

The key of a row is the encodings of its key columns one after another, and a
tree holds it with the record id behind it. Each encoding is an ordered code, so
the keys sort like the rows and a scan between two brackets reads the rows
between two keys.
-/

namespace Cmudb.Sql

open Lib Std

def signBit32 : Nat := 2 ^ 31

def signBit64 : Nat := 2 ^ 63

def beBytes (w n : Nat) : Bytes := numeral 256 (fun d => [UInt8.ofNat d]) w n

def nanBits : Nat := 0x7FF8000000000000

def orderPreservingF64Bits (f : F64) : Nat :=
  let bits := if f.isNan then nanBits else if f.magnitude = 0 then 0 else f.bits.toNat
  if bits &&& signBit64 = 0 then bits ||| signBit64 else 2 ^ 64 - 1 - bits

/-- Zero bytes are followed by `TEXT_ESCAPE`, and a zero and `TEXT_TERMINATOR` end the string. -/
def encodeOrderPreservingBytes (bytes : Bytes) : Bytes := escaped bytes

def Value.encodeOrderPreserving : Value → Bytes
  | boolean b => [if b then 1 else 0]
  | int i => beBytes 4 (i.toBitVec.toNat ^^^ signBit32)
  | bigint i => beBytes 8 (i.toBitVec.toNat ^^^ signBit64)
  | timestamp t => beBytes 8 (t.toBitVec.toNat ^^^ signBit64)
  | float f => beBytes 8 (orderPreservingF64Bits f)
  | text s => encodeOrderPreservingBytes s.asBytes

def maxUtf8CharLen : Nat := 4

def textKeyTerminatorLen : Nat := 2

def checked (n : Nat) : Option Nat := if n < 2 ^ 64 then some n else none

def DataType.keyWidth : DataType → Option Nat
  | text => none
  | varchar n | char n => (checked (n * maxUtf8CharLen)).bind fun bytes => checked (bytes + textKeyTerminatorLen)
  | fixed => some fixed.fixedWidth

def ridSuffixLen : Nat := 8

def ridSuffix (rid : RecordId) : Bytes := beBytes 4 rid.pageId ++ beBytes 4 rid.slotId

def ridMin : RecordId := ⟨0, 0⟩

def ridMax : RecordId := ⟨2 ^ 32 - 1, 2 ^ 32 - 1⟩

def longestTreeKey : Nat :=
  min (BPlus.longestKeyFor (BPlus.leafAreaOf BPlus.leafTombstoneCapacity)) (BPlus.longestKeyFor BPlus.internalArea)

def userKeyLen : Nat → List DataType → Option Nat
  | len, [] => some len
  | len, dtype :: dtypes => dtype.keyWidth.bind fun w => (checked (len + w)).bind fun len => userKeyLen len dtypes

/-- The key columns' types and the longest key of the tree; `none` is the panic for a column out
of range. -/
def keySchema (tableSchema : Schema) (indexedColIdxs : List Nat) : Option (List DataType × Nat) := do
  let keyCols ← indexedColIdxs.mapM tableSchema.dtypeAt
  let treeKeyLen :=
    ((userKeyLen 0 keyCols).bind fun len => checked (len + ridSuffixLen)).elim longestTreeKey fun len =>
      min len longestTreeKey
  some (keyCols, treeKeyLen)

/-! ## The code of a value -/

theorem byte_ordered : OrderedCode byteCmp (· < 256) compare fun d => [UInt8.ofNat d] := by
  refine .of_length (fun _ _ => rfl) fun a b ha hb => ?_
  have hcmp : byteCmp (UInt8.ofNat a) (UInt8.ofNat b) = compare a b := by
    simp [compareOn, Nat.mod_eq_of_lt ha, Nat.mod_eq_of_lt hb]
  rw [List.compareLex_cons_cons, List.compareLex_nil_nil, Ordering.then_eq, hcmp]

theorem be_ordered (w : Nat) : OrderedCode byteCmp (· < 256 ^ w) compare (beBytes w) :=
  numeral_ordered (by decide) byte_ordered w

@[simp] theorem length_beBytes (w n : Nat) : (beBytes w n).length = w := length_numeral (fun _ => rfl) w n

theorem xor_two_pow {n k : Nat} (h : n < 2 ^ k) : n ^^^ 2 ^ k = 2 ^ k + n := by
  apply Nat.eq_of_testBit_eq
  intro i
  rw [Nat.testBit_xor, Nat.testBit_two_pow]
  rcases Nat.lt_trichotomy i k with hi | rfl | hi
  · rw [Nat.testBit_two_pow_add_gt hi]
    simp [Nat.ne_of_gt hi]
  · rw [Nat.testBit_two_pow_add_eq]
    simp
  · have hlt : 2 ^ k + n < 2 ^ i := by
      have : 2 ^ (k + 1) ≤ 2 ^ i := Nat.pow_le_pow_right (by decide) hi
      rw [Nat.pow_succ] at this
      omega
    rw [Nat.testBit_lt_two_pow hlt, Nat.testBit_lt_two_pow (by omega)]
    simp [Nat.ne_of_lt hi]

theorem xor_top {n k : Nat} (h : n < 2 ^ (k + 1)) : n ^^^ 2 ^ k = if n < 2 ^ k then 2 ^ k + n else n - 2 ^ k := by
  rw [Nat.pow_succ] at h
  split
  · exact xor_two_pow ‹_›
  · have hrest : n - 2 ^ k < 2 ^ k := by omega
    have hn : n = (n - 2 ^ k) ^^^ 2 ^ k := by
      rw [xor_two_pow hrest]
      omega
    nth_rewrite 1 [hn]
    rw [Nat.xor_assoc, Nat.xor_self, Nat.xor_zero]

theorem signFlipped {w : Nat} (x : BitVec (w + 1)) : ((x.toNat ^^^ 2 ^ w : Nat) : Int) = x.toInt + 2 ^ w := by
  have hx := x.isLt
  rw [xor_top hx, BitVec.toInt_eq_toNat_cond]
  rw [Nat.pow_succ] at hx ⊢
  have hpow : (2 : Int) ^ w = ((2 ^ w : Nat) : Int) := by push_cast; rfl
  rw [hpow]
  split <;> split <;> omega

theorem signFlipped_lt {w : Nat} (x : BitVec (w + 1)) : x.toNat ^^^ 2 ^ w < 2 ^ (w + 1) := by
  have hx := x.isLt
  rw [xor_top hx]
  rw [Nat.pow_succ] at hx ⊢
  split <;> omega

theorem compare_signFlipped {w : Nat} (x y : BitVec (w + 1)) :
    compare x.toInt y.toInt = compare (x.toNat ^^^ 2 ^ w) (y.toNat ^^^ 2 ^ w) := by
  have hx := signFlipped x
  have hy := signFlipped y
  have hlt : x.toNat ^^^ 2 ^ w < y.toNat ^^^ 2 ^ w ↔ x.toInt < y.toInt := by omega
  have hgt : y.toNat ^^^ 2 ^ w < x.toNat ^^^ 2 ^ w ↔ y.toInt < x.toInt := by omega
  rw [Int.compare_eq_ite_lt, Nat.compare_eq_ite_lt]
  simp only [hlt, hgt]

theorem and_signBit {n : Nat} (h : n < 2 ^ 64) : n &&& signBit64 = 0 ↔ n < 2 ^ 63 := by
  constructor
  · intro hzero
    by_contra hge
    have hbit : (n &&& signBit64).testBit 63 = true := by
      rw [Nat.testBit_and, signBit64, Nat.testBit_two_pow,
        Nat.testBit_of_two_pow_le_and_two_pow_add_one_gt (by omega) h]
      rfl
    rw [hzero, Nat.zero_testBit] at hbit
    cases hbit
  · intro hlt
    apply Nat.eq_of_testBit_eq
    intro i
    rw [Nat.testBit_and, signBit64, Nat.testBit_two_pow, Nat.zero_testBit]
    by_cases hi : 63 = i
    · rw [← hi, Nat.testBit_lt_two_pow hlt]
      rfl
    · simp [hi]

theorem or_signBit {n : Nat} (h : n < 2 ^ 63) : n ||| signBit64 = 2 ^ 63 + n := by
  rw [signBit64, Nat.or_comm]
  have hor := Nat.two_pow_add_eq_or_of_lt h 1
  rw [Nat.mul_one] at hor
  exact hor.symm

theorem orderPreservingF64Bits_cases (f : F64) :
    (f.rank = 2 ^ 63 ∧ orderPreservingF64Bits f = 2 ^ 63 + nanBits) ∨
    (0 ≤ f.rank ∧ f.rank ≤ F64.infinity ∧ (orderPreservingF64Bits f : Int) = 2 ^ 63 + f.rank) ∨
    (f.rank < 0 ∧ -F64.infinity ≤ f.rank ∧ (orderPreservingF64Bits f : Int) = 2 ^ 63 - 1 + f.rank) := by
  have hbits : f.bits.toNat < 2 ^ 64 := f.bits.toNat_lt
  unfold orderPreservingF64Bits F64.rank
  by_cases hnan : f.isNan = true
  · left
    rw [if_pos hnan, if_pos hnan, if_pos ((and_signBit (by decide)).mpr (by decide)), or_signBit (by decide)]
    exact ⟨rfl, rfl⟩
  · have hmag : f.magnitude ≤ F64.infinity := by
      simp only [F64.isNan, decide_eq_true_eq] at hnan
      omega
    have hinf : F64.infinity < 2 ^ 63 := by decide
    right
    rw [if_neg hnan, if_neg hnan]
    by_cases hzero : f.magnitude = 0
    · left
      rw [if_pos hzero, if_pos ((and_signBit (by decide)).mpr (by decide)), or_signBit (by decide), hzero]
      simp
    · rw [if_neg hzero]
      by_cases hneg : f.isNegative = true
      · right
        have hsign : 2 ^ 63 ≤ f.bits.toNat := of_decide_eq_true hneg
        have hm : f.bits.toNat = 2 ^ 63 + f.magnitude := by
          rw [F64.magnitude, F64.signBit]
          omega
        rw [if_pos hneg, if_neg (by rw [and_signBit hbits]; omega)]
        omega
      · left
        have hsign : f.bits.toNat < 2 ^ 63 := Nat.lt_of_not_le fun hle => hneg (decide_eq_true hle)
        have hm : f.bits.toNat = f.magnitude := by
          rw [F64.magnitude, F64.signBit]
          omega
        rw [if_neg hneg, if_pos ((and_signBit hbits).mpr hsign), or_signBit hsign]
        omega

theorem orderPreservingF64Bits_lt (f : F64) : orderPreservingF64Bits f < 2 ^ 64 := by
  have hinf : F64.infinity < 2 ^ 63 - 1 := by decide
  have hnan : nanBits < 2 ^ 63 := by decide
  rcases orderPreservingF64Bits_cases f with h | h | h <;> omega

theorem compare_f64 (f g : F64) : f.cmp g = compare (orderPreservingF64Bits f) (orderPreservingF64Bits g) := by
  have hinf : F64.infinity < nanBits := by decide
  have hnan : nanBits < 2 ^ 63 := by decide
  have hf := orderPreservingF64Bits_cases f
  have hg := orderPreservingF64Bits_cases g
  have hlt : orderPreservingF64Bits f < orderPreservingF64Bits g ↔ f.rank < g.rank := by omega
  have hgt : orderPreservingF64Bits g < orderPreservingF64Bits f ↔ g.rank < f.rank := by omega
  rw [F64.cmp, Int.compare_eq_ite_lt, Nat.compare_eq_ite_lt]
  simp only [hlt, hgt]

def keyNumber : Value → Nat
  | .boolean b => b.toNat
  | .int i => i.toBitVec.toNat ^^^ signBit32
  | .bigint i => i.toBitVec.toNat ^^^ signBit64
  | .timestamp t => t.toBitVec.toNat ^^^ signBit64
  | .float f => orderPreservingF64Bits f
  | .text _ => 0

def HasType (t : DataType) (v : Value) : Prop := v.dataType = t.valueType

theorem fixed_ordered {t : DataType} (ht : t.isText = false) :
    OrderedCode byteCmp (HasType t) Value.cmp Value.encodeOrderPreserving := by
  refine (be_ordered t.fixedWidth).of_map keyNumber ?_ ?_ ?_
  · intro v hv
    unfold HasType at hv
    cases t <;> cases v <;> first | (cases ht; done) | (cases hv; done) | skip
    · rename_i b
      cases b <;> decide
    · exact signFlipped_lt (w := 31) _
    · exact signFlipped_lt (w := 63) _
    · exact orderPreservingF64Bits_lt _
    · exact signFlipped_lt (w := 63) _
  · intro v w hv hw
    unfold HasType at hv hw
    cases t <;> cases v
      <;> first | (cases ht; done) | (cases hv; done) | (cases w <;> first | (cases hw; done) | skip)
    · rfl
    · exact compare_signFlipped (w := 31) _ _
    · exact compare_signFlipped (w := 63) _ _
    · exact compare_f64 _ _
    · exact compare_signFlipped (w := 63) _ _
  · intro v hv
    unfold HasType at hv
    cases t <;> cases v <;> first | (cases ht; done) | (cases hv; done) | rfl | skip
    rename_i b
    cases b <;> rfl

theorem value_ordered (t : DataType) : OrderedCode byteCmp (HasType t) Value.cmp Value.encodeOrderPreserving := by
  cases ht : t.isText with
  | false => exact fixed_ordered ht
  | true =>
    refine escaped_ordered.of_map Value.chars (fun _ _ => trivial) ?_ ?_
    · intro v w hv hw
      unfold HasType at hv hw
      cases t <;> cases v
        <;> first | (cases ht; done) | (cases hv; done) | (cases w <;> first | (cases hw; done) | rfl)
    · intro v hv
      unfold HasType at hv
      cases t <;> cases v <;> first | (cases ht; done) | (cases hv; done) | rfl

end Cmudb.Sql
