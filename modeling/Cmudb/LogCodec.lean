import Cmudb.Lib.ShiftRegister
import Cmudb.LogRecord

/-!
# The log as a code

The records of a log are read back in order, and of a log that is cut off the
records that are whole. The checksum a table computes byte by byte is that of a
register fed bit by bit, so it tells strings apart that differ in four bytes in
a row.
-/

namespace Cmudb

open Lib

/-! ## Bits of the checksum -/

def crcPolynomial : BitVec 32 := 0xEDB88320

/-- The bits of a byte in the order the reflected CRC takes them in. -/
def bitsOf (b : UInt8) : List Bool := (List.range 8).map b.toBitVec.getLsbD

def bitwiseCrc32 (bytes : Bytes) : UInt32 := ⟨~~~ ((bytes.flatMap bitsOf).foldl (feed crcPolynomial) (~~~ 0))⟩

theorem bitsOf_length (b : UInt8) : (bitsOf b).length = 8 := by simp [bitsOf]

theorem pack_bitsOf (b : UInt8) : pack 32 (bitsOf b) = b.toUInt32.toBitVec := by
  apply BitVec.eq_of_getLsbD_eq
  intro i hi
  rw [getLsbD_pack _ hi, UInt8.toBitVec_toUInt32, BitVec.getLsbD_setWidth, bitsOf, List.getD_eq_getElem?_getD]
  by_cases h : i < 8
  · simp [h, hi]
  · simp [h, BitVec.getLsbD_of_ge b.toBitVec i (by omega)]

theorem bitsOf_injective {a b : UInt8} (h : bitsOf a = bitsOf b) : a = b := by
  have hword : a.toUInt32 = b.toUInt32 := by
    rw [← UInt32.toBitVec_inj, ← pack_bitsOf, ← pack_bitsOf, h]
  exact UInt8.toUInt32_inj.mp hword

theorem flatMap_bitsOf_length (bs : Bytes) : (bs.flatMap bitsOf).length = 8 * bs.length := by
  induction bs with
  | nil => rfl
  | cons b bs ih =>
    rw [List.flatMap_cons, List.length_append, bitsOf_length, ih, List.length_cons]
    omega

theorem flatMap_bitsOf_injective : ∀ {as bs : Bytes}, as.flatMap bitsOf = bs.flatMap bitsOf → as = bs
  | [], [], _ => rfl
  | [], b :: bs, h => by
    have hlen := congrArg List.length h
    rw [flatMap_bitsOf_length, flatMap_bitsOf_length] at hlen
    cases hlen
  | a :: as, [], h => by
    have hlen := congrArg List.length h
    rw [flatMap_bitsOf_length, flatMap_bitsOf_length] at hlen
    cases hlen
  | a :: as, b :: bs, h => by
    rw [List.flatMap_cons, List.flatMap_cons] at h
    obtain ⟨hbyte, hrest⟩ := List.append_inj h (by rw [bitsOf_length, bitsOf_length])
    rw [bitsOf_injective hbyte, flatMap_bitsOf_injective hrest]

theorem crcRound_toBitVec (c : UInt32) :
    (if c &&& 1 != 0 then (0xEDB88320 : UInt32) ^^^ (c >>> 1) else c >>> 1).toBitVec =
      shift crcPolynomial c.toBitVec := by
  have hword : (c &&& 1).toBitVec = (BitVec.ofBool (c.toBitVec.getLsbD 0)).setWidth 32 := by
    rw [UInt32.toBitVec_and]
    exact BitVec.and_one_eq_setWidth_ofBool_getLsbD
  have hlow : (c &&& 1 != 0) = c.toBitVec.getLsbD 0 := by
    rw [Bool.eq_iff_iff, bne_iff_ne, ne_eq, ← UInt32.toBitVec_inj, hword]
    cases c.toBitVec.getLsbD 0 <;> decide
  rw [hlow, shift]
  split
  · rw [UInt32.toBitVec_xor, BitVec.xor_comm]
    rfl
  · rfl

theorem crcEntry_toBitVec (i : UInt32) : (crcEntry i).toBitVec = shifts crcPolynomial 8 i.toBitVec := by
  have hrun : ∀ (l : List Nat) (c : UInt32),
      (l.foldl (fun (c : UInt32) _ => if c &&& 1 != 0 then (0xEDB88320 : UInt32) ^^^ (c >>> 1)
        else c >>> 1) c).toBitVec =
      shifts crcPolynomial l.length c.toBitVec := by
    intro l
    induction l with
    | nil => intro c; rfl
    | cons a l ih =>
      intro c
      rw [List.foldl_cons, ih, crcRound_toBitVec]
      rfl
  exact hrun (List.range 8) i

theorem crcByte_toBitVec (c : UInt32) (b : UInt8) :
    (crcEntry ((c ^^^ b.toUInt32) &&& 0xff) ^^^ (c >>> 8)).toBitVec =
      (bitsOf b).foldl (feed crcPolynomial) c.toBitVec := by
  have hhigh : b.toUInt32.toBitVec >>> 8 = 0 := by
    apply BitVec.eq_of_getLsbD_eq
    intro i _
    rw [BitVec.getLsbD_ushiftRight, UInt8.toBitVec_toUInt32, BitVec.getLsbD_setWidth,
      BitVec.getLsbD_of_ge b.toBitVec _ (by omega)]
    simp
  rw [feed_pack (by rw [bitsOf_length]; decide), bitsOf_length, pack_bitsOf, shifts_low,
    BitVec.ushiftRight_xor_distrib, hhigh, UInt32.toBitVec_xor, crcEntry_toBitVec]
  simp

theorem crcBytes_toBitVec (c : UInt32) (bs : Bytes) :
    (crcBytes c bs).toBitVec = (bs.flatMap bitsOf).foldl (feed crcPolynomial) c.toBitVec := by
  induction bs generalizing c with
  | nil => rfl
  | cons b bs ih =>
    rw [List.flatMap_cons, List.foldl_append, ← crcByte_toBitVec, ← ih]
    rfl

theorem crcBytes_parts (c : UInt32) (parts : List Bytes) : parts.foldl crcBytes c = crcBytes c parts.flatten := by
  induction parts generalizing c with
  | nil => rfl
  | cons part parts ih => rw [List.foldl_cons, ih, List.flatten_cons, crcBytes_append]

theorem crc32_bitwise (parts : List Bytes) : crc32 parts = bitwiseCrc32 parts.flatten := by
  rw [crc32_eq, crcBytes_parts, ← UInt32.toBitVec_inj, UInt32.toBitVec_not, crcBytes_toBitVec]
  rfl

/-! ## Strings that differ in four bytes in a row -/

theorem bitwiseCrc32_window {a x y z : Bytes} (hlen : x.length = y.length) (hfour : x.length ≤ 4)
    (h : bitwiseCrc32 (a ++ (x ++ z)) = bitwiseCrc32 (a ++ (y ++ z))) : x = y := by
  have htop : crcPolynomial.msb = true := by decide
  have hregister := BitVec.not_inj.mp (UInt32.toBitVec_inj.mpr h)
  simp only [List.flatMap_append, List.foldl_append] at hregister
  have hbits := feed_injective htop (by rw [flatMap_bitsOf_length, flatMap_bitsOf_length, hlen])
    (by rw [flatMap_bitsOf_length]; omega) (feed_left_injective htop hregister)
  exact flatMap_bitsOf_injective hbits

theorem crc32_window {ps qs : List Bytes} {k : Nat} (hlen : ps.flatten.length = qs.flatten.length)
    (hsame : ∀ i, i < k ∨ k + 4 ≤ i → ps.flatten[i]? = qs.flatten[i]?) (h : crc32 ps = crc32 qs) :
    ps.flatten = qs.flatten := by
  rw [crc32_bitwise, crc32_bitwise] at h
  generalize ps.flatten = s at *
  generalize qs.flatten = t at *
  have hbefore : s.take k = t.take k := by
    apply List.ext_getElem?
    intro i
    by_cases hi : i < k
    · rw [List.getElem?_take_of_lt hi, List.getElem?_take_of_lt hi, hsame i (.inl hi)]
    · simp only [List.getElem?_take, if_neg hi]
  have hbehind : (s.drop k).drop 4 = (t.drop k).drop 4 := by
    apply List.ext_getElem?
    intro i
    rw [List.drop_drop, List.drop_drop, List.getElem?_drop, List.getElem?_drop, hsame _ (.inr (by omega))]
  rw [← List.take_append_drop k s, ← List.take_append_drop k t, ← List.take_append_drop 4 (s.drop k),
    ← List.take_append_drop 4 (t.drop k), hbefore, hbehind] at h ⊢
  rw [bitwiseCrc32_window (by simp [hlen]) (List.length_take_le _ _) h]

/-- A log is read back record by record, of a first part of it the records that are whole; the
checksum is the reflected CRC-32 of the whole string, and tells strings apart that differ within
four bytes in a row. -/
theorem log_record_codec :
    (∀ rs : List LogRecord, (∀ r ∈ rs, r.Fits) → ∀ offset fuel, rs.length < fuel →
      walFraming.scan fuel offset (walFraming.encAll rs) = walFraming.views offset rs ∧
      ∀ k, ∃ m ≤ rs.length, (∀ j ≤ rs.length, (walFraming.encAll (rs.take j)).length ≤ k ↔ j ≤ m) ∧
        walFraming.scan fuel offset ((walFraming.encAll rs).take k) = walFraming.views offset (rs.take m)) ∧
    (∀ parts : List Bytes, crc32 parts = bitwiseCrc32 parts.flatten) ∧
    ∀ (ps qs : List Bytes) (k : Nat), ps.flatten.length = qs.flatten.length → ps.flatten ≠ qs.flatten →
      (∀ i, i < k ∨ k + 4 ≤ i → ps.flatten[i]? = qs.flatten[i]?) → crc32 ps ≠ crc32 qs := by
  refine ⟨?_, crc32_bitwise, ?_⟩
  · intro rs hfits offset fuel hfuel
    refine ⟨?_, ?_⟩
    · exact walFraming_sound.scan_all walFraming_local hfits hfuel
    · intro k
      exact walFraming_sound.scan_take walFraming_local hfits hfuel k
  · intro ps qs k hlen hne hsame h
    exact hne (crc32_window hlen hsame h)

end Cmudb
