import Cmudb.Lib.OrderedCodes

/-!
# Decimal digits

Numbers printed in decimal with zeros in front, read back and compared.
-/

namespace Lib

open Std

def decimals : Nat → Nat → List Char
  | 0, _ => []
  | w + 1, n => decimals w (n / 10) ++ [(n % 10).digitChar]

def zeroPadded (w n : Nat) : List Char := List.replicate (w - (Nat.toDigits 10 n).length) '0' ++ Nat.toDigits 10 n

def digitsValue (cs : List Char) : Nat := cs.foldl (fun n c => 10 * n + (c.toNat - '0'.toNat)) 0

theorem digitsValue_concat (cs : List Char) (c : Char) :
    digitsValue (cs ++ [c]) = 10 * digitsValue cs + (c.toNat - '0'.toNat) := by
  simp [digitsValue]

@[simp] theorem length_decimals (w n : Nat) : (decimals w n).length = w := by
  induction w generalizing n with
  | zero => rfl
  | succ w ih => simp [decimals, ih]

theorem decimals_zero (w : Nat) : decimals w 0 = List.replicate w '0' := by
  induction w with
  | zero => rfl
  | succ w ih => rw [decimals, Nat.zero_div, ih, List.replicate_succ']; rfl

theorem zeroPadded_eq {w n : Nat} (h : n < 10 ^ (w + 1)) : zeroPadded (w + 1) n = decimals (w + 1) n := by
  induction w generalizing n with
  | zero =>
    have hn : n < 10 := h
    rw [zeroPadded, Nat.toDigits_of_lt_base hn, decimals, decimals, Nat.mod_eq_of_lt hn]
    rfl
  | succ w ih =>
    rw [decimals, zeroPadded, Nat.toDigits_eq_if (by decide)]
    split
    · rename_i hn
      rw [Nat.div_eq_of_lt hn, decimals_zero, Nat.mod_eq_of_lt hn]
      rfl
    · have hdiv : n / 10 < 10 ^ (w + 1) := by rw [Nat.pow_succ] at h; omega
      rw [← ih hdiv, zeroPadded, List.length_append, List.length_singleton, Nat.add_sub_add_right,
        List.append_assoc]

theorem digit_of_mem_decimals {w n : Nat} {c : Char} (h : c ∈ decimals w n) : ∃ d, d < 10 ∧ c = d.digitChar := by
  induction w generalizing n with
  | zero => cases h
  | succ w ih =>
    rcases List.mem_append.mp h with h | h
    · exact ih h
    · exact ⟨n % 10, Nat.mod_lt _ (by decide), List.mem_singleton.mp h⟩

theorem digitsValue_decimals (w n : Nat) : digitsValue (decimals w n) = n % 10 ^ w := by
  induction w generalizing n with
  | zero => simp [decimals, digitsValue, Nat.mod_one]
  | succ w ih =>
    have hd : (n % 10).digitChar.toNat = 48 + n % 10 := Nat.toNat_digitChar_of_lt_ten (Nat.mod_lt _ (by decide))
    have hzero : '0'.toNat = 48 := rfl
    rw [decimals, digitsValue_concat, ih, hd, hzero, Nat.add_sub_cancel_left, Nat.pow_succ,
      Nat.mul_comm (10 ^ w), Nat.mod_mul]
    omega

theorem digitsValue_zeros (cs : List Char) (k : Nat) :
    digitsValue (cs ++ List.replicate k '0') = digitsValue cs * 10 ^ k := by
  induction k with
  | zero => simp
  | succ k ih =>
    rw [List.replicate_succ', ← List.append_assoc, digitsValue_concat, ih, Nat.pow_succ, Nat.sub_self,
      Nat.add_zero, ← Nat.mul_assoc, Nat.mul_comm 10, ← Nat.mul_assoc]
    exact Nat.mul_right_comm _ _ _

theorem decimals_flatMap {β : Type} (f : Char → List β) (w n : Nat) :
    (decimals w n).flatMap f = numeral 10 (fun d => f (Nat.digitChar d)) w n := by
  induction w generalizing n with
  | zero => rfl
  | succ w ih => simp [decimals, numeral, ih]

end Lib
