import Mathlib.Algebra.Ring.Nat
import Mathlib.Order.Monotone.Basic
import Mathlib.Tactic.Common

/-!
# Doubles and integers

The bits of a finite double that is not negative, as a number: eleven bits of
exponent over 52 of fraction. They are ordered like what they stand for, and an
integer is rounded to the nearest of them, of two as near to the even one.
-/

namespace Lib.Double

/-- What the bits stand for, in units of the smallest double, which is 2^-1074. -/
def units (m : Nat) : Nat := if m < 2 ^ 52 then m else (2 ^ 52 + m % 2 ^ 52) * 2 ^ (m / 2 ^ 52 - 1)

@[irreducible] def one : Nat := 2 ^ 1074

theorem one_pos : 0 < one := by
  unfold one
  generalize 1074 = k
  exact Nat.two_pow_pos k

theorem units_strictMono : StrictMono units := by
  apply strictMono_nat_of_lt_succ
  intro m
  unfold units
  by_cases hm : m + 1 < 2 ^ 52
  · rw [if_pos (by omega), if_pos hm]
    exact Nat.lt_succ_self m
  · rw [if_neg hm]
    by_cases hfirst : m < 2 ^ 52
    · -- the first double whose fraction has a one in front
      have hm : m + 1 = 2 ^ 52 := by omega
      rw [if_pos hfirst, hm]
      omega
    · rw [if_neg hfirst]
      by_cases hcarry : (m + 1) % 2 ^ 52 = 0
      · have hmod : m % 2 ^ 52 = 2 ^ 52 - 1 := by omega
        have hdiv : (m + 1) / 2 ^ 52 - 1 = m / 2 ^ 52 - 1 + 1 := by omega
        rw [hcarry, hmod, hdiv, Nat.pow_succ 2 (m / 2 ^ 52 - 1),
          Nat.mul_comm (2 ^ (m / 2 ^ 52 - 1)), ← Nat.mul_assoc]
        exact Nat.mul_lt_mul_of_pos_right (by decide) (Nat.two_pow_pos _)
      · have hmod : (m + 1) % 2 ^ 52 = m % 2 ^ 52 + 1 := by omega
        have hdiv : (m + 1) / 2 ^ 52 = m / 2 ^ 52 := by omega
        rw [hmod, hdiv]
        exact Nat.mul_lt_mul_of_pos_right (by omega) (Nat.two_pow_pos _)

/-- `n / 2^s`, rounded to the nearest integer. -/
def roundShift (n s : Nat) : Nat :=
  n / 2 ^ s + if 2 ^ s < 2 * (n % 2 ^ s) ∨ (2 * (n % 2 ^ s) = 2 ^ s ∧ n / 2 ^ s % 2 = 1) then 1 else 0

theorem roundShift_mono {n m : Nat} (s : Nat) (h : n ≤ m) : roundShift n s ≤ roundShift m s := by
  have hdiv : n / 2 ^ s ≤ m / 2 ^ s := Nat.div_le_div_right h
  unfold roundShift
  rcases Nat.lt_or_eq_of_le hdiv with hlt | heq
  · split <;> split <;> omega
  · have hn := Nat.div_add_mod n (2 ^ s)
    have hm := Nat.div_add_mod m (2 ^ s)
    rw [heq] at hn ⊢
    have hmod : n % 2 ^ s ≤ m % 2 ^ s := by omega
    split <;> split <;> omega

def ofNat (n : Nat) : Nat :=
  if n = 0 then 0
  else if n.log2 ≤ 52 then (n.log2 + 1022) * 2 ^ 52 + n * 2 ^ (52 - n.log2)
  else (n.log2 + 1022) * 2 ^ 52 + roundShift n (n.log2 - 52)

theorem scaled_bounds {n : Nat} (h0 : n ≠ 0) (h : n.log2 ≤ 52) :
    2 ^ 52 ≤ n * 2 ^ (52 - n.log2) ∧ n * 2 ^ (52 - n.log2) < 2 ^ 53 := by
  have hlow := Nat.log2_self_le h0
  have hhigh := @Nat.lt_log2_self n
  constructor
  · calc 2 ^ 52 = 2 ^ n.log2 * 2 ^ (52 - n.log2) := by rw [← Nat.pow_add]; congr 1; omega
      _ ≤ n * 2 ^ (52 - n.log2) := Nat.mul_le_mul_right _ hlow
  · calc n * 2 ^ (52 - n.log2) < 2 ^ (n.log2 + 1) * 2 ^ (52 - n.log2) :=
      Nat.mul_lt_mul_of_pos_right hhigh (Nat.two_pow_pos _)
      _ = 2 ^ 53 := by rw [← Nat.pow_add]; congr 1; omega

theorem roundShift_bounds {n : Nat} (h0 : n ≠ 0) (h : 52 < n.log2) :
    2 ^ 52 ≤ roundShift n (n.log2 - 52) ∧ roundShift n (n.log2 - 52) ≤ 2 ^ 53 := by
  have hlow := Nat.log2_self_le h0
  have hhigh := @Nat.lt_log2_self n
  have hpos : 0 < 2 ^ (n.log2 - 52) := Nat.two_pow_pos _
  have hq : 2 ^ 52 ≤ n / 2 ^ (n.log2 - 52) := by
    rw [Nat.le_div_iff_mul_le hpos, ← Nat.pow_add]
    exact (Nat.pow_le_pow_right (by decide) (by omega)).trans hlow
  have hq' : n / 2 ^ (n.log2 - 52) < 2 ^ 53 := by
    rw [Nat.div_lt_iff_lt_mul hpos, ← Nat.pow_add]
    exact hhigh.trans_le (Nat.pow_le_pow_right (by decide) (by omega))
  unfold roundShift
  split <;> omega

theorem ofNat_bounds {n : Nat} (h0 : n ≠ 0) :
    (n.log2 + 1023) * 2 ^ 52 ≤ ofNat n ∧ ofNat n ≤ (n.log2 + 1024) * 2 ^ 52 := by
  unfold ofNat
  rw [if_neg h0]
  by_cases h : n.log2 ≤ 52
  · obtain ⟨hlow, hhigh⟩ := scaled_bounds h0 h
    rw [if_pos h]
    generalize n * 2 ^ (52 - n.log2) = a at *
    generalize n.log2 = e at *
    omega
  · obtain ⟨hlow, hhigh⟩ := roundShift_bounds h0 (by omega)
    rw [if_neg h]
    generalize roundShift n (n.log2 - 52) = a at *
    generalize n.log2 = e at *
    omega

theorem ofNat_mono : Monotone ofNat := by
  intro n m h
  by_cases hn : n = 0
  · rw [hn, ofNat, if_pos rfl]
    exact Nat.zero_le _
  · have hm : m ≠ 0 := by omega
    have hlog : n.log2 ≤ m.log2 := by
      by_contra hlt
      have hpow : 2 ^ (m.log2 + 1) ≤ 2 ^ n.log2 := Nat.pow_le_pow_right (by decide) (by omega)
      have hlow := Nat.log2_self_le hn
      have hhigh := @Nat.lt_log2_self m
      omega
    rcases Nat.lt_or_eq_of_le hlog with hlt | heq
    · -- a carry reaches the next exponent at most
      have hbn := ofNat_bounds hn
      have hbm := ofNat_bounds hm
      omega
    · unfold ofNat
      rw [if_neg hn, if_neg hm, heq]
      split
      · exact Nat.add_le_add_left (Nat.mul_le_mul_right _ h) _
      · exact Nat.add_le_add_left (roundShift_mono _ h) _

theorem units_eq {e a : Nat} (hlow : 2 ^ 52 ≤ a) (hhigh : a < 2 ^ 53) :
    units ((e + 1022) * 2 ^ 52 + a) = a * 2 ^ (e + 1022) := by
  have hdiv : ((e + 1022) * 2 ^ 52 + a) / 2 ^ 52 = e + 1022 + 1 := by omega
  have hmod : 2 ^ 52 + ((e + 1022) * 2 ^ 52 + a) % 2 ^ 52 = a := by omega
  rw [units, if_neg (by omega), hdiv, hmod]
  rfl

theorem units_ofNat {n : Nat} (h : n ≤ 2 ^ 53) : units (ofNat n) = n * one := by
  by_cases h0 : n = 0
  · subst h0
    exact (Nat.zero_mul one).symm
  · unfold one
    by_cases hlast : n = 2 ^ 53
    · subst hlast
      have hbits : ofNat (2 ^ 53) = (53 + 1022) * 2 ^ 52 + 2 ^ 52 := by decide +kernel
      have hshift : ∀ e k, e + 1022 = k + 1 → units ((e + 1022) * 2 ^ 52 + 2 ^ 52) = 2 ^ 53 * 2 ^ k := by
        intro e k hk
        rw [units_eq (Nat.le_refl _) (by decide), hk, Nat.pow_succ 2 k]
        omega
      rw [hbits]
      exact hshift 53 1074 rfl
    · have hlog : n.log2 ≤ 52 := by
        have hlow := Nat.log2_self_le h0
        by_contra hgt
        have hpow : 2 ^ 53 ≤ 2 ^ n.log2 := Nat.pow_le_pow_right (by decide) (by omega)
        omega
      obtain ⟨hlow, hhigh⟩ := scaled_bounds h0 hlog
      have hscaled : ∀ k, 52 - n.log2 + (n.log2 + 1022) = k → units (ofNat n) = n * 2 ^ k := by
        intro k hk
        rw [ofNat, if_neg h0, if_pos hlog, units_eq hlow hhigh, Nat.mul_assoc, ← Nat.pow_add, hk]
      exact hscaled 1074 (by omega)

end Lib.Double
