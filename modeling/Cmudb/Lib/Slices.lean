import Mathlib.Data.List.TakeDrop
import Mathlib.Tactic.Common

/-!
# Slices of a list

`slice l a n` is the `n` elements of `l` from position `a` on, and `patch l a b`
writes `b` over them. The lemmas say which slices an append or a patch leaves
alone.
-/

namespace Lib

variable {α : Type}

def slice (l : List α) (a n : Nat) : List α := (l.drop a).take n

def slice? (l : List α) (a b : Nat) : Option (List α) :=
  if a ≤ b ∧ b ≤ l.length then some (slice l a (b - a)) else none

def patch (l : List α) (a : Nat) (b : List α) : List α := l.take a ++ b ++ l.drop (a + b.length)

theorem slice?_eq {l : List α} {a n : Nat} (h : a + n ≤ l.length) : slice? l a (a + n) = some (slice l a n) := by
  rw [slice?, if_pos ⟨Nat.le_add_right a n, h⟩, Nat.add_sub_cancel_left]

theorem slice?_some {l b : List α} {a e : Nat} (h : slice? l a e = some b) :
    a ≤ e ∧ e ≤ l.length ∧ b = slice l a (e - a) := by
  unfold slice? at h
  split at h
  case isTrue hle => exact ⟨hle.1, hle.2, (Option.some.inj h).symm⟩
  case isFalse => cases h

theorem slice_append {l : List α} {a n : Nat} (h : a + n ≤ l.length) (r : List α) :
    slice (l ++ r) a n = slice l a n := by
  rw [slice, slice, List.drop_append_of_le_length (by omega), List.take_append_of_le_length (by simp; omega)]

theorem slice_appended (l b r : List α) : slice (l ++ b ++ r) l.length b.length = b := by
  simp [slice, List.append_assoc]

theorem patch_length {l b : List α} {a : Nat} (h : a + b.length ≤ l.length) : (patch l a b).length = l.length := by
  simp [patch]
  omega

theorem slice_patch_self {l b : List α} {a : Nat} (h : a + b.length ≤ l.length) :
    slice (patch l a b) a b.length = b := by
  have ha : (l.take a).length = a := by simp; omega
  have hs := slice_appended (l.take a) b (l.drop (a + b.length))
  rw [ha] at hs
  exact hs

theorem getElem?_patch {l b : List α} {a : Nat} (h : a + b.length ≤ l.length) (i : Nat) :
    (patch l a b)[i]? = if a ≤ i ∧ i < a + b.length then b[i - a]? else l[i]? := by
  have ha : min a l.length = a := by omega
  rw [patch, List.append_assoc, List.getElem?_append]
  simp only [List.length_take, ha]
  split
  case isTrue hi =>
    rw [if_neg (by omega), List.getElem?_take_of_lt hi]
  case isFalse hi =>
    rw [List.getElem?_append]
    split
    case isTrue hb => rw [if_pos (by omega)]
    case isFalse hb =>
      rw [if_neg (by omega), List.getElem?_drop]
      congr 1
      omega

theorem getElem?_slice (l : List α) (a n i : Nat) : (slice l a n)[i]? = if i < n then l[a + i]? else none := by
  rw [slice, List.getElem?_take, List.getElem?_drop]

theorem slice_patch_apart {l b : List α} {a : Nat} (h : a + b.length ≤ l.length) {c n : Nat}
    (hap : c + n ≤ a ∨ a + b.length ≤ c) : slice (patch l a b) c n = slice l c n := by
  apply List.ext_getElem?
  intro i
  rw [getElem?_slice, getElem?_slice]
  split
  case isTrue hi => rw [getElem?_patch h, if_neg (by omega)]
  case isFalse => rfl

end Lib
