import Mathlib.Data.List.Range
import Mathlib.Tactic.Common

/-!
# Byte ranges of a flat buffer

A buffer is a function from offsets to bytes. `copyAt` overwrites a range and
`readAt` reads one; a read returns what was last copied there, and a copy
elsewhere does not disturb it.
-/

namespace Lib

abbrev Buf := Nat → UInt8

def copyAt (b : Buf) (start : Nat) (data : List UInt8) : Buf := fun j =>
  if start ≤ j ∧ j < start + data.length then data.getD (j - start) 0 else b j

def readAt (b : Buf) (start len : Nat) : List UInt8 := (List.range len).map fun k => b (start + k)

@[simp] theorem readAt_length (b : Buf) (start len : Nat) : (readAt b start len).length = len := by
  simp [readAt]

theorem copyAt_outside (b : Buf) (start : Nat) (data : List UInt8) (j : Nat)
    (h : j < start ∨ start + data.length ≤ j) : copyAt b start data j = b j := by
  unfold copyAt
  rw [if_neg]
  omega

theorem copyAt_inside (b : Buf) (start : Nat) (data : List UInt8) (k : Nat) (h : k < data.length) :
    copyAt b start data (start + k) = data.getD k 0 := by
  unfold copyAt
  rw [if_pos (by omega), Nat.add_sub_cancel_left]

theorem readAt_congr {b b' : Buf} {start start' len : Nat}
    (h : ∀ k < len, b (start + k) = b' (start' + k)) : readAt b start len = readAt b' start' len := by
  unfold readAt
  apply List.map_congr_left
  intro k hk
  exact h k (List.mem_range.mp hk)

theorem readAt_getD (b : Buf) (start len k : Nat) (h : k < len) :
    (readAt b start len).getD k 0 = b (start + k) := by
  simp [readAt, List.getD, h]

theorem readAt_copyAt (b : Buf) (start : Nat) (data : List UInt8) :
    readAt (copyAt b start data) start data.length = data := by
  apply List.ext_getElem (by simp)
  intro k h1 h2
  simp only [readAt, List.getElem_map, List.getElem_range]
  rw [copyAt_inside b start data k h2]
  simp [List.getD, h2]

theorem readAt_copyAt_disjoint (b : Buf) (start : Nat) (data : List UInt8) (s l : Nat)
    (h : s + l ≤ start ∨ start + data.length ≤ s) :
    readAt (copyAt b start data) s l = readAt b s l := by
  apply readAt_congr
  intro k hk
  apply copyAt_outside
  omega

end Lib
