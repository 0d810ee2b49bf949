import Mathlib.Data.List.InsertIdx
import Mathlib.Data.List.Nodup
import Mathlib.Data.List.TakeWhile
import Mathlib.Tactic.Common

/-!
# Searching in sorted lists

`partitionPoint` is the binary search for the first index at which a predicate
fails that holds on a first part of the range. On a list on which `p` holds on a
first part, it is the length of that part.
-/

namespace Lib

universe u

def partitionLoop (pred : Nat → Bool) : Nat → Nat → Nat → Nat
  | 0, lo, _ => lo
  | fuel + 1, lo, hi =>
    if lo < hi then
      let mid := lo + (hi - lo) / 2
      if pred mid then partitionLoop pred fuel (mid + 1) hi else partitionLoop pred fuel lo mid
    else lo

def partitionPoint (n : Nat) (pred : Nat → Bool) : Nat := partitionLoop pred n 0 n

theorem partitionLoop_eq {pred : Nat → Bool} {m : Nat} : ∀ {fuel lo hi : Nat}, lo ≤ m → m ≤ hi → hi - lo ≤ fuel →
    (∀ i, lo ≤ i → i < hi → (pred i = true ↔ i < m)) → partitionLoop pred fuel lo hi = m
  | 0, lo, hi, hlo, hhi, hf, _ => by
    rw [partitionLoop]
    omega
  | fuel + 1, lo, hi, hlo, hhi, hf, hp => by
    rw [partitionLoop]
    by_cases hlt : lo < hi
    · rw [if_pos hlt]
      have hmid := hp (lo + (hi - lo) / 2) (by omega) (by omega)
      simp only
      split
      · rename_i htrue
        have := hmid.mp htrue
        exact partitionLoop_eq (by omega) hhi (by omega) fun i h₁ h₂ => hp i (by omega) h₂
      · rename_i hfalse
        have : ¬ lo + (hi - lo) / 2 < m := fun h => hfalse (hmid.mpr h)
        exact partitionLoop_eq hlo (by omega) (by omega) fun i h₁ h₂ => hp i h₁ (by omega)
    · rw [if_neg hlt]
      omega

/-- The same search with a predicate that may fail. -/
def partitionLoop? (pred : Nat → Option Bool) : Nat → Nat → Nat → Option Nat
  | 0, lo, _ => some lo
  | fuel + 1, lo, hi =>
    if lo < hi then
      let mid := lo + (hi - lo) / 2
      (pred mid).bind fun b => if b then partitionLoop? pred fuel (mid + 1) hi else partitionLoop? pred fuel lo mid
    else some lo

def partitionPoint? (n : Nat) (pred : Nat → Option Bool) : Option Nat := partitionLoop? pred n 0 n

theorem partitionLoop?_eq {pred : Nat → Option Bool} {p : Nat → Bool} {n : Nat}
    (h : ∀ i, i < n → pred i = some (p i)) :
    ∀ {fuel lo hi : Nat}, hi ≤ n → partitionLoop? pred fuel lo hi = some (partitionLoop p fuel lo hi)
  | 0, _, _, _ => rfl
  | fuel + 1, lo, hi, hhi => by
    rw [partitionLoop?, partitionLoop]
    by_cases hlt : lo < hi
    · rw [if_pos hlt, if_pos hlt]
      dsimp only
      rw [h (lo + (hi - lo) / 2) (by omega), Option.bind_some]
      cases p (lo + (hi - lo) / 2) with
      | true => exact partitionLoop?_eq h hhi
      | false => exact partitionLoop?_eq h (by omega)
    · rw [if_neg hlt, if_neg hlt]

theorem partitionPoint?_eq {pred : Nat → Option Bool} {p : Nat → Bool} {n : Nat}
    (h : ∀ i, i < n → pred i = some (p i)) :
    partitionPoint? n pred = some (partitionPoint n p) := partitionLoop?_eq h (Nat.le_refl n)

section
variable {α : Type u} {p : α → Bool} {l : List α}

def Partitioned (p : α → Bool) (l : List α) : Prop := l.Pairwise fun a b => p b = true → p a = true

theorem Partitioned.dropWhile_false (h : Partitioned p l) : ∀ a ∈ l.dropWhile p, p a = false := by
  induction l with
  | nil => intro a ha; cases ha
  | cons b l ih =>
    have hc := List.pairwise_cons.mp h
    intro a ha
    cases hb : p b with
    | true =>
      rw [List.dropWhile_cons_of_pos hb] at ha
      exact ih hc.2 a ha
    | false =>
      rw [List.dropWhile_cons_of_neg (by simp [hb])] at ha
      rcases List.mem_cons.mp ha with rfl | ha
      · exact hb
      · cases ha' : p a with
        | false => rfl
        | true => rw [hc.1 a ha ha'] at hb; cases hb

theorem Partitioned.getElem (h : Partitioned p l) {i : Nat} {a : α} (hi : l[i]? = some a) :
    p a = true ↔ i < (l.takeWhile p).length := by
  have happ := List.takeWhile_append_dropWhile (p := p) (l := l)
  constructor
  · intro ha
    by_contra hge
    rw [← happ, List.getElem?_append_right (by omega)] at hi
    have := h.dropWhile_false a (List.mem_of_getElem? hi)
    rw [ha] at this
    cases this
  · intro hlt
    rw [← happ, List.getElem?_append_left hlt] at hi
    exact List.mem_takeWhile_imp (List.mem_of_getElem? hi)

theorem Partitioned.countP_eq (h : Partitioned p l) : l.countP p = (l.takeWhile p).length := by
  have htake : (l.takeWhile p).countP p = (l.takeWhile p).length :=
    List.countP_eq_length.mpr fun a ha => List.mem_takeWhile_imp ha
  have hdrop : (l.dropWhile p).countP p = 0 := List.countP_eq_zero.mpr fun a ha => by simp [h.dropWhile_false a ha]
  have hcount := congrArg (List.countP p) (List.takeWhile_append_dropWhile (p := p) (l := l))
  rw [List.countP_append, htake, hdrop] at hcount
  exact hcount.symm

theorem take_length_takeWhile (p : α → Bool) (l : List α) : l.take (l.takeWhile p).length = l.takeWhile p :=
  (List.prefix_iff_eq_take.mp (List.takeWhile_prefix p)).symm

theorem drop_length_takeWhile (p : α → Bool) (l : List α) : l.drop (l.takeWhile p).length = l.dropWhile p := by
  have h := (List.take_append_drop (l.takeWhile p).length l).trans (List.takeWhile_append_dropWhile (p := p)).symm
  rw [take_length_takeWhile] at h
  exact List.append_cancel_left h

theorem partitionPoint_eq (h : Partitioned p l) :
    partitionPoint l.length (fun i => (l[i]?).any p) = (l.takeWhile p).length := by
  refine partitionLoop_eq (Nat.zero_le _) (List.takeWhile_prefix p).length_le (by omega) fun i _ hi => ?_
  rw [List.getElem?_eq_getElem hi, Option.any_some]
  exact h.getElem (List.getElem?_eq_getElem hi)

theorem insertIdx_eq_append {i : Nat} (h : i ≤ l.length) (a : α) : l.insertIdx i a = l.take i ++ a :: l.drop i := by
  induction l generalizing i with
  | nil =>
    have : i = 0 := by simpa using h
    simp [this]
  | cons b l ih =>
    cases i with
    | zero => simp
    | succ i => simp [ih (by simpa using h)]

end

end Lib
