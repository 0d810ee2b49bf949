import Mathlib.Algebra.Ring.Nat
import Mathlib.Tactic.Common

/-!
# Linear shift registers

A register is shifted down one bit at a time; when a set bit falls out, the taps
are added. Messages enter at the low end. With a tap at the top end no shift
loses anything, so a message no longer than the register leaves it in a state of
its own.
-/

namespace Lib

def shift {w : Nat} (g c : BitVec w) : BitVec w := if c.getLsbD 0 then (c >>> 1) ^^^ g else c >>> 1

def shifts {w : Nat} (g : BitVec w) : Nat → BitVec w → BitVec w
  | 0, c => c
  | n + 1, c => shifts g n (shift g c)

def feed {w : Nat} (g c : BitVec w) (b : Bool) : BitVec w := shift g (c ^^^ (BitVec.ofBool b).setWidth w)

def pack (w : Nat) : List Bool → BitVec w
  | [] => 0
  | b :: bs => (BitVec.ofBool b).setWidth w ^^^ (pack w bs <<< 1)

section
variable {w : Nat} {g : BitVec w}

theorem shift_xor (x y : BitVec w) : shift g (x ^^^ y) = shift g x ^^^ shift g y := by
  unfold shift
  rw [BitVec.getLsbD_xor, BitVec.ushiftRight_xor_distrib]
  apply BitVec.eq_of_getLsbD_eq
  intro i _
  cases x.getLsbD 0 <;> cases y.getLsbD 0 <;> simp [Bool.xor_comm, Bool.xor_left_comm]

theorem shifts_xor (n : Nat) (x y : BitVec w) : shifts g n (x ^^^ y) = shifts g n x ^^^ shifts g n y := by
  induction n generalizing x y with
  | zero => rfl
  | succ n ih => rw [shifts, shift_xor, ih, shifts, shifts]

theorem shift_shiftLeft {y : BitVec w} (h : y.msb = false) : shift g (y <<< 1) = y := by
  have hlow : (y <<< 1).getLsbD 0 = false := by simp
  rw [shift, hlow, if_neg Bool.false_ne_true]
  apply BitVec.eq_of_getLsbD_eq
  intro i hi
  rw [BitVec.msb_eq_getLsbD_last] at h
  by_cases hlast : i = w - 1
  · rw [hlast, h]
    simp
    omega
  · simp
    omega

theorem shift_injective (hg : g.msb = true) {x y : BitVec w} (h : shift g x = shift g y) : x = y := by
  have hbits : ∀ i, (shift g x).getLsbD i = (shift g y).getLsbD i := by
    intro i
    rw [h]
  rw [BitVec.msb_eq_getLsbD_last] at hg
  have hw : 0 < w := by
    refine Nat.pos_of_ne_zero fun hw => ?_
    subst hw
    simp at hg
  have hlow : ∀ z : BitVec w, (shift g z).getLsbD (w - 1) = z.getLsbD 0 := by
    intro z
    have hout : z.getLsbD (1 + (w - 1)) = false := BitVec.getLsbD_of_ge z _ (by omega)
    unfold shift
    cases hz : z.getLsbD 0 <;> simp [hg, hout]
  have h0 : x.getLsbD 0 = y.getLsbD 0 := by rw [← hlow x, ← hlow y, h]
  apply BitVec.eq_of_getLsbD_eq
  intro i hi
  cases i with
  | zero => exact h0
  | succ i =>
    have hi := hbits i
    unfold shift at hi
    rw [← h0, Nat.add_comm] at *
    cases hx : x.getLsbD 0 <;> simpa [hx] using hi

theorem shifts_injective (hg : g.msb = true) (n : Nat) {x y : BitVec w}
    (h : shifts g n x = shifts g n y) : x = y := by
  induction n generalizing x y with
  | zero => exact h
  | succ n ih => exact shift_injective hg (ih h)

theorem getLsbD_pack (bs : List Bool) {i : Nat} (hi : i < w) : (pack w bs).getLsbD i = bs.getD i false := by
  induction bs generalizing i with
  | nil => simp [pack]
  | cons b bs ih =>
    cases i with
    | zero => cases b <;> simp [pack, hi]
    | succ i =>
      have hrest := ih (i := i) (by omega)
      rw [pack, BitVec.getLsbD_xor, BitVec.getLsbD_shiftLeft, Nat.add_sub_cancel, hrest]
      cases b <;> simp [hi]

theorem pack_injective {bs bs' : List Bool} (hlen : bs.length = bs'.length) (hw : bs.length ≤ w)
    (h : pack w bs = pack w bs') :
    bs = bs' := by
  apply List.ext_getElem hlen
  intro i hi hi'
  have hbit : (pack w bs).getLsbD i = (pack w bs').getLsbD i := by rw [h]
  rw [getLsbD_pack bs (by omega), getLsbD_pack bs' (by omega)] at hbit
  simpa [hi, hi'] using hbit

theorem feed_pack {bs : List Bool} (h : bs.length ≤ w) (c : BitVec w) :
    bs.foldl (feed g) c = shifts g bs.length (c ^^^ pack w bs) := by
  induction bs generalizing c with
  | nil => simp [shifts, pack]
  | cons b bs ih =>
    rw [List.length_cons] at h
    have htop : (pack w bs).msb = false := by
      rw [BitVec.msb_eq_getLsbD_last, getLsbD_pack bs (by omega), List.getD_eq_getElem?_getD,
        List.getElem?_eq_none (by omega)]
      rfl
    rw [List.foldl_cons, ih (by omega), feed, List.length_cons, shifts, pack, ← BitVec.xor_assoc,
      shift_xor _ (pack w bs <<< 1), shift_shiftLeft htop]

theorem feed_injective (hg : g.msb = true) {bs bs' : List Bool} (hlen : bs.length = bs'.length) (hw : bs.length ≤ w)
    {c : BitVec w} (h : bs.foldl (feed g) c = bs'.foldl (feed g) c) : bs = bs' := by
  rw [feed_pack hw, feed_pack (hlen ▸ hw), hlen] at h
  have hword := shifts_injective hg _ h
  apply pack_injective hlen hw
  exact (BitVec.xor_right_inj c).mp hword

theorem feed_left_injective (hg : g.msb = true) {bs : List Bool} {c d : BitVec w}
    (h : bs.foldl (feed g) c = bs.foldl (feed g) d) :
    c = d := by
  induction bs generalizing c d with
  | nil => exact h
  | cons b bs ih =>
    have := shift_injective hg (ih h)
    exact (BitVec.xor_left_inj _).mp this

theorem shifts_shiftLeft (n : Nat) {y : BitVec w} (h : ∀ i, w - n ≤ i → y.getLsbD i = false) :
    shifts g n (y <<< n) = y := by
  induction n with
  | zero => simp [shifts]
  | succ n ih =>
    have htop : (y <<< n).msb = false := by
      rw [BitVec.msb_eq_getLsbD_last, BitVec.getLsbD_shiftLeft, h (w - 1 - n) (by omega)]
      simp
    rw [shifts, BitVec.shiftLeft_add, shift_shiftLeft htop]
    exact ih fun i hi => h i (by omega)

/-- `n` shifts of a register are those of its low `n` bits, and the rest moved down. -/
theorem shifts_low (n : Nat) (x : BitVec w) :
    shifts g n x = shifts g n (x &&& BitVec.ofNat w (2 ^ n - 1)) ^^^ (x >>> n) := by
  have hsplit : x = (x &&& BitVec.ofNat w (2 ^ n - 1)) ^^^ ((x >>> n) <<< n) := by
    apply BitVec.eq_of_getLsbD_eq
    intro i hi
    rw [BitVec.getLsbD_xor, BitVec.getLsbD_and, BitVec.getLsbD_ofNat, Nat.testBit_two_pow_sub_one,
      BitVec.getLsbD_shiftLeft, BitVec.getLsbD_ushiftRight]
    by_cases hn : i < n
    · simp [hi, hn]
    · simp [hi, hn, Nat.add_sub_cancel' (Nat.not_lt.mp hn)]
  have hrest : shifts g n ((x >>> n) <<< n) = x >>> n := by
    apply shifts_shiftLeft
    intro i hi
    rw [BitVec.getLsbD_ushiftRight]
    exact BitVec.getLsbD_of_ge x _ (by omega)
  have := shifts_xor (g := g) n (x &&& BitVec.ofNat w (2 ^ n - 1)) ((x >>> n) <<< n)
  rw [← hsplit, hrest] at this
  exact this

end
end Lib
