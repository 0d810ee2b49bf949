import Cmudb.Ids
import Cmudb.Lib.Buffers

/-!
# Numbers in a buffer

Little-endian numbers, as the pages and the log store them. Reading or writing
one outside the buffer panics, and so does arithmetic that leaves its type:
`none`.
-/

namespace Cmudb

open Lib

def leBytes : Nat → Nat → Bytes
  | 0, _ => []
  | k + 1, n => UInt8.ofNat n :: leBytes k (n / 256)

def leNat : Bytes → Nat
  | [] => 0
  | b :: bs => b.toNat + 256 * leNat bs

@[simp] theorem leBytes_length (k n : Nat) : (leBytes k n).length = k := by
  induction k generalizing n with
  | zero => rfl
  | succ k ih => simp [leBytes, ih]

theorem leNat_leBytes {k n : Nat} (h : n < 256 ^ k) : leNat (leBytes k n) = n := by
  induction k generalizing n with
  | zero => simp at h; simp [leBytes, leNat, h]
  | succ k ih =>
    have : n / 256 < 256 ^ k := Nat.div_lt_of_lt_mul (by rw [Nat.pow_succ, Nat.mul_comm] at h; exact h)
    simp only [leBytes, leNat, ih this, UInt8.toNat_ofNat']
    omega

theorem leBytes_leNat (bs : Bytes) : leBytes bs.length (leNat bs) = bs := by
  induction bs with
  | nil => rfl
  | cons b bs ih =>
    have hb := UInt8.toNat_lt b
    have hhead : UInt8.ofNat (b.toNat + 256 * leNat bs) = b := by
      apply UInt8.toNat_inj.mp
      rw [UInt8.toNat_ofNat']
      omega
    have htail : (b.toNat + 256 * leNat bs) / 256 = leNat bs := by omega
    rw [leNat, List.length_cons, leBytes, hhead, htail, ih]

theorem leNat_lt (bs : Bytes) : leNat bs < 256 ^ bs.length := by
  induction bs with
  | nil => exact Nat.one_pos
  | cons b bs ih =>
    have := UInt8.toNat_lt b
    rw [leNat, List.length_cons, Nat.pow_succ]
    omega

/-! ## Reading and writing -/

def getLe (k : Nat) (buf : Bytes) (off : Nat) : Option Nat := (slice? buf off (off + k)).map leNat

def getU16Le (buf : Bytes) (off : Nat) : Option Nat := getLe 2 buf off
def getU32Le (buf : Bytes) (off : Nat) : Option Nat := getLe 4 buf off
def getU64Le (buf : Bytes) (off : Nat) : Option Nat := getLe 8 buf off

def putU16Le (buf : Bytes) (off v : Nat) : Option Bytes := put buf off (leBytes 2 v)
def putU32Le (buf : Bytes) (off v : Nat) : Option Bytes := put buf off (leBytes 4 v)
def putU64Le (buf : Bytes) (off v : Nat) : Option Bytes := put buf off (leBytes 8 v)

theorem slice?_of_getLe {k off v : Nat} {buf : Bytes} (h : getLe k buf off = some v) :
    slice? buf off (off + k) = some (leBytes k v) := by
  obtain ⟨bs, hbs, rfl⟩ := Option.map_eq_some_iff.mp h
  obtain ⟨-, hle, heq⟩ := slice?_some hbs
  have hlen : bs.length = k := by
    rw [heq, slice, List.length_take, List.length_drop]
    omega
  rw [hbs, ← hlen, leBytes_leNat]

theorem getLe_cell {k n off : Nat} {l r : Bytes} {ns ms : List Nat} (hn : n < 256 ^ k)
    (ha : off = l.length + ns.length * k) :
    getLe k (l ++ cells (leBytes k) (ns ++ n :: ms) ++ r) off = some n := by
  rw [getLe, slice?_cell (leBytes_length k) ha rfl, Option.map_some, leNat_leBytes hn]

/-- `a - b` where going below zero panics. -/
def minus (a b : Nat) : Option Nat := if b ≤ a then some (a - b) else none

theorem minus_of_le {a b : Nat} (h : b ≤ a) : minus a b = some (a - b) := if_pos h

/-! ## Stamps -/

def Stamp.decode (n : Nat) : Stamp := if txnStartId ≤ n then .txn (n - txnStartId) else .commit n

theorem Stamp.decode_encode {s : Stamp} (h : s.inRange) : Stamp.decode s.encode = s := by
  cases s with
  | commit ts =>
    have : ¬ txnStartId ≤ ts := Nat.not_le.mpr h
    simp [Stamp.decode, Stamp.encode, this]
  | txn id => simp [Stamp.decode, Stamp.encode]

theorem Stamp.decode_fits {n : Nat} (h : n < 2 ^ 64) :
    (Stamp.decode n).inRange ∧ (Stamp.decode n).encode < 2 ^ 64 := by
  unfold Stamp.decode
  split
  · rename_i hn
    refine ⟨True.intro, ?_⟩
    rw [Stamp.encode]
    omega
  · rename_i hn
    exact ⟨Nat.not_le.mp hn, h⟩

end Cmudb
