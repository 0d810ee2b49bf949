import Mathlib.Tactic.Common

/-!
# Readers and what they read

A reader takes a value off the front of a string, or fails. It reads an encoding
when what it takes off are exactly the encodings of the values it yields, so a
string it accepts is written in one way only.
-/

namespace Lib

variable {ε α β γ : Type}

def Reader (ε β α : Type) : Type := List β → Except ε (α × List β)

namespace Reader

def andThen (r : Reader ε β α) (k : α → Reader ε β γ) : Reader ε β γ := fun bs =>
  match r bs with
  | .ok (a, rest) => k a rest
  | .error e => .error e

def done (a : α) : Reader ε β α := fun bs => .ok (a, bs)

instance readerMonad : Monad (Reader ε β) where
  pure := done
  bind := andThen

def fail (e : ε) : Reader ε β α := fun _ => .error e

def take (e : ε) (n : Nat) : Reader ε β (List β) :=
  fun bs => if bs.length < n then .error e else .ok (bs.take n, bs.drop n)

def many (r : Reader ε β α) : Nat → Reader ε β (List α)
  | 0 => pure []
  | n + 1 => do
    let a ← r
    let as ← many r n
    return a :: as

theorem pure_ok {a b : α} {bs rest : List β} : (pure a : Reader ε β α) bs = .ok (b, rest) ↔ b = a ∧ bs = rest := by
  show Except.ok (a, bs) = .ok (b, rest) ↔ _
  rw [Except.ok.injEq, Prod.mk.injEq, eq_comm (a := a)]

theorem bind_ok {r : Reader ε β α} {k : α → Reader ε β γ} {c : γ} {bs rest : List β} :
    (r >>= k) bs = .ok (c, rest) ↔ ∃ a mid, r bs = .ok (a, mid) ∧ k a mid = .ok (c, rest) := by
  show andThen r k bs = .ok (c, rest) ↔ _
  unfold andThen
  cases hr : r bs with
  | error e => simp
  | ok p =>
    obtain ⟨a, mid⟩ := p
    simp

end Reader

def Reads (r : Reader ε β α) (enc : α → List β) (ok : α → Prop) : Prop :=
  ∀ bs a rest, r bs = .ok (a, rest) ↔ ok a ∧ bs = enc a ++ rest

namespace Reads

variable {r : Reader ε β α} {enc : α → List β} {ok : α → Prop}

theorem congr {ok' : α → Prop} {enc' : α → List β} (h : Reads r enc ok) (hok : ∀ a, ok' a ↔ ok a)
    (henc : ∀ a, ok a → enc' a = enc a) : Reads r enc' ok' := by
  intro bs a rest
  rw [h, hok]
  constructor
  · rintro ⟨ha, rfl⟩
    exact ⟨ha, by rw [henc a ha]⟩
  · rintro ⟨ha, rfl⟩
    exact ⟨ha, by rw [henc a ha]⟩

theorem map {f : α → γ} {g : γ → α} (h : Reads r enc ok) (hf : ∀ a, ok a → g (f a) = a) :
    Reads (r >>= fun a => pure (f a)) (fun c => enc (g c)) fun c => f (g c) = c ∧ ok (g c) := by
  intro bs c rest
  simp only [Reader.bind_ok, Reader.pure_ok, h _ _ _]
  constructor
  · rintro ⟨a, mid, ⟨ha, rfl⟩, rfl, rfl⟩
    rw [hf a ha]
    exact ⟨⟨rfl, ha⟩, rfl⟩
  · rintro ⟨⟨hc, ha⟩, rfl⟩
    exact ⟨g c, rest, ⟨ha, rfl⟩, hc.symm, rfl⟩

theorem many (h : Reads r enc ok) (n : Nat) :
    Reads (Reader.many r n) (fun as => as.flatMap enc) fun as => as.length = n ∧ ∀ a ∈ as, ok a := by
  induction n with
  | zero =>
    intro bs as rest
    rw [Reader.many, Reader.pure_ok]
    constructor
    · rintro ⟨rfl, rfl⟩
      exact ⟨⟨rfl, by simp⟩, rfl⟩
    · rintro ⟨⟨hlen, -⟩, rfl⟩
      rw [List.length_eq_zero_iff.mp hlen]
      exact ⟨rfl, rfl⟩
  | succ n ih =>
    intro bs as rest
    simp only [Reader.many, Reader.bind_ok, Reader.pure_ok, h _ _ _, ih _ _ _]
    constructor
    · rintro ⟨a, _, ⟨ha, rfl⟩, as, _, ⟨⟨hlen, has⟩, rfl⟩, rfl, rfl⟩
      refine ⟨⟨by rw [List.length_cons, hlen], ?_⟩, by rw [List.flatMap_cons, List.append_assoc]⟩
      intro x hx
      rcases List.mem_cons.mp hx with rfl | hx
      · exact ha
      · exact has x hx
    · rintro ⟨⟨hlen, has⟩, rfl⟩
      cases as with
      | nil => cases hlen
      | cons a as =>
        refine ⟨a, _, ⟨has a (List.mem_cons_self ..), by rw [List.flatMap_cons, List.append_assoc]⟩, as, rest,
          ⟨⟨?_, ?_⟩, rfl⟩, rfl, rfl⟩
        · exact Nat.succ.inj hlen
        · exact fun x hx => has x (List.mem_cons_of_mem _ hx)

end Reads

end Lib
