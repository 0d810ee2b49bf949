import Cmudb.Lib.Slices

/-!
# Writing into a buffer

A buffer is a list of fixed length, written in place over a range; a range that
leaves it gives `none`. The lemmas take a buffer apart at the range that is
written, so that a sequence of writes is followed by naming the pieces between
them. `cells enc ns` is an array of elements that all take the same room.
-/

namespace Lib

variable {α β γ : Type}

theorem some_bind (a : α) (f : α → Option β) : (some a >>= f) = f a := rfl

theorem guard_bind {p : Prop} [Decidable p] (h : p) (f : Unit → Option β) : (guard p >>= f) = f () := by
  rw [guard, if_pos h]
  rfl

theorem mapM_some {l : List α} {f : α → Option β} {g : α → β} (h : ∀ a ∈ l, f a = some (g a)) :
    l.mapM f = some (l.map g) := by
  induction l with
  | nil => rfl
  | cons a l ih =>
    rw [List.mapM_cons, h a List.mem_cons_self, some_bind, ih fun x hx => h x (List.mem_cons_of_mem a hx)]
    rfl

theorem mapM_none {l : List α} {f : α → Option β} {a : α} (ha : a ∈ l) (h : f a = none) : l.mapM f = none := by
  induction l with
  | nil => cases ha
  | cons x l ih =>
    rw [List.mapM_cons]
    rcases List.mem_cons.mp ha with rfl | ha
    · rw [h]
      rfl
    · cases f x with
      | none => rfl
      | some y =>
        rw [some_bind, ih ha]
        rfl

theorem exists_at {l : List α} {i : Nat} (h : i < l.length) : ∃ as a bs, l = as ++ a :: bs ∧ i = as.length :=
  ⟨l.take i, l[i], l.drop (i + 1), by simp, (List.length_take_of_le (Nat.le_of_lt h)).symm⟩

theorem anyM_eq_false {l : List α} {f : α → Option Bool} : l.anyM f = some false ↔ ∀ a ∈ l, f a = some false := by
  induction l with
  | nil => simp [List.anyM, pure]
  | cons a l ih =>
    rw [List.anyM, List.forall_mem_cons, ← ih]
    cases f a with
    | none => simp
    | some b => cases b <;> simp [pure]

theorem anyM_some {l : List α} {f : α → Option Bool} (h : ∀ a ∈ l, ∃ b, f a = some b) : ∃ b, l.anyM f = some b := by
  induction l with
  | nil => exact ⟨false, rfl⟩
  | cons a l ih =>
    obtain ⟨b, hb⟩ := h a List.mem_cons_self
    rw [List.anyM, hb, some_bind]
    cases b with
    | true => exact ⟨true, rfl⟩
    | false => exact ih fun x hx => h x (List.mem_cons_of_mem a hx)

theorem mapM_range {m : Type → Type} [Monad m] [LawfulMonad m] {f : Nat → m α} {l : List α}
    (h : ∀ as a bs, l = as ++ a :: bs → f as.length = pure a) : (List.range l.length).mapM f = pure l := by
  have hgen : ∀ as bs, l = as ++ bs → (List.range' as.length bs.length).mapM f = pure bs := by
    intro as bs
    induction bs generalizing as with
    | nil =>
      intro _
      rw [List.length_nil, List.range'_zero, List.mapM_nil]
    | cons b bs ih =>
      intro hl
      have ih' := ih (as ++ [b]) (by simp [hl])
      rw [List.length_append, List.length_singleton] at ih'
      rw [List.length_cons, List.range'_succ, List.mapM_cons, h as b bs hl, pure_bind, ih', pure_bind]
  have := hgen [] l rfl
  rwa [List.range_eq_range']

theorem anyM_range {f : Nat → Option Bool} {g : α → Bool} {l : List α}
    (h : ∀ as a bs, l = as ++ a :: bs → f as.length = some (g a)) :
    (List.range l.length).anyM f = some (l.any g) := by
  have hgen : ∀ as bs, l = as ++ bs → (List.range' as.length bs.length).anyM f = some (bs.any g) := by
    intro as bs
    induction bs generalizing as with
    | nil => intro _; rfl
    | cons b bs ih =>
      intro hl
      have ih' := ih (as ++ [b]) (by simp [hl])
      rw [List.length_append, List.length_singleton] at ih'
      rw [List.length_cons, List.range'_succ, List.anyM, h as b bs hl, some_bind, List.any_cons]
      cases g b with
      | true => rfl
      | false => exact ih'
  have := hgen [] l rfl
  rwa [List.range_eq_range']

def put (l : List α) (a : Nat) (b : List α) : Option (List α) :=
  if a + b.length ≤ l.length then some (patch l a b) else none

def copyWithin (l : List α) (a e d : Nat) : Option (List α) := (slice? l a e).bind (put l d)

def fill (l : List α) (a e : Nat) (x : α) : Option (List α) :=
  if a ≤ e ∧ e ≤ l.length then some (patch l a (List.replicate (e - a) x)) else none

theorem slice?_mid {l b r : List α} {a e : Nat} (ha : a = l.length) (he : e = a + b.length) :
    slice? (l ++ b ++ r) a e = some b := by
  subst ha he
  rw [slice?_eq (by simp), slice_appended]

theorem patch_mid {l b b' r : List α} {a : Nat} (ha : a = l.length) (hb : b'.length = b.length) :
    patch (l ++ b ++ r) a b' = l ++ b' ++ r := by
  subst ha
  rw [patch, List.append_assoc l b r, List.take_left, hb, ← List.append_assoc l b r, ← List.length_append,
    List.drop_left]

theorem put_mid {l b b' r : List α} {a : Nat} (ha : a = l.length) (hb : b'.length = b.length) :
    put (l ++ b ++ r) a b' = some (l ++ b' ++ r) := by
  rw [put, if_pos (by simp; omega), patch_mid ha hb]

theorem fill_mid {l b r : List α} {a e : Nat} (x : α) (ha : a = l.length) (he : e = a + b.length) :
    fill (l ++ b ++ r) a e x = some (l ++ List.replicate b.length x ++ r) := by
  have hn : e - a = b.length := by omega
  rw [fill, if_pos ⟨by omega, by simp; omega⟩, hn, patch_mid ha (by simp)]

theorem put_left {l b l' : List α} {a : Nat} (h : put l a b = some l') (r : List α) :
    put (l ++ r) a b = some (l' ++ r) := by
  unfold put at h ⊢
  split at h
  case isTrue hle =>
    rw [if_pos (by simp; omega), ← Option.some.inj h, patch, patch, List.take_append_of_le_length (by omega),
      List.drop_append_of_le_length hle, ← List.append_assoc]
  case isFalse => cases h

theorem slice?_left {l b : List α} {a e : Nat} (h : slice? l a e = some b) (r : List α) :
    slice? (l ++ r) a e = some b := by
  obtain ⟨hae, hel, rfl⟩ := slice?_some h
  rw [slice?, if_pos ⟨hae, by simp; omega⟩, slice_append (by omega)]

/-- Moving `m` down over the gap `z` before it leaves as many stale elements behind it. -/
theorem copyWithin_down {l z m r : List α} {a e d : Nat} (hd : d = l.length) (ha : a = d + z.length)
    (he : e = a + m.length) :
    ∃ g, g.length = z.length ∧ copyWithin (l ++ z ++ m ++ r) a e d = some (l ++ m ++ g ++ r) := by
  refine ⟨(z ++ m).drop m.length, by simp, ?_⟩
  have hread : slice? (l ++ z ++ m ++ r) a e = some m := slice?_mid (by simp; omega) he
  have hsplit : l ++ z ++ m ++ r = l ++ (z ++ m).take m.length ++ ((z ++ m).drop m.length ++ r) := by
    simp only [List.append_assoc]
    rw [← List.append_assoc (List.take _ _), List.take_append_drop, List.append_assoc]
  rw [copyWithin, hread, Option.bind_some, hsplit, put_mid hd (by simp), List.append_assoc (l ++ m)]

theorem copyWithin_up {l z m r : List α} {a e d : Nat} (ha : a = l.length) (he : e = a + m.length)
    (hd : d = a + z.length) :
    ∃ g, g.length = z.length ∧ copyWithin (l ++ m ++ z ++ r) a e d = some (l ++ g ++ m ++ r) := by
  refine ⟨(m ++ z).take z.length, by simp, ?_⟩
  have hread : slice? (l ++ m ++ z ++ r) a e = some m := by
    rw [List.append_assoc (l ++ m)]
    exact slice?_mid ha he
  have hsplit : l ++ m ++ z ++ r = l ++ (m ++ z).take z.length ++ (m ++ z).drop z.length ++ r := by
    rw [List.append_assoc l (List.take _ _), List.take_append_drop, ← List.append_assoc l]
  rw [copyWithin, hread, Option.bind_some, hsplit, put_mid (by simp; omega) (by simp)]

/-! ## Arrays of cells -/

section
variable {enc : β → List α} {k : Nat}

def cells (enc : β → List α) (ns : List β) : List α := ns.flatMap enc

@[simp] theorem cells_nil : cells enc [] = [] := rfl

@[simp] theorem cells_cons (n : β) (ns : List β) : cells enc (n :: ns) = enc n ++ cells enc ns := rfl

@[simp] theorem cells_append (ns ms : List β) : cells enc (ns ++ ms) = cells enc ns ++ cells enc ms :=
  List.flatMap_append

variable (henc : ∀ n, (enc n).length = k)

include henc

theorem cells_length (ns : List β) : (cells enc ns).length = ns.length * k := by
  induction ns with
  | nil => simp
  | cons n ns ih =>
    rw [cells_cons, List.length_append, henc, ih, List.length_cons, Nat.succ_mul, Nat.add_comm]

theorem slice?_cell {l r : List α} {ns ms : List β} {n : β} {a e : Nat} (ha : a = l.length + ns.length * k)
    (he : e = a + k) :
    slice? (l ++ cells enc (ns ++ n :: ms) ++ r) a e = some (enc n) := by
  have hsplit : l ++ cells enc (ns ++ n :: ms) ++ r = l ++ cells enc ns ++ enc n ++ (cells enc ms ++ r) := by simp
  rw [hsplit]
  apply slice?_mid
  · rw [List.length_append, cells_length henc, ha]
  · rw [henc, he]

theorem put_cell {l r : List α} {ns ms : List β} {n n' : β} {a : Nat} (ha : a = l.length + ns.length * k) :
    put (l ++ cells enc (ns ++ n :: ms) ++ r) a (enc n') = some (l ++ cells enc (ns ++ n' :: ms) ++ r) := by
  have hsplit : ∀ n, l ++ cells enc (ns ++ n :: ms) ++ r = l ++ cells enc ns ++ enc n ++ (cells enc ms ++ r) := by
    simp
  rw [hsplit, hsplit]
  apply put_mid
  · rw [List.length_append, cells_length henc, ha]
  · rw [henc, henc]

end

end Lib
