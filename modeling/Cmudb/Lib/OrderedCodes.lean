import Mathlib.Algebra.Ring.Nat
import Mathlib.Tactic.Common
import Mathlib.Order.Compare

/-!
# Codes that keep the order

Values are written as strings of symbols that compare, symbol by symbol, as the
values do, whatever is written behind them. Such a code is prefix-free, and
codes written one after another compare as the lists of their values.
-/

namespace Lib

open Std

section
variable {α β : Type} {c : β → β → Ordering}

theorem compareLex_append {x y : List β} (h : x.length = y.length) (u v : List β) :
    List.compareLex c (x ++ u) (y ++ v) = (List.compareLex c x y).then (List.compareLex c u v) := by
  induction x generalizing y with
  | nil =>
    cases y with
    | nil => simp [List.compareLex_nil_nil]
    | cons => simp at h
  | cons a x ih =>
    cases y with
    | nil => simp at h
    | cons b y =>
      have hlen : x.length = y.length := by simpa using h
      rw [List.cons_append, List.cons_append, List.compareLex_cons_cons, List.compareLex_cons_cons, ih hlen,
        Ordering.then_assoc]

theorem compareLex_append_left [ReflCmp c] (p u v : List β) :
    List.compareLex c (p ++ u) (p ++ v) = List.compareLex c u v := by
  rw [compareLex_append rfl, @ReflCmp.compare_self _ (List.compareLex c) _ p]
  rfl

theorem compareLex_append_self [ReflCmp c] (x : List β) (b : β) (y : List β) :
    List.compareLex c x (x ++ b :: y) = .lt := by
  have h := compareLex_append_left (c := c) x [] (b :: y)
  rwa [List.append_nil, List.compareLex_nil_cons] at h

/-- On the values with `P` the code `enc` compares as `cmp` does, whatever follows. -/
def OrderedCode (c : β → β → Ordering) (P : α → Prop) (cmp : α → α → Ordering) (enc : α → List β) : Prop :=
  ∀ a b, P a → P b → ∀ x y, List.compareLex c (enc a ++ x) (enc b ++ y) = (cmp a b).then (List.compareLex c x y)

variable {P : α → Prop} {cmp : α → α → Ordering} {enc : α → List β}

theorem OrderedCode.of_length {n : Nat} (hlen : ∀ a, P a → (enc a).length = n)
    (hcmp : ∀ a b, P a → P b → List.compareLex c (enc a) (enc b) = cmp a b) : OrderedCode c P cmp enc := by
  intro a b ha hb x y
  rw [compareLex_append ((hlen a ha).trans (hlen b hb).symm), hcmp a b ha hb]

namespace OrderedCode

theorem compare (h : OrderedCode c P cmp enc) {a b : α} (ha : P a) (hb : P b) :
    List.compareLex c (enc a) (enc b) = cmp a b := by
  have hnil := h a b ha hb [] []
  rw [List.append_nil, List.append_nil, List.compareLex_nil_nil] at hnil
  rw [hnil]
  cases cmp a b <;> rfl

theorem not_continued [ReflCmp c] [OrientedCmp c] (h : OrderedCode c P cmp enc) {a b : α} (ha : P a) (hb : P b)
    {s : β} {rest : List β} (heq : enc b = enc a ++ s :: rest) : False := by
  have hlt : cmp a b = .lt := by rw [← h.compare ha hb, heq, compareLex_append_self]
  -- the shorter code with more behind it than the longer one has
  have hmore := h a b ha hb ((s :: rest) ++ [s]) []
  rw [hlt, List.append_nil, heq, ← List.append_assoc, @OrientedCmp.eq_swap _ (List.compareLex c) _,
    compareLex_append_self] at hmore
  cases hmore

theorem of_map {γ : Type} {Q : γ → Prop} {cmp' : γ → γ → Ordering} {enc' : γ → List β} (h : OrderedCode c P cmp enc)
    (f : γ → α) (hP : ∀ g, Q g → P (f g)) (hcmp : ∀ g g', Q g → Q g' → cmp' g g' = cmp (f g) (f g'))
    (henc : ∀ g, Q g → enc' g = enc (f g)) : OrderedCode c Q cmp' enc' := by
  intro g g' hg hg' x y
  rw [henc g hg, henc g' hg', hcmp g g' hg hg']
  exact h (f g) (f g') (hP g hg) (hP g' hg') x y

theorem flatMap {ι : Type} {Q : ι → α → Prop} (h : ∀ i, OrderedCode c (Q i) cmp enc) (is : List ι) :
    OrderedCode c (List.Forall₂ Q is) (List.compareLex cmp) fun as => as.flatMap enc := by
  intro as bs has hbs x y
  induction has generalizing bs with
  | nil =>
    cases hbs
    simp [List.compareLex_nil_nil]
  | cons ha has ih =>
    cases hbs with
    | cons hb hbs =>
      dsimp only at ih ⊢
      rw [List.flatMap_cons, List.flatMap_cons, List.append_assoc, List.append_assoc, h _ _ _ ha hb, ih _ hbs,
        List.compareLex_cons_cons, Ordering.then_assoc]

theorem append {γ : Type} {Q : γ → Prop} {cmp' : γ → γ → Ordering} {enc' : γ → List β} (h : OrderedCode c P cmp enc)
    (h' : OrderedCode c Q cmp' enc') :
    OrderedCode c (fun p : α × γ => P p.1 ∧ Q p.2) (fun p q => (cmp p.1 q.1).then (cmp' p.2 q.2)) fun p =>
    enc p.1 ++ enc' p.2 := by
  rintro ⟨a, g⟩ ⟨b, g'⟩ ⟨ha, hg⟩ ⟨hb, hg'⟩ x y
  rw [List.append_assoc, List.append_assoc, h a b ha hb, h' g g' hg hg', Ordering.then_assoc]

end OrderedCode

theorem compare_div_mod (n a b : Nat) : (compare (a / n) (b / n)).then (compare (a % n) (b % n)) = compare a b := by
  have ha := Nat.div_add_mod a n
  have hb := Nat.div_add_mod b n
  rcases Nat.lt_trichotomy (a / n) (b / n) with h | h | h
  · have hlt : a < b := Nat.lt_of_div_lt_div h
    rw [Nat.compare_eq_lt.mpr h, Nat.compare_eq_lt.mpr hlt]
    rfl
  · rw [h] at ha
    have hlt : a % n < b % n ↔ a < b := by omega
    have hgt : b % n < a % n ↔ b < a := by omega
    rw [Nat.compare_eq_eq.mpr h, Ordering.eq_then, Nat.compare_eq_ite_lt, Nat.compare_eq_ite_lt]
    simp only [hlt, hgt]
  · have hlt : b < a := Nat.lt_of_div_lt_div h
    rw [Nat.compare_eq_gt.mpr h, Nat.compare_eq_gt.mpr hlt]
    rfl

def numeral (b : Nat) (f : Nat → List β) : Nat → Nat → List β
  | 0, _ => []
  | w + 1, n => numeral b f w (n / b) ++ f (n % b)

theorem numeral_ordered {b : Nat} {f : Nat → List β} (hb : 0 < b) (hf : OrderedCode c (· < b) compare f) (w : Nat) :
    OrderedCode c (· < b ^ w) compare (numeral b f w) := by
  induction w with
  | zero =>
    intro m n hm hn x y
    have hm : m = 0 := by simpa using hm
    have hn : n = 0 := by simpa using hn
    subst hm hn
    rfl
  | succ w ih =>
    intro m n hm hn x y
    have hdiv : ∀ n, n < b ^ (w + 1) → n / b < b ^ w := by
      intro n hn
      rw [Nat.pow_succ] at hn
      exact Nat.div_lt_of_lt_mul (Nat.mul_comm _ _ ▸ hn)
    have hdigits :=
      (ih.append hf) (m / b, m % b) (n / b, n % b) ⟨hdiv m hm, Nat.mod_lt _ hb⟩ ⟨hdiv n hn, Nat.mod_lt _ hb⟩ x y
    dsimp only at hdigits
    rw [compare_div_mod] at hdigits
    exact hdigits

theorem length_numeral {b : Nat} {f : Nat → List β} (hf : ∀ d, (f d).length = 1) (w n : Nat) :
    (numeral b f w n).length = w := by
  induction w generalizing n with
  | zero => rfl
  | succ w ih => simp [numeral, ih, hf]

end

/-! ## Escaped strings -/

def escaped (bytes : List UInt8) : List UInt8 := bytes.flatMap (fun b => if b = 0 then [0, 255] else [b]) ++ [0, 0]

abbrev byteCmp : UInt8 → UInt8 → Ordering := compareOn UInt8.toNat

theorem escaped_nil : escaped [] = [0, 0] := rfl

theorem exists_escaped (b : UInt8) (bs : List UInt8) :
    ∃ s, escaped (b :: bs) = b :: s ∧ (b = 0 → s = 255 :: escaped bs) ∧ (b ≠ 0 → s = escaped bs) := by
  unfold escaped
  by_cases hb : b = 0
  · subst hb
    exact ⟨_, rfl, fun _ => rfl, fun h => absurd rfl h⟩
  · exact ⟨_, by simp [hb], fun h => absurd h hb, fun _ => rfl⟩

theorem escaped_ends (b : UInt8) (bs x y : List UInt8) :
    List.compareLex byteCmp (escaped [] ++ x) (escaped (b :: bs) ++ y) = .lt := by
  obtain ⟨s, hs, hzero, -⟩ := exists_escaped b bs
  rw [hs, escaped_nil]
  simp only [List.cons_append, List.compareLex_cons_cons]
  by_cases hb : b = 0
  · rw [hzero hb, hb]
    rfl
  · have hpos : (0 : UInt8).toNat < b.toNat := by
      rw [← UInt8.toNat_inj] at hb
      simp at hb ⊢
      omega
    rw [show byteCmp 0 b = .lt from Nat.compare_eq_lt.mpr hpos]
    rfl

theorem escaped_ordered : OrderedCode byteCmp (fun _ => True) (List.compareLex byteCmp) escaped := by
  intro as bs _ _ x y
  induction as generalizing bs with
  | nil =>
    cases bs with
    | nil => rw [compareLex_append_left, List.compareLex_nil_nil]; rfl
    | cons b bs => rw [escaped_ends, List.compareLex_nil_cons]; rfl
  | cons a as ih =>
    cases bs with
    | nil =>
      rw [@OrientedCmp.eq_swap _ (List.compareLex byteCmp) _, escaped_ends, List.compareLex_cons_nil]
      rfl
    | cons b bs =>
      obtain ⟨s, hs, hzero, hone⟩ := exists_escaped a as
      obtain ⟨t, ht, hzero', hone'⟩ := exists_escaped b bs
      rw [hs, ht, List.cons_append, List.cons_append, List.compareLex_cons_cons, List.compareLex_cons_cons]
      by_cases hab : a = b
      · subst hab
        have hrest : List.compareLex byteCmp (s ++ x) (t ++ y) =
            List.compareLex byteCmp (escaped as ++ x) (escaped bs ++ y) := by
          by_cases ha : a = 0
          · rw [hzero ha, hzero' ha, List.cons_append, List.cons_append, List.compareLex_cons_cons,
              @ReflCmp.compare_self _ byteCmp _ _]
            rfl
          · rw [hone ha, hone' ha]
        rw [hrest, ih bs, @ReflCmp.compare_self _ byteCmp _ _]
        rfl
      · -- the bytes differ, so nothing behind them counts
        have hne : byteCmp a b ≠ .eq := fun h => hab (UInt8.toNat_inj.mp (Nat.compare_eq_eq.mp h))
        cases hc : byteCmp a b with
        | eq => exact absurd hc hne
        | lt => rfl
        | gt => rfl

end Lib
