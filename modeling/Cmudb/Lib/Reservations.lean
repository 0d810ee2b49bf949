import Mathlib.Tactic.Common

/-!
# Keys that at most one row may hold

Actors claim keys for rows before a publication makes their claims the newest
state of those rows. `Unique` says that no two rows have one key in the newest
state, and enough about the claims for this to survive every publication. A row
is `Clear` of a key for an actor when the actor may claim the key elsewhere. The
lemmas say which changes keep both.
-/

namespace Lib

universe u v w

structure Reservations (τ : Type u) (ρ : Type v) (κ : Type w) where
  active : τ → Prop
  /-- The actor alone decides what the row's next newest key is. -/
  holds : τ → ρ → Prop
  claims : τ → ρ → κ → Prop
  newest : ρ → Option κ
  /-- Rows whose holder is about to publish, and whose newest key was taken as given up. -/
  skipped : ρ → Prop

namespace Reservations

section
variable {τ : Type u} {ρ : Type v} {κ : Type w}

structure Unique (s : Reservations τ ρ κ) : Prop where
  newest : ∀ {r q k}, s.newest r = some k → s.newest q = some k → r = q
  claimed : ∀ {t u r q k}, s.claims t r k → s.claims u q k → r = q
  apart : ∀ {t r q k}, s.claims t r k → s.newest q = some k → q = r ∨ s.holds t q ∨ s.skipped q

structure Clear (s : Reservations τ ρ κ) (t : τ) (k : κ) (r : ρ) : Prop where
  unclaimed : ∀ u, ¬ s.claims u r k
  given : s.newest r = some k → s.holds t r ∨ s.skipped r

/-- Nothing is published, and the only new claims are those of `new`. -/
structure Moves (new : τ → ρ → κ → Prop) (s s' : Reservations τ ρ κ) : Prop where
  claims : ∀ {t r k}, s'.claims t r k → s.claims t r k ∨ new t r k
  actor : ∀ {t r k}, s'.claims t r k → s'.active t
  newest : ∀ r, s'.newest r = s.newest r
  holds : ∀ {t r}, s'.active t → s.holds t r → s'.holds t r
  skipped : ∀ {r}, s.skipped r → s'.skipped r

/-- What `t₀` claims becomes the newest state of the rows it holds. -/
structure Publishes (t₀ : τ) (s s' : Reservations τ ρ κ) : Prop where
  claims : ∀ {t r k}, s'.claims t r k → t ≠ t₀ ∧ s.claims t r k
  actor : ∀ {t r k}, s'.claims t r k → s'.active t
  newest : ∀ {r k}, s'.newest r = some k → s.claims t₀ r k ∨ ¬ s.holds t₀ r ∧ s.newest r = some k
  holds : ∀ {t r}, t ≠ t₀ → s.holds t r → s'.holds t r
  skipped : ∀ {r}, s.skipped r → s.holds t₀ r

variable {s s' : Reservations τ ρ κ} {new : τ → ρ → κ → Prop} {t t₀ : τ} {r : ρ} {k : κ}

theorem Clear.moves (hc : Clear s t k r) (hm : Moves new s s') (ht : s'.active t) (hnot : ∀ u, ¬ new u r k) :
    Clear s' t k r := by
  constructor
  · intro u hu
    rcases hm.claims hu with h | h
    · exact hc.unclaimed u h
    · exact hnot u h
  · intro hn
    rw [hm.newest] at hn
    rcases hc.given hn with h | h
    · exact .inl (hm.holds ht h)
    · exact .inr (hm.skipped h)

theorem Unique.moves (h : Unique s) (hm : Moves new s s')
    (hclear : ∀ {t r k}, new t r k → ∀ q, q ≠ r → Clear s t k q)
    (hone : ∀ {t u r q k}, new t r k → new u q k → r = q) : Unique s' := by
  constructor
  · intro r q k hr hq
    rw [hm.newest] at hr hq
    exact h.newest hr hq
  · intro t u r q k hr hq
    by_contra hne
    rcases hm.claims hr with hr | hr
    · rcases hm.claims hq with hq | hq
      · exact hne (h.claimed hr hq)
      · exact (hclear hq r hne).unclaimed t hr
    · rcases hm.claims hq with hq | hq
      · exact (hclear hr q (Ne.symm hne)).unclaimed u hq
      · exact hne (hone hr hq)
  · intro t r q k hr hq
    rw [hm.newest] at hq
    have hkeep : s.holds t q ∨ s.skipped q → s'.holds t q ∨ s'.skipped q :=
      Or.imp (hm.holds (hm.actor hr)) hm.skipped
    rcases hm.claims hr with hold | hnew
    · exact (h.apart hold hq).imp_right hkeep
    · by_cases hqr : q = r
      · exact .inl hqr
      · exact .inr (hkeep ((hclear hnew q hqr).given hq))

theorem Clear.publishes (hc : Clear s t k r) (hp : Publishes t₀ s s') (ht : t ≠ t₀) : Clear s' t k r := by
  constructor
  · intro u hu
    exact hc.unclaimed u (hp.claims hu).2
  · intro hn
    rcases hp.newest hn with h | ⟨hnot, hn⟩
    · exact absurd h (hc.unclaimed t₀)
    · rcases hc.given hn with h | h
      · exact .inl (hp.holds ht h)
      · exact absurd (hp.skipped h) hnot

theorem Unique.publishes (h : Unique s) (hp : Publishes t₀ s s') : Unique s' := by
  have key : ∀ {r q k}, s.claims t₀ r k → ¬ s.holds t₀ q → s.newest q = some k → q = r := by
    intro r q k hr hnot hq
    rcases h.apart hr hq with h | h | h
    · exact h
    · exact absurd h hnot
    · exact absurd (hp.skipped h) hnot
  constructor
  · intro r q k hr hq
    rcases hp.newest hr with hr | ⟨hnr, hr⟩ <;> rcases hp.newest hq with hq | ⟨hnq, hq⟩
    · exact h.claimed hr hq
    · exact (key hr hnq hq).symm
    · exact key hq hnr hr
    · exact h.newest hr hq
  · intro t u r q k hr hq
    exact h.claimed (hp.claims hr).2 (hp.claims hq).2
  · intro t r q k hr hq
    obtain ⟨hne, hr⟩ := hp.claims hr
    rcases hp.newest hq with hq | ⟨hnot, hq⟩
    · exact .inl (h.claimed hq hr)
    · rcases h.apart hr hq with h | h | h
      · exact .inl h
      · exact .inr (.inl (hp.holds hne h))
      · exact absurd (hp.skipped h) hnot

/-- The actor has the key at `r`: it claims it there, or `r` has it in the newest state and
nobody is about to change that. -/
def Has (s : Reservations τ ρ κ) (t : τ) (k : κ) (r : ρ) : Prop :=
  s.claims t r k ∨ s.newest r = some k ∧ (∀ u, ¬ s.holds u r) ∧ ¬ s.skipped r

theorem Has.clear (hh : Has s t k r) (h : Unique s) {q : ρ} (hq : q ≠ r) : Clear s t k q := by
  rcases hh with hc | ⟨hn, hfree, hns⟩
  · refine ⟨fun u hu => hq (h.claimed hu hc), fun hn => ?_⟩
    exact (h.apart hc hn).resolve_left hq
  · refine ⟨fun u hu => ?_, fun hn' => absurd (h.newest hn' hn) hq⟩
    rcases h.apart hu hn with h | h | h
    · exact hq h.symm
    · exact hfree u h
    · exact hns h

theorem Has.not_clear (hh : Has s t k r) {u : τ} (hc : Clear s u k r) : False := by
  rcases hh with hcl | ⟨hn, hfree, hns⟩
  · exact hc.unclaimed t hcl
  · rcases hc.given hn with h | h
    · exact hfree u h
    · exact hns h

end

end Reservations

end Lib
