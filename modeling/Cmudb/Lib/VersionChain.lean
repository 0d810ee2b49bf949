import Mathlib.Tactic.Common

/-!
# Version chains

The versions of one item, newest first, as a list. A reader takes the first
version it accepts. `cutThrough p` drops what lies behind the first version
that meets `p`: readers that accept everything meeting `p` do not notice.
-/

namespace Lib

universe u
variable {α : Type u}

def cutThrough (p : α → Bool) : List α → List α
  | [] => []
  | a :: l => if p a then [a] else a :: cutThrough p l

theorem cutThrough_isPrefix (p : α → Bool) : ∀ l : List α, cutThrough p l <+: l
  | [] => List.prefix_refl _
  | a :: l => by
    simp only [cutThrough]
    split
    · exact ⟨l, rfl⟩
    · obtain ⟨t, ht⟩ := cutThrough_isPrefix p l
      exact ⟨t, by rw [List.cons_append, ht]⟩

theorem cutThrough_cons (p : α → Bool) (a : α) (l : List α) :
    ∃ l', cutThrough p (a :: l) = a :: l' ∧ l' <+: l := by
  simp only [cutThrough]
  split
  · exact ⟨[], rfl, List.nil_prefix⟩
  · exact ⟨_, rfl, cutThrough_isPrefix p l⟩

/-- What is dropped lies behind a version that meets `p`, and no version kept before it does. -/
theorem cutThrough_split (p : α → Bool) : ∀ l : List α, ∃ older, l = cutThrough p l ++ older ∧
    (older ≠ [] → ∃ a, (cutThrough p l).getLast? = some a ∧ p a = true) ∧
    ∀ a ∈ (cutThrough p l).dropLast, p a = false
  | [] => ⟨[], rfl, fun h => absurd rfl h, fun _ h => absurd h List.not_mem_nil⟩
  | a :: l => by
    obtain ⟨older, hl, hlast, hfirst⟩ := cutThrough_split p l
    simp only [cutThrough]
    split
    · rename_i hp
      exact ⟨l, rfl, fun _ => ⟨a, rfl, hp⟩, fun _ h => absurd h List.not_mem_nil⟩
    · rename_i hp
      refine ⟨older, by rw [List.cons_append, ← hl], fun hne => ?_, fun b hb => ?_⟩
      · obtain ⟨b, hb, hpb⟩ := hlast hne
        refine ⟨b, ?_, hpb⟩
        rw [List.getLast?_cons, hb]
        rfl
      · cases hc : cutThrough p l with
        | nil =>
          rw [hc] at hb
          cases hb
        | cons c cs =>
          rw [hc, List.dropLast_cons_cons, ← hc] at hb
          rcases List.mem_cons.mp hb with rfl | hb
          · exact Bool.eq_false_iff.mpr hp
          · exact hfirst b hb

theorem find?_cutThrough {p q : α → Bool} (h : ∀ a, p a = true → q a = true) :
    ∀ l : List α, (cutThrough p l).find? q = l.find? q
  | [] => rfl
  | a :: l => by
    simp only [cutThrough]
    split
    · rename_i hp
      simp [h a hp]
    · rw [List.find?_cons, List.find?_cons, find?_cutThrough h l]

end Lib
