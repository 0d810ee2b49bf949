import Mathlib.Data.List.Nodup

/-!
# Linked lists in an arena

The cells of a list name their neighbours. A run of cells is linked from what
comes before it to what comes after it, so runs can be taken apart and put
together, and a cell is spliced in or out by changing its neighbours only.
-/

namespace Lib

section

variable {ι : Type} {next prev next' prev' : ι → Option ι}

def Linked (next prev : ι → Option ι) : Option ι → List ι → Option ι → Prop
  | _, [], _ => True
  | before, x :: xs, after => prev x = before ∧ next x = xs.head?.or after ∧ Linked next prev (some x) xs after

theorem linked_append {xs ys : List ι} : ∀ {before after : Option ι}, Linked next prev before (xs ++ ys) after ↔
    Linked next prev before xs (ys.head?.or after) ∧ Linked next prev (xs.getLast?.or before) ys after := by
  induction xs with
  | nil => intro before after; simp [Linked]
  | cons x xs ih =>
    intro before after
    simp only [List.cons_append, Linked, ih, List.head?_append, Option.or_assoc, List.getLast?_cons, Option.some_or]
    cases hl : xs.getLast? with
    | none => simp [and_assoc]
    | some l => simp [and_assoc]

theorem Linked.congr : ∀ {xs : List ι} {before after : Option ι}, Linked next prev before xs after →
    (∀ y ∈ xs, next' y = next y) →
    (∀ y ∈ xs, prev' y = prev y) → Linked next' prev' before xs after
  | [], _, _, _, _, _ => trivial
  | x :: _, _, _, ⟨hp, hn, h⟩, hnext, hprev =>
    ⟨(hprev x List.mem_cons_self).trans hp, (hnext x List.mem_cons_self).trans hn,
      h.congr (fun y hy => hnext y (List.mem_cons_of_mem x hy)) fun y hy => hprev y (List.mem_cons_of_mem x hy)⟩

variable [DecidableEq ι]

theorem Linked.set_after {after' : Option ι} :
    ∀ {xs : List ι} {before after : Option ι}, xs.Nodup → Linked next prev before xs after →
    (∀ y ∈ xs, next' y = if xs.getLast? = some y then after' else next y) → (∀ y ∈ xs, prev' y = prev y) →
    Linked next' prev' before xs after'
  | [], _, _, _, _, _, _ => trivial
  | [x], _, _, _, ⟨hp, _, _⟩, hnext, hprev =>
    ⟨(hprev x List.mem_cons_self).trans hp, by simp [hnext x List.mem_cons_self], trivial⟩
  | x :: y :: xs, _, _, hnd, ⟨hp, hn, h⟩, hnext, hprev => by
    obtain ⟨hx, hnd⟩ := List.nodup_cons.mp hnd
    have hlast : (x :: y :: xs).getLast? = (y :: xs).getLast? := by simp [List.getLast?_cons]
    refine ⟨(hprev x List.mem_cons_self).trans hp, ?_, h.set_after hnd (fun z hz => ?_) fun z hz =>
      hprev z (List.mem_cons_of_mem x hz)⟩
    · rw [hnext x List.mem_cons_self, hlast, if_neg fun he => hx (List.mem_of_getLast? he), hn]
      rfl
    · rw [hnext z (List.mem_cons_of_mem x hz), hlast]

theorem Linked.set_before {before' : Option ι} {xs : List ι} {before after : Option ι} (hnd : xs.Nodup)
    (h : Linked next prev before xs after) (hnext : ∀ y ∈ xs, next' y = next y)
    (hprev : ∀ y ∈ xs, prev' y = if xs.head? = some y then before' else prev y) :
    Linked next' prev' before' xs after := by
  cases xs with
  | nil => trivial
  | cons x xs =>
    obtain ⟨hx, -⟩ := List.nodup_cons.mp hnd
    obtain ⟨hp, hn, h⟩ := h
    refine ⟨by simp [hprev x List.mem_cons_self], (hnext x List.mem_cons_self).trans hn,
      h.congr (fun y hy => hnext y (List.mem_cons_of_mem x hy)) fun y hy => ?_⟩
    have hne : (x :: xs).head? ≠ some y := by
      rintro he
      cases he
      exact hx hy
    rw [hprev y (List.mem_cons_of_mem x hy), if_neg hne]

variable {as bs : List ι} {x : ι}

omit [DecidableEq ι] in
theorem Linked.neighbours (h : Linked next prev none (as ++ x :: bs) none) :
    prev x = as.getLast? ∧ next x = bs.head? := by
  obtain ⟨-, hp, hn, -⟩ := linked_append.mp h
  exact ⟨by simpa using hp, by simpa using hn⟩

theorem Linked.detach (hnd : (as ++ x :: bs).Nodup) (h : Linked next prev none (as ++ x :: bs) none)
    (hnext : ∀ y ∈ as ++ bs, next' y = if as.getLast? = some y then bs.head? else next y)
    (hprev : ∀ y ∈ as ++ bs, prev' y = if bs.head? = some y then as.getLast? else prev y) :
    Linked next' prev' none (as ++ bs) none := by
  obtain ⟨hndas, hndbs, hdisj⟩ := List.nodup_append.mp hnd
  obtain ⟨hx, hndbs⟩ := List.nodup_cons.mp hndbs
  obtain ⟨has, -, -, hbs⟩ := linked_append.mp h
  have hout : ∀ y ∈ as, y ∉ bs := fun y hy hb => hdisj y hy y (List.mem_cons_of_mem x hb) rfl
  refine linked_append.mpr ⟨?_, ?_⟩
  · refine has.set_after hndas (fun y hy => ?_) fun y hy => ?_
    · rw [hnext y (List.mem_append_left _ hy), Option.or_none]
    · rw [hprev y (List.mem_append_left _ hy), if_neg fun he => hout y hy (List.mem_of_head? he)]
  · refine hbs.set_before hndbs (fun y hy => ?_) fun y hy => ?_
    · rw [hnext y (List.mem_append_right _ hy), if_neg fun he => hout y (List.mem_of_getLast? he) hy]
    · rw [hprev y (List.mem_append_right _ hy), Option.or_none]

theorem Linked.insert (hnd : (as ++ x :: bs).Nodup) (h : Linked next prev none (as ++ bs) none)
    (hnx : next' x = bs.head?) (hpx : prev' x = as.getLast?)
    (hnext : ∀ y ∈ as ++ bs, next' y = if as.getLast? = some y then some x else next y)
    (hprev : ∀ y ∈ as ++ bs, prev' y = if bs.head? = some y then some x else prev y) :
    Linked next' prev' none (as ++ x :: bs) none := by
  obtain ⟨hndas, hndbs, hdisj⟩ := List.nodup_append.mp hnd
  obtain ⟨hx, hndbs⟩ := List.nodup_cons.mp hndbs
  obtain ⟨has, hbs⟩ := linked_append.mp h
  have hout : ∀ y ∈ as, y ∉ bs := fun y hy hb => hdisj y hy y (List.mem_cons_of_mem x hb) rfl
  refine linked_append.mpr ⟨?_, ?_, ?_, ?_⟩
  · refine has.set_after hndas (fun y hy => ?_) fun y hy => ?_
    · rw [hnext y (List.mem_append_left _ hy)]
      rfl
    · rw [hprev y (List.mem_append_left _ hy), if_neg fun he => hout y hy (List.mem_of_head? he)]
  · rw [hpx, Option.or_none]
  · rw [hnx, Option.or_none]
  · refine hbs.set_before hndbs (fun y hy => ?_) fun y hy => hprev y (List.mem_append_right _ hy)
    rw [hnext y (List.mem_append_right _ hy), if_neg fun he => hout y (List.mem_of_getLast? he) hy]

end

end Lib
