import Mathlib.Data.List.Forall2
import Mathlib.Tactic.Common

/-!
# Folding rows by group

A loop that may fail folds each row into the entry of its key, starting a new
entry when there is none. `Grouped` says what the entries are after some rows:
one for each key met, holding the fold over the rows with that key. Keys are
compared with an equivalence that need not be equality.
-/

namespace Lib

/-! ## Loops that fail -/

@[simp] theorem ok_bind {α β ε : Type} (a : α) (f : α → Except ε β) : (Except.ok a >>= f) = f a := rfl

@[simp] theorem error_bind {α β ε : Type} (e : ε) (f : α → Except ε β) : (Except.error e >>= f) = .error e := rfl

theorem bind_eq_ok {α β ε : Type} {x : Except ε α} {f : α → Except ε β} {b : β} (h : x >>= f = .ok b) :
    ∃ a, x = .ok a ∧ f a = .ok b := by
  cases x with
  | error e => cases h
  | ok a => exact ⟨a, rfl, h⟩

section
variable {ρ β ε : Type} {f : β → ρ → Except ε β}

theorem foldlM_append_ok {b : β} {p rest : List ρ} {b' : β} (h : p.foldlM f b = .ok b') :
    (p ++ rest).foldlM f b = rest.foldlM f b' := by
  rw [List.foldlM_append, h]
  rfl

theorem foldlM_concat {b b' : β} {p : List ρ} {r : ρ} (h : p.foldlM f b = .ok b') :
    (p ++ [r]).foldlM f b = f b' r := by
  rw [foldlM_append_ok h, List.foldlM_cons]
  cases f b' r <;> rfl

/-- A loop that failed did so at one row, after the rows before it went through. -/
theorem foldlM_error {rows : List ρ} {b : β} {e : ε} (h : rows.foldlM f b = .error e) :
    ∃ p r rest b', rows = p ++ r :: rest ∧ p.foldlM f b = .ok b' ∧ f b' r = .error e := by
  induction rows generalizing b with
  | nil => cases h
  | cons r rows ih =>
    rw [List.foldlM_cons] at h
    cases hr : f b r with
    | error e' =>
      rw [hr] at h
      cases h
      exact ⟨[], r, rows, b, rfl, rfl, hr⟩
    | ok b₁ =>
      rw [hr] at h
      obtain ⟨p, r', rest, b', rfl, hp, he⟩ := ih h
      refine ⟨r :: p, r', rest, b', rfl, ?_, he⟩
      rw [List.foldlM_cons, hr]
      exact hp

theorem foldlM_left_ok {p rest : List ρ} {b b' : β} (h : (p ++ rest).foldlM f b = .ok b') :
    ∃ b₁, p.foldlM f b = .ok b₁ ∧ rest.foldlM f b₁ = .ok b' := by
  rw [List.foldlM_append] at h
  cases hp : p.foldlM f b with
  | error e => rw [hp] at h; cases h
  | ok b₁ => rw [hp] at h; exact ⟨b₁, rfl, h⟩

theorem foldlM_same_or {g : β → ρ → Except ε β} {e : ε} (h : ∀ b r, f b r = g b r ∨ f b r = .error e)
    (rows : List ρ) (b : β) :
    rows.foldlM f b = rows.foldlM g b ∨ rows.foldlM f b = .error e := by
  induction rows generalizing b with
  | nil => exact .inl rfl
  | cons r rows ih =>
    rw [List.foldlM_cons, List.foldlM_cons]
    rcases h b r with hr | hr
    · rw [hr]
      cases g b r with
      | error e' => exact .inl rfl
      | ok b' => exact ih b'
    · rw [hr]
      exact .inr rfl

theorem foldlM_error_append {p : List ρ} {b : β} {e : ε} (h : p.foldlM f b = .error e) (rest : List ρ) :
    (p ++ rest).foldlM f b = .error e := by
  rw [List.foldlM_append, h]
  rfl

end

section
variable {α γ ε : Type} {f : α → Except ε γ}

theorem mapM_eq_ok {l : List α} {out : List γ} :
    l.mapM f = .ok out ↔ List.Forall₂ (fun a c => f a = .ok c) l out := by
  induction l generalizing out with
  | nil =>
    rw [List.forall₂_nil_left_iff]
    refine ⟨?_, ?_⟩
    · intro h
      cases h
      rfl
    · intro h
      subst h
      rfl
  | cons a l ih =>
    rw [List.mapM_cons, List.forall₂_cons_left_iff]
    refine ⟨?_, ?_⟩
    · intro h
      obtain ⟨c, hc, h⟩ := bind_eq_ok h
      obtain ⟨cs, hcs, h⟩ := bind_eq_ok h
      cases h
      exact ⟨c, cs, hc, ih.mp hcs, rfl⟩
    · intro h
      obtain ⟨c, cs, hc, hcs, rfl⟩ := h
      rw [hc, ih.mpr hcs]
      rfl

theorem mapM_eq_some {f : α → Option γ} {l : List α} {out : List γ} :
    l.mapM f = some out ↔ List.Forall₂ (fun a c => f a = some c) l out := by
  induction l generalizing out with
  | nil => rw [List.forall₂_nil_left_iff, List.mapM_nil, Option.pure_def, Option.some.injEq, eq_comm]
  | cons a l ih =>
    rw [List.mapM_cons, List.forall₂_cons_left_iff, Option.bind_eq_bind, Option.bind_eq_some_iff]
    refine exists_congr fun c => ?_
    simp only [Option.bind_eq_bind, Option.bind_eq_some_iff, ih, Option.pure_def, Option.some.injEq]
    tauto

theorem mapM_congr {l : List α} {g : α → Except ε γ} (h : ∀ a ∈ l, f a = g a) : l.mapM f = l.mapM g := by
  induction l with
  | nil => rfl
  | cons a l ih =>
    rw [List.mapM_cons, List.mapM_cons, h a (by simp), ih fun b hb => h b (by simp [hb])]

theorem mapM_map_ok {l : List α} {g : α → γ} (h : ∀ a ∈ l, f a = .ok (g a)) : l.mapM f = .ok (l.map g) := by
  rw [mapM_eq_ok, List.forall₂_map_right_iff, List.forall₂_same]
  exact h

theorem mapM_ok_mem {l : List α} {out : List γ} (h : l.mapM f = .ok out) {a : α} (ha : a ∈ l) :
    ∃ c, f a = .ok c := by
  have hf := mapM_eq_ok.mp h
  induction hf with
  | nil => cases ha
  | cons hc hs ih =>
    rcases List.mem_cons.mp ha with rfl | ha
    · exact ⟨_, hc⟩
    · exact ih (mapM_eq_ok.mpr hs) ha

theorem mapM_eq_error {l : List α} {e : ε} (h : l.mapM f = .error e) :
    ∃ p a rest out, l = p ++ a :: rest ∧ p.mapM f = .ok out ∧ f a = .error e := by
  induction l with
  | nil => cases h
  | cons a l ih =>
    rw [List.mapM_cons] at h
    cases ha : f a with
    | error e' =>
      rw [ha] at h
      cases h
      exact ⟨[], a, l, [], rfl, rfl, ha⟩
    | ok c =>
      rw [ha, ok_bind] at h
      cases hl : l.mapM f with
      | ok cs => rw [hl] at h; cases h
      | error e' =>
        rw [hl] at h
        cases h
        obtain ⟨p, b, rest, out, rfl, hp, hb⟩ := ih hl
        exact ⟨a :: p, b, rest, c :: out, rfl, by rw [List.mapM_cons, ha, hp]; rfl, hb⟩

end

/-! ## Entries -/

variable {κ ρ β ε : Type} [BEq κ]

def upsert (new : β) (f : β → Except ε β) (k : κ) : List (κ × β) → Except ε (List (κ × β))
  | [] => (f new).map fun b => [(k, b)]
  | (k', b) :: rest =>
    if k == k' then (f b).map fun b => (k', b) :: rest else (upsert new f k rest).map fun rest => (k', b) :: rest

inductive Entry (new : β) (k : κ) : List (κ × β) → List (κ × β) → κ → β → List (κ × β) → Prop where
  | found (l r : List (κ × β)) (k' : κ) (b : β) : (∀ g ∈ l, ¬ k == g.1) → k == k' →
      Entry new k (l ++ (k', b) :: r) l k' b r
  | fresh (l : List (κ × β)) : (∀ g ∈ l, ¬ k == g.1) → Entry new k l l k new []

theorem upsert_eq (new : β) (f : β → Except ε β) (k : κ) (groups : List (κ × β)) :
    ∃ l k' b r, Entry new k groups l k' b r ∧ upsert new f k groups = (f b).map fun b' => l ++ (k', b') :: r := by
  induction groups with
  | nil => exact ⟨[], k, new, [], .fresh [] (by simp), rfl⟩
  | cons g groups ih =>
    obtain ⟨k₁, b₁⟩ := g
    by_cases hk : k == k₁
    · exact ⟨[], k₁, b₁, groups, .found [] groups k₁ b₁ (by simp) hk, by simp [upsert, hk]⟩
    · obtain ⟨l, k', b, r, he, hu⟩ := ih
      refine ⟨(k₁, b₁) :: l, k', b, r, ?_, ?_⟩
      · cases he with
        | found _ _ _ _ hl hk' => exact .found ((k₁, b₁) :: l) r k' b (by simpa [hk] using hl) hk'
        | fresh _ hl => exact .fresh ((k₁, b₁) :: groups) (by simpa [hk] using hl)
      · rw [upsert, if_neg hk, hu]
        cases f b <;> rfl

theorem upsert_same_or (new : β) {f g : β → Except ε β} {e : ε} (h : ∀ b, f b = g b ∨ f b = .error e) (k : κ)
    (groups : List (κ × β)) : upsert new f k groups = upsert new g k groups ∨ upsert new f k groups = .error e := by
  induction groups with
  | nil =>
    rw [upsert, upsert]
    rcases h new with h | h <;> simp [h, Except.map]
  | cons p groups ih =>
    obtain ⟨k', b⟩ := p
    rw [upsert, upsert]
    split
    · rcases h b with h | h <;> simp [h, Except.map]
    · rcases ih with h | h <;> simp [h, Except.map]

/-! ## Groups -/

section
variable (keyOf : ρ → Except ε κ) (new : β) (put : β → ρ → Except ε β)

def groupStep (groups : List (κ × β)) (r : ρ) : Except ε (List (κ × β)) :=
  match keyOf r with
  | .error e => .error e
  | .ok k => upsert new (fun b => put b r) k groups

def hasKey (k : κ) (r : ρ) : Bool :=
  match keyOf r with
  | .error _ => false
  | .ok k' => k == k'

def members (rows : List ρ) (k : κ) : List ρ := rows.filter (hasKey keyOf k)

structure Grouped (rows : List ρ) (groups : List (κ × β)) : Prop where
  distinct : groups.Pairwise fun a b => ¬ a.1 == b.1
  folded : ∀ g ∈ groups, (members keyOf rows g.1).foldlM put new = .ok g.2
  covered : ∀ r ∈ rows, ∃ g ∈ groups, hasKey keyOf g.1 r
  present : ∀ g ∈ groups, ∃ r ∈ rows, keyOf r = .ok g.1

variable {keyOf new put}

theorem hasKey_ok {k k' : κ} {r : ρ} (h : keyOf r = .ok k') : hasKey keyOf k r = (k == k') := by
  simp [hasKey, h]

theorem grouped_nil : Grouped keyOf new put [] ([] : List (κ × β)) :=
  ⟨.nil, by simp, by simp, by simp⟩

theorem members_concat_self {r : ρ} {k : κ} (h : hasKey keyOf k r) (rows : List ρ) :
    members keyOf (rows ++ [r]) k = members keyOf rows k ++ [r] := by
  simp [members, h]

theorem members_concat_other {r : ρ} {k : κ} (h : ¬ hasKey keyOf k r) (rows : List ρ) :
    members keyOf (rows ++ [r]) k = members keyOf rows k := by
  simp [members, h]

variable [EquivBEq κ]

theorem Entry.others {groups l rest : List (κ × β)} {k k' : κ} {b : β} (he : Entry new k groups l k' b rest)
    (hd : groups.Pairwise fun a b => ¬ a.1 == b.1) : ∀ g ∈ l ++ rest, g ∈ groups ∧ ¬ g.1 == k' := by
  intro g hg
  cases he with
  | found _ _ _ _ hl hk' =>
    obtain ⟨hd₁, hd₂, hd₃⟩ := List.pairwise_append.mp hd
    rw [List.pairwise_cons] at hd₂
    rcases List.mem_append.mp hg with hg | hg
    · exact ⟨by simp [hg], hd₃ g hg (k', b) (by simp)⟩
    · refine ⟨by simp [hg], ?_⟩
      intro hc
      exact hd₂.1 g hg (BEq.symm hc)
  | fresh _ hl =>
    rw [List.append_nil] at hg
    refine ⟨hg, ?_⟩
    intro hc
    exact hl g hg (BEq.symm hc)

theorem Entry.distinct {groups l rest : List (κ × β)} {k k' : κ} {b : β} (he : Entry new k groups l k' b rest)
    (hd : groups.Pairwise fun a b => ¬ a.1 == b.1) (b' : β) :
    (l ++ (k', b') :: rest).Pairwise fun a b => ¬ a.1 == b.1 := by
  have ho := he.others hd
  rw [List.pairwise_append, List.pairwise_cons]
  cases he with
  | found _ _ _ _ hl hk' =>
    rw [List.pairwise_append, List.pairwise_cons] at hd
    refine ⟨hd.1, ⟨hd.2.1.1, hd.2.1.2⟩, ?_⟩
    intro g hg g' hg'
    rcases List.mem_cons.mp hg' with rfl | hg'
    · exact (ho g (by simp [hg])).2
    · exact hd.2.2 g hg g' (by simp [hg'])
  | fresh _ hl =>
    refine ⟨hd, ⟨by simp, .nil⟩, ?_⟩
    intro g hg g' hg'
    obtain rfl : g' = (k, b') := by simpa using hg'
    exact (ho g (by simp [hg])).2

theorem hasKey_congr {k k' : κ} (h : k == k') : hasKey keyOf k = hasKey keyOf k' := by
  funext r
  unfold hasKey
  split
  · rfl
  · exact BEq.congr_left h

theorem members_congr {k k' : κ} (h : k == k') (rows : List ρ) : members keyOf rows k = members keyOf rows k' := by
  rw [members, members, hasKey_congr h]

theorem Grouped.members_fresh {rows : List ρ} {groups : List (κ × β)}
    (h : Grouped keyOf new put rows groups) {k : κ} (hk : ∀ g ∈ groups, ¬ k == g.1) :
    members keyOf rows k = [] := by
  apply List.filter_eq_nil_iff.mpr
  intro r hr hkey
  obtain ⟨g, hg, hgr⟩ := h.covered r hr
  unfold hasKey at hkey hgr
  split at hkey
  · cases hkey
  · rename_i k' hk'
    rw [hk'] at hgr
    exact hk g hg (BEq.trans hkey (BEq.symm hgr))

/-- The state a row is folded into is the fold over the rows of its group before it. -/
theorem Grouped.entry {rows : List ρ} {groups : List (κ × β)} (h : Grouped keyOf new put rows groups)
    {k k' : κ} {b : β} {l rest : List (κ × β)} (he : Entry new k groups l k' b rest) :
    k == k' ∧ (members keyOf rows k).foldlM put new = .ok b := by
  cases he with
  | found _ _ _ _ hl hk' =>
    refine ⟨hk', ?_⟩
    rw [members_congr hk']
    exact h.folded (k', b) (by simp)
  | fresh _ hl =>
    refine ⟨BEq.rfl, ?_⟩
    rw [h.members_fresh hl]
    rfl

theorem Grouped.next {rows : List ρ} {groups groups' : List (κ × β)} (h : Grouped keyOf new put rows groups) {r : ρ}
    (hs : groupStep keyOf new put groups r = .ok groups') : Grouped keyOf new put (rows ++ [r]) groups' := by
  unfold groupStep at hs
  split at hs
  case h_1 => cases hs
  case h_2 k hk =>
    obtain ⟨l, k', b, rest, he, hu⟩ := upsert_eq new (fun b => put b r) k groups
    rw [hu] at hs
    obtain ⟨hkk, hb⟩ := h.entry he
    cases hf : put b r with
    | error e => rw [hf] at hs; cases hs
    | ok b' =>
      rw [hf] at hs
      cases hs
      have hown : hasKey keyOf k' r := by rw [hasKey_ok hk]; exact BEq.symm hkk
      have ho := he.others h.distinct
      have hmem : ∀ g ∈ l ++ (k', b') :: rest, g = (k', b') ∨ g ∈ l ++ rest := by
        intro g hg
        simp only [List.mem_append, List.mem_cons] at hg ⊢
        tauto
      refine ⟨he.distinct h.distinct b', ?_, ?_, ?_⟩
      · intro g hg
        rcases hmem g hg with rfl | hg
        · rw [members_concat_self hown, ← members_congr hkk, foldlM_concat hb, hf]
        · have hne : ¬ hasKey keyOf g.1 r := by
            rw [hasKey_ok hk]
            intro hc
            exact (ho g hg).2 (BEq.trans hc hkk)
          rw [members_concat_other hne]
          exact h.folded g (ho g hg).1
      · intro r' hr'
        rcases List.mem_append.mp hr' with hr' | hr'
        · obtain ⟨g, hg, hgr⟩ := h.covered r' hr'
          cases he with
          | found =>
            rcases List.mem_append.mp hg with hg | hg
            · exact ⟨g, by simp [hg], hgr⟩
            · rcases List.mem_cons.mp hg with rfl | hg
              · exact ⟨(k', b'), by simp, hgr⟩
              · exact ⟨g, by simp [hg], hgr⟩
          | fresh => exact ⟨g, by simp [hg], hgr⟩
        · obtain rfl : r' = r := by simpa using hr'
          exact ⟨(k', b'), by simp, hown⟩
      · intro g hg
        rcases hmem g hg with rfl | hg
        · cases he with
          | found =>
            obtain ⟨r', hr', hk'⟩ := h.present (k', b) (by simp)
            exact ⟨r', by simp [hr'], hk'⟩
          | fresh => exact ⟨r, by simp, hk⟩
        · obtain ⟨r', hr', hk'⟩ := h.present g (ho g hg).1
          exact ⟨r', by simp [hr'], hk'⟩

theorem Grouped.run {rows₀ rows : List ρ} {groups₀ groups : List (κ × β)} (h : Grouped keyOf new put rows₀ groups₀)
    (hr : rows.foldlM (groupStep keyOf new put) groups₀ = .ok groups) :
    Grouped keyOf new put (rows₀ ++ rows) groups := by
  induction rows generalizing rows₀ groups₀ with
  | nil =>
    cases hr
    simpa using h
  | cons r rows ih =>
    rw [List.foldlM_cons] at hr
    cases hs : groupStep keyOf new put groups₀ r with
    | error e => rw [hs] at hr; cases hr
    | ok groups₁ =>
      rw [hs] at hr
      have := ih (h.next hs) hr
      rwa [List.append_assoc] at this

/-- What one row does: it has no key, or it is folded into the entry of its group, which may fail. -/
theorem Grouped.cases {rows : List ρ} {groups : List (κ × β)} (h : Grouped keyOf new put rows groups) (r : ρ) :
    (∃ e, keyOf r = .error e ∧ groupStep keyOf new put groups r = .error e) ∨
    ∃ k b, keyOf r = .ok k ∧ (members keyOf rows k).foldlM put new = .ok b ∧
      ((∃ e, put b r = .error e ∧ groupStep keyOf new put groups r = .error e) ∨
        ∃ b' groups', put b r = .ok b' ∧ groupStep keyOf new put groups r = .ok groups') := by
  unfold groupStep
  cases hk : keyOf r with
  | error e => exact .inl ⟨e, rfl, rfl⟩
  | ok k =>
    right
    obtain ⟨l, k', b, rest, he, hu⟩ := upsert_eq new (fun b => put b r) k groups
    refine ⟨k, b, rfl, (h.entry he).2, ?_⟩
    dsimp only
    rw [hu]
    cases hf : put b r with
    | error e => exact .inl ⟨e, rfl, rfl⟩
    | ok b' => exact .inr ⟨b', _, rfl, rfl⟩

end

end Lib
