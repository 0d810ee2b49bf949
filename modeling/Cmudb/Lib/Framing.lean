import Mathlib.Data.List.TakeDrop
import Mathlib.Tactic.Common

/-!
# Records one after the other

A log is the encodings of its records, one after the other. A reader decodes the
record at its position, moves past it, and stops where it finds none. When all
that the reader accepts past some point are records written there, it finds a
first part of the log: just the records that are whole.
-/

namespace Lib

universe u v w

/-- How records are written, and how a reader sees them at an offset. `dec` reads the record a
string starts with, and tells its length. -/
structure Framing (ρ : Type u) (δ : Type v) (β : Type w) where
  enc : ρ → List β
  dec : Nat → List β → Option (δ × Nat)
  view : Nat → ρ → δ

namespace Framing

section
variable {ρ : Type u} {δ : Type v} {β : Type w} (F : Framing ρ δ β)

def encAll (rs : List ρ) : List β := rs.flatMap F.enc

def scan : Nat → Nat → List β → List δ
  | 0, _, _ => []
  | fuel + 1, o, bs =>
    match F.dec o bs with
    | none => []
    | some (d, n) => d :: scan fuel (o + n) (bs.drop n)

def views : Nat → List ρ → List δ
  | _, [] => []
  | o, r :: rs => F.view o r :: views (o + (F.enc r).length) rs

structure Sound (ok : ρ → Prop) : Prop where
  nonempty : ∀ r, F.enc r ≠ []
  reads : ∀ {r}, ok r → ∀ o rest, F.dec o (F.enc r ++ rest) = some (F.view o r, (F.enc r).length)

/-- What the reader finds lies within what it was given, and stays found when more follows. -/
structure Local : Prop where
  inside : ∀ {o : Nat} {bs : List β} {d : δ} {n : Nat}, F.dec o bs = some (d, n) → 0 < n ∧ n ≤ bs.length
  stays : ∀ {o : Nat} {bs : List β} {d : δ} {n : Nat}, F.dec o bs = some (d, n) →
    ∀ rest, F.dec o (bs ++ rest) = some (d, n)

/-- From position `k₀` on, the reader accepts records of the log only, where they were written. -/
def OnlyWritten (start : Nat) (rs : List ρ) (bs : List β) (k₀ : Nat) : Prop :=
  ∀ k d n, k₀ ≤ k → F.dec (start + k) (bs.drop k) = some (d, n) →
    ∃ pre r, pre ++ [r] <+: rs ∧ (F.encAll pre).length = k ∧ F.enc r <+: bs.drop k

variable {F} {ok : ρ → Prop} {rs : List ρ} {bs : List β}

@[simp] theorem encAll_nil : F.encAll [] = [] := rfl

theorem encAll_append (rs rs' : List ρ) : F.encAll (rs ++ rs') = F.encAll rs ++ F.encAll rs' := by
  simp [encAll]

theorem encAll_singleton (r : ρ) : F.encAll [r] = F.enc r := by
  simp [encAll]

theorem views_append (o : Nat) (rs rs' : List ρ) :
    F.views o (rs ++ rs') = F.views o rs ++ F.views (o + (F.encAll rs).length) rs' := by
  induction rs generalizing o with
  | nil => rfl
  | cons r rs ih => simp [views, ih, encAll, Nat.add_assoc]

theorem length_le_encAll (hs : F.Sound ok) (rs : List ρ) : rs.length ≤ (F.encAll rs).length := by
  induction rs with
  | nil => simp
  | cons r rs ih =>
    have := List.length_pos_iff.mpr (hs.nonempty r)
    simp only [encAll, List.flatMap_cons, List.length_append, List.length_cons] at ih ⊢
    omega

theorem prefix_eq_of_length (hs : F.Sound ok) {p q : List ρ} (hp : p <+: rs) (hq : q <+: rs)
    (h : (F.encAll p).length = (F.encAll q).length) : p = q := by
  have key : ∀ {p q : List ρ}, p <+: q → (F.encAll p).length = (F.encAll q).length → p = q := by
    rintro p _ ⟨t, rfl⟩ hlen
    have := length_le_encAll hs t
    rw [encAll_append, List.length_append] at hlen
    have : t.length = 0 := by omega
    simp [List.length_eq_zero_iff.mp this]
  rcases List.prefix_or_prefix_of_prefix hp hq with hpq | hqp
  · exact key hpq h
  · exact (key hqp h.symm).symm

theorem encAll_take_succ {j : Nat} {r : ρ} (hr : rs[j]? = some r) : F.encAll (rs.take (j + 1)) =
    F.encAll (rs.take j) ++ F.enc r := by
  rw [List.take_add_one, hr, Option.toList_some, encAll_append, encAll_singleton]

theorem drop_of_initial {p : List β} {j : Nat} {r : ρ} (hr : rs[j]? = some r) (hp : F.encAll (rs.take j) = p)
    (h : p <+: bs) : F.encAll (rs.take (j + 1)) <+: bs ↔ F.enc r <+: bs.drop p.length := by
  obtain ⟨t, rfl⟩ := h
  rw [encAll_take_succ hr, hp, List.drop_left, List.prefix_append_right_inj]

theorem scan_append (hs : F.Sound ok) (hok : ∀ r ∈ rs, ok r) (fuel o : Nat) (rest : List β) :
    F.scan (rs.length + fuel) o (F.encAll rs ++ rest) = F.views o rs ++
      F.scan fuel (o + (F.encAll rs).length) rest := by
  induction rs generalizing o with
  | nil => simp [views]
  | cons r rs ih =>
    have hr := hs.reads (hok r (by simp)) o (F.encAll rs ++ rest)
    have hcons : F.encAll (r :: rs) = F.enc r ++ F.encAll rs := by simp [encAll]
    rw [hcons, List.append_assoc, List.length_cons, Nat.add_right_comm, scan, hr]
    simp only [List.drop_left, views, List.cons_append, List.length_append, ← Nat.add_assoc]
    rw [ih fun r hr => hok r (by simp [hr])]

theorem scan_succ_eq_nil {fuel o : Nat} : F.scan (fuel + 1) o bs = [] ↔ F.dec o bs = none := by
  rw [scan]
  cases F.dec o bs with
  | none => simp
  | some found => simp

theorem mem_scan {d : δ} : ∀ {fuel o : Nat} {bs : List β}, d ∈ F.scan fuel o bs →
    ∃ o' bs' n, F.dec o' bs' = some (d, n)
  | 0, _, _, h => by cases h
  | fuel + 1, o, bs, h => by
    rw [scan] at h
    split at h
    · cases h
    · rename_i d' n hdec
      rcases List.mem_cons.mp h with rfl | h
      · exact ⟨o, bs, n, hdec⟩
      · exact mem_scan h

/-- From position `j` of the log on, the reader finds the records that are whole. -/
theorem scan_from (hs : F.Sound ok) (hok : ∀ r ∈ rs, ok r) {start n : Nat}
    (honly : F.OnlyWritten start rs bs (F.encAll (rs.take n)).length) :
    ∀ (fuel j : Nat), n ≤ j → j ≤ rs.length → F.encAll (rs.take j) <+: bs → bs.length < j + fuel →
      ∃ m, j ≤ m ∧ m ≤ rs.length ∧ (∀ k ≤ rs.length, F.encAll (rs.take k) <+: bs ↔ k ≤ m) ∧
        F.scan fuel (start + (F.encAll (rs.take j)).length) (bs.drop (F.encAll (rs.take j)).length) =
          F.views (start + (F.encAll (rs.take j)).length) ((rs.take m).drop j) := by
  intro fuel
  induction fuel with
  | zero =>
    intro j _ hj hpre hf
    have := length_le_encAll hs (rs.take j)
    have := hpre.length_le
    rw [List.length_take] at *
    omega
  | succ fuel ih =>
    intro j hn hj hpre hf
    -- nothing past `j` is whole, if the record after `j` is not
    have hstop : (∀ r, rs[j]? = some r → ¬ F.enc r <+: bs.drop (F.encAll (rs.take j)).length) →
        ∀ k ≤ rs.length, F.encAll (rs.take k) <+: bs ↔ k ≤ j := by
      intro hno k hk
      constructor
      · intro hkpre
        by_contra hlt
        have hlt : j < rs.length := by omega
        obtain ⟨t, ht⟩ : rs.take (j + 1) <+: rs.take k := List.take_prefix_take_left (by omega)
        have hpre' : F.encAll (rs.take (j + 1)) <+: bs :=
          (show F.encAll (rs.take (j + 1)) <+: F.encAll (rs.take k) from
            ⟨F.encAll t, by rw [← encAll_append, ht]⟩).trans hkpre
        have hget := List.getElem?_eq_getElem hlt
        exact hno _ hget ((drop_of_initial hget rfl hpre).mp hpre')
      · intro hkj
        obtain ⟨t, ht⟩ : rs.take k <+: rs.take j := List.take_prefix_take_left hkj
        exact (show F.encAll (rs.take k) <+: F.encAll (rs.take j) from
          ⟨F.encAll t, by rw [← encAll_append, ht]⟩).trans hpre
    cases hdec : F.dec (start + (F.encAll (rs.take j)).length) (bs.drop (F.encAll (rs.take j)).length) with
    | none =>
      refine ⟨j, Nat.le_refl j, hj, hstop fun r hr hwhole => ?_, ?_⟩
      · obtain ⟨t, ht⟩ := hwhole
        rw [← ht, hs.reads (hok r (List.mem_of_getElem? hr))] at hdec
        cases hdec
      · simp [scan, hdec, views]
    | some dn =>
      have hle : (F.encAll (rs.take n)).length ≤ (F.encAll (rs.take j)).length := by
        obtain ⟨t, ht⟩ : rs.take n <+: rs.take j := List.take_prefix_take_left hn
        rw [← ht, encAll_append, List.length_append]
        omega
      obtain ⟨pre, r, hlog, hlen, hwhole⟩ := honly _ dn.1 dn.2 hle hdec
      have heq : pre = rs.take j :=
        prefix_eq_of_length hs ((List.prefix_append pre [r]).trans hlog) (List.take_prefix j rs) hlen
      subst heq
      have hget : rs[j]? = some r := by
        obtain ⟨t, ht⟩ := hlog
        have hlen : (rs.take j).length = j := by rw [List.length_take, Nat.min_eq_left hj]
        have hget : (rs.take j ++ ([r] ++ t))[j]? = ([r] ++ t)[j - (rs.take j).length]? :=
          List.getElem?_append_right (by omega)
        rw [← List.append_assoc, ht] at hget
        simpa [hlen] using hget
      have hj' : j < rs.length := (List.getElem?_eq_some_iff.mp hget).1
      have hpre' := (drop_of_initial hget rfl hpre).mpr hwhole
      obtain ⟨m, hm, hml, hwhole', hscan⟩ := ih (j + 1) (by omega) hj' hpre' (by omega)
      refine ⟨m, by omega, hml, hwhole', ?_⟩
      obtain ⟨t, ht⟩ := hwhole
      rw [← ht, hs.reads (hok r (List.mem_of_getElem? hget))] at hdec
      cases hdec
      have hdrop : (rs.take m).drop j = r :: (rs.take m).drop (j + 1) := by
        have hjm : j < (rs.take m).length := by rw [List.length_take]; omega
        rw [List.drop_eq_getElem_cons hjm, List.getElem_take]
        congr 1
        exact (List.getElem?_eq_some_iff.mp hget).2
      rw [encAll_take_succ hget, List.length_append, ← Nat.add_assoc, ← List.drop_drop] at hscan
      rw [hdrop, scan, ← ht, hs.reads (hok r (List.mem_of_getElem? hget)), views]
      rw [← ht] at hscan
      simp only [hscan]

theorem scan_log (hs : F.Sound ok) (hok : ∀ r ∈ rs, ok r) {start n fuel : Nat} (hn : n ≤ rs.length)
    (hsafe : F.encAll (rs.take n) <+: bs) (honly : F.OnlyWritten start rs bs (F.encAll (rs.take n)).length)
    (hf : bs.length < fuel) : ∃ m, n ≤ m ∧ m ≤ rs.length ∧
      (∀ k ≤ rs.length, F.encAll (rs.take k) <+: bs ↔ k ≤ m) ∧
      F.scan fuel start bs = F.views start (rs.take m) := by
  obtain ⟨rest, hrest⟩ := hsafe
  have hlen := length_le_encAll hs (rs.take n)
  have htake : (rs.take n).length = n := by rw [List.length_take, Nat.min_eq_left hn]
  have hbs : (F.encAll (rs.take n)).length ≤ bs.length := by rw [← hrest, List.length_append]; omega
  obtain ⟨m, hm, hml, hwhole, hscan⟩ :=
    scan_from hs hok honly (fuel - n) n (Nat.le_refl n) hn ⟨rest, hrest⟩ (by omega)
  refine ⟨m, hm, hml, hwhole, ?_⟩
  have hsplit : rs.take m = rs.take n ++ (rs.take m).drop n := by
    have := List.take_append_drop n (rs.take m)
    rw [List.take_take, Nat.min_eq_left hm] at this
    exact this.symm
  have hfuel : fuel = (rs.take n).length + (fuel - n) := by omega
  rw [← hrest, List.drop_left] at hscan
  rw [hsplit, views_append, ← hscan, hfuel, ← hrest, scan_append hs fun r hr => hok r (List.mem_of_mem_take hr)]
  simp only [htake, Nat.add_sub_cancel_left]

/-! ## Logs that are cut off -/

theorem Local.dec_nil (hl : F.Local) (o : Nat) : F.dec o [] = none := by
  cases h : F.dec o [] with
  | none => rfl
  | some found =>
    have := hl.inside h
    simp at this
    omega

theorem Local.dec_take (hl : F.Local) (hs : F.Sound ok) {r : ρ} (hr : ok r) {k : Nat}
    (hk : k < (F.enc r).length) (o : Nat) :
    F.dec o ((F.enc r).take k) = none := by
  cases h : F.dec o ((F.enc r).take k) with
  | none => rfl
  | some found =>
    have hwhole := hl.stays h ((F.enc r).drop k)
    have hread := hs.reads hr o []
    rw [List.append_nil] at hread
    rw [List.take_append_drop, hread] at hwhole
    have hlen : (F.enc r).length = found.2 := congrArg Prod.snd (Option.some.inj hwhole)
    have := (hl.inside h).2
    rw [List.length_take] at this
    omega

theorem Sound.scan_take (hs : F.Sound ok) (hl : F.Local) (hok : ∀ r ∈ rs, ok r) {fuel : Nat}
    (hfuel : rs.length < fuel) (k : Nat) {o : Nat} :
    ∃ m ≤ rs.length, (∀ j ≤ rs.length, (F.encAll (rs.take j)).length ≤ k ↔ j ≤ m) ∧
      F.scan fuel o ((F.encAll rs).take k) = F.views o (rs.take m) := by
  induction rs generalizing fuel k o with
  | nil =>
    obtain ⟨fuel, rfl⟩ := Nat.exists_eq_add_of_lt hfuel
    refine ⟨0, Nat.le_refl 0, by simp, ?_⟩
    simp [scan, hl.dec_nil, views]
  | cons r rs ih =>
    obtain ⟨fuel, rfl⟩ := Nat.exists_eq_add_one_of_ne_zero (Nat.ne_zero_of_lt hfuel)
    have hr := hok r (by simp)
    have hcons : ∀ rs, F.encAll (r :: rs) = F.enc r ++ F.encAll rs := by simp [encAll]
    by_cases hk : k < (F.enc r).length
    · -- the cut is inside the first record
      refine ⟨0, Nat.zero_le _, ?_, ?_⟩
      · intro j _
        cases j with
        | zero => simp
        | succ j =>
          rw [List.take_succ_cons, hcons, List.length_append]
          omega
      · rw [hcons, List.take_append_of_le_length (Nat.le_of_lt hk), scan, hl.dec_take hs hr hk]
        rfl
    · obtain ⟨k, rfl⟩ := Nat.exists_eq_add_of_le (Nat.not_lt.mp hk)
      obtain ⟨m, hm, hwhole, hscan⟩ :=
        ih (fun r hr => hok r (by simp [hr])) (Nat.lt_of_succ_lt_succ hfuel) k (o := o + (F.enc r).length)
      refine ⟨m + 1, Nat.succ_le_succ hm, ?_, ?_⟩
      · intro j hj
        cases j with
        | zero => simp
        | succ j =>
          have := hwhole j (Nat.le_of_succ_le_succ hj)
          rw [List.take_succ_cons, hcons, List.length_append]
          omega
      · rw [hcons, List.take_length_add_append, scan, hs.reads hr]
        simp only [List.drop_left, hscan, List.take_succ_cons, views]

theorem Sound.scan_all (hs : F.Sound ok) (hl : F.Local) (hok : ∀ r ∈ rs, ok r) {fuel : Nat}
    (hfuel : rs.length < fuel) {o : Nat} :
    F.scan fuel o (F.encAll rs) = F.views o rs := by
  obtain ⟨m, hm, hwhole, hscan⟩ := hs.scan_take hl hok hfuel (F.encAll rs).length (o := o)
  have hall := (hwhole rs.length (Nat.le_refl _)).mp (Nat.le_of_eq (by rw [List.take_length]))
  rw [List.take_length, List.take_of_length_le (by omega)] at hscan
  exact hscan

end

end Framing

end Lib
