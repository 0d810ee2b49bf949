import Mathlib.Data.List.Sort
import Mathlib.Tactic.Common

/-!
# Peers in ordered rows

Rows ordered by partition and, within a partition, by a key. Peers are the rows
equal in both; they stand next to each other, so a pass over the rows that holds
back the last peers it has met can tell a row's frame (the rows of its partition
up to its peers) as soon as it meets the next row that is no peer.
-/

namespace Lib

open Std

variable {α : Type} (part ord : α → α → Ordering)

def Ordered (rows : List α) : Prop := rows.Pairwise fun a b => ((part a b).then (ord a b)).isLE

def Peers (a b : α) : Prop := part a b = .eq ∧ ord a b = .eq

def partition (rows : List α) (t : α) : List α := rows.filter fun r => part r t == .eq

def frame (rows : List α) (t : α) : List α := rows.filter fun r => part r t == .eq && (ord r t).isLE

def before (rows : List α) (t : α) : List α := rows.filter fun r => part r t == .eq && ord r t == .lt

/-- `rows`, cut before the last peers. -/
structure Cut (done peers rows : List α) : Prop where
  eq : rows = done ++ peers
  same : ∀ a ∈ peers, ∀ b ∈ peers, Peers part ord a b
  apart : ∀ a ∈ done, ∀ b ∈ peers, ¬ Peers part ord a b
  held : peers = [] → done = []

theorem cut_nil : Cut part ord ([] : List α) [] [] := ⟨rfl, by simp, by simp, fun _ => rfl⟩

variable {part ord}

theorem isLE_cases {a b : α} (h : ((part a b).then (ord a b)).isLE) :
    part a b = .lt ∨ part a b = .eq ∧ (ord a b = .lt ∨ ord a b = .eq) := by
  cases hp : part a b <;> cases ho : ord a b <;> simp_all

variable [TransCmp part]

theorem part_between {a b c : α} (hab : ((part a b).then (ord a b)).isLE) (hbc : ((part b c).then (ord b c)).isLE)
    (hac : part a c = .eq) : part a b = .eq ∧ part b c = .eq := by
  rcases isLE_cases hab with h | ⟨h, _⟩
  · rcases isLE_cases hbc with h' | ⟨h', _⟩
    · have := TransCmp.lt_trans h h'
      simp [hac] at this
    · have := TransCmp.lt_of_lt_of_eq h h'
      simp [hac] at this
  · exact ⟨h, TransCmp.eq_trans (OrientedCmp.eq_symm h) hac⟩

variable [TransCmp ord] {done peers rows rest : List α} {a b c t : α}

theorem Peers.symm (h : Peers part ord a b) : Peers part ord b a :=
  ⟨OrientedCmp.eq_symm h.1, OrientedCmp.eq_symm h.2⟩

theorem Peers.trans (hab : Peers part ord a b) (hbc : Peers part ord b c) : Peers part ord a c :=
  ⟨TransCmp.eq_trans hab.1 hbc.1, TransCmp.eq_trans hab.2 hbc.2⟩

theorem peers_between (hab : ((part a b).then (ord a b)).isLE) (hbc : ((part b c).then (ord b c)).isLE)
    (hac : Peers part ord a c) : Peers part ord b c := by
  obtain ⟨h₁, h₂⟩ := part_between hab hbc hac.1
  refine ⟨h₂, ?_⟩
  rcases isLE_cases hbc with h | ⟨_, hlt | heq⟩
  · simp [h₂] at h
  · rcases isLE_cases hab with h | ⟨_, hlt' | heq'⟩
    · simp [h₁] at h
    · have := TransCmp.lt_trans hlt' hlt
      simp [hac.2] at this
    · have := TransCmp.lt_of_eq_of_lt heq' hlt
      simp [hac.2] at this
  · exact heq

theorem later_apart (ho : Ordered part ord (rows ++ rest)) (hb : b ∈ rows)
    (hrest : ∀ r ∈ rest, ¬ Peers part ord b r) :
    ∀ r ∈ rest, ¬ (part r b = .eq ∧ (ord r b).isLE) := by
  intro r hr hrb
  have hbr := (List.pairwise_append.mp ho).2.2 b hb r hr
  rcases isLE_cases hbr with hlt | ⟨heq, hlt | ho⟩
  · rw [OrientedCmp.gt_of_lt hlt] at hrb
    cases hrb.1
  · rw [OrientedCmp.gt_of_lt hlt] at hrb
    cases hrb.2
  · exact hrest r hr ⟨heq, ho⟩

theorem frame_le_partition (ho : Ordered part ord (rows ++ rest)) (hb : b ∈ rows)
    (hrest : ∀ r ∈ rest, ¬ Peers part ord b r) :
    (frame part ord (rows ++ rest) b).length ≤ (partition part rows b).length := by
  have hnil : rest.filter (fun r => part r b == .eq && (ord r b).isLE) = [] := by
    apply List.filter_eq_nil_iff.mpr
    intro r hr hx
    exact later_apart ho hb hrest r hr (by simpa using hx)
  rw [frame, List.filter_append, hnil, List.append_nil, partition]
  apply List.Sublist.length_le
  apply List.monotone_filter_right
  intro r hr
  exact (Bool.and_eq_true_iff.mp hr).1

theorem not_peers_after (ho : Ordered part ord (rows ++ t :: rest)) (hb : b ∈ rows) (ht : ¬ Peers part ord b t) :
    ∀ r ∈ t :: rest, ¬ Peers part ord b r := by
  intro r hr hbr
  rcases List.mem_cons.mp hr with rfl | hr
  · exact ht hbr
  · have hsplit := List.pairwise_append.mp ho
    have h₁ := hsplit.2.2 b hb t (by simp)
    have h₂ := (List.pairwise_cons.mp hsplit.2.1).1 r hr
    exact ht (hbr.trans (peers_between h₁ h₂ hbr).symm)

namespace Cut

theorem join (h : Cut part ord done peers rows) (hb : b ∈ peers) (ht : Peers part ord b t) :
    Cut part ord done (peers ++ [t]) (rows ++ [t]) := by
  have hall : ∀ a ∈ peers ++ [t], Peers part ord b a := by
    intro a ha
    rcases List.mem_append.mp ha with ha | ha
    · exact h.same b hb a ha
    · obtain rfl : a = t := by simpa using ha
      exact ht
  refine ⟨by simp [h.eq], ?_, ?_, by simp⟩
  · intro a ha c hc
    exact (hall a ha).symm.trans (hall c hc)
  · intro a ha c hc hac
    exact h.apart a ha b hb (hac.trans (hall c hc).symm)

theorem not_peers (h : Cut part ord done peers rows) (hb : b ∈ peers) (ht : ¬ Peers part ord b t)
    (ho : Ordered part ord (rows ++ [t])) : ∀ a ∈ rows, ¬ Peers part ord a t := by
  have hs := List.pairwise_append.mp ho
  intro a ha hat
  rw [h.eq] at ha
  rcases List.mem_append.mp ha with ha | ha
  · have hab : ((part a b).then (ord a b)).isLE := by
      have := hs.1
      rw [h.eq] at this
      exact (List.pairwise_append.mp this).2.2 a ha b hb
    have hbt := hs.2.2 b (by simp [h.eq, hb]) t (by simp)
    exact ht (peers_between hab hbt hat)
  · exact ht ((h.same b hb a ha).trans hat)

theorem start (h : Cut part ord done peers rows) (hb : b ∈ peers) (ht : ¬ Peers part ord b t)
    (ho : Ordered part ord (rows ++ [t])) : Cut part ord rows [t] (rows ++ [t]) := by
  refine ⟨rfl, ?_, ?_, by simp⟩
  · intro a ha c hc
    obtain rfl : a = t := by simpa using ha
    obtain rfl : c = a := by simpa using hc
    exact ⟨ReflCmp.compare_self, ReflCmp.compare_self⟩
  · intro a ha c hc
    obtain rfl : c = t := by simpa using hc
    exact h.not_peers hb ht ho a ha

omit [TransCmp ord] in
theorem fresh (h : Cut part ord done peers rows) (hb : b ∈ peers) (ht : part b t ≠ .eq)
    (ho : Ordered part ord (rows ++ [t])) : partition part rows t = [] := by
  apply List.filter_eq_nil_iff.mpr
  intro a ha hat
  have hat : part a t = .eq := by simpa using hat
  have hs := List.pairwise_append.mp ho
  rw [h.eq] at ha
  rcases List.mem_append.mp ha with ha | ha
  · have hab : ((part a b).then (ord a b)).isLE := by
      have := hs.1
      rw [h.eq] at this
      exact (List.pairwise_append.mp this).2.2 a ha b hb
    exact ht (part_between hab (hs.2.2 b (by simp [h.eq, hb]) t (by simp)) hat).2
  · exact ht (TransCmp.eq_trans (h.same b hb a ha).1 hat)

theorem frame_eq (h : Cut part ord done peers rows) (hb : b ∈ peers) (ho : Ordered part ord (rows ++ rest))
    (hrest : ∀ r ∈ rest, ¬ Peers part ord b r) :
    frame part ord (rows ++ rest) b = partition part done b ++ peers ∧
      before part ord (rows ++ rest) b = partition part done b := by
  have hs := List.pairwise_append.mp ho
  have hlater := later_apart ho (by simp [h.eq, hb]) hrest
  have hearlier : ∀ a ∈ done, part a b = .eq → ord a b = .lt := by
    intro a ha hab
    have hle : ((part a b).then (ord a b)).isLE := by
      have := hs.1
      rw [h.eq] at this
      exact (List.pairwise_append.mp this).2.2 a ha b hb
    rcases isLE_cases hle with hlt | ⟨_, hlt | heq⟩
    · simp [hab] at hlt
    · exact hlt
    · exact absurd ⟨hab, heq⟩ (h.apart a ha b hb)
  refine ⟨?_, ?_⟩
  · rw [frame, h.eq, List.filter_append, List.filter_append, partition]
    have h₁ : done.filter (fun r => part r b == .eq && (ord r b).isLE) = done.filter fun r => part r b == .eq := by
      apply List.filter_congr
      intro a ha
      cases hp : part a b with
      | eq => simp [hearlier a ha hp]
      | _ => simp
    have h₂ : peers.filter (fun r => part r b == .eq && (ord r b).isLE) = peers := by
      apply List.filter_eq_self.mpr
      intro a ha
      obtain ⟨hp, hk⟩ := h.same a ha b hb
      simp [hp, hk]
    have h₃ : rest.filter (fun r => part r b == .eq && (ord r b).isLE) = [] := by
      apply List.filter_eq_nil_iff.mpr
      intro r hr hx
      exact hlater r hr (by simpa using hx)
    rw [h₁, h₂, h₃, List.append_nil]
  · rw [before, h.eq, List.filter_append, List.filter_append, partition]
    have h₁ : done.filter (fun r => part r b == .eq && ord r b == .lt) = done.filter fun r => part r b == .eq := by
      apply List.filter_congr
      intro a ha
      cases hp : part a b with
      | eq => simp [hearlier a ha hp]
      | _ => simp
    have h₂ : peers.filter (fun r => part r b == .eq && ord r b == .lt) = [] := by
      apply List.filter_eq_nil_iff.mpr
      intro a ha hx
      simp [(h.same a ha b hb).2] at hx
    have h₃ : rest.filter (fun r => part r b == .eq && ord r b == .lt) = [] := by
      apply List.filter_eq_nil_iff.mpr
      intro r hr hx
      simp only [Bool.and_eq_true, beq_iff_eq] at hx
      exact hlater r hr ⟨hx.1, by simp [hx.2]⟩
    rw [h₁, h₂, h₃, List.append_nil, List.append_nil]

end Cut

theorem partition_congr (h : part a b = .eq) (rows : List α) : partition part rows a = partition part rows b := by
  apply List.filter_congr
  intro r _
  have : part r a = part r b := TransCmp.congr_right h
  rw [this]

theorem partition_concat_self : partition part (rows ++ [t]) t = partition part rows t ++ [t] := by
  simp [partition, ReflCmp.compare_self]

theorem partition_concat_le {n : Nat} (h : ∀ b ∈ rows, (partition part rows b).length ≤ n)
    (ht : (partition part rows t).length + 1 ≤ n) :
    ∀ b ∈ rows ++ [t], (partition part (rows ++ [t]) b).length ≤ n := by
  intro b hb
  by_cases hbt : part b t = .eq
  · rw [partition_congr hbt, partition_concat_self, List.length_append]
    exact ht
  · have hb : b ∈ rows := by
      rcases List.mem_append.mp hb with hb | hb
      · exact hb
      · obtain rfl : b = t := by simpa using hb
        exact absurd ReflCmp.compare_self hbt
    have htb : part t b ≠ .eq := fun h => hbt (OrientedCmp.eq_symm h)
    have : partition part (rows ++ [t]) b = partition part rows b := by simp [partition, htb]
    rw [this]
    exact h b hb

omit [TransCmp part] in
theorem partition_append_le (rows rest : List α) (t : α) :
    (partition part rows t).length ≤ (partition part (rows ++ rest) t).length :=
  ((List.sublist_append_left rows rest).filter _).length_le

end Lib
