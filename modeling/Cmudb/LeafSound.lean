import Mathlib.Algebra.Order.BigOperators.Group.List
import Mathlib.Algebra.Order.Monoid.NatCast
import Cmudb.BPlusPage

/-!
# What the operations of a leaf do

A leaf maps a key to a record id when it holds the entry and the key is not
tombstoned. The lemmas say for each operation which entries the page holds
after it and which of its keys are dead, and that its slots stay in order.
-/

namespace Cmudb

namespace BPlus

def InRange (lo : Key) (hi : Option Key) (k : Key) : Prop := lo ≤ k ∧ ∀ u ∈ hi, k < u

namespace LeafPage

def Dead (p : LeafPage) (k : Key) : Prop := ∃ s ∈ p.tombstones, p.keys[s]? = some k

def Maps (p : LeafPage) (k : Key) (r : RecordId) : Prop := (k, r) ∈ p.entries ∧ ¬ p.Dead k

/-- A leaf in order, but for how many bytes it takes. -/
structure Ok (layout : Layout) (lo : Key) (hi : Option Key) (p : LeafPage) : Prop where
  sorted : p.keys.Pairwise (· < ·)
  inRange : ∀ k ∈ p.keys, InRange lo hi k
  short : ∀ k ∈ p.keys, k.length ≤ layout.maxKeyLen
  distinct : p.tombstones.Nodup
  slots : ∀ s ∈ p.tombstones, s < p.entries.length
  few : p.tombstones.length ≤ layout.tombstoneCapacity

variable {layout : Layout} {lo : Key} {hi : Option Key} {p q : LeafPage} {key : Key} {rid : RecordId} {pos : Nat}

@[simp] theorem length_keys (p : LeafPage) : p.keys.length = p.entries.length := by simp [keys]

theorem getElem?_keys (p : LeafPage) (i : Nat) : p.keys[i]? = (p.entries[i]?).map Prod.fst := by simp [keys]

theorem Dead.mem (h : p.Dead key) : key ∈ p.keys := by
  obtain ⟨s, -, hk⟩ := h
  exact List.mem_of_getElem? hk

/-! ## Searching -/

theorem partitioned_lt {ks : List Key} (h : ks.Pairwise (· ≤ ·)) (key : Key) :
    Lib.Partitioned (fun k => decide (k < key)) ks :=
  h.imp fun {a b} hab hb => by
    simp only [decide_eq_true_eq] at hb ⊢
    exact lt_of_le_of_lt hab hb

theorem partitioned_le {ks : List Key} (h : ks.Pairwise (· ≤ ·)) (key : Key) :
    Lib.Partitioned (fun k => decide (k ≤ key)) ks :=
  h.imp fun {a b} hab hb => by
    simp only [decide_eq_true_eq] at hb ⊢
    exact le_trans hab hb

theorem lowerBound_eq (h : p.keys.Pairwise (· < ·)) (key : Key) :
    p.lowerBound key = (p.keys.takeWhile fun k => decide (k < key)).length :=
  Lib.partitionPoint_eq (partitioned_lt (h.imp le_of_lt) key)

theorem search_ok (h : p.search key = .ok pos) : p.keys[pos]? = some key := by
  unfold search at h
  simp only at h
  split at h
  · cases h; assumption
  · cases h

theorem search_error_not_mem (hs : p.keys.Pairwise (· < ·)) (h : p.search key = .error pos) :
    key ∉ p.keys := by
  unfold search at h
  simp only at h
  split at h
  · cases h
  rename_i hne
  rw [lowerBound_eq hs] at hne
  intro hmem
  -- a key that is there is the first one not below it
  obtain ⟨i, hi⟩ := List.getElem?_of_mem hmem
  have hpart := partitioned_lt (hs.imp le_of_lt) key
  have hge : ¬ i < (p.keys.takeWhile fun k => decide (k < key)).length := fun hlt => by
    have := (hpart.getElem hi).mpr hlt
    simp at this
  have hlen := (List.getElem?_eq_some_iff.mp hi).1
  rcases Nat.lt_or_ge (p.keys.takeWhile fun k => decide (k < key)).length i with hlt | hle
  · have hm := List.getElem?_eq_getElem (Nat.lt_trans hlt hlen)
    have hkk := List.pairwise_iff_getElem.mp hs _ _ (Nat.lt_trans hlt hlen) hlen hlt
    rw [(List.getElem?_eq_some_iff.mp hi).2] at hkk
    exact lt_irrefl _ ((hpart.getElem hm).mp (by simpa using hkk))
  · have : i = (p.keys.takeWhile fun k => decide (k < key)).length := by omega
    exact hne (this ▸ hi)

theorem search_error (hs : p.keys.Pairwise (· < ·)) (h : p.search key = .error pos) :
    pos ≤ p.keys.length ∧ (∀ k ∈ p.keys.take pos, k < key) ∧ ∀ k ∈ p.keys.drop pos, key < k := by
  have hnot := search_error_not_mem hs h
  have hpos : pos = (p.keys.takeWhile fun k => decide (k < key)).length := by
    unfold search at h
    simp only at h
    split at h
    · cases h
    · cases h; exact lowerBound_eq hs key
  rw [hpos, Lib.take_length_takeWhile, Lib.drop_length_takeWhile]
  refine ⟨(List.takeWhile_prefix _).length_le, fun k hk => ?_, fun k hk => ?_⟩
  · simpa using List.mem_takeWhile_imp hk
  · have hle : key ≤ k := by simpa using (partitioned_lt (hs.imp le_of_lt) key).dropWhile_false k hk
    refine lt_of_le_of_ne hle fun heq => hnot ?_
    exact heq ▸ (List.dropWhile_sublist _).subset hk

theorem keys_index_unique (hs : p.keys.Pairwise (· < ·)) {i j : Nat} (hi : p.keys[i]? = some key)
    (hj : p.keys[j]? = some key) :
    i = j := by
  have hnd : p.keys.Nodup := hs.imp fun h => ne_of_lt h
  have hil := (List.getElem?_eq_some_iff.mp hi).1
  exact (List.getElem?_inj hil hnd).mp (hi.trans hj.symm)

theorem isTombstoned_iff (hs : p.keys.Pairwise (· < ·)) (h : p.keys[pos]? = some key) :
    p.isTombstoned pos = true ↔ p.Dead key := by
  rw [isTombstoned, decide_eq_true_eq]
  constructor
  · intro hm; exact ⟨pos, hm, h⟩
  · rintro ⟨s, hm, hsk⟩
    rw [keys_index_unique hs h hsk]
    exact hm

theorem maps_of_slot (h : p.keys[pos]? = some key) (hlive : ¬ p.Dead key) : ∃ r, p.Maps key r := by
  rw [getElem?_keys] at h
  obtain ⟨e, he, hek⟩ := Option.map_eq_some_iff.mp h
  refine ⟨e.2, ?_, hlive⟩
  have : e = (key, e.2) := Prod.ext hek rfl
  exact this ▸ List.mem_of_getElem? he

/-! ## Inserting -/

theorem keys_insertAt (p : LeafPage) (pos : Nat) (key : Key) (rid : RecordId) :
    (p.insertAt pos key rid).keys = p.keys.insertIdx pos key := by
  simp [insertAt, keys, List.map_insertIdx]

theorem getElem?_insertIdx_adjust {α : Type} (l : List α) (pos : Nat) (a : α) (s : Nat) :
    (l.insertIdx pos a)[if pos ≤ s then s + 1 else s]? = l[s]? := by
  split
  · rw [List.getElem?_insertIdx_of_gt (by omega)]
    rfl
  · rw [List.getElem?_insertIdx_of_lt (by omega)]

theorem dead_insertAt (pos : Nat) (k : Key) : (p.insertAt pos key rid).Dead k ↔ p.Dead k := by
  constructor
  · rintro ⟨s, hs, hk⟩
    obtain ⟨s', hs', rfl⟩ := List.mem_map.mp hs
    rw [keys_insertAt, getElem?_insertIdx_adjust] at hk
    exact ⟨s', hs', hk⟩
  · rintro ⟨s, hs, hk⟩
    refine ⟨_, List.mem_map_of_mem hs, ?_⟩
    rw [keys_insertAt, getElem?_insertIdx_adjust]
    exact hk

theorem Ok.insertAt (h : p.Ok layout lo hi) (hsr : p.search key = .error pos) (hin : InRange lo hi key)
    (hshort : key.length ≤ layout.maxKeyLen) : (p.insertAt pos key rid).Ok layout lo hi := by
  obtain ⟨hpos, hlt, hgt⟩ := search_error h.sorted hsr
  have hkeys : (p.insertAt pos key rid).keys = p.keys.take pos ++ key :: p.keys.drop pos := by
    rw [keys_insertAt, Lib.insertIdx_eq_append hpos]
  have hlen : (p.insertAt pos key rid).entries.length = p.entries.length + 1 :=
    List.length_insertIdx_of_le_length (by simpa using hpos) _
  have hmem : ∀ k ∈ (p.insertAt pos key rid).keys, k = key ∨ k ∈ p.keys := by
    intro k hk
    rw [hkeys, List.mem_append, List.mem_cons] at hk
    rcases hk with hk | rfl | hk
    · exact .inr (List.mem_of_mem_take hk)
    · exact .inl rfl
    · exact .inr (List.mem_of_mem_drop hk)
  constructor
  · rw [hkeys, List.pairwise_append, List.pairwise_cons]
    refine ⟨h.sorted.sublist (List.take_sublist _ _), ⟨hgt, h.sorted.sublist (List.drop_sublist _ _)⟩, ?_⟩
    intro a ha b hb
    rcases List.mem_cons.mp hb with rfl | hb
    · exact hlt a ha
    · exact lt_trans (hlt a ha) (hgt b hb)
  · intro k hk
    rcases hmem k hk with rfl | hk
    · exact hin
    · exact h.inRange k hk
  · intro k hk
    rcases hmem k hk with rfl | hk
    · exact hshort
    · exact h.short k hk
  · refine List.Nodup.map (fun a b hab => ?_) h.distinct
    split at hab <;> split at hab <;> omega
  · intro s hs
    obtain ⟨s', hs', rfl⟩ := List.mem_map.mp hs
    have := h.slots s' hs'
    rw [hlen]
    split <;> omega
  · show (adjustTombstonesAfterInsert p.tombstones pos).length ≤ _
    rw [adjustTombstonesAfterInsert, List.length_map]
    exact h.few

theorem mem_entries_insertAt (hpos : pos ≤ p.keys.length) (e : Key × RecordId) :
    e ∈ (p.insertAt pos key rid).entries ↔ e = (key, rid) ∨ e ∈ p.entries := by
  rw [length_keys] at hpos
  exact List.mem_insertIdx hpos

theorem keys_revive (hk : p.keys[pos]? = some key) : (p.revive pos key rid).keys = p.keys := by
  rw [keys, revive, List.map_set]
  refine List.ext_getElem? fun i => ?_
  rw [List.getElem?_set]
  by_cases hi : pos = i
  · subst hi
    have hlen : pos < (p.entries.map Prod.fst).length := (List.getElem?_eq_some_iff.mp hk).1
    rw [if_pos rfl, if_pos hlen]
    exact hk.symm
  · rw [if_neg hi]; rfl

theorem dead_revive (hs : p.keys.Pairwise (· < ·)) (hd : p.tombstones.Nodup) (hk : p.keys[pos]? = some key)
    (k : Key) :
    (p.revive pos key rid).Dead k ↔ p.Dead k ∧ k ≠ key := by
  constructor
  · rintro ⟨s, hsm, hsk⟩
    rw [keys_revive hk] at hsk
    have hsm := (hd.mem_erase_iff (a := s) (b := pos)).mp hsm
    refine ⟨⟨s, hsm.2, hsk⟩, fun heq => hsm.1 ?_⟩
    subst heq
    exact keys_index_unique hs hsk hk
  · rintro ⟨⟨s, hsm, hsk⟩, hne⟩
    refine ⟨s, hd.mem_erase_iff.mpr ⟨fun heq => hne ?_, hsm⟩, by rw [keys_revive hk]; exact hsk⟩
    subst heq
    rw [hsk] at hk
    cases hk; rfl

theorem Ok.revive (h : p.Ok layout lo hi) (hk : p.keys[pos]? = some key) :
    (p.revive pos key rid).Ok layout lo hi := by
  constructor
  · rw [keys_revive hk]; exact h.sorted
  · rw [keys_revive hk]; exact h.inRange
  · rw [keys_revive hk]; exact h.short
  · exact h.distinct.erase _
  · intro s hs
    show s < (p.entries.set _ _).length
    rw [List.length_set]
    exact h.slots s (List.mem_of_mem_erase hs)
  · exact Nat.le_trans List.length_erase_le h.few

theorem mem_entries_revive (hs : p.keys.Pairwise (· < ·)) (hk : p.keys[pos]? = some key) (e : Key × RecordId) :
    e ∈ (p.revive pos key rid).entries ↔ e = (key, rid) ∨ e ∈ p.entries ∧ e.1 ≠ key := by
  have hlen : pos < p.entries.length := by simpa using (List.getElem?_eq_some_iff.mp hk).1
  constructor
  · intro he
    obtain ⟨i, hi⟩ := List.getElem?_of_mem he
    rw [show (p.revive pos key rid).entries = p.entries.set pos (key, rid) from rfl, List.getElem?_set] at hi
    split at hi
    · cases hi; exact .inl rfl
    · rename_i hne
      refine .inr ⟨List.mem_of_getElem? hi, fun heq => hne ?_⟩
      have hki : p.keys[i]? = some key := by rw [getElem?_keys, hi, Option.map_some, heq]
      exact keys_index_unique hs hk hki
  · rintro (rfl | ⟨he, hne⟩)
    · exact List.mem_set hlen _
    · obtain ⟨i, hi⟩ := List.getElem?_of_mem he
      refine List.mem_of_getElem? (i := i) ?_
      rw [show (p.revive pos key rid).entries = p.entries.set pos (key, rid) from rfl, List.getElem?_set_ne, hi]
      intro heq
      subst heq
      rw [getElem?_keys, hi, Option.map_some, Option.some.injEq] at hk
      exact hne hk

/-- Inserting a key: the page maps it to the new record id, and every other key is as before. -/
theorem insert_spec (h : p.Ok layout lo hi) (hin : InRange lo hi key) (hshort : key.length ≤ layout.maxKeyLen)
    (hi' : p.insert key rid = .ok q) :
    q.Ok layout lo hi ∧ q.nextLeafId = p.nextLeafId ∧ (∀ r, ¬ p.Maps key r) ∧
      (∀ k r, q.Maps k r ↔ (k = key ∧ r = rid) ∨ (p.Maps k r ∧ k ≠ key)) ∧
      q.usedBytes layout ≤ p.usedBytes layout + layout.leafArea.entryCost key.length := by
  unfold insert at hi'
  cases hsr : p.search key with
  | ok pos =>
    rw [hsr] at hi'
    simp only at hi'
    have hk := search_ok hsr
    split at hi'
    · rename_i ht
      have hdead := (isTombstoned_iff h.sorted hk).mp ht
      cases hi'
      refine ⟨h.revive hk, rfl, fun r hm => hm.2 hdead, fun k r => ?_, ?_⟩
      · rw [Maps, mem_entries_revive h.sorted hk, dead_revive h.sorted h.distinct hk]
        constructor
        · rintro ⟨heq | ⟨he, hne⟩, hd⟩
          · cases heq; exact .inl ⟨rfl, rfl⟩
          · exact .inr ⟨⟨he, fun hd' => hd ⟨hd', hne⟩⟩, hne⟩
        · rintro (⟨rfl, rfl⟩ | ⟨⟨he, hd⟩, hne⟩)
          · exact ⟨.inl rfl, fun hd => hd.2 rfl⟩
          · exact ⟨.inr ⟨he, hne⟩, fun hd' => hd hd'.1⟩
      · rw [usedBytes, usedBytes, keys_revive hk]
        exact Nat.le_add_right _ _
    · cases hi'
  | error pos =>
    rw [hsr] at hi'
    cases hi'
    have hnot := search_error_not_mem h.sorted hsr
    have hpos := (search_error h.sorted hsr).1
    refine ⟨h.insertAt hsr hin hshort, rfl, fun r hm => hnot (List.mem_map_of_mem (f := Prod.fst) hm.1),
      fun k r => ?_, ?_⟩
    · rw [Maps, mem_entries_insertAt hpos, dead_insertAt]
      constructor
      · rintro ⟨heq | he, hd⟩
        · cases heq; exact .inl ⟨rfl, rfl⟩
        · refine .inr ⟨⟨he, hd⟩, ?_⟩
          rintro rfl
          exact hnot (List.mem_map_of_mem (f := Prod.fst) he)
      · rintro (⟨rfl, rfl⟩ | ⟨hm, -⟩)
        · exact ⟨.inl rfl, fun hd => hnot hd.mem⟩
        · exact ⟨.inr hm.1, hm.2⟩
    · rw [usedBytes, keys_insertAt, Lib.insertIdx_eq_append hpos, usedBytes]
      conv_rhs => rw [← List.take_append_drop pos p.keys]
      simp only [List.map_append, List.map_cons, List.sum_append, List.sum_cons]
      omega

/-! ## Removing -/

theorem keys_physicalRemoveAt (p : LeafPage) (slot : Nat) :
    (p.physicalRemoveAt slot).keys = p.keys.eraseIdx slot := by
  simp [physicalRemoveAt, keys, List.eraseIdx_map]

theorem getElem?_eraseIdx_adjust {α : Type} (l : List α) {slot s : Nat} (hne : s ≠ slot) :
    (l.eraseIdx slot)[if slot < s then s - 1 else s]? = l[s]? := by
  rw [List.getElem?_eraseIdx]
  split
  · rw [if_neg (by omega)]
    congr 1; omega
  · rw [if_pos (by omega)]

theorem dead_physicalRemoveAt (hs : p.keys.Pairwise (· < ·)) {slot : Nat}
    (hk : p.keys[slot]? = some key) (k : Key) :
    (p.physicalRemoveAt slot).Dead k ↔ p.Dead k ∧ k ≠ key := by
  constructor
  · rintro ⟨s, hsm, hsk⟩
    obtain ⟨s', hs', rfl⟩ := List.mem_map.mp hsm
    rw [List.mem_filter] at hs'
    have hne : s' ≠ slot := by simpa using hs'.2
    rw [keys_physicalRemoveAt, getElem?_eraseIdx_adjust _ hne] at hsk
    refine ⟨⟨s', hs'.1, hsk⟩, fun heq => hne ?_⟩
    subst heq
    exact keys_index_unique hs hsk hk
  · rintro ⟨⟨s, hsm, hsk⟩, hne⟩
    have hss : s ≠ slot := by
      rintro rfl
      rw [hsk] at hk
      cases hk; exact hne rfl
    refine ⟨_, List.mem_map_of_mem (List.mem_filter.mpr ⟨hsm, by simpa using hss⟩), ?_⟩
    rw [keys_physicalRemoveAt, getElem?_eraseIdx_adjust _ hss]
    exact hsk

theorem mem_entries_physicalRemoveAt (hs : p.keys.Pairwise (· < ·)) {slot : Nat} (hk : p.keys[slot]? = some key)
    (e : Key × RecordId) : e ∈ (p.physicalRemoveAt slot).entries ↔ e ∈ p.entries ∧ e.1 ≠ key := by
  show e ∈ p.entries.eraseIdx slot ↔ _
  rw [List.mem_eraseIdx_iff_getElem?]
  constructor
  · rintro ⟨i, hne, hi⟩
    refine ⟨List.mem_of_getElem? hi, fun heq => hne ?_⟩
    have hki : p.keys[i]? = some key := by rw [getElem?_keys, hi, Option.map_some, heq]
    exact keys_index_unique hs hki hk
  · rintro ⟨he, hne⟩
    obtain ⟨i, hi⟩ := List.getElem?_of_mem he
    refine ⟨i, ?_, hi⟩
    rintro rfl
    rw [getElem?_keys, hi, Option.map_some, Option.some.injEq] at hk
    exact hne hk

theorem nodup_physicalRemoveAt (hd : p.tombstones.Nodup) (slot : Nat) :
    (p.physicalRemoveAt slot).tombstones.Nodup := by
  refine List.Nodup.map_on ?_ (hd.filter _)
  intro a ha b hb hab
  have ha' : a ≠ slot := by simpa using (List.mem_filter.mp ha).2
  have hb' : b ≠ slot := by simpa using (List.mem_filter.mp hb).2
  split at hab <;> split at hab <;> omega

theorem slots_physicalRemoveAt (hslots : ∀ s ∈ p.tombstones, s < p.entries.length) (slot : Nat) :
    ∀ s ∈ (p.physicalRemoveAt slot).tombstones, s < (p.physicalRemoveAt slot).entries.length := by
  intro s hs
  obtain ⟨s', hs', rfl⟩ := List.mem_map.mp hs
  obtain ⟨hs', hne⟩ := List.mem_filter.mp hs'
  have hne : s' ≠ slot := by simpa using hne
  have hlt := hslots s' hs'
  show _ < (p.entries.eraseIdx slot).length
  rw [List.length_eraseIdx]
  split <;> split <;> omega

theorem length_tombstones_physicalRemoveAt (p : LeafPage) (slot : Nat) :
    (p.physicalRemoveAt slot).tombstones.length ≤ p.tombstones.length := by
  show ((p.tombstones.filter _).map _).length ≤ _
  rw [List.length_map]
  exact List.length_filter_le _ _

theorem Ok.physicalRemoveAt (h : p.Ok layout lo hi) (slot : Nat) : (p.physicalRemoveAt slot).Ok layout lo hi := by
  have hsub : (p.physicalRemoveAt slot).keys.Sublist p.keys := by
    rw [keys_physicalRemoveAt]; exact List.eraseIdx_sublist _ _
  constructor
  · exact h.sorted.sublist hsub
  · exact fun k hk => h.inRange k (hsub.subset hk)
  · exact fun k hk => h.short k (hsub.subset hk)
  · exact nodup_physicalRemoveAt h.distinct slot
  · exact slots_physicalRemoveAt h.slots slot
  · exact Nat.le_trans (length_tombstones_physicalRemoveAt p slot) h.few

theorem Ok.tail (h : p.Ok layout lo hi) {oldest : Nat} {rest : List Nat} (ht : p.tombstones = oldest :: rest) :
    ({ p with tombstones := rest } : LeafPage).Ok layout lo hi := by
  have hd := h.distinct
  rw [ht] at hd
  refine ⟨h.sorted, h.inRange, h.short, (List.nodup_cons.mp hd).2,
    fun s hs => h.slots s (by rw [ht]; exact List.mem_cons_of_mem _ hs), ?_⟩
  have := h.few
  rw [ht, List.length_cons] at this
  exact Nat.le_of_succ_le this

theorem purgeOldest_eq {oldest : Nat} {rest : List Nat} (ht : p.tombstones = oldest :: rest) :
    p.purgeOldestTombstone = ({ p with tombstones := rest } : LeafPage).physicalRemoveAt oldest := by
  unfold purgeOldestTombstone
  split
  · rename_i h; rw [ht] at h; cases h
  · rename_i o r h
    rw [ht] at h
    cases h; rfl

theorem purge_spec (hs : p.keys.Pairwise (· < ·)) (hslots : ∀ s ∈ p.tombstones, s < p.entries.length)
    {oldest : Nat} {rest : List Nat} (ht : p.tombstones = oldest :: rest) :
    ∃ k, p.keys[oldest]? = some k ∧ p.Dead k ∧
      (∀ e, e ∈ p.purgeOldestTombstone.entries ↔ e ∈ p.entries ∧ e.1 ≠ k) ∧
      ∀ k', p.purgeOldestTombstone.Dead k' ↔ p.Dead k' ∧ k' ≠ k := by
  have hlt : oldest < p.keys.length := by
    rw [length_keys]; exact hslots oldest (by rw [ht]; simp)
  have hk := List.getElem?_eq_getElem hlt
  refine ⟨_, hk, ⟨oldest, by rw [ht]; simp, hk⟩, ?_, ?_⟩
  · rw [purgeOldest_eq ht]
    exact mem_entries_physicalRemoveAt (p := { p with tombstones := rest }) hs hk
  · intro k'
    rw [purgeOldest_eq ht, dead_physicalRemoveAt (p := { p with tombstones := rest }) hs hk]
    constructor
    · rintro ⟨⟨s, hsm, hsk⟩, hne⟩
      exact ⟨⟨s, by rw [ht]; exact List.mem_cons_of_mem _ hsm, hsk⟩, hne⟩
    · rintro ⟨⟨s, hsm, hsk⟩, hne⟩
      rw [ht] at hsm
      rcases List.mem_cons.mp hsm with rfl | hsm
      · rw [hk] at hsk
        cases hsk
        exact absurd rfl hne
      · exact ⟨⟨s, hsm, hsk⟩, hne⟩

theorem Ok.purge (h : p.Ok layout lo hi) : p.purgeOldestTombstone.Ok layout lo hi := by
  cases ht : p.tombstones with
  | nil =>
    unfold purgeOldestTombstone
    rw [ht]; exact h
  | cons oldest rest =>
    rw [purgeOldest_eq ht]
    exact (h.tail ht).physicalRemoveAt oldest

theorem dead_append_tombstone {slot : Nat} (hk : p.keys[slot]? = some key) (k : Key) :
    ({ p with tombstones := p.tombstones ++ [slot] } : LeafPage).Dead k ↔ p.Dead k ∨ k = key := by
  constructor
  · rintro ⟨s, hsm, hsk⟩
    rcases List.mem_append.mp hsm with hsm | hsm
    · exact .inl ⟨s, hsm, hsk⟩
    · rw [List.mem_singleton] at hsm
      subst hsm
      have : p.keys[s]? = some k := hsk
      rw [hk] at this
      cases this; exact .inr rfl
  · rintro (⟨s, hsm, hsk⟩ | rfl)
    · exact ⟨s, List.mem_append_left _ hsm, hsk⟩
    · exact ⟨slot, by simp, hk⟩

theorem Ok.append_tombstone (h : p.Ok layout lo hi) {slot : Nat} (hk : p.keys[slot]? = some key)
    (hnot : ¬ p.Dead key) (hroom : p.tombstones.length < layout.tombstoneCapacity) :
    ({ p with tombstones := p.tombstones ++ [slot] } : LeafPage).Ok layout lo hi := by
  refine ⟨h.sorted, h.inRange, h.short, ?_, ?_, ?_⟩
  · rw [List.nodup_append]
    refine ⟨h.distinct, by simp, fun a ha b hb hab => ?_⟩
    rw [List.mem_singleton] at hb
    subst hab hb
    exact hnot ⟨a, ha, hk⟩
  · intro s hs
    rcases List.mem_append.mp hs with hs | hs
    · exact h.slots s hs
    · rw [List.mem_singleton] at hs
      subst hs
      simpa using (List.getElem?_eq_some_iff.mp hk).1
  · show (p.tombstones ++ [slot]).length ≤ _
    rw [List.length_append]
    exact hroom

theorem removeKey_spec (h : p.Ok layout lo hi) (hr : p.removeKey layout key = some q) :
    q.Ok layout lo hi ∧ q.nextLeafId = p.nextLeafId ∧ q.entries.Sublist p.entries ∧ (∃ r, p.Maps key r) ∧
      ∀ k r, q.Maps k r ↔ p.Maps k r ∧ k ≠ key := by
  unfold removeKey at hr
  cases hsr : p.search key with
  | error pos => rw [hsr] at hr; cases hr
  | ok slot =>
    rw [hsr] at hr
    simp only at hr
    have hk := search_ok hsr
    have htomb := isTombstoned_iff h.sorted hk
    split at hr
    · cases hr
    rename_i hnt
    have hlive : ¬ p.Dead key := fun hd => hnt (htomb.mpr hd)
    have hmaps := maps_of_slot hk hlive
    split at hr
    · cases hr
      refine ⟨h.physicalRemoveAt slot, rfl, List.eraseIdx_sublist _ _, hmaps, fun k r => ?_⟩
      rw [Maps, Maps, mem_entries_physicalRemoveAt h.sorted hk, dead_physicalRemoveAt h.sorted hk]
      constructor
      · rintro ⟨⟨he, hne⟩, hd⟩
        exact ⟨⟨he, fun hd' => hd ⟨hd', hne⟩⟩, hne⟩
      · rintro ⟨⟨he, hd⟩, hne⟩
        exact ⟨⟨he, hne⟩, fun hd' => hd hd'.1⟩
    rename_i hcap
    split at hr
    · rename_i hfull
      cases hr
      cases ht : p.tombstones with
      | nil =>
        rw [tombstonesFull, ht] at hfull
        simp only [List.length_nil, Nat.le_zero, decide_eq_true_eq] at hfull
        exact absurd hfull hcap
      | cons oldest rest =>
        obtain ⟨k₀, hk₀, hdead, hents, hdeads⟩ := purge_spec h.sorted h.slots ht
        have hne₀ : slot ≠ oldest := by
          rintro rfl
          rw [hk₀] at hk
          cases hk; exact hlive hdead
        have hkey₀ : key ≠ k₀ := by rintro rfl; exact hlive hdead
        have hkeys : p.purgeOldestTombstone.keys = p.keys.eraseIdx oldest := by
          rw [purgeOldest_eq ht, keys_physicalRemoveAt]; rfl
        have hk' : p.purgeOldestTombstone.keys[if oldest < slot then slot - 1 else slot]? = some key := by
          rw [hkeys, getElem?_eraseIdx_adjust _ hne₀]; exact hk
        have hlive' : ¬ p.purgeOldestTombstone.Dead key := fun hd => hlive ((hdeads key).mp hd).1
        have hroom : p.purgeOldestTombstone.tombstones.length < layout.tombstoneCapacity := by
          rw [purgeOldest_eq ht]
          show ((rest.filter _).map _).length < _
          rw [List.length_map]
          have h₁ := List.length_filter_le (fun s => decide (s ≠ oldest)) rest
          have h₂ := h.few
          rw [ht, List.length_cons] at h₂
          omega
        rw [List.headD_cons]
        refine ⟨h.purge.append_tombstone hk' hlive' hroom, by rw [purgeOldest_eq ht]; rfl, ?_, hmaps, fun k r => ?_⟩
        · show p.purgeOldestTombstone.entries.Sublist _
          rw [purgeOldest_eq ht]
          exact List.eraseIdx_sublist _ _
        · rw [Maps, dead_append_tombstone hk', hdeads]
          show (k, r) ∈ p.purgeOldestTombstone.entries ∧ _ ↔ _
          rw [hents, Maps]
          constructor
          · rintro ⟨⟨he, hne⟩, hd⟩
            exact ⟨⟨he, fun hd' => hd (.inl ⟨hd', hne⟩)⟩, fun heq => hd (.inr heq)⟩
          · rintro ⟨⟨he, hd⟩, hne⟩
            refine ⟨⟨he, ?_⟩, ?_⟩
            · rintro rfl; exact hd hdead
            · rintro (hd' | rfl)
              · exact hd hd'.1
              · exact hne rfl
    · rename_i hroom
      cases hr
      have hroom : p.tombstones.length < layout.tombstoneCapacity := by
        rw [tombstonesFull] at hroom
        simpa using hroom
      refine ⟨h.append_tombstone hk hlive hroom, rfl, List.Sublist.refl _, hmaps, fun k r => ?_⟩
      rw [Maps, dead_append_tombstone hk, Maps]
      constructor
      · rintro ⟨he, hd⟩
        exact ⟨⟨he, fun hd' => hd (.inl hd')⟩, fun heq => hd (.inr heq)⟩
      · rintro ⟨⟨he, hd⟩, hne⟩
        exact ⟨he, fun hd' => hd'.elim hd hne⟩

/-! ## Bytes -/

theorem usedBytes_le_of_sublist (h : q.keys.Sublist p.keys) : q.usedBytes layout ≤ p.usedBytes layout :=
  (h.map _).sum_le_sum fun _ _ => Nat.zero_le _

theorem check_of_ok (h : p.Ok layout lo hi) : p.check layout = true := by
  simp only [check, Bool.and_eq_true, decide_eq_true_eq, List.all_eq_true]
  exact ⟨⟨⟨h.sorted.imp fun hab => le_of_lt hab, h.few⟩, h.slots⟩, h.short⟩

theorem encodes_of_ok (h : p.Ok layout lo hi) (hfit : p.usedBytes layout ≤ layout.leafArea.capacity) :
    p.encodes layout = true := by
  rw [encodes, Bool.and_eq_true, decide_eq_true_eq]
  exact ⟨check_of_ok h, hfit⟩

end LeafPage

end BPlus

end Cmudb
