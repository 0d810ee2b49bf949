import Mathlib.Algebra.Order.BigOperators.Group.List
import Mathlib.Algebra.Order.Monoid.NatCast
import Cmudb.BPlusPage

/-!
# Bytes of pages

A page that one entry has overfilled splits into two that fit and are not
underfull, and a page that is underfull fits into one page with a sibling that
cannot lend.
-/

namespace Cmudb

namespace BPlus

/-! ## Balanced splits -/

section

variable {costs : List Nat} {dropMiddle : Bool}

def leftBytes (costs : List Nat) (i : Nat) : Nat := (costs.take i).sum

def rightBytes (costs : List Nat) (dropMiddle : Bool) (i : Nat) : Nat :=
  costs.sum - leftBytes costs i - if dropMiddle then costs.getD i 0 else 0

def splitGap (costs : List Nat) (dropMiddle : Bool) (i : Nat) : Nat :=
  if leftBytes costs i ≤ rightBytes costs dropMiddle i then rightBytes costs dropMiddle i - leftBytes costs i
  else leftBytes costs i - rightBytes costs dropMiddle i

def SplitFound (costs : List Nat) (dropMiddle : Bool) (j : Nat) (acc : (Option Nat × Nat) × Nat × Nat) : Prop :=
  acc.2 = (leftBytes costs j, j) ∧
    ((acc.1 = (none, 1) ∧ j ≤ 1) ∨
      ∃ best, acc.1 = (some (splitGap costs dropMiddle best), best) ∧ 1 ≤ best ∧ best < j ∧
        ∀ i, 1 ≤ i → i < j → splitGap costs dropMiddle best ≤ splitGap costs dropMiddle i)

theorem leftBytes_succ {pre suf : List Nat} {c : Nat} (h : costs = pre ++ c :: suf) :
    leftBytes costs (pre.length + 1) = leftBytes costs pre.length + c := by
  unfold leftBytes
  rw [h, List.take_append_of_le_length (Nat.le_refl _), List.take_length,
    show pre ++ c :: suf = (pre ++ [c]) ++ suf by simp,
    show pre.length + 1 = (pre ++ [c]).length by simp, List.take_left]
  simp

theorem SplitFound.step {pre suf : List Nat} {c : Nat} (h : costs = pre ++ c :: suf)
    {acc : (Option Nat × Nat) × Nat × Nat} (hacc : SplitFound costs dropMiddle pre.length acc) :
    SplitFound costs dropMiddle (pre.length + 1) (balancedStep costs.sum dropMiddle acc c) := by
  obtain ⟨⟨bestGap, best⟩, left, split⟩ := acc
  obtain ⟨h₁, h₂⟩ := hacc
  simp only [Prod.mk.injEq] at h₁
  obtain ⟨rfl, rfl⟩ := h₁
  have hget : costs.getD pre.length 0 = c := by rw [h]; simp
  have hgap :
    (if leftBytes costs pre.length ≤ costs.sum - leftBytes costs pre.length - (if dropMiddle then c else 0) then
      costs.sum - leftBytes costs pre.length - (if dropMiddle then c else 0) - leftBytes costs pre.length
      else leftBytes costs pre.length - (costs.sum - leftBytes costs pre.length - if dropMiddle then c else 0)) =
      splitGap costs dropMiddle pre.length := by
    unfold splitGap rightBytes
    rw [hget]
  refine ⟨by simp [balancedStep, leftBytes_succ h], ?_⟩
  simp only [balancedStep, hgap]
  split
  · rename_i hb
    obtain ⟨hpos, hall⟩ := hb
    refine .inr ⟨pre.length, rfl, hpos, Nat.lt_succ_self _, fun i hi hlt => ?_⟩
    rcases Nat.lt_succ_iff_lt_or_eq.mp hlt with hlt | rfl
    · rcases h₂ with ⟨heq, hle⟩ | ⟨b, heq, -, -, hmin⟩
      · omega
      · simp only [Prod.mk.injEq] at heq
        obtain ⟨rfl, rfl⟩ := heq
        have hlt' : splitGap costs dropMiddle pre.length < splitGap costs dropMiddle best := by simpa using hall
        exact Nat.le_trans (Nat.le_of_lt hlt') (hmin i hi hlt)
    · exact Nat.le_refl _
  · rename_i hb
    rcases h₂ with ⟨heq, hle⟩ | ⟨b, heq, hb₁, hb₂, hmin⟩
    · simp only [Prod.mk.injEq] at heq
      obtain ⟨rfl, rfl⟩ := heq
      refine .inl ⟨rfl, ?_⟩
      rcases Nat.eq_zero_or_pos pre.length with hz | hp
      · omega
      · exact absurd ⟨hp, rfl⟩ hb
    · simp only [Prod.mk.injEq] at heq
      obtain ⟨rfl, rfl⟩ := heq
      refine .inr ⟨best, rfl, hb₁, Nat.lt_succ_of_lt hb₂, fun i hi hlt => ?_⟩
      rcases Nat.lt_succ_iff_lt_or_eq.mp hlt with hlt | rfl
      · exact hmin i hi hlt
      · refine Nat.not_lt.mp fun hlt' => hb ⟨hi, ?_⟩
        simpa using hlt'

theorem SplitFound.run : ∀ (suf pre : List Nat), costs = pre ++ suf →
    ∀ acc, SplitFound costs dropMiddle pre.length acc →
    SplitFound costs dropMiddle costs.length (suf.foldl (balancedStep costs.sum dropMiddle) acc)
  | [], pre, h, acc, hacc => by
    rw [List.append_nil] at h
    rw [show costs.length = pre.length by rw [h]]
    exact hacc
  | c :: suf, pre, h, acc, hacc => by
    refine SplitFound.run suf (pre ++ [c]) (by rw [h]; simp) _ ?_
    rw [List.length_append]
    exact hacc.step h

theorem balancedSplit_spec (dropMiddle : Bool) (h : 2 ≤ costs.length) :
    1 ≤ balancedSplit costs dropMiddle ∧ balancedSplit costs dropMiddle < costs.length ∧
      ∀ i, 1 ≤ i → i < costs.length →
      splitGap costs dropMiddle (balancedSplit costs dropMiddle) ≤ splitGap costs dropMiddle i := by
  have hrun : SplitFound costs dropMiddle costs.length
      (costs.foldl (balancedStep costs.sum dropMiddle) ((none, 1), 0, 0)) :=
    SplitFound.run costs [] rfl _ ⟨by simp [leftBytes], .inl ⟨rfl, Nat.zero_le _⟩⟩
  obtain ⟨-, ⟨-, hle⟩ | ⟨best, heq, h₁, h₂, h₃⟩⟩ := hrun
  · omega
  · have : balancedSplit costs dropMiddle = best := by unfold balancedSplit; rw [heq]
    rw [this]
    exact ⟨h₁, h₂, h₃⟩

theorem leftBytes_le_sum (costs : List Nat) (i : Nat) : leftBytes costs i ≤ costs.sum :=
  (List.take_sublist i costs).sum_le_sum fun _ _ => Nat.zero_le _

theorem leftBytes_add_one (costs : List Nat) (i : Nat) :
    leftBytes costs (i + 1) = leftBytes costs i + costs.getD i 0 := by
  unfold leftBytes
  rw [List.take_add_one, List.sum_append, List.getD_eq_getElem?_getD]
  cases costs[i]? <;> simp

theorem getD_le {max : Nat} (hmax : ∀ c ∈ costs, c ≤ max) (i : Nat) : costs.getD i 0 ≤ max := by
  rw [List.getD_eq_getElem?_getD]
  cases hg : costs[i]? with
  | none => exact Nat.zero_le _
  | some c => exact hmax c (List.mem_of_getElem? hg)

/-- Twice the bytes on the left, and the bytes that go to neither side: the split is even when this is the sum. -/
def balance (costs : List Nat) (dropMiddle : Bool) (i : Nat) : Nat :=
  2 * leftBytes costs i + if dropMiddle then costs.getD i 0 else 0

theorem leftBytes_length (costs : List Nat) : leftBytes costs costs.length = costs.sum := by
  rw [leftBytes, List.take_length]

theorem middle_le {max : Nat} (hmax : ∀ c ∈ costs, c ≤ max) (dropMiddle : Bool) (i : Nat) :
    (if dropMiddle then costs.getD i 0 else 0) ≤ max := by
  split
  · exact getD_le hmax i
  · exact Nat.zero_le _

theorem left_middle_le (costs : List Nat) (dropMiddle : Bool) (i : Nat) :
    leftBytes costs i + (if dropMiddle then costs.getD i 0 else 0) ≤ costs.sum := by
  have hnext := leftBytes_le_sum costs (i + 1)
  rw [leftBytes_add_one] at hnext
  split <;> omega

theorem splitGap_eq (costs : List Nat) (dropMiddle : Bool) (i : Nat) :
    splitGap costs dropMiddle i =
      (balance costs dropMiddle i - costs.sum) + (costs.sum - balance costs dropMiddle i) := by
  have hroom := left_middle_le costs dropMiddle i
  unfold splitGap rightBytes balance
  generalize (if dropMiddle then costs.getD i 0 else 0) = middle at *
  split <;> omega

theorem balance_succ_le {max : Nat} (hmax : ∀ c ∈ costs, c ≤ max) (dropMiddle : Bool) (i : Nat) :
    balance costs dropMiddle (i + 1) ≤ balance costs dropMiddle i + 2 * max := by
  have hi := getD_le hmax i
  have hnext := getD_le hmax (i + 1)
  unfold balance
  rw [leftBytes_add_one]
  cases dropMiddle
  · simp only [Bool.false_eq_true, if_false]
    omega
  · simp only [if_true]
    omega

/-- Where the balance passes the sum, one of the two splits next to it is even up to one entry. -/
theorem exists_even (dropMiddle : Bool) {max : Nat} (hmax : ∀ c ∈ costs, c ≤ max) (hbig : 2 * max < costs.sum) :
    ∃ i, 1 ≤ i ∧ i < costs.length ∧ splitGap costs dropMiddle i ≤ max := by
  have hlast : balance costs dropMiddle costs.length = 2 * costs.sum := by
    rw [balance, leftBytes_length, List.getD_eq_getElem?_getD, List.getElem?_eq_none (Nat.le_refl _)]
    split <;> rfl
  have hfirst : balance costs dropMiddle 0 ≤ max := by
    have := middle_le hmax dropMiddle 0
    simpa [balance, leftBytes] using this
  have hex : ∃ i, costs.sum ≤ balance costs dropMiddle i := ⟨costs.length, by omega⟩
  have hpass := Nat.find_spec hex
  have hend : Nat.find hex ≤ costs.length := Nat.find_min' hex (by omega)
  obtain ⟨i, hi⟩ : ∃ i, Nat.find hex = i + 1 := by
    apply Nat.exists_eq_add_one_of_ne_zero
    intro hzero
    rw [hzero] at hpass
    omega
  have hbefore : balance costs dropMiddle i < costs.sum := Nat.not_le.mp (Nat.find_min hex (by omega))
  have hstep := balance_succ_le hmax dropMiddle i
  rw [hi] at hpass hend
  by_cases hnear : balance costs dropMiddle (i + 1) ≤ costs.sum + max
  · refine ⟨i + 1, Nat.succ_le_succ (Nat.zero_le i), ?_, ?_⟩
    · apply Nat.lt_of_le_of_ne hend
      intro hlen
      rw [hlen, hlast] at hnear
      omega
    · rw [splitGap_eq]
      omega
  · refine ⟨i, ?_, hend, ?_⟩
    · apply Nat.pos_of_ne_zero
      intro hzero
      rw [hzero] at hnear hstep
      omega
    · rw [splitGap_eq]
      omega

/-- Both sides of the split of a page that one entry has overfilled fit, and hold all but two entries' worth of half
a page. -/
theorem balancedSplit_sides (dropMiddle : Bool) {max cap : Nat} (hmax : ∀ c ∈ costs, c ≤ max) (hcap : 4 * max ≤ cap)
    (hover : cap < costs.sum) (hone : costs.sum ≤ cap + max) :
    1 ≤ balancedSplit costs dropMiddle ∧ balancedSplit costs dropMiddle < costs.length ∧
      (leftBytes costs (balancedSplit costs dropMiddle) ≤ cap ∧
        rightBytes costs dropMiddle (balancedSplit costs dropMiddle) ≤ cap) ∧
      (cap - if dropMiddle then 2 * max else max) / 2 ≤ leftBytes costs (balancedSplit costs dropMiddle) ∧
      (cap - if dropMiddle then 2 * max else max) / 2 ≤
        rightBytes costs dropMiddle (balancedSplit costs dropMiddle) := by
  obtain ⟨i, hi₁, hi₂, hgap⟩ := exists_even dropMiddle hmax (by omega)
  obtain ⟨h₁, h₂, h₃⟩ := balancedSplit_spec dropMiddle (show 2 ≤ costs.length by omega)
  have hgap := Nat.le_trans (h₃ i hi₁ hi₂) hgap
  generalize balancedSplit costs dropMiddle = r at *
  have hroom := left_middle_le costs dropMiddle r
  have hmiddle := middle_le hmax dropMiddle r
  refine ⟨h₁, h₂, ?_⟩
  unfold splitGap rightBytes at hgap
  unfold rightBytes
  cases dropMiddle
  · simp only [Bool.false_eq_true, if_false] at *
    split at hgap <;> omega
  · simp only [if_true] at *
    split at hgap <;> omega

end

section

variable {layout : Layout}

theorem entryCost_le {k : Key} (h : k.length ≤ layout.maxKeyLen) :
    layout.leafArea.entryCost k.length ≤ layout.leafMaxEntryBytes := by
  unfold Layout.leafMaxEntryBytes EntryArea.entryCost
  omega

theorem internalCost_le {k : Key} (h : k.length ≤ layout.maxKeyLen) :
    internalArea.entryCost k.length ≤ layout.internalMaxEntryBytes := by
  unfold Layout.internalMaxEntryBytes EntryArea.entryCost
  omega

theorem sum_insertIdx_le (l : List Nat) (i c : Nat) : (l.insertIdx i c).sum ≤ l.sum + c := by
  induction l generalizing i with
  | nil => cases i <;> simp
  | cons a l ih =>
    cases i with
    | zero => simp [Nat.add_comm]
    | succ i =>
      have := ih i
      simp only [List.insertIdx_succ_cons, List.sum_cons]
      omega

theorem mem_insertIdx_of_ne {α : Type} {l : List α} {i : Nat} {a : α} (h : l.insertIdx i a ≠ l) :
    a ∈ l.insertIdx i a := by
  by_cases hi : i ≤ l.length
  · exact (List.mem_insertIdx hi).mpr (.inl rfl)
  · exact absurd (List.insertIdx_of_length_lt (Nat.not_le.mp hi)) h

/-! ## Leaves -/

namespace LeafPage

variable {p q : LeafPage}

structure SplitsInto (layout : Layout) (q left right : LeafPage) (sep : Key) : Prop where
  entries : left.entries ++ right.entries = q.entries
  leftFits : left.isOverfull layout = false
  rightFits : right.isOverfull layout = false
  leftFilled : left.isUnderfull layout = false
  rightFilled : right.isUnderfull layout = false
  leftEntry : left.entries ≠ []
  rightEntry : right.entries ≠ []
  separator : right.firstKey = some sep
  between : q.keys.Pairwise (· ≤ ·) → (∀ k ∈ left.keys, k ≤ sep) ∧ ∀ k ∈ right.keys, sep ≤ k
  above : q.keys.Pairwise (· < ·) → ∀ k ∈ left.keys, k < sep

theorem costs_le (h : ∀ k ∈ q.keys, k.length ≤ layout.maxKeyLen) :
    ∀ c ∈ q.costs layout, c ≤ layout.leafMaxEntryBytes := by
  intro c hc
  obtain ⟨k, hk, rfl⟩ := List.mem_map.mp hc
  exact entryCost_le (h k hk)

/-- A page that one entry has overfilled is too long by less than the longest entry. -/
theorem usedBytes_of_added (hshort : ∀ k ∈ q.keys, k.length ≤ layout.maxKeyLen)
    (hfitted : p.isOverfull layout = false) {i : Nat} {key : Key} (hq : q.keys = p.keys.insertIdx i key)
    (hover : q.isOverfull layout = true) :
    q.usedBytes layout ≤ layout.leafArea.capacity + layout.leafMaxEntryBytes := by
  have hfitted : p.usedBytes layout ≤ layout.leafArea.capacity := Nat.not_lt.mp (of_decide_eq_false hfitted)
  have hover : layout.leafArea.capacity < q.usedBytes layout := of_decide_eq_true hover
  have hused : q.usedBytes layout ≤ p.usedBytes layout + layout.leafArea.entryCost key.length := by
    unfold usedBytes
    rw [hq, List.map_insertIdx]
    exact sum_insertIdx_le _ _ _
  have hadded : key ∈ p.keys.insertIdx i key := by
    apply mem_insertIdx_of_ne
    intro hsame
    rw [usedBytes, hq, hsame] at hover
    exact Nat.not_lt.mpr hfitted hover
  have := entryCost_le (hshort key (hq ▸ hadded))
  omega

theorem usedBytes_take (layout : Layout) (p : LeafPage) (mid : Nat) (next : Option Nat) (ts : List Nat) :
    usedBytes layout ⟨p.entries.take mid, next, ts⟩ = leftBytes (p.costs layout) mid := by
  simp [usedBytes, keys, costs, leftBytes, List.map_take]

theorem usedBytes_drop (layout : Layout) (p : LeafPage) (mid : Nat) (next : Option Nat) (ts : List Nat) :
    usedBytes layout ⟨p.entries.drop mid, next, ts⟩ = rightBytes (p.costs layout) false mid := by
  have hsum := List.sum_take_add_sum_drop (p.costs layout) mid
  have hdrop : usedBytes layout ⟨p.entries.drop mid, next, ts⟩ = ((p.costs layout).drop mid).sum := by
    simp [usedBytes, keys, costs, List.map_drop]
  rw [hdrop, rightBytes, leftBytes, if_neg Bool.false_ne_true]
  omega

theorem between_of_pairwise {R : Key → Key → Prop} {as bs : List Key} {sep : Key} (h : (as ++ bs).Pairwise R)
    (hsep : bs.head? = some sep) :
    (∀ k ∈ as, R k sep) ∧ ∀ k ∈ bs.tail, R sep k := by
  cases bs with
  | nil => cases hsep
  | cons b bs =>
    cases hsep
    rw [List.pairwise_append, List.pairwise_cons] at h
    exact ⟨fun k hk => h.2.2 k hk _ (by simp), h.2.1.1⟩

theorem splitInto_spec (hshort : ∀ k ∈ q.keys, k.length ≤ layout.maxKeyLen) (hover : q.isOverfull layout = true)
    (hone : q.usedBytes layout ≤ layout.leafArea.capacity + layout.leafMaxEntryBytes) (rightPageId : Nat) :
    ∃ sep, q.SplitsInto layout (q.splitInto layout rightPageId).1 (q.splitInto layout rightPageId).2 sep := by
  have hover : layout.leafArea.capacity < (q.costs layout).sum := of_decide_eq_true hover
  obtain ⟨h₁, h₂, ⟨hleft, hright⟩, hleftMin, hrightMin⟩ :=
    balancedSplit_sides false (costs_le hshort) layout.four_leaf_entries hover hone
  rw [if_neg Bool.false_ne_true] at hleftMin hrightMin
  unfold splitInto
  generalize balancedSplit (q.costs layout) false = mid at *
  dsimp only
  have hmid : mid < q.entries.length := by simpa [costs, keys] using h₂
  have hcut := List.drop_eq_getElem_cons hmid
  have hkeys : q.keys = (q.entries.take mid).map Prod.fst ++ (q.entries.drop mid).map Prod.fst := by
    rw [← List.map_append, List.take_append_drop]
    rfl
  have hhead : ((q.entries.drop mid).map Prod.fst).head? = some q.entries[mid].1 := by
    rw [hcut]
    rfl
  refine ⟨q.entries[mid].1, ?_⟩
  constructor
  case entries => exact List.take_append_drop _ _
  case leftFits => exact decide_eq_false (by rw [usedBytes_take]; omega)
  case rightFits => exact decide_eq_false (by rw [usedBytes_drop]; omega)
  case leftFilled => exact decide_eq_false (by rw [usedBytes_take]; exact Nat.not_lt.mpr hleftMin)
  case rightFilled => exact decide_eq_false (by rw [usedBytes_drop]; exact Nat.not_lt.mpr hrightMin)
  case leftEntry =>
    apply List.ne_nil_of_length_pos
    rw [List.length_take]
    omega
  case rightEntry =>
    apply List.ne_nil_of_length_pos
    rw [List.length_drop]
    omega
  case separator =>
    rw [firstKey, hcut]
    rfl
  case between =>
    intro h
    rw [hkeys] at h
    obtain ⟨hbelow, hbehind⟩ := between_of_pairwise h hhead
    refine ⟨hbelow, ?_⟩
    intro k hk
    rw [hcut] at hbehind
    rw [keys, hcut, List.map_cons, List.mem_cons] at hk
    rcases hk with rfl | hk
    · exact le_refl _
    · exact hbehind k hk
  case above =>
    intro h
    rw [hkeys] at h
    exact (between_of_pairwise h hhead).1

theorem check_iff : p.check layout = true ↔ p.keys.Pairwise (· ≤ ·) ∧
    p.tombstones.length ≤ layout.tombstoneCapacity ∧
    (∀ s ∈ p.tombstones, s < p.entries.length) ∧ ∀ k ∈ p.keys, k.length ≤ layout.maxKeyLen := by
  simp [check, and_assoc]

theorem splitIntoAsserts_of (hcheck : q.check layout = true) (htwo : 2 ≤ q.entries.length) (rightPageId : Nat) :
    q.splitIntoAsserts layout rightPageId = true := by
  obtain ⟨hsorted, hfew, hslots, hshort⟩ := check_iff.mp hcheck
  simp only [splitIntoAsserts, Bool.and_eq_true, decide_eq_true_eq]
  refine ⟨⟨⟨hcheck, htwo⟩, check_iff.mpr ?_⟩, check_iff.mpr ?_⟩
  · simp only [splitInto, keys, List.map_take] at hsorted hshort ⊢
    refine ⟨hsorted.sublist (List.take_sublist _ _), Nat.le_trans (List.length_filter_le _ _) hfew, ?_, ?_⟩
    · intro s hs
      have hs := List.mem_filter.mp hs
      have := hslots s hs.1
      have := of_decide_eq_true hs.2
      rw [List.length_take]
      omega
    · intro k hk
      exact hshort k (List.mem_of_mem_take hk)
  · simp only [splitInto, keys, List.map_drop] at hsorted hshort ⊢
    refine ⟨hsorted.sublist (List.drop_sublist _ _), ?_, ?_, ?_⟩
    · rw [List.length_map]
      exact Nat.le_trans (List.length_filter_le _ _) hfew
    · intro s hs
      obtain ⟨t, ht, rfl⟩ := List.mem_map.mp hs
      have ht := List.mem_filter.mp ht
      have := hslots t ht.1
      have : ¬ t < balancedSplit (q.costs layout) false := by simpa using ht.2
      rw [List.length_drop]
      omega
    · intro k hk
      exact hshort k (List.mem_of_mem_drop hk)

theorem merge_fits (hunder : p.isUnderfull layout = true) {edge : Edge} (hlend : q.canLend layout edge = false)
    (hshort : ∀ k ∈ q.keys, k.length ≤ layout.maxKeyLen) :
    p.usedBytes layout + q.usedBytes layout ≤ layout.leafArea.capacity := by
  have hunder : p.usedBytes layout < layout.leafMinUsed := by simpa [isUnderfull] using hunder
  have hmin : 2 * layout.leafMinUsed + layout.leafMaxEntryBytes ≤ layout.leafArea.capacity := by
    have := layout.four_leaf_entries
    unfold Layout.leafMinUsed
    omega
  unfold canLend at hlend
  cases he : q.edgeEntry edge with
  | none =>
    have hnil : q.entries = [] := by
      cases edge with
      | first => exact List.head?_eq_none_iff.mp he
      | last => exact List.getLast?_eq_none_iff.mp he
    have : q.usedBytes layout = 0 := by rw [usedBytes, keys, hnil]; rfl
    omega
  | some e =>
    rw [he] at hlend
    have hlend : q.usedBytes layout - layout.leafArea.entryCost e.1.length < layout.leafMinUsed := by
      simpa using hlend
    have hmem : e.1 ∈ q.keys := by
      cases edge with
      | first => exact List.mem_map_of_mem (List.mem_of_head? he)
      | last => exact List.mem_map_of_mem (List.mem_of_getLast? he)
    have := entryCost_le (hshort _ hmem)
    omega

theorem keys_purgeOldestTombstone (p : LeafPage) : p.purgeOldestTombstone.keys.Sublist p.keys := by
  unfold purgeOldestTombstone
  split
  · exact List.Sublist.refl _
  · simp only [physicalRemoveAt, keys]
    exact (List.eraseIdx_sublist _ _).map _

theorem keys_purgeTo (capacity fuel : Nat) (p : LeafPage) : (purgeTo capacity fuel p).keys.Sublist p.keys := by
  induction fuel generalizing p with
  | zero => exact List.Sublist.refl _
  | succ fuel ih =>
    unfold purgeTo
    split
    · exact (ih _).trans (keys_purgeOldestTombstone p)
    · exact List.Sublist.refl _

theorem usedBytes_absorbRight_le (layout : Layout) (p right : LeafPage) :
    (p.absorbRight layout right).usedBytes layout ≤ p.usedBytes layout + right.usedBytes layout := by
  have hkeys :=
    keys_purgeTo layout.tombstoneCapacity (p.tombstones ++ right.tombstones.map fun s =>
        s + p.entries.length).length
    ⟨p.entries ++ right.entries, right.nextLeafId, p.tombstones ++ right.tombstones.map fun s =>
      s + p.entries.length⟩
  have hsum := (hkeys.map fun k => layout.leafArea.entryCost k.length).sum_le_sum fun _ _ => Nat.zero_le _
  refine Nat.le_trans hsum ?_
  simp [usedBytes, keys]

end LeafPage

/-! ## Internal pages -/

namespace InternalPage

variable {p q : InternalPage} {s : Key}

structure SplitsInto (layout : Layout) (q left right : InternalPage) (sep : Key) : Prop where
  children : left.children ++ right.children = q.children
  keys : left.keys ++ sep :: right.keys = q.keys
  leftFits : left.isOverfull = false
  rightFits : right.isOverfull = false
  leftFilled : left.isUnderfull layout = false
  rightFilled : right.isUnderfull layout = false
  leftKey : left.keys ≠ []
  rightKey : right.keys ≠ []
  counts : q.children.length = q.keys.length + 1 →
    left.children.length = left.keys.length + 1 ∧ right.children.length = right.keys.length + 1
  between : q.keys.Pairwise (· ≤ ·) → (∀ k ∈ left.keys, k ≤ sep) ∧ ∀ k ∈ right.keys, sep ≤ k

theorem costs_le (h : ∀ k ∈ q.keys, k.length ≤ layout.maxKeyLen) :
    ∀ c ∈ q.costs, c ≤ layout.internalMaxEntryBytes := by
  intro c hc
  obtain ⟨k, hk, rfl⟩ := List.mem_map.mp hc
  exact internalCost_le (h k hk)

theorem usedBytes_of_added (hshort : ∀ k ∈ q.keys, k.length ≤ layout.maxKeyLen)
    (hfitted : p.isOverfull = false) {i : Nat} {key : Key} (hq : q.keys = p.keys.insertIdx i key)
    (hover : q.isOverfull = true) :
    q.usedBytes ≤ internalArea.capacity + layout.internalMaxEntryBytes := by
  have hfitted : p.usedBytes ≤ internalArea.capacity := Nat.not_lt.mp (of_decide_eq_false hfitted)
  have hover : internalArea.capacity < q.usedBytes := of_decide_eq_true hover
  have hused : q.usedBytes ≤ p.usedBytes + internalArea.entryCost key.length := by
    unfold usedBytes costs
    rw [hq, List.map_insertIdx]
    exact sum_insertIdx_le _ _ _
  have hadded : key ∈ p.keys.insertIdx i key := by
    apply mem_insertIdx_of_ne
    intro hsame
    rw [usedBytes, costs, hq, hsame] at hover
    exact Nat.not_lt.mpr hfitted hover
  have := internalCost_le (hshort key (hq ▸ hadded))
  omega

theorem usedBytes_take (q : InternalPage) (mid : Nat) (children : List Nat) :
    usedBytes ⟨children, q.keys.take mid⟩ = leftBytes q.costs mid := by
  simp [usedBytes, costs, leftBytes, List.map_take]

theorem usedBytes_drop (q : InternalPage) (mid : Nat) (children : List Nat) :
    usedBytes ⟨children, q.keys.drop (mid + 1)⟩ = rightBytes q.costs true mid := by
  have hsum := List.sum_take_add_sum_drop q.costs (mid + 1)
  have hadd := leftBytes_add_one q.costs mid
  have hdrop : usedBytes ⟨children, q.keys.drop (mid + 1)⟩ = (q.costs.drop (mid + 1)).sum := by
    simp [usedBytes, costs, List.map_drop]
  rw [hdrop, rightBytes, if_pos rfl]
  unfold leftBytes at *
  omega

theorem splitInto_mid (hshort : ∀ k ∈ q.keys, k.length ≤ layout.maxKeyLen) (hover : q.isOverfull = true)
    (hone : q.usedBytes ≤ internalArea.capacity + layout.internalMaxEntryBytes) :
    ∃ mid, min (balancedSplit q.costs true) (q.keys.length - 2) = mid ∧ 1 ≤ mid ∧ mid + 1 < q.keys.length ∧
      (leftBytes q.costs mid ≤ internalArea.capacity ∧ rightBytes q.costs true mid ≤ internalArea.capacity) ∧
      layout.internalMinUsed ≤ leftBytes q.costs mid ∧ layout.internalMinUsed ≤ rightBytes q.costs true mid := by
  have hover : internalArea.capacity < q.costs.sum := of_decide_eq_true hover
  have hcap := layout.four_internal_entries
  obtain ⟨h₁, h₂, hfits, hleftMin, hrightMin⟩ := balancedSplit_sides true (costs_le hshort) hcap hover hone
  rw [if_pos rfl] at hleftMin hrightMin
  have hlen : q.costs.length = q.keys.length := by simp [costs]
  have hpos : 0 < layout.internalMaxEntryBytes := by
    unfold Layout.internalMaxEntryBytes EntryArea.entryCost
    omega
  have hbehind : balancedSplit q.costs true + 1 < q.keys.length := by
    apply Nat.lt_of_le_of_ne (hlen ▸ h₂)
    intro hlast
    have hadd := leftBytes_add_one q.costs (balancedSplit q.costs true)
    rw [hlast, ← hlen, leftBytes_length] at hadd
    rw [rightBytes, if_pos rfl] at hrightMin
    omega
  exact ⟨_, Nat.min_eq_left (by omega), h₁, hbehind, hfits, hleftMin, hrightMin⟩

theorem splitInto_spec (hshort : ∀ k ∈ q.keys, k.length ≤ layout.maxKeyLen) (hover : q.isOverfull = true)
    (hone : q.usedBytes ≤ internalArea.capacity + layout.internalMaxEntryBytes) :
    q.SplitsInto layout q.splitInto.1 q.splitInto.2.2 q.splitInto.2.1 := by
  obtain ⟨mid, hmin, h₁, h₂, ⟨hleft, hright⟩, hleftMin, hrightMin⟩ := splitInto_mid hshort hover hone
  have hmid : mid < q.keys.length := by omega
  have hkeys : q.keys.take mid ++ q.keys[mid] :: q.keys.drop (mid + 1) = q.keys := by
    rw [← List.drop_eq_getElem_cons hmid, List.take_append_drop]
  unfold splitInto
  simp only [hmin]
  rw [List.getD_eq_getElem?_getD, List.getElem?_eq_getElem hmid, Option.getD_some]
  constructor
  case children => exact List.take_append_drop _ _
  case keys => exact hkeys
  case leftFits => exact decide_eq_false (by rw [usedBytes_take]; omega)
  case rightFits => exact decide_eq_false (by rw [usedBytes_drop]; omega)
  case leftFilled => exact decide_eq_false (by rw [usedBytes_take]; omega)
  case rightFilled => exact decide_eq_false (by rw [usedBytes_drop]; omega)
  case leftKey =>
    apply List.ne_nil_of_length_pos
    rw [List.length_take]
    omega
  case rightKey =>
    apply List.ne_nil_of_length_pos
    rw [List.length_drop]
    omega
  case counts =>
    intro hcount
    simp only [List.length_take, List.length_drop]
    omega
  case between =>
    intro h
    rw [← hkeys] at h
    exact LeafPage.between_of_pairwise h rfl

theorem check_iff (hne : q.keys ≠ []) : q.check layout = true ↔ q.children.length = q.keys.length + 1 ∧
    q.keys.Pairwise (· ≤ ·) ∧ ∀ k ∈ q.keys, k.length ≤ layout.maxKeyLen := by
  simp [check, hne, and_assoc]

theorem splitIntoAsserts_of (hcheck : q.check layout = true) (hthree : 3 ≤ q.keys.length)
    {left right : InternalPage} {sep : Key} (hsplit : q.splitInto = (left, sep, right))
    (h : q.SplitsInto layout left right sep) : q.splitIntoAsserts layout = true := by
  have hne : q.keys ≠ [] := List.ne_nil_of_length_pos (by omega)
  obtain ⟨hcount, hsorted, hshort⟩ := (check_iff hne).mp hcheck
  obtain ⟨hleft, hright⟩ := h.counts hcount
  rw [← h.keys] at hsorted hshort
  have hlow : left.check layout = true := by
    refine (check_iff h.leftKey).mpr ⟨hleft, hsorted.sublist (List.sublist_append_left _ _), ?_⟩
    intro k hk
    exact hshort k (List.mem_append_left _ hk)
  have hhigh : right.check layout = true := by
    refine (check_iff h.rightKey).mpr
      ⟨hright, hsorted.sublist ((List.sublist_cons_self _ _).trans (List.sublist_append_right _ _)), ?_⟩
    intro k hk
    exact hshort k (List.mem_append_right _ (List.mem_cons_of_mem _ hk))
  rw [splitIntoAsserts, hsplit, hcheck, hlow, hhigh]
  simpa using hthree

/-- A page that is underfull fits with a sibling that cannot lend and the key between them. -/
theorem merge_fits (hunder : p.isUnderfull layout = true) {edge : Edge} (hlend : q.canLend layout edge = false)
    (hshort : ∀ k ∈ q.keys, k.length ≤ layout.maxKeyLen) (hs : s.length ≤ layout.maxKeyLen) :
    p.usedBytes + internalArea.entryCost s.length + q.usedBytes ≤ internalArea.capacity := by
  have hunder : p.usedBytes < layout.internalMinUsed := by simpa [isUnderfull] using hunder
  have hcost := internalCost_le hs
  have hmin : 2 * layout.internalMinUsed + 2 * layout.internalMaxEntryBytes ≤ internalArea.capacity := by
    have := layout.four_internal_entries
    unfold Layout.internalMinUsed
    omega
  unfold canLend at hlend
  cases he : q.edgeKey edge with
  | none =>
    have hnil : q.keys = [] := by
      cases edge with
      | first => exact List.head?_eq_none_iff.mp he
      | last => exact List.getLast?_eq_none_iff.mp he
    have : q.usedBytes = 0 := by rw [usedBytes, costs, hnil]; rfl
    omega
  | some k =>
    rw [he] at hlend
    have hlend : q.usedBytes - internalArea.entryCost k.length < layout.internalMinUsed := by simpa using hlend
    have hmem : k ∈ q.keys := by
      cases edge with
      | first => exact List.mem_of_head? he
      | last => exact List.mem_of_getLast? he
    have := internalCost_le (hshort _ hmem)
    omega

theorem usedBytes_absorbRight (p right : InternalPage) (s : Key) :
    (p.absorbRight s right).usedBytes = p.usedBytes + internalArea.entryCost s.length + right.usedBytes := by
  simp [absorbRight, usedBytes, costs, Nat.add_assoc]

end InternalPage

/-- A page that fitted and is overfull with one entry more splits into two pages that fit and are filled enough,
with the separator between them; an underfull page fits into one with a sibling that cannot lend the entry next to
it. -/
theorem split_and_merge_thresholds (layout : Layout) :
    (∀ (p q : LeafPage) (i : Nat) (key : Key), (∀ k ∈ q.keys, k.length ≤ layout.maxKeyLen) →
      p.isOverfull layout = false →
      q.keys = p.keys.insertIdx i key → q.isOverfull layout = true → ∀ rightPageId,
        (∃ sep, q.SplitsInto layout (q.splitInto layout rightPageId).1 (q.splitInto layout rightPageId).2 sep) ∧
        (q.check layout = true → q.splitIntoAsserts layout rightPageId = true)) ∧
    (∀ (p q : InternalPage) (i : Nat) (key : Key), (∀ k ∈ q.keys, k.length ≤ layout.maxKeyLen) →
      p.isOverfull = false →
      q.keys = p.keys.insertIdx i key → q.isOverfull = true →
        q.SplitsInto layout q.splitInto.1 q.splitInto.2.2 q.splitInto.2.1 ∧
        (q.check layout = true → q.splitIntoAsserts layout = true)) ∧
    (∀ (p q : LeafPage) (edge : Edge), (∀ k ∈ q.keys, k.length ≤ layout.maxKeyLen) → p.isUnderfull layout = true →
      q.canLend layout edge = false →
        p.usedBytes layout + q.usedBytes layout ≤ layout.leafArea.capacity ∧
        (p.absorbRight layout q).isOverfull layout = false ∧ (q.absorbRight layout p).isOverfull layout = false) ∧
    ∀ (p q : InternalPage) (edge : Edge) (sep : Key), (∀ k ∈ q.keys, k.length ≤ layout.maxKeyLen) →
      sep.length ≤ layout.maxKeyLen → p.isUnderfull layout = true → q.canLend layout edge = false →
        p.usedBytes + internalArea.entryCost sep.length + q.usedBytes ≤ internalArea.capacity ∧
        (p.absorbRight sep q).isOverfull = false ∧ (q.absorbRight sep p).isOverfull = false := by
  refine ⟨?_, ?_, ?_, ?_⟩
  · intro p q i key hshort hfitted hq hover rightPageId
    obtain ⟨sep, hsplit⟩ :=
      LeafPage.splitInto_spec hshort hover (LeafPage.usedBytes_of_added hshort hfitted hq hover) rightPageId
    refine ⟨⟨sep, hsplit⟩, ?_⟩
    intro hcheck
    apply LeafPage.splitIntoAsserts_of hcheck
    rw [← hsplit.entries, List.length_append]
    exact Nat.add_le_add (List.length_pos_iff.mpr hsplit.leftEntry) (List.length_pos_iff.mpr hsplit.rightEntry)
  · intro p q i key hshort hfitted hq hover
    have hsplit :=
      InternalPage.splitInto_spec hshort hover (InternalPage.usedBytes_of_added hshort hfitted hq hover)
    refine ⟨hsplit, ?_⟩
    intro hcheck
    refine InternalPage.splitIntoAsserts_of hcheck ?_ rfl hsplit
    have hleft := List.length_pos_iff.mpr hsplit.leftKey
    have hright := List.length_pos_iff.mpr hsplit.rightKey
    rw [← hsplit.keys, List.length_append, List.length_cons]
    omega
  · intro p q edge hshort hunder hlend
    have hfits := LeafPage.merge_fits hunder hlend hshort
    have hpq := LeafPage.usedBytes_absorbRight_le layout p q
    have hqp := LeafPage.usedBytes_absorbRight_le layout q p
    exact ⟨hfits, decide_eq_false (by omega), decide_eq_false (by omega)⟩
  · intro p q edge sep hshort hsep hunder hlend
    have hfits := InternalPage.merge_fits hunder hlend hshort hsep
    refine ⟨hfits, decide_eq_false ?_, decide_eq_false ?_⟩
    · rw [InternalPage.usedBytes_absorbRight]
      omega
    · rw [InternalPage.usedBytes_absorbRight]
      omega

end

/-! ## Wide keys -/

/-- Keys of a thousand bytes: seven fit in a leaf and eight in an internal page. -/
def wideLayout : Layout := ⟨1000, 16, by decide, by decide, by decide, by decide⟩

def wide (i : Nat) : Key := UInt8.ofNat i :: List.replicate 999 0

def wideLeaf (n : Nat) : LeafPage := ⟨(List.range n).map fun i => (wide i, ⟨0, i⟩), none, []⟩

def wideInternal (n : Nat) : InternalPage := ⟨List.range (n + 1), (List.range n).map wide⟩

theorem wide_length (i : Nat) : (wide i).length = 1000 := by rw [wide, List.length_cons, List.length_replicate]

theorem wideLeaf_short (n : Nat) : ∀ k ∈ (wideLeaf n).keys, k.length ≤ wideLayout.maxKeyLen := by
  intro k hk
  rw [LeafPage.keys, wideLeaf, List.map_map] at hk
  obtain ⟨i, -, rfl⟩ := List.mem_map.mp hk
  exact (wide_length i).le

theorem wideInternal_short (n : Nat) : ∀ k ∈ (wideInternal n).keys, k.length ≤ wideLayout.maxKeyLen := by
  intro k hk
  obtain ⟨i, -, rfl⟩ := List.mem_map.mp hk
  exact (wide_length i).le

theorem split_and_merge_thresholds_wide :
    (∃ sep, (wideLeaf 8).SplitsInto wideLayout ((wideLeaf 8).splitInto wideLayout 9).1
      ((wideLeaf 8).splitInto wideLayout 9).2 sep) ∧
    (wideInternal 9).SplitsInto wideLayout (wideInternal 9).splitInto.1 (wideInternal 9).splitInto.2.2
      (wideInternal 9).splitInto.2.1 ∧
    (wideLeaf 3).usedBytes wideLayout + (wideLeaf 4).usedBytes wideLayout ≤ wideLayout.leafArea.capacity ∧
    (wideInternal 3).usedBytes + internalArea.entryCost (wide 3).length + (wideInternal 4).usedBytes ≤
      internalArea.capacity := by
  obtain ⟨hleaf, hinternal, hleaves, hinternals⟩ := split_and_merge_thresholds wideLayout
  refine ⟨?_, ?_, ?_, ?_⟩
  · exact (hleaf (wideLeaf 7) (wideLeaf 8) 7 (wide 7) (wideLeaf_short 8) (by decide +kernel) (by decide +kernel)
      (by decide +kernel) 9).1
  · exact (hinternal (wideInternal 8) (wideInternal 9) 8 (wide 8) (wideInternal_short 9) (by decide +kernel)
      (by decide +kernel) (by decide +kernel)).1
  · exact (hleaves (wideLeaf 3) (wideLeaf 4) .first (wideLeaf_short 4) (by decide +kernel) (by decide +kernel)).1
  · exact (hinternals (wideInternal 3) (wideInternal 4) .first (wide 3) (wideInternal_short 4) (wide_length 3).le
      (by decide +kernel) (by decide +kernel)).1

end BPlus

end Cmudb
