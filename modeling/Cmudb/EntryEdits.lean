import Cmudb.EntryArea

/-!
# Editing any area that passes the check

`check` accepts exactly the pictures: a buffer that passes it is a header, slots,
a gap and the entries the slots point to, with any bytes at all in the gap. So
what holds of pictures holds of whatever was read from the disk and checked.
-/

namespace Cmudb

open Lib

namespace BPlus

namespace EntryArea

variable (area : EntryArea)

def entries (buf : Bytes) (n : Nat) : Option (List (Key × Bytes)) :=
  (List.range n).mapM fun i => do
    let key ← area.key buf n i
    let payload ← area.payload buf n i
    return (key, payload)

/-- `buf` is what the encoders write for `es` behind its header, over zero bytes. -/
def IsEncoding (buf : Bytes) (es : List (Key × Bytes)) : Prop :=
  area.putEntries (buf.take area.slotsStart ++ List.replicate (pageSize - area.slotsStart) 0)
    (pageSize - (dataBytes es).length) es = some (buf, pageSize)

variable {area} {head gap buf : Bytes} {es : List (Key × Bytes)} {n : Nat}

theorem entries_picture (h : area.Tiled head gap es) (hn : n = es.length) :
    area.entries (picture head gap es) n = some es := by
  rw [entries, hn]
  apply mapM_range
  intro as e bs hsplit
  subst hsplit
  rw [key_picture h rfl rfl, some_bind, payload_picture h rfl rfl, some_bind]

/-! ## From a checked buffer to its picture -/

theorem check_ok (h : area.check buf n = some (.ok ())) :
    buf.length = pageSize ∧ area.slotOffset n ≤ pageSize ∧ (∀ i < n, area.cutShort buf n i = some false) ∧
      ∃ first, area.insertOffset buf n 0 = some first ∧ area.slotOffset n ≤ first := by
  unfold check at h
  by_cases hlen : buf.length = pageSize
  · by_cases hslots : pageSize < area.slotsStart + n * 2
    · rw [if_neg (not_not_intro hlen), if_pos hslots] at h
      cases h
    · have hle : area.slotOffset n ≤ pageSize := Nat.le_of_not_lt hslots
      rw [if_neg (not_not_intro hlen), if_neg hslots] at h
      by_cases h0 : n = 0
      · subst h0
        exact ⟨hlen, hle, fun i hi => absurd hi (Nat.not_lt_zero i), pageSize, rfl, hle⟩
      · rw [if_neg h0] at h
        cases hstart : area.start buf 0 with
        | none =>
          rw [hstart] at h
          cases h
        | some first =>
          rw [hstart, some_bind] at h
          by_cases hfirst : first < area.slotsStart + n * 2
          · rw [if_pos hfirst] at h
            cases h
          · rw [if_neg hfirst] at h
            have hany : (List.range n).anyM (area.cutShort buf n) = some false := by
              cases hc : (List.range n).anyM (area.cutShort buf n) with
              | none =>
                rw [hc] at h
                cases h
              | some b =>
                cases b with
                | true =>
                  rw [hc] at h
                  cases h
                | false => rfl
            refine ⟨hlen, hle, fun i hi => anyM_eq_false.mp hany i (List.mem_range.mpr hi), first, ?_,
              Nat.le_of_not_lt hfirst⟩
            rw [insertOffset, if_pos (Nat.pos_of_ne_zero h0), hstart]
  · rw [if_pos hlen] at h
    cases h

theorem cutShort_eq_false {i : Nat} (h : area.cutShort buf n i = some false) :
    ∃ s stop, area.start buf i = some s ∧ area.insertOffset buf n (i + 1) = some stop ∧
    s + area.payloadLen ≤ stop := by
  unfold cutShort at h
  cases hs : area.start buf i with
  | none =>
    rw [hs] at h
    cases h
  | some s =>
    cases hstop : area.entryEnd buf n i with
    | none =>
      rw [hs, some_bind, hstop] at h
      cases h
    | some stop =>
      rw [hs, some_bind, hstop, some_bind] at h
      exact ⟨s, stop, rfl, hstop, Nat.le_of_not_lt (of_decide_eq_false (Option.some.inj h))⟩

theorem exists_suffix (hlen : buf.length = pageSize)
    (hcut : ∀ i < n, area.cutShort buf n i = some false) {i k : Nat} (hi : i + k = n) :
    ∃ es off, es.length = k ∧ (∀ e ∈ es, e.2.length = area.payloadLen) ∧ area.insertOffset buf n i = some off ∧
      off + (dataBytes es).length = pageSize ∧ buf.drop off = dataBytes es ∧
      (buf.take (area.slotOffset n)).drop (area.slotOffset i) = cells (leBytes 2) (starts off es) := by
  induction k generalizing i with
  | zero =>
    refine ⟨[], pageSize, rfl, by simp, if_neg (by omega), rfl, by simp [hlen], ?_⟩
    rw [show i = n by omega, List.drop_eq_nil_of_le (by simp)]
    rfl
  | succ k ih =>
    obtain ⟨es, off, hes, hpays, hoff, hroom, hdata, hcells⟩ := @ih (i + 1) (by omega)
    obtain ⟨s, stop, hs, hstop, hle⟩ := cutShort_eq_false (hcut i (by omega))
    have hstop' : stop = off := Option.some.inj (hstop.symm.trans hoff)
    subst hstop'
    obtain ⟨-, hin, hslot⟩ := slice?_some (slice?_of_getLe hs)
    rw [Nat.add_sub_cancel_left] at hslot
    -- the bytes from `s` to `stop` are cut where the payload starts
    have hentry : buf.drop s = (buf.drop s).take (stop - area.payloadLen - s) ++
        (buf.drop (stop - area.payloadLen)).take area.payloadLen ++ dataBytes es := by
      have hmid : buf.drop (stop - area.payloadLen) = (buf.drop s).drop (stop - area.payloadLen - s) := by
        rw [List.drop_drop]
        congr 1
        omega
      have hrest : buf.drop stop = ((buf.drop s).drop (stop - area.payloadLen - s)).drop area.payloadLen := by
        rw [List.drop_drop, List.drop_drop]
        congr 1
        omega
      rw [← hdata, hmid, hrest, List.append_assoc, List.take_append_drop, List.take_append_drop]
    have hkey : ((buf.drop s).take (stop - area.payloadLen - s)).length = stop - area.payloadLen - s := by
      rw [List.length_take, List.length_drop]
      omega
    have hpay : ((buf.drop (stop - area.payloadLen)).take area.payloadLen).length = area.payloadLen := by
      rw [List.length_take, List.length_drop]
      omega
    have hstopAt : s + (entryBytes ((buf.drop s).take (stop - area.payloadLen - s),
        (buf.drop (stop - area.payloadLen)).take area.payloadLen)).length = stop := by
      rw [entryBytes_length, hkey, hpay]
      omega
    refine ⟨((buf.drop s).take (stop - area.payloadLen - s),
      (buf.drop (stop - area.payloadLen)).take area.payloadLen) :: es,
      s, by rw [List.length_cons, hes], List.forall_mem_cons.mpr ⟨hpay, hpays⟩, ?_, ?_, hentry, ?_⟩
    · rw [insertOffset, if_pos (by omega), hs]
    · rw [dataBytes_cons, List.length_append]
      omega
    · have hcell : (buf.take (area.slotOffset n)).drop (area.slotOffset i) =
          leBytes 2 s ++ (buf.take (area.slotOffset n)).drop (area.slotOffset (i + 1)) := by
        have hnext : area.slotOffset (i + 1) = area.slotOffset i + 2 := by
          unfold slotOffset
          omega
        have hbefore : area.slotOffset i + 2 ≤ area.slotOffset n := by
          unfold slotOffset
          omega
        rw [hslot, slice, hnext, ← List.drop_drop]
        have htwo : (buf.drop (area.slotOffset i)).take 2 =
            ((buf.take (area.slotOffset n)).drop (area.slotOffset i)).take 2 := by
          rw [List.drop_take, List.take_take, Nat.min_eq_left (by omega)]
        rw [htwo, List.take_append_drop]
      rw [hcell, hcells, starts, cells_cons, hstopAt]

theorem exists_picture (h : area.check buf n = some (.ok ())) :
    ∃ gap es, area.Tiled (buf.take area.slotsStart) gap es ∧ n = es.length ∧
      buf = picture (buf.take area.slotsStart) gap es := by
  obtain ⟨hlen, hslots, hcut, first, hfirst, hle⟩ := check_ok h
  obtain ⟨es, off, hes, hpays, hoff, hroom, hdata, hcells⟩ :=
    @exists_suffix area buf n hlen hcut 0 n (Nat.zero_add n)
  have hoff' : off = first := Option.some.inj (hoff.symm.trans hfirst)
  subst hoff'
  have hzero : area.slotOffset 0 = area.slotsStart := by simp [slotOffset]
  have hn : area.slotOffset n = area.slotsStart + n * 2 := rfl
  rw [hzero] at hcells
  refine ⟨(buf.take off).drop (area.slotOffset n), es, ⟨?_, hpays, ?_⟩, hes.symm, ?_⟩
  · rw [List.length_take]
    omega
  · rw [List.length_drop, List.length_take, hes]
    omega
  · have hback : pageSize - (dataBytes es).length = off := by omega
    have hfront : buf.take area.slotsStart = (buf.take (area.slotOffset n)).take area.slotsStart := by
      rw [List.take_take, Nat.min_eq_left (by omega)]
    have hslotted : buf.take (area.slotOffset n) = (buf.take off).take (area.slotOffset n) := by
      rw [List.take_take, Nat.min_eq_left hle]
    rw [picture, hback, ← hcells, hfront, List.take_append_drop, hslotted, List.take_append_drop, ← hdata,
      List.take_append_drop]

/-! ## Edits -/

theorem picture_take (h : area.Tiled head gap es) : (picture head gap es).take area.slotsStart = head := by
  rw [picture, List.append_assoc, List.append_assoc, List.take_left' h.head]

theorem isEncoding_iff (h : area.Tiled head gap es) :
    area.IsEncoding (picture head gap es) es ↔ gap = List.replicate gap.length 0 := by
  have hroom := h.room
  have hhead := h.head
  have hput := @putEntries_zero area head es h.packed (pageSize - area.slotsStart) (by omega)
  have hgap : pageSize - area.slotsStart - es.length * 2 - (dataBytes es).length = gap.length := by omega
  rw [image, hgap] at hput
  rw [IsEncoding, picture_take h, hput, Option.some_inj, Prod.mk.injEq, picture]
  constructor
  · rintro ⟨heq, -⟩
    exact (List.append_cancel_left (List.append_cancel_right heq)).symm
  · intro heq
    rw [← heq]
    exact ⟨rfl, rfl⟩

theorem exists_cut {k : Key} (hcost : area.entryCost k.length ≤ gap.length) :
    ∃ z g x, gap = z ++ g ++ x ∧ z.length = 2 ∧ x.length = k.length + area.payloadLen := by
  unfold entryCost at hcost
  refine ⟨gap.take 2, (gap.drop 2).take (gap.length - 2 - (k.length + area.payloadLen)),
    (gap.drop 2).drop (gap.length - 2 - (k.length + area.payloadLen)), ?_, ?_, ?_⟩
  · rw [List.append_assoc, List.take_append_drop, List.take_append_drop]
  · rw [List.length_take]
    omega
  · rw [List.length_drop, List.length_drop]
    omega

variable (area) in
structure Edited (buf : Bytes) (es : List (Key × Bytes)) (buf' : Bytes) (es' : List (Key × Bytes)) : Prop where
  checked : area.check buf' es'.length = some (.ok ())
  entries : area.entries buf' es'.length = some es'
  header : buf'.take area.slotsStart = buf.take area.slotsStart
  encoding : area.IsEncoding buf es → area.IsEncoding buf' es'

theorem Tiled.edited {gap' : Bytes} {es' : List (Key × Bytes)} (h : area.Tiled head gap es)
    (h' : area.Tiled head gap' es')
    (hzero : gap = List.replicate gap.length 0 → gap' = List.replicate gap'.length 0) :
    area.Edited (picture head gap es) es (picture head gap' es') es' := by
  refine ⟨check_picture h' rfl, entries_picture h' rfl, ?_, ?_⟩
  · rw [picture_take h', picture_take h]
  · rw [isEncoding_iff h, isEncoding_iff h']
    exact hzero

theorem insert_edited (h : area.Tiled head gap es) {pos : Nat} (hpos : pos ≤ es.length) {e : Key × Bytes}
    (hpay : e.2.length = area.payloadLen) (hcost : area.entryCost e.1.length ≤ gap.length) :
    ∃ buf', area.insert (picture head gap es) es.length pos e.1 e.2 = some buf' ∧
      area.Edited (picture head gap es) es buf' (es.insertIdx pos e) := by
  obtain ⟨z, g, x, rfl, hz, hx⟩ := exists_cut hcost
  rw [← hpay] at hx
  rw [insertIdx_eq_append hpos]
  have hcut : es.take pos ++ es.drop pos = es := List.take_append_drop pos es
  have h₁ : area.Tiled head (z ++ g ++ x) (es.take pos ++ es.drop pos) := by rwa [hcut]
  have h₂ := h₁.insert hpay hz hx
  have hinsert := insert_picture h₁ hpay hz hx rfl (show pos = (es.take pos).length by rw [List.length_take]; omega)
  rw [hcut] at hinsert
  refine ⟨_, hinsert, h.edited h₂ ?_⟩
  intro hzero
  exact (List.append_eq_replicate_iff.mp (List.append_eq_replicate_iff.mp hzero).2.1).2.2

theorem remove_edited (h : area.Tiled head gap es) {pos : Nat} (hpos : pos < es.length) :
    ∃ buf', area.remove (picture head gap es) es.length pos = some buf' ∧
      area.Edited (picture head gap es) es buf' (es.eraseIdx pos) := by
  obtain ⟨as, e, bs, rfl, rfl⟩ := exists_at hpos
  have herase : (as ++ e :: bs).eraseIdx as.length = as ++ bs := by
    rw [List.eraseIdx_append_of_length_le (Nat.le_refl _), Nat.sub_self, List.eraseIdx_cons_zero]
  rw [herase]
  refine ⟨_, remove_picture h rfl rfl, h.edited h.remove ?_⟩
  intro hzero
  rw [hzero, ← List.replicate_add, ← List.replicate_add, List.length_replicate]

/-- Whatever bytes pass the check, all of their entries are read, they fill the page from the first of them on, and
editing in place edits their list. -/
theorem entry_area_edits (area : EntryArea) (buf : Bytes) (n : Nat) (h : area.check buf n = some (.ok ())) :
    ∃ es first used free, area.entries buf n = some es ∧ es.length = n ∧ area.dataStart buf n = some first ∧
      (∀ i < n, area.start buf i = some (first + (dataBytes (es.take i)).length)) ∧ buf.drop first = dataBytes es ∧
      (∀ i < n, (area.key buf n i).isSome ∧ (area.payload buf n i).isSome) ∧
      area.used buf n = some used ∧ area.free buf n = some free ∧
      (∀ pos key payload, pos ≤ n → payload.length = area.payloadLen → area.entryCost key.length ≤ free →
        ∃ buf', area.insert buf n pos key payload = some buf' ∧
        area.Edited buf es buf' (es.insertIdx pos (key, payload))) ∧
      ∀ pos < n, ∃ buf', area.remove buf n pos = some buf' ∧ area.Edited buf es buf' (es.eraseIdx pos) := by
  obtain ⟨gap, es, htiled, rfl, hbuf⟩ := exists_picture h
  generalize buf.take area.slotsStart = head at htiled hbuf
  subst hbuf
  have hroom := htiled.room
  have hfree : area.capacity - (es.length * 2 + (dataBytes es).length) = gap.length := by
    unfold capacity
    omega
  refine ⟨es, pageSize - (dataBytes es).length, es.length * 2 + (dataBytes es).length, gap.length,
    entries_picture htiled rfl, rfl, dataStart_picture htiled rfl, ?_, ?_, ?_, used_picture htiled rfl, ?_, ?_, ?_⟩
  · intro i hi
    obtain ⟨as, e, bs, rfl, rfl⟩ := exists_at hi
    rw [start_picture htiled rfl, List.take_left]
    simp only [dataBytes_append, List.length_append] at hroom ⊢
    have hstart : pageSize - (dataBytes (e :: bs)).length =
        pageSize - ((dataBytes as).length + (dataBytes (e :: bs)).length) + (dataBytes as).length := by omega
    rw [hstart]
  · have hlen := htiled.picture_length
    rw [picture, List.length_append] at hlen
    rw [picture, List.drop_left' (by omega)]
  · intro i hi
    obtain ⟨as, e, bs, rfl, rfl⟩ := exists_at hi
    rw [key_picture htiled rfl rfl, payload_picture htiled rfl rfl]
    exact ⟨rfl, rfl⟩
  · rw [free_picture htiled rfl, hfree]
  · intro pos key payload hpos hpay hcost
    exact @insert_edited area head gap es htiled pos hpos (key, payload) hpay hcost
  · intro pos hpos
    exact remove_edited htiled hpos

/-- An insert between two entries, over the bytes a deleted page left in the gap. -/
theorem entry_area_edits_between : ∃ buf',
    (EntryArea.mk 0 1).insert (picture [] (List.replicate 8183 7) [([1], [0]), ([2, 3], [9])])
        2 1 [5] [6] = some buf' ∧
      (EntryArea.mk 0 1).entries buf' 3 = some [([1], [0]), ([5], [6]), ([2, 3], [9])] := by
  have htiled : (EntryArea.mk 0 1).Tiled [] (List.replicate 8183 7) [([1], [0]), ([2, 3], [9])] := by
    refine ⟨rfl, by simp, ?_⟩
    rw [List.length_replicate]
    rfl
  obtain ⟨es, first, used, free, hes, -, -, -, -, -, -, hfree, hinsert, -⟩ :=
    entry_area_edits ⟨0, 1⟩ _ 2 (check_picture htiled rfl)
  have hes' := hes.symm.trans (entries_picture htiled rfl)
  have hfree' := hfree.symm.trans (free_picture htiled rfl)
  obtain ⟨buf', hbuf, hedited⟩ := hinsert 1 [5] [6] (by decide) rfl (by rw [Option.some.inj hfree']; decide)
  rw [Option.some.inj hes'] at hedited
  exact ⟨buf', hbuf, hedited.entries⟩

end EntryArea

end BPlus

end Cmudb
