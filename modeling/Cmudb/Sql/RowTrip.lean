import Cmudb.Sql.Typing

/-!
# Rows read back

A row is encoded exactly when there is a value for each column, each converts
to the column's type and the characters are where 32 bits can point. What is
read back is the converted values, and they encode to the same bytes.
-/

namespace Cmudb.Sql

open Lib

variable [FloatUnit] {columns : List (DataType × String)} {vals stored : List (Option Value)}

inductive Converts : List (DataType × String) → List (Option Value) → List (Option Value) → Prop
  | nil : Converts [] [] []
  | cons {c columns val vals st stored} : val.mapM (·.coerceTo c.1) = .ok st → Converts columns vals stored →
      Converts (c :: columns) (val :: vals) (st :: stored)

def textOf : Option Value → Option Text
  | some (.text t) => some t
  | _ => none

def textsOf (stored : List (Option Value)) : List Text := stored.filterMap textOf

/-- The strings follow the first `start` bytes of a row one after the other, and each begins before 2^32 and is
shorter than that. -/
def TextsFit (start : Nat) (texts : List Text) : Prop :=
  ∀ before t after, texts = before ++ t :: after → start + (before.map fun u => u.asBytes.length).sum < 2 ^ 32 ∧
    t.asBytes.length < 2 ^ 32

/-! ## Conversions -/

theorem mapM_coerceTo_again {t : DataType} {val st : Option Value} (h : val.mapM (·.coerceTo t) = .ok st) :
    st.mapM (·.coerceTo t) = .ok st := by
  cases val with
  | none =>
    cases h
    rfl
  | some v =>
    cases hv : v.coerceTo t with
    | error e => simp [Option.mapM_some, hv] at h
    | ok v' =>
      simp only [Option.mapM_some, hv] at h
      cases h
      rw [Option.mapM_some, fits_coerceTo hv]
      rfl

theorem mapM_coerce_iff (col : Column) (val st : Option Value) :
    val.mapM col.coerce = .ok st ↔ val.mapM (·.coerceTo col.dtype) = .ok st := by
  cases val with
  | none =>
    show (Except.ok none : Except CatalogError (Option Value)) = .ok st ↔
        (Except.ok none : Except CoercionError (Option Value)) = .ok st
    simp
  | some v =>
    cases hv : v.coerceTo col.dtype with
    | ok v' =>
      have hc : col.coerce v = .ok v' := by simp only [Column.coerce, hv]
      simp [Option.mapM_some, hv, hc]
    | error e =>
      obtain ⟨e', hc⟩ : ∃ e', col.coerce v = .error e' := by
        cases e <;> simp only [Column.coerce, hv] <;> exact ⟨_, rfl⟩
      simp [Option.mapM_some, hv, hc]

theorem Converts.again (h : Converts columns vals stored) :
    Converts columns stored stored := by
  induction h with
  | nil => exact .nil
  | cons hst _ ih => exact .cons (mapM_coerceTo_again hst) ih

theorem Converts.length (h : Converts columns vals stored) :
    vals.length = columns.length ∧ stored.length = columns.length := by
  induction h with
  | nil => exact ⟨rfl, rfl⟩
  | cons _ _ ih => exact ⟨congrArg (· + 1) ih.1, congrArg (· + 1) ih.2⟩

theorem Converts.get (h : Converts columns vals stored) {i : Nat} {st : Option Value}
    (hst : stored[i]? = some st) :
    ∃ c val, columns[i]? = some c ∧ vals[i]? = some val ∧ val.mapM (·.coerceTo c.1) = .ok st := by
  induction h generalizing i with
  | nil => cases hst
  | cons hfirst _ ih =>
    cases i with
    | zero =>
      cases hst
      exact ⟨_, _, rfl, rfl, hfirst⟩
    | succ i => exact ih hst

/-! ## The two passes -/

def fieldsOf (data : Bytes) (texts : List (Nat × Text)) :
    Nat → List (DataType × String) → List (Option Value) → Bytes × List (Nat × Text)
  | i, c :: columns, st :: stored =>
    fieldsOf (withField data i c.1 st) (texts ++ openText data st) (i + 1) columns stored
  | _, _, _ => (data, texts)

theorem Converts.encodeFields (h : Converts columns vals stored) (data : Bytes) (texts : List (Nat × Text))
    (i offset : Nat) :
    Schema.encodeFields data texts i (Schema.colsFrom offset columns) vals =
      .ok (fieldsOf data texts i columns stored) := by
  induction h generalizing data texts i offset with
  | nil => rfl
  | cons hst _ ih =>
    rw [Schema.colsFrom, encodeFields_stored data texts i _ _ ((mapM_coerce_iff _ _ _).mpr hst)]
    exact ih _ _ _ _

theorem converts_of_encodeFields {data : Bytes} {texts : List (Nat × Text)} {i offset : Nat}
    {r : Bytes × List (Nat × Text)} (hlen : vals.length = columns.length)
    (h : Schema.encodeFields data texts i (Schema.colsFrom offset columns) vals = .ok r) :
    ∃ stored, Converts columns vals stored := by
  induction columns generalizing vals data texts i offset with
  | nil =>
    rw [List.length_nil, List.length_eq_zero_iff] at hlen
    subst hlen
    exact ⟨[], .nil⟩
  | cons c columns ih =>
    cases vals with
    | nil => cases hlen
    | cons val vals =>
      obtain ⟨st, hst, h⟩ :=
        encodeFields_cons (show Schema.encodeFields data texts i (_ :: _) (val :: vals) = .ok (r.1, r.2) from h)
      obtain ⟨stored, hrest⟩ := ih (Nat.succ.inj hlen) h
      exact ⟨st :: stored, .cons ((mapM_coerce_iff _ _ _).mp hst) hrest⟩

omit [FloatUnit] in
theorem openText_texts (data : Bytes) (st : Option Value) :
    (openText data st).map Prod.snd = (textOf st).toList := by
  cases st with
  | none => rfl
  | some v => cases v <;> rfl

omit [FloatUnit] in
theorem fieldsOf_texts (columns : List (DataType × String)) (hlen : stored.length = columns.length)
    (data : Bytes) (texts : List (Nat × Text)) (i : Nat) :
    (fieldsOf data texts i columns stored).2.map Prod.snd = texts.map Prod.snd ++ textsOf stored := by
  induction columns generalizing stored data texts i with
  | nil =>
    rw [List.length_nil, List.length_eq_zero_iff] at hlen
    subst hlen
    exact (List.append_nil _).symm
  | cons c columns ih =>
    cases stored with
    | nil => cases hlen
    | cons st stored =>
      rw [fieldsOf, ih (Nat.succ.inj hlen), List.map_append, openText_texts, List.append_assoc]
      congr 1
      rw [textsOf, textsOf, List.filterMap_cons]
      cases textOf st <;> rfl

omit [FloatUnit] in
theorem textsFit_cons (start : Nat) (t : Text) (texts : List Text) :
    TextsFit start (t :: texts) ↔ (start < 2 ^ 32 ∧ t.asBytes.length < 2 ^ 32) ∧
    TextsFit (start + t.asBytes.length) texts := by
  constructor
  · intro h
    refine ⟨by simpa using h [] t texts rfl, fun before u after hu => ?_⟩
    have := h (t :: before) u after (by rw [hu]; rfl)
    rwa [List.map_cons, List.sum_cons, ← Nat.add_assoc] at this
  · rintro ⟨hfirst, hrest⟩ before u after hu
    cases before with
    | nil =>
      cases hu
      simpa using hfirst
    | cons t' before =>
      cases hu
      rw [List.map_cons, List.sum_cons, ← Nat.add_assoc]
      exact hrest before u after rfl

omit [FloatUnit] in
theorem encodeTexts_ok_iff {texts : List (Nat × Text)} {data : Bytes}
    (hin : ∀ e ∈ texts, e.1 + textDescriptorLen ≤ data.length) :
    (∃ out, Schema.encodeTexts data texts = .ok out) ↔ TextsFit data.length (texts.map Prod.snd) := by
  induction texts generalizing data with
  | nil => exact iff_of_true ⟨data, rfl⟩ fun before t after h => absurd h (by simp)
  | cons e texts ih =>
    obtain ⟨p, t⟩ := e
    rw [List.map_cons, textsFit_cons]
    by_cases hfit : data.length < 2 ^ 32 ∧ t.asBytes.length < 2 ^ 32
    · have hd : textDescriptor data.length t.asBytes.length =
          .ok (leBytes 4 data.length ++ leBytes 4 t.asBytes.length) := by
        rw [textDescriptor, if_pos hfit]
      have hpl : (patch data p (leBytes 4 data.length ++ leBytes 4 t.asBytes.length)).length = data.length :=
        patch_length (by simpa [textDescriptorLen] using hin (p, t) (by simp))
      have hrest :=
        @ih (patch data p (leBytes 4 data.length ++ leBytes 4 t.asBytes.length) ++ t.asBytes) fun e he => by
        have := hin e (by simp [he])
        rw [List.length_append, hpl]
        omega
      rw [List.length_append, hpl] at hrest
      rw [and_iff_right hfit, ← hrest]
      simp only [Schema.encodeTexts, hd]
      exact Iff.rfl
    · refine iff_of_false ?_ fun h => hfit h.1
      rintro ⟨out, hout⟩
      rw [Schema.encodeTexts, textDescriptor, if_neg hfit] at hout
      cases hout

namespace Schema

theorem encodeTuple_eq {s : Schema} {values : List (Option Value)} (hlen : values.length = s.columns.length) :
    s.encodeTuple values = (encodeFields (List.replicate s.bitmapLen 0) [] 0 s.cols values).bind fun r =>
    encodeTexts r.1 r.2 := by
  rw [encodeTuple, if_neg (by rw [cols_length, not_ne_iff]; exact hlen)]
  rfl

theorem encodeTuple_of_converts {s : Schema} {values stored : List (Option Value)}
    (h : Converts s.columns values stored) :
    s.encodeTuple values = encodeTexts (fieldsOf (List.replicate s.bitmapLen 0) [] 0 s.columns stored).1
      (fieldsOf (List.replicate s.bitmapLen 0) [] 0 s.columns stored).2 := by
  rw [encodeTuple_eq h.length.1, cols, h.encodeFields]
  rfl

theorem encodeTuple_ok_iff {s : Schema} {values stored : List (Option Value)}
    (h : Converts s.columns values stored) :
    (∃ tuple, s.encodeTuple values = .ok tuple) ↔ TextsFit (s.bitmapLen + s.dataLen) (textsOf stored) := by
  rw [encodeTuple_of_converts h]
  obtain ⟨new, htexts, hin⟩ :=
    encodeFields_spec s.bitmapLen s.columns (h.encodeFields (List.replicate s.bitmapLen 0) [] 0 0) h.length.1
    (by simp) (by simp [bitmapLen]; omega)
  rw [List.nil_append] at htexts
  have hlen : (fieldsOf (List.replicate s.bitmapLen 0) [] 0 s.columns stored).1.length =
      s.bitmapLen + s.dataLen := by
    rw [hin.length, List.length_replicate, colsFrom_widths, dataLen]
  rw [encodeTexts_ok_iff fun e he => (hin.inside e (htexts ▸ he)).2, fieldsOf_texts s.columns h.length.2, hlen]
  rfl

/-- A row is encoded exactly when it has a value for each column, each converts and the strings fit; its columns
read back as the converted values, which encode to the same bytes. -/
theorem rows_read_back (s : Schema) (values : List (Option Value)) :
    ((∃ tuple, s.encodeTuple values = .ok tuple) ↔
      ∃ stored, Converts s.columns values stored ∧ TextsFit (s.bitmapLen + s.dataLen) (textsOf stored)) ∧
    ∀ tuple stored, s.encodeTuple values = .ok tuple → Converts s.columns values stored →
      (∀ (i : Nat) (st : Option Value), stored[i]? = some st → s.getValue tuple i = .ok st ∧
        (st = none ↔ values[i]? = some none)) ∧
      s.encodeTuple stored = .ok tuple := by
  refine ⟨⟨fun htuple => ?_, fun hstored => ?_⟩, fun tuple stored htuple hstored => ⟨fun i st hst => ?_, ?_⟩⟩
  · obtain ⟨tuple, hok⟩ := htuple
    have hlen := encodeTuple_length hok
    rw [encodeTuple_eq hlen] at hok
    cases hf : encodeFields (List.replicate s.bitmapLen 0) [] 0 s.cols values with
    | error e =>
      rw [hf] at hok
      cases hok
    | ok r =>
      obtain ⟨stored, hstored⟩ := converts_of_encodeFields hlen hf
      rw [← encodeTuple_eq hlen] at hok
      exact ⟨stored, hstored, (encodeTuple_ok_iff hstored).mp ⟨tuple, hok⟩⟩
  · obtain ⟨stored, hstored, hfit⟩ := hstored
    exact (encodeTuple_ok_iff hstored).mpr hfit
  · obtain ⟨c, val, hc, hval, hconv⟩ := hstored.get hst
    obtain ⟨col, hcol, hdtype⟩ := cols_dtype (s := s) (i := i) (d := c.1) (by rw [dtypeAt, hc]; rfl)
    obtain ⟨st', hst', hget⟩ := getValue_encodeTuple htuple hcol hval
    have hcoerce := hst'
    rw [mapM_coerce_iff, hdtype, hconv, Except.ok.injEq] at hst'
    subst hst'
    refine ⟨hget, ?_⟩
    rw [hval, Option.some.injEq]
    exact mapM_coerce_none hcoerce
  · rw [encodeTuple_of_converts hstored.again, ← encodeTuple_of_converts hstored]
    exact htuple

end Schema

end Cmudb.Sql
