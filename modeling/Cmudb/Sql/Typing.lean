import Cmudb.Lib.Grouping
import Cmudb.Sql.Expressions
import Cmudb.Sql.RowSound

/-!
# Values of typed expressions

A value fits a type when converting it to the type changes nothing. Every value
an expression takes on an encoded row fits the type the expression claims, if its
column references claim the types the row's schema gives them.
-/

namespace Cmudb.Sql

theorem withoutCharPadding_idem (s : Text) : withoutCharPadding (withoutCharPadding s) = withoutCharPadding s := by
  simp [withoutCharPadding, List.rdropWhile_idempotent]

namespace DataType

theorem numericRank_valueType (t : DataType) : t.valueType.numericRank = t.numericRank := by cases t <;> rfl

theorem commonNumeric_valueType (t u : DataType) : t.valueType.commonNumeric u.valueType = t.commonNumeric u := by
  unfold commonNumeric
  rw [numericRank_valueType, numericRank_valueType]
  cases t <;> cases u <;> rfl

end DataType

def binaryDtype (op : Op) (dl dr : Option DataType) : Option DataType :=
  match op.arithmetic with
  | some _ =>
    match dl, dr with
    | some l, some r => (l.commonNumeric r).or (some l)
    | l, r => l.or r
  | none => some .boolean

theorem Expression.dtype_binary {C : Type} (l r : Expression C) (op : Op) :
    (Expression.binary l r op).dtype = binaryDtype op l.dtype r.dtype := rfl

variable [FloatUnit] {schema : Schema} {vals : List (Option Value)}

def Fits (t : DataType) (v : Value) : Prop := v.coerceTo t = .ok v

theorem fits_of_dataType {v : Value} {t : DataType} (h : v.dataType = t) : Fits t v := by
  simp [Fits, Value.coerceTo, h]

theorem fits_dataType {t : DataType} {v : Value} (h : Fits t v) : v.dataType = t.valueType :=
  Value.coerceTo_dataType h

theorem fits_coerceTo {v v' : Value} {t : DataType} (h : v.coerceTo t = .ok v') : Fits t v' := by
  by_cases ht : t.isText
  case neg => exact fits_of_dataType ((Value.coerceTo_dataType h).trans (DataType.valueType_of_not_text ht))
  case pos =>
    unfold Value.coerceTo at h
    split at h
    case isTrue hd => cases h; exact fits_of_dataType hd
    case isFalse =>
      split at h
      all_goals try cases ht
      case h_1 s maxChars =>
        unfold fitChars at h
        split at h
        case isTrue hl => cases h; simp [Fits, Value.coerceTo, Value.dataType, fitChars, hl]
        case isFalse => cases h
      case h_2 s n =>
        unfold fitChars at h
        split at h
        case isTrue hl =>
          cases h; simp [Fits, Value.coerceTo, Value.dataType, fitChars, withoutCharPadding_idem, hl]
        case isFalse => cases h
      all_goals cases h

theorem Arithmetic.apply_dataType {op : Arithmetic} {l r v : Value} (h : op.apply l r = .ok v) :
    l.dataType.commonNumeric r.dataType = some v.dataType := by
  unfold Arithmetic.apply at h
  split at h
  case h_1 => cases h
  case h_2 common hc =>
    rw [hc]
    split at h
    case h_1 a b _ _ =>
      cases hi : op.applyInteger a.toInt b.toInt inI32 with
      | error e => rw [hi] at h; cases h
      | ok i =>
        rw [hi] at h
        cases h
        have hin : inI32 i := by
          unfold Arithmetic.applyInteger at hi
          split at hi
          · cases hi
          · split at hi
            · rename_i hx
              cases hi
              simp at hx
              exact hx.2
            · cases hi
        have hr : (Int64.ofInt i).toInt = i := by
          simp only [inI32, decide_eq_true_eq] at hin
          exact Int64.toInt_ofInt_of_le (by omega) (by omega)
        simp [Value.integer, hr, hin, Value.dataType]
    case h_2 a b _ _ =>
      cases hi : op.applyInteger a.toInt b.toInt inI64 with
      | error e => rw [hi] at h; cases h
      | ok i => rw [hi] at h; cases h; rfl
    case h_3 => cases h; rfl
    case h_4 => cases h

namespace Expression

def TypedBy (schema : Schema) : Expression ColIdx → Prop
  | constant _ => True
  | column col dtype => schema.dtypeAt col = some dtype
  | binary left right _ => left.TypedBy schema ∧ right.TypedBy schema

end Expression

def FitsType (d : Option DataType) (v : Option Value) : Prop := ∀ u, v = some u → ∃ t, d = some t ∧ Fits t u

theorem evalArithmetic_fits {op : Op} {a : Arithmetic} (ha : op.arithmetic = some a) {dl dr : Option DataType}
    {l r v : Option Value} (hl : FitsType dl l) (hr : FitsType dr r) (h : evalArithmetic a l r = .ok v) :
    FitsType (binaryDtype op dl dr) v := by
  intro u hu
  subst hu
  cases l with
  | none => cases h
  | some x =>
    cases r with
    | none => cases h
    | some y =>
      obtain ⟨tl, rfl, hfl⟩ := hl x rfl
      obtain ⟨tr, rfl, hfr⟩ := hr y rfl
      cases hx : a.apply x y with
      | error e => simp [evalArithmetic, hx, Except.map] at h
      | ok z =>
        simp [evalArithmetic, hx, Except.map] at h
        subst h
        have hc := Arithmetic.apply_dataType hx
        rw [fits_dataType hfl, fits_dataType hfr, DataType.commonNumeric_valueType] at hc
        exact ⟨z.dataType, by simp [binaryDtype, ha, hc], fits_of_dataType rfl⟩

theorem compareValues_fits {op : Op} (ha : op.arithmetic = none) {dl dr : Option DataType} {l r v : Option Value}
    (h : ((compareValues l r).map fun ord => ord.map fun o => Value.boolean (op.holds o)) = .ok v) :
    FitsType (binaryDtype op dl dr) v := by
  intro u hu
  subst hu
  cases hx : compareValues l r with
  | error e => rw [hx] at h; cases h
  | ok ord =>
    rw [hx] at h
    cases ord with
    | none => cases h
    | some o =>
      cases h
      exact ⟨.boolean, by simp [binaryDtype, ha], fits_of_dataType rfl⟩

theorem evalBinary_fits {op : Op} {dl dr : Option DataType} {l r v : Option Value} (hl : FitsType dl l)
    (hr : FitsType dr r) (h : evalBinary op l r = .ok v) : FitsType (binaryDtype op dl dr) v := by
  have hbool : ∀ (b : Option Bool), v = b.map .boolean → op.arithmetic = none →
      FitsType (binaryDtype op dl dr) v := by
    intro b hb hop u hu
    subst hb
    cases b with
    | none => cases hu
    | some b =>
      cases hu
      exact ⟨.boolean, by simp [binaryDtype, hop], fits_of_dataType rfl⟩
  cases op with
  | add => exact evalArithmetic_fits rfl hl hr h
  | sub => exact evalArithmetic_fits rfl hl hr h
  | mul => exact evalArithmetic_fits rfl hl hr h
  | div => exact evalArithmetic_fits rfl hl hr h
  | and =>
    obtain ⟨a, _, h⟩ := Lib.bind_eq_ok h
    obtain ⟨b, _, h⟩ := Lib.bind_eq_ok h
    cases h
    exact hbool _ rfl rfl
  | or =>
    obtain ⟨a, _, h⟩ := Lib.bind_eq_ok h
    obtain ⟨b, _, h⟩ := Lib.bind_eq_ok h
    cases h
    exact hbool _ rfl rfl
  | _ => exact compareValues_fits rfl h

theorem Schema.getValue_fits {t : Bytes} (h : schema.encodeTuple vals = .ok t) {col : Nat} {d : DataType}
    (hd : schema.dtypeAt col = some d) {v : Option Value} (hv : schema.getValue t col = .ok v) :
    FitsType (some d) v := by
  intro u hu
  subst hu
  obtain ⟨c, hc, rfl⟩ := cols_dtype hd
  have hlen := encodeTuple_length h
  have hlt : col < vals.length := by
    have := (List.getElem?_eq_some_iff.mp hc).1
    rw [cols_length] at this
    omega
  obtain ⟨stored, hs, hg⟩ := getValue_encodeTuple h hc (List.getElem?_eq_getElem hlt)
  rw [hv] at hg
  cases hg
  obtain ⟨w, _, hw⟩ := mapM_coerce_some hs
  exact ⟨c.dtype, rfl, fits_coerceTo (Column.coerce_coerceTo hw)⟩

theorem Expression.evaluate_fits {t : Bytes} (h : schema.encodeTuple vals = .ok t) {e : Expression ColIdx}
    (ht : e.TypedBy schema) {v : Option Value} (hv : e.evaluate t schema = .ok v) :
    FitsType e.dtype v := by
  induction e generalizing v with
  | constant c =>
    cases hv
    intro u hu
    subst hu
    exact ⟨u.dataType, rfl, fits_of_dataType rfl⟩
  | column col dtype =>
    simp only [evaluate, evaluateOn, InputRow.columnValue] at hv
    split at hv
    · rename_i u hu
      cases hv
      exact Schema.getValue_fits h ht hu
    · cases hv
  | binary l r op ihl ihr =>
    simp only [evaluate, evaluateOn] at hv
    obtain ⟨x, hx, hv⟩ := Lib.bind_eq_ok hv
    obtain ⟨y, hy, hv⟩ := Lib.bind_eq_ok hv
    rw [dtype_binary]
    exact evalBinary_fits (ihl ht.1 hx) (ihr ht.2 hy) hv

/-! ## Rows that fit their schema -/

namespace Schema

/-- One value for each column, each of the column's type. -/
def Holds (schema : Schema) (vals : List (Option Value)) : Prop :=
  List.Forall₂ (fun c v => FitsType (some c.1) v) schema.columns vals

def encodedLen (schema : Schema) (vals : List (Option Value)) : Nat :=
  schema.bitmapLen + schema.dataLen + (vals.map textLen).sum

theorem mapM_coerce_fits {col : Column} {v : Option Value} (h : FitsType (some col.dtype) v) :
    v.mapM col.coerce = .ok v := by
  cases v with
  | none => rfl
  | some u =>
    obtain ⟨t, ht, hu⟩ := h u rfl
    cases ht
    have hc : col.coerce u = .ok u := by
      unfold Column.coerce
      rw [hu]
    simp [Option.mapM_some, hc]

theorem encodeFields_holds {columns : List (DataType × String)}
    (h : List.Forall₂ (fun c v => FitsType (some c.1) v) columns vals) (data : Bytes) (texts : List (Nat × Text))
    (i offset : Nat) :
    ∃ out new, encodeFields data texts i (colsFrom offset columns) vals = .ok (out, texts ++ new) ∧
      (new.map fun e => e.2.asBytes.length).sum = (vals.map textLen).sum := by
  induction h generalizing data texts i offset with
  | nil => exact ⟨data, [], by simp [colsFrom, encodeFields], rfl⟩
  | @cons c v columns vals hv _ ih =>
    obtain ⟨dtype, name⟩ := c
    have hco : v.mapM (Column.coerce ⟨name, dtype, offset⟩) = .ok v := mapM_coerce_fits hv
    obtain ⟨out, new, hf, hs⟩ :=
      ih (withField data i dtype v) (texts ++ openText data v) (i + 1) (offset + dtype.fixedWidth)
    refine ⟨out, openText data v ++ new, ?_, ?_⟩
    · rw [colsFrom, encodeFields_stored data texts i _ vals hco, hf, List.append_assoc]
    · rw [List.map_append, List.sum_append, hs, List.map_cons, List.sum_cons, sum_openText]

theorem encodeTuple_holds (h : schema.Holds vals) (hlen : schema.encodedLen vals < 2 ^ 32)
    : ∃ t, schema.encodeTuple vals = .ok t := by
  have hl : vals.length = schema.columns.length := h.length_eq.symm
  obtain ⟨out, new, hf, hs⟩ := encodeFields_holds h (List.replicate schema.bitmapLen 0) [] 0 0
  obtain ⟨new', hnew, hin⟩ := encodeFields_spec schema.bitmapLen schema.columns hf hl (by simp)
    (by simp [bitmapLen]; omega)
  obtain rfl : new = new' := by simpa using hnew
  have hout := hin.length
  rw [colsFrom_widths, List.length_replicate] at hout
  have htext : out.length + (new.map fun e => e.2.asBytes.length).sum < 2 ^ 32 := by
    simp only [encodedLen, dataLen] at hlen
    omega
  obtain ⟨t, ht⟩ := encodeTexts_succeeds (fun e he => (hin.inside e he).2) htext
  refine ⟨t, ?_⟩
  rw [encodeTuple, if_neg (by simpa using hl)]
  simp only [cols, hf, Lib.ok_bind]
  simpa using ht

theorem getValue_holds (h : schema.Holds vals) {t : Bytes} (ht : schema.encodeTuple vals = .ok t) {i : Nat}
    {v : Option Value} (hv : vals[i]? = some v) :
    schema.getValue t i = .ok v := by
  have hi := (List.getElem?_eq_some_iff.mp hv).1
  have hc : i < schema.columns.length := by rw [h.length_eq]; exact hi
  have hd : schema.dtypeAt i = some schema.columns[i].1 := by simp [dtypeAt, List.getElem?_eq_getElem hc]
  obtain ⟨col, hcol, hdt⟩ := cols_dtype hd
  obtain ⟨stored, hs, hg⟩ := getValue_encodeTuple ht hcol hv
  have hfit : FitsType (some col.dtype) v := by
    rw [hdt]
    have hget := (List.forall₂_iff_get.mp h).2 i hc hi
    rwa [List.get_eq_getElem, List.get_eq_getElem, (List.getElem?_eq_some_iff.mp hv).2] at hget
  rw [mapM_coerce_fits hfit] at hs
  cases hs
  exact hg

theorem encodeFields_restored {columns : List (DataType × String)} {data : Bytes} {texts : List (Nat × Text)}
    {i offset : Nat} {r : Bytes × List (Nat × Text)} (hl : vals.length = columns.length)
    (h : encodeFields data texts i (colsFrom offset columns) vals = .ok r) :
    ∃ stored, List.Forall₂ (fun c v => FitsType (some c.1) v) columns stored ∧
      encodeFields data texts i (colsFrom offset columns) stored = .ok r := by
  induction columns generalizing data texts i offset vals with
  | nil =>
    rw [List.length_nil, List.length_eq_zero_iff] at hl
    subst hl
    exact ⟨[], .nil, h⟩
  | cons c columns ih =>
    obtain ⟨dtype, name⟩ := c
    obtain ⟨val, vals, rfl⟩ := List.exists_cons_of_length_eq_add_one (by simpa using hl)
    obtain ⟨out, texts'⟩ := r
    obtain ⟨v, hv, h⟩ := encodeFields_cons h
    obtain ⟨stored, hs, hr⟩ := ih (by simpa using hl) h
    have hfit : FitsType (some dtype) v := by
      intro u hu
      subst hu
      obtain ⟨w, _, hw⟩ := mapM_coerce_some hv
      exact ⟨dtype, rfl, fits_coerceTo (Column.coerce_coerceTo hw)⟩
    refine ⟨v :: stored, .cons hfit hs, ?_⟩
    have hco : v.mapM (Column.coerce ⟨name, dtype, offset⟩) = .ok v := mapM_coerce_fits hfit
    rw [colsFrom, encodeFields_stored data texts i _ stored hco]
    exact hr

theorem encodeTuple_restored {t : Bytes} (h : schema.encodeTuple vals = .ok t) :
    ∃ stored, schema.Holds stored ∧ schema.encodeTuple stored = .ok t := by
  have hl := encodeTuple_length h
  unfold encodeTuple at h
  rw [if_neg (by simpa using hl)] at h
  obtain ⟨r, hr, h⟩ := Lib.bind_eq_ok h
  obtain ⟨stored, hs, hr'⟩ := encodeFields_restored hl hr
  refine ⟨stored, hs, ?_⟩
  rw [encodeTuple, if_neg (by simpa using hs.length_eq.symm)]
  simp only [cols, hr', Lib.ok_bind]
  exact h

end Schema

end Cmudb.Sql
