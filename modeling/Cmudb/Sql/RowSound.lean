import Cmudb.Sql.Rows

/-!
# Encoded rows read back

`encodeFields` is followed one column at a time: what it appends for a column
stays where it is, bits of the bitmap are only ever set for NULL columns, and
the text fields it leaves open are listed in order and apart from each other.
`encodeTexts` then fills exactly those fields. `getValue_encodeTuple` puts the
two together.
-/

namespace Cmudb.Sql

open Lib

/-! ## Converted values have the column's type -/

section
variable [FloatUnit]

theorem Value.coerceTo_dataType {v v' : Value} {t : DataType} (h : v.coerceTo t = .ok v') :
    v'.dataType = t.valueType := by
  unfold Value.coerceTo at h
  split at h
  case isTrue ht =>
    cases h
    subst ht
    cases v <;> rfl
  case isFalse =>
    split at h
    all_goals try cases h
    all_goals try rfl
    all_goals first | (unfold fitChars at h; split at h <;> cases h; rfl) | (split at h <;> cases h; rfl)

theorem Column.coerce_coerceTo {c : Column} {v v' : Value} (h : c.coerce v = .ok v') :
    v.coerceTo c.dtype = .ok v' := by
  unfold Column.coerce at h
  split at h
  all_goals cases h
  assumption

theorem Column.coerce_dataType {c : Column} {v v' : Value} (h : c.coerce v = .ok v') :
    v'.dataType = c.dtype.valueType := Value.coerceTo_dataType (Column.coerce_coerceTo h)

end

theorem DataType.valueType_isText (t : DataType) : t.valueType = .text ↔ t.isText := by
  cases t <;> simp [DataType.valueType, DataType.isText]

theorem DataType.valueType_of_not_text {t : DataType} (h : ¬ t.isText) : t.valueType = t := by
  cases t <;> simp_all [DataType.valueType, DataType.isText]

theorem DataType.fixedWidth_of_text {t : DataType} (h : t.isText) : t.fixedWidth = textDescriptorLen := by
  cases t <;> simp_all [DataType.fixedWidth, DataType.isText]

namespace Value

theorem encode_length {v : Value} (h : v.dataType ≠ .text) : v.encode.length = v.dataType.fixedWidth := by
  cases v with
  | text s => exact absurd rfl h
  | _ => simp [encode, dataType, DataType.fixedWidth]

theorem decode_encode {v : Value} (h : v.dataType ≠ .text) (tuple : Bytes) :
    decode tuple v.encode v.dataType = .ok v := by
  cases v with
  | boolean b => cases b <;> rfl
  | int i =>
    have hi : i.toBitVec.toNat < 256 ^ 4 := i.toBitVec.isLt
    simp [encode, dataType, decode, leNat_leBytes hi]
  | bigint i =>
    have hi : i.toBitVec.toNat < 256 ^ 8 := i.toBitVec.isLt
    simp [encode, dataType, decode, leNat_leBytes hi]
  | float f =>
    have hf : f.bits.toNat < 256 ^ 8 := f.bits.toBitVec.isLt
    simp [encode, dataType, decode, leNat_leBytes hf]
  | timestamp t =>
    have ht : t.toBitVec.toNat < 256 ^ 8 := t.toBitVec.isLt
    simp [encode, dataType, decode, leNat_leBytes ht]
  | text s => exact absurd rfl h

end Value

/-! ## The null bitmap -/

def bitAt (data : Bytes) (k : Nat) : Bool :=
  match data[k / 8]? with
  | none => false
  | some byte => byte.toNat.testBit (k % 8)

theorem isNull_eq {data : Bytes} {k : Nat} (h : k / 8 < data.length) : isNull data k = .ok (bitAt data k) := by
  rw [isNull, bitAt, List.getElem?_eq_getElem h]

theorem bitAt_append {data : Bytes} {k : Nat} (h : k / 8 < data.length) (more : Bytes) :
    bitAt (data ++ more) k = bitAt data k := by
  rw [bitAt, bitAt, List.getElem?_append_left h]

@[simp] theorem bitAt_zeros (n k : Nat) : bitAt (List.replicate n 0) k = false := by
  unfold bitAt
  split
  case h_1 => rfl
  case h_2 byte hb =>
    have hz : byte = 0 := List.eq_of_mem_replicate (List.mem_of_getElem? hb)
    subst hz
    simp

@[simp] theorem setBit_length (data : Bytes) (i : Nat) : (setBit data i).length = data.length := by
  simp [setBit]

theorem bitAt_setBit {data : Bytes} {i : Nat} (h : i / 8 < data.length) (k : Nat) :
    bitAt (setBit data i) k = (bitAt data k || decide (k = i)) := by
  rw [bitAt, bitAt, setBit, List.getElem?_modify]
  by_cases hk : i / 8 = k / 8
  case neg =>
    have hne : k ≠ i := by intro he; exact hk (by rw [he])
    cases hd : data[k / 8]? with
    | none => simp [hne]
    | some byte => simp [hk, hne]
  case pos =>
    rw [hk] at h
    rw [List.getElem?_eq_getElem h]
    have hbit : (i % 8 = k % 8) ↔ k = i := by omega
    have hp : 2 ^ (i % 8) < 256 := Nat.pow_lt_pow_right (n := 8) (by decide) (by omega)
    simp [hk, Nat.one_shiftLeft, Nat.mod_eq_of_lt hp, Nat.testBit_or, Nat.testBit_two_pow, hbit]

theorem bitAt_of_slice {data data' : Bytes} {k : Nat} (h : slice data (k / 8) 1 = slice data' (k / 8) 1) :
    bitAt data k = bitAt data' k := by
  have h0 := congrArg (·[0]?) h
  simp only [getElem?_slice, Nat.add_zero, Nat.zero_lt_one, if_true] at h0
  rw [bitAt, bitAt, h0]

theorem slice_setBit {data : Bytes} {i a : Nat} (h : i / 8 < a) (n : Nat) :
    slice (setBit data i) a n = slice data a n := by
  apply List.ext_getElem?
  intro j
  have hj : i / 8 ≠ a + j := by omega
  simp [getElem?_slice, setBit, hj]

/-! ## The fields -/

section
variable [FloatUnit]

/-- The row after the field of column `i`, which holds `stored`. -/
def withField (data : Bytes) (i : Nat) (dtype : DataType) : Option Value → Bytes
  | some (.text _) => data ++ List.replicate textDescriptorLen 0
  | some v => data ++ v.encode
  | none => setBit data i ++ List.replicate dtype.fixedWidth 0

def openText (data : Bytes) : Option Value → List (Nat × Text)
  | some (.text t) => [(data.length, t)]
  | _ => []

theorem encodeFields_stored (data : Bytes) (texts : List (Nat × Text)) (i : Nat) {col : Column} (cols : List Column)
    {val stored : Option Value} (vals : List (Option Value)) (h : val.mapM col.coerce = .ok stored) :
    Schema.encodeFields data texts i (col :: cols) (val :: vals) =
      Schema.encodeFields (withField data i col.dtype stored) (texts ++ openText data stored)
        (i + 1) cols vals := by
  rw [Schema.encodeFields, h]
  cases stored with
  | none => simp [openText, withField, bind, Except.bind]
  | some v => cases v <;> simp [openText, withField, bind, Except.bind]

theorem encodeFields_cons {data out : Bytes} {texts texts' : List (Nat × Text)} {i : Nat} {col : Column}
    {cols : List Column} {val : Option Value} {vals : List (Option Value)}
    (h : Schema.encodeFields data texts i (col :: cols) (val :: vals) = .ok (out, texts')) :
    ∃ stored, val.mapM col.coerce = .ok stored ∧
      Schema.encodeFields (withField data i col.dtype stored) (texts ++ openText data stored) (i + 1) cols vals =
        .ok (out, texts') := by
  cases hs : val.mapM col.coerce with
  | error e => rw [Schema.encodeFields, hs] at h; cases h
  | ok stored => exact ⟨stored, rfl, encodeFields_stored data texts i cols vals hs ▸ h⟩

theorem mapM_coerce_some {col : Column} {val : Option Value} {v : Value} (h : val.mapM col.coerce = .ok (some v)) :
    ∃ u, val = some u ∧ col.coerce u = .ok v := by
  cases val with
  | none => cases h
  | some u =>
    refine ⟨u, rfl, ?_⟩
    cases hc : col.coerce u with
    | error e => simp [Option.mapM_some, hc] at h
    | ok w => simp [Option.mapM_some, hc] at h; cases h; rfl

def StoredIn (dtype : DataType) (stored : Option Value) : Prop :=
  ∀ v, stored = some v → v.dataType = dtype.valueType

theorem storedIn_coerce {col : Column} {val stored : Option Value} (h : val.mapM col.coerce = .ok stored) :
    StoredIn col.dtype stored := by
  intro v hv
  subst hv
  obtain ⟨u, _, hu⟩ := mapM_coerce_some h
  exact Column.coerce_dataType hu

end

theorem withField_eq (data : Bytes) (i : Nat) {dtype : DataType} {stored : Option Value}
    (hs : StoredIn dtype stored) :
    ∃ field : Bytes, field.length = dtype.fixedWidth ∧
      withField data i dtype stored = (if stored = none then setBit data i else data) ++ field ∧
      ∀ v, stored = some v → v.dataType ≠ .text → field = v.encode := by
  cases stored with
  | none => exact ⟨List.replicate dtype.fixedWidth 0, by simp, by simp [withField], by simp⟩
  | some v =>
    have ht := hs v rfl
    by_cases htext : v.dataType = .text
    case pos =>
      have hw := DataType.fixedWidth_of_text ((DataType.valueType_isText dtype).mp (ht.symm.trans htext))
      refine ⟨List.replicate textDescriptorLen 0, by simp [hw], ?_, ?_⟩
      · cases v <;> simp [Value.dataType] at htext
        simp [withField]
      · intro u hu hne
        cases hu
        exact absurd htext hne
    case neg =>
      have hd : dtype.valueType = dtype := by
        apply DataType.valueType_of_not_text
        intro hx
        exact htext (ht.trans ((DataType.valueType_isText dtype).mpr hx))
      refine ⟨v.encode, by rw [Value.encode_length htext, ht, hd], ?_, ?_⟩
      · cases v <;> simp [Value.dataType] at htext
        all_goals simp [withField]
      · intro u hu _
        cases hu
        rfl

/-- The field of a column holds `stored`, or is listed as still to be pointed at its characters. -/
def FieldIn (bitmap : Nat) (data : Bytes) (texts : List (Nat × Text)) (col : Column) : Option Value → Prop
  | none => True
  | some (.text t) => (bitmap + col.offset, t) ∈ texts
  | some v => slice data (bitmap + col.offset) col.dtype.fixedWidth = v.encode

section
variable [FloatUnit]

theorem mapM_coerce_none {col : Column} {val stored : Option Value} (h : val.mapM col.coerce = .ok stored) :
    stored = none ↔ val = none := by
  cases val with
  | none => cases h; simp
  | some u =>
    cases hc : col.coerce u with
    | error e => simp [Option.mapM_some, hc] at h
    | ok w => simp [Option.mapM_some, hc] at h; cases h; simp

end

def textLen : Option Value → Nat
  | some (.text t) => t.asBytes.length
  | _ => 0

theorem sum_openText (data : Bytes) (v : Option Value) :
    ((openText data v).map fun e => e.2.asBytes.length).sum = textLen v := by
  cases v with
  | none => rfl
  | some u => cases u <;> simp [openText, textLen]

theorem mem_openText {data : Bytes} {stored : Option Value} {e : Nat × Text} (h : e ∈ openText data stored) :
    e.1 = data.length ∧ stored = some (.text e.2) := by
  cases stored with
  | none => cases h
  | some v => cases v <;> simp_all [openText]

theorem StoredIn.text_width {dtype : DataType} {t : Text} (h : StoredIn dtype (some (.text t))) :
    dtype.fixedWidth = textDescriptorLen :=
  DataType.fixedWidth_of_text ((DataType.valueType_isText dtype).mp (h _ rfl).symm)

theorem FieldIn.mono {bitmap : Nat} {data out : Bytes} {texts : List (Nat × Text)} {col : Column}
    {stored : Option Value} (h : FieldIn bitmap data texts col stored)
    (hout : slice out (bitmap + col.offset) col.dtype.fixedWidth =
      slice data (bitmap + col.offset) col.dtype.fixedWidth)
    {more : List (Nat × Text)} (hsub : ∀ e ∈ texts, e ∈ more) : FieldIn bitmap out more col stored := by
  cases stored with
  | none => trivial
  | some v =>
    cases v with
    | text t => exact hsub _ h
    | _ => exact hout.trans h

section
variable [FloatUnit]

/-- What the first pass did to `data` for the columns from number `i` on. -/
structure FieldsIn (bitmap i : Nat) (data : Bytes) (columns : List Column) (vals : List (Option Value))
    (out : Bytes) (texts : List (Nat × Text)) : Prop where
  length : out.length = data.length + (columns.map fun c => c.dtype.fixedWidth).sum
  inside : ∀ e ∈ texts, data.length ≤ e.1 ∧ e.1 + textDescriptorLen ≤ out.length
  placed : ∀ e ∈ texts, ∃ (j : Nat) (col : Column), columns[j]? = some col ∧ e.1 = bitmap + col.offset ∧
    col.dtype.isText
  apart : texts.Pairwise fun a b => a.1 + textDescriptorLen ≤ b.1
  kept : ∀ a n, bitmap ≤ a → a + n ≤ data.length → slice out a n = slice data a n
  bits : ∀ k, k / 8 < bitmap → bitAt out k = (bitAt data k || decide (i ≤ k ∧ vals[k - i]? = some none))
  field : ∀ (j : Nat) (col : Column) (val : Option Value), columns[j]? = some col → vals[j]? = some val →
    ∃ stored, val.mapM col.coerce = .ok stored ∧ FieldIn bitmap out texts col stored

theorem encodeFields_spec (bitmap : Nat) (columns : List (DataType × String)) {offset i : Nat} {data out : Bytes}
    {texts texts' : List (Nat × Text)} {vals : List (Option Value)}
    (h : Schema.encodeFields data texts i (Schema.colsFrom offset columns) vals = .ok (out, texts'))
    (hvals : vals.length = columns.length) (hdata : data.length = bitmap + offset)
    (hbits : i + columns.length ≤ 8 * bitmap) :
    ∃ new, texts' = texts ++ new ∧ FieldsIn bitmap i data (Schema.colsFrom offset columns) vals out new := by
  induction columns generalizing offset i data texts vals with
  | nil =>
    rw [List.length_nil, List.length_eq_zero_iff] at hvals
    subst hvals
    simp [Schema.colsFrom, Schema.encodeFields] at h
    obtain ⟨rfl, rfl⟩ := h
    exact ⟨[], by simp, by simp [Schema.colsFrom], by simp, by simp, by simp, fun _ _ _ _ => rfl, by simp, by simp⟩
  | cons c columns ih =>
    obtain ⟨dtype, name⟩ := c
    obtain ⟨val, vals, rfl⟩ := List.exists_cons_of_length_eq_add_one (by simpa using hvals)
    obtain ⟨stored, hs, h⟩ := encodeFields_cons h
    dsimp only at hs h
    obtain ⟨field, hw, heq, hfield⟩ := withField_eq data i (storedIn_coerce hs)
    have hlen : (withField data i dtype stored).length = data.length + dtype.fixedWidth := by
      rw [heq, List.length_append, hw]
      split <;> simp
    have hi : i / 8 < bitmap := by simp at hbits; omega
    obtain ⟨new, rfl, hin⟩ :=
      ih h (by simpa using hvals) (by rw [hlen, hdata]; simp [Nat.add_assoc]) (by simp at hbits; omega)
    refine ⟨openText data stored ++ new, by simp, ?_, ?_, ?_, ?_, ?_, ?_, ?_⟩
    · rw [hin.length, hlen]
      simp [Schema.colsFrom, Nat.add_assoc]
    · intro e he
      rcases List.mem_append.mp he with he | he
      · obtain ⟨hd, hst⟩ := mem_openText he
        have hwidth : dtype.fixedWidth = textDescriptorLen := StoredIn.text_width (hst ▸ storedIn_coerce hs)
        have hout := hin.length
        rw [hlen, hwidth] at hout
        omega
      · have := hin.inside e he
        omega
    · intro e he
      rcases List.mem_append.mp he with he | he
      · obtain ⟨hd, hst⟩ := mem_openText he
        have ht : dtype.valueType = .text := (storedIn_coerce hs _ hst).symm
        exact ⟨0, _, rfl, hd.trans hdata, (DataType.valueType_isText dtype).mp ht⟩
      · obtain ⟨j, col, hj, hcol⟩ := hin.placed e he
        exact ⟨j + 1, col, hj, hcol⟩
    · rw [List.pairwise_append]
      refine ⟨?_, hin.apart, ?_⟩
      · cases stored with
        | none => exact List.Pairwise.nil
        | some v => cases v <;> simp [openText]
      · intro a ha b hb
        obtain ⟨hd, hst⟩ := mem_openText ha
        have hwidth : dtype.fixedWidth = textDescriptorLen := StoredIn.text_width (hst ▸ storedIn_coerce hs)
        have hb := (hin.inside b hb).1
        omega
    · intro a n ha hn
      rw [hin.kept a n ha (by omega), heq]
      split
      · rw [slice_append (by simpa using hn), slice_setBit (by omega)]
      · exact slice_append hn field
    · intro k hk
      have hbit : bitAt (withField data i dtype stored) k = (bitAt data k || decide (k = i ∧ stored = none)) := by
        rw [heq]
        split
        case isTrue hn =>
          rw [bitAt_append (by simp; omega), bitAt_setBit (by omega)]
          simp [hn]
        case isFalse hn =>
          rw [bitAt_append (by omega)]
          simp [hn]
      rw [hin.bits k hk, hbit, Bool.or_assoc, ← Bool.decide_or]
      congr 1
      apply decide_eq_decide.mpr
      rw [mapM_coerce_none hs]
      rcases Nat.lt_trichotomy k i with hlt | rfl | hgt
      · simp only [show ¬ i ≤ k by omega, show ¬ i + 1 ≤ k by omega, show k ≠ i by omega, false_and, or_self]
      · simp
      · obtain ⟨d, rfl⟩ := Nat.exists_eq_add_of_lt hgt
        simp [show i + d + 1 - i = d + 1 by omega, show i + d + 1 - (i + 1) = d by omega,
          show i + d + 1 ≠ i by omega, show i ≤ i + d + 1 by omega, show i + 1 ≤ i + d + 1 by omega]
    · intro j col u hcol hu
      cases j with
      | zero =>
        cases hcol
        cases hu
        refine ⟨stored, hs, ?_⟩
        have hown : ∀ v, stored = some v → v.dataType ≠ .text →
            slice out (bitmap + offset) dtype.fixedWidth = v.encode := by
          intro v hv htext
          rw [hin.kept _ _ (by omega) (by omega), heq, if_neg (by simp [hv]), ← hdata, ← hw, ← hfield v hv htext]
          simpa using slice_appended data field []
        cases stored with
        | none => trivial
        | some v =>
          cases v with
          | text t => simp [FieldIn, openText, hdata]
          | _ => exact hown _ rfl (by simp [Value.dataType])
      | succ j =>
        obtain ⟨st, hst, hf⟩ := hin.field j col u hcol hu
        exact ⟨st, hst, hf.mono rfl fun e he => List.mem_append_right _ he⟩

end

/-! ## The characters -/

theorem textDescriptor_ok {offset len : Nat} {d : Bytes} (h : textDescriptor offset len = .ok d) :
    offset < 2 ^ 32 ∧ len < 2 ^ 32 ∧ d = leBytes 4 offset ++ leBytes 4 len := by
  unfold textDescriptor at h
  split at h
  case isTrue hl => cases h; exact ⟨hl.1, hl.2, rfl⟩
  case isFalse => cases h

def TextIn (row : Bytes) (descriptorAt : Nat) (t : Text) : Prop :=
  ∃ offset len, textDescriptor offset len = .ok (slice row descriptorAt textDescriptorLen) ∧
    offset + len ≤ row.length ∧ slice row offset len = t.asBytes

theorem encodeTexts_spec {fields : Nat} {texts : List (Nat × Text)} {data out : Bytes}
    (h : Schema.encodeTexts data texts = .ok out) (hfields : fields ≤ data.length)
    (hin : ∀ e ∈ texts, e.1 + textDescriptorLen ≤ fields)
    (hapart : texts.Pairwise fun a b => a.1 + textDescriptorLen ≤ b.1) :
    data.length ≤ out.length ∧
      (∀ a n, a + n ≤ data.length → (∀ e ∈ texts, a + n ≤ e.1 ∨ e.1 + textDescriptorLen ≤ a) →
        slice out a n = slice data a n) ∧
      ∀ e ∈ texts, TextIn out e.1 e.2 := by
  induction texts generalizing data with
  | nil =>
    cases h
    exact ⟨Nat.le_refl _, fun _ _ _ _ => rfl, by simp⟩
  | cons e texts ih =>
    obtain ⟨p, t⟩ := e
    unfold Schema.encodeTexts at h
    cases hd : textDescriptor data.length t.asBytes.length with
    | error err => rw [hd] at h; cases h
    | ok d =>
      rw [hd] at h
      obtain ⟨_, _, hbytes⟩ := textDescriptor_ok hd
      have hdl : d.length = textDescriptorLen := by rw [hbytes]; simp [textDescriptorLen]
      have hp : p + textDescriptorLen ≤ fields := hin (p, t) (by simp)
      have hfit : p + d.length ≤ data.length := by omega
      rw [List.pairwise_cons] at hapart
      have hpl := patch_length hfit
      have hlen : (patch data p d ++ t.asBytes).length = data.length + t.asBytes.length := by
        rw [List.length_append, hpl]
      obtain ⟨hgrow, hkept, htexts⟩ := ih h (by omega) (fun e he => hin e (by simp [he])) hapart.2
      refine ⟨by omega, ?_, ?_⟩
      · intro a n hn hap
        have hap' := hap (p, t) (by simp)
        rw [hkept a n (by omega) fun e he => hap e (by simp [he]), slice_append (by omega),
          slice_patch_apart hfit (by omega)]
      · intro e he
        rcases List.mem_cons.mp he with rfl | he
        case inr => exact htexts e he
        case inl =>
          refine ⟨data.length, t.asBytes.length, ?_, by omega, ?_⟩
          · rw [hkept p textDescriptorLen (by omega) fun e he => .inl (hapart.1 e he),
              slice_append (by omega), ← hdl, slice_patch_self hfit, hd]
          · rw [hkept _ _ (by omega) fun e he => .inr (by have := hin e (by simp [he]); omega), ← hpl]
            simpa using slice_appended (patch data p d) t.asBytes []

theorem Schema.encodeTexts_succeeds {texts : List (Nat × Text)} {data : Bytes}
    (hin : ∀ e ∈ texts, e.1 + textDescriptorLen ≤ data.length)
    (hlen : data.length + (texts.map fun e => e.2.asBytes.length).sum < 2 ^ 32) :
    ∃ out, Schema.encodeTexts data texts = .ok out := by
  induction texts generalizing data with
  | nil => exact ⟨data, rfl⟩
  | cons e texts ih =>
    obtain ⟨p, t⟩ := e
    rw [List.map_cons, List.sum_cons] at hlen
    dsimp only at hlen
    have hd : textDescriptor data.length t.asBytes.length =
        .ok (leBytes 4 data.length ++ leBytes 4 t.asBytes.length) := by
      rw [textDescriptor, if_pos (by omega)]
    have hp : p + textDescriptorLen ≤ data.length := hin (p, t) (by simp)
    have hpl : (patch data p (leBytes 4 data.length ++ leBytes 4 t.asBytes.length)).length = data.length :=
      patch_length (by simpa [textDescriptorLen] using hp)
    obtain ⟨out, ho⟩ := @ih (patch data p (leBytes 4 data.length ++ leBytes 4 t.asBytes.length) ++ t.asBytes)
      (by
        intro e he
        have := hin e (by simp [he])
        rw [List.length_append, hpl]
        omega)
      (by rw [List.length_append, hpl]; omega)
    exact ⟨out, by simp [Schema.encodeTexts, bind, Except.bind, hd, ho]⟩

theorem TextIn.textAt {row : Bytes} {p : Nat} {t : Text} (h : TextIn row p t) :
    textAt row (slice row p textDescriptorLen) = .ok (.text t) := by
  obtain ⟨offset, len, hd, hle, hs⟩ := h
  obtain ⟨ho, hl, hb⟩ := textDescriptor_ok hd
  have h1 : leNat ((slice row p textDescriptorLen).take 4) = offset := by
    rw [hb, List.take_left' (leBytes_length 4 offset)]
    exact leNat_leBytes ho
  have h2 : leNat (((slice row p textDescriptorLen).drop 4).take 4) = len := by
    rw [hb, List.drop_left' (leBytes_length 4 offset), List.take_of_length_le (by simp)]
    exact leNat_leBytes hl
  simp only [Sql.textAt, h1, h2, slice?_eq hle, hs, Text.fromUtf8_asBytes]

/-! ## Reading a row back -/

namespace Schema

@[simp] theorem colsFrom_length (offset : Nat) (columns : List (DataType × String)) :
    (colsFrom offset columns).length = columns.length := by
  induction columns generalizing offset with
  | nil => rfl
  | cons c columns ih => simp [colsFrom, ih]

@[simp] theorem cols_length (s : Schema) : s.cols.length = s.columns.length := colsFrom_length 0 s.columns

theorem colsFrom_widths (offset : Nat) (columns : List (DataType × String)) :
    (colsFrom offset columns).map (fun c => c.dtype.fixedWidth) = columns.map fun c => c.1.fixedWidth := by
  induction columns generalizing offset with
  | nil => rfl
  | cons c columns ih => simp [colsFrom, ih]

theorem colsFrom_dtype (columns : List (DataType × String)) (offset i : Nat) :
    (colsFrom offset columns)[i]?.map (fun c => c.dtype) = columns[i]?.map Prod.fst := by
  induction columns generalizing offset i with
  | nil => rfl
  | cons c columns ih =>
    cases i with
    | zero => rfl
    | succ i => exact ih _ i

theorem cols_dtype {s : Schema} {i : Nat} {d : DataType} (h : s.dtypeAt i = some d) :
    ∃ col, s.cols[i]? = some col ∧ col.dtype = d := by
  have hc := colsFrom_dtype s.columns 0 i
  rw [show s.columns[i]?.map Prod.fst = some d from h] at hc
  exact Option.map_eq_some_iff.mp hc

theorem colsFrom_inside {columns : List (DataType × String)} {offset : Nat} {col : Column}
    (h : col ∈ colsFrom offset columns) :
    offset ≤ col.offset ∧ col.payloadEnd ≤ offset + (columns.map fun c => c.1.fixedWidth).sum := by
  induction columns generalizing offset with
  | nil => cases h
  | cons c columns ih =>
    rw [List.map_cons, List.sum_cons]
    rcases List.mem_cons.mp h with rfl | h
    · simp only [Column.payloadEnd]
      omega
    · have := ih h
      omega

theorem colsFrom_apart (columns : List (DataType × String)) (offset : Nat) :
    (colsFrom offset columns).Pairwise fun a b => a.payloadEnd ≤ b.offset := by
  induction columns generalizing offset with
  | nil => exact List.Pairwise.nil
  | cons c columns ih =>
    apply List.Pairwise.cons _ (ih _)
    intro col hcol
    exact (colsFrom_inside hcol).1

theorem cols_apart (s : Schema) {i j : Nat} {a b : Column} (ha : s.cols[i]? = some a) (hb : s.cols[j]? = some b)
    (hne : i ≠ j) : a.payloadEnd ≤ b.offset ∨ b.payloadEnd ≤ a.offset := by
  obtain ⟨hi, rfl⟩ := List.getElem?_eq_some_iff.mp ha
  obtain ⟨hj, rfl⟩ := List.getElem?_eq_some_iff.mp hb
  have hpw := List.pairwise_iff_getElem.mp (colsFrom_apart s.columns 0)
  rcases Nat.lt_or_gt_of_ne hne with hlt | hgt
  · exact .inl (hpw i j hi hj hlt)
  · exact .inr (hpw j i hj hi hgt)

variable [FloatUnit]

theorem encodeTuple_length {s : Schema} {values : List (Option Value)} {tuple : Bytes}
    (h : s.encodeTuple values = .ok tuple) :
    values.length = s.columns.length := by
  unfold encodeTuple at h
  split at h
  case isTrue => cases h
  case isFalse hl => simpa using hl

theorem encodeTuple_passes {s : Schema} {values : List (Option Value)} {tuple : Bytes}
    (h : s.encodeTuple values = .ok tuple) :
    ∃ data texts, encodeTexts data texts = .ok tuple ∧
      FieldsIn s.bitmapLen 0 (List.replicate s.bitmapLen 0) s.cols values data texts := by
  have hlen := encodeTuple_length h
  unfold encodeTuple at h
  rw [if_neg (by simpa using hlen)] at h
  cases hf : encodeFields (List.replicate s.bitmapLen 0) [] 0 s.cols values with
  | error e => rw [hf] at h; cases h
  | ok r =>
    obtain ⟨data, texts⟩ := r
    rw [hf] at h
    obtain ⟨new, rfl, hin⟩ := encodeFields_spec s.bitmapLen s.columns hf hlen (by simp) (by simp [bitmapLen]; omega)
    exact ⟨data, _, h, hin⟩

/-- A column of an encoded row is the value stored in it, converted to the column's type. -/
theorem getValue_encodeTuple {s : Schema} {values : List (Option Value)} {tuple : Bytes}
    (h : s.encodeTuple values = .ok tuple) {i : Nat} {col : Column} {val : Option Value}
    (hcol : s.cols[i]? = some col) (hval : values[i]? = some val) :
    ∃ stored, val.mapM col.coerce = .ok stored ∧ s.getValue tuple i = .ok stored := by
  obtain ⟨data, texts, ht, hin⟩ := encodeTuple_passes h
  obtain ⟨stored, hs, hfield⟩ := hin.field i col val hcol hval
  refine ⟨stored, hs, ?_⟩
  obtain ⟨hgrow, hkept, htexts⟩ := encodeTexts_spec ht (Nat.le_refl _) (fun e he => (hin.inside e he).2) hin.apart
  have hlen := hin.length
  rw [List.length_replicate] at hlen
  have hcolIn := colsFrom_inside (List.mem_of_getElem? hcol)
  rw [← colsFrom_widths 0 s.columns] at hcolIn
  change _ ∧ _ ≤ 0 + (s.cols.map _).sum at hcolIn
  have hi : i / 8 < s.bitmapLen := by
    have := (List.getElem?_eq_some_iff.mp hcol).1
    rw [cols_length] at this
    simp only [bitmapLen]
    omega
  have hnull : isNull tuple i = .ok (decide (val = none)) := by
    have hkeep : slice tuple (i / 8) 1 = slice data (i / 8) 1 := by
      apply hkept _ _ (by omega)
      intro e he
      have hin := (hin.inside e he).1
      rw [List.length_replicate] at hin
      omega
    rw [isNull_eq (by omega), bitAt_of_slice hkeep, hin.bits i hi]
    simp [hval]
  unfold getValue
  rw [hcol]
  dsimp only
  rw [hnull]
  cases stored with
  | none =>
    rw [(mapM_coerce_none hs).mp rfl]
    rfl
  | some v =>
    have hsome : val ≠ none := by
      intro hn
      have := (mapM_coerce_none hs).mpr hn
      cases this
    have hend : s.bitmapLen + col.payloadEnd = s.bitmapLen + col.offset + col.dtype.fixedWidth := by
      simp only [Column.payloadEnd]
      omega
    have hfit : s.bitmapLen + col.offset + col.dtype.fixedWidth ≤ tuple.length := by omega
    simp only [bind, Except.bind, hsome, decide_false, Bool.false_eq_true, if_false, hend, slice?_eq hfit]
    have htype : v.dataType = col.dtype.valueType := storedIn_coerce hs v rfl
    by_cases htext : v.dataType = .text
    case pos =>
      have hc := (DataType.valueType_isText col.dtype).mp (htype.symm.trans htext)
      cases v <;> simp [Value.dataType] at htext
      case text t =>
        have hat := (htexts _ hfield).textAt
        rw [← DataType.fixedWidth_of_text hc] at hat
        have hdec : Value.decode tuple (slice tuple (s.bitmapLen + col.offset) col.dtype.fixedWidth) col.dtype =
            .ok (.text t) := by
          generalize slice tuple (s.bitmapLen + col.offset) col.dtype.fixedWidth = field at hat
          cases hd : col.dtype <;> simp [hd, DataType.isText] at hc
          all_goals exact hat
        rw [hdec]
        rfl
    case neg =>
      have hc : ¬ col.dtype.isText := by
        intro hx
        exact htext (htype.trans ((DataType.valueType_isText _).mpr hx))
      have hbytes : slice tuple (s.bitmapLen + col.offset) col.dtype.fixedWidth = v.encode := by
        rw [hkept _ _ (by omega)]
        · cases v with
          | text t => exact absurd rfl htext
          | _ => exact hfield
        · intro e he
          obtain ⟨j, c, hj, hplace, hctext⟩ := hin.placed e he
          have hne : i ≠ j := by
            intro hij
            subst hij
            rw [hcol] at hj
            cases hj
            exact hc hctext
          have hap := cols_apart s hcol hj hne
          simp only [Column.payloadEnd, DataType.fixedWidth_of_text hctext] at hap
          omega
      rw [hbytes, ← (htype.trans (DataType.valueType_of_not_text hc)), Value.decode_encode htext]
      rfl

end Schema

end Cmudb.Sql
