import ShaderInterface.Serial.Declaration
import ShaderInterface.Serial.Table

namespace ShaderInterface

/-- A type of data that is read back as it was written. -/
class LawfulSerial (α : Type) [Serial α] : Prop where
  ofValue?_toValue (a : α) : Serial.ofValue? (toValue a) = some a

attribute [simp] LawfulSerial.ofValue?_toValue

open Serial

namespace Value

theorem map_natBelow?_nat {ω : Type} {toNat : ω → Nat} {ofNat : Nat → ω} {bound : Nat} {w : ω}
    (hlt : toNat w < bound) (hw : ofNat (toNat w) = w) :
    ofNat <$> (nat (toNat w)).natBelow? bound = some w := by
  rw [natBelow?_nat hlt, Option.map_eq_map, Option.map_some, hw]

theorem natBelow?_eq_some {bound n : Nat} {value : Value} (h : value.natBelow? bound = some n) :
    nat n = value ∧ n < bound := by
  unfold natBelow? at h
  split at h
  · obtain ⟨hlt, hn⟩ := Option.ite_none_right_eq_some.mp h
    cases hn
    exact ⟨rfl, hlt⟩
  · cases h

end Value

instance : LawfulSerial String where
  ofValue?_toValue _ := rfl

instance : LawfulSerial Bool where
  ofValue?_toValue _ := rfl

instance : LawfulSerial UInt8 where
  ofValue?_toValue w := Value.map_natBelow?_nat w.toNat_lt_size UInt8.ofNat_toNat

instance : LawfulSerial UInt32 where
  ofValue?_toValue w := Value.map_natBelow?_nat w.toNat_lt_size UInt32.ofNat_toNat

instance : LawfulSerial UInt64 where
  ofValue?_toValue w := Value.map_natBelow?_nat w.toNat_lt_size UInt64.ofNat_toNat

instance : LawfulSerial Int32 where
  ofValue?_toValue w := by
    have hlow := w.le_toInt
    have hhigh := w.toInt_lt
    change (if -0x80000000 ≤ w.toInt ∧ w.toInt ≤ 0x7FFFFFFF then some (Int32.ofInt w.toInt) else none) =
      some w
    rw [if_pos (by omega), Int32.ofInt_toInt]

instance : LawfulSerial Scalar where
  ofValue?_toValue kind := ofTag?_tag (by cases kind <;> decide) (by cases kind <;> decide)

theorem DataType.tag_inj : ∀ a ∈ all, ∀ b ∈ all, tag b = tag a → b = a := by
  decide +kernel

instance : LawfulSerial DataType where
  ofValue?_toValue type := ofTag?_tag type.mem_all (DataType.tag_inj type type.mem_all)

instance : LawfulSerial Output where
  ofValue?_toValue output := ofTag?_tag (by cases output <;> decide) (by cases output <;> decide)

instance : LawfulSerial Stage where
  ofValue?_toValue stage := ofTag?_tag (by cases stage <;> decide) (by cases stage <;> decide)

instance : LawfulSerial BlockLayout where
  ofValue?_toValue layout := ofTag?_tag (by cases layout <;> decide) (by cases layout <;> decide)

instance : LawfulSerial Packing where
  ofValue?_toValue packing := ofTag?_tag (by cases packing <;> decide) (by cases packing <;> decide)

section

variable {α : Type} [Serial α]

theorem Serial.ofValue?_toValue_list {items : List α}
    (h : ∀ a ∈ items, ofValue? (toValue a) = some a) : ofValue? (toValue items) = some items := by
  change (items.map toValue).mapM ofValue? = some items
  induction items with
  | nil => rfl
  | cons a items ih =>
    rw [List.forall_mem_cons] at h
    rw [List.map_cons, List.mapM_cons, h.1, ih h.2]
    rfl

instance [LawfulSerial α] : LawfulSerial (List α) where
  ofValue?_toValue _ := ofValue?_toValue_list fun a _ => LawfulSerial.ofValue?_toValue a

theorem Serial.exists_read_of_mem {value : Value} {items : List α} (h : ofValue? value = some items)
    {a : α} (ha : a ∈ items) : ∃ item, ofValue? item = some a := by
  obtain ⟨values, -, hread⟩ := Option.bind_eq_some_iff.mp h
  clear h
  induction values generalizing items with
  | nil =>
    cases hread
    cases ha
  | cons item values ih =>
    rw [List.mapM_cons] at hread
    obtain ⟨first, hfirst, hread⟩ := Option.bind_eq_some_iff.mp hread
    obtain ⟨rest, hrest, hitems⟩ := Option.bind_eq_some_iff.mp hread
    cases hitems
    cases ha with
    | head => exact ⟨item, hfirst⟩
    | tail _ ha => exact ih ha hrest

end

namespace Value

@[simp] theorem record?_record (entries : List (String × Value)) :
    (record entries).record? = some entries := rfl

@[simp] theorem entriesNamed_nil (name : String) : entriesNamed [] name = [] := by
  simp [entriesNamed]

@[simp] theorem entriesNamed_cons (entry : String × Value) (entries : List (String × Value))
    (name : String) :
    entriesNamed (entry :: entries) name =
      if entry.1 = name then entry.2 :: entriesNamed entries name else entriesNamed entries name := by
  by_cases h : entry.1 = name <;> simp [entriesNamed, h]

end Value

section

variable {α : Type} [Serial α]

def Serial.ofOption? (α : Type) [Serial α] : Value → Option (Option α)
  | .null => some none
  | value => (ofValue? value).map some

theorem readOptional_eq (entries : List (String × Value)) (name : String) :
    readOptional entries name = (Value.optionalField? entries name).bind (ofOption? α) := by
  unfold readOptional
  cases Value.optionalField? entries name with
  | none => rfl
  | some value =>
    cases value with
    | null => rfl
    | _ => exact Option.map_eq_bind.symm

variable {entries : List (String × Value)} {name other : String} {value : Value}

@[simp] theorem readField_cons_self {a : α} (hrest : Value.entriesNamed entries name = [])
    (ha : ofValue? (toValue a) = some a) :
    readField ((name, toValue a) :: entries) name = some a := by
  rw [readField, Value.field?, Value.entriesNamed_cons, if_pos rfl, hrest]
  exact ha

@[simp] theorem readField_cons_of_ne (hname : other ≠ name) :
    (readField ((other, value) :: entries) name : Option α) = readField entries name := by
  rw [readField, readField, Value.field?, Value.field?, Value.entriesNamed_cons, if_neg hname]

@[simp] theorem readOptional_cons_self {o : Option UInt32}
    (hrest : Value.entriesNamed entries name = []) :
    readOptional ((name, optionValue o) :: entries) name = some o := by
  rw [readOptional_eq, Value.optionalField?, Value.entriesNamed_cons, if_pos rfl, hrest]
  cases o with
  | none => rfl
  | some w => exact congrArg (Option.map some) (LawfulSerial.ofValue?_toValue w)

@[simp] theorem readOptional_cons_of_ne (hname : other ≠ name) :
    (readOptional ((other, value) :: entries) name : Option (Option α)) =
      readOptional entries name := by
  rw [readOptional_eq, readOptional_eq, Value.optionalField?, Value.optionalField?,
    Value.entriesNamed_cons, if_neg hname]

end

instance : LawfulSerial Dims where
  ofValue?_toValue dims := by
    cases dims with
    | vector width =>
      change Dims.vector <$> ofValue? (toValue width) = _
      simp
    | matrix columns rows =>
      change Dims.ofValue? (Dims.toValue _) = _
      simp [Dims.ofValue?, Dims.toValue]

instance : LawfulSerial Shape where
  ofValue?_toValue shape := by
    unfold Serial.ofValue? toValue instSerialShape
    simp

instance : LawfulSerial MemberInfo where
  ofValue?_toValue info := by
    unfold Serial.ofValue? toValue instSerialMemberInfo
    simp

instance : LawfulSerial Limits where
  ofValue?_toValue limits := by
    unfold Serial.ofValue? toValue instSerialLimits
    simp

instance : LawfulSerial UniformEntry where
  ofValue?_toValue u := by
    unfold Serial.ofValue? toValue instSerialUniformEntry
    simp

/-- The members of a block are positions in 64 bits. -/
def BlockEntry.MembersFit (b : BlockEntry) : Prop := ∀ index ∈ b.members, index < UInt64.size

theorem BlockEntry.ofValue?_toValue {b : BlockEntry} (h : b.MembersFit) :
    ofValue? (toValue b) = some b := by
  have hmembers : ofValue? (toValue b.members) = some b.members :=
    ofValue?_toValue_list fun index hindex => Value.natBelow?_nat (h index hindex)
  unfold Serial.ofValue? toValue instSerialBlockEntry
  simp [hmembers]

theorem BlockEntry.membersFit_of_read {value : Value} {b : BlockEntry}
    (h : ofValue? value = some b) : b.MembersFit := by
  unfold Serial.ofValue? instSerialBlockEntry at h
  simp only [Option.bind_eq_bind, Option.bind_eq_some_iff] at h
  obtain ⟨entries, -, name, -, element, -, size, -, members, hread, vertex, -, fragment, -, hb⟩ := h
  cases hb
  intro index hindex
  obtain ⟨list, -, hlist⟩ := Option.bind_eq_some_iff.mp hread
  obtain ⟨item, hitem⟩ := exists_read_of_mem hlist hindex
  exact (Value.natBelow?_eq_some hitem).2

namespace Variable

theorem fieldValues_eq_map (fields : List Variable) : fieldValues fields = fields.map toValue := by
  induction fields with
  | nil => rfl
  | cons f fields ih => rw [fieldValues, ih, List.map_cons]

theorem all?_eq_mapM (items : List Value) : all? items = items.mapM ofValue? := by
  induction items with
  | nil => rfl
  | cons item items ih => rw [all?, ih, List.mapM_cons]

theorem fields?_eq (value : Value) : fields? value = Serial.ofValue? value := by
  cases value with
  | list items =>
    rw [fields?, all?_eq_mapM]
    rfl
  | _ => rw [fields?] <;> first | rfl | nofun

theorem kindIn?_eq (entries : List (String × Value)) : kindIn? entries = readField entries "kind" := by
  induction entries with
  | nil => rfl
  | cons entry entries ih =>
    rw [kindIn?, readField, Value.field?, Value.entriesNamed_cons]
    split
    · cases Value.entriesNamed entries "kind" <;> rfl
    · exact ih

theorem ofValue?_record (entries : List (String × Value)) :
    Serial.ofValue? (.record entries) = do
      let decl ← declarator? entries
      let kind ← readField entries "kind"
      return ofKind decl kind := by
  rw [← kindIn?_eq]
  rfl

theorem toValue_eq (v : Variable) :
    ShaderInterface.toValue v = toValue.record v.decl (ShaderInterface.toValue v.kind) := by
  cases v with
  | basic decl type => rfl
  | struct decl fields =>
    change toValue (struct decl fields) = _
    rw [toValue, fieldValues_eq_map]
    rfl

theorem ofValue?_toValue_of_kind {v : Variable}
    (h : Serial.ofValue? (ShaderInterface.toValue v.kind) = some v.kind) :
    Serial.ofValue? (ShaderInterface.toValue v) = some v := by
  have hdecl : declarator?
      [("name", ShaderInterface.toValue v.decl.name), ("kind", ShaderInterface.toValue v.kind),
        ("array_size", ShaderInterface.toValue v.decl.arraySize),
        ("is_row_major_layout", ShaderInterface.toValue v.decl.rowMajor),
        ("static_use", ShaderInterface.toValue v.decl.staticUse)] = some v.decl := by
    simp [declarator?]
  rw [toValue_eq, toValue.record, ofValue?_record, hdecl, readField_cons_of_ne (by decide),
    readField_cons_self (by simp) h]
  exact congrArg some (ofKind_decl_kind v)

theorem kind?_toValue_basic (type : DataType) :
    Serial.ofValue? (ShaderInterface.toValue (Kind.basic type)) = some (Kind.basic type) := by
  change kind? (.record [("Basic", ShaderInterface.toValue type)]) = _
  rw [kind?, if_pos rfl, LawfulSerial.ofValue?_toValue]
  rfl

theorem kind?_toValue_struct {fields : List Variable}
    (h : ∀ f ∈ fields, Serial.ofValue? (ShaderInterface.toValue f) = some f) :
    Serial.ofValue? (ShaderInterface.toValue (Kind.struct fields)) = some (Kind.struct fields) := by
  change kind? (.record [("Struct", ShaderInterface.toValue fields)]) = _
  rw [kind?, if_neg (by decide), if_pos rfl, fields?_eq, ofValue?_toValue_list h]
  rfl

end Variable

-- By induction over the declaration: a struct is read back when its fields are.
instance : LawfulSerial Variable where
  ofValue?_toValue v := by
    induction v with
    | basic decl type => exact Variable.ofValue?_toValue_of_kind (Variable.kind?_toValue_basic type)
    | struct decl fields ih =>
      exact Variable.ofValue?_toValue_of_kind (Variable.kind?_toValue_struct ih)

instance : LawfulSerial Kind where
  ofValue?_toValue kind := by
    cases kind with
    | basic type => exact Variable.kind?_toValue_basic type
    | struct fields =>
      exact Variable.kind?_toValue_struct fun f _ => LawfulSerial.ofValue?_toValue f

instance : LawfulSerial BlockDeclaration where
  ofValue?_toValue block := by
    unfold Serial.ofValue? toValue instSerialBlockDeclaration
    simp [Variable.declarator?]

end ShaderInterface
