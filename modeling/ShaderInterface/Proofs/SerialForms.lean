import ShaderInterface.Proofs.SerialLaws

namespace ShaderInterface

namespace Serial

variable (α : Type) [Serial α]

/-- Reads a value as data of a type and writes the data anew. -/
def rewrite (value : Value) : Option Value := toValue <$> (ofValue? value : Option α)

def rewriteOption : Value → Option Value
  | .null => some .null
  | value => rewrite α value

/-- A type of data with one form only: a value that is read is the form of the data. -/
def IsExact : Prop := ∀ (value : Value) (a : α), ofValue? value = some a → toValue a = value

end Serial

open Serial

/-- Data of a kind goes to values and back. -/
structure RoundTripsOn {α : Type} [Serial α] (Fits : α → Prop) : Prop where
  read_written : ∀ a, Fits a → ofValue? (toValue a) = some a
  /-- What is read is of the kind, and is read again once it is written. -/
  read_again : ∀ (value : Value) (a : α), ofValue? value = some a →
    Fits a ∧ ofValue? (toValue a) = some a
  /-- A value that was written anew stays as it is. -/
  rewrite_fixed : ∀ value form, rewrite α value = some form → rewrite α form = some form

def RoundTrips (α : Type) [Serial α] : Prop := RoundTripsOn fun _ : α => True

theorem roundTripsOn_of_reads {α : Type} [Serial α] {Fits : α → Prop}
    (hwritten : ∀ a, Fits a → ofValue? (toValue a) = some a)
    (hread : ∀ (value : Value) (a : α), ofValue? value = some a → Fits a) : RoundTripsOn Fits where
  read_written := hwritten
  read_again value a h := ⟨hread value a h, hwritten a (hread value a h)⟩
  rewrite_fixed value form h := by
    obtain ⟨a, ha, rfl⟩ := Option.map_eq_some_iff.mp h
    rw [rewrite, hwritten a (hread value a ha)]
    rfl

theorem LawfulSerial.roundTrips (α : Type) [Serial α] [LawfulSerial α] : RoundTrips α :=
  roundTripsOn_of_reads (fun a _ => ofValue?_toValue a) fun _ _ _ => trivial

namespace Value

theorem nat_of_map_natBelow? {ω : Type} {toNat : ω → Nat} {ofNat : Nat → ω} {bound : Nat}
    (hn : ∀ n < bound, toNat (ofNat n) = n) {value : Value} {w : ω}
    (h : ofNat <$> value.natBelow? bound = some w) : nat (toNat w) = value := by
  obtain ⟨n, hread, rfl⟩ := Option.map_eq_some_iff.mp h
  obtain ⟨hvalue, hlt⟩ := natBelow?_eq_some hread
  rw [hn n hlt, hvalue]

theorem text_of_bind_ofTag? {α : Type} {tag : α → String} {all : List α} {value : Value} {a : α}
    (h : value.text?.bind (ofTag? tag all) = some a) : text (tag a) = value := by
  obtain ⟨read, htext, ha⟩ := Option.bind_eq_some_iff.mp h
  have htag : tag a = read := by simpa using List.find?_some ha
  cases value with
  | text =>
    cases htext
    rw [htag]
  | _ => cases htext

end Value

namespace Serial

theorem isExact_string : IsExact String := by
  intro value text h
  cases value with
  | text => exact congrArg Value.text (Option.some.inj h).symm
  | _ => cases h

theorem isExact_bool : IsExact Bool := by
  intro value flag h
  cases value with
  | bool => exact congrArg Value.bool (Option.some.inj h).symm
  | _ => cases h

theorem isExact_int32 : IsExact Int32 := by
  intro value w h
  cases value with
  | int n =>
    obtain ⟨hrange, hw⟩ := Option.ite_none_right_eq_some.mp h
    cases hw
    exact congrArg Value.int (Int32.toInt_ofInt_of_le (by omega) (by omega))
  | _ => cases h

theorem isExact_uint8 : IsExact UInt8 := fun _ _ h =>
  Value.nat_of_map_natBelow? (fun _ => UInt8.toNat_ofNat_of_lt') h

theorem isExact_uint32 : IsExact UInt32 := fun _ _ h =>
  Value.nat_of_map_natBelow? (fun _ => UInt32.toNat_ofNat_of_lt') h

theorem isExact_uint64 : IsExact UInt64 := fun _ _ h =>
  Value.nat_of_map_natBelow? (fun _ => UInt64.toNat_ofNat_of_lt') h

theorem isExact_nat : IsExact Nat := fun _ _ h => (Value.natBelow?_eq_some h).1

end Serial

/-- How a record is written anew under one name. -/
structure FieldForm where
  name : String
  optional : Bool
  write : Value → Option Value

namespace FieldForm

def required (α : Type) [Serial α] (name : String) : FieldForm := ⟨name, false, rewrite α⟩

def option (α : Type) [Serial α] (name : String) : FieldForm := ⟨name, true, rewriteOption α⟩

/-- The value of the field in a record: null for an optional one that is left out. -/
def find? (form : FieldForm) (entries : List (String × Value)) : Option Value :=
  if form.optional then Value.optionalField? entries form.name
  else Value.field? entries form.name

def entryIn? (form : FieldForm) (entries : List (String × Value)) : Option (String × Value) :=
  ((form.find? entries).bind form.write).map (Prod.mk form.name)

def written? (forms : List FieldForm) (entries : List (String × Value)) :
    Option (List (String × Value)) :=
  forms.mapM (·.entryIn? entries)

/-- Writes a record anew field by field. -/
def rewriteRecord (forms : List FieldForm) (value : Value) : Option Value := do
  let entries ← value.record?
  return .record (← written? forms entries)

/-- Writes a record with one entry anew, as the name of the entry says. -/
def rewriteTagged (forms : List (String × (Value → Option Value))) : Value → Option Value
  | .record [(tag, value)] => do
    let rewrite ← forms.lookup tag
    return .record [(tag, ← rewrite value)]
  | _ => none

theorem rewriteRecord_record (forms : List FieldForm) (entries : List (String × Value)) :
    rewriteRecord forms (.record entries) = do return .record (← written? forms entries) := rfl

theorem rewriteRecord_congr {forms : List FieldForm} {entries entries' : List (String × Value)}
    (h : ∀ form ∈ forms, form.find? entries = form.find? entries') :
    rewriteRecord forms (.record entries) = rewriteRecord forms (.record entries') := by
  have hwritten : written? forms entries = written? forms entries' := by
    rw [written?, written?]
    induction forms with
    | nil => rfl
    | cons form forms ih =>
      rw [List.forall_mem_cons] at h
      rw [List.mapM_cons, List.mapM_cons, ih h.2, entryIn?, h.1, ← entryIn?]
  rw [rewriteRecord_record, rewriteRecord_record, hwritten]

theorem rewriteRecord_filter (forms : List FieldForm) (entries : List (String × Value)) :
    rewriteRecord forms (.record (entries.filter fun entry => entry.1 ∈ forms.map FieldForm.name)) =
      rewriteRecord forms (.record entries) := by
  apply rewriteRecord_congr
  intro form hform
  have hnamed : Value.entriesNamed
      (entries.filter fun entry => entry.1 ∈ forms.map FieldForm.name) form.name =
        Value.entriesNamed entries form.name := by
    rw [Value.entriesNamed, Value.entriesNamed, List.filter_filter]
    congr 1
    apply List.filter_congr
    intro entry _
    by_cases hname : entry.1 = form.name
    · simp only [hname, List.mem_map_of_mem hform, decide_true, Bool.and_self]
    · simp only [hname, decide_false, Bool.false_and]
  rw [find?, find?, Value.optionalField?, Value.optionalField?, Value.field?, Value.field?, hnamed]

theorem rewriteRecord_null {forms : List FieldForm} {entries : List (String × Value)} {name : String}
    (hname : Value.entriesNamed entries name = [])
    (hforms : ∀ form ∈ forms, form.name = name → form.optional = true) :
    rewriteRecord forms (.record ((name, .null) :: entries)) =
      rewriteRecord forms (.record entries) := by
  apply rewriteRecord_congr
  intro form hform
  rw [find?, find?, Value.optionalField?, Value.optionalField?, Value.field?, Value.field?,
    Value.entriesNamed_cons]
  by_cases h : name = form.name
  · subst h
    rw [if_pos rfl, hname, hforms form hform rfl]
    rfl
  · rw [if_neg h]

section

variable {α : Type} [Serial α] (name : String) (forms : List FieldForm)
  (entries : List (String × Value))

variable {β : Type} (next : List (String × Value) → Option β)

theorem written?_cons_bind (form : FieldForm) :
    written? (form :: forms) entries >>= next =
      form.entryIn? entries >>= fun entry =>
        written? forms entries >>= fun written => next (entry :: written) := by
  simp only [written?, List.mapM_cons, bind_assoc, pure_bind]

theorem written?_required_bind :
    written? (required α name :: forms) entries >>= next =
      readField entries name >>= fun a : α =>
        written? forms entries >>= fun written => next ((name, toValue a) :: written) := by
  have hentry : (required α name).entryIn? entries =
      (readField entries name).map fun a : α => (name, toValue a) := by
    change ((Value.field? entries name).bind (rewrite α)).map (Prod.mk name) = _
    rw [readField]
    cases Value.field? entries name with
    | none => rfl
    | some value => simp [rewrite, Function.comp_def]
  rw [written?_cons_bind, hentry]
  exact Option.bind_map ..

theorem written?_option_bind :
    written? (option α name :: forms) entries >>= next =
      readOptional entries name >>= fun o : Option α =>
        written? forms entries >>= fun written => next ((name, optionValue o) :: written) := by
  have hentry : (option α name).entryIn? entries =
      (readOptional entries name).map fun o : Option α => (name, optionValue o) := by
    change ((Value.optionalField? entries name).bind (rewriteOption α)).map (Prod.mk name) = _
    rw [readOptional_eq]
    cases Value.optionalField? entries name with
    | none => rfl
    | some value =>
      cases value <;>
        simp [rewriteOption, rewrite, ofOption?, optionValue, Function.comp_def]
  rw [written?_cons_bind, hentry]
  exact Option.bind_map ..

theorem record?_bind :
    (Value.record entries).record? >>= next = next entries := rfl

theorem written?_nil_bind : written? [] entries >>= next = next [] := rfl

end

theorem rewriteTagged_record (forms : List (String × (Value → Option Value))) (tag : String)
    (content : Value) :
    rewriteTagged forms (.record [(tag, content)]) =
      (forms.lookup tag).bind fun rewrite =>
        (fun form => Value.record [(tag, form)]) <$> rewrite content := by
  rw [rewriteTagged]
  cases forms.lookup tag with
  | none => rfl
  | some rewrite => cases hcontent : rewrite content <;> simp [hcontent]

theorem map_alternative {α γ : Type} [Serial α] (make : α → γ) {write : γ → Value} {tag : String}
    (h : ∀ a, write (make a) = .record [(tag, toValue a)]) (content : Value) :
    write <$> make <$> ofValue? content =
      (fun form => Value.record [(tag, form)]) <$> rewrite α content := by
  rw [rewrite]
  cases (ofValue? content : Option α) with
  | none => rfl
  | some a => exact congrArg some (h a)

/-- What refuses all but records with one entry is told by these. -/
theorem eq_rewriteTagged {f : Value → Option Value} {forms : List (String × (Value → Option Value))}
    (hother : ∀ value, (∀ tag content, value = .record [(tag, content)] → False) → f value = none)
    (htagged : ∀ tag content, f (.record [(tag, content)]) =
      rewriteTagged forms (.record [(tag, content)])) (value : Value) :
    f value = rewriteTagged forms value := by
  unfold rewriteTagged
  split
  · exact htagged ..
  · exact hother _ ‹_›

end FieldForm

open FieldForm

theorem Serial.rewrite_list {α : Type} [Serial α] (value : Value) :
    rewrite (List α) value = value.list?.bind fun items => (items.mapM (rewrite α)).map .list := by
  cases value with
  | list items =>
    change (items.mapM ofValue? : Option (List α)).map (fun read => Value.list (read.map toValue)) =
      (items.mapM (rewrite α)).map Value.list
    have hitems : items.mapM (rewrite α) =
        (items.mapM ofValue? : Option (List α)).map (List.map toValue) := by
      induction items with
      | nil => rfl
      | cons item items ih =>
        rw [List.mapM_cons, List.mapM_cons, ih, rewrite]
        cases (ofValue? item : Option α) with
        | none => rfl
        | some a => cases (items.mapM ofValue? : Option (List α)) <;> rfl
    rw [hitems, Option.map_map]
    rfl
  | _ => rfl

def Dims.forms : List (String × (Value → Option Value)) :=
  [("Vector", rewrite UInt8),
    ("Matrix", rewriteRecord [required UInt8 "columns", required UInt8 "rows"])]

def Shape.forms : List FieldForm :=
  [required Scalar "base", required Dims "dims", required UInt32 "array_size",
    required Bool "row_major"]

def MemberInfo.forms : List FieldForm :=
  [required Int32 "offset", required Int32 "array_stride", required Int32 "matrix_stride",
    required Bool "is_row_major_matrix"]

def Limits.forms : List FieldForm :=
  ["reserved_vertex_uniform_vectors", "max_vertex_uniform_vectors",
    "reserved_fragment_uniform_vectors", "max_fragment_uniform_vectors",
    "reserved_vertex_uniform_blocks", "max_vertex_uniform_blocks",
    "reserved_fragment_uniform_blocks", "max_fragment_uniform_blocks",
    "max_vertex_samplers", "max_fragment_samplers"].map (required UInt32)

def Kind.forms : List (String × (Value → Option Value)) :=
  [("Basic", rewrite DataType), ("Struct", rewrite (List Variable))]

def Variable.forms : List FieldForm :=
  [required String "name", required Kind "kind", required UInt32 "array_size",
    required Bool "is_row_major_layout", required Bool "static_use"]

def BlockDeclaration.forms : List FieldForm :=
  [required String "name", required UInt32 "array_size", required BlockLayout "layout",
    required Bool "is_row_major_layout", required Bool "static_use",
    required (List Variable) "fields"]

def UniformEntry.forms : List FieldForm :=
  [required String "name", required DataType "gl_type", required UInt32 "array_size",
    option UInt32 "block_index", required MemberInfo "block_info",
    option UInt32 "vs_register_index", option UInt32 "ps_register_index",
    required UInt32 "register_element", required UInt32 "register_count"]

def BlockEntry.forms : List FieldForm :=
  [required String "name", option UInt32 "element_index", required UInt64 "data_size",
    required (List Nat) "member_uniform_indexes", option UInt32 "vs_register_index",
    option UInt32 "ps_register_index"]

theorem Variable.decl_ofKind (decl : Declarator) (kind : Kind) : (ofKind decl kind).decl = decl := by
  cases kind <;> rfl

theorem Variable.kind_ofKind (decl : Declarator) (kind : Kind) : (ofKind decl kind).kind = kind := by
  cases kind <;> rfl

namespace Serial

theorem rewrite_dims (value : Value) : rewrite Dims value = rewriteTagged Dims.forms value := by
  apply eq_rewriteTagged
  · intro value hvalue
    change (Dims.ofValue? value).map _ = _
    unfold Dims.ofValue?
    split
    · exact (hvalue _ _ rfl).elim
    · exact (hvalue _ _ rfl).elim
    · rfl
  · intro tag content
    rw [rewriteTagged_record]
    by_cases hvector : tag = "Vector"
    · subst hvector
      exact map_alternative Dims.vector (fun _ => rfl) content
    by_cases hmatrix : tag = "Matrix"
    · subst hmatrix
      change Dims.toValue <$> Dims.ofValue? (.record [("Matrix", content)]) =
        (fun form => Value.record [("Matrix", form)]) <$>
          rewriteRecord [required UInt8 "columns", required UInt8 "rows"] content
      cases content with
      | record entries =>
        simp only [Dims.ofValue?, Dims.toValue, rewriteRecord_record, record?_bind,
          written?_required_bind, written?_nil_bind, map_bind, map_pure]
      | _ => rfl
    · have hnone : Dims.ofValue? (.record [(tag, content)]) = none := by
        unfold Dims.ofValue?
        split <;> simp_all
      have hlookup : Dims.forms.lookup tag = none := by
        simp [List.lookup_eq_none_iff, Dims.forms, hvector, hmatrix]
      change (Dims.ofValue? _).map _ = _
      rw [hnone, hlookup]
      rfl

theorem rewrite_kind (value : Value) : rewrite Kind value = rewriteTagged Kind.forms value := by
  apply eq_rewriteTagged
  · intro value hvalue
    change (Variable.kind? value).map _ = _
    rw [Variable.kind?]
    · rfl
    · exact hvalue
  · intro tag content
    rw [rewriteTagged_record]
    change (Variable.kind? (.record [(tag, content)])).map toValue = _
    rw [Variable.kind?, Variable.fields?_eq]
    by_cases hbasic : tag = "Basic"
    · subst hbasic
      rw [if_pos rfl]
      exact map_alternative Kind.basic (fun _ => rfl) content
    by_cases hstruct : tag = "Struct"
    · subst hstruct
      rw [if_neg hbasic, if_pos rfl]
      exact map_alternative Kind.struct (fun _ => rfl) content
    · have hlookup : Kind.forms.lookup tag = none := by
        simp [List.lookup_eq_none_iff, Kind.forms, hbasic, hstruct]
      rw [if_neg hbasic, if_neg hstruct, hlookup]
      rfl

theorem rewrite_shape (value : Value) : rewrite Shape value = rewriteRecord Shape.forms value := by
  cases value with
  | record entries =>
    unfold rewrite Serial.ofValue? toValue instSerialShape
    simp only [record?_bind, rewriteRecord_record, Shape.forms, written?_required_bind,
      written?_nil_bind, map_bind, map_pure]
  | _ => rfl

theorem rewrite_memberInfo (value : Value) :
    rewrite MemberInfo value = rewriteRecord MemberInfo.forms value := by
  cases value with
  | record entries =>
    unfold rewrite Serial.ofValue? toValue instSerialMemberInfo
    simp only [record?_bind, rewriteRecord_record, MemberInfo.forms, written?_required_bind,
      written?_nil_bind, map_bind, map_pure]
  | _ => rfl

theorem rewrite_uniformEntry (value : Value) :
    rewrite UniformEntry value = rewriteRecord UniformEntry.forms value := by
  cases value with
  | record entries =>
    unfold rewrite Serial.ofValue? toValue instSerialUniformEntry
    simp only [record?_bind, rewriteRecord_record, UniformEntry.forms, written?_required_bind,
      written?_option_bind, written?_nil_bind, map_bind, map_pure]
  | _ => rfl

theorem rewrite_blockEntry (value : Value) :
    rewrite BlockEntry value = rewriteRecord BlockEntry.forms value := by
  cases value with
  | record entries =>
    unfold rewrite Serial.ofValue? toValue instSerialBlockEntry
    simp only [record?_bind, rewriteRecord_record, BlockEntry.forms, written?_required_bind,
      written?_option_bind, written?_nil_bind, map_bind, map_pure]
  | _ => rfl

-- The data of the next three is not read in the order in which it is written. What comes too early on one
-- side is told apart first, until the two sides go on alike.

theorem rewrite_limits (value : Value) : rewrite Limits value = rewriteRecord Limits.forms value := by
  cases value with
  | record entries =>
    unfold rewrite Serial.ofValue? toValue instSerialLimits
    simp only [record?_bind, rewriteRecord_record, Limits.forms, List.map_cons, List.map_nil,
      written?_required_bind, written?_nil_bind, map_bind, map_pure]
    cases (readField entries "reserved_vertex_uniform_vectors" : Option UInt32)
    · rfl
    cases (readField entries "max_vertex_uniform_vectors" : Option UInt32)
    · rfl
    cases (readField entries "reserved_fragment_uniform_vectors" : Option UInt32)
    · simp
    cases (readField entries "max_fragment_uniform_vectors" : Option UInt32)
    · simp
    cases (readField entries "reserved_vertex_uniform_blocks" : Option UInt32)
    · rfl
    cases (readField entries "max_vertex_uniform_blocks" : Option UInt32)
    · rfl
    cases (readField entries "reserved_fragment_uniform_blocks" : Option UInt32)
    · simp
    cases (readField entries "max_fragment_uniform_blocks" : Option UInt32)
    · simp
    rfl
  | _ => rfl

theorem rewrite_variable (value : Value) :
    rewrite Variable value = rewriteRecord Variable.forms value := by
  cases value with
  | record entries =>
    rw [rewrite, Variable.ofValue?_record]
    simp only [rewriteRecord_record, Variable.forms, Variable.declarator?, Variable.toValue_eq,
      Variable.toValue.record, Variable.decl_ofKind, Variable.kind_ofKind, written?_required_bind,
      written?_nil_bind, map_bind, map_pure, bind_assoc, pure_bind]
    cases (readField entries "name" : Option String)
    · rfl
    cases (readField entries "kind" : Option Kind)
    · simp
    rfl
  | _ => rfl

theorem rewrite_blockDeclaration (value : Value) :
    rewrite BlockDeclaration value = rewriteRecord BlockDeclaration.forms value := by
  cases value with
  | record entries =>
    unfold rewrite Serial.ofValue? toValue instSerialBlockDeclaration
    simp only [record?_bind, rewriteRecord_record, BlockDeclaration.forms, Variable.declarator?,
      written?_required_bind, written?_nil_bind, map_bind, map_pure, bind_assoc, pure_bind]
    cases (readField entries "name" : Option String)
    · rfl
    cases (readField entries "array_size" : Option UInt32)
    · rfl
    cases (readField entries "layout" : Option BlockLayout)
    · simp
    rfl
  | _ => rfl

end Serial

/-- Every type of data goes to values and back. Blocks are meant with members in 64 bits, and no
others are read. -/
theorem serial_roundTrips :
    (RoundTrips Scalar ∧ RoundTrips DataType ∧ RoundTrips Output ∧ RoundTrips Stage ∧
      RoundTrips BlockLayout ∧ RoundTrips Packing ∧ RoundTrips Dims ∧ RoundTrips Shape ∧
      RoundTrips MemberInfo ∧ RoundTrips Limits ∧ RoundTrips Kind ∧ RoundTrips Variable ∧
      RoundTrips BlockDeclaration ∧ RoundTrips UniformEntry ∧ RoundTripsOn BlockEntry.MembersFit) ∧
    (IsExact String ∧ IsExact Bool ∧ IsExact UInt8 ∧ IsExact UInt32 ∧ IsExact UInt64 ∧
      IsExact Int32 ∧ IsExact Nat ∧ IsExact Scalar ∧ IsExact DataType ∧ IsExact Output ∧
      IsExact Stage ∧ IsExact BlockLayout ∧ IsExact Packing) ∧
    (∀ value : Value,
      rewrite Dims value = rewriteTagged Dims.forms value ∧
      rewrite Kind value = rewriteTagged Kind.forms value ∧
      rewrite (List Variable) value =
        value.list?.bind (fun items => (items.mapM (rewrite Variable)).map .list) ∧
      rewrite (List Nat) value =
        value.list?.bind (fun items => (items.mapM (rewrite Nat)).map .list) ∧
      rewrite Shape value = rewriteRecord Shape.forms value ∧
      rewrite MemberInfo value = rewriteRecord MemberInfo.forms value ∧
      rewrite Limits value = rewriteRecord Limits.forms value ∧
      rewrite Variable value = rewriteRecord Variable.forms value ∧
      rewrite BlockDeclaration value = rewriteRecord BlockDeclaration.forms value ∧
      rewrite UniformEntry value = rewriteRecord UniformEntry.forms value ∧
      rewrite BlockEntry value = rewriteRecord BlockEntry.forms value) ∧
    ∀ (forms : List FieldForm) (entries : List (String × Value)),
      rewriteRecord forms
          (.record (entries.filter fun entry => entry.1 ∈ forms.map FieldForm.name)) =
        rewriteRecord forms (.record entries) ∧
      ∀ name, Value.entriesNamed entries name = [] →
        (∀ form ∈ forms, form.name = name → form.optional = true) →
        rewriteRecord forms (.record ((name, .null) :: entries)) =
          rewriteRecord forms (.record entries) := by
  refine ⟨?_, ?_, ?_, ?_⟩
  · have hblock : RoundTripsOn BlockEntry.MembersFit :=
      roundTripsOn_of_reads (fun _ => BlockEntry.ofValue?_toValue) fun _ _ =>
        BlockEntry.membersFit_of_read
    exact ⟨LawfulSerial.roundTrips _, LawfulSerial.roundTrips _, LawfulSerial.roundTrips _,
      LawfulSerial.roundTrips _, LawfulSerial.roundTrips _, LawfulSerial.roundTrips _,
      LawfulSerial.roundTrips _, LawfulSerial.roundTrips _, LawfulSerial.roundTrips _,
      LawfulSerial.roundTrips _, LawfulSerial.roundTrips _, LawfulSerial.roundTrips _,
      LawfulSerial.roundTrips _, LawfulSerial.roundTrips _, hblock⟩
  · exact ⟨isExact_string, isExact_bool, isExact_uint8, isExact_uint32, isExact_uint64, isExact_int32,
      isExact_nat, fun _ _ => Value.text_of_bind_ofTag?, fun _ _ => Value.text_of_bind_ofTag?,
      fun _ _ => Value.text_of_bind_ofTag?, fun _ _ => Value.text_of_bind_ofTag?,
      fun _ _ => Value.text_of_bind_ofTag?, fun _ _ => Value.text_of_bind_ofTag?⟩
  · intro value
    exact ⟨rewrite_dims value, rewrite_kind value, rewrite_list value, rewrite_list value,
      rewrite_shape value, rewrite_memberInfo value, rewrite_limits value, rewrite_variable value,
      rewrite_blockDeclaration value, rewrite_uniformEntry value, rewrite_blockEntry value⟩
  · intro forms entries
    exact ⟨rewriteRecord_filter forms entries, fun _ hname hforms => rewriteRecord_null hname hforms⟩

def sparseUniform : Value :=
  .record
    [("precision", .text "highp"), ("register_count", .int 1), ("name", .text "exposure"),
      ("gl_type", .text "Float"), ("array_size", .int 0),
      ("block_info", .record
        [("offset", .int (-1)), ("array_stride", .int (-1)), ("matrix_stride", .int (-1)),
          ("is_row_major_matrix", .bool false)]),
      ("register_element", .int 3), ("ps_register_index", .int 7)]

def fullUniform : Value :=
  .record
    [("name", .text "exposure"), ("gl_type", .text "Float"), ("array_size", .int 0),
      ("block_index", .null),
      ("block_info", .record
        [("offset", .int (-1)), ("array_stride", .int (-1)), ("matrix_stride", .int (-1)),
          ("is_row_major_matrix", .bool false)]),
      ("vs_register_index", .null), ("ps_register_index", .int 7), ("register_element", .int 3),
      ("register_count", .int 1)]

def lastMemberBlock : BlockEntry := ⟨"lights", some 3, 64, [18446744073709551615], ⟨none, some 2⟩⟩

theorem serial_roundTrips_sparse :
    rewrite UniformEntry sparseUniform = some fullUniform ∧
      rewrite UniformEntry fullUniform = some fullUniform ∧
      ofValue? (toValue lastMemberBlock) = some lastMemberBlock := by
  obtain ⟨⟨-, -, -, -, -, -, -, -, -, -, -, -, -, huniform, hblock⟩, -⟩ := serial_roundTrips
  have hread : ofValue? sparseUniform =
      some (UniformEntry.mk "exposure" (.vector .float .one) 0 none .unassigned ⟨none, some 7⟩ 3 1) := by
    decide +kernel
  have hsparse : rewrite UniformEntry sparseUniform = some fullUniform := by
    rw [rewrite, hread]
    rfl
  have hfits : lastMemberBlock.MembersFit := by
    unfold BlockEntry.MembersFit
    decide
  exact ⟨hsparse, huniform.rewrite_fixed _ _ hsparse, hblock.read_written _ hfits⟩

end ShaderInterface
