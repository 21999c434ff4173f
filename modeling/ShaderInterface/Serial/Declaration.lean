import ShaderInterface.Serial.Basic

namespace ShaderInterface

namespace Variable

mutual

def toValue : Variable → Value
  | basic decl type => record decl (.record [("Basic", ShaderInterface.toValue type)])
  | struct decl fields => record decl (.record [("Struct", .list (fieldValues fields))])
where
  record (decl : Declarator) (kind : Value) : Value :=
    .record
      [("name", ShaderInterface.toValue decl.name), ("kind", kind),
        ("array_size", ShaderInterface.toValue decl.arraySize),
        ("is_row_major_layout", ShaderInterface.toValue decl.rowMajor),
        ("static_use", ShaderInterface.toValue decl.staticUse)]

def fieldValues : List Variable → List Value
  | [] => []
  | f :: fs => toValue f :: fieldValues fs

end

/-- Reads what a record says about a variable beside its type. -/
def declarator? (entries : List (String × Value)) : Option Declarator :=
  return ⟨← readField entries "name", ← readField entries "array_size",
    ← readField entries "is_row_major_layout", ← readField entries "static_use"⟩

mutual

def ofValue? : Value → Option Variable
  | .record entries => do
    let decl ← declarator? entries
    let kind ← kindIn? entries
    return ofKind decl kind
  | _ => none

/-- Reads the type among the entries of a record, where it has to stand once. -/
def kindIn? : List (String × Value) → Option Kind
  | [] => none
  | (name, value) :: entries =>
    if name = "kind" then
      if (Value.entriesNamed entries "kind").isEmpty then kind? value else none
    else
      kindIn? entries

def kind? : Value → Option Kind
  | .record [(name, value)] =>
    if name = "Basic" then Kind.basic <$> Serial.ofValue? value
    else if name = "Struct" then Kind.struct <$> fields? value
    else none
  | _ => none

def fields? : Value → Option (List Variable)
  | .list items => all? items
  | _ => none

def all? : List Value → Option (List Variable)
  | [] => some []
  | item :: items => do
    let f ← ofValue? item
    let fs ← all? items
    return f :: fs

end

end Variable

instance : Serial Variable := ⟨Variable.toValue, Variable.ofValue?⟩

instance : Serial Kind where
  toValue
    | .basic type => .record [("Basic", toValue type)]
    | .struct fields => .record [("Struct", toValue fields)]
  ofValue? := Variable.kind?

instance : Serial BlockDeclaration where
  toValue block := .record
    [("name", toValue block.decl.name), ("array_size", toValue block.decl.arraySize),
      ("layout", toValue block.layout), ("is_row_major_layout", toValue block.decl.rowMajor),
      ("static_use", toValue block.decl.staticUse), ("fields", toValue block.fields)]
  ofValue? value := do
    let entries ← value.record?
    let decl ← Variable.declarator? entries
    return ⟨decl, ← readField entries "layout", ← readField entries "fields"⟩

end ShaderInterface
