import ShaderInterface.Serial.Tag
import ShaderInterface.Serial.Value
import ShaderInterface.Layout.MemberInfo
import ShaderInterface.Register.Limits

namespace ShaderInterface

/-- Data that can be written as a value and read back. -/
class Serial (α : Type) where
  toValue : α → Value
  ofValue? : Value → Option α

export Serial (toValue)

def readField {α : Type} [Serial α] (entries : List (String × Value)) (name : String) : Option α :=
  (Value.field? entries name).bind Serial.ofValue?

def readOptional {α : Type} [Serial α] (entries : List (String × Value)) (name : String) :
    Option (Option α) := do
  match ← Value.optionalField? entries name with
  | .null => return none
  | value => return some (← Serial.ofValue? value)

def optionValue {α : Type} [Serial α] : Option α → Value
  | none => .null
  | some a => toValue a

instance : Serial String where
  toValue := .text
  ofValue? := Value.text?

instance : Serial Bool where
  toValue := .bool
  ofValue? := Value.bool?

instance : Serial UInt8 where
  toValue w := .nat w.toNat
  ofValue? value := UInt8.ofNat <$> value.natBelow? UInt8.size

instance : Serial UInt32 where
  toValue w := .nat w.toNat
  ofValue? value := UInt32.ofNat <$> value.natBelow? UInt32.size

instance : Serial UInt64 where
  toValue w := .nat w.toNat
  ofValue? value := UInt64.ofNat <$> value.natBelow? UInt64.size

instance : Serial Int32 where
  toValue w := .int w.toInt
  ofValue? value := do
    let n ← value.int?
    if -0x80000000 ≤ n ∧ n ≤ 0x7FFFFFFF then some (Int32.ofInt n) else none

/-- Positions in a table are written in 64 bits. -/
instance : Serial Nat where
  toValue := .nat
  ofValue? := Value.natBelow? UInt64.size

instance {α : Type} [Serial α] : Serial (List α) where
  toValue items := .list (items.map toValue)
  ofValue? value := do (← value.list?).mapM Serial.ofValue?

instance : Serial Scalar where
  toValue kind := .text kind.tag
  ofValue? value := value.text?.bind Scalar.ofTag?

instance : Serial DataType where
  toValue type := .text type.tag
  ofValue? value := value.text?.bind DataType.ofTag?

instance : Serial Output where
  toValue output := .text output.tag
  ofValue? value := value.text?.bind Output.ofTag?

instance : Serial Stage where
  toValue stage := .text stage.tag
  ofValue? value := value.text?.bind Stage.ofTag?

instance : Serial BlockLayout where
  toValue layout := .text layout.tag
  ofValue? value := value.text?.bind BlockLayout.ofTag?

instance : Serial Packing where
  toValue packing := .text packing.tag
  ofValue? value := value.text?.bind Packing.ofTag?

namespace Dims

def toValue : Dims → Value
  | vector width => .record [("Vector", ShaderInterface.toValue width)]
  | matrix columns rows =>
    .record [("Matrix", .record
      [("columns", ShaderInterface.toValue columns), ("rows", ShaderInterface.toValue rows)])]

def ofValue? : Value → Option Dims
  | .record [("Vector", width)] => vector <$> Serial.ofValue? width
  | .record [("Matrix", sides)] => do
    let entries ← sides.record?
    return matrix (← readField entries "columns") (← readField entries "rows")
  | _ => none

end Dims

instance : Serial Dims := ⟨Dims.toValue, Dims.ofValue?⟩

instance : Serial Shape where
  toValue shape := .record
    [("base", toValue shape.base), ("dims", toValue shape.dims),
      ("array_size", toValue shape.arraySize), ("row_major", toValue shape.rowMajor)]
  ofValue? value := do
    let entries ← value.record?
    return ⟨← readField entries "base", ← readField entries "dims",
      ← readField entries "array_size", ← readField entries "row_major"⟩

instance : Serial MemberInfo where
  toValue info := .record
    [("offset", toValue info.offset), ("array_stride", toValue info.arrayStride),
      ("matrix_stride", toValue info.matrixStride),
      ("is_row_major_matrix", toValue info.rowMajorMatrix)]
  ofValue? value := do
    let entries ← value.record?
    return ⟨← readField entries "offset", ← readField entries "array_stride",
      ← readField entries "matrix_stride", ← readField entries "is_row_major_matrix"⟩

instance : Serial Limits where
  toValue limits := .record
    [("reserved_vertex_uniform_vectors", toValue limits.vertex.reservedVectors),
      ("max_vertex_uniform_vectors", toValue limits.vertex.maxVectors),
      ("reserved_fragment_uniform_vectors", toValue limits.fragment.reservedVectors),
      ("max_fragment_uniform_vectors", toValue limits.fragment.maxVectors),
      ("reserved_vertex_uniform_blocks", toValue limits.vertex.reservedBlocks),
      ("max_vertex_uniform_blocks", toValue limits.vertex.maxBlocks),
      ("reserved_fragment_uniform_blocks", toValue limits.fragment.reservedBlocks),
      ("max_fragment_uniform_blocks", toValue limits.fragment.maxBlocks),
      ("max_vertex_samplers", toValue limits.vertex.maxSamplers),
      ("max_fragment_samplers", toValue limits.fragment.maxSamplers)]
  ofValue? value := do
    let entries ← value.record?
    let vertex : StageLimits :=
      ⟨← readField entries "reserved_vertex_uniform_vectors",
        ← readField entries "max_vertex_uniform_vectors",
        ← readField entries "reserved_vertex_uniform_blocks",
        ← readField entries "max_vertex_uniform_blocks",
        ← readField entries "max_vertex_samplers"⟩
    let fragment : StageLimits :=
      ⟨← readField entries "reserved_fragment_uniform_vectors",
        ← readField entries "max_fragment_uniform_vectors",
        ← readField entries "reserved_fragment_uniform_blocks",
        ← readField entries "max_fragment_uniform_blocks",
        ← readField entries "max_fragment_samplers"⟩
    return ⟨vertex, fragment⟩

end ShaderInterface
