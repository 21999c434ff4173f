import ShaderInterface.Fault

namespace ShaderInterface

abbrev componentBytes : Nat := 4

abbrev registerWidth : Nat := 4

abbrev registerBytes : Nat := registerWidth * componentBytes

/-- The bytes that a component of this kind takes: the kinds are all alike in storage. -/
def Scalar.size (_ : Scalar) : Nat := componentBytes

/-- The components of one element: in a row, or in columns and rows. -/
inductive Dims where
  | vector (width : UInt8)
  | matrix (columns rows : UInt8)
  deriving DecidableEq, Repr

/-- Dimensions that a data type can have: vectors up to a register, matrices from two to four. -/
def Dims.WellFormed : Dims → Prop
  | vector width => 1 ≤ width ∧ width ≤ 4
  | matrix columns rows => (2 ≤ columns ∧ columns ≤ 4) ∧ 2 ≤ rows ∧ rows ≤ 4

instance : (dims : Dims) → Decidable dims.WellFormed
  | .vector width => inferInstanceAs (Decidable (1 ≤ width ∧ width ≤ 4))
  | .matrix columns rows =>
    inferInstanceAs (Decidable ((2 ≤ columns ∧ columns ≤ 4) ∧ 2 ≤ rows ∧ rows ≤ 4))

/-- What is stored. An array size of zero stands for a single value, and row majorness says which side
of a matrix its register vectors run along. -/
@[ext] structure Shape where
  base : Scalar
  dims : Dims
  arraySize : UInt32
  rowMajor : Bool
  deriving DecidableEq, Repr

namespace Shape

def vector (base : Scalar) (width : UInt8) : Except Fault Shape :=
  if (Dims.vector width).WellFormed then .ok ⟨base, .vector width, 0, false⟩
  else .error .vectorWidth

def matrix (columns rows : UInt8) : Except Fault Shape :=
  if (Dims.matrix columns rows).WellFormed then .ok ⟨.float, .matrix columns rows, 0, false⟩
  else .error .matrixDimensions

def scalar (base : Scalar) : Shape := ⟨base, .vector 1, 0, false⟩

def isArray (shape : Shape) : Bool := shape.arraySize ≠ 0

def isMatrix (shape : Shape) : Bool :=
  match shape.dims with
  | .vector _ => false
  | .matrix _ _ => true

/-- A matrix or an array: it starts a register under every rule. -/
def isCompound (shape : Shape) : Bool := shape.isMatrix || shape.isArray

def elementCount (shape : Shape) : Nat := max 1 shape.arraySize.toNat

/-- The components of a column: of a vector that is its width, whatever the majorness. -/
def columnHeight (shape : Shape) : Nat :=
  match shape.dims with
  | .vector width => width.toNat
  | .matrix _ rows => rows.toNat

def componentCount (shape : Shape) : Nat :=
  match shape.dims with
  | .vector width => width.toNat
  | .matrix columns rows => columns.toNat * rows.toNat

/-- The register vectors of one element: its columns, or its rows when it is row major. -/
def vectorCount (shape : Shape) : Nat :=
  match shape.dims with
  | .vector _ => 1
  | .matrix columns rows => if shape.rowMajor then rows.toNat else columns.toNat

def vectorWidth (shape : Shape) : Nat :=
  match shape.dims with
  | .vector width => width.toNat
  | .matrix columns rows => if shape.rowMajor then columns.toNat else rows.toNat

/-- The register vectors of a matrix; a vector is not asked for them. -/
def matrixVectorCount (shape : Shape) : Except Fault Nat :=
  if shape.isMatrix then .ok shape.vectorCount else .error .noRegisterVectors

def matrixVectorWidth (shape : Shape) : Except Fault Nat :=
  if shape.isMatrix then .ok shape.vectorWidth else .error .noVectorComponents

def WellFormed (shape : Shape) : Prop := shape.dims.WellFormed

instance (shape : Shape) : Decidable shape.WellFormed :=
  inferInstanceAs (Decidable shape.dims.WellFormed)

theorem elementCount_pos (shape : Shape) : 0 < shape.elementCount := by
  unfold elementCount
  omega

end Shape

namespace DataType

def dims : DataType → Dims
  | vector _ width => .vector (UInt8.ofNat width.toNat)
  | matrix columns rows => .matrix (UInt8.ofNat columns.toNat) (UInt8.ofNat rows.toNat)
  | sampler _ => .vector 1

/-- The storage of an array of this type, or of a single value for array size zero. -/
def shape (type : DataType) (arraySize : UInt32) (rowMajor : Bool) : Shape :=
  ⟨type.scalar, type.dims, arraySize, rowMajor⟩

def matrixVectorCount (type : DataType) (rowMajor : Bool) : Except Fault Nat :=
  if type.isMatrix then .ok (if rowMajor then type.rows else type.columns)
  else .error (.notMatrix type)

def matrixVectorWidth (type : DataType) (rowMajor : Bool) : Except Fault Nat :=
  if type.isMatrix then .ok (if rowMajor then type.columns else type.rows)
  else .error (.notMatrix type)

theorem wellFormed_shape (type : DataType) (arraySize : UInt32) (rowMajor : Bool) :
    (type.shape arraySize rowMajor).WellFormed := by
  rcases type with ⟨kind, width⟩ | ⟨columns, rows⟩ | s
  · cases width <;> exact ⟨by decide, by decide⟩
  · cases columns <;> cases rows <;> exact ⟨⟨by decide, by decide⟩, by decide, by decide⟩
  · exact ⟨by decide, by decide⟩

@[simp] theorem isMatrix_shape (type : DataType) (arraySize : UInt32) (rowMajor : Bool) :
    (type.shape arraySize rowMajor).isMatrix = type.isMatrix := by
  cases type <;> rfl

@[simp] theorem componentCount_shape (type : DataType) (arraySize : UInt32) (rowMajor : Bool) :
    (type.shape arraySize rowMajor).componentCount = type.componentCount := by
  rcases type with ⟨kind, width⟩ | ⟨columns, rows⟩ | s
  · cases width <;> rfl
  · cases columns <;> cases rows <;> rfl
  · rfl

theorem vectorCount_shape (type : DataType) (arraySize : UInt32) (rowMajor : Bool)
    (h : type.isMatrix = true) :
    (type.shape arraySize rowMajor).vectorCount = if rowMajor then type.rows else type.columns := by
  rcases type with ⟨kind, width⟩ | ⟨columns, rows⟩ | s
  · cases h
  · cases columns <;> cases rows <;> cases rowMajor <;> rfl
  · cases h

end DataType

end ShaderInterface
