import ShaderInterface.Layout.Position
import ShaderInterface.Variable

namespace ShaderInterface

/-- The distance between two elements of an array, and between two register vectors of a matrix, in
components. Zero where there are no two. -/
@[ext] structure Strides where
  array : Nat
  matrix : Nat
  deriving DecidableEq, Repr

def Strides.none : Strides := ⟨0, 0⟩

/-- The strides of a shape. Every element of an array and every register vector of a matrix starts a
register, under all rules alike. -/
def Shape.strides (shape : Shape) : Strides :=
  match shape.isMatrix, shape.isArray with
  | true, true => ⟨registerWidth * shape.vectorCount, registerWidth⟩
  | true, false => ⟨0, registerWidth⟩
  | false, true => ⟨registerWidth, 0⟩
  | false, false => .none

/-- The alignment of a shape in a standard block. A vector of three is aligned like one of four. -/
def Shape.baseAlignment (shape : Shape) : Nat :=
  if shape.isCompound then registerWidth
  else if shape.componentCount = 3 then 4
  else shape.componentCount

/-- How values share registers: side by side where they fit, or each in registers of its own. -/
inductive Packing where
  | packed
  | loose
  deriving DecidableEq, Repr

def Output.packing : Output → Except Fault Packing
  | .hlsl9 => .ok .loose
  | .hlsl11 => .ok .packed
  | output => .error (.noPacking output)

/-- How values follow one another: as a standard block asks, or as registers are packed. -/
inductive Rule where
  | std140
  | hlsl (packing : Packing)
  deriving DecidableEq, Repr

/-- Blocks without the standard layout are packed into registers. -/
def BlockLayout.rule : BlockLayout → Rule
  | .standard => .std140
  | .packed | .shared => .hlsl .packed

namespace Rule

open Position

/-- Where a value of this shape starts, at or after a position. A packed vector moves to the next
register only if it would cross into it. -/
def start (rule : Rule) (shape : Shape) (position : Nat) : Except Fault Nat :=
  match rule with
  | std140 => alignTo position shape.baseAlignment
  | hlsl .loose => nextRegister position
  | hlsl .packed =>
    if shape.isCompound ∨ registerWidth < shape.componentCount + element position then
      nextRegister position
    else
      .ok position

def checkMatrixStride (strides : Strides) : Except Fault Unit :=
  if strides.matrix = registerWidth then .ok ()
  else .error (.strideMismatch strides.matrix registerWidth)

/-- Where a value that starts at a position ends in a standard block. An array takes its stride for
every element, the last one included. -/
def finishStd140 (shape : Shape) (strides : Strides) (position : Nat) : Except Fault Nat :=
  if shape.isArray then do
    let size ← product strides.array shape.arraySize.toNat
    return advance position size
  else if shape.isMatrix then do
    checkMatrixStride strides
    return advance position (registerWidth * shape.vectorCount)
  else
    return advance position shape.componentCount

def lastElement (shape : Shape) (strides : Strides) (position : Nat) : Except Fault Nat :=
  if shape.isArray then do
    let size ← product strides.array (shape.arraySize.toNat - 1)
    return advance position size
  else
    return position

/-- Where a single element that starts at a position ends in registers. The last register vector is
left as soon as its components end, except that a loose vector keeps its register. -/
def finishElement (packing : Packing) (shape : Shape) (strides : Strides) (position : Nat) :
    Except Fault Nat :=
  if shape.isMatrix then do
    checkMatrixStride strides
    if shape.vectorCount = 0 then .error .subtractOverflow
    else return advance position (registerWidth * (shape.vectorCount - 1) + shape.vectorWidth)
  else
    match packing with
    | .packed => return advance position shape.componentCount
    | .loose => return advance position registerWidth

/-- Where a value that starts at a position ends in registers. Only the last element of an array may
end inside a register. -/
def finishHlsl (packing : Packing) (shape : Shape) (strides : Strides) (position : Nat) :
    Except Fault Nat := do
  let last ← lastElement shape strides position
  finishElement packing shape strides last

def finish : Rule → Shape → Strides → Nat → Except Fault Nat
  | std140 => finishStd140
  | hlsl packing => finishHlsl packing

/-- A struct element starts a register. -/
def enter (_ : Rule) (position : Nat) : Except Fault Nat := nextRegister position

/-- What follows a struct element starts a register in a standard block only. -/
def exit : Rule → Nat → Except Fault Nat
  | std140, position => nextRegister position
  | hlsl _, position => .ok position

def skipRegisters (position : Nat) (registers : UInt32) : Nat :=
  advance position (registers.toNat * registerWidth)

end Rule

@[ext] structure Placement where
  shape : Shape
  start : Nat
  finish : Nat
  deriving DecidableEq, Repr

namespace Rule

def place (rule : Rule) (shape : Shape) (position : Nat) : Except Fault Placement := do
  let start ← rule.start shape position
  let finish ← rule.finish shape shape.strides start
  return ⟨shape, start, finish⟩

/-- Where the next value may start once one of this shape is placed. -/
def skip (rule : Rule) (shape : Shape) (position : Nat) : Except Fault Nat := do
  let placement ← rule.place shape position
  return placement.finish

theorem shape_of_place {rule : Rule} {shape : Shape} {position : Nat} {placement : Placement}
    (h : rule.place shape position = .ok placement) : placement.shape = shape := by
  obtain ⟨start, -, h⟩ := bind_eq_ok.mp h
  obtain ⟨finish, -, h⟩ := bind_eq_ok.mp h
  cases h
  rfl

end Rule

end ShaderInterface
