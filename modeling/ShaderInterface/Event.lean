import ShaderInterface.Layout.MemberInfo
import ShaderInterface.Serial.Tag
import ShaderInterface.Serial.Value

namespace ShaderInterface

inductive Level where
  | trace
  | debug
  | warn
  deriving DecidableEq, Repr

/-- A step of laying out, allocating or linking. -/
inductive Event where
  /-- A distance had no byte offset and was cut off. -/
  | clamped (components : Nat)
  | encodedMember (placement : Placement)
  | assignedUniform (name : String) (register count : UInt32) (isSampler : Bool)
  | assignedBlock (name : String) (register : UInt32)
  | definedUniform (name : String) (stage : Stage) (register element : UInt32)
  | definedBlock (name : String) (layout : BlockLayout) (size memberCount : Nat)
  deriving DecidableEq, Repr

def Dims.describe : Dims → String
  | vector width => "Vector(" ++ toString width.toNat ++ ")"
  | matrix columns rows =>
    "Matrix \x7b columns: " ++ toString columns.toNat ++ ", rows: " ++ toString rows.toNat ++ " \x7d"

def Shape.describe (shape : Shape) : String :=
  "TypeShape \x7b base: " ++ shape.base.tag ++ ", dims: " ++ shape.dims.describe ++
    ", array_size: " ++ toString shape.arraySize.toNat ++
    ", row_major: " ++ (if shape.rowMajor then "true" else "false") ++ " \x7d"

namespace Event

def level : Event → Level
  | clamped _ => .warn
  | encodedMember _ => .trace
  | assignedUniform _ _ _ _ | assignedBlock _ _ | definedUniform _ _ _ _ | definedBlock _ _ _ _ => .debug

def message : Event → String
  | clamped _ => "block offset does not fit in i32; clamping"
  | encodedMember _ => "encoded block member"
  | assignedUniform _ _ _ _ => "assigned uniform register"
  | assignedBlock _ _ => "assigned uniform block register"
  | definedUniform _ _ _ _ => "defined uniform"
  | definedBlock _ _ _ _ => "defined uniform block"

def details : Event → List (String × Value)
  | clamped components => [("components", .nat components)]
  | encodedMember placement =>
    [("shape", .text placement.shape.describe),
      ("offset", .int placement.info.offset.toInt),
      ("array_stride", .int placement.info.arrayStride.toInt),
      ("matrix_stride", .int placement.info.matrixStride.toInt),
      ("end", .nat (Position.bytes placement.finish))]
  | assignedUniform name register count isSampler =>
    [("name", .text name), ("register", .nat register.toNat),
      ("register_count", .nat count.toNat), ("is_sampler", .bool isSampler)]
  | assignedBlock name register => [("name", .text name), ("register", .nat register.toNat)]
  | definedUniform name stage register element =>
    [("name", .text name), ("stage", .text stage.tag), ("register", .nat register.toNat),
      ("register_element", .nat element.toNat)]
  | definedBlock name layout size memberCount =>
    [("name", .text name), ("layout", .text layout.tag), ("data_size", .nat size),
      ("members", .nat memberCount)]

end Event

/-- A result with the log of how it came about. -/
@[ext] structure Logged (α : Type) where
  value : α
  events : List Event

def clampEvents (components : Nat) : List Event :=
  if components * componentBytes ≤ maxOffset then [] else [.clamped components]

/-- The log of placing a block member: a warning for each part of its description that was cut off,
then the member. -/
def Placement.events (placement : Placement) : List Event :=
  clampEvents placement.start ++ clampEvents placement.shape.strides.array ++
    clampEvents placement.shape.strides.matrix ++ [.encodedMember placement]

end ShaderInterface
