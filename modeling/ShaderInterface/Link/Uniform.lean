import ShaderInterface.Register.Allocator

namespace ShaderInterface

/-- A leaf of a uniform, or a member of a uniform block. Only the former have registers of their own;
`element` is the component of the register where they start. -/
@[ext] structure UniformEntry where
  name : String
  type : DataType
  arraySize : UInt32
  block : Option UInt32
  info : MemberInfo
  registers : PerStage (Option UInt32)
  element : UInt32
  registerCount : UInt32
  deriving DecidableEq, Repr

namespace UniformEntry

/-- An entry that no stage uses yet. A member of a block is not charged for registers. -/
def unused (name : String) (type : DataType) (arraySize : UInt32) (block : Option UInt32)
    (info : MemberInfo) : UniformEntry where
  name := name
  type := type
  arraySize := arraySize
  block := block
  info := info
  registers := .both none
  element := 0
  registerCount :=
    if block.isNone then clampWord (type.registerCount * max 1 arraySize.toNat) else 0

def isInDefaultBlock (u : UniformEntry) : Bool := u.block.isNone

def isArray (u : UniformEntry) : Bool := u.arraySize ≠ 0

def elementCount (u : UniformEntry) : Nat := max 1 u.arraySize.toNat

def setRegister (u : UniformEntry) (stage : Stage) (register : UInt32) : UniformEntry :=
  { u with registers := u.registers.set stage (some register) }

@[simp] theorem name_setRegister (u : UniformEntry) (stage : Stage) (register : UInt32) :
    (u.setRegister stage register).name = u.name := rfl

@[simp] theorem element_setRegister (u : UniformEntry) (stage : Stage) (register : UInt32) :
    (u.setRegister stage register).element = u.element := rfl

@[simp] theorem registers_setRegister (u : UniformEntry) (stage : Stage) (register : UInt32) :
    (u.setRegister stage register).registers = u.registers.set stage (some register) := rfl

@[simp] theorem setRegister_setRegister (u : UniformEntry) (stage : Stage) (first second : UInt32) :
    (u.setRegister stage first).setRegister stage second = u.setRegister stage second := by
  simp [setRegister]

end UniformEntry

def joinField (scope name : String) : String := scope ++ "." ++ name

def Leaf.uniformName (leaf : Leaf) : String := leaf.path.text joinField

def Leaf.entryAt (leaf : Leaf) (position : Nat) : UniformEntry :=
  { UniformEntry.unused leaf.uniformName leaf.type leaf.decl.arraySize none .unassigned with
    element := UInt32.ofNat (Position.element position) }

/-- The uniforms of a program, in the order in which they were first met. -/
abbrev UniformTable := List UniformEntry

structure UniformProgress where
  position : Nat
  table : UniformTable
  events : Array Event

def UniformProgress.move (step : Nat → Except Fault Nat) (s : UniformProgress) :
    Except Fault UniformProgress :=
  return { s with position := ← step s.position }

namespace UniformTable

def index? (table : UniformTable) (name : String) : Option Nat :=
  table.findIdx? (fun u => u.name = name)

def get? (table : UniformTable) (name : String) : Option UniformEntry :=
  table.find? (fun u => u.name = name)

/-- Notes the register of a leaf in a stage, under the first entry of its name or, if there is none,
under a new one. A leaf has to start at the same component of a register in every stage. -/
def note (table : UniformTable) (stage : Stage) (register : UInt32) (leaf : UniformEntry) :
    Except Fault UniformTable :=
  match table.get? leaf.name with
  | none => .ok (table ++ [leaf.setRegister stage register])
  | some entry =>
    if entry.element = leaf.element then
      .ok (table.modify (table.findIdx (fun u => u.name = leaf.name)) (·.setRegister stage register))
    else
      .error (.elementMismatch leaf.name entry.element.toNat leaf.element.toNat)

/-- Notes a leaf at the position reached and moves on past it. An array starts a register. -/
def linkLeaf (rule : Rule) (stage : Stage) (leaf : Leaf) (s : UniformProgress) :
    Except Fault UniformProgress := do
  let start ← if leaf.decl.isArray then rule.enter s.position else .ok s.position
  let register := clampWord (Position.register start)
  let entry := leaf.entryAt start
  let table ← s.table.note stage register entry
  let finish ← rule.skip leaf.registerShape start
  let finish ← if leaf.decl.isArray then rule.exit finish else .ok finish
  return ⟨finish, table, s.events.push (.definedUniform entry.name stage register entry.element)⟩

def linking (rule : Rule) (stage : Stage) : Walk UniformProgress where
  enter := UniformProgress.move rule.enter
  leaf := linkLeaf rule stage
  exit := UniformProgress.move rule.exit

/-- Enters the leaves of a uniform whose registers start at `register`. -/
def linkUniform (table : UniformTable) (stage : Stage) (output : Output) (v : Variable)
    (register : UInt32) : Except Fault (Logged UniformTable) := do
  let packing ← output.packing
  let s ← (linking (.hlsl packing) stage).run (.root v.name) false v
    ⟨Rule.skipRegisters 0 register, table, #[]⟩
  return ⟨s.table, s.events.toList⟩

/-- Enters the uniforms that a stage uses, with the registers that an allocator gives them. -/
def linkStage (stage : Stage) :
    List Variable → UniformTable → Allocator → Except Fault (Logged (UniformTable × Allocator))
  | [], table, allocator => return ⟨(table, allocator), []⟩
  | v :: vs, table, allocator =>
    if v.decl.staticUse then do
      let assigned ← allocator.assignUniform v
      let linked ← table.linkUniform stage allocator.output v assigned.register
      let rest ← linkStage stage vs linked.value assigned.allocator
      return ⟨rest.value, assigned.events ++ linked.events ++ rest.events⟩
    else
      linkStage stage vs table allocator

end UniformTable

end ShaderInterface
