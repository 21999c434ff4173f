import ShaderInterface.Event
import ShaderInterface.Register.Count

namespace ShaderInterface

abbrev Assignments := List (String × UInt32)

/-- The registers of one stage: how many of each file are taken, and which names have which. -/
@[ext] structure Allocator where
  output : Output
  vectors : UInt32
  samplers : UInt32
  blocks : UInt32
  uniforms : Assignments
  blockSlots : Assignments
  deriving DecidableEq, Repr

structure Assigned where
  register : UInt32
  allocator : Allocator
  events : List Event

namespace Allocator

def empty (output : Output) : Allocator := ⟨output, 0, 0, 0, [], []⟩

def reserveVectors (allocator : Allocator) (count : UInt32) : Allocator :=
  { allocator with vectors := clampWord (allocator.vectors.toNat + count.toNat) }

def reserveBlocks (allocator : Allocator) (count : UInt32) : Allocator :=
  { allocator with blocks := clampWord (allocator.blocks.toNat + count.toNat) }

/-- The vector registers that a stage keeps for constants of the driver. -/
def driverVectors : Output → Stage → UInt32
  | .hlsl9, .vertex => 2
  | .hlsl9, .fragment => 3
  | _, _ => 0

def driverBlocks : UInt32 := 2

/-- The allocator that a stage starts with: the registers of the driver are taken. -/
def start (output : Output) (stage : Stage) : Allocator :=
  ((empty output).reserveVectors (driverVectors output stage)).reserveBlocks driverBlocks

def uniformRegister? (allocator : Allocator) (name : String) : Option UInt32 :=
  allocator.uniforms.lookup name

def blockRegister? (allocator : Allocator) (name : String) : Option UInt32 :=
  allocator.blockSlots.lookup name

def nextFor (allocator : Allocator) (isSampler : Bool) : UInt32 :=
  if isSampler then allocator.samplers else allocator.vectors

def take (allocator : Allocator) (name : String) (isSampler : Bool) (count : UInt32) : Allocator :=
  let register := allocator.nextFor isSampler
  let taken := clampWord (register.toNat + count.toNat)
  let uniforms := (name, register) :: allocator.uniforms
  if isSampler then { allocator with samplers := taken, uniforms }
  else { allocator with vectors := taken, uniforms }

/-- The register of a uniform. A name that has one keeps it, whatever is declared under it. -/
def assignUniform (allocator : Allocator) (v : Variable) : Except Fault Assigned :=
  match allocator.uniformRegister? v.name with
  | some register => return ⟨register, allocator, []⟩
  | none => do
    let count ← uniformRegisters allocator.output v
    let register := allocator.nextFor v.isSampler
    return ⟨register, allocator.take v.name v.isSampler count,
      [.assignedUniform v.name register count v.isSampler]⟩

/-- The first slot of a uniform block, which takes one for each element. A name that has one keeps it. -/
def assignBlock (allocator : Allocator) (block : BlockDeclaration) : Assigned :=
  match allocator.blockRegister? block.decl.name with
  | some register => ⟨register, allocator, []⟩
  | none =>
    let register := allocator.blocks
    ⟨register,
      { allocator with
        blocks := clampWord (register.toNat + block.decl.elementCount)
        blockSlots := (block.decl.name, register) :: allocator.blockSlots },
      [.assignedBlock block.decl.name register]⟩

@[simp] theorem nextFor_true (allocator : Allocator) : allocator.nextFor true = allocator.samplers :=
  rfl

@[simp] theorem nextFor_false (allocator : Allocator) : allocator.nextFor false = allocator.vectors :=
  rfl

@[simp] theorem output_take (allocator : Allocator) (name : String) (isSampler : Bool)
    (count : UInt32) : (allocator.take name isSampler count).output = allocator.output := by
  cases isSampler <;> rfl

@[simp] theorem uniforms_take (allocator : Allocator) (name : String) (isSampler : Bool)
    (count : UInt32) : (allocator.take name isSampler count).uniforms =
      (name, allocator.nextFor isSampler) :: allocator.uniforms := by
  cases isSampler <;> rfl

@[simp] theorem blockSlots_take (allocator : Allocator) (name : String) (isSampler : Bool)
    (count : UInt32) :
    (allocator.take name isSampler count).blockSlots = allocator.blockSlots := by
  cases isSampler <;> rfl

end Allocator

end ShaderInterface
