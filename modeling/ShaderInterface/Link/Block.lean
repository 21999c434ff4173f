import ShaderInterface.Link.Error
import ShaderInterface.Register.Limits
import ShaderInterface.Variable
import ShaderInterface.Word

namespace ShaderInterface

/-- A uniform block, or an element of a block array. Its members are entries of the uniform table. -/
@[ext] structure BlockEntry where
  name : String
  element : Option UInt32
  size : UInt64
  members : List Nat
  registers : PerStage (Option UInt32)
  deriving DecidableEq, Repr

namespace BlockEntry

def setRegister (b : BlockEntry) (stage : Stage) (register : UInt32) : BlockEntry :=
  { b with registers := b.registers.set stage (some register) }

def isReferencedBy (b : BlockEntry) (stage : Stage) : Bool := (b.registers.get stage).isSome

@[simp] theorem name_setRegister (b : BlockEntry) (stage : Stage) (register : UInt32) :
    (b.setRegister stage register).name = b.name := rfl

@[simp] theorem registers_setRegister (b : BlockEntry) (stage : Stage) (register : UInt32) :
    (b.setRegister stage register).registers = b.registers.set stage (some register) := rfl

@[simp] theorem setRegister_setRegister (b : BlockEntry) (stage : Stage) (first second : UInt32) :
    (b.setRegister stage first).setRegister stage second = b.setRegister stage second := by
  simp [setRegister]

end BlockEntry

/-- The blocks of a program. The elements of a block array stand together, in order. -/
abbrev BlockTable := List BlockEntry

namespace BlockTable

def index? (table : BlockTable) (name : String) : Option Nat :=
  table.findIdx? (fun b => b.name = name)

def get? (table : BlockTable) (name : String) : Option BlockEntry :=
  table.find? (fun b => b.name = name)

/-- Binds up to `count` entries of a name to consecutive slots, the first of them `element` slots
after `register`. Stops at an entry of another name, and after binding an entry to a slot that the
program may not use. -/
def bindRun (stage : Stage) (name : String) (register : UInt32) (limits : StageLimits) :
    (count element : Nat) → BlockTable → BlockTable × Option LinkError
  | 0, _, table => (table, none)
  | _ + 1, _, [] => ([], some (.unknownBlock name))
  | count + 1, element, b :: table =>
    if b.name = name then
      let slot := clampWord (register.toNat + element)
      let bound := b.setRegister stage slot
      if limits.admitsBlock slot then
        let rest := bindRun stage name register limits count (element + 1) table
        (bound :: rest.1, rest.2)
      else
        (bound :: table, some (.tooManyBlocks stage name slot limits.maxBlocks))
    else
      (b :: table, some (.unknownBlock name))

/-- Binds the first `count` elements of a block to consecutive slots. What was bound before an error
stays bound. -/
def bind (table : BlockTable) (stage : Stage) (name : String) (register : UInt32) (count : Nat)
    (limits : StageLimits) : BlockTable × Option LinkError :=
  match table.dropWhile (fun b => b.name ≠ name) with
  | [] => (table, some (.unknownBlock name))
  | run =>
    let bound := bindRun stage name register limits count 0 run
    (table.takeWhile (fun b => b.name ≠ name) ++ bound.1, bound.2)

end BlockTable

/-- The entries of a declared block: one, or one for each element of an array. -/
def BlockDeclaration.entries (block : BlockDeclaration) (size : Nat) (members : List Nat) :
    BlockTable :=
  let entry (element : Option UInt32) : BlockEntry :=
    ⟨block.decl.name, element, UInt64.ofNat size, members, .both none⟩
  if block.decl.isArray then
    (List.range block.decl.arraySize.toNat).map (fun index => entry (some (UInt32.ofNat index)))
  else
    [entry none]

theorem BlockDeclaration.length_entries (block : BlockDeclaration) (size : Nat)
    (members : List Nat) : (block.entries size members).length = block.decl.elementCount := by
  unfold entries
  split
  case isTrue h =>
    have hne : block.decl.arraySize ≠ 0 := by simpa [Declarator.isArray] using h
    have hpos : block.decl.arraySize.toNat ≠ 0 := fun hz => hne (UInt32.toNat_inj.mp hz)
    simp only [List.length_map, List.length_range, Declarator.elementCount]
    omega
  case isFalse h =>
    rw [block.decl.elementCount_eq_one (by simpa using h)]
    rfl

end ShaderInterface
