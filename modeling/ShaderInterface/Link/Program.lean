import ShaderInterface.Link.Block
import ShaderInterface.Link.Member

namespace ShaderInterface

@[ext] structure Program where
  uniforms : UniformTable
  blocks : BlockTable
  deriving DecidableEq, Repr

/-- A stage that was linked as far as it goes: the program, the allocator, and the error that ended
the work, if one did. -/
@[ext] structure StageLink where
  program : Program
  allocator : Allocator
  error : Option LinkError
  deriving DecidableEq, Repr

namespace Program

def empty : Program := ⟨[], []⟩

def addBlock (program : Program) (block : BlockDeclaration) (members : List Member)
    (finish : Nat) : Program where
  uniforms := program.uniforms.addMembers (clampWord program.blocks.length) members
  blocks := program.blocks ++
    block.entries (Position.bytes finish) (program.uniforms.memberIndexes members)

def blockEvents (block : BlockDeclaration) (members : List Member) (finish : Nat) : List Event :=
  members.flatMap (·.placement.events) ++
    [.definedBlock block.decl.name block.layout (Position.bytes finish) members.length]

/-- Adds a block and its members, unless the program has a block of that name. Gives the index of its
first entry. -/
def linkBlock (program : Program) (block : BlockDeclaration) :
    Except Fault (Logged (Program × Nat)) :=
  match program.blocks.index? block.decl.name with
  | some index => return ⟨(program, index), []⟩
  | none => do
    let (members, finish) ← block.layout.rule.layoutMembers "" block.decl.rowMajor block.fields 0
    return ⟨(program.addBlock block members finish, program.blocks.length),
      blockEvents block members finish⟩

def bindBlock (program : Program) (stage : Stage) (limits : Limits) (block : BlockDeclaration)
    (allocator : Allocator) : Logged StageLink :=
  let assigned := allocator.assignBlock block
  let bound := program.blocks.bind stage block.decl.name assigned.register block.decl.elementCount
    (limits.get stage)
  ⟨⟨{ program with blocks := bound.1 }, assigned.allocator, bound.2⟩, assigned.events⟩

def bindIfUsed (program : Program) (stage : Stage) (limits : Limits) (block : BlockDeclaration)
    (allocator : Allocator) : Logged StageLink :=
  if block.decl.staticUse then program.bindBlock stage limits block allocator
  else ⟨⟨program, allocator, none⟩, []⟩

/-- Adds the blocks of a stage and binds those that it uses, up to the first error. -/
def linkStage (stage : Stage) (limits : Limits) :
    List BlockDeclaration → Program → Allocator → Except Fault (Logged StageLink)
  | [], program, allocator => return ⟨⟨program, allocator, none⟩, []⟩
  | block :: blocks, program, allocator => do
    let added ← program.linkBlock block
    let bound := added.value.1.bindIfUsed stage limits block allocator
    match bound.value.error with
    | some _ => return ⟨bound.value, added.events ++ bound.events⟩
    | none =>
      let rest ← linkStage stage limits blocks bound.value.program bound.value.allocator
      return ⟨rest.value, added.events ++ bound.events ++ rest.events⟩

end Program

end ShaderInterface
