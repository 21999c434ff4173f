import ShaderInterface.Link.Uniform

namespace ShaderInterface

/-- The full name of a block member; in a scope without a name it is the name alone. -/
def joinMember (scope name : String) : String :=
  if scope.isEmpty then name else scope ++ "." ++ name

/-- The full name of a leaf of a block. -/
def Leaf.memberName (leaf : Leaf) : String := leaf.path.text joinMember

/-- The storage of a leaf of a block. The majorness around it matters for matrices only. -/
def Leaf.memberShape (leaf : Leaf) : Shape :=
  leaf.type.shape leaf.decl.arraySize (leaf.type.isMatrix && leaf.rowMajor)

@[ext] structure Member where
  name : String
  type : DataType
  arraySize : UInt32
  placement : Placement
  deriving DecidableEq, Repr

structure BlockProgress where
  position : Nat
  members : Array Member

def BlockProgress.move (step : Nat → Except Fault Nat) (s : BlockProgress) :
    Except Fault BlockProgress :=
  return { s with position := ← step s.position }

namespace Rule

def addMember (rule : Rule) (leaf : Leaf) (s : BlockProgress) : Except Fault BlockProgress := do
  let placement ← rule.place leaf.memberShape s.position
  return ⟨placement.finish,
    s.members.push ⟨leaf.memberName, leaf.type, leaf.decl.arraySize, placement⟩⟩

def placing (rule : Rule) : Walk BlockProgress where
  enter := BlockProgress.move rule.enter
  leaf := rule.addMember
  exit := BlockProgress.move rule.exit

/-- The members of a block with these fields, and where they end. -/
def layoutMembers (rule : Rule) (scope : String) (rowMajor : Bool) (fields : List Variable)
    (position : Nat) : Except Fault (List Member × Nat) := do
  let s ← rule.placing.runFields (.root scope) rowMajor fields ⟨position, #[]⟩
  return (s.members.toList, s.position)

end Rule

def Member.entry (block : UInt32) (member : Member) : UniformEntry :=
  .unused member.name member.type member.arraySize (some block) member.placement.info

namespace UniformTable

def addMembers (table : UniformTable) (block : UInt32) (members : List Member) : UniformTable :=
  table ++ members.map (Member.entry block)

def memberIndexes (table : UniformTable) (members : List Member) : List Nat :=
  List.range' table.length members.length

end UniformTable

end ShaderInterface
