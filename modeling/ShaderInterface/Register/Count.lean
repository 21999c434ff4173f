import ShaderInterface.Layout.Rule
import ShaderInterface.Walk
import ShaderInterface.Word

namespace ShaderInterface

/-- The storage of a leaf outside blocks, where layout qualifiers say nothing: a matrix is stored by
columns. -/
def Leaf.registerShape (leaf : Leaf) : Shape := leaf.type.shape leaf.decl.arraySize false

def Rule.measure (rule : Rule) : Walk Nat where
  enter := rule.enter
  leaf leaf := rule.skip leaf.registerShape
  exit := rule.exit

/-- Where a variable ends that is laid out from a position. -/
def Rule.endOf (rule : Rule) (v : Variable) (position : Nat) : Except Fault Nat :=
  rule.measure.run (.root v.name) false v position

def registersForBytes (bytes : Nat) : UInt32 :=
  clampWord ((bytes + registerBytes - 1) / registerBytes)

def Position.registersBefore (position : Nat) : UInt32 := registersForBytes (bytes position)

/-- The registers of a variable that is passed between stages. -/
def varyingRegisters (v : Variable) : Except Fault UInt32 :=
  return Position.registersBefore (← (Rule.hlsl .packed).endOf v 0)

/-- The registers of a uniform of its own, for an output that has registers. -/
def uniformRegisters (output : Output) (v : Variable) : Except Fault UInt32 := do
  let packing ← output.packing
  return Position.registersBefore (← (Rule.hlsl packing).endOf v 0)

theorem toNat_registersForBytes (bytes : Nat) :
    (registersForBytes bytes).toNat = min ((bytes + 15) / 16) maxWord :=
  toNat_clampWord _

end ShaderInterface
