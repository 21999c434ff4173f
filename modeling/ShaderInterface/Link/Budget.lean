import ShaderInterface.Link.Error
import ShaderInterface.Link.Uniform
import ShaderInterface.Register.Limits

namespace ShaderInterface

/-- The first limit of a stage that an entry exceeds from its register on. A sampler is checked against
both files. -/
def UniformEntry.violation (u : UniformEntry) (stage : Stage) (register : UInt32)
    (limits : StageLimits) : Except Fault (Option LinkError) :=
  let samplerEnd := clampWord (register.toNat + u.elementCount)
  if u.type.isSampler ∧ limits.maxSamplers < samplerEnd then
    return some (.tooManySamplers stage u.name samplerEnd limits.maxSamplers)
  else do
    let limit ← limits.vectorLimit
    let vectorEnd := clampWord (register.toNat + u.registerCount.toNat)
    if limit < vectorEnd then
      return some (.tooManyUniforms stage u.name vectorEnd limits.maxVectors)
    else
      return none

structure RegisterUse where
  entry : UniformEntry
  stage : Stage
  register : UInt32
  deriving DecidableEq, Repr

def UniformEntry.uses (u : UniformEntry) : List RegisterUse :=
  [Stage.vertex, Stage.fragment].filterMap fun stage =>
    (u.registers.get stage).map fun register => ⟨u, stage, register⟩

namespace UniformTable

/-- The registers to check, in order. Block members have none of their own. -/
def uses (table : UniformTable) : List RegisterUse :=
  (table.filter UniformEntry.isInDefaultBlock).flatMap UniformEntry.uses

def firstViolation (limits : Limits) : List RegisterUse → Except Fault (Option LinkError)
  | [] => return none
  | use :: uses => do
    match ← use.entry.violation use.stage use.register (limits.get use.stage) with
    | some error => return some error
    | none => firstViolation limits uses

/-- Checks a table against the limits of a device. There is no error if it fits. -/
def validate (table : UniformTable) (limits : Limits) : Except Fault (Option LinkError) :=
  firstViolation limits table.uses

end UniformTable

end ShaderInterface
