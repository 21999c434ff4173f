import ShaderInterface.Target

namespace ShaderInterface

/-- What a program asks for beyond the registers of a stage, or a block that it does not have. -/
inductive LinkError where
  | tooManyUniforms (stage : Stage) (name : String) (last max : UInt32)
  | tooManySamplers (stage : Stage) (name : String) (last max : UInt32)
  | tooManyBlocks (stage : Stage) (name : String) (register max : UInt32)
  | unknownBlock (name : String)
  deriving DecidableEq, Repr

namespace LinkError

def samplerText : Stage → String
  | .vertex => "vertex shader sampler count exceeds the maximum vertex texture units ("
  | .fragment => "pixel shader sampler count exceeds the maximum texture image units ("

def message : LinkError → String
  | tooManyUniforms stage name last max =>
    stage.name ++ " shader active uniforms exceed the maximum " ++ stage.name ++
      " uniform vectors (" ++ toString max.toNat ++ "): `" ++ name ++ "` ends at register " ++
      toString last.toNat
  | tooManySamplers stage name last max =>
    samplerText stage ++ toString max.toNat ++ "): `" ++ name ++ "` ends at sampler " ++
      toString last.toNat
  | tooManyBlocks stage name register max =>
    stage.name ++ " shader uniform block count exceeds the maximum uniform blocks (" ++
      toString max.toNat ++ "): `" ++ name ++ "` uses register " ++ toString register.toNat
  | unknownBlock name => "unknown uniform block `" ++ name ++ "`"

end LinkError

end ShaderInterface
