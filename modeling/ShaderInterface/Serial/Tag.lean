import ShaderInterface.Layout.Rule

namespace ShaderInterface

def ofTag? {α : Type} (tag : α → String) (all : List α) (text : String) : Option α :=
  all.find? (fun a => tag a = text)

theorem ofTag?_tag {α : Type} {tag : α → String} {all : List α} {a : α} (h : a ∈ all)
    (inj : ∀ b ∈ all, tag b = tag a → b = a) : ofTag? tag all (tag a) = some a := by
  obtain ⟨b, hb⟩ : ∃ b, all.find? (fun b => decide (tag b = tag a)) = some b := by
    apply Option.isSome_iff_exists.mp
    rw [List.find?_isSome]
    exact ⟨a, h, by simp⟩
  have hm := List.mem_of_find?_eq_some hb
  have ht : tag b = tag a := by simpa using List.find?_some hb
  unfold ofTag?
  rw [hb, inj b hm ht]

def Scalar.tag : Scalar → String
  | .float => "Float"
  | .int => "Int"
  | .uint => "UInt"
  | .bool => "Bool"

def Scalar.typeTag : Scalar → String
  | .uint => "UnsignedInt"
  | kind => kind.tag

def Sampler.tag : Sampler → String
  | .flat => "Sampler2D"
  | .volume => "Sampler3D"
  | .cube => "SamplerCube"
  | .layered => "Sampler2DArray"
  | .external => "SamplerExternalOes"
  | .flatShadow => "Sampler2DShadow"
  | .cubeShadow => "SamplerCubeShadow"
  | .layeredShadow => "Sampler2DArrayShadow"
  | .intFlat => "IntSampler2D"
  | .intVolume => "IntSampler3D"
  | .intCube => "IntSamplerCube"
  | .intLayered => "IntSampler2DArray"
  | .uintFlat => "UnsignedIntSampler2D"
  | .uintVolume => "UnsignedIntSampler3D"
  | .uintCube => "UnsignedIntSamplerCube"
  | .uintLayered => "UnsignedIntSampler2DArray"

def DataType.tag : DataType → String
  | vector kind .one => kind.typeTag
  | vector kind width => kind.typeTag ++ "Vec" ++ toString width.toNat
  | matrix columns rows =>
    if columns = rows then "FloatMat" ++ toString columns.toNat
    else "FloatMat" ++ toString columns.toNat ++ "x" ++ toString rows.toNat
  | sampler s => s.tag

def Output.tag : Output → String
  | .essl => "Essl"
  | .glsl => "Glsl"
  | .hlsl9 => "Hlsl9"
  | .hlsl11 => "Hlsl11"

def Stage.tag : Stage → String
  | .vertex => "Vertex"
  | .fragment => "Fragment"

def BlockLayout.tag : BlockLayout → String
  | .standard => "Standard"
  | .packed => "Packed"
  | .shared => "Shared"

def Packing.tag : Packing → String
  | .packed => "Packed"
  | .loose => "Loose"

def Scalar.ofTag? : String → Option Scalar := ShaderInterface.ofTag? tag all

def DataType.ofTag? : String → Option DataType := ShaderInterface.ofTag? tag all

def Output.ofTag? : String → Option Output :=
  ShaderInterface.ofTag? tag [.essl, .glsl, .hlsl9, .hlsl11]

def Stage.ofTag? : String → Option Stage := ShaderInterface.ofTag? tag [.vertex, .fragment]

def BlockLayout.ofTag? : String → Option BlockLayout :=
  ShaderInterface.ofTag? tag [.standard, .packed, .shared]

def Packing.ofTag? : String → Option Packing := ShaderInterface.ofTag? tag [.packed, .loose]

end ShaderInterface
