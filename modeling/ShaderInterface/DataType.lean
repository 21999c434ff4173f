namespace ShaderInterface

/-- What a single component holds. Every kind takes one component of storage. -/
inductive Scalar where
  | float
  | int
  | uint
  | bool
  deriving DecidableEq, Repr

inductive Width where
  | one
  | two
  | three
  | four
  deriving DecidableEq, Repr

inductive Side where
  | two
  | three
  | four
  deriving DecidableEq, Repr

/-- What a sampler reads: a texture of float, signed or unsigned texels, an image that another device
owns, or a texture compared by depth. -/
inductive Sampler where
  | flat
  | volume
  | cube
  | layered
  | external
  | flatShadow
  | cubeShadow
  | layeredShadow
  | intFlat
  | intVolume
  | intCube
  | intLayered
  | uintFlat
  | uintVolume
  | uintCube
  | uintLayered
  deriving DecidableEq, Repr

/-- A type that is not a struct. A matrix is of floats. -/
inductive DataType where
  | vector (kind : Scalar) (width : Width)
  | matrix (columns rows : Side)
  | sampler (sampler : Sampler)
  deriving DecidableEq, Repr

def Width.toNat : Width → Nat
  | .one => 1
  | .two => 2
  | .three => 3
  | .four => 4

def Side.toNat : Side → Nat
  | .two => 2
  | .three => 3
  | .four => 4

def Scalar.name : Scalar → String
  | .float => "float"
  | .int => "int"
  | .uint => "uint"
  | .bool => "bool"

def Scalar.vectorName : Scalar → String
  | .float => "vec"
  | .int => "ivec"
  | .uint => "uvec"
  | .bool => "bvec"

def Sampler.name : Sampler → String
  | .flat => "sampler2D"
  | .volume => "sampler3D"
  | .cube => "samplerCube"
  | .layered => "sampler2DArray"
  | .external => "samplerExternalOES"
  | .flatShadow => "sampler2DShadow"
  | .cubeShadow => "samplerCubeShadow"
  | .layeredShadow => "sampler2DArrayShadow"
  | .intFlat => "isampler2D"
  | .intVolume => "isampler3D"
  | .intCube => "isamplerCube"
  | .intLayered => "isampler2DArray"
  | .uintFlat => "usampler2D"
  | .uintVolume => "usampler3D"
  | .uintCube => "usamplerCube"
  | .uintLayered => "usampler2DArray"

def Scalar.all : List Scalar := [.float, .int, .uint, .bool]

def Width.all : List Width := [.one, .two, .three, .four]

def Side.all : List Side := [.two, .three, .four]

def Sampler.all : List Sampler :=
  [.flat, .volume, .cube, .layered, .external, .flatShadow, .cubeShadow, .layeredShadow,
    .intFlat, .intVolume, .intCube, .intLayered, .uintFlat, .uintVolume, .uintCube, .uintLayered]

namespace DataType

def matrixName (columns rows : Side) : String :=
  "mat" ++ toString columns.toNat ++ "x" ++ toString rows.toNat

/-- The spelling that the library writes. A square matrix is written with one side. -/
def name : DataType → String
  | vector kind .one => kind.name
  | vector kind width => kind.vectorName ++ toString width.toNat
  | matrix columns rows =>
    if columns = rows then "mat" ++ toString columns.toNat else matrixName columns rows
  | sampler s => s.name

/-- All spellings that the library reads. A square matrix may also be spelled with both sides. -/
def spellings : DataType → List String
  | matrix columns rows => [(matrix columns rows).name, matrixName columns rows]
  | type => [type.name]

def all : List DataType :=
  Scalar.all.flatMap (fun kind => Width.all.map (vector kind)) ++
  Side.all.map (fun side => matrix side side) ++
  Side.all.flatMap (fun columns => (Side.all.filter (· ≠ columns)).map (matrix columns)) ++
  Sampler.all.map sampler

def ofName? (text : String) : Option DataType :=
  all.find? (fun type => type.spellings.contains text)

theorem mem_all (type : DataType) : type ∈ all := by
  rcases type with ⟨kind, width⟩ | ⟨columns, rows⟩ | s
  · cases kind <;> cases width <;> decide
  · cases columns <;> cases rows <;> decide
  · cases s <;> decide

/-- The kind of the components; a sampler is held as an integer. -/
def scalar : DataType → Scalar
  | vector kind _ => kind
  | matrix _ _ => .float
  | sampler _ => .int

def rows : DataType → Nat
  | matrix _ rows => rows.toNat
  | _ => 1

def columns : DataType → Nat
  | vector _ width => width.toNat
  | matrix columns _ => columns.toNat
  | sampler _ => 1

def componentCount (type : DataType) : Nat := type.rows * type.columns

def isMatrix : DataType → Bool
  | matrix _ _ => true
  | _ => false

def isSampler : DataType → Bool
  | sampler _ => true
  | _ => false

def registerCount (type : DataType) : Nat := type.rows

end DataType

end ShaderInterface
