namespace ShaderInterface

inductive Output where
  | essl
  | glsl
  | hlsl9
  | hlsl11
  deriving DecidableEq, Repr

namespace Output

def name : Output → String
  | essl => "essl"
  | glsl => "glsl"
  | hlsl9 => "hlsl9"
  | hlsl11 => "hlsl11"

/-- Only these outputs name registers. -/
def isHlsl : Output → Bool
  | hlsl9 | hlsl11 => true
  | essl | glsl => false

/-- The output that a spelling stands for. ASCII letters may be in either case, and a device name
stands for the language that the device runs. -/
def ofName? (text : String) : Option Output :=
  match text.map Char.toLower with
  | "essl" => some essl
  | "glsl" => some glsl
  | "hlsl9" | "d3d9" => some hlsl9
  | "hlsl11" | "d3d11" => some hlsl11
  | _ => none

end Output

inductive Stage where
  | vertex
  | fragment
  deriving DecidableEq, Repr

def Stage.name : Stage → String
  | .vertex => "vertex"
  | .fragment => "fragment"

@[ext] structure PerStage (α : Type) where
  vertex : α
  fragment : α
  deriving DecidableEq, Repr

namespace PerStage

variable {α : Type}

def both (value : α) : PerStage α := ⟨value, value⟩

def get (values : PerStage α) : Stage → α
  | .vertex => values.vertex
  | .fragment => values.fragment

def set (values : PerStage α) (stage : Stage) (value : α) : PerStage α :=
  match stage with
  | .vertex => { values with vertex := value }
  | .fragment => { values with fragment := value }

@[simp] theorem get_both (value : α) (stage : Stage) : (both value).get stage = value := by
  cases stage <;> rfl

@[simp] theorem get_set (values : PerStage α) (stage : Stage) (value : α) :
    (values.set stage value).get stage = value := by
  cases stage <;> rfl

theorem get_set_of_ne (values : PerStage α) {stage other : Stage} (value : α) (h : other ≠ stage) :
    (values.set stage value).get other = values.get other := by
  cases stage <;> cases other
  · exact absurd rfl h
  · rfl
  · rfl
  · exact absurd rfl h

@[simp] theorem set_set (values : PerStage α) (stage : Stage) (first second : α) :
    (values.set stage first).set stage second = values.set stage second := by
  cases stage <;> rfl

end PerStage

end ShaderInterface
