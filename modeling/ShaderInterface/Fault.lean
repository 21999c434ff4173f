import ShaderInterface.DataType
import ShaderInterface.Target

namespace ShaderInterface

/-- Why a run ended without an answer. -/
inductive Fault where
  | addOverflow
  | subtractOverflow
  | multiplyOverflow
  | zeroAlignment
  | vectorWidth
  | matrixDimensions
  | notMatrix (type : DataType)
  | noRegisterVectors
  | noVectorComponents
  | noPacking (output : Output)
  | strideMismatch (given expected : Nat)
  | elementMismatch (name : String) (recorded found : Nat)
  deriving DecidableEq, Repr

namespace Fault

def comparison (remark : String) (left right : Nat) : String :=
  "assertion `left == right` failed" ++ remark ++ "\n  left: " ++ toString left ++
    "\n right: " ++ toString right

def unreachable (reason : String) : String :=
  "internal error: entered unreachable code: " ++ reason

def message : Fault → String
  | addOverflow => "attempt to add with overflow"
  | subtractOverflow => "attempt to subtract with overflow"
  | multiplyOverflow => "attempt to multiply with overflow"
  | zeroAlignment => "assertion failed: alignment > 0"
  | vectorWidth => "vector width must be 1..=4"
  | matrixDimensions => "matrix dimensions must be 2..=4"
  | notMatrix type => type.name ++ " is not a matrix type"
  | noRegisterVectors => unreachable "matrix register count requested for a non-matrix"
  | noVectorComponents => unreachable "matrix component count requested for a non-matrix"
  | noPacking output => unreachable ("no HLSL packing strategy for " ++ output.name ++ " output")
  | strideMismatch given expected => comparison "" given expected
  | elementMismatch name recorded found =>
    comparison (": `" ++ name ++ "` starts at a different register component in each stage")
      recorded found

end Fault

theorem bind_eq_ok {α β : Type} {first : Except Fault α} {next : α → Except Fault β} {b : β} :
    first >>= next = .ok b ↔ ∃ a, first = .ok a ∧ next a = .ok b := by
  cases first with
  | error fault => simp [bind, Except.bind]
  | ok a => simp [bind, Except.bind]

theorem exists_eq_ok {α : Type} {run : Except Fault α} (h : run.isOk = true) :
    ∃ a, run = .ok a := by
  cases run with
  | error fault => cases h
  | ok a => exact ⟨a, rfl⟩

inductive NameError where
  | dataType (text : String)
  | output (text : String)
  deriving DecidableEq, Repr

def NameError.message : NameError → String
  | dataType text => "unknown GLSL type name `" ++ text ++ "`"
  | output text =>
    "unknown shader output `" ++ text ++ "` (expected essl, glsl, hlsl9 or hlsl11)"

def DataType.ofName (text : String) : Except NameError DataType :=
  match ofName? text with
  | some type => .ok type
  | none => .error (.dataType text)

def Output.ofName (text : String) : Except NameError Output :=
  match ofName? text with
  | some output => .ok output
  | none => .error (.output text)

end ShaderInterface
