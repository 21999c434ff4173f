import ShaderInterface.Layout.Rule
import ShaderInterface.Word

namespace ShaderInterface

/-- The place of a block member in bytes. A stride is zero where there is nothing to step over. -/
@[ext] structure MemberInfo where
  offset : Int32
  arrayStride : Int32
  matrixStride : Int32
  rowMajorMatrix : Bool
  deriving DecidableEq, Repr

namespace MemberInfo

def unassigned : MemberInfo := ⟨-1, -1, -1, false⟩

def isAssigned (info : MemberInfo) : Bool := 0 ≤ info.offset

end MemberInfo

def byteOffset (components : Nat) : Int32 := clampOffset (components * componentBytes)

theorem toInt_byteOffset (components : Nat) :
    (byteOffset components).toInt = (min (components * componentBytes) maxOffset : Nat) :=
  toInt_clampOffset _

/-- What a program is told about a placed value. Majorness is passed on as it was asked for. -/
def Placement.info (placement : Placement) : MemberInfo where
  offset := byteOffset placement.start
  arrayStride := byteOffset placement.shape.strides.array
  matrixStride := byteOffset placement.shape.strides.matrix
  rowMajorMatrix := placement.shape.rowMajor

theorem Placement.isAssigned_info (placement : Placement) : placement.info.isAssigned = true := by
  have h := toInt_byteOffset placement.start
  simp only [MemberInfo.isAssigned, info, decide_eq_true_eq, Int32.le_iff_toInt_le, h]
  exact Int.natCast_nonneg _

end ShaderInterface
