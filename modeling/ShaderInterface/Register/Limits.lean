import ShaderInterface.Fault
import ShaderInterface.Word

namespace ShaderInterface

/-- What one stage may use. Reserved registers come first and are not for the program; the maxima do
not count them. -/
@[ext] structure StageLimits where
  reservedVectors : UInt32
  maxVectors : UInt32
  reservedBlocks : UInt32
  maxBlocks : UInt32
  maxSamplers : UInt32
  deriving DecidableEq, Repr

abbrev Limits := PerStage StageLimits

/-- The end of the vector registers, reserved ones included. -/
def StageLimits.vectorLimit (limits : StageLimits) : Except Fault UInt32 :=
  if limits.reservedVectors.toNat + limits.maxVectors.toNat ≤ maxWord then
    .ok (limits.reservedVectors + limits.maxVectors)
  else
    .error .addOverflow

/-- A block slot that the program may use: past the reserved ones and within the maximum. -/
def StageLimits.admitsBlock (limits : StageLimits) (slot : UInt32) : Bool :=
  limits.reservedBlocks.toNat ≤ slot.toNat ∧
    slot.toNat < limits.reservedBlocks.toNat + limits.maxBlocks.toNat

namespace Limits

def d3d9 : Limits where
  vertex := ⟨2, 254, 0, 0, 4⟩
  fragment := ⟨3, 221, 0, 0, 16⟩

def d3d11 : Limits where
  vertex := ⟨0, 1024, 2, 12, 16⟩
  fragment := ⟨0, 1024, 2, 12, 16⟩

/-- The limits of a device that says nothing else. -/
def standard : Limits := d3d11

end Limits

theorem StageLimits.vectorLimit_eq_ok {limits : StageLimits} {limit : UInt32}
    (h : limits.vectorLimit = .ok limit) :
    limit.toNat = limits.reservedVectors.toNat + limits.maxVectors.toNat := by
  unfold vectorLimit at h
  split at h
  case isTrue hle =>
    cases h
    rw [UInt32.toNat_add]
    apply Nat.mod_eq_of_lt
    unfold maxWord at hle
    omega
  case isFalse => cases h

end ShaderInterface
