import Mathlib.Order.Bounds.Defs
import ShaderInterface.Proofs.LayoutSize

namespace ShaderInterface

open Position

/-- The positions that a rule allows for a value. A standard block aligns a vector by its width, and
one of three like one of four; a packed vector must not leave the register where it starts. What is
loose, and every matrix and array, starts a register. -/
def Rule.Admits (rule : Rule) (shape : Shape) (position : Nat) : Prop :=
  match rule with
  | std140 =>
    if shape.isMatrix || shape.isArray then registerWidth ∣ position
    else if shape.componentCount = 3 then 4 ∣ position
    else shape.componentCount ∣ position
  | hlsl .loose => registerWidth ∣ position
  | hlsl .packed =>
    if shape.isMatrix || shape.isArray then registerWidth ∣ position
    else register position = register (position + shape.componentCount - 1)

def Placement.vectorStart (placement : Placement) (element vector : Nat) : Nat :=
  placement.start + element * placement.shape.strides.array + vector * placement.shape.strides.matrix

theorem Position.register_eq_iff {position width : Nat} (h : 0 < width) :
    register position = register (position + width - 1) ↔
      element position + width ≤ registerWidth := by
  unfold register element registerWidth
  omega

namespace Rule

variable {shape : Shape}

theorem admits_std140 (position : Nat) :
    std140.Admits shape position ↔ shape.baseAlignment ∣ position := by
  have hcompound : (shape.isMatrix || shape.isArray) = shape.isCompound := rfl
  simp only [Admits, Shape.baseAlignment, hcompound]
  split
  · rfl
  · split <;> rfl

/-- Packing allows a value wherever it crosses into no other register. -/
theorem admits_packed (h : shape.WellFormed) (position : Nat) :
    (hlsl .packed).Admits shape position ↔ shape.FitsAt position := by
  have hcompound : (shape.isMatrix || shape.isArray) = shape.isCompound := rfl
  simp only [Admits, Shape.FitsAt, hcompound]
  split
  case isTrue => exact Nat.dvd_iff_mod_eq_zero
  case isFalse hsingle =>
    have hmatrix : shape.isMatrix = false := by simp_all [Shape.isCompound]
    have hpos := Shape.vectorWidth_pos h
    rw [Shape.vectorWidth_of_not_isMatrix hmatrix] at hpos
    exact register_eq_iff hpos

theorem admits_startAt (rule : Rule) (h : shape.WellFormed) (position : Nat) :
    rule.Admits shape (rule.startAt shape position) := by
  rcases rule with _ | _ | _
  · exact (admits_std140 _).mpr (dvd_roundUp ..)
  · exact (admits_packed h _).mpr (fitsAt_startAt _ h position)
  · exact dvd_roundUp ..

/-- No position before the start of a value is allowed. -/
theorem startAt_le_of_admits (rule : Rule) (h : shape.WellFormed) {position start : Nat}
    (hle : position ≤ start) (hadmits : rule.Admits shape start) :
    rule.startAt shape position ≤ start := by
  rcases rule with _ | _ | _
  · have hb := Shape.baseAlignment_mem h
    exact roundUp_le (by omega) ((admits_std140 start).mp hadmits) hle
  · exact startAt_packed_le hle ((admits_packed h start).mp hadmits)
  · exact roundUp_le (by decide) hadmits hle

theorem isLeast_startAt (rule : Rule) (h : shape.WellFormed) (cursor : Nat) :
    IsLeast {position | cursor ≤ position ∧ rule.Admits shape position}
      (rule.startAt shape cursor) := by
  constructor
  · exact ⟨rule.le_startAt h cursor, rule.admits_startAt h cursor⟩
  · rintro position ⟨hle, hadmits⟩
    exact rule.startAt_le_of_admits h hle hadmits

end Rule

theorem Placement.vectorStart_eq (placement : Placement) {element vector : Nat}
    (he : element < placement.shape.elementCount) (hv : vector < placement.shape.vectorCount) :
    placement.vectorStart element vector =
      placement.start + registerWidth * (placement.shape.vectorCount * element + vector) := by
  have helement : element * placement.shape.strides.array =
      registerWidth * (placement.shape.vectorCount * element) := by
    cases ha : placement.shape.isArray with
    | true => rw [Shape.array_strides _ ha, Nat.mul_comm, Nat.mul_assoc]
    | false =>
      rw [Shape.elementCount_of_not_isArray ha] at he
      obtain rfl : element = 0 := by omega
      simp
  have hvector : vector * placement.shape.strides.matrix = registerWidth * vector := by
    cases hm : placement.shape.isMatrix with
    | true => rw [Shape.matrix_strides _ hm, Nat.mul_comm]
    | false =>
      rw [Shape.vectorCount_of_not_isMatrix hm] at hv
      obtain rfl : vector = 0 := by omega
      simp
  rw [vectorStart, helement, hvector, Nat.mul_add, Nat.add_assoc]

/-- Where a value fits as a whole, each of its register vectors stays in one register. -/
theorem Placement.register_vectorStart {placement : Placement} (h : placement.shape.WellFormed)
    (hfits : placement.shape.FitsAt placement.start) {element vector : Nat}
    (he : element < placement.shape.elementCount) (hv : vector < placement.shape.vectorCount) :
    register (placement.vectorStart element vector) =
      register (placement.vectorStart element vector + placement.shape.vectorWidth - 1) := by
  have hwidth : Position.element placement.start + placement.shape.vectorWidth ≤ registerWidth := by
    unfold Shape.FitsAt at hfits
    split at hfits
    case isTrue =>
      rw [hfits, Nat.zero_add]
      exact Shape.vectorWidth_le h
    case isFalse hsingle =>
      have hmatrix : placement.shape.isMatrix = false := by simp_all [Shape.isCompound]
      rwa [Shape.vectorWidth_of_not_isMatrix hmatrix]
  rw [register_eq_iff (Shape.vectorWidth_pos h), vectorStart_eq placement he hv]
  unfold Position.element registerWidth at *
  omega

/-- A value is put at the least position that its rule allows, where none of its vectors is in two
registers. -/
theorem place_isLeast (rule : Rule) (shape : Shape) (cursor : Nat) (h : shape.WellFormed)
    (hcursor : cursor ≤ last) :
    ((∃ placement, rule.place shape cursor = .ok placement) ↔
      ∃ position, cursor ≤ position ∧ position ≤ last ∧ rule.Admits shape position) ∧
    ∀ placement, rule.place shape cursor = .ok placement →
      IsLeast {position | cursor ≤ position ∧ rule.Admits shape position} placement.start ∧
      ∀ element < shape.elementCount, ∀ vector < shape.vectorCount,
        register (placement.vectorStart element vector) =
          register (placement.vectorStart element vector + shape.vectorWidth - 1) := by
  have hleast := rule.isLeast_startAt h cursor
  refine ⟨?_, ?_⟩
  · rw [Rule.place_eq rule h hcursor]
    constructor
    · rintro ⟨placement, hplace⟩
      split at hplace
      case isTrue hfits => exact ⟨_, hleast.1.1, hfits, hleast.1.2⟩
      case isFalse => cases hplace
    · rintro ⟨position, hle, hlast, hadmits⟩
      have hstart := hleast.2 ⟨hle, hadmits⟩
      rw [if_pos (Nat.le_trans hstart hlast)]
      exact ⟨_, rfl⟩
  · intro placement hplace
    obtain rfl := Rule.place_eq_ok h hcursor hplace
    refine ⟨hleast, ?_⟩
    intro element he vector hv
    exact Placement.register_vectorStart h (rule.fitsAt_startAt h cursor) he hv

theorem place_isLeast_samples :
    (∃ placement, (Rule.hlsl .packed).place ⟨.float, .vector 3, 0, false⟩ 6 = .ok placement ∧
      placement.start = 8 ∧
      IsLeast {position | 6 ≤ position ∧
        (Rule.hlsl .packed).Admits ⟨.float, .vector 3, 0, false⟩ position} placement.start) ∧
    (∃ placement, Rule.std140.place ⟨.float, .matrix 3 2, 5, true⟩ 6 = .ok placement ∧
      register (placement.vectorStart 4 1) = register (placement.vectorStart 4 1 + 3 - 1)) ∧
    ∃ placement, Rule.std140.place ⟨.float, .vector 1, 0, false⟩ last = .ok placement := by
  refine ⟨⟨_, rfl, rfl, ?_⟩, ⟨_, rfl, ?_⟩, ?_⟩
  · have hleast := place_isLeast (.hlsl .packed) ⟨.float, .vector 3, 0, false⟩ 6 (by decide)
      (by decide)
    exact (hleast.2 _ rfl).1
  · have hleast := place_isLeast .std140 ⟨.float, .matrix 3 2, 5, true⟩ 6 (by decide) (by decide)
    exact (hleast.2 _ rfl).2 4 (by decide) 1 (by decide)
  · have hleast := place_isLeast .std140 ⟨.float, .vector 1, 0, false⟩ last (by decide) (Nat.le_refl _)
    exact hleast.1.mpr ⟨last, Nat.le_refl _, Nat.le_refl _, Nat.one_dvd last⟩

end ShaderInterface
