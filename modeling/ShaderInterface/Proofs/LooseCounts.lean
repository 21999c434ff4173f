import ShaderInterface.Proofs.LayoutSize

namespace ShaderInterface

open Position

theorem Position.nextWhole_roundUp (position : Nat) :
    nextWhole (roundUp position registerWidth) = nextWhole position := by
  simp only [nextWhole, roundUp, registerWidth]
  omega

theorem Position.nextWhole_add {rest : Nat} (position count : Nat) (hpos : 0 < rest)
    (hle : rest ≤ registerWidth) :
    nextWhole (roundUp position registerWidth + (registerWidth * count + rest)) =
      nextWhole position + (count + 1) := by
  simp only [nextWhole, roundUp, registerWidth] at *
  omega

theorem Position.nextWhole_iterate {move : Nat → Nat} {size : Nat}
    (hmove : ∀ position, nextWhole (move position) = nextWhole position + size)
    (count position : Nat) :
    nextWhole (move^[count] position) = nextWhole position + count * size := by
  induction count generalizing position with
  | zero => simp
  | succ count ih =>
    have hrest := ih (move position)
    rw [Function.iterate_succ_apply, hrest, hmove, Nat.succ_mul]
    omega

namespace DataType

def looseRegisters (type : DataType) : Nat := if type.isMatrix then type.columns else 1

theorem vectorCount_shape_columnMajor (type : DataType) (arraySize : UInt32) :
    (type.shape arraySize false).vectorCount = type.looseRegisters := by
  cases hmatrix : type.isMatrix with
  | true =>
    have hcolumns := type.vectorCount_shape arraySize false hmatrix
    simpa [looseRegisters, hmatrix] using hcolumns
  | false =>
    have hshape := (type.isMatrix_shape arraySize false).trans hmatrix
    have hone := Shape.vectorCount_of_not_isMatrix hshape
    simpa [looseRegisters, hmatrix] using hone

end DataType

/-- A loose leaf starts at the next register and takes as many as it has register vectors, although
the last register of a matrix is left before its end. -/
theorem Rule.nextWhole_loose {shape : Shape} (h : shape.WellFormed) (position : Nat) :
    nextWhole ((hlsl .loose).startAt shape position + (hlsl .loose).extent shape) =
      nextWhole position + shape.vectorTotal := by
  have hwidth := Shape.vectorWidth_pos h
  have hfits := Shape.vectorWidth_le h
  have htotal := Shape.vectorTotal_pos h
  have hlast : shape.vectorTotal - 1 + 1 = shape.vectorTotal := by omega
  cases hmatrix : shape.isMatrix with
  | true =>
    have hend := nextWhole_add position (shape.vectorTotal - 1) hwidth hfits
    simpa [startAt, extent, hmatrix, hlast] using hend
  | false =>
    have hend := nextWhole_add position (shape.vectorTotal - 1) (show 0 < registerWidth by decide)
      (Nat.le_refl _)
    simpa [startAt, extent, hmatrix, hlast] using hend

namespace Variable

mutual

/-- The registers of a variable under loose packing, from its declaration alone: those of one element
for each element, where a struct has those of its fields. -/
def looseRegisters : Variable → Nat
  | .basic decl type => decl.elementCount * type.looseRegisters
  | .struct decl fields => decl.elementCount * fieldLooseRegisters fields

def fieldLooseRegisters : List Variable → Nat
  | [] => 0
  | f :: fs => looseRegisters f + fieldLooseRegisters fs

end

mutual

/-- Wherever a variable stands, its layout moves on by the sum of its registers, in whole registers. -/
theorem nextWhole_exactEnd (v : Variable) (position : Nat) :
    nextWhole (v.exactEnd (.hlsl .loose) position) = nextWhole position + v.looseRegisters := by
  cases v with
  | basic decl type =>
    have hwell := type.wellFormed_shape decl.arraySize false
    have hend := Rule.nextWhole_loose hwell position
    have hcount := type.vectorCount_shape_columnMajor decl.arraySize
    rw [exactEnd, looseRegisters, hend, Shape.vectorTotal, hcount, Nat.mul_comm]
    rfl
  | struct decl fields =>
    have helement (start : Nat) :
        nextWhole (exactFieldsEnd (.hlsl .loose) fields (roundUp start registerWidth)) =
          nextWhole start + fieldLooseRegisters fields := by
      rw [nextWhole_exactFieldsEnd, nextWhole_roundUp]
    rw [exactEnd, looseRegisters]
    exact nextWhole_iterate helement decl.elementCount position

theorem nextWhole_exactFieldsEnd (fields : List Variable) (position : Nat) :
    nextWhole (exactFieldsEnd (.hlsl .loose) fields position) =
      nextWhole position + fieldLooseRegisters fields := by
  cases fields with
  | nil => rw [exactFieldsEnd, fieldLooseRegisters, Nat.add_zero]
  | cons f fs =>
    have hfirst := nextWhole_exactEnd f position
    have hrest := nextWhole_exactFieldsEnd fs (f.exactEnd (.hlsl .loose) position)
    rw [exactFieldsEnd, fieldLooseRegisters, hrest, hfirst, Nat.add_assoc]

end

theorem registersNeeded_loose (v : Variable) : v.registersNeeded .loose = v.looseRegisters := by
  have hend := v.nextWhole_exactEnd 0
  have hzero : nextWhole 0 = 0 := rfl
  rw [registersNeeded, endAt_visits, hend, hzero, Nat.zero_add]

end Variable

/-- Counts of loose registers are additive: one register for each column of each element of each
leaf. -/
theorem uniformRegisters_additive (v : Variable) (h : v.exactEnd (.hlsl .loose) 0 ≤ last) :
    ∃ count, uniformRegisters .hlsl9 v = .ok count ∧
      count.toNat = min v.looseRegisters maxWord := by
  have hfits : ¬v.Overruns .loose := by
    intro hover
    have hpast := Rule.last_lt_endAt_of_overruns hover
    rw [Variable.endAt_visits] at hpast
    omega
  have hcount := Variable.uniformRegisters_of_not_overruns (show Output.hlsl9.packing = _ from rfl)
    hfits
  refine ⟨_, hcount, ?_⟩
  rw [v.registersNeeded_loose, toNat_clampWord]

/-- Matrices that leave their last register before its end, in front of a leaf, of a struct without
fields and of the next element. -/
def riggedUniform : Variable :=
  .struct ⟨"rig", 3, false, true⟩
    [.basic ⟨"pose", 0, false, true⟩ (.matrix .three .three),
      .struct ⟨"unset", 2, false, true⟩ [],
      .basic ⟨"skin", 2, true, true⟩ (.matrix .two .three),
      .struct ⟨"joints", 2, false, true⟩
        [.basic ⟨"angle", 0, false, true⟩ (.vector .float .one),
          .basic ⟨"limits", 0, false, true⟩ (.vector .float .two),
          .basic ⟨"blend", 0, false, true⟩ (.matrix .four .two)],
      .basic ⟨"ramp", 0, false, true⟩ (.sampler .flat)]

theorem uniformRegisters_additive_riggedUniform :
    riggedUniform.exactEnd (.hlsl .loose) 0 ≤ last ∧
      (∃ count, uniformRegisters .hlsl9 riggedUniform = .ok count ∧ count.toNat = 60) ∧
      (matrixStructs 0x10000000).exactEnd (.hlsl .loose) 0 ≤ last ∧
      ∃ count, uniformRegisters .hlsl9 (matrixStructs 0x10000000) = .ok count ∧
        count.toNat = maxWord := by
  have hrig : riggedUniform.exactEnd (.hlsl .loose) 0 ≤ last := by decide +kernel
  have hlong : (matrixStructs 0x10000000).exactEnd (.hlsl .loose) 0 ≤ last := by
    rw [exactEnd_matrixStructs]
    decide
  have hsum : (matrixStructs 0x10000000).looseRegisters = 0x10000000 * (4 * maxWord) := by
    decide +kernel
  obtain ⟨count, hcount, hsixty⟩ := uniformRegisters_additive riggedUniform hrig
  obtain ⟨top, htop, hcut⟩ := uniformRegisters_additive (matrixStructs 0x10000000) hlong
  rw [hsum] at hcut
  exact ⟨hrig, ⟨count, hcount, hsixty⟩, hlong, top, htop, hcut.trans (by decide)⟩

end ShaderInterface
