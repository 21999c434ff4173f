import ShaderInterface.Proofs.Unbounded

namespace ShaderInterface

/-- Positions below this one leave room for any value. -/
def Position.half : Nat := 0x8000000000000000

namespace Rule

def Refuses : Rule → Shape → Prop
  | std140, shape => shape.arraySize = 0 ∧ shape.dims = .vector 0
  | hlsl _, shape => shape.isMatrix = true ∧ shape.vectorCount = 0

/-- The fault of a refused shape: nothing is aligned to no components, and there is no register vector
before the first. -/
def refusal : Rule → Fault
  | std140 => .zeroAlignment
  | hlsl _ => .subtractOverflow

instance : (rule : Rule) → (shape : Shape) → Decidable (rule.Refuses shape)
  | std140, shape => inferInstanceAs (Decidable (shape.arraySize = 0 ∧ shape.dims = .vector 0))
  | hlsl _, shape =>
    inferInstanceAs (Decidable (shape.isMatrix = true ∧ shape.vectorCount = 0))

end Rule

namespace Shape

variable {shape : Shape}

theorem baseAlignment_eq_zero :
    shape.baseAlignment = 0 ↔ shape.arraySize = 0 ∧ shape.dims = .vector 0 := by
  cases hdims : shape.dims with
  | matrix columns rows => simp [baseAlignment, isCompound, isMatrix, hdims]
  | vector width =>
    have hwidth : width = 0 ↔ width.toNat = 0 := UInt8.toNat_inj.symm
    by_cases harray : shape.arraySize = 0
    · simp only [baseAlignment, isCompound, isMatrix, isArray, componentCount, hdims, harray]
      simp only [ne_eq, not_true, decide_false, Bool.or_self, Bool.false_eq_true, if_false,
        true_and, Dims.vector.injEq, hwidth]
      split <;> omega
    · simp [baseAlignment, isCompound, isMatrix, isArray, hdims, harray]

theorem baseAlignment_lt (shape : Shape) : shape.baseAlignment < 256 := by
  cases hdims : shape.dims with
  | matrix columns rows => simp [baseAlignment, isCompound, isMatrix, hdims, registerWidth]
  | vector width =>
    have hwidth := width.toNat_lt
    simp only [baseAlignment, componentCount, hdims]
    split
    · decide
    · split <;> omega

end Shape

namespace Rule

open Position

variable {rule : Rule} {shape : Shape} {position : Nat}

theorem accepts_iff : rule.Accepts shape ↔ ¬rule.Refuses shape := by
  cases rule with
  | std140 =>
    change 0 < shape.baseAlignment ↔ ¬(shape.arraySize = 0 ∧ shape.dims = .vector 0)
    rw [← Shape.baseAlignment_eq_zero]
    omega
  | hlsl packing =>
    change 0 < shape.vectorCount ↔ ¬(shape.isMatrix = true ∧ shape.vectorCount = 0)
    cases hmatrix : shape.isMatrix with
    | true => simp [Nat.pos_iff_ne_zero]
    | false => simp [Shape.vectorCount_of_not_isMatrix hmatrix]

theorem roundUp_le_last {alignment : Nat} (hpos : 0 < alignment) (hsmall : alignment < 256)
    (hroom : position < half) : roundUp position alignment ≤ last := by
  have hround := roundUp_lt position hpos
  unfold half at hroom
  unfold last
  omega

theorem startAt_le_last (h : rule.Accepts shape) (hroom : position < half) :
    rule.startAt shape position ≤ last := by
  have hregister : roundUp position registerWidth ≤ last :=
    roundUp_le_last (by decide) (by decide) hroom
  have hposition : position ≤ last :=
    Nat.le_trans (le_roundUp position (by decide)) hregister
  rcases rule with _ | _ | _
  · exact roundUp_le_last h shape.baseAlignment_lt hroom
  · simp only [startAt]
    split
    · exact hregister
    · exact hposition
  · exact hregister

theorem place_of_accepts (h : rule.Accepts shape) (hroom : position < half) :
    rule.place shape position = .ok ⟨shape, rule.startAt shape position,
      advance (rule.startAt shape position) (rule.extent shape)⟩ := by
  have hlast := startAt_le_last h hroom
  have hposition := Nat.le_trans (le_startAt_of_accepts h position) hlast
  rw [place_eq_of_accepts h hposition, if_pos hlast]

/-- A matrix without register vectors starts a register and then has no last vector. -/
theorem place_hlsl_of_refuses (packing : Packing) (h : (hlsl packing).Refuses shape)
    (hroom : position < half) : (hlsl packing).place shape position = .error .subtractOverflow := by
  obtain ⟨hmatrix, hcount⟩ := h
  have hlast : roundUp position registerWidth ≤ last :=
    roundUp_le_last (by decide) (by decide) hroom
  have hstart : (hlsl packing).start shape position = .ok (roundUp position registerWidth) := by
    have hnext := nextRegister_of_le hlast
    cases packing with
    | packed => simpa [start, Shape.isCompound, hmatrix] using hnext
    | loose => exact hnext
  have hstride := shape.matrix_strides hmatrix
  have hfinish (reached : Nat) :
      finishElement packing shape shape.strides reached = .error .subtractOverflow := by
    simp only [finishElement, checkMatrixStride, hmatrix, hcount, hstride, if_true]
    rfl
  unfold place
  rw [hstart]
  change finishHlsl packing shape shape.strides (roundUp position registerWidth) >>= _ = _
  unfold finishHlsl
  rw [lastElement_eq shape hlast]
  change finishElement packing shape shape.strides _ >>= _ = _
  rw [hfinish]
  rfl

theorem place_of_refuses (h : rule.Refuses shape) (hroom : position < half) :
    rule.place shape position = .error rule.refusal := by
  cases rule with
  | std140 =>
    have halign : shape.baseAlignment = 0 := Shape.baseAlignment_eq_zero.mpr h
    have hstart : std140.start shape position = .error .zeroAlignment := if_pos halign
    unfold place
    rw [hstart]
    rfl
  | hlsl packing => exact place_hlsl_of_refuses packing h hroom

end Rule

/-- A value is placed, and passed over, without a fault exactly if its shape is not refused, from
every position that leaves room. -/
theorem place_fault_iff (rule : Rule) (shape : Shape) {position : Nat} (hroom : position < Position.half) :
    (∀ fault, rule.place shape position = .error fault ↔
      rule.Refuses shape ∧ fault = rule.refusal) ∧
    (∀ fault, rule.skip shape position = .error fault ↔
      rule.Refuses shape ∧ fault = rule.refusal) ∧
    (¬rule.Refuses shape → ∃ placement, rule.place shape position = .ok placement ∧
      rule.skip shape position = .ok placement.finish ∧
      position ≤ placement.start ∧ placement.start ≤ placement.finish) := by
  by_cases hrefuses : rule.Refuses shape
  · have hplace := Rule.place_of_refuses hrefuses hroom
    have hskip : rule.skip shape position = .error rule.refusal := by
      unfold Rule.skip
      rw [hplace]
      rfl
    refine ⟨fun fault => ?_, fun fault => ?_, fun h => absurd hrefuses h⟩
    · simp [hplace, hrefuses, eq_comm]
    · simp [hskip, hrefuses, eq_comm]
  · have haccepts := Rule.accepts_iff.mpr hrefuses
    have hplace := Rule.place_of_accepts haccepts hroom
    have hskip : rule.skip shape position =
        .ok (Position.advance (rule.startAt shape position) (rule.extent shape)) := by
      unfold Rule.skip
      rw [hplace]
      rfl
    refine ⟨fun fault => ?_, fun fault => ?_, fun _ => ⟨_, hplace, hskip, ?_, ?_⟩⟩
    · simp [hplace, hrefuses]
    · simp [hskip, hrefuses]
    · exact Rule.le_startAt_of_accepts haccepts position
    · exact Position.le_advance _ (Rule.startAt_le_last haccepts hroom)

theorem place_fault_iff_extremes :
    let position := 0x7FFFFFFFFFFFFFFF
    Rule.std140.place ⟨.float, .vector 0, 0, false⟩ position = .error .zeroAlignment ∧
    (Rule.hlsl .loose).skip ⟨.float, .matrix 0 7, 4294967295, false⟩ position =
      .error .subtractOverflow ∧
    (∃ placement, Rule.std140.place ⟨.float, .vector 0, 4294967295, false⟩ position = .ok placement ∧
      position ≤ placement.start ∧ placement.start ≤ placement.finish) ∧
    (∃ placement, (Rule.hlsl .packed).place ⟨.float, .matrix 0 7, 0, true⟩ position = .ok placement ∧
      position ≤ placement.start ∧ placement.start ≤ placement.finish) ∧
    ∃ placement, Rule.std140.place ⟨.int, .vector 255, 0, true⟩ position = .ok placement ∧
      position ≤ placement.start ∧ placement.start ≤ placement.finish := by
  intro position
  have hroom : position < Position.half := by decide
  have hplaced (rule : Rule) (shape : Shape) (hfree : ¬rule.Refuses shape) :
      ∃ placement, rule.place shape position = .ok placement ∧
        position ≤ placement.start ∧ placement.start ≤ placement.finish := by
    obtain ⟨placement, hplace, -, hbounds⟩ := (place_fault_iff rule shape hroom).2.2 hfree
    exact ⟨placement, hplace, hbounds⟩
  refine ⟨?_, ?_, hplaced _ _ (by decide), hplaced _ _ (by decide), hplaced _ _ (by decide)⟩
  · exact ((place_fault_iff .std140 _ hroom).1 _).mpr ⟨by decide, rfl⟩
  · exact ((place_fault_iff (.hlsl .loose) _ hroom).2.1 _).mpr ⟨by decide, rfl⟩

end ShaderInterface
