import ShaderInterface.Layout.MemberInfo

namespace ShaderInterface

theorem roundUp_add {k alignment : Nat} (n : Nat) (ha : 0 < alignment) (hk : alignment ∣ k) :
    roundUp (k + n) alignment = k + roundUp n alignment := by
  obtain ⟨m, rfl⟩ := hk
  have hsum : alignment * m + n + alignment - 1 = n + alignment - 1 + alignment * m := by omega
  unfold roundUp
  rw [hsum, Nat.add_mul_div_left _ _ ha, Nat.add_mul, Nat.mul_comm m alignment, Nat.add_comm]

namespace Shape

def vectorTotal (shape : Shape) : Nat := shape.vectorCount * shape.elementCount

theorem vectorCount_pos {shape : Shape} (h : shape.WellFormed) : 0 < shape.vectorCount := by
  unfold WellFormed at h
  unfold vectorCount
  cases hd : shape.dims with
  | vector width => exact Nat.one_pos
  | matrix columns rows =>
    rw [hd] at h
    obtain ⟨⟨hc, -⟩, hr, -⟩ := h
    rw [UInt8.le_iff_toNat_le] at hc hr
    have h2 : (2 : UInt8).toNat = 2 := rfl
    dsimp only
    split <;> omega

theorem vectorWidth_pos {shape : Shape} (h : shape.WellFormed) : 0 < shape.vectorWidth := by
  unfold WellFormed at h
  unfold vectorWidth
  cases hd : shape.dims with
  | vector width =>
    rw [hd] at h
    exact UInt8.le_iff_toNat_le.mp h.1
  | matrix columns rows =>
    rw [hd] at h
    obtain ⟨⟨hc, -⟩, hr, -⟩ := h
    rw [UInt8.le_iff_toNat_le] at hc hr
    have h2 : (2 : UInt8).toNat = 2 := rfl
    dsimp only
    split <;> omega

theorem vectorWidth_le {shape : Shape} (h : shape.WellFormed) :
    shape.vectorWidth ≤ registerWidth := by
  unfold WellFormed at h
  unfold vectorWidth
  cases hd : shape.dims with
  | vector width =>
    rw [hd] at h
    exact UInt8.le_iff_toNat_le.mp h.2
  | matrix columns rows =>
    rw [hd] at h
    obtain ⟨⟨-, hc⟩, -, hr⟩ := h
    rw [UInt8.le_iff_toNat_le] at hc hr
    dsimp only
    split
    · exact hc
    · exact hr

theorem vectorTotal_pos {shape : Shape} (h : shape.WellFormed) : 0 < shape.vectorTotal :=
  Nat.mul_pos (vectorCount_pos h) shape.elementCount_pos

theorem vectorCount_of_not_isMatrix {shape : Shape} (h : shape.isMatrix = false) :
    shape.vectorCount = 1 := by
  unfold isMatrix at h
  unfold vectorCount
  cases hd : shape.dims with
  | vector width => rfl
  | matrix columns rows => simp [hd] at h

theorem vectorWidth_of_not_isMatrix {shape : Shape} (h : shape.isMatrix = false) :
    shape.vectorWidth = shape.componentCount := by
  unfold isMatrix at h
  unfold vectorWidth componentCount
  cases hd : shape.dims with
  | vector width => rfl
  | matrix columns rows => simp [hd] at h

theorem elementCount_of_isArray {shape : Shape} (h : shape.isArray = true) :
    shape.elementCount = shape.arraySize.toNat := by
  have hne : shape.arraySize ≠ 0 := by simpa [isArray] using h
  have hpos : shape.arraySize.toNat ≠ 0 := fun hz => hne (UInt32.toNat_inj.mp hz)
  unfold elementCount
  omega

theorem elementCount_of_not_isArray {shape : Shape} (h : shape.isArray = false) :
    shape.elementCount = 1 := by
  have hz : shape.arraySize = 0 := by simpa [isArray] using h
  simp [elementCount, hz]

/-- All register vectors but the last: those of all elements but the last, then those of the last. -/
theorem vectorTotal_sub_one {shape : Shape} (h : 0 < shape.vectorCount) :
    shape.vectorTotal - 1 = shape.vectorCount * (shape.elementCount - 1) + (shape.vectorCount - 1) := by
  obtain ⟨m, hm⟩ : ∃ m, shape.elementCount = m + 1 :=
    Nat.exists_eq_add_one_of_ne_zero (by have := shape.elementCount_pos; omega)
  unfold vectorTotal
  rw [hm, Nat.mul_add, Nat.mul_one, Nat.add_sub_cancel]
  omega

theorem vectorCount_lt (shape : Shape) : shape.vectorCount < 256 := by
  unfold vectorCount
  cases shape.dims with
  | vector width => simp
  | matrix columns rows =>
    have hc := columns.toNat_lt
    have hr := rows.toNat_lt
    dsimp only
    split <;> omega

theorem array_strides (shape : Shape) (h : shape.isArray = true) :
    shape.strides.array = registerWidth * shape.vectorCount := by
  unfold strides
  cases hm : shape.isMatrix with
  | true => simp [h]
  | false => simp [h, vectorCount_of_not_isMatrix hm]

theorem matrix_strides (shape : Shape) (h : shape.isMatrix = true) :
    shape.strides.matrix = registerWidth := by
  unfold strides
  cases ha : shape.isArray <;> simp [h]

theorem baseAlignment_mem {shape : Shape} (h : shape.WellFormed) :
    shape.baseAlignment = 1 ∨ shape.baseAlignment = 2 ∨ shape.baseAlignment = 4 := by
  unfold baseAlignment
  cases hc : shape.isCompound with
  | true => simp
  | false =>
    have hm : shape.isMatrix = false := by simp_all [isCompound]
    have hpos := vectorWidth_pos h
    have hle := vectorWidth_le h
    rw [vectorWidth_of_not_isMatrix hm] at hpos hle
    unfold registerWidth at hle
    simp only [Bool.false_eq_true, if_false]
    split <;> omega

end Shape

namespace Rule

open Position

def startAt (rule : Rule) (shape : Shape) (position : Nat) : Nat :=
  match rule with
  | std140 => roundUp position shape.baseAlignment
  | hlsl .loose => roundUp position registerWidth
  | hlsl .packed =>
    if shape.isCompound ∨ registerWidth < shape.componentCount + element position then
      roundUp position registerWidth
    else
      position

/-- The components from the start of a value to its end. All register vectors but the last take a
register; a standard block rounds up what is more than one vector, and loose packing a single vector. -/
def extent : Rule → Shape → Nat
  | std140, shape =>
    if shape.isCompound then registerWidth * shape.vectorTotal else shape.componentCount
  | hlsl .packed, shape => registerWidth * (shape.vectorTotal - 1) + shape.vectorWidth
  | hlsl .loose, shape =>
    registerWidth * (shape.vectorTotal - 1) +
      if shape.isMatrix then shape.vectorWidth else registerWidth

/-- A shape that a rule finds a place for: it has an alignment in a standard block, and it has register
vectors in registers. -/
def Accepts : Rule → Shape → Prop
  | std140, shape => 0 < shape.baseAlignment
  | hlsl _, shape => 0 < shape.vectorCount

theorem accepts_of_wellFormed (rule : Rule) {shape : Shape} (h : shape.WellFormed) :
    rule.Accepts shape := by
  cases rule with
  | std140 =>
    have hb := Shape.baseAlignment_mem h
    change 0 < shape.baseAlignment
    omega
  | hlsl packing => exact Shape.vectorCount_pos h

theorem le_startAt_of_accepts {rule : Rule} {shape : Shape} (h : rule.Accepts shape)
    (position : Nat) : position ≤ rule.startAt shape position := by
  have hr := le_roundUp position (show 0 < registerWidth by decide)
  rcases rule with _ | _ | _
  · exact le_roundUp position h
  · simp only [startAt]
    split
    · exact hr
    · exact Nat.le_refl position
  · exact hr

theorem le_startAt (rule : Rule) {shape : Shape} (h : shape.WellFormed) (position : Nat) :
    position ≤ rule.startAt shape position :=
  le_startAt_of_accepts (rule.accepts_of_wellFormed h) position

theorem startAt_add (rule : Rule) {shape : Shape} (h : shape.WellFormed) {k : Nat}
    (hk : registerWidth ∣ k) (position : Nat) :
    rule.startAt shape (k + position) = k + rule.startAt shape position := by
  have hr := roundUp_add position (show 0 < registerWidth by decide) hk
  rcases rule with _ | _ | _
  · have hb := Shape.baseAlignment_mem h
    apply roundUp_add
    · omega
    · have hd : shape.baseAlignment ∣ registerWidth := by
        rcases hb with hb | hb | hb <;> rw [hb] <;> decide
      exact Nat.dvd_trans hd hk
  · -- Packing looks at the component in the register, which the shift keeps.
    have he : element (k + position) = element position := by
      unfold element registerWidth at *
      omega
    simp only [startAt, he]
    split
    · exact hr
    · rfl
  · exact hr

theorem extent_pos (rule : Rule) {shape : Shape} (h : shape.WellFormed) :
    0 < rule.extent shape := by
  have hw := Shape.vectorWidth_pos h
  have ht := Shape.vectorTotal_pos h
  rcases rule with _ | _ | _
  · simp only [extent]
    split
    · exact Nat.mul_pos (by decide) ht
    case isFalse hc =>
      have hm : shape.isMatrix = false := by simp_all [Shape.isCompound]
      rwa [Shape.vectorWidth_of_not_isMatrix hm] at hw
  · simp only [extent]
    omega
  · simp only [extent, registerWidth]
    split <;> omega

theorem nextRegister_eq_ok {position next : Nat} (h : nextRegister position = .ok next) :
    next = roundUp position registerWidth ∧ next ≤ last := by
  rw [nextRegister_eq] at h
  split at h
  case isTrue hl =>
    cases h
    exact ⟨rfl, hl⟩
  case isFalse => cases h

theorem alignTo_eq {alignment : Nat} (position : Nat) (h : 0 < alignment) :
    alignTo position alignment =
      if roundUp position alignment ≤ last then .ok (roundUp position alignment)
      else .error .addOverflow := by
  unfold alignTo
  rw [if_neg (by omega)]

theorem start_eq {rule : Rule} {shape : Shape} (h : rule.Accepts shape) {position : Nat}
    (hp : position ≤ last) :
    rule.start shape position =
      if rule.startAt shape position ≤ last then .ok (rule.startAt shape position)
      else .error .addOverflow := by
  rcases rule with _ | _ | _
  · exact alignTo_eq position h
  · simp only [start, startAt]
    split
    · rfl
    · rfl
  · rfl

/-- No array of register vectors is too long for a 64-bit product. -/
theorem product_array_strides (shape : Shape) (h : shape.isArray = true) {count : Nat}
    (hc : count ≤ maxWord) :
    product shape.strides.array count = .ok (registerWidth * shape.vectorCount * count) := by
  rw [Shape.array_strides shape h]
  have hv := shape.vectorCount_lt
  have hm : registerWidth * shape.vectorCount * count ≤ 1024 * maxWord :=
    Nat.mul_le_mul (by unfold registerWidth; omega) hc
  unfold product
  rw [if_pos (Nat.le_trans hm (by decide))]

theorem finishStd140_eq (shape : Shape) (position : Nat) :
    finishStd140 shape shape.strides position = .ok (advance position (std140.extent shape)) := by
  unfold finishStd140
  cases ha : shape.isArray with
  | true =>
    rw [product_array_strides shape ha (toNat_le_maxWord _)]
    simp only [extent, Shape.isCompound, ha, Bool.or_true, if_true, Shape.vectorTotal,
      Shape.elementCount_of_isArray ha, ← Nat.mul_assoc]
    rfl
  | false =>
    have he := Shape.elementCount_of_not_isArray ha
    cases hm : shape.isMatrix with
    | true =>
      simp only [checkMatrixStride, Shape.matrix_strides shape hm, extent, Shape.isCompound, hm,
        Shape.vectorTotal, he, Nat.mul_one]
      rfl
    | false =>
      simp only [extent, Shape.isCompound, ha, hm]
      rfl

theorem lastElement_eq (shape : Shape) {position : Nat} (hp : position ≤ last) :
    lastElement shape shape.strides position =
      .ok (advance position (registerWidth * shape.vectorCount * (shape.elementCount - 1))) := by
  unfold lastElement
  cases ha : shape.isArray with
  | true =>
    have hc := toNat_le_maxWord shape.arraySize
    rw [product_array_strides shape ha (by omega), Shape.elementCount_of_isArray ha]
    rfl
  | false =>
    rw [Shape.elementCount_of_not_isArray ha, Nat.sub_self, Nat.mul_zero, advance_of_le hp]
    rfl

theorem finishElement_eq (packing : Packing) {shape : Shape} (h : 0 < shape.vectorCount)
    (position : Nat) :
    finishElement packing shape shape.strides position =
      .ok (advance position (registerWidth * (shape.vectorCount - 1) +
        if packing = .loose ∧ shape.isMatrix = false then registerWidth else shape.vectorWidth)) := by
  unfold finishElement
  cases hm : shape.isMatrix with
  | true =>
    have hz : ¬shape.vectorCount = 0 := by omega
    simp only [checkMatrixStride, Shape.matrix_strides shape hm, hz, if_true, if_false,
      Bool.true_eq_false, and_false]
    rfl
  | false =>
    have hc := Shape.vectorCount_of_not_isMatrix hm
    have hw := Shape.vectorWidth_of_not_isMatrix hm
    cases packing <;> simp [hc, hw] <;> rfl

theorem extent_hlsl (packing : Packing) {shape : Shape} (h : 0 < shape.vectorCount) :
    (hlsl packing).extent shape =
      registerWidth * shape.vectorCount * (shape.elementCount - 1) +
        (registerWidth * (shape.vectorCount - 1) +
          if packing = .loose ∧ shape.isMatrix = false then registerWidth else shape.vectorWidth) := by
  rw [← Nat.add_assoc, Nat.mul_assoc, ← Nat.mul_add, ← Shape.vectorTotal_sub_one h]
  cases packing with
  | packed => simp [extent]
  | loose => cases hm : shape.isMatrix <;> simp [extent, hm]

theorem advance_advance (position first second : Nat) :
    advance (advance position first) second = advance position (first + second) := by
  unfold advance
  omega

theorem finish_eq {rule : Rule} {shape : Shape} (h : rule.Accepts shape) {position : Nat}
    (hp : position ≤ last) :
    rule.finish shape shape.strides position = .ok (advance position (rule.extent shape)) := by
  cases rule with
  | std140 => exact finishStd140_eq shape position
  | hlsl packing =>
    simp only [finish, finishHlsl, lastElement_eq shape hp]
    change finishElement packing shape shape.strides _ = _
    rw [finishElement_eq packing h, advance_advance, extent_hlsl packing h]

/-- Placing a value cuts its end off at the last position, and faults where its start is past it. -/
theorem place_eq_of_accepts {rule : Rule} {shape : Shape} (h : rule.Accepts shape) {position : Nat}
    (hp : position ≤ last) :
    rule.place shape position =
      if rule.startAt shape position ≤ last then
        .ok ⟨shape, rule.startAt shape position,
          advance (rule.startAt shape position) (rule.extent shape)⟩
      else .error .addOverflow := by
  unfold place
  rw [start_eq h hp]
  split
  case isTrue hs =>
    change rule.finish shape shape.strides _ >>= _ = _
    rw [finish_eq h hs]
    rfl
  case isFalse => rfl

theorem place_eq (rule : Rule) {shape : Shape} (h : shape.WellFormed) {position : Nat}
    (hp : position ≤ last) :
    rule.place shape position =
      if rule.startAt shape position ≤ last then
        .ok ⟨shape, rule.startAt shape position,
          advance (rule.startAt shape position) (rule.extent shape)⟩
      else .error .addOverflow :=
  place_eq_of_accepts (rule.accepts_of_wellFormed h) hp

theorem place_of_le (rule : Rule) {shape : Shape} (h : shape.WellFormed) {position : Nat}
    (he : rule.startAt shape position + rule.extent shape ≤ last) :
    rule.place shape position =
      .ok ⟨shape, rule.startAt shape position,
        rule.startAt shape position + rule.extent shape⟩ := by
  have hp := rule.le_startAt h position
  rw [place_eq rule h (by omega), if_pos (by omega), advance_of_le he]

theorem place_eq_ok {rule : Rule} {shape : Shape} (h : shape.WellFormed) {position : Nat}
    {placement : Placement} (hp : position ≤ last) (hk : rule.place shape position = .ok placement) :
    placement = ⟨shape, rule.startAt shape position,
      min (rule.startAt shape position + rule.extent shape) last⟩ := by
  rw [place_eq rule h hp] at hk
  split at hk
  · cases hk
    rfl
  · cases hk

end Rule

end ShaderInterface
