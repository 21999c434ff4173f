import ShaderInterface.Proofs.StageSpans

namespace ShaderInterface

open Position

/-- A packed value of one component is never moved on, in whatever component of a register it is
met. -/
def Packing.fitsAnywhere (packing : Packing) (shape : Shape) : Bool :=
  packing = .packed && !shape.isCompound && shape.componentCount = 1

def Visit.overruns (packing : Packing) (position : Nat) : Visit → Bool
  | .enter => last < roundUp position registerWidth
  | .leaf found => !packing.fitsAnywhere found.registerShape &&
      last < (Rule.hlsl packing).startAt found.registerShape position
  | .exit => false

/-- Some step of a walk would have to start past the last position, in unbounded numbers. -/
def Rule.Overruns (packing : Packing) (visits : List Visit) (position : Nat) : Prop :=
  ∃ before visit after, visits = before ++ visit :: after ∧
    visit.overruns packing ((Rule.hlsl packing).endAt Leaf.registerShape before position) = true

namespace Rule

variable {packing : Packing}

/-- The last position is the last component of its register, where nothing wider fits. -/
theorem last_lt_startAt_last {shape : Shape} (h : shape.WellFormed)
    (hfits : packing.fitsAnywhere shape = false) : last < (hlsl packing).startAt shape last := by
  have hround : last < roundUp last registerWidth := by decide
  cases packing with
  | loose => exact hround
  | packed =>
    have hmoved : shape.isCompound = true ∨ registerWidth < shape.componentCount + element last := by
      cases hcompound : shape.isCompound with
      | true => exact .inl rfl
      | false =>
        have hmatrix : shape.isMatrix = false := by simp_all [Shape.isCompound]
        have hpos := Shape.vectorWidth_pos h
        rw [Shape.vectorWidth_of_not_isMatrix hmatrix] at hpos
        have hone : shape.componentCount ≠ 1 := by simpa [Packing.fitsAnywhere, hcompound] using hfits
        have hlast : element last = 3 := by decide
        right
        rw [hlast, registerWidth]
        omega
    rw [startAt, if_pos hmoved]
    exact hround

theorem startAt_of_fitsAnywhere {shape : Shape} (h : packing.fitsAnywhere shape = true)
    (position : Nat) : (hlsl packing).startAt shape position = position := by
  obtain ⟨⟨rfl, hcompound⟩, hone⟩ : (packing = .packed ∧ shape.isCompound = false) ∧
      shape.componentCount = 1 := by simpa [Packing.fitsAnywhere] using h
  have helement := Nat.mod_lt position (show 0 < registerWidth by decide)
  rw [startAt, if_neg]
  simp only [hcompound, hone, element, registerWidth, Bool.false_eq_true, false_or] at helement ⊢
  omega

theorem startAt_register (packing : Packing) (shape : Shape) (register : Nat) :
    (hlsl packing).startAt shape (registerWidth * register) = registerWidth * register := by
  rcases startAt_hlsl packing shape (registerWidth * register) with h | h
  · exact h
  · rw [h, roundUp_of_dvd (by decide) (Nat.dvd_mul_right ..)]

theorem startAt_min_le_iff {shape : Shape} (h : shape.WellFormed) (position : Nat) :
    (hlsl packing).startAt shape (min position last) ≤ last ↔
      ¬(packing.fitsAnywhere shape = false ∧ last < (hlsl packing).startAt shape position) := by
  by_cases hfits : packing.fitsAnywhere shape = true
  · rw [startAt_of_fitsAnywhere hfits]
    exact iff_of_true (Nat.min_le_right ..) (by simp [hfits])
  · have hmoves : packing.fitsAnywhere shape = false := by simpa using hfits
    have hlast := last_lt_startAt_last h hmoves
    have hle := (hlsl packing).le_startAt h position
    by_cases hp : position ≤ last
    · rw [Nat.min_eq_left hp]
      simp [hmoves]
    · rw [Nat.min_eq_right (by omega)]
      simp only [hmoves, true_and]
      omega

/-- Measuring faults at the steps that overrun, and at no others. -/
theorem step_measure_eq (position : Nat) (visit : Visit) :
    (hlsl packing).measure.step (min position last) visit =
      if visit.overruns packing position then .error .addOverflow
      else .ok (min ((hlsl packing).moveAt Leaf.registerShape position visit) last) := by
  have hcut := Nat.min_le_right position last
  rw [← min_moveAt_min Leaf.wellFormed_registerShape]
  cases visit with
  | enter =>
    have hsame : roundUp (min position last) registerWidth ≤ last ↔
        roundUp position registerWidth ≤ last := by
      unfold roundUp registerWidth last
      omega
    change nextRegister (min position last) = _
    rw [nextRegister_eq]
    by_cases hfits : roundUp position registerWidth ≤ last
    · rw [if_pos (hsame.mpr hfits), if_neg (by simpa [Visit.overruns] using hfits)]
      exact congrArg Except.ok (Nat.min_eq_left (hsame.mpr hfits)).symm
    · rw [if_neg (fun h => hfits (hsame.mp h)), if_pos (by simpa [Visit.overruns] using hfits)]
  | leaf leaf =>
    have hsame := @startAt_min_le_iff packing _ leaf.wellFormed_registerShape position
    change (hlsl packing).skip leaf.registerShape (min position last) = _
    rw [skip, place_eq _ leaf.wellFormed_registerShape hcut]
    by_cases hstart : (hlsl packing).startAt leaf.registerShape (min position last) ≤ last
    · rw [if_pos hstart, if_neg (by simpa [Visit.overruns] using hsame.mp hstart)]
      rfl
    · rw [if_neg hstart, if_pos (by simpa [Visit.overruns, hsame] using hstart)]
      rfl
  | exit => exact congrArg Except.ok (Nat.min_eq_left hcut).symm

theorem not_overruns_nil (position : Nat) : ¬Overruns packing [] position := by
  rintro ⟨before, visit, after, hsplit, -⟩
  simp at hsplit

theorem overruns_cons (visit : Visit) (visits : List Visit) (position : Nat) :
    Overruns packing (visit :: visits) position ↔ visit.overruns packing position = true ∨
      Overruns packing visits ((hlsl packing).moveAt Leaf.registerShape position visit) := by
  constructor
  · rintro ⟨before, step, after, hsplit, hover⟩
    cases before with
    | nil =>
      cases hsplit
      exact .inl hover
    | cons first before =>
      cases hsplit
      exact .inr ⟨before, step, after, rfl, hover⟩
  · rintro (hover | ⟨before, step, after, rfl, hover⟩)
    · exact ⟨[], visit, visits, rfl, hover⟩
    · exact ⟨visit :: before, step, after, rfl, hover⟩

theorem overruns_append (first second : List Visit) (position : Nat) :
    Overruns packing (first ++ second) position ↔ Overruns packing first position ∨
      Overruns packing second ((hlsl packing).endAt Leaf.registerShape first position) := by
  induction first generalizing position with
  | nil => simp [not_overruns_nil]
  | cons visit visits ih =>
    rw [List.cons_append, overruns_cons, overruns_cons, ih, endAt_cons, or_assoc]

theorem last_lt_endAt_of_overruns {visits : List Visit} {position : Nat}
    (h : Overruns packing visits position) :
    last < (hlsl packing).endAt Leaf.registerShape visits position := by
  obtain ⟨before, visit, after, rfl, hover⟩ := h
  rw [endAt_append, endAt_cons]
  refine Nat.lt_of_lt_of_le ?_ (le_endAt Leaf.wellFormed_registerShape after _)
  cases visit with
  | enter => exact of_decide_eq_true hover
  | leaf leaf =>
    have hstart := of_decide_eq_true (Bool.and_eq_true_iff.mp hover).2
    exact Nat.lt_of_lt_of_le hstart (Nat.le_add_right ..)
  | exit => cases hover

theorem foldlM_measure_of_overruns {visits : List Visit} {position : Nat}
    (h : Overruns packing visits position) :
    visits.foldlM (hlsl packing).measure.step (min position last) = .error .addOverflow := by
  induction visits generalizing position with
  | nil => exact absurd h (not_overruns_nil position)
  | cons visit visits ih =>
    rw [List.foldlM_cons, step_measure_eq]
    by_cases hover : visit.overruns packing position = true
    · rw [if_pos hover]
      rfl
    · rw [if_neg hover]
      exact ih (((overruns_cons visit visits position).mp h).resolve_left hover)

theorem foldlM_measure_of_not_overruns {visits : List Visit} {position : Nat}
    (h : ¬Overruns packing visits position) :
    visits.foldlM (hlsl packing).measure.step (min position last) =
      .ok (min ((hlsl packing).endAt Leaf.registerShape visits position) last) := by
  induction visits generalizing position with
  | nil => rfl
  | cons visit visits ih =>
    rw [overruns_cons, not_or] at h
    rw [List.foldlM_cons, step_measure_eq, if_neg h.1]
    exact ih h.2

end Rule

namespace Variable

variable {v : Variable} {packing : Packing}

def Overruns (v : Variable) (packing : Packing) : Prop :=
  Rule.Overruns packing (v.visits (.root v.name) false) 0

theorem endOf_of_overruns (h : v.Overruns packing) :
    (Rule.hlsl packing).endOf v 0 = .error .addOverflow := by
  rw [Rule.endOf, Walk.run_eq_foldlM, ← Nat.min_eq_left (Nat.zero_le last)]
  exact Rule.foldlM_measure_of_overruns h

theorem uniformRegisters_of_overruns {output : Output} (hp : output.packing = .ok packing)
    (h : v.Overruns packing) : uniformRegisters output v = .error .addOverflow := by
  rw [uniformRegisters, hp]
  change (Rule.hlsl packing).endOf v 0 >>= _ = _
  rw [endOf_of_overruns h]
  rfl

theorem uniformRegisters_of_not_overruns {output : Output} (hp : output.packing = .ok packing)
    (h : ¬v.Overruns packing) :
    uniformRegisters output v = .ok (clampWord (v.registersNeeded packing)) := by
  have hend : (Rule.hlsl packing).endOf v 0 =
      .ok (min ((Rule.hlsl packing).endAt Leaf.registerShape (v.visits (.root v.name) false) 0)
        last) := by
    have hfold := Rule.foldlM_measure_of_not_overruns h
    rw [Nat.min_eq_left (Nat.zero_le last)] at hfold
    rw [Rule.endOf, Walk.run_eq_foldlM, hfold]
  obtain ⟨count, hcount⟩ : ∃ count, uniformRegisters output v = .ok count := by
    rw [uniformRegisters, hp]
    change ∃ count, (Rule.hlsl packing).endOf v 0 >>= _ = .ok count
    rw [hend]
    exact ⟨_, rfl⟩
  have hneeded := toNat_uniformRegisters hp hcount
  rw [hcount, ← UInt32.toNat_inj.mp (hneeded.trans (toNat_clampWord _).symm)]

/-- Counting fails exactly for a variable that overruns, and else gives the exact count, cut off. -/
theorem uniformRegisters_iff_overruns (v : Variable) {output : Output}
    (hp : output.packing = .ok packing) :
    (uniformRegisters output v = .error .addOverflow ↔ v.Overruns packing) ∧
      (uniformRegisters output v = .ok (clampWord (v.registersNeeded packing)) ↔
        ¬v.Overruns packing) := by
  by_cases h : v.Overruns packing
  · simp [uniformRegisters_of_overruns hp h, h]
  · simp [uniformRegisters_of_not_overruns hp h, h]

theorem varyingRegisters_eq (v : Variable) : varyingRegisters v = uniformRegisters .hlsl11 v := rfl

theorem assignUniform_iff_overruns (v : Variable) {allocator : Allocator}
    (hp : allocator.output.packing = .ok packing) :
    (allocator.assignUniform v = .error .addOverflow ↔
        allocator.uniformRegister? v.name = none ∧ v.Overruns packing) ∧
      ((∃ assigned, allocator.assignUniform v = .ok assigned) ↔
        ¬(allocator.uniformRegister? v.name = none ∧ v.Overruns packing)) := by
  unfold Allocator.assignUniform
  cases allocator.uniformRegister? v.name with
  | some register => simp [pure, Except.pure]
  | none =>
    by_cases h : v.Overruns packing
    · simp [uniformRegisters_of_overruns hp h, h, bind, Except.bind]
    · simp [uniformRegisters_of_not_overruns hp h, h, bind, Except.bind, pure, Except.pure]

theorem elementRun_add (path : Path) (rowMajor : Bool) (decl : Declarator) (fields : List Variable)
    (first count more : Nat) :
    elementRun path rowMajor decl fields first (count + more) =
      elementRun path rowMajor decl fields first count ++
        elementRun path rowMajor decl fields (first + count) more := by
  simp only [elementRun, ← List.range'_append_1, List.flatMap_append]

section StructArray

variable {packing : Packing} {rowMajor : Bool} {fields : List Variable} {size : Nat}

theorem endAt_elementRun (path : Path) (decl : Declarator)
    (hsize : ∀ path, (Rule.hlsl packing).endAt Leaf.registerShape (fieldVisits path rowMajor fields) 0 =
      registerWidth * size) (first count register : Nat) :
    (Rule.hlsl packing).endAt Leaf.registerShape (elementRun path rowMajor decl fields first count)
      (registerWidth * register) = registerWidth * (register + count * size) := by
  induction count generalizing first register with
  | zero => simp [elementRun]
  | succ count ih =>
    have hwhole := Nat.dvd_mul_right registerWidth register
    have hone : (Rule.hlsl packing).endAt Leaf.registerShape
        (elementVisits path rowMajor decl fields first) (registerWidth * register) =
          registerWidth * (register + size) := by
      rw [Rule.endAt_elementVisits, roundUp_of_dvd (by decide) hwhole]
      have hshift := @Rule.endAt_add (.hlsl packing) _ Leaf.wellFormed_registerShape _ hwhole
        (fieldVisits (decl.elementPath path first) rowMajor fields) 0
      rw [Nat.add_zero, hsize, ← Nat.mul_add] at hshift
      exact hshift
    rw [elementRun_succ, Rule.endAt_append, hone, ih, Nat.add_mul count 1, Nat.one_mul, Nat.add_assoc,
      Nat.add_comm size]

theorem overruns_struct_iff (decl : Declarator)
    (hsize : ∀ path, (Rule.hlsl packing).endAt Leaf.registerShape
      (fieldVisits path decl.rowMajor fields) 0 = registerWidth * size) :
    (Variable.struct decl fields).Overruns packing ↔
      Rule.Overruns packing
        (elementVisits (.root decl.name) decl.rowMajor decl fields (decl.elementCount - 1))
        (registerWidth * ((decl.elementCount - 1) * size)) := by
  obtain ⟨count, hcount⟩ : ∃ count, decl.elementCount = count + 1 :=
    Nat.exists_eq_add_one_of_ne_zero (Nat.ne_of_gt decl.elementCount_pos)
  have hbefore := endAt_elementRun (.root decl.name) decl hsize 0 count 0
  rw [Nat.mul_zero, Nat.zero_add] at hbefore
  have hlast : elementRun (.root decl.name) decl.rowMajor decl fields (0 + count) 1 =
      elementVisits (.root decl.name) decl.rowMajor decl fields count := by
    simp [elementRun]
  rw [Overruns, visits_struct, Bool.false_or, hcount, Nat.add_sub_cancel, elementRun_add,
    Rule.overruns_append, show (Variable.struct decl fields).name = decl.name from rfl, hlast, hbefore]
  constructor
  · rintro (hearlier | hlast)
    · -- What overruns earlier leaves the last element to start past the last position.
      have hpast := Rule.last_lt_endAt_of_overruns hearlier
      rw [hbefore] at hpast
      refine (Rule.overruns_cons ..).mpr (.inl (decide_eq_true ?_))
      exact Nat.lt_of_lt_of_le hpast (le_roundUp _ (by decide))
    · exact hlast
  · exact .inr

end StructArray

end Variable

/-- A variable that overruns has no register count, and every other variable has the exact one, cut
off at the largest word. -/
theorem registerCounts_iff_overruns (v : Variable) {output : Output} {packing : Packing}
    (hp : output.packing = .ok packing) :
    (uniformRegisters output v = .error .addOverflow ↔ v.Overruns packing) ∧
    (uniformRegisters output v = .ok (clampWord (v.registersNeeded packing)) ↔
      ¬v.Overruns packing) ∧
    (varyingRegisters v = .error .addOverflow ↔ v.Overruns .packed) ∧
    (varyingRegisters v = .ok (clampWord (v.registersNeeded .packed)) ↔ ¬v.Overruns .packed) ∧
    (∀ allocator : Allocator, allocator.output = output →
      (allocator.assignUniform v = .error .addOverflow ↔
        allocator.uniformRegister? v.name = none ∧ v.Overruns packing) ∧
      ((∃ assigned, allocator.assignUniform v = .ok assigned) ↔
        ¬(allocator.uniformRegister? v.name = none ∧ v.Overruns packing))) ∧
    (v.Overruns packing → last < (Rule.hlsl packing).endAt Leaf.registerShape
      (v.visits (.root v.name) false) 0) := by
  obtain ⟨herror, hok⟩ := v.uniformRegisters_iff_overruns hp
  obtain ⟨hvarying, hvarying'⟩ :=
    v.uniformRegisters_iff_overruns (show Output.hlsl11.packing = _ from rfl)
  rw [← v.varyingRegisters_eq] at hvarying hvarying'
  refine ⟨herror, hok, hvarying, hvarying', ?_, Rule.last_lt_endAt_of_overruns⟩
  intro allocator houtput
  exact v.assignUniform_iff_overruns (houtput ▸ hp)

def matrixStructs (count : UInt32) : Variable :=
  .struct ⟨"s", count, false, true⟩ [.basic ⟨"m", 0xFFFFFFFF, false, true⟩ (.matrix .four .four)]

section MatrixStructs

variable (packing : Packing)

theorem endAt_matrixStructs_fields (count : UInt32) (path : Path) :
    (Rule.hlsl packing).endAt Leaf.registerShape
      (Variable.fieldVisits path false (matrixStructs count).fields) 0 =
        registerWidth * (4 * maxWord) := by
  let shape : Shape := (DataType.matrix .four .four).shape 0xFFFFFFFF false
  have hone : (Rule.hlsl packing).startAt shape 0 + (Rule.hlsl packing).extent shape =
      registerWidth * (4 * maxWord) := by
    cases packing <;> decide +kernel
  exact hone

theorem registersNeeded_matrixStructs (count : UInt32) :
    (matrixStructs count).registersNeeded packing = max 1 count.toNat * (4 * maxWord) := by
  have hend := Variable.endAt_elementRun (.root "s") (matrixStructs count).decl
    (endAt_matrixStructs_fields packing count) 0 (max 1 count.toNat) 0
  rw [Variable.registersNeeded, matrixStructs, Variable.visits_struct]
  rw [Nat.mul_zero, Nat.zero_add] at hend
  refine (congrArg nextWhole hend).trans ?_
  unfold nextWhole registerWidth
  omega

theorem matrixStructs_overruns_iff (count : UInt32) :
    (matrixStructs count).Overruns packing ↔ 0x10000002 ≤ count.toNat := by
  have hround (register : Nat) : roundUp (registerWidth * register) registerWidth =
      registerWidth * register := roundUp_of_dvd (by decide) (Nat.dvd_mul_right ..)
  rw [matrixStructs, Variable.overruns_struct_iff _ (endAt_matrixStructs_fields packing count)]
  simp only [Variable.elementVisits, Variable.fieldVisits, Variable.visits, List.append_nil,
    List.cons_append, List.nil_append, Rule.overruns_cons, Rule.not_overruns_nil, Visit.overruns,
    Rule.moveAt, hround, Rule.startAt_register, Bool.and_eq_true, decide_eq_true_eq,
    Bool.false_eq_true, or_false]
  -- The only leaf of a struct starts where the struct does.
  rw [or_iff_left_of_imp And.right]
  unfold Declarator.elementCount registerWidth maxWord last
  dsimp only
  omega

end MatrixStructs

theorem registerCounts_iff_overruns_matrixStructs :
    Output.hlsl11.packing = .ok .packed ∧
      uniformRegisters .hlsl11 (matrixStructs 0x10000001) = .ok 0xFFFFFFFF ∧
      varyingRegisters (matrixStructs 0x10000001) = .ok 0xFFFFFFFF ∧
      (∃ assigned, (Allocator.start .hlsl11 .vertex).assignUniform (matrixStructs 0x10000001) =
        .ok assigned) ∧
      uniformRegisters .hlsl11 (matrixStructs 0x10000002) = .error .addOverflow ∧
      last < (Rule.hlsl .packed).endAt Leaf.registerShape
        ((matrixStructs 0x10000002).visits (.root "s") false) 0 := by
  have hcount : clampWord ((matrixStructs 0x10000001).registersNeeded .packed) = 0xFFFFFFFF := by
    rw [registersNeeded_matrixStructs]
    decide +kernel
  have hshorter : ¬(matrixStructs 0x10000001).Overruns .packed := by
    rw [matrixStructs_overruns_iff]
    decide
  have hlonger := (matrixStructs_overruns_iff .packed 0x10000002).mpr (by decide)
  obtain ⟨-, huniform, -, hvarying, hassign, -⟩ :=
    registerCounts_iff_overruns (matrixStructs 0x10000001) (show Output.hlsl11.packing = _ from rfl)
  obtain ⟨herror, -, -, -, -, hend⟩ :=
    registerCounts_iff_overruns (matrixStructs 0x10000002) (show Output.hlsl11.packing = _ from rfl)
  rw [hcount] at huniform hvarying
  refine ⟨rfl, huniform.mpr hshorter, hvarying.mpr hshorter, ?_, herror.mpr hlonger, hend hlonger⟩
  exact (hassign (.start .hlsl11 .vertex) rfl).2.mpr fun h => hshorter h.2

/-- A layout that goes on to a new struct past the last position has no count. -/
theorem uniformRegisters_matrixStructs :
    uniformRegisters .hlsl9 (matrixStructs 0x10000002) = .error .addOverflow ∧
      uniformRegisters .hlsl11 (matrixStructs 0x10000002) = .error .addOverflow ∧
      varyingRegisters (matrixStructs 0x10000002) = .error .addOverflow ∧
      (Allocator.start .hlsl11 .vertex).assignUniform (matrixStructs 0x10000002) =
        .error .addOverflow := by
  have hover (packing : Packing) : (matrixStructs 0x10000002).Overruns packing :=
    (matrixStructs_overruns_iff packing _).mpr (by decide)
  have hloose := Variable.uniformRegisters_of_overruns (show Output.hlsl9.packing = _ from rfl)
    (hover .loose)
  have hpacked := Variable.uniformRegisters_of_overruns (show Output.hlsl11.packing = _ from rfl)
    (hover .packed)
  refine ⟨hloose, hpacked, by rw [Variable.varyingRegisters_eq, hpacked], ?_⟩
  have hassign := @Variable.assignUniform_iff_overruns .packed (matrixStructs 0x10000002)
    (.start .hlsl11 .vertex) rfl
  exact hassign.1.mpr ⟨rfl, hover .packed⟩

end ShaderInterface
