import ShaderInterface.Proofs.FirstViolation

namespace ShaderInterface

theorem sequence_inj {ending ending' : Option (Except Fault LinkError)} :
    ending.sequence = ending'.sequence ↔ ending = ending' := by
  rcases ending with _ | _ | _ <;> rcases ending' with _ | _ | _ <;>
    simp [Option.sequence, pure, Except.pure, Functor.map, Except.map]

namespace RegisterUse

variable {use : RegisterUse} {limits : Limits} {budget : Budget}

/-- A check against vectors that end past the largest word. -/
def Overflows (use : RegisterUse) (limits : Limits) (budget : Budget) : Prop :=
  budget = .vectors ∧ maxWord < (limits.get use.stage).limit .vectors

instance (use : RegisterUse) (limits : Limits) (budget : Budget) :
    Decidable (use.Overflows limits budget) :=
  inferInstanceAs (Decidable (_ ∧ _))

/-- Registers are words, so that none is past an end that is no word. -/
theorem Overflows.not_exceeds (h : use.Overflows limits budget) : ¬use.Exceeds limits budget := by
  obtain ⟨rfl, hword⟩ := h
  rintro ⟨-, hpast⟩
  omega

/-- How a check ends the search through a table, if it does: with a fault, or with its error. -/
def ending? (use : RegisterUse) (limits : Limits) (budget : Budget) :
    Option (Except Fault LinkError) :=
  if use.Overflows limits budget then some (.error .addOverflow)
  else (use.failure? limits budget).map .ok

theorem ending?_eq_error {fault : Fault} :
    use.ending? limits budget = some (.error fault) ↔
      fault = .addOverflow ∧ use.Overflows limits budget := by
  by_cases hover : use.Overflows limits budget
  · simp [ending?, hover, eq_comm]
  · simp [ending?, hover]

theorem ending?_eq_ok {error : LinkError} :
    use.ending? limits budget = some (.ok error) ↔
      use.Exceeds limits budget ∧ error = use.error limits budget := by
  by_cases hover : use.Overflows limits budget
  · simp [ending?, hover, hover.not_exceeds]
  · simp [ending?, hover, failure?_eq_some]

theorem ending?_eq_none :
    use.ending? limits budget = none ↔
      ¬use.Exceeds limits budget ∧ ¬use.Overflows limits budget := by
  by_cases hover : use.Overflows limits budget
  · simp [ending?, hover]
  · simp [ending?, hover, failure?_eq_none]

theorem isSome_ending? :
    (use.ending? limits budget).isSome = true ↔
      use.Exceeds limits budget ∨ use.Overflows limits budget := by
  rw [← Option.isNone_eq_false_iff, Bool.eq_false_iff, ne_eq, Option.isNone_iff_eq_none,
    ending?_eq_none]
  grind

theorem violation_eq_sequence (use : RegisterUse) (limits : Limits) :
    use.violation limits =
      ((use.ending? limits .samplers).or (use.ending? limits .vectors)).sequence := by
  have hunits : use.ending? limits .samplers = (use.failure? limits .samplers).map .ok := by
    simp [ending?, Overflows]
  by_cases hover : use.Overflows limits .vectors
  · have hlimit : (limits.get use.stage).vectorLimit = .error .addOverflow :=
      if_neg (Nat.not_le.mpr hover.2)
    have hvectors : use.ending? limits .vectors = some (.error .addOverflow) := if_pos hover
    have hsamplers := use.samplerEnd_exceeds_iff limits
    rw [hunits, hvectors]
    simp only [violation, UniformEntry.violation, hsamplers, hlimit]
    by_cases hpast : use.Exceeds limits .samplers
    · simp only [failure?, if_pos hpast]
      rfl
    · simp only [failure?, if_neg hpast]
      rfl
  · have hfits : (limits.get use.stage).limit .vectors ≤ maxWord :=
      Nat.le_of_not_lt fun hword => hover ⟨rfl, hword⟩
    have hvectors : use.ending? limits .vectors = (use.failure? limits .vectors).map .ok :=
      if_neg hover
    rw [hunits, hvectors, use.violation_eq hfits]
    cases use.failure? limits .samplers with
    | some error => rfl
    | none => cases use.failure? limits .vectors <;> rfl

end RegisterUse

namespace UniformTable

theorem firstViolation_eq_sequence (limits : Limits) (uses : List RegisterUse) :
    firstViolation limits uses = (uses.findSome? fun use =>
      (use.ending? limits .samplers).or (use.ending? limits .vectors)).sequence := by
  induction uses with
  | nil => rfl
  | cons use uses ih =>
    rw [firstViolation_cons, use.violation_eq_sequence, List.findSome?_cons]
    cases (use.ending? limits .samplers).or (use.ending? limits .vectors) with
    | none => exact ih
    | some ending => cases ending <;> rfl

theorem validate_eq_sequence (table : UniformTable) (limits : Limits) :
    table.validate limits = ((RegisterCheck.ofTable 0 table).findSome? fun check =>
      check.use.ending? limits check.budget).sequence := by
  rw [validate, firstViolation_eq_sequence,
    RegisterCheck.findSome?_ofTable (fun use budget => use.ending? limits budget)]

theorem findSome?_ending?_eq_some {table : UniformTable} {limits : Limits}
    {ending : Except Fault LinkError} :
    ((RegisterCheck.ofTable 0 table).findSome? fun check =>
        check.use.ending? limits check.budget) = some ending ↔
      ∃ check : RegisterCheck, check.IsMade table ∧
        check.use.ending? limits check.budget = some ending ∧
        ∀ other : RegisterCheck, other.IsMade table →
          other.use.Exceeds limits other.budget ∨ other.use.Overflows limits other.budget →
          other = check ∨ check.Precedes other := by
  rw [findSome?_eq_some_of_pairwise (fun _ _ => RegisterCheck.Precedes.asymm)
    (RegisterCheck.pairwise_ofTable table)]
  simp only [RegisterCheck.mem_ofTable, RegisterUse.isSome_ending?]

/-- The check of a table faults exactly if a check that is made needs the end of vectors past the
largest word and every check that fails comes after it. -/
theorem validate_outcome (table : UniformTable) (limits : Limits) :
    (∀ fault, table.validate limits = .error fault ↔ fault = .addOverflow ∧
      ∃ check : RegisterCheck, check.IsMade table ∧ check.use.Overflows limits check.budget ∧
        ∀ other : RegisterCheck, other.IsMade table → other.use.Exceeds limits other.budget →
          check.Precedes other) ∧
    (table.validate limits = .ok none ↔ ∀ check : RegisterCheck, check.IsMade table →
      ¬check.use.Exceeds limits check.budget ∧ ¬check.use.Overflows limits check.budget) ∧
    ∀ error, table.validate limits = .ok (some error) ↔ ∃ check : RegisterCheck,
      check.IsMade table ∧ check.use.Exceeds limits check.budget ∧
      error = check.use.error limits check.budget ∧
      ∀ other : RegisterCheck, other.IsMade table →
        other.use.Exceeds limits other.budget ∨ other.use.Overflows limits other.budget →
        other = check ∨ check.Precedes other := by
  rw [validate_eq_sequence]
  refine ⟨fun fault => ?_, ?_, fun error => ?_⟩
  · change Option.sequence _ = Option.sequence (some (Except.error fault)) ↔ _
    rw [sequence_inj]
    constructor
    · intro hfound
      obtain ⟨check, hmade, hending, hfirst⟩ := findSome?_ending?_eq_some.mp hfound
      obtain ⟨hfault, hover⟩ := RegisterUse.ending?_eq_error.mp hending
      refine ⟨hfault, check, hmade, hover, fun other hother hexceeds => ?_⟩
      rcases hfirst other hother (.inl hexceeds) with rfl | hprecedes
      · exact absurd hexceeds hover.not_exceeds
      · exact hprecedes
    · intro h
      obtain ⟨rfl, check, hmade, hover, hfails⟩ := h
      -- The search ends here at the latest, and a check that fails would come later.
      cases hfound : (RegisterCheck.ofTable 0 table).findSome? fun check =>
          check.use.ending? limits check.budget with
      | none =>
        have hpasses := List.findSome?_eq_none_iff.mp hfound check (RegisterCheck.mem_ofTable.mpr hmade)
        exact absurd hover (RegisterUse.ending?_eq_none.mp hpasses).2
      | some ending =>
        obtain ⟨found, hfoundMade, hending, hfirst⟩ := findSome?_ending?_eq_some.mp hfound
        cases ending with
        | error fault => rw [(RegisterUse.ending?_eq_error.mp hending).1]
        | ok error =>
          have hexceeds := (RegisterUse.ending?_eq_ok.mp hending).1
          have hlater := hfails found hfoundMade hexceeds
          rcases hfirst check hmade (.inr hover) with rfl | hearlier
          · exact absurd hexceeds hover.not_exceeds
          · exact absurd hearlier hlater.asymm
  · change Option.sequence _ = Option.sequence none ↔ _
    rw [sequence_inj, List.findSome?_eq_none_iff]
    simp only [RegisterCheck.mem_ofTable, RegisterUse.ending?_eq_none]
  · change Option.sequence _ = Option.sequence (some (Except.ok error)) ↔ _
    rw [sequence_inj, findSome?_ending?_eq_some]
    simp only [RegisterUse.ending?_eq_ok, and_assoc]

def reservedLimits : Limits :=
  { Limits.d3d11 with vertex := { Limits.d3d11.vertex with reservedVectors := 4294967295 } }

/-- One vector in the first register ends the check with a fault, although it is within any limit. -/
theorem validate_reservedLimits :
    ∃ linked, linkUniform [] .vertex .hlsl11 (.basic ⟨"color", 0, false, true⟩ (.vector .float .four))
        0 = .ok linked ∧
      linked.value.validate reservedLimits = .error .addOverflow ∧
      linked.value.validate .d3d11 = .ok none :=
  ⟨_, rfl, rfl, rfl⟩

end UniformTable

end ShaderInterface
