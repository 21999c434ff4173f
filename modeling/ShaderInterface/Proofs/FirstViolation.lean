import ShaderInterface.Proofs.RegisterBudget

namespace ShaderInterface

inductive Budget where
  | samplers
  | vectors
  deriving DecidableEq, Repr

namespace RegisterUse

def charge (use : RegisterUse) : Budget → Nat
  | .samplers => use.entry.elementCount
  | .vectors => use.entry.registerCount.toNat

def isCheckedFor (use : RegisterUse) : Budget → Bool
  | .samplers => use.entry.type.isSampler
  | .vectors => true

end RegisterUse

/-- The end of what a budget allows. The vectors of a stage start behind the reserved ones. -/
def StageLimits.limit (limits : StageLimits) : Budget → Nat
  | .samplers => limits.maxSamplers.toNat
  | .vectors => limits.reservedVectors.toNat + limits.maxVectors.toNat

namespace RegisterUse

def Exceeds (use : RegisterUse) (limits : Limits) (budget : Budget) : Prop :=
  use.isCheckedFor budget = true ∧
    (limits.get use.stage).limit budget < min (use.register.toNat + use.charge budget) maxWord

instance (use : RegisterUse) (limits : Limits) (budget : Budget) :
    Decidable (use.Exceeds limits budget) :=
  inferInstanceAs (Decidable (_ ∧ _))

/-- The error for a use of registers past a budget: the name, the end and the maximum, in which
reserved vectors do not count. -/
def error (use : RegisterUse) (limits : Limits) : Budget → LinkError
  | .samplers => .tooManySamplers use.stage use.entry.name
      (clampWord (use.register.toNat + use.charge .samplers)) (limits.get use.stage).maxSamplers
  | .vectors => .tooManyUniforms use.stage use.entry.name
      (clampWord (use.register.toNat + use.charge .vectors)) (limits.get use.stage).maxVectors

def failure? (use : RegisterUse) (limits : Limits) (budget : Budget) : Option LinkError :=
  if use.Exceeds limits budget then some (use.error limits budget) else none

theorem failure?_eq_none {use : RegisterUse} {limits : Limits} {budget : Budget} :
    use.failure? limits budget = none ↔ ¬use.Exceeds limits budget := by
  simp [failure?]

theorem failure?_eq_some {use : RegisterUse} {limits : Limits} {budget : Budget} {error : LinkError} :
    use.failure? limits budget = some error ↔
      use.Exceeds limits budget ∧ error = use.error limits budget := by
  simp [failure?, eq_comm]

theorem isSome_failure? {use : RegisterUse} {limits : Limits} {budget : Budget} :
    (use.failure? limits budget).isSome = true ↔ use.Exceeds limits budget := by
  simp [failure?]

theorem samplerEnd_exceeds_iff (use : RegisterUse) (limits : Limits) :
    (use.entry.type.isSampler = true ∧ (limits.get use.stage).maxSamplers <
      clampWord (use.register.toNat + use.entry.elementCount)) ↔ use.Exceeds limits .samplers := by
  simp [Exceeds, isCheckedFor, charge, StageLimits.limit, UInt32.lt_iff_toNat_lt]

theorem forall_not_exceeds_iff (use : RegisterUse) (limits : Limits) :
    (∀ budget, ¬use.Exceeds limits budget) ↔
      min (use.register.toNat + use.entry.registerCount.toNat) maxWord ≤
          (limits.get use.stage).reservedVectors.toNat + (limits.get use.stage).maxVectors.toNat ∧
        (use.entry.type.isSampler = true →
          min (use.register.toNat + use.entry.elementCount) maxWord ≤
            (limits.get use.stage).maxSamplers.toNat) := by
  constructor
  · intro hfits
    refine ⟨Nat.le_of_not_lt fun hpast => hfits .vectors ⟨rfl, hpast⟩, fun hsampler => ?_⟩
    exact Nat.le_of_not_lt fun hpast => hfits .samplers ⟨hsampler, hpast⟩
  · rintro ⟨hvectors, hsamplers⟩ budget ⟨hchecked, hpast⟩
    cases budget with
    | samplers => exact Nat.not_le.mpr hpast (hsamplers hchecked)
    | vectors => exact Nat.not_le.mpr hpast hvectors

end RegisterUse

theorem StageLimits.exists_vectorLimit {limits : StageLimits}
    (h : limits.reservedVectors.toNat + limits.maxVectors.toNat ≤ maxWord) :
    ∃ limit, limits.vectorLimit = .ok limit ∧ limit.toNat = limits.limit .vectors := by
  have hok : limits.vectorLimit = .ok (limits.reservedVectors + limits.maxVectors) := if_pos h
  exact ⟨_, hok, vectorLimit_eq_ok hok⟩

theorem RegisterUse.violation_eq {limits : Limits} (use : RegisterUse)
    (hlimit : (limits.get use.stage).reservedVectors.toNat +
      (limits.get use.stage).maxVectors.toNat ≤ maxWord) :
    use.violation limits =
      .ok ((use.failure? limits .samplers).or (use.failure? limits .vectors)) := by
  obtain ⟨limit, hlimit, hword⟩ := StageLimits.exists_vectorLimit hlimit
  have hsamplers := use.samplerEnd_exceeds_iff limits
  have hvectors : limit < clampWord (use.register.toNat + use.entry.registerCount.toNat) ↔
      use.Exceeds limits .vectors := by
    rw [UInt32.lt_iff_toNat_lt, hword]
    simp [Exceeds, isCheckedFor, charge]
  simp only [violation, UniformEntry.violation, hsamplers, hlimit]
  by_cases hpast : use.Exceeds limits .samplers
  · simp only [failure?, if_pos hpast]
    rfl
  · simp only [failure?, if_neg hpast, Option.none_or]
    change (if limit < clampWord (use.register.toNat + use.entry.registerCount.toNat) then _ else _) = _
    simp only [hvectors]
    split <;> rfl

theorem UniformTable.firstViolation_eq_findSome? {limits : Limits} (uses : List RegisterUse)
    (hlimits : ∀ stage, (limits.get stage).reservedVectors.toNat +
      (limits.get stage).maxVectors.toNat ≤ maxWord) :
    firstViolation limits uses = .ok (uses.findSome? fun use =>
      (use.failure? limits .samplers).or (use.failure? limits .vectors)) := by
  induction uses with
  | nil => rfl
  | cons use uses ih =>
    rw [firstViolation_cons, use.violation_eq (hlimits use.stage), List.findSome?_cons]
    cases (use.failure? limits .samplers).or (use.failure? limits .vectors) with
    | some error => rfl
    | none => exact ih

section Search

variable {α β γ : Type}

theorem findSome?_flatMap (f : β → Option γ) (g : α → List β) (xs : List α) :
    (xs.flatMap g).findSome? f = xs.findSome? fun x => (g x).findSome? f := by
  induction xs with
  | nil => rfl
  | cons x xs ih =>
    rw [List.flatMap_cons, List.findSome?_append, List.findSome?_cons, ih]
    cases (g x).findSome? f <;> rfl

/-- Searching a list in its order finds the least element that is found at all. -/
theorem findSome?_eq_some_of_pairwise {R : α → α → Prop} {f : α → Option β} {xs : List α}
    (hasymm : ∀ x y, R x y → ¬R y x) (hxs : xs.Pairwise R) (found : β) :
    xs.findSome? f = some found ↔ ∃ x ∈ xs, f x = some found ∧
      ∀ y ∈ xs, (f y).isSome = true → y = x ∨ R x y := by
  constructor
  · intro h
    obtain ⟨before, x, after, rfl, hfound, hbefore⟩ := List.findSome?_eq_some_iff.mp h
    refine ⟨x, by simp, hfound, ?_⟩
    intro y hy hsome
    have hafter := (List.pairwise_cons.mp (List.pairwise_append.mp hxs).2.1).1
    rcases List.mem_append.mp hy with hy | hy
    · rw [hbefore y hy] at hsome
      cases hsome
    · rcases List.mem_cons.mp hy with rfl | hy
      · exact .inl rfl
      · exact .inr (hafter y hy)
  · rintro ⟨x, hx, hfound, hfirst⟩
    obtain ⟨before, after, rfl⟩ := List.append_of_mem hx
    refine List.findSome?_eq_some_iff.mpr ⟨before, x, after, rfl, hfound, ?_⟩
    intro y hy
    have hbefore : R y x := (List.pairwise_append.mp hxs).2.2 y hy x List.mem_cons_self
    -- What is found in front of `x` would have to follow it as well.
    apply Option.not_isSome_iff_eq_none.mp
    intro hsome
    rcases hfirst y (List.mem_append_left _ hy) hsome with rfl | hafter
    · exact hasymm y y hbefore hbefore
    · exact hasymm y x hbefore hafter

end Search

/-- One check that is made of a table: of the entry at an index, for a register that it has in a
stage, against a budget of the stage. -/
structure RegisterCheck where
  index : Nat
  use : RegisterUse
  budget : Budget
  deriving DecidableEq, Repr

namespace RegisterCheck

/-- The order of checks: entry by entry, the vertex stage before the fragment stage, samplers before
vectors. -/
def Precedes (first second : RegisterCheck) : Prop :=
  first.index < second.index ∨ first.index = second.index ∧
    (first.use.stage = .vertex ∧ second.use.stage = .fragment ∨
      first.use.stage = second.use.stage ∧ first.budget = .samplers ∧ second.budget = .vectors)

instance (first second : RegisterCheck) : Decidable (first.Precedes second) :=
  inferInstanceAs (Decidable (_ ∨ _))

/-- A check is made for each register that an entry of the default block has. Members of blocks are
not checked. -/
structure IsMade (check : RegisterCheck) (table : UniformTable) : Prop where
  entry_eq : table[check.index]? = some check.use.entry
  default : check.use.entry.block = none
  register_eq : check.use.entry.registers.get check.use.stage = some check.use.register

theorem Precedes.asymm {first second : RegisterCheck} (h : first.Precedes second) :
    ¬second.Precedes first := by
  unfold Precedes at *
  grind

def ofEntry (index : Nat) (u : UniformEntry) : List RegisterCheck :=
  if u.isInDefaultBlock then
    u.uses.flatMap fun use => [⟨index, use, .samplers⟩, ⟨index, use, .vectors⟩]
  else []

def ofTable (first : Nat) (table : UniformTable) : List RegisterCheck :=
  (table.zipIdx first).flatMap fun found => ofEntry found.2 found.1

end RegisterCheck

theorem UniformEntry.mem_uses {u : UniformEntry} {use : RegisterUse} :
    use ∈ u.uses ↔ use.entry = u ∧ u.registers.get use.stage = some use.register := by
  obtain ⟨entry, stage, register⟩ := use
  constructor
  · intro h
    obtain ⟨other, -, hfound⟩ := List.mem_filterMap.mp h
    obtain ⟨given, hgiven, huse⟩ := Option.map_eq_some_iff.mp hfound
    cases huse
    exact ⟨rfl, hgiven⟩
  · rintro ⟨rfl, hregister⟩
    refine List.mem_filterMap.mpr ⟨stage, by cases stage <;> simp, ?_⟩
    rw [hregister]
    rfl

namespace RegisterCheck

theorem mem_ofEntry {check : RegisterCheck} {index : Nat} {u : UniformEntry} :
    check ∈ ofEntry index u ↔ check.index = index ∧ check.use.entry = u ∧ u.block = none ∧
      u.registers.get check.use.stage = some check.use.register := by
  obtain ⟨place, use, budget⟩ := check
  by_cases hdefault : u.block = none
  · cases budget <;> simp [ofEntry, UniformEntry.isInDefaultBlock, hdefault,
      UniformEntry.mem_uses, and_comm, and_assoc]
  · simp [ofEntry, UniformEntry.isInDefaultBlock, hdefault]

theorem mem_ofTable {check : RegisterCheck} {table : UniformTable} :
    check ∈ ofTable 0 table ↔ check.IsMade table := by
  constructor
  · intro h
    obtain ⟨⟨u, index⟩, hfound, hcheck⟩ := List.mem_flatMap.mp h
    have hentry := List.mem_zipIdx_iff_getElem?.mp hfound
    obtain ⟨rfl, rfl, hdefault, hregister⟩ := mem_ofEntry.mp hcheck
    exact ⟨hentry, hdefault, hregister⟩
  · intro h
    refine List.mem_flatMap.mpr ⟨(check.use.entry, check.index), ?_, ?_⟩
    · exact List.mem_zipIdx_iff_getElem?.mpr h.entry_eq
    · exact mem_ofEntry.mpr ⟨rfl, rfl, h.default, h.register_eq⟩

theorem pairwise_ofEntry (index : Nat) (u : UniformEntry) :
    (ofEntry index u).Pairwise Precedes := by
  unfold ofEntry
  split
  case isFalse => exact .nil
  case isTrue =>
    cases hvertex : u.registers.vertex <;> cases hfragment : u.registers.fragment <;>
      simp [UniformEntry.uses, PerStage.get, hvertex, hfragment, Precedes]

theorem pairwise_ofTable (table : UniformTable) : (ofTable 0 table).Pairwise Precedes := by
  refine List.pairwise_flatMap.mpr ⟨fun found _ => pairwise_ofEntry found.2 found.1, ?_⟩
  have hindexes : (table.zipIdx.map Prod.snd).Pairwise (· < ·) := by
    rw [List.zipIdx_map_snd]
    exact List.pairwise_lt_range' 1
  refine (List.pairwise_map.mp hindexes).imp ?_
  intro found later hlt check hcheck other hother
  left
  rwa [(mem_ofEntry.mp hcheck).1, (mem_ofEntry.mp hother).1]

theorem findSome?_ofTable {β : Type} (f : RegisterUse → Budget → Option β) (first : Nat)
    (table : UniformTable) :
    (ofTable first table).findSome? (fun check => f check.use check.budget) =
      table.uses.findSome? fun use => (f use .samplers).or (f use .vectors) := by
  induction table generalizing first with
  | nil => rfl
  | cons u table ih =>
    have hchecks : ofTable first (u :: table) = ofEntry first u ++ ofTable (first + 1) table := by
      simp [ofTable]
    have huses : UniformTable.uses (u :: table) =
        (if u.isInDefaultBlock then u.uses else []) ++ UniformTable.uses table := by
      cases hdefault : u.isInDefaultBlock <;> simp [UniformTable.uses, hdefault]
    rw [hchecks, huses, List.findSome?_append, List.findSome?_append, ih, ofEntry]
    apply congrArg (Option.or · _)
    split
    case isTrue =>
      rw [findSome?_flatMap]
      apply congrArg (List.findSome? · u.uses)
      funext use
      cases hsamplers : f use .samplers <;> simp [hsamplers]
    case isFalse => rfl

end RegisterCheck

namespace UniformTable

theorem validate_eq_findSome? {limits : Limits} (table : UniformTable)
    (hlimits : ∀ stage, (limits.get stage).reservedVectors.toNat +
      (limits.get stage).maxVectors.toNat ≤ maxWord) :
    table.validate limits = .ok ((RegisterCheck.ofTable 0 table).findSome? fun check =>
      check.use.failure? limits check.budget) := by
  rw [validate, firstViolation_eq_findSome? _ hlimits,
    RegisterCheck.findSome?_ofTable (fun use budget => use.failure? limits budget)]

/-- The check of a table reports the violation that is first in the order of checks, and nothing
else. -/
theorem validate_first (table : UniformTable) {limits : Limits}
    (hlimits : ∀ stage, (limits.get stage).reservedVectors.toNat +
      (limits.get stage).maxVectors.toNat ≤ maxWord) :
    (∃ result, table.validate limits = .ok result) ∧
    (table.validate limits = .ok none ↔ ∀ u ∈ table, u.block = none → ∀ stage register,
      u.registers.get stage = some register →
        min (register.toNat + u.registerCount.toNat) maxWord ≤
            (limits.get stage).reservedVectors.toNat + (limits.get stage).maxVectors.toNat ∧
        (u.type.isSampler = true → min (register.toNat + u.elementCount) maxWord ≤
          (limits.get stage).maxSamplers.toNat)) ∧
    ∀ error, table.validate limits = .ok (some error) ↔ ∃ check : RegisterCheck,
      check.IsMade table ∧ check.use.Exceeds limits check.budget ∧
      (∀ other : RegisterCheck, other.IsMade table → other.use.Exceeds limits other.budget →
        other = check ∨ check.Precedes other) ∧
      error = check.use.error limits check.budget := by
  have hvalidate := table.validate_eq_findSome? hlimits
  refine ⟨⟨_, hvalidate⟩, ?_, fun error => ?_⟩
  · rw [hvalidate, Except.ok.injEq, List.findSome?_eq_none_iff]
    constructor
    · intro hnone u hu hdefault stage register hregister
      obtain ⟨index, hindex⟩ := List.mem_iff_getElem?.mp hu
      apply (RegisterUse.forall_not_exceeds_iff ⟨u, stage, register⟩ limits).mp
      intro budget
      apply RegisterUse.failure?_eq_none.mp
      exact hnone ⟨index, ⟨u, stage, register⟩, budget⟩
        (RegisterCheck.mem_ofTable.mpr ⟨hindex, hdefault, hregister⟩)
    · intro hall check hcheck
      obtain ⟨hentry, hdefault, hregister⟩ := RegisterCheck.mem_ofTable.mp hcheck
      have hfits := hall _ (List.mem_of_getElem? hentry) hdefault _ _ hregister
      exact RegisterUse.failure?_eq_none.mpr
        ((check.use.forall_not_exceeds_iff limits).mpr hfits check.budget)
  · rw [hvalidate, Except.ok.injEq, findSome?_eq_some_of_pairwise
      (fun _ _ => RegisterCheck.Precedes.asymm) (RegisterCheck.pairwise_ofTable table)]
    simp only [RegisterCheck.mem_ofTable, RegisterUse.failure?_eq_some, RegisterUse.isSome_failure?]
    constructor
    · rintro ⟨check, hmade, ⟨hexceeds, herror⟩, hfirst⟩
      exact ⟨check, hmade, hexceeds, hfirst, herror⟩
    · rintro ⟨check, hmade, hexceeds, hfirst, herror⟩
      exact ⟨check, hmade, ⟨hexceeds, herror⟩, hfirst⟩

def albedoEntry : UniformEntry :=
  { UniformEntry.unused "albedo" (.sampler .flat) 4 none .unassigned with
    registers := ⟨some 0, some 4294967295⟩ }

/-- A member of a block, which is not checked, a vector that just fits, and two violations. -/
def crowdedTable : UniformTable :=
  [{ UniformEntry.unused "member" (.vector .float .four) 0 (some 0) .unassigned with
      registers := ⟨some 4000, none⟩, registerCount := 4000 },
    { UniformEntry.unused "viewport" (.vector .float .four) 0 none .unassigned with
      registers := ⟨some 255, none⟩ },
    albedoEntry,
    { UniformEntry.unused "lights" (.vector .float .four) 300 none .unassigned with
      registers := ⟨some 2, none⟩ }]

theorem validate_first_crowdedTable :
    (∀ stage, (Limits.d3d9.get stage).reservedVectors.toNat +
      (Limits.d3d9.get stage).maxVectors.toNat ≤ maxWord) ∧
    validate (crowdedTable.take 2) .d3d9 = .ok none ∧
    crowdedTable.validate .d3d9 =
      .ok (some (.tooManySamplers .fragment "albedo" 4294967295 16)) := by
  have hlimits : ∀ stage, (Limits.d3d9.get stage).reservedVectors.toNat +
      (Limits.d3d9.get stage).maxVectors.toNat ≤ maxWord := by
    intro stage
    cases stage <;> decide
  refine ⟨hlimits, ?_, ?_⟩
  · apply (validate_first _ hlimits).2.1.mpr
    intro u hu hdefault stage register hregister
    simp only [crowdedTable, List.take, List.mem_cons, List.not_mem_nil, or_false] at hu
    rcases hu with rfl | rfl
    · cases hdefault
    · cases stage <;> cases hregister
      decide
  · apply ((validate_first crowdedTable hlimits).2.2 _).mpr
    let first : RegisterCheck := ⟨2, ⟨albedoEntry, .fragment, 4294967295⟩, .samplers⟩
    have hfirst : ∀ other ∈ RegisterCheck.ofTable 0 crowdedTable,
        other.use.Exceeds .d3d9 other.budget → other = first ∨ first.Precedes other := by
      decide +kernel
    refine ⟨first, ⟨rfl, rfl, rfl⟩, by decide, fun other hmade => ?_, rfl⟩
    exact hfirst other (RegisterCheck.mem_ofTable.mpr hmade)

end UniformTable

end ShaderInterface
