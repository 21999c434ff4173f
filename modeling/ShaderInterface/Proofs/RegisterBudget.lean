import ShaderInterface.Link.Budget
import ShaderInterface.Proofs.StageSpans

namespace ShaderInterface

open Position

def RegisterUse.violation (use : RegisterUse) (limits : Limits) : Except Fault (Option LinkError) :=
  use.entry.violation use.stage use.register (limits.get use.stage)

namespace UniformEntry

/-- An entry ends past some number of samplers, from its register in a stage. -/
def passesSamplers (u : UniformEntry) (stage : Stage) (limit : UInt32) : Bool :=
  (u.registers.get stage).any fun register => limit < clampWord (register.toNat + u.elementCount)

def passesVectors (u : UniformEntry) (stage : Stage) (limit : UInt32) : Bool :=
  (u.registers.get stage).any fun register =>
    limit < clampWord (register.toNat + u.registerCount.toNat)

end UniformEntry

namespace UniformTable

theorem firstViolation_cons (limits : Limits) (use : RegisterUse) (uses : List RegisterUse) :
    firstViolation limits (use :: uses) = (do
      match ← use.violation limits with
      | some error => return some error
      | none => firstViolation limits uses) := rfl

theorem firstViolation_eq_none {limits : Limits} {uses : List RegisterUse} :
    firstViolation limits uses = .ok none ↔ ∀ use ∈ uses, use.violation limits = .ok none := by
  induction uses with
  | nil => exact ⟨fun _ use huse => absurd huse List.not_mem_nil, fun _ => rfl⟩
  | cons use uses ih =>
    rw [firstViolation_cons, List.forall_mem_cons, ← ih, bind_eq_ok]
    constructor
    · rintro ⟨found, hfound, h⟩
      cases found with
      | none => exact ⟨hfound, h⟩
      | some error => cases h
    · rintro ⟨hfound, h⟩
      exact ⟨none, hfound, h⟩

theorem firstViolation_eq_some {limits : Limits} {uses : List RegisterUse} {error : LinkError}
    (h : firstViolation limits uses = .ok (some error)) :
    ∃ before use after, uses = before ++ use :: after ∧
      (∀ earlier ∈ before, earlier.violation limits = .ok none) ∧
      use.violation limits = .ok (some error) := by
  induction uses with
  | nil => cases h
  | cons use uses ih =>
    rw [firstViolation_cons] at h
    obtain ⟨found, hfound, h⟩ := bind_eq_ok.mp h
    cases found with
    | none =>
      obtain ⟨before, first, after, rfl, hbefore, hfirst⟩ := ih h
      exact ⟨use :: before, first, after, rfl, List.forall_mem_cons.mpr ⟨hfound, hbefore⟩, hfirst⟩
    | some error' =>
      cases h
      exact ⟨[], use, uses, rfl, fun _ hm => absurd hm List.not_mem_nil, hfound⟩

end UniformTable

namespace LeafSpan

def samplerEnd (span : LeafSpan) : Nat :=
  min (Position.register span.noted + span.leaf.decl.elementCount) maxWord

def vectorEnd (span : LeafSpan) : Nat :=
  min (Position.register span.noted + span.leaf.registersCharged) maxWord

def use (span : LeafSpan) (stage : Stage) : RegisterUse := ⟨span.linked stage, stage, span.register⟩

theorem uses_map_linked (spans : List LeafSpan) (stage : Stage) :
    UniformTable.uses (spans.map (·.linked stage)) = spans.map (·.use stage) := by
  induction spans with
  | nil => rfl
  | cons span spans ih =>
    have huses : (span.linked stage).uses = [span.use stage] := by cases stage <;> rfl
    rw [List.map_cons, List.map_cons, ← ih]
    exact congrArg (· ++ UniformTable.uses (spans.map (·.linked stage))) huses

theorem displacement_le_one (span : LeafSpan) : span.displacement ≤ 1 := by
  unfold displacement
  split <;> decide

theorem toNat_clampWord_samplers (span : LeafSpan) (stage : Stage) :
    (clampWord (span.register.toNat + (span.linked stage).elementCount)).toNat = span.samplerEnd := by
  have hcount : (span.linked stage).elementCount = span.leaf.decl.elementCount := rfl
  rw [toNat_clampWord, register, toNat_clampWord, hcount, samplerEnd]
  omega

theorem toNat_clampWord_vectors (span : LeafSpan) (stage : Stage) :
    (clampWord (span.register.toNat + (span.linked stage).registerCount.toNat)).toNat =
      span.vectorEnd := by
  have hcount : (span.linked stage).registerCount = clampWord span.leaf.registersCharged := rfl
  rw [toNat_clampWord, register, toNat_clampWord, hcount, toNat_clampWord, vectorEnd]
  omega

theorem passesSamplers_linked (span : LeafSpan) (stage : Stage) (limit : UInt32) :
    (span.linked stage).passesSamplers stage limit = true ↔ limit.toNat < span.samplerEnd := by
  rw [UniformEntry.passesSamplers, register_linked, Option.any_some, decide_eq_true_iff,
    UInt32.lt_iff_toNat_lt, toNat_clampWord_samplers]

theorem passesVectors_linked (span : LeafSpan) (stage : Stage) (limit : UInt32) :
    (span.linked stage).passesVectors stage limit = true ↔ limit.toNat < span.vectorEnd := by
  rw [UniformEntry.passesVectors, register_linked, Option.any_some, decide_eq_true_iff,
    UInt32.lt_iff_toNat_lt, toNat_clampWord_vectors]

variable {stage : Stage} {limits : Limits} {limit : UInt32}

theorem violation_use_of_sampler {span : LeafSpan} (hsampler : span.leaf.type.isSampler = true)
    (hpast : (limits.get stage).maxSamplers.toNat < span.samplerEnd) :
    ∃ last, (span.use stage).violation limits =
      .ok (some (.tooManySamplers stage span.name last (limits.get stage).maxSamplers)) := by
  rw [← span.toNat_clampWord_samplers stage] at hpast
  refine ⟨_, if_pos ⟨hsampler, UInt32.lt_iff_toNat_lt.mpr hpast⟩⟩

theorem violation_use (span : LeafSpan) (hlimit : (limits.get stage).vectorLimit = .ok limit)
    (hunits : span.leaf.type.isSampler = true →
      span.samplerEnd ≤ (limits.get stage).maxSamplers.toNat) :
    ∃ last, (span.use stage).violation limits =
      .ok (if limit.toNat < span.vectorEnd then
        some (.tooManyUniforms stage span.name last (limits.get stage).maxVectors) else none) := by
  have hfree : ¬((span.linked stage).type.isSampler = true ∧ (limits.get stage).maxSamplers <
      clampWord (span.register.toNat + (span.linked stage).elementCount)) := by
    rintro ⟨hsampler, hpast⟩
    rw [UInt32.lt_iff_toNat_lt, toNat_clampWord_samplers] at hpast
    exact absurd (hunits hsampler) (Nat.not_le.mpr hpast)
  refine ⟨clampWord (span.register.toNat + (span.linked stage).registerCount.toNat), ?_⟩
  change (span.linked stage).violation stage span.register (limits.get stage) = _
  unfold UniformEntry.violation
  rw [if_neg hfree]
  rw [hlimit, ← span.toNat_clampWord_vectors stage]
  simp only [← UInt32.lt_iff_toNat_lt]
  change (if limit < clampWord (span.register.toNat + (span.linked stage).registerCount.toNat)
    then _ else _) = _
  split <;> rfl

theorem violation_use_eq_none {span : LeafSpan} (hlimit : (limits.get stage).vectorLimit = .ok limit) :
    (span.use stage).violation limits = .ok none ↔
      (span.leaf.type.isSampler = true →
        span.samplerEnd ≤ (limits.get stage).maxSamplers.toNat) ∧
      span.vectorEnd ≤ limit.toNat := by
  by_cases hunits : span.leaf.type.isSampler = true →
      span.samplerEnd ≤ (limits.get stage).maxSamplers.toNat
  · obtain ⟨last, hviolation⟩ := span.violation_use hlimit hunits
    rw [hviolation]
    by_cases hpast : limit.toNat < span.vectorEnd
    · rw [if_pos hpast]
      exact ⟨fun h => (by cases h), fun h => absurd h.2 (Nat.not_le.mpr hpast)⟩
    · rw [if_neg hpast]
      exact ⟨fun _ => ⟨hunits, Nat.le_of_not_lt hpast⟩, fun _ => rfl⟩
  · obtain ⟨hsampler, hpast⟩ := Classical.not_imp.mp hunits
    obtain ⟨last, hviolation⟩ :=
      @violation_use_of_sampler stage limits span hsampler (Nat.lt_of_not_le hpast)
    rw [hviolation]
    exact ⟨fun h => (by cases h), fun h => absurd h.1 hunits⟩

theorem violation_use_eq_samplers {span : LeafSpan} {name : String} {last max : UInt32}
    (hlimit : (limits.get stage).vectorLimit = .ok limit)
    (h : (span.use stage).violation limits = .ok (some (.tooManySamplers stage name last max))) :
    span.leaf.type.isSampler = true ∧ (limits.get stage).maxSamplers.toNat < span.samplerEnd := by
  by_cases hunits : span.leaf.type.isSampler = true →
      span.samplerEnd ≤ (limits.get stage).maxSamplers.toNat
  · obtain ⟨_, hviolation⟩ := span.violation_use hlimit hunits
    rw [hviolation] at h
    split at h <;> cases h
  · obtain ⟨hsampler, hpast⟩ := Classical.not_imp.mp hunits
    exact ⟨hsampler, Nat.lt_of_not_le hpast⟩

/-- The check blames the samplers of a stage if one of them is past the units and nothing before it is
past the vectors. -/
theorem firstViolation_eq_samplers {spans : List LeafSpan}
    (hlimit : (limits.get stage).vectorLimit = .ok limit) :
    (∃ name last max, UniformTable.firstViolation limits (spans.map (·.use stage)) =
        .ok (some (.tooManySamplers stage name last max))) ↔
      ∃ before span after, spans = before ++ span :: after ∧
        (∀ earlier ∈ before, earlier.vectorEnd ≤ limit.toNat) ∧
        span.leaf.type.isSampler = true ∧
        (limits.get stage).maxSamplers.toNat < span.samplerEnd := by
  constructor
  · rintro ⟨name, last, max, h⟩
    obtain ⟨before, use, after, hsplit, hbefore, huse⟩ := UniformTable.firstViolation_eq_some h
    obtain ⟨earlier, rest, rfl, rfl, hrest⟩ := List.map_eq_append_iff.mp hsplit
    obtain ⟨span, later, rfl, rfl, rfl⟩ := List.map_eq_cons_iff.mp hrest
    refine ⟨earlier, span, later, rfl, ?_, violation_use_eq_samplers hlimit huse⟩
    intro other hother
    exact ((violation_use_eq_none hlimit).mp
      (hbefore _ (List.mem_map.mpr ⟨other, hother, rfl⟩))).2
  · rintro ⟨before, span, after, rfl, hbefore, hsampler, hpast⟩
    induction before with
    | nil =>
      obtain ⟨last, hviolation⟩ := violation_use_of_sampler hsampler hpast
      rw [List.nil_append, List.map_cons, UniformTable.firstViolation_cons, hviolation]
      exact ⟨_, last, _, rfl⟩
    | cons earlier before ih =>
      obtain ⟨hearlier, hbefore⟩ := List.forall_mem_cons.mp hbefore
      rw [List.cons_append, List.map_cons, UniformTable.firstViolation_cons]
      by_cases hunits : earlier.leaf.type.isSampler = true →
          earlier.samplerEnd ≤ (limits.get stage).maxSamplers.toNat
      · rw [(violation_use_eq_none hlimit).mpr ⟨hunits, hearlier⟩]
        exact ih hbefore
      · -- An earlier sampler is past the units as well, and is the one to be blamed.
        obtain ⟨hsampler, hpast⟩ := Classical.not_imp.mp hunits
        obtain ⟨last, hviolation⟩ := violation_use_of_sampler hsampler (Nat.lt_of_not_le hpast)
        rw [hviolation]
        exact ⟨_, last, _, rfl⟩

end LeafSpan

theorem Variable.isStruct_of_sampler_leaf {v : Variable} {leaf : Leaf} (hv : v.isSampler = false)
    (hleaf : leaf ∈ v.leaves) (hsampler : leaf.type.isSampler = true) : v.isStruct = true := by
  cases v with
  | struct decl fields => rfl
  | basic decl type =>
    obtain rfl : leaf = ⟨.root decl.name, false, decl, type⟩ := List.mem_singleton.mp hleaf
    exact absurd hsampler (by simpa [isSampler, type?] using hv)

namespace Leaf

/-- Only a matrix whose sides differ is charged for other registers than those it is stored in. -/
theorem registersCharged_eq {leaf : Leaf}
    (h : leaf.type.isMatrix = true → leaf.type.rows = leaf.type.columns) :
    leaf.registersCharged = leaf.registersStored := by
  have hcount : leaf.registerShape.vectorCount = leaf.type.rows := by
    cases hm : leaf.type.isMatrix with
    | true =>
      rw [h hm]
      exact leaf.type.vectorCount_shape _ false hm
    | false =>
      have hrows : leaf.type.rows = 1 := by
        cases ht : leaf.type with
        | vector kind width => rfl
        | matrix columns rows =>
          rw [ht] at hm
          cases hm
        | sampler s => rfl
      rw [hrows]
      exact Shape.vectorCount_of_not_isMatrix ((leaf.type.isMatrix_shape _ false).trans hm)
  rw [registersCharged, registersStored, Shape.vectorTotal, hcount]
  rfl

theorem spanAt_of_dvd (leaf : Leaf) (packing : Packing) {position : Nat}
    (h : registerWidth ∣ position) :
    (leaf.spanAt packing position).noted = position ∧
      (leaf.spanAt packing position).displacement = 0 := by
  have hround := roundUp_of_dvd (show 0 < registerWidth by decide) h
  have hnoted : leaf.noteAt position = position := by
    unfold noteAt
    split
    · exact hround
    · rfl
  have hstart : (Rule.hlsl packing).startAt leaf.registerShape position = position := by
    rcases Rule.startAt_hlsl packing leaf.registerShape position with hs | hs
    · exact hs
    · exact hs.trans hround
  refine ⟨hnoted, if_pos ?_⟩
  exact hstart.trans hnoted.symm

end Leaf

namespace Grant

variable {packing : Packing} {g : Grant}

theorem ends_of_isSampler (h : g.uniform.isSampler = true) {span : LeafSpan}
    (hspan : span ∈ g.spans packing) :
    span.leaf.type.isSampler = true ∧ span.samplerEnd = g.finish packing ∧
      span.vectorEnd = g.finish packing := by
  obtain ⟨v, base⟩ := g
  cases v with
  | struct decl fields => cases h
  | basic decl type =>
    cases type with
    | vector kind width => cases h
    | matrix columns rows => cases h
    | sampler s =>
      let leaf : Leaf := ⟨.root decl.name, false, decl, .sampler s⟩
      have hmin : min (registerWidth * base.toNat) last = registerWidth * base.toNat := by
        have hbase := base.toNat_lt
        unfold last registerWidth
        omega
      have honly : Grant.spans ⟨.basic decl (.sampler s), base⟩ packing =
          [leaf.spanAt packing (registerWidth * base.toNat)] := by
        rw [← hmin]
        rfl
      obtain ⟨last, hlast, hend⟩ := Variable.exists_endRegister_eq packing base
        (show (Variable.basic decl (.sampler s)).leaves ≠ [] from List.cons_ne_nil _ _)
      change last ∈ Grant.spans ⟨.basic decl (.sampler s), base⟩ packing at hlast
      rw [honly, List.mem_singleton] at hspan hlast
      obtain ⟨hnoted, hmoved⟩ :=
        leaf.spanAt_of_dvd packing (Nat.dvd_mul_right registerWidth base.toNat)
      have hcharged : leaf.registersCharged = decl.elementCount := Nat.one_mul _
      have hstored : leaf.registersStored = decl.elementCount := Nat.one_mul _
      have hplace := leaf.endRegister_spanAt packing (registerWidth * base.toNat)
      have hregister : Position.register (registerWidth * base.toNat) = base.toNat :=
        Nat.mul_div_cancel_left _ (by decide)
      have hword : maxWord < nextWhole Position.last := by decide
      rw [hnoted, hmoved, hstored, hregister] at hplace
      rw [hlast] at hend
      rw [hspan, LeafSpan.samplerEnd, LeafSpan.vectorEnd, hnoted, hregister, finish]
      refine ⟨rfl, ?_⟩
      change min (base.toNat + decl.elementCount) maxWord = _ ∧
        min (base.toNat + leaf.registersCharged) maxWord = _
      rw [hcharged]
      dsimp only
      omega

theorem leaf_mem {span : LeafSpan} (h : span ∈ g.spans packing) : span.leaf ∈ g.uniform.leaves := by
  rw [← g.uniform.map_leaf_spansAt packing g.base]
  exact List.mem_map.mpr ⟨span, h, rfl⟩

theorem leaves_ne_nil_of_isSampler (h : g.uniform.isSampler = true) : g.uniform.leaves ≠ [] := by
  obtain ⟨v, base⟩ := g
  cases v with
  | basic decl type => exact List.cons_ne_nil _ _
  | struct decl fields => cases h

/-- A leaf that is charged for the registers that it is stored in passes the check up to a limit if it
ends by then, or one register later and was moved on. -/
theorem vectorEnd_le_iff {span : LeafSpan} {limit : Nat} (hspan : span ∈ g.spans packing)
    (hcharged : span.leaf.registersCharged = span.leaf.registersStored) (hlimit : limit < maxWord) :
    span.vectorEnd ≤ limit ↔ span.endRegister ≤ limit + span.displacement := by
  obtain ⟨met, -, rfl⟩ := List.mem_map.mp hspan
  have hend := met.1.endRegister_spanAt packing (min met.2 last)
  have hone := (met.1.spanAt packing (min met.2 last)).displacement_le_one
  have hword : maxWord < nextWhole last := by decide
  rw [hend, LeafSpan.vectorEnd, hcharged]
  change min (_ + met.1.registersStored) _ ≤ _ ↔ _
  omega

variable {grants : List Grant} {file : Bool} {earlier later limit : Nat}

/-- All leaves of a file end by a limit, those that were moved on allowed one register more: then so does
the counter, unless it is one past the limit and every leaf there was moved on. -/
theorem endRegisters_le_iff (hreach : Reach grants packing file earlier later)
    (hfinish : ∀ g ∈ grants, g.uniform.isSampler = file → g.finish packing ≤ later)
    (hlimit : limit < maxWord) :
    (∀ g ∈ grants, g.uniform.isSampler = file → ∀ span ∈ g.spans packing,
        span.endRegister ≤ limit + span.displacement) ↔
      ((∃ g ∈ grants, g.uniform.isSampler = file ∧ g.uniform.leaves ≠ []) →
        later ≤ limit ∨ later = limit + 1 ∧
          ∀ g ∈ grants, g.uniform.isSampler = file → ∀ span ∈ g.spans packing,
            limit < span.endRegister → span.endRegister = limit + 1 ∧ span.displacement = 1) := by
  have hword : maxWord < nextWhole last := by decide
  constructor
  · rintro hall ⟨v, hv, hvfile, hleaves⟩
    rcases hreach with ⟨hnone, -⟩ | ⟨g, hg, hfile, hleaves, hlater⟩
    · exact absurd (hnone v hv hvfile) hleaves
    · -- The counter stands where the last leaf of the file ends.
      obtain ⟨span, hspan, hend⟩ := Variable.exists_endRegister_eq packing g.base hleaves
      have hspanEnd := hall g hg hfile span hspan
      have hone := span.displacement_le_one
      have hcounter : later = span.endRegister := by
        rw [hlater, finish, hend]
        omega
      by_cases hfits : later ≤ limit
      · exact .inl hfits
      · refine .inr ⟨by omega, ?_⟩
        intro other hother hotherFile moved hmoved hpast
        have hmovedEnd := hall other hother hotherFile moved hmoved
        have hmovedOne := moved.displacement_le_one
        omega
  · intro h other hother hfile span hspan
    have hcut := Variable.endRegister_le hspan
    have hother' := hfinish other hother hfile
    rw [finish] at hother'
    rcases h ⟨other, hother, hfile, List.ne_nil_of_mem (leaf_mem hspan)⟩ with hfits | ⟨-, hmoved⟩
    · omega
    · by_cases hpast : limit < span.endRegister
      · obtain ⟨hend, hone⟩ := hmoved other hother hfile span hspan hpast
        omega
      · omega

theorem finish_le_iff (hreach : Reach grants packing true earlier later)
    (hfinish : ∀ g ∈ grants, g.uniform.isSampler = true → g.finish packing ≤ later) :
    (∀ g ∈ grants, g.uniform.isSampler = true → g.finish packing ≤ limit) ↔
      ((∃ g ∈ grants, g.uniform.isSampler = true) → later ≤ limit) := by
  constructor
  · rintro hall ⟨v, hv, hvfile⟩
    rcases hreach with ⟨hnone, -⟩ | ⟨g, hg, hfile, -, hlater⟩
    · exact absurd (hnone v hv hvfile) (leaves_ne_nil_of_isSampler hvfile)
    · rw [hlater]
      exact hall g hg hfile
  · intro h g hg hfile
    exact Nat.le_trans (hfinish g hg hfile) (h ⟨g, hg, hfile⟩)

theorem Holds.forall_spans_iff {allocator : Allocator} (h : g.Holds packing allocator)
    (P : LeafSpan → Prop) :
    (∃ base spans, allocator.uniformRegister? g.uniform.name = some base ∧
        g.uniform.spansFrom allocator.output base = .ok spans ∧ ∀ span ∈ spans, P span) ↔
      ∀ span ∈ g.spans packing, P span := by
  constructor
  · rintro ⟨base, spans, hbase, hfrom, hall⟩
    rw [h.register_eq] at hbase
    cases hbase
    rw [h.spans_eq] at hfrom
    cases hfrom
    exact hall
  · intro hall
    exact ⟨_, _, h.register_eq, h.spans_eq, hall⟩

theorem violations_eq_none_iff {stage : Stage} {limits : Limits} {limit : UInt32}
    (hsquare : ∀ g ∈ grants, ∀ leaf ∈ g.uniform.leaves,
      leaf.type.isMatrix = true → leaf.type.rows = leaf.type.columns)
    (hnested : ∀ g ∈ grants, g.uniform.isStruct = true →
      ∀ leaf ∈ g.uniform.leaves, leaf.type.isSampler = false)
    (hlimit : (limits.get stage).vectorLimit = .ok limit) (hword : limit.toNat < maxWord) :
    (∀ g ∈ grants, ∀ span ∈ g.spans packing, (span.use stage).violation limits = .ok none) ↔
      (∀ g ∈ grants, g.uniform.isSampler = false → ∀ span ∈ g.spans packing,
        span.endRegister ≤ limit.toNat + span.displacement) ∧
      (∀ g ∈ grants, g.uniform.isSampler = true →
        g.finish packing ≤ (limits.get stage).maxSamplers.toNat) ∧
      ∀ g ∈ grants, g.uniform.isSampler = true → g.finish packing ≤ limit.toNat := by
  have hvector {g : Grant} (hg : g ∈ grants) {span : LeafSpan} (hspan : span ∈ g.spans packing) :=
    vectorEnd_le_iff hspan
      (Leaf.registersCharged_eq (hsquare g hg span.leaf (leaf_mem hspan))) hword
  constructor
  · intro hall
    have hpass {g : Grant} (hg : g ∈ grants) {span : LeafSpan} (hspan : span ∈ g.spans packing) :=
      (LeafSpan.violation_use_eq_none hlimit).mp (hall g hg span hspan)
    have hsampler {g : Grant} (hg : g ∈ grants) (hfile : g.uniform.isSampler = true) :
        g.finish packing ≤ (limits.get stage).maxSamplers.toNat ∧
          g.finish packing ≤ limit.toNat := by
      obtain ⟨span, hspan, -⟩ := Variable.exists_endRegister_eq packing g.base
        (leaves_ne_nil_of_isSampler hfile)
      obtain ⟨htype, hunits, hend⟩ := ends_of_isSampler hfile hspan
      exact ⟨hunits ▸ (hpass hg hspan).1 htype, hend ▸ (hpass hg hspan).2⟩
    refine ⟨?_, fun g hg hfile => (hsampler hg hfile).1, fun g hg hfile => (hsampler hg hfile).2⟩
    intro g hg _ span hspan
    exact (hvector hg hspan).mp (hpass hg hspan).2
  · rintro ⟨hends, hunits, hvectors⟩ g hg span hspan
    apply (LeafSpan.violation_use_eq_none hlimit).mpr
    cases hfile : g.uniform.isSampler with
    | false =>
      refine ⟨?_, (hvector hg hspan).mpr (hends g hg hfile span hspan)⟩
      intro hsampler
      have hstruct := Variable.isStruct_of_sampler_leaf hfile (leaf_mem hspan) hsampler
      rw [hnested g hg hstruct _ (leaf_mem hspan)] at hsampler
      cases hsampler
    | true =>
      obtain ⟨-, hsampler, hvector⟩ := ends_of_isSampler hfile hspan
      rw [hsampler, hvector]
      exact ⟨fun _ => hunits g hg hfile, hvectors g hg hfile⟩

end Grant

namespace UniformTable

variable {output : Output} {stage : Stage} {uniforms : List Variable} {table : UniformTable}
  {allocator : Allocator} {events : List Event} {limits : Limits} {limit : UInt32}

theorem validate_map_linked {packing : Packing} {grants : List Grant} :
    validate ((grants.flatMap (·.spans packing)).map (·.linked stage)) limits = .ok none ↔
      ∀ g ∈ grants, ∀ span ∈ g.spans packing, (span.use stage).violation limits = .ok none := by
  rw [validate, LeafSpan.uses_map_linked, firstViolation_eq_none]
  simp only [List.forall_mem_map, List.mem_flatMap]
  constructor
  · intro h g hg span hspan
    exact h span ⟨g, hg, hspan⟩
  · rintro h span ⟨g, hg, hspan⟩
    exact h g hg span hspan

theorem validate_map_linked_eq_samplers {spans : List LeafSpan}
    (hlimit : (limits.get stage).vectorLimit = .ok limit) :
    (∃ name last max, validate (spans.map (·.linked stage)) limits =
        .ok (some (.tooManySamplers stage name last max))) ↔
      ∃ before u after, spans.map (·.linked stage) = before ++ u :: after ∧
        (∀ earlier ∈ before, earlier.passesVectors stage limit = false) ∧
        u.type.isSampler = true ∧
        u.passesSamplers stage (limits.get stage).maxSamplers = true := by
  rw [validate, LeafSpan.uses_map_linked, LeafSpan.firstViolation_eq_samplers hlimit]
  constructor
  · rintro ⟨before, span, after, rfl, hbefore, hsampler, hpast⟩
    refine ⟨_, _, _, by rw [List.map_append, List.map_cons], ?_, hsampler,
      (span.passesSamplers_linked stage _).mpr hpast⟩
    intro u hu
    obtain ⟨earlier, hearlier, rfl⟩ := List.mem_map.mp hu
    apply Bool.eq_false_iff.mpr
    intro hvectors
    have hpasses := (earlier.passesVectors_linked stage limit).mp hvectors
    exact absurd (hbefore earlier hearlier) (Nat.not_le.mpr hpasses)
  · rintro ⟨before, u, after, hsplit, hbefore, hsampler, hpast⟩
    obtain ⟨first, rest, rfl, rfl, hrest⟩ := List.map_eq_append_iff.mp hsplit
    obtain ⟨span, later, rfl, rfl, rfl⟩ := List.map_eq_cons_iff.mp hrest
    refine ⟨first, span, later, rfl, ?_, hsampler, (span.passesSamplers_linked stage _).mp hpast⟩
    intro earlier hearlier
    have hfits := hbefore _ (List.mem_map.mpr ⟨earlier, hearlier, rfl⟩)
    apply Nat.le_of_not_lt
    intro hpasses
    rw [(earlier.passesVectors_linked stage limit).mpr hpasses] at hfits
    cases hfits

/-- Where matrices are square and no struct holds a sampler, the check passes if the counter of each
file that is used is within the limit, and also if the vector counter is one past it and all leaves
that end there were moved on from the register where they were noted. -/
theorem linkStage_validate_iff (ho : output.isHlsl = true)
    (hnames : ((usedUniforms uniforms).map Variable.name).Nodup)
    (hleaves : (leafNames (usedUniforms uniforms)).Nodup)
    (hsquare : ∀ v ∈ usedUniforms uniforms, ∀ leaf ∈ v.leaves,
      leaf.type.isMatrix = true → leaf.type.rows = leaf.type.columns)
    (hnested : ∀ v ∈ usedUniforms uniforms, v.isStruct = true →
      ∀ leaf ∈ v.leaves, leaf.type.isSampler = false)
    (h : linkStage stage uniforms [] (.start output stage) = .ok ⟨(table, allocator), events⟩)
    (hlimit : (limits.get stage).vectorLimit = .ok limit) (hword : limit.toNat < maxWord) :
    table.validate limits = .ok none ↔
      ((∃ v ∈ usedUniforms uniforms, v.isSampler = false ∧ v.leaves ≠ []) →
        allocator.vectors ≤ limit ∨ allocator.vectors.toNat = limit.toNat + 1 ∧
          ∀ v ∈ usedUniforms uniforms, v.isSampler = false →
            ∃ base spans, allocator.uniformRegister? v.name = some base ∧
              v.spansFrom output base = .ok spans ∧
              ∀ span ∈ spans, limit.toNat < span.endRegister →
                span.endRegister = limit.toNat + 1 ∧ span.displacement = 1) ∧
      ((∃ v ∈ usedUniforms uniforms, v.isSampler = true) →
        allocator.samplers ≤ (limits.get stage).maxSamplers ∧ allocator.samplers ≤ limit) := by
  obtain ⟨packing, grants, rfl, huniforms, hholds, hreach, rfl⟩ :=
    linkStage_start_grants ho hnames hleaves h
  rw [← huniforms] at hsquare hnested ⊢
  simp only [List.forall_mem_map] at hsquare hnested ⊢
  obtain ⟨firstVector, hvectors⟩ := hreach false
  obtain ⟨firstSampler, hsamplers⟩ := hreach true
  have hfinish (file : Bool) : ∀ g ∈ grants, g.uniform.isSampler = file →
      g.finish packing ≤ (allocator.nextFor file).toNat := by
    intro g hg hfile
    rw [← hfile]
    exact (hholds g hg).finish_le
  have hspans (g : Grant) (hg : g ∈ grants) :=
    (hholds g hg).forall_spans_iff fun span => limit.toNat < span.endRegister →
      span.endRegister = limit.toNat + 1 ∧ span.displacement = 1
  rw [validate_map_linked, Grant.violations_eq_none_iff hsquare hnested hlimit hword,
    Grant.endRegisters_le_iff hvectors (hfinish false) hword,
    Grant.finish_le_iff hsamplers (hfinish true), Grant.finish_le_iff hsamplers (hfinish true),
    ← imp_and, forall₂_congr fun g hg => imp_congr_right fun _ => hspans g hg]
  have hexists (P : Variable → Prop) :
      (∃ v ∈ grants.map Grant.uniform, P v) ↔ ∃ g ∈ grants, P g.uniform := by
    constructor
    · rintro ⟨v, hv, hP⟩
      obtain ⟨g, hg, rfl⟩ := List.mem_map.mp hv
      exact ⟨g, hg, hP⟩
    · rintro ⟨g, hg, hP⟩
      exact ⟨g.uniform, List.mem_map.mpr ⟨g, hg, rfl⟩, hP⟩
  rw [hexists, hexists]
  simp only [UInt32.le_iff_toNat_le]
  rfl

/-- A struct with a leaf that is moved on, square matrices, samplers, and a uniform that is not used. -/
def sceneUniforms : List Variable :=
  [lightUniform,
    .basic ⟨"bones", 2, false, true⟩ (.matrix .four .four),
    .basic ⟨"shadows", 3, false, true⟩ (.sampler .flatShadow),
    .basic ⟨"unused", 0, false, false⟩ (.matrix .two .three),
    .basic ⟨"sky", 0, false, true⟩ (.sampler .cube)]

theorem linkStage_validate_sceneUniforms :
    ∃ table allocator events,
      linkStage .vertex sceneUniforms [] (.start .hlsl11 .vertex) =
        .ok ⟨(table, allocator), events⟩ ∧
      allocator.vectors = 10 ∧ allocator.samplers = 4 ∧ table.validate .d3d11 = .ok none := by
  have hrun : (linkStage .vertex sceneUniforms [] (.start .hlsl11 .vertex)).toOption.map
      (fun linked => (linked.value.2.vectors, linked.value.2.samplers)) = some (10, 4) := by
    decide +kernel
  cases h : linkStage .vertex sceneUniforms [] (.start .hlsl11 .vertex) with
  | error fault =>
    rw [h] at hrun
    cases hrun
  | ok linked =>
    obtain ⟨⟨table, allocator⟩, events⟩ := linked
    rw [h] at hrun
    obtain ⟨hvectors, hsamplers⟩ : allocator.vectors = 10 ∧ allocator.samplers = 4 := by
      simpa [Except.toOption] using hrun
    refine ⟨table, allocator, events, rfl, hvectors, hsamplers, ?_⟩
    apply (linkStage_validate_iff rfl (by decide) (by decide) (by decide) (by decide) h
      (show (Limits.d3d11.get .vertex).vectorLimit = .ok 1024 from rfl) (by decide)).mpr
    rw [hvectors, hsamplers]
    exact ⟨fun _ => .inl (by decide), fun _ => by decide⟩

/-- Two registers are given out where the device has one, and the check passes. -/
theorem validate_lightUniform :
    ∃ table allocator events,
      linkStage .vertex [lightUniform] [] (.start .hlsl11 .vertex) =
        .ok ⟨(table, allocator), events⟩ ∧
      allocator.vectors = 2 ∧ StageLimits.vectorLimit ⟨0, 1, 2, 12, 16⟩ = .ok 1 ∧
      table.validate { Limits.d3d11 with vertex := ⟨0, 1, 2, 12, 16⟩ } = .ok none :=
  ⟨_, _, _, rfl, by decide +kernel, rfl, rfl⟩

/-- A sampler in a struct has registers of the vector file: it is blamed without a want of sampler
registers if it is past the sampler units, and nothing before it is past the vectors. -/
theorem linkStage_samplerError_iff (ho : output.isHlsl = true)
    (hnames : ((usedUniforms uniforms).map Variable.name).Nodup)
    (hleaves : (leafNames (usedUniforms uniforms)).Nodup)
    (h : linkStage stage uniforms [] (.start output stage) = .ok ⟨(table, allocator), events⟩)
    (hlimit : (limits.get stage).vectorLimit = .ok limit) :
    ((∃ name last max,
        table.validate limits = .ok (some (.tooManySamplers stage name last max))) →
      (limits.get stage).maxSamplers < allocator.samplers) ↔
    ((limits.get stage).maxSamplers < allocator.samplers ∨
      ∀ before u after, table = before ++ u :: after →
        u.name ∈ leafNames ((usedUniforms uniforms).filter Variable.isStruct) →
        u.type.isSampler = true → u.passesSamplers stage (limits.get stage).maxSamplers = true →
        ∃ earlier ∈ before, earlier.passesVectors stage limit = true) := by
  obtain ⟨packing, grants, rfl, huniforms, hholds, -, rfl⟩ :=
    linkStage_start_grants ho hnames hleaves h
  rw [validate_map_linked_eq_samplers hlimit]
  by_cases hcounter : (limits.get stage).maxSamplers < allocator.samplers
  · exact ⟨fun _ => .inl hcounter, fun _ _ => hcounter⟩
  constructor
  · intro hblame
    refine .inr ?_
    intro before u after htable _ hsampler hpast
    apply Classical.byContradiction
    intro hnone
    apply hcounter
    refine hblame ⟨before, u, after, htable, ?_, hsampler, hpast⟩
    intro earlier hearlier
    apply Bool.eq_false_iff.mpr
    intro hvectors
    exact hnone ⟨earlier, hearlier, hvectors⟩
  · rintro (hunits | hstructs) ⟨before, u, after, htable, hbefore, hsampler, hpast⟩
    · exact hunits
    have hu : u ∈ before ++ u :: after := List.mem_append_right _ List.mem_cons_self
    rw [← htable] at hu
    obtain ⟨span, hmem, rfl⟩ := List.mem_map.mp hu
    obtain ⟨g, hg, hspan⟩ := List.mem_flatMap.mp hmem
    cases hfile : g.uniform.isSampler with
    | true =>
      -- A sampler of its own ends where its uniform does, which is by the counter.
      have hend := (span.passesSamplers_linked stage _).mp hpast
      have hfinish := (hholds g hg).finish_le
      rw [(Grant.ends_of_isSampler hfile hspan).2.1] at hend
      rw [hfile] at hfinish
      exact UInt32.lt_iff_toNat_lt.mpr (Nat.lt_of_lt_of_le hend hfinish)
    | false =>
      have hleaf := Grant.leaf_mem hspan
      have hstruct := Variable.isStruct_of_sampler_leaf hfile hleaf hsampler
      have hused : g.uniform ∈ usedUniforms uniforms := by
        rw [← huniforms]
        exact List.mem_map.mpr ⟨g, hg, rfl⟩
      have hname : span.name ∈ leafNames ((usedUniforms uniforms).filter Variable.isStruct) :=
        List.mem_flatMap.mpr ⟨g.uniform, List.mem_filter.mpr ⟨hused, hstruct⟩,
          List.mem_map.mpr ⟨span.leaf, hleaf, rfl⟩⟩
      obtain ⟨earlier, hearlier, hvectors⟩ := hstructs before _ after htable hname hsampler hpast
      rw [hbefore earlier hearlier] at hvectors
      cases hvectors

theorem linkStage_samplerError_litUniforms :
    ∃ table allocator events,
      linkStage .fragment litUniforms [] (.start .hlsl9 .fragment) =
        .ok ⟨(table, allocator), events⟩ ∧
      (((∃ name last max,
          table.validate .d3d9 = .ok (some (.tooManySamplers .fragment name last max))) →
        (Limits.d3d9.get .fragment).maxSamplers < allocator.samplers) ↔
      ((Limits.d3d9.get .fragment).maxSamplers < allocator.samplers ∨
        ∀ before u after, table = before ++ u :: after →
          u.name ∈ leafNames ((usedUniforms litUniforms).filter Variable.isStruct) →
          u.type.isSampler = true →
          u.passesSamplers .fragment (Limits.d3d9.get .fragment).maxSamplers = true →
          ∃ earlier ∈ before, earlier.passesVectors .fragment 224 = true)) := by
  obtain ⟨⟨⟨table, allocator⟩, events⟩, h⟩ := exists_eq_ok
    (show (linkStage .fragment litUniforms [] (.start .hlsl9 .fragment)).isOk = true by
      decide +kernel)
  exact ⟨table, allocator, events, h, linkStage_samplerError_iff rfl (by decide) (by decide) h rfl⟩

def texturedUniforms : List Variable :=
  [.basic ⟨"pad", 16, false, true⟩ (.vector .float .four),
    .struct ⟨"material", 0, false, true⟩ [.basic ⟨"albedo", 0, false, true⟩ (.sampler .flat)]]

/-- The check blames a sampler although no sampler register is used. -/
theorem validate_texturedUniforms :
    ∃ table allocator events,
      linkStage .vertex texturedUniforms [] (.start .hlsl11 .vertex) =
        .ok ⟨(table, allocator), events⟩ ∧
      allocator.samplers = 0 ∧
      table.validate .d3d11 = .ok (some (.tooManySamplers .vertex "material.albedo" 17 16)) :=
  ⟨_, _, _, rfl, by decide +kernel, rfl⟩

end UniformTable

end ShaderInterface
