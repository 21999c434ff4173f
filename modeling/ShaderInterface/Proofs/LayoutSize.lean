import Mathlib.Logic.Function.Iterate
import ShaderInterface.Proofs.Components
import ShaderInterface.Proofs.OversizedLayout

namespace ShaderInterface

open Position

theorem roundUp_mono {m n alignment : Nat} (ha : 0 < alignment) (h : m ≤ n) :
    roundUp m alignment ≤ roundUp n alignment :=
  roundUp_le ha (dvd_roundUp n alignment) (Nat.le_trans h (le_roundUp n ha))

namespace Shape

/-- A value that starts at a position crosses into no other register: a matrix or an array starts a
register, and a vector ends in the register where it starts. -/
def FitsAt (shape : Shape) (position : Nat) : Prop :=
  if shape.isCompound then element position = 0
  else element position + shape.componentCount ≤ registerWidth

variable {shape : Shape}

theorem fitsAt_roundUp (h : shape.WellFormed) (position : Nat) :
    shape.FitsAt (roundUp position registerWidth) := by
  have hround : element (roundUp position registerWidth) = 0 :=
    Nat.mod_eq_zero_of_dvd (dvd_roundUp position registerWidth)
  unfold FitsAt
  split
  case isTrue => exact hround
  case isFalse hsingle =>
    have hmatrix : shape.isMatrix = false := by simp_all [isCompound]
    rw [hround, Nat.zero_add, ← vectorWidth_of_not_isMatrix hmatrix]
    exact vectorWidth_le h

end Shape

namespace Rule

variable {shape : Shape}

/-- No rule starts a value where it would cross into another register. -/
theorem fitsAt_startAt (rule : Rule) (h : shape.WellFormed) (position : Nat) :
    shape.FitsAt (rule.startAt shape position) := by
  rcases rule with _ | _ | _
  · cases hcompound : shape.isCompound with
    | true =>
      have hstart : std140.startAt shape position = roundUp position registerWidth := by
        simp [startAt, Shape.baseAlignment, hcompound]
      rw [hstart]
      exact Shape.fitsAt_roundUp h position
    | false =>
      -- The alignment of a vector is its width, or a register for three components.
      have hmatrix : shape.isMatrix = false := by simp_all [Shape.isCompound]
      have hpos := Shape.vectorWidth_pos h
      have hle := Shape.vectorWidth_le h
      rw [Shape.vectorWidth_of_not_isMatrix hmatrix] at hpos hle
      have hwidth : shape.componentCount = 1 ∨ shape.componentCount = 2 ∨
          shape.componentCount = 3 ∨ shape.componentCount = 4 := by
        unfold registerWidth at hle
        omega
      unfold Shape.FitsAt startAt Shape.baseAlignment element roundUp registerWidth
      simp only [hcompound, Bool.false_eq_true, if_false]
      rcases hwidth with hw | hw | hw | hw <;> simp only [hw] <;> simp <;> omega
  · simp only [startAt]
    split
    case isTrue => exact Shape.fitsAt_roundUp h position
    case isFalse hstays =>
      rw [not_or, Bool.not_eq_true] at hstays
      rw [Shape.FitsAt, if_neg (by simp [hstays.1])]
      omega
  · exact Shape.fitsAt_roundUp h position

/-- Packing starts a value at the first place where it crosses into no other register. -/
theorem startAt_packed_le {position start : Nat} (hle : position ≤ start)
    (hfits : shape.FitsAt start) : (hlsl .packed).startAt shape position ≤ start := by
  have hnext (hregister : element start = 0) : roundUp position registerWidth ≤ start :=
    roundUp_le (by decide) (Nat.dvd_of_mod_eq_zero hregister) hle
  simp only [startAt]
  split
  case isFalse => exact hle
  case isTrue hmoved =>
    unfold Shape.FitsAt at hfits
    split at hfits
    case isTrue => exact hnext hfits
    case isFalse hsingle =>
      -- From here on the rest of the register is too short.
      have hcrosses := hmoved.resolve_left hsingle
      unfold roundUp element registerWidth at *
      omega

theorem startAt_packed_le_startAt (rule : Rule) (h : shape.WellFormed) {p q : Nat} (hpq : p ≤ q) :
    (hlsl .packed).startAt shape p ≤ rule.startAt shape q :=
  startAt_packed_le (Nat.le_trans hpq (rule.le_startAt h q)) (rule.fitsAt_startAt h q)

theorem extent_packed_le (rule : Rule) (h : shape.WellFormed) :
    (hlsl .packed).extent shape ≤ rule.extent shape := by
  have hpos := Shape.vectorTotal_pos h
  have hwidth := Shape.vectorWidth_le h
  rcases rule with _ | _ | _
  · simp only [extent]
    split
    case isTrue =>
      unfold registerWidth at *
      omega
    case isFalse hsingle =>
      have hmatrix : shape.isMatrix = false := by simp_all [Shape.isCompound]
      have harray : shape.isArray = false := by simp_all [Shape.isCompound]
      have hone : shape.vectorTotal = 1 := by
        rw [Shape.vectorTotal, Shape.vectorCount_of_not_isMatrix hmatrix,
          Shape.elementCount_of_not_isArray harray]
      rw [hone, Shape.vectorWidth_of_not_isMatrix hmatrix]
      omega
  · exact Nat.le_refl _
  · simp only [extent]
    split
    · exact Nat.le_refl _
    · exact Nat.add_le_add_left hwidth _

theorem place_packed_le {rule : Rule} {p q : Nat} {placement : Placement} (h : shape.WellFormed)
    (hpq : p ≤ q) (hq : q ≤ last) (hplace : rule.place shape q = .ok placement) :
    ∃ packed, (hlsl .packed).place shape p = .ok packed ∧ packed.finish ≤ placement.finish := by
  have hstart := rule.startAt_packed_le_startAt h hpq
  have hextent := rule.extent_packed_le h
  rw [place_eq rule h hq] at hplace
  split at hplace
  case isFalse => cases hplace
  case isTrue hfits =>
    cases hplace
    refine ⟨_, by rw [place_eq _ h (Nat.le_trans hpq hq), if_pos (Nat.le_trans hstart hfits)], ?_⟩
    dsimp only
    unfold advance
    omega

theorem runStep_packed_le {rule : Rule} {p q : Nat} {step : LayoutStep}
    {result : Option PlacedMember × Nat} (hw : step.WellFormed) (hpq : p ≤ q) (hq : q ≤ last)
    (h : rule.runStep q step = .ok result) :
    ∃ packed, (hlsl .packed).runStep p step = .ok packed ∧ packed.2 ≤ result.2 := by
  cases step with
  | place shape =>
    obtain ⟨placement, hplace, h⟩ := bind_eq_ok.mp h
    cases h
    obtain ⟨packed, hpacked, hle⟩ := place_packed_le hw hpq hq hplace
    refine ⟨(some ⟨p, packed⟩, packed.finish), ?_, hle⟩
    rw [runStep, hpacked]
    rfl
  | skip shape =>
    obtain ⟨finish, hskip, h⟩ := bind_eq_ok.mp h
    cases h
    obtain ⟨placement, hplace, hfinish⟩ := bind_eq_ok.mp hskip
    cases hfinish
    obtain ⟨packed, hpacked, hle⟩ := place_packed_le hw hpq hq hplace
    refine ⟨(none, packed.finish), ?_, hle⟩
    rw [runStep, skip, hpacked]
    rfl
  | enter =>
    obtain ⟨finish, henter, h⟩ := bind_eq_ok.mp h
    cases h
    obtain ⟨rfl, hfits⟩ := nextRegister_eq_ok henter
    have hle := roundUp_mono (show 0 < registerWidth by decide) hpq
    refine ⟨(none, roundUp p registerWidth), ?_, hle⟩
    rw [runStep, enter, nextRegister_of_le (Nat.le_trans hle hfits)]
    rfl
  | exit =>
    obtain ⟨finish, hexit, h⟩ := bind_eq_ok.mp h
    cases h
    exact ⟨(none, p), rfl, Nat.le_trans hpq (exit_bounds hq hexit).1⟩
  | skipRegisters count =>
    cases h
    refine ⟨(none, skipRegisters p count), rfl, ?_⟩
    dsimp only
    unfold skipRegisters advance
    omega

theorem runSteps_packed_le {rule : Rule} {p q : Nat} {steps : List LayoutStep}
    {result : List PlacedMember × Nat} (hw : ∀ step ∈ steps, step.WellFormed) (hpq : p ≤ q)
    (hq : q ≤ last) (h : rule.runSteps q steps = .ok result) :
    ∃ packed, (hlsl .packed).runSteps p steps = .ok packed ∧ packed.2 ≤ result.2 := by
  induction steps generalizing p q result with
  | nil =>
    cases h
    exact ⟨([], p), rfl, hpq⟩
  | cons step steps ih =>
    obtain ⟨⟨member, next⟩, hstep, h⟩ := bind_eq_ok.mp h
    obtain ⟨⟨members, finish⟩, hrest, h⟩ := bind_eq_ok.mp h
    cases h
    have hwell := hw step List.mem_cons_self
    obtain ⟨-, hnext, -⟩ := runStep_bounds hwell hq hstep
    obtain ⟨first, hfirst, hle⟩ := runStep_packed_le hwell hpq hq hstep
    obtain ⟨rest, hpacked, hend⟩ :=
      ih (fun s hs => hw s (List.mem_cons_of_mem _ hs)) hle hnext hrest
    refine ⟨(first.1.toList ++ rest.1, rest.2), ?_, hend⟩
    rw [runSteps, hfirst]
    change (hlsl .packed).runSteps first.2 steps >>= _ = _
    rw [hpacked]
    rfl

theorem exists_runSteps_of_append {rule : Rule} {position : Nat} {first second : List LayoutStep}
    {result : List PlacedMember × Nat} (h : rule.runSteps position (first ++ second) = .ok result) :
    ∃ reached, rule.runSteps position first = .ok reached := by
  induction first generalizing position result with
  | nil => exact ⟨([], position), rfl⟩
  | cons step steps ih =>
    obtain ⟨⟨member, next⟩, hstep, h⟩ := bind_eq_ok.mp h
    obtain ⟨rest, hrest, -⟩ := bind_eq_ok.mp h
    obtain ⟨reached, hreached⟩ := ih hrest
    refine ⟨(member.toList ++ reached.1, reached.2), ?_⟩
    rw [runSteps, hstep]
    change rule.runSteps next steps >>= _ = _
    rw [hreached]
    rfl

end Rule

def Visit.layoutStep : Visit → LayoutStep
  | .enter => .enter
  | .leaf found => .skip found.registerShape
  | .exit => .exit

theorem Visit.wellFormed_layoutStep (visit : Visit) : visit.layoutStep.WellFormed := by
  cases visit with
  | enter => exact trivial
  | leaf found => exact found.wellFormed_registerShape
  | exit => exact trivial

theorem Rule.runSteps_layoutStep (rule : Rule) (visits : List Visit) (position : Nat) :
    rule.runSteps position (visits.map Visit.layoutStep) =
      visits.foldlM rule.measure.step position >>= fun finish => .ok ([], finish) := by
  have hstep (visit : Visit) (position : Nat) : rule.runStep position visit.layoutStep =
      rule.measure.step position visit >>= fun next => .ok (none, next) := by
    cases visit <;> rfl
  induction visits generalizing position with
  | nil => rfl
  | cons visit visits ih =>
    rw [List.map_cons, runSteps, hstep, List.foldlM_cons]
    cases rule.measure.step position visit with
    | error fault => rfl
    | ok next =>
      change rule.runSteps next (visits.map Visit.layoutStep) >>= _ = _
      rw [ih]
      change _ = visits.foldlM rule.measure.step next >>= _
      cases visits.foldlM rule.measure.step next <;> rfl

namespace Variable

theorem endOf_packed_le {rule : Rule} {v : Variable} {finish : Nat}
    (h : rule.endOf v 0 = .ok finish) :
    ∃ packed, (Rule.hlsl .packed).endOf v 0 = .ok packed ∧ packed ≤ finish := by
  have hwell : ∀ step ∈ (v.visits (.root v.name) false).map Visit.layoutStep, step.WellFormed := by
    intro step hstep
    obtain ⟨visit, -, rfl⟩ := List.mem_map.mp hstep
    exact visit.wellFormed_layoutStep
  have hrun : rule.runSteps 0 ((v.visits (.root v.name) false).map Visit.layoutStep) =
      .ok ([], finish) := by
    rw [Rule.endOf, Walk.run_eq_foldlM] at h
    rw [Rule.runSteps_layoutStep, h]
    rfl
  obtain ⟨packed, hpacked, hle⟩ :=
    Rule.runSteps_packed_le hwell (Nat.le_refl 0) (Nat.zero_le last) hrun
  rw [Rule.runSteps_layoutStep] at hpacked
  obtain ⟨packedEnd, hfold, hend⟩ := bind_eq_ok.mp hpacked
  cases hend
  exact ⟨packedEnd, by rw [Rule.endOf, Walk.run_eq_foldlM, hfold], hle⟩

end Variable

theorem Position.bytes_mono {p q : Nat} (h : p ≤ q) : bytes p ≤ bytes q := by
  unfold bytes componentBytes
  omega

theorem Position.registersBefore_mono {p q : Nat} (h : p ≤ q) :
    (registersBefore p).toNat ≤ (registersBefore q).toNat := by
  have hbytes := bytes_mono h
  rw [registersBefore, registersBefore, toNat_registersForBytes, toNat_registersForBytes]
  omega

/-- Packing needs no more space than any rule, after each step of a run. -/
theorem packed_smallest :
    (∀ (rule : Rule) (steps : List LayoutStep) (result : List PlacedMember × Nat),
      (∀ step ∈ steps, step.WellFormed) → rule.runSteps 0 steps = .ok result →
      ∀ done, done <+: steps → ∃ packed other, (Rule.hlsl .packed).runSteps 0 done = .ok packed ∧
        rule.runSteps 0 done = .ok other ∧ bytes packed.2 ≤ bytes other.2) ∧
    ∀ (v : Variable) (count : UInt32), uniformRegisters .hlsl9 v = .ok count →
      ∃ packed, uniformRegisters .hlsl11 v = .ok packed ∧ packed.toNat ≤ count.toNat := by
  constructor
  · rintro rule steps result hw h done ⟨rest, rfl⟩
    obtain ⟨other, hother⟩ := Rule.exists_runSteps_of_append h
    obtain ⟨packed, hpacked, hle⟩ := Rule.runSteps_packed_le
      (fun step hstep => hw step (List.mem_append_left _ hstep)) (Nat.le_refl 0) (Nat.zero_le last)
      hother
    exact ⟨packed, other, hpacked, hother, bytes_mono hle⟩
  · intro v count h
    obtain ⟨packing, hpacking, h⟩ := bind_eq_ok.mp h
    cases hpacking
    obtain ⟨finish, hfinish, h⟩ := bind_eq_ok.mp h
    cases h
    obtain ⟨packed, hpacked, hle⟩ := Variable.endOf_packed_le hfinish
    refine ⟨registersBefore packed, ?_, registersBefore_mono hle⟩
    change (Rule.hlsl .packed).endOf v 0 >>= _ = _
    rw [hpacked]
    rfl

/-- An array of structs of two vectors that share a register only when they are packed. -/
def pairsUniform : Variable :=
  .struct ⟨"pairs", 2, false, true⟩
    [.basic ⟨"weight", 0, false, true⟩ (.vector .float .one),
      .basic ⟨"axis", 0, false, true⟩ (.vector .float .three)]

theorem packed_smallest_mixedSteps :
    (∃ packed other, (Rule.hlsl .packed).runSteps 0 mixedSteps = .ok packed ∧
      (Rule.hlsl .loose).runSteps 0 mixedSteps = .ok other ∧ bytes packed.2 ≤ bytes other.2) ∧
    (∃ packed other, (Rule.hlsl .packed).runSteps 0 mixedSteps = .ok packed ∧
      Rule.std140.runSteps 0 mixedSteps = .ok other ∧ bytes packed.2 ≤ bytes other.2) ∧
    ∃ packed, uniformRegisters .hlsl11 pairsUniform = .ok packed ∧ packed.toNat ≤ 4 := by
  have hwell : ∀ step ∈ mixedSteps, step.WellFormed := by decide
  refine ⟨?_, ?_, packed_smallest.2 pairsUniform 4 rfl⟩
  · exact packed_smallest.1 (.hlsl .loose) mixedSteps _ hwell rfl mixedSteps (List.prefix_refl _)
  · exact packed_smallest.1 .std140 mixedSteps _ hwell rfl mixedSteps (List.prefix_refl _)

namespace Variable

mutual

/-- Where a variable ends that is laid out from a position, in unbounded numbers. The elements of a
struct are laid out one behind the other, each from the start of a register. -/
def exactEnd (rule : Rule) : Variable → Nat → Nat
  | .basic decl type, position =>
    rule.startAt (type.shape decl.arraySize false) position +
      rule.extent (type.shape decl.arraySize false)
  | .struct decl fields, position =>
    (fun position => rule.exitAt (exactFieldsEnd rule fields (roundUp position registerWidth)))^[
      decl.elementCount] position

def exactFieldsEnd (rule : Rule) : List Variable → Nat → Nat
  | [], position => position
  | f :: fs, position => exactFieldsEnd rule fs (exactEnd rule f position)

end

theorem endAt_elementRun_iterate {rule : Rule} {rowMajor : Bool} {fields : List Variable}
    (hfields : ∀ path position, rule.endAt Leaf.registerShape (fieldVisits path rowMajor fields)
      position = exactFieldsEnd rule fields position)
    (path : Path) (decl : Declarator) (first count position : Nat) :
    rule.endAt Leaf.registerShape (elementRun path rowMajor decl fields first count) position =
      (fun position => rule.exitAt (exactFieldsEnd rule fields (roundUp position registerWidth)))^[
        count] position := by
  induction count generalizing first position with
  | zero => rfl
  | succ count ih =>
    rw [elementRun_succ, Rule.endAt_append, ih, Function.iterate_succ_apply,
      Rule.endAt_elementVisits, hfields]

mutual

/-- A walk leads to the exact end, wherever the variable stands. -/
theorem endAt_visits (rule : Rule) (path : Path) (rowMajor : Bool) (v : Variable) (position : Nat) :
    rule.endAt Leaf.registerShape (v.visits path rowMajor) position = v.exactEnd rule position := by
  cases v with
  | basic decl type => rw [visits, exactEnd]; rfl
  | struct decl fields =>
    rw [visits_struct, exactEnd]
    exact endAt_elementRun_iterate
      (fun path position => endAt_fieldVisits rule path (rowMajor || decl.rowMajor) fields position)
      path decl 0 decl.elementCount position

theorem endAt_fieldVisits (rule : Rule) (path : Path) (rowMajor : Bool) (fields : List Variable)
    (position : Nat) :
    rule.endAt Leaf.registerShape (fieldVisits path rowMajor fields) position =
      exactFieldsEnd rule fields position := by
  cases fields with
  | nil => rw [fieldVisits, exactFieldsEnd]; rfl
  | cons f fs =>
    rw [fieldVisits, exactFieldsEnd, Rule.endAt_append, endAt_visits, endAt_fieldVisits]

end

end Variable

theorem Rule.foldlM_measure_of_le {rule : Rule} {visits : List Visit} {position : Nat}
    (h : rule.endAt Leaf.registerShape visits position ≤ last) :
    visits.foldlM rule.measure.step position =
      .ok (rule.endAt Leaf.registerShape visits position) := by
  induction visits generalizing position with
  | nil => rfl
  | cons visit visits ih =>
    -- The walk never leads back, so that no step of it leaves the positions.
    have hmove := Nat.le_trans (le_endAt Leaf.wellFormed_registerShape visits _) h
    have hstep : rule.measure.step position visit =
        .ok (rule.moveAt Leaf.registerShape position visit) := by
      cases visit with
      | enter => exact nextRegister_of_le hmove
      | leaf leaf => exact skip_of_le leaf.wellFormed_registerShape hmove
      | exit => exact exit_of_le hmove
    rw [List.foldlM_cons, hstep]
    exact ih h

/-- The registers before a position are exact up to the largest word: bytes that cannot be numbered
are in registers that cannot be either. -/
theorem Position.toNat_registersBefore {position : Nat} (h : position ≤ last) :
    (registersBefore position).toNat = min ((position + 3) / 4) maxWord := by
  rw [registersBefore, toNat_registersForBytes]
  unfold bytes componentBytes maxWord last at *
  omega

/-- A layout whose exact end is a position ends there, under every rule and from every position. -/
theorem endOf_exact (rule : Rule) (v : Variable) (position : Nat)
    (h : v.exactEnd rule position ≤ last) :
    rule.endOf v position = .ok (v.exactEnd rule position) ∧
      (registersBefore (v.exactEnd rule position)).toNat =
        min ((v.exactEnd rule position + 3) / 4) maxWord := by
  have hend : rule.endAt Leaf.registerShape (v.visits (.root v.name) false) position ≤ last := by
    rw [Variable.endAt_visits]
    exact h
  refine ⟨?_, toNat_registersBefore h⟩
  rw [Rule.endOf, Walk.run_eq_foldlM, Rule.foldlM_measure_of_le hend, Variable.endAt_visits]

theorem exactEnd_matrixStructs (packing : Packing) :
    (matrixStructs 0x10000000).exactEnd (.hlsl packing) 0 = 0x10000000 * (16 * maxWord) := by
  have hend := Variable.endAt_elementRun (.root "s") (matrixStructs 0x10000000).decl
    (endAt_matrixStructs_fields packing 0x10000000) 0 0x10000000 0
  rw [← Variable.endAt_visits _ (.root "s") false, matrixStructs, Variable.visits_struct]
  refine hend.trans ?_
  unfold registerWidth
  omega

theorem endOf_exact_matrixStructs :
    0x10000000 * (16 * maxWord) ≤ last ∧ last < 4 * (0x10000000 * (16 * maxWord)) ∧
      (Rule.hlsl .packed).endOf (matrixStructs 0x10000000) 0 = .ok (0x10000000 * (16 * maxWord)) ∧
      (registersBefore (0x10000000 * (16 * maxWord))).toNat = maxWord := by
  have hfits : 0x10000000 * (16 * maxWord) ≤ last := by decide
  have hexact := endOf_exact (.hlsl .packed) (matrixStructs 0x10000000) 0
    (by rw [exactEnd_matrixStructs]; exact hfits)
  rw [exactEnd_matrixStructs] at hexact
  exact ⟨hfits, by decide, hexact.1, hexact.2.trans (by decide)⟩

end ShaderInterface
