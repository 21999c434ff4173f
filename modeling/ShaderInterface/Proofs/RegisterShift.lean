import ShaderInterface.Proofs.LayoutSize
import ShaderInterface.Proofs.WalkEnds

namespace ShaderInterface

open Position

def Placement.shift (registers : Nat) (placement : Placement) : Placement where
  shape := placement.shape
  start := placement.start + registerWidth * registers
  finish := placement.finish + registerWidth * registers

def PlacedMember.shift (registers : Nat) (member : PlacedMember) : PlacedMember where
  before := member.before + registerWidth * registers
  placement := member.placement.shift registers

def Member.shift (registers : Nat) (member : Member) : Member :=
  { member with placement := member.placement.shift registers }

def Visit.placeStep : Visit → LayoutStep
  | .enter => .enter
  | .leaf found => .place found.registerShape
  | .exit => .exit

/-- The steps that lay out a variable as measuring does, and say where its leaves are. -/
def Variable.placeSteps (v : Variable) : List LayoutStep :=
  (v.visits (.root v.name) false).map Visit.placeStep

namespace Rule

variable {rule : Rule}

def placedAt (rule : Rule) (met : Leaf × Nat) : PlacedMember where
  before := met.2
  placement :=
    ⟨met.1.registerShape, rule.startAt met.1.registerShape met.2,
      rule.startAt met.1.registerShape met.2 + rule.extent met.1.registerShape⟩

theorem runStep_placeStep {position : Nat} {visit : Visit}
    (h : rule.moveAt Leaf.registerShape position visit ≤ last) :
    rule.runStep position visit.placeStep =
      .ok (visit.leaf?.map fun leaf => rule.placedAt (leaf, position),
        rule.moveAt Leaf.registerShape position visit) := by
  cases visit with
  | enter =>
    rw [Visit.placeStep, runStep, enter, nextRegister_of_le h]
    rfl
  | leaf leaf =>
    rw [Visit.placeStep, runStep, place_of_le rule leaf.wellFormed_registerShape h]
    rfl
  | exit =>
    rw [Visit.placeStep, runStep, exit_of_le h]
    rfl

theorem runSteps_placeStep {visits : List Visit} {position : Nat}
    (h : rule.endAt Leaf.registerShape visits position ≤ last) :
    rule.runSteps position (visits.map Visit.placeStep) =
      .ok ((rule.reached Leaf.registerShape visits position).map rule.placedAt,
        rule.endAt Leaf.registerShape visits position) := by
  induction visits generalizing position with
  | nil => rfl
  | cons visit visits ih =>
    have hmove := Nat.le_trans (le_endAt Leaf.wellFormed_registerShape visits _) h
    have hrest := ih h
    rw [List.map_cons, runSteps, runStep_placeStep hmove]
    change rule.runSteps (rule.moveAt Leaf.registerShape position visit) _ >>= _ = _
    rw [hrest, reached_cons, List.map_append]
    cases visit <;> rfl

section

variable (registers : Nat)

theorem endAt_shift {shapeOf : Leaf → Shape} (hs : ∀ leaf, (shapeOf leaf).WellFormed)
    (visits : List Visit) (position : Nat) :
    rule.endAt shapeOf visits (position + registerWidth * registers) =
      rule.endAt shapeOf visits position + registerWidth * registers := by
  rw [Nat.add_comm position, endAt_add hs (Nat.dvd_mul_right ..), Nat.add_comm]

theorem reached_shift {shapeOf : Leaf → Shape} (hs : ∀ leaf, (shapeOf leaf).WellFormed)
    (visits : List Visit) (position : Nat) :
    rule.reached shapeOf visits (position + registerWidth * registers) =
      (rule.reached shapeOf visits position).map fun met =>
        (met.1, registerWidth * registers + met.2) := by
  rw [Nat.add_comm position, reached_add hs (Nat.dvd_mul_right ..)]

theorem placedAt_shift (met : Leaf × Nat) :
    rule.placedAt (met.1, registerWidth * registers + met.2) =
      (rule.placedAt met).shift registers := by
  have hstart := rule.startAt_add met.1.wellFormed_registerShape
    (Nat.dvd_mul_right registerWidth registers) met.2
  simp only [placedAt, PlacedMember.shift, Placement.shift, hstart, PlacedMember.mk.injEq,
    Placement.mk.injEq, true_and]
  omega

theorem memberAt_shift (met : Leaf × Nat) :
    rule.memberAt (met.1, registerWidth * registers + met.2) =
      (rule.memberAt met).shift registers := by
  have hstart := rule.startAt_add met.1.wellFormed_memberShape
    (Nat.dvd_mul_right registerWidth registers) met.2
  simp only [memberAt, Member.shift, Placement.shift, hstart, Member.mk.injEq, Placement.mk.injEq,
    true_and]
  omega

theorem measure_shift {v : Variable} {position : Nat}
    (h : v.exactEnd rule (position + registerWidth * registers) ≤ last) :
    ∃ placed finish,
      rule.endOf v position = .ok finish ∧
      rule.endOf v (position + registerWidth * registers) =
        .ok (finish + registerWidth * registers) ∧
      rule.runSteps position v.placeSteps = .ok (placed, finish) ∧
      rule.runSteps (position + registerWidth * registers) v.placeSteps =
        .ok (placed.map (PlacedMember.shift registers), finish + registerWidth * registers) := by
  rw [← Variable.endAt_visits rule (.root v.name) false] at h
  have hend := @endAt_shift rule registers _ Leaf.wellFormed_registerShape
    (v.visits (.root v.name) false) position
  have hnear : rule.endAt Leaf.registerShape (v.visits (.root v.name) false) position ≤ last := by
    omega
  have hmeasure := foldlM_measure_of_le h
  have hplaces := runSteps_placeStep h
  rw [hend] at hmeasure
  rw [hend, reached_shift registers Leaf.wellFormed_registerShape, List.map_map] at hplaces
  refine ⟨_, _, ?_, ?_, runSteps_placeStep hnear, ?_⟩
  · rw [endOf, Walk.run_eq_foldlM, foldlM_measure_of_le hnear]
  · rw [endOf, Walk.run_eq_foldlM, hmeasure]
  · rw [Variable.placeSteps, hplaces, List.map_map]
    simp only [Function.comp_def, placedAt_shift]

theorem layoutMembers_shift {scope : String} {rowMajor : Bool} {fields : List Variable}
    {position : Nat}
    (h : rule.endAt Leaf.memberShape (Variable.fieldVisits (.root scope) rowMajor fields)
      (position + registerWidth * registers) ≤ last) :
    ∃ members finish,
      rule.layoutMembers scope rowMajor fields position = .ok (members, finish) ∧
      rule.layoutMembers scope rowMajor fields (position + registerWidth * registers) =
        .ok (members.map (Member.shift registers), finish + registerWidth * registers) := by
  have hend := @endAt_shift rule registers _ Leaf.wellFormed_memberShape
    (Variable.fieldVisits (.root scope) rowMajor fields) position
  have hnear : rule.endAt Leaf.memberShape (Variable.fieldVisits (.root scope) rowMajor fields)
      position ≤ last := by
    omega
  have hlayout := layoutMembers_of_le h
  rw [hend, reached_shift registers Leaf.wellFormed_memberShape, List.map_map] at hlayout
  refine ⟨_, _, layoutMembers_of_le hnear, ?_⟩
  rw [hlayout, List.map_map]
  simp only [Function.comp_def, memberAt_shift]

end

end Rule

namespace Leaf

variable (leaf : Leaf) (packing : Packing) (registers position : Nat)

theorem noted_spanAt_add :
    (leaf.spanAt packing (registerWidth * registers + position)).noted =
      registerWidth * registers + (leaf.spanAt packing position).noted :=
  leaf.noteAt_add (Nat.dvd_mul_right registerWidth registers) position

/-- What a table says of a leaf beside its register does not depend on where its uniform starts. -/
theorem entry_spanAt_add :
    (leaf.spanAt packing (registerWidth * registers + position)).entry =
      (leaf.spanAt packing position).entry := by
  have helement := element_add (Nat.dvd_mul_right registerWidth registers)
    (leaf.spanAt packing position).noted
  rw [LeafSpan.entry, LeafSpan.entry, noted_spanAt_add]
  simp only [spanAt] at helement ⊢
  rw [entryAt, entryAt, helement]

theorem register_spanAt_add :
    (leaf.spanAt packing (registerWidth * registers + position)).register =
      clampWord (registers + (leaf.spanAt packing position).register.toNat) := by
  apply UInt32.toNat_inj.mp
  rw [LeafSpan.register, LeafSpan.register, noted_spanAt_add, toNat_clampWord, toNat_clampWord,
    toNat_clampWord]
  unfold Position.register registerWidth
  omega

end Leaf

theorem map_bind_congr {ε α β γ : Type} {view : α → γ} {view' : β → γ} {first : Except ε α}
    {second : Except ε β} {next : α → Except ε α} {next' : β → Except ε β}
    (h : first.map view = second.map view')
    (hnext : ∀ a b, view a = view' b → (next a).map view = (next' b).map view') :
    (first >>= next).map view = (second >>= next').map view' := by
  cases first with
  | error fault =>
    cases second with
    | error fault' => exact congrArg Except.error (Except.error.inj h)
    | ok b => cases h
  | ok a =>
    cases second with
    | error fault' => cases h
    | ok b => exact hnext a b (Except.ok.inj h)

/-- An entry without the register where a stage finds it. -/
def UniformEntry.unset (stage : Stage) (u : UniformEntry) : UniformEntry :=
  { u with registers := u.registers.set stage none }

@[simp] theorem UniformEntry.unset_setRegister (stage : Stage) (register : UInt32)
    (u : UniformEntry) : (u.setRegister stage register).unset stage = u.unset stage := by
  simp [unset, setRegister]

@[simp] theorem UniformEntry.unset_unset (stage : Stage) (u : UniformEntry) :
    (u.unset stage).unset stage = u.unset stage := by
  simp [unset]

namespace UniformTable

variable {packing : Packing} {stage : Stage}

def unset (stage : Stage) (table : UniformTable) : UniformTable :=
  table.map (UniformEntry.unset stage)

theorem get?_unset (table : UniformTable) (stage : Stage) (name : String) :
    (table.unset stage).get? name = (table.get? name).map (UniformEntry.unset stage) := by
  rw [get?, get?, unset, List.find?_map]
  rfl

theorem unset_modify (table : UniformTable) (index : Nat) (register : UInt32) :
    unset stage (table.modify index (·.setRegister stage register)) = table.unset stage := by
  induction table generalizing index with
  | nil => simp [unset]
  | cons u table ih =>
    cases index with
    | zero => simp [unset]
    | succ index =>
      have hrest := ih index
      simp only [unset] at hrest
      simp only [unset, List.modify_succ_cons, List.map_cons, hrest]

theorem map_unset_note (table : UniformTable) (register other : UInt32) (leaf : UniformEntry) :
    (table.note stage register leaf).map (unset stage) =
      ((table.unset stage).note stage other leaf).map (unset stage) := by
  have hfound := table.get?_unset stage leaf.name
  unfold note
  rw [hfound]
  cases table.get? leaf.name with
  | none =>
    simp only [Option.map_none, Except.map, unset, List.map_append, List.map_map, List.map_cons,
      List.map_nil, UniformEntry.unset_setRegister]
    congr 2
    apply List.map_congr_left
    intro u _
    exact (u.unset_unset stage).symm
  | some entry =>
    simp only [Option.map_some, show (entry.unset stage).element = entry.element from rfl]
    split
    · simp only [Except.map, unset_modify]
      congr 1
      simp only [unset, List.map_map]
      apply List.map_congr_left
      intro u _
      exact (u.unset_unset stage).symm
    · rfl

/-- How leaves are noted, and whether one is refused, does not depend on registers: neither on those of
the stage in the table nor on those of the leaves. -/
theorem map_unset_noteSpans {first second : List LeafSpan} {table other : UniformTable}
    (hentries : first.map LeafSpan.entry = second.map LeafSpan.entry)
    (htable : table.unset stage = other.unset stage) :
    (table.noteSpans stage first).map (unset stage) =
      (other.noteSpans stage second).map (unset stage) := by
  induction first generalizing second table other with
  | nil =>
    obtain rfl : second = [] := List.map_eq_nil_iff.mp hentries.symm
    exact congrArg Except.ok htable
  | cons span spans ih =>
    cases second with
    | nil => simp at hentries
    | cons span' spans' =>
      rw [List.map_cons, List.map_cons, List.cons.injEq] at hentries
      obtain ⟨hentry, hentries⟩ := hentries
      have hnote : (table.note stage span.register span.entry).map (unset stage) =
          (other.note stage span'.register span'.entry).map (unset stage) := by
        rw [map_unset_note table _ 0, map_unset_note other _ 0, htable, hentry]
      rw [noteSpans, noteSpans, List.foldlM_cons, List.foldlM_cons]
      exact map_bind_congr hnote fun next next' hnext => ih hentries hnext

end UniformTable

/-- The leaves of a uniform in the registers, some of them after where they are from the first one. -/
def Variable.spansOn (v : Variable) (packing : Packing) (registers : Nat) : List LeafSpan :=
  ((Rule.hlsl packing).reached Leaf.registerShape (v.visits (.root v.name) false) 0).map fun met =>
    met.1.spanAt packing (registerWidth * registers + met.2)

namespace Variable

variable (v : Variable) (packing : Packing) (registers : Nat)

theorem map_entry_spansOn :
    (v.spansOn packing registers).map LeafSpan.entry = (v.spansOn packing 0).map LeafSpan.entry := by
  simp only [spansOn, List.map_map, Function.comp_def, Leaf.entry_spanAt_add]

def metNamed (name : String) : List (Leaf × Nat) :=
  ((Rule.hlsl packing).reached Leaf.registerShape (v.visits (.root v.name) false) 0).filter
    fun met => met.1.uniformName = name

theorem namesakes_spansOn (name : String) :
    UniformTable.namesakes (v.spansOn packing registers) name =
      (v.metNamed packing name).map fun met =>
        met.1.spanAt packing (registerWidth * registers + met.2) := by
  rw [UniformTable.namesakes, spansOn, List.filter_map]
  rfl

theorem metNamed_eq_nil_iff (name : String) :
    v.metNamed packing name = [] ↔ name ∉ v.leaves.map Leaf.uniformName := by
  rw [leaves, ← @Rule.map_fst_reached (.hlsl packing) Leaf.registerShape _ 0, List.map_map, metNamed,
    List.filter_eq_nil_iff]
  simp

end Variable

namespace UniformTable

variable {packing : Packing} {stage : Stage}

theorem map_value_linkUniform_spansOn {table : UniformTable} {output : Output} {v : Variable}
    {base : UInt32} (hp : output.packing = .ok packing)
    (hfits : v.exactEnd (.hlsl packing) (registerWidth * base.toNat) ≤ last) :
    (table.linkUniform stage output v base).map Logged.value =
      table.noteSpans stage (v.spansOn packing base.toNat) := by
  rw [← Variable.endAt_visits _ (.root v.name) false] at hfits
  have hgrant : Grant.Fits ⟨v, base⟩ packing := hfits
  have hmet := @Rule.reached_shift (.hlsl packing) base.toNat _ Leaf.wellFormed_registerShape
    (v.visits (.root v.name) false) 0
  have hspans := Grant.spans_of_fits hgrant
  rw [Nat.zero_add] at hmet
  rw [hmet, List.map_map] at hspans
  exact (map_value_linkUniform hp hgrant).trans (congrArg _ hspans)

theorem get?_noteSpans_shift {table near far : UniformTable} {v : Variable} {registers : Nat}
    (hnear : table.noteSpans stage (v.spansOn packing 0) = .ok near)
    (hfar : table.noteSpans stage (v.spansOn packing registers) = .ok far) {name : String}
    (hname : name ∈ v.leaves.map Leaf.uniformName) :
    ∃ entry shifted register, near.get? name = some entry ∧
      entry.registers.get stage = some register ∧ far.get? name = some shifted ∧
      shifted = entry.setRegister stage (clampWord (registers + register.toNat)) ∧
      shifted.registers.get stage = some (clampWord (registers + register.toNat)) ∧
      shifted.unset stage = entry.unset stage := by
  have hmet : v.metNamed packing name ≠ [] := fun hnil =>
    (v.metNamed_eq_nil_iff packing name).mp hnil hname
  obtain ⟨first, hfirst⟩ : ∃ first, (v.metNamed packing name).head? = some first :=
    ⟨_, List.head?_eq_some_head hmet⟩
  obtain ⟨last, hlast⟩ : ∃ last, (v.metNamed packing name).getLast? = some last :=
    ⟨_, List.getLast?_eq_some_getLast hmet⟩
  have hfound {k : Nat} {found : UniformTable}
      (h : table.noteSpans stage (v.spansOn packing k) = .ok found) :
      found.get? name = some (((table.get? name).getD (first.1.spanAt packing first.2).entry).setRegister
        stage (clampWord (k + (last.1.spanAt packing last.2).register.toNat))) := by
    rw [get?_noteSpans_of_namesakes h (by rw [v.namesakes_spansOn, List.head?_map, hfirst]; rfl)
      (by rw [v.namesakes_spansOn, List.getLast?_map, hlast]; rfl), Leaf.entry_spanAt_add,
      Leaf.register_spanAt_add]
  have hzero := hfound hnear
  rw [Nat.zero_add, clampWord_toNat] at hzero
  refine ⟨_, _, (last.1.spanAt packing last.2).register, hzero, ?_, hfound hfar, ?_, ?_, ?_⟩
  · rw [UniformEntry.registers_setRegister, PerStage.get_set]
  · rw [UniformEntry.setRegister_setRegister]
  · rw [UniformEntry.registers_setRegister, PerStage.get_set]
  · rw [UniformEntry.unset_setRegister, UniformEntry.unset_setRegister]

theorem get?_noteSpans_of_not_mem {table table' : UniformTable} {v : Variable} {registers : Nat}
    (h : table.noteSpans stage (v.spansOn packing registers) = .ok table') {name : String}
    (hname : name ∉ v.leaves.map Leaf.uniformName) : table'.get? name = table.get? name := by
  have hnil := (v.metNamed_eq_nil_iff packing name).mpr hname
  rw [get?_noteSpans h, v.namesakes_spansOn, hnil]
  rfl

/-- A uniform that is linked some registers further on: the same fault, or the same entries, with the
registers of its leaves as much further on. -/
theorem linkUniform_shift (table : UniformTable) (stage : Stage) {output : Output} {v : Variable}
    {base : UInt32} (hp : output.packing = .ok packing)
    (hfits : v.exactEnd (.hlsl packing) (registerWidth * base.toNat) ≤ last) :
    (table.linkUniform stage output v base).map (fun moved => moved.value.unset stage) =
        (table.linkUniform stage output v 0).map (fun linked => linked.value.unset stage) ∧
      ((table.map UniformEntry.name ++ v.leaves.map Leaf.uniformName).Nodup →
        ∃ linked, table.linkUniform stage output v 0 = .ok linked) ∧
      ∀ linked moved, table.linkUniform stage output v 0 = .ok linked →
        table.linkUniform stage output v base = .ok moved →
        (∀ name ∈ v.leaves.map Leaf.uniformName, ∃ entry shifted register,
          linked.value.get? name = some entry ∧ entry.registers.get stage = some register ∧
          moved.value.get? name = some shifted ∧
          shifted = entry.setRegister stage (clampWord (base.toNat + register.toNat)) ∧
          shifted.registers.get stage = some (clampWord (base.toNat + register.toNat)) ∧
          shifted.unset stage = entry.unset stage) ∧
        ∀ name ∉ v.leaves.map Leaf.uniformName, moved.value.get? name = linked.value.get? name := by
  have hfirst : v.exactEnd (.hlsl packing) (registerWidth * (0 : UInt32).toNat) ≤ last := by
    have hshift := @Rule.endAt_shift (.hlsl packing) base.toNat _ Leaf.wellFormed_registerShape
      (v.visits (.root v.name) false) 0
    rw [Nat.zero_add, Variable.endAt_visits, Variable.endAt_visits] at hshift
    change v.exactEnd (.hlsl packing) 0 ≤ last
    omega
  have hfar := @map_value_linkUniform_spansOn packing stage table output v base hp hfits
  have hnear := @map_value_linkUniform_spansOn packing stage table output v 0 hp hfirst
  refine ⟨?_, ?_, ?_⟩
  · have houtcome := @map_unset_noteSpans stage _ _ table table
      (v.map_entry_spansOn packing base.toNat) rfl
    rw [← hfar, ← show _ = table.noteSpans stage (v.spansOn packing 0) from hnear] at houtcome
    revert houtcome
    cases table.linkUniform stage output v base <;> cases table.linkUniform stage output v 0 <;>
      exact id
  · intro hnames
    rw [← Variable.endAt_visits _ (.root v.name) false] at hfirst
    obtain ⟨events, hlink⟩ := @linkUniform_of_fresh _ packing v table stage 0 hp hfirst hnames
    exact ⟨_, hlink⟩
  · intro linked moved hlinked hmoved
    rw [hlinked] at hnear
    rw [hmoved] at hfar
    constructor
    · intro name hname
      exact get?_noteSpans_shift hnear.symm hfar.symm hname
    · intro name hname
      rw [get?_noteSpans_of_not_mem hfar.symm hname, get?_noteSpans_of_not_mem hnear.symm hname]

end UniformTable

/-- Layouts are invariant under shifts by whole registers, as long as they end within the positions.
The registers of a uniform that is linked further on are held at the largest word. -/
theorem layout_shifts :
    (∀ (rule : Rule) (v : Variable) (position registers : Nat),
      v.exactEnd rule (position + registerWidth * registers) ≤ last →
      ∃ placed finish,
        rule.endOf v position = .ok finish ∧
        rule.endOf v (position + registerWidth * registers) =
          .ok (finish + registerWidth * registers) ∧
        rule.runSteps position v.placeSteps = .ok (placed, finish) ∧
        rule.runSteps (position + registerWidth * registers) v.placeSteps =
          .ok (placed.map (PlacedMember.shift registers), finish + registerWidth * registers)) ∧
    (∀ (rule : Rule) (scope : String) (rowMajor : Bool) (fields : List Variable)
      (position registers : Nat),
      rule.endAt Leaf.memberShape (Variable.fieldVisits (.root scope) rowMajor fields)
        (position + registerWidth * registers) ≤ last →
      ∃ members finish,
        rule.layoutMembers scope rowMajor fields position = .ok (members, finish) ∧
        rule.layoutMembers scope rowMajor fields (position + registerWidth * registers) =
          .ok (members.map (Member.shift registers), finish + registerWidth * registers)) ∧
    ∀ (packing : Packing) (table : UniformTable) (stage : Stage) (output : Output) (v : Variable)
      (base : UInt32), output.packing = .ok packing →
      v.exactEnd (.hlsl packing) (registerWidth * base.toNat) ≤ last →
      (table.linkUniform stage output v base).map (fun moved => moved.value.unset stage) =
          (table.linkUniform stage output v 0).map (fun linked => linked.value.unset stage) ∧
        ((table.map UniformEntry.name ++ v.leaves.map Leaf.uniformName).Nodup →
          ∃ linked, table.linkUniform stage output v 0 = .ok linked) ∧
        ∀ linked moved, table.linkUniform stage output v 0 = .ok linked →
          table.linkUniform stage output v base = .ok moved →
          (∀ name ∈ v.leaves.map Leaf.uniformName, ∃ entry shifted register,
            linked.value.get? name = some entry ∧ entry.registers.get stage = some register ∧
            moved.value.get? name = some shifted ∧
            shifted = entry.setRegister stage (clampWord (base.toNat + register.toNat)) ∧
            shifted.registers.get stage = some (clampWord (base.toNat + register.toNat)) ∧
            shifted.unset stage = entry.unset stage) ∧
          ∀ name ∉ v.leaves.map Leaf.uniformName,
            moved.value.get? name = linked.value.get? name :=
  ⟨fun _ _ _ registers h => Rule.measure_shift registers h,
    fun _ _ _ _ _ registers h => Rule.layoutMembers_shift registers h,
    fun _ table stage _ _ _ hp hfits => table.linkUniform_shift stage hp hfits⟩

theorem layout_shifts_skeleton :
    (∃ placed, Rule.std140.runSteps 3 skeleton.placeSteps = .ok (placed, 60) ∧
      Rule.std140.runSteps 15 skeleton.placeSteps =
        .ok (placed.map (PlacedMember.shift 3), 72)) ∧
    (∃ members, Rule.std140.layoutMembers "mesh" true [skeleton] 3 = .ok (members, 68) ∧
      Rule.std140.layoutMembers "mesh" true [skeleton] 15 =
        .ok (members.map (Member.shift 3), 80)) ∧
    ∃ linked moved entry shifted,
      UniformTable.linkUniform [] .vertex .hlsl11 skeleton 0 = .ok linked ∧
      UniformTable.linkUniform [] .vertex .hlsl11 skeleton 4294967290 = .ok moved ∧
      linked.value.get? "bones[1].joint.range" = some entry ∧
      entry.registers.get .vertex = some 12 ∧
      moved.value.get? "bones[1].joint.range" = some shifted ∧
      shifted = entry.setRegister .vertex 4294967295 ∧
      shifted.registers.get .vertex = some 4294967295 ∧
      shifted.unset .vertex = entry.unset .vertex := by
  refine ⟨?_, ?_, ?_⟩
  · obtain ⟨placed, finish, hmeasure, -, hnear, hfar⟩ :=
      layout_shifts.1 .std140 skeleton 3 3 (by decide +kernel)
    have hfinish : Rule.std140.endOf skeleton 3 = .ok 60 := by decide +kernel
    obtain rfl : 60 = finish := Except.ok.inj (hfinish.symm.trans hmeasure)
    exact ⟨placed, hnear, hfar⟩
  · obtain ⟨members, finish, hnear, hfar⟩ :=
      layout_shifts.2.1 .std140 "mesh" true [skeleton] 3 3 (by decide +kernel)
    have hfinish : (Rule.std140.layoutMembers "mesh" true [skeleton] 3).map Prod.snd = .ok 68 := by
      decide +kernel
    rw [hnear] at hfinish
    obtain rfl : finish = 68 := Except.ok.inj hfinish
    exact ⟨members, hnear, hfar⟩
  · obtain ⟨houtcome, hfresh, hshift⟩ := layout_shifts.2.2 .packed [] .vertex .hlsl11
      skeleton 4294967290 rfl (by decide +kernel)
    obtain ⟨linked, hlinked⟩ := hfresh (by decide +kernel)
    rw [hlinked] at houtcome
    obtain ⟨moved, hmoved⟩ : ∃ moved,
        UniformTable.linkUniform [] .vertex .hlsl11 skeleton 4294967290 = .ok moved := by
      revert houtcome
      cases UniformTable.linkUniform [] .vertex .hlsl11 skeleton 4294967290 with
      | error fault => exact nofun
      | ok moved => exact fun _ => ⟨moved, rfl⟩
    obtain ⟨entry, shifted, register, hentry, hregister, hmovedEntry⟩ :=
      (hshift linked moved hlinked hmoved).1 "bones[1].joint.range" (by decide +kernel)
    have hfound : (UniformTable.linkUniform [] .vertex .hlsl11 skeleton 0).map
        (fun linked => (linked.value.get? "bones[1].joint.range").bind (·.registers.get .vertex)) =
          .ok (some 12) := by
      decide +kernel
    rw [hlinked] at hfound
    have htwelve : some register = some 12 := by
      have hbind := Except.ok.inj hfound
      simp only [hentry, Option.bind_some, hregister] at hbind
      exact hbind
    obtain rfl := Option.some.inj htwelve
    exact ⟨linked, moved, entry, shifted, hlinked, hmoved, hentry, hregister, hmovedEntry⟩

end ShaderInterface
