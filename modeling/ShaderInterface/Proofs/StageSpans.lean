import ShaderInterface.Proofs.LeafSpans
import ShaderInterface.Proofs.RegisterWindows

namespace ShaderInterface

open Position

namespace Rule

variable {packing : Packing}

theorem foldlM_measure_eq_min {rule : Rule} {visits : List Visit} {position finish : Nat}
    (h : visits.foldlM rule.measure.step (min position last) = .ok finish) :
    finish = min (rule.endAt Leaf.registerShape visits position) last := by
  induction visits generalizing position with
  | nil =>
    cases h
    rfl
  | cons visit visits ih =>
    rw [List.foldlM_cons] at h
    obtain ⟨next, hstep, hrest⟩ := bind_eq_ok.mp h
    have hnext := step_measure_eq_ok (Nat.min_le_right position last) hstep
    rw [min_moveAt_min Leaf.wellFormed_registerShape] at hnext
    rw [hnext] at hrest
    exact ih hrest

/-- After its last leaf, a walk moves on to the next whole register at most. -/
theorem nextWhole_endAt (visits : List Visit) (position : Nat) :
    visits.filterMap Visit.leaf? = [] ∧
        nextWhole ((hlsl packing).endAt Leaf.registerShape visits position) = nextWhole position ∨
      ∃ met ∈ (hlsl packing).reached Leaf.registerShape visits position,
        nextWhole ((hlsl packing).moveAt Leaf.registerShape met.2 (.leaf met.1)) =
          nextWhole ((hlsl packing).endAt Leaf.registerShape visits position) := by
  induction visits generalizing position with
  | nil => exact .inl ⟨rfl, rfl⟩
  | cons visit visits ih =>
    have hrest := ih ((hlsl packing).moveAt Leaf.registerShape position visit)
    rw [endAt_cons]
    cases visit with
    | enter =>
      have hround : nextWhole (roundUp position registerWidth) = nextWhole position := by
        unfold nextWhole roundUp registerWidth
        omega
      rcases hrest with ⟨hnone, hsame⟩ | hlast
      · exact .inl ⟨hnone, hsame.trans hround⟩
      · exact .inr hlast
    | leaf leaf =>
      rcases hrest with ⟨-, hsame⟩ | ⟨met, hmet, hlast⟩
      · exact .inr ⟨(leaf, position), List.mem_cons_self, hsame.symm⟩
      · exact .inr ⟨met, List.mem_cons_of_mem _ hmet, hlast⟩
    | exit => exact hrest

end Rule

namespace Variable

variable {v : Variable} {packing : Packing} {register : UInt32}

/-- The registers that a uniform reaches into when it is laid out from the first one. -/
def registersNeeded (v : Variable) (packing : Packing) : Nat :=
  nextWhole ((Rule.hlsl packing).endAt Leaf.registerShape (v.visits (.root v.name) false) 0)

theorem toNat_uniformRegisters {output : Output} {count : UInt32}
    (hp : output.packing = .ok packing) (h : uniformRegisters output v = .ok count) :
    count.toNat = min (v.registersNeeded packing) maxWord := by
  rw [uniformRegisters, hp] at h
  change (Rule.hlsl packing).endOf v 0 >>= _ = _ at h
  obtain ⟨finish, hend, h⟩ := bind_eq_ok.mp h
  cases h
  rw [Rule.endOf, Walk.run_eq_foldlM, ← Nat.min_eq_left (Nat.zero_le last)] at hend
  have hfinish := Rule.foldlM_measure_eq_min hend
  rw [registersBefore, toNat_registersForBytes, hfinish]
  unfold registersNeeded nextWhole bytes last maxWord registerWidth componentBytes
  omega

theorem nextWhole_endAt_registers (v : Variable) (packing : Packing) (register : Nat) :
    nextWhole ((Rule.hlsl packing).endAt Leaf.registerShape (v.visits (.root v.name) false)
      (registerWidth * register)) = register + v.registersNeeded packing := by
  have hadd := @Rule.endAt_add (.hlsl packing) _ Leaf.wellFormed_registerShape _
    (Nat.dvd_mul_right registerWidth register) (v.visits (.root v.name) false) 0
  rw [Nat.add_zero] at hadd
  rw [hadd]
  unfold registersNeeded nextWhole registerWidth
  omega

theorem endRegister_of_met (leaf : Leaf) (packing : Packing) (position : Nat) :
    (leaf.spanAt packing (min position last)).endRegister =
      min (nextWhole ((Rule.hlsl packing).moveAt Leaf.registerShape position (.leaf leaf)))
        (nextWhole last) := by
  change nextWhole (min _ last) = _
  rw [Rule.min_moveAt_min Leaf.wellFormed_registerShape]
  unfold nextWhole registerWidth
  omega

theorem endRegister_le {span : LeafSpan} (h : span ∈ v.spansAt packing register) :
    span.endRegister ≤ min (register.toNat + v.registersNeeded packing) (nextWhole last) := by
  obtain ⟨met, hmet, rfl⟩ := List.mem_map.mp h
  obtain ⟨-, hhigh⟩ := Rule.reached_bounds Leaf.wellFormed_registerShape hmet
  have hend := v.nextWhole_endAt_registers packing register.toNat
  rw [endRegister_of_met]
  unfold nextWhole registerWidth at *
  omega

theorem exists_endRegister_eq (packing : Packing) (register : UInt32) (h : v.leaves ≠ []) :
    ∃ span ∈ v.spansAt packing register,
      span.endRegister = min (register.toNat + v.registersNeeded packing) (nextWhole last) := by
  rcases @Rule.nextWhole_endAt packing (v.visits (.root v.name) false)
    (registerWidth * register.toNat) with ⟨hnone, -⟩ | ⟨met, hmet, hend⟩
  · exact absurd hnone h
  · refine ⟨_, List.mem_map.mpr ⟨met, hmet, rfl⟩, ?_⟩
    rw [endRegister_of_met, hend, nextWhole_endAt_registers]

theorem registersNeeded_of_leaves_eq_nil (packing : Packing) (h : v.leaves = []) :
    v.registersNeeded packing = 0 := by
  rcases @Rule.nextWhole_endAt packing (v.visits (.root v.name) false) 0 with
    ⟨-, hzero⟩ | ⟨met, hmet, -⟩
  · exact hzero
  · have hleaf : met.1 ∈ v.leaves := by
      have hmem : met.1 ∈ List.map Prod.fst _ := List.mem_map.mpr ⟨met, hmet, rfl⟩
      rwa [Rule.map_fst_reached] at hmem
    rw [h] at hleaf
    exact absurd hleaf List.not_mem_nil

theorem map_name_spansAt (v : Variable) (packing : Packing) (register : UInt32) :
    (v.spansAt packing register).map LeafSpan.name = v.leaves.map Leaf.uniformName := by
  rw [← v.map_leaf_spansAt packing register, List.map_map]
  rfl

end Variable

theorem usedUniforms_cons_of_unused {v : Variable} (vs : List Variable)
    (h : ¬v.decl.staticUse = true) : usedUniforms (v :: vs) = usedUniforms vs :=
  List.filter_cons_of_neg h

namespace UniformTable

variable {packing : Packing} {stage : Stage}

theorem note_of_new {table : UniformTable} {register : UInt32} {leaf : UniformEntry}
    (h : table.get? leaf.name = none) :
    table.note stage register leaf = .ok (table ++ [leaf.setRegister stage register]) := by
  rw [note, h]

theorem noteSpans_of_fresh {table : UniformTable} {spans : List LeafSpan}
    (hnames : (table.map UniformEntry.name ++ spans.map LeafSpan.name).Nodup) :
    table.noteSpans stage spans = .ok (table ++ spans.map (·.linked stage)) := by
  induction spans generalizing table with
  | nil =>
    rw [List.map_nil, List.append_nil]
    rfl
  | cons span spans ih =>
    have hnew : table.get? span.entry.name = none := by
      apply get?_eq_none
      intro hmem
      exact (List.nodup_append.mp hnames).2.2 _ hmem _ List.mem_cons_self rfl
    rw [List.map_cons, ← List.singleton_append, ← List.append_assoc] at hnames
    have hrest := @ih (table ++ [span.linked stage]) (by rw [List.map_append]; exact hnames)
    rw [List.append_assoc] at hrest
    rw [noteSpans, List.foldlM_cons, note_of_new hnew]
    exact hrest

theorem linkUniform_eq_ok_of_fresh {output : Output} {v : Variable} {table : UniformTable}
    {register : UInt32} {linked : Logged UniformTable} (hp : output.packing = .ok packing)
    (hnames : (table.map UniformEntry.name ++ v.leaves.map Leaf.uniformName).Nodup)
    (h : table.linkUniform stage output v register = .ok linked) :
    v.spansFrom output register = .ok (v.spansAt packing register) ∧
      linked.value = table ++ (v.spansAt packing register).map (·.linked stage) := by
  obtain ⟨spans, hspans, hnotes⟩ := linkUniform_eq_ok h
  obtain rfl := Variable.spansFrom_eq_ok hp hspans
  rw [← v.map_name_spansAt packing register] at hnames
  rw [noteSpans_of_fresh hnames] at hnotes
  injection hnotes with hvalue
  exact ⟨hspans, hvalue.symm⟩

theorem linkStage_cons_eq_ok {v : Variable} {vs : List Variable} {table table' : UniformTable}
    {allocator allocator' : Allocator} {events : List Event} (hv : v.decl.staticUse = true)
    (h : linkStage stage (v :: vs) table allocator = .ok ⟨(table', allocator'), events⟩) :
    ∃ assigned linked rest, allocator.assignUniform v = .ok assigned ∧
      table.linkUniform stage allocator.output v assigned.register = .ok linked ∧
      linkStage stage vs linked.value assigned.allocator = .ok ⟨(table', allocator'), rest⟩ := by
  rw [linkStage, if_pos hv] at h
  obtain ⟨assigned, hassign, h⟩ := bind_eq_ok.mp h
  obtain ⟨linked, hlink, h⟩ := bind_eq_ok.mp h
  obtain ⟨⟨⟨table'', allocator''⟩, rest⟩, hrest, h⟩ := bind_eq_ok.mp h
  cases h
  exact ⟨assigned, linked, rest, hassign, hlink, hrest⟩

theorem linkStage_usedUniforms (uniforms : List Variable) (table : UniformTable)
    (allocator : Allocator) :
    linkStage stage (usedUniforms uniforms) table allocator =
      linkStage stage uniforms table allocator := by
  induction uniforms generalizing table allocator with
  | nil => rfl
  | cons v vs ih =>
    by_cases hv : v.decl.staticUse = true
    · rw [usedUniforms_cons vs hv, linkStage, linkStage, if_pos hv, if_pos hv]
      simp only [ih]
    · rw [usedUniforms_cons_of_unused vs hv, linkStage, if_neg hv]
      exact ih table allocator

end UniformTable

structure Grant where
  uniform : Variable
  base : UInt32

namespace Grant

def spans (g : Grant) (packing : Packing) : List LeafSpan := g.uniform.spansAt packing g.base

/-- The counter of a file once a uniform has its registers, held at the largest word. -/
def finish (g : Grant) (packing : Packing) : Nat :=
  min (g.base.toNat + g.uniform.registersNeeded packing) maxWord

/-- An allocator has given a uniform its registers, and its leaves have their spans there. -/
structure Holds (g : Grant) (packing : Packing) (later : Allocator) : Prop where
  register_eq : later.uniformRegister? g.uniform.name = some g.base
  spans_eq : g.uniform.spansFrom later.output g.base = .ok (g.spans packing)
  finish_le : g.finish packing ≤ (later.nextFor g.uniform.isSampler).toNat

theorem Holds.of_extends {g : Grant} {packing : Packing} {later earlier : Allocator}
    (h : g.Holds packing earlier) (he : later.Extends earlier) : g.Holds packing later :=
  ⟨he.register_eq h.register_eq, he.output_eq ▸ h.spans_eq, Nat.le_trans h.finish_le (he.next_le _)⟩

/-- The counter of a file ends where the last of the grants with a leaf does. -/
def Reach (grants : List Grant) (packing : Packing) (file : Bool) (earlier later : Nat) : Prop :=
  (∀ g ∈ grants, g.uniform.isSampler = file → g.uniform.leaves = []) ∧ later = earlier ∨
    ∃ g ∈ grants, g.uniform.isSampler = file ∧ g.uniform.leaves ≠ [] ∧ later = g.finish packing

variable {packing : Packing}

/-- A name that is new gets the next register of its file, and the file goes on where the uniform ends. -/
theorem nextFor_assignUniform {allocator : Allocator} {v : Variable} {assigned : Assigned}
    (hp : allocator.output.packing = .ok packing)
    (hnew : allocator.uniformRegister? v.name = none)
    (h : allocator.assignUniform v = .ok assigned) (file : Bool) :
    assigned.register = allocator.nextFor v.isSampler ∧
      assigned.allocator.uniformRegister? v.name = some assigned.register ∧
      (assigned.allocator.nextFor file).toNat =
        if v.isSampler = file then (Grant.mk v assigned.register).finish packing
        else (allocator.nextFor file).toNat := by
  obtain ⟨count, hcount, hregister, htaken⟩ := Allocator.assignUniform_of_new hnew h
  have hneeded := Variable.toNat_uniformRegisters hp hcount
  refine ⟨hregister, ?_, ?_⟩
  · rw [htaken, Allocator.uniformRegister?_take_self, hregister]
  · rw [htaken]
    split
    case isTrue hfile =>
      rw [← hfile, Allocator.toNat_nextFor_take_self, finish, hregister]
      dsimp only
      omega
    case isFalse hfile => rw [Allocator.nextFor_take_of_ne _ _ _ (Ne.symm hfile)]

theorem Reach.cons {g : Grant} {grants : List Grant} {file : Bool} {earlier middle later : Nat}
    (hbase : g.uniform.isSampler = file → g.base.toNat = earlier)
    (hmiddle : middle = if g.uniform.isSampler = file then g.finish packing else earlier)
    (h : Reach grants packing file middle later) :
    Reach (g :: grants) packing file earlier later := by
  rcases h with ⟨hnone, rfl⟩ | ⟨next, hnext, hlast⟩
  · by_cases hfile : g.uniform.isSampler = file
    · rw [if_pos hfile] at hmiddle
      by_cases hleaves : g.uniform.leaves = []
      · -- A uniform without leaves needs no registers, so that the counter stands where it did.
        have hword := toNat_le_maxWord g.base
        have hbase := hbase hfile
        rw [finish, Variable.registersNeeded_of_leaves_eq_nil packing hleaves] at hmiddle
        refine .inl ⟨?_, by omega⟩
        intro other hother hsame
        rcases List.mem_cons.mp hother with rfl | hother
        · exact hleaves
        · exact hnone other hother hsame
      · exact .inr ⟨g, List.mem_cons_self, hfile, hleaves, hmiddle⟩
    · rw [if_neg hfile] at hmiddle
      refine .inl ⟨?_, hmiddle⟩
      intro other hother hsame
      rcases List.mem_cons.mp hother with rfl | hother
      · exact absurd hsame hfile
      · exact hnone other hother hsame
  · exact .inr ⟨next, List.mem_cons_of_mem _ hnext, hlast⟩

end Grant

/-- Linking a stage grants its uniforms registers and enters the spans of their leaves in order. -/
theorem UniformTable.linkStage_grants {packing : Packing} {stage : Stage} {uniforms : List Variable}
    {table table' : UniformTable} {allocator allocator' : Allocator} {events : List Event}
    (hp : allocator.output.packing = .ok packing)
    (hused : ∀ v ∈ uniforms, v.decl.staticUse = true)
    (hnames : (uniforms.map Variable.name).Nodup)
    (hnew : ∀ v ∈ uniforms, allocator.uniformRegister? v.name = none)
    (hleaves : (table.map UniformEntry.name ++ leafNames uniforms).Nodup)
    (h : linkStage stage uniforms table allocator = .ok ⟨(table', allocator'), events⟩) :
    ∃ grants : List Grant, grants.map Grant.uniform = uniforms ∧
      (∀ g ∈ grants, g.Holds packing allocator') ∧
      (∀ file, Grant.Reach grants packing file (allocator.nextFor file).toNat
        (allocator'.nextFor file).toNat) ∧
      table' = table ++ (grants.flatMap (·.spans packing)).map (·.linked stage) := by
  induction uniforms generalizing table allocator events with
  | nil =>
    cases h
    exact ⟨[], rfl, by simp, fun file => .inl ⟨by simp, rfl⟩, by simp⟩
  | cons v vs ih =>
    obtain ⟨assigned, linked, rest, hassign, hlink, hrest⟩ :=
      linkStage_cons_eq_ok (hused v List.mem_cons_self) h
    have hext := Allocator.assignUniform_extends hassign
    have hlater := linkStage_extends hrest
    have hnext := Grant.nextFor_assignUniform hp (hnew v List.mem_cons_self) hassign
    rw [leafNames, List.flatMap_cons, ← List.append_assoc] at hleaves
    obtain ⟨hspans, hvalue⟩ :=
      linkUniform_eq_ok_of_fresh hp (List.nodup_append.mp hleaves).1 hlink
    have hentries : linked.value.map UniformEntry.name =
        table.map UniformEntry.name ++ v.leaves.map Leaf.uniformName := by
      rw [hvalue, List.map_append, List.map_map, ← v.map_name_spansAt packing assigned.register]
      rfl
    obtain ⟨hother, hnames⟩ := List.nodup_cons.mp hnames
    have hnew' : ∀ u ∈ vs, assigned.allocator.uniformRegister? u.name = none := by
      intro u hu
      have hne : u.name ≠ v.name := fun heq => hother (List.mem_map.mpr ⟨u, hu, heq⟩)
      rw [Allocator.uniformRegister?_of_assignUniform hassign hne]
      exact hnew u (List.mem_cons_of_mem _ hu)
    obtain ⟨grants, huniforms, hholds, hreach, htable⟩ :=
      ih (hext.output_eq ▸ hp) (fun u hu => hused u (List.mem_cons_of_mem _ hu)) hnames hnew'
        (by rw [hentries]; exact hleaves) hrest
    refine ⟨⟨v, assigned.register⟩ :: grants, by rw [List.map_cons, huniforms], ?_, ?_, ?_⟩
    · intro g hg
      rcases List.mem_cons.mp hg with rfl | hg
      · have hself := (hnext v.isSampler).2
        rw [if_pos rfl] at hself
        have hnow : Grant.Holds ⟨v, assigned.register⟩ packing assigned.allocator :=
          ⟨hself.1, hext.output_eq ▸ hspans, Nat.le_of_eq hself.2.symm⟩
        exact hnow.of_extends hlater
      · exact hholds g hg
    · intro file
      obtain ⟨hbase, -, hmiddle⟩ := hnext file
      refine Grant.Reach.cons ?_ hmiddle (hreach file)
      intro hfile
      rw [← hfile, hbase]
    · rw [htable, hvalue, List.flatMap_cons, List.map_append, List.append_assoc]
      rfl

theorem UniformTable.linkStage_start_grants {output : Output} {stage : Stage}
    {uniforms : List Variable} {table : UniformTable} {allocator : Allocator} {events : List Event}
    (ho : output.isHlsl = true) (hnames : ((usedUniforms uniforms).map Variable.name).Nodup)
    (hleaves : (leafNames (usedUniforms uniforms)).Nodup)
    (h : linkStage stage uniforms [] (.start output stage) = .ok ⟨(table, allocator), events⟩) :
    ∃ packing grants, allocator.output = output ∧
      grants.map Grant.uniform = usedUniforms uniforms ∧
      (∀ g ∈ grants, g.Holds packing allocator) ∧
      (∀ file, ∃ earlier, Grant.Reach grants packing file earlier (allocator.nextFor file).toNat) ∧
      table = (grants.flatMap (·.spans packing)).map (·.linked stage) := by
  obtain ⟨packing, hp⟩ : ∃ packing, output.packing = .ok packing := by
    cases output with
    | essl | glsl => cases ho
    | hlsl9 | hlsl11 => exact ⟨_, rfl⟩
  have houtput := (linkStage_extends h).output_eq
  rw [← linkStage_usedUniforms] at h
  have hused : ∀ v ∈ usedUniforms uniforms, v.decl.staticUse = true :=
    fun v hv => (List.mem_filter.mp hv).2
  obtain ⟨grants, huniforms, hholds, hreach, htable⟩ :=
    @linkStage_grants packing stage (usedUniforms uniforms) [] table (.start output stage) allocator
      events hp hused hnames (fun _ _ => rfl) hleaves h
  exact ⟨packing, grants, houtput, huniforms, hholds, fun file => ⟨_, hreach file⟩, htable⟩

end ShaderInterface
