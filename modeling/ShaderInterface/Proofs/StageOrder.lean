import Mathlib.Data.List.Perm.Lattice
import ShaderInterface.Proofs.StageMerge

namespace ShaderInterface

theorem PerStage.set_comm {α : Type} (values : PerStage α) {stage other : Stage} (hne : stage ≠ other)
    (first second : α) :
    (values.set stage first).set other second = (values.set other second).set stage first := by
  revert hne
  cases stage <;> cases other <;> simp [set]

theorem UniformEntry.setRegister_comm (u : UniformEntry) {stage other : Stage} (hne : stage ≠ other)
    (first second : UInt32) :
    (u.setRegister stage first).setRegister other second =
      (u.setRegister other second).setRegister stage first := by
  unfold setRegister
  rw [PerStage.set_comm _ hne]

theorem Variable.Alike.map_unqualified_leaves {v w : Variable} (h : v.Alike w) :
    v.leaves.map Leaf.unqualified = w.leaves.map Leaf.unqualified := by
  have hleaves (u : Variable) : u.leaves.map Leaf.unqualified =
      ((u.visits (.root u.name) false).map Visit.unqualified).filterMap Visit.leaf? := by
    rw [leaves, List.map_filterMap, List.filterMap_map]
    apply congrArg (List.filterMap · _)
    funext visit
    cases visit <;> rfl
  rw [hleaves v, hleaves w, h.name, h.map_unqualified_visits]

namespace Mergeable

variable {uniforms : PerStage (List Variable)} {allocators : PerStage Allocator} {packing : Packing}
  {stage other : Stage}

theorem mem_leaves_of_mem_spans {span : LeafSpan}
    (hspan : span ∈ spans uniforms allocators packing stage) :
    ∃ v ∈ usedUniforms (uniforms.get stage), span.leaf ∈ v.leaves := by
  obtain ⟨g, hg, hspan⟩ := List.mem_flatMap.mp hspan
  refine ⟨g.uniform, ?_, ?_⟩
  · rw [← @Allocator.map_uniform_grants packing (allocators.get stage) (usedUniforms _)]
    exact List.mem_map.mpr ⟨g, hg, rfl⟩
  · rw [← g.uniform.map_leaf_spansAt packing g.base]
    exact List.mem_map.mpr ⟨span, hspan, rfl⟩

theorem unqualified_eq (h : Mergeable uniforms) {a b : LeafSpan}
    (ha : a ∈ spans uniforms allocators packing stage)
    (hb : b ∈ spans uniforms allocators packing other) (hname : a.name = b.name) :
    a.leaf.unqualified = b.leaf.unqualified := by
  obtain ⟨v, hv, ha⟩ := mem_leaves_of_mem_spans ha
  obtain ⟨w, hw, hb⟩ := mem_leaves_of_mem_spans hb
  have halike := h.alike_of_uniformName_eq hv hw (List.mem_map.mpr ⟨_, ha, rfl⟩)
    (List.mem_map.mpr ⟨_, hb, hname.symm⟩)
  have hdistinct : ((w.leaves.map Leaf.unqualified).map Leaf.uniformName).Nodup := by
    rw [List.map_map]
    exact Variable.nodup_uniformNames (h.wellNamed other w (mem_of_used hw))
  have hboth : a.leaf.unqualified ∈ w.leaves.map Leaf.unqualified := by
    rw [← halike.map_unqualified_leaves]
    exact List.mem_map_of_mem ha
  exact List.inj_on_of_nodup_map hdistinct hboth (List.mem_map_of_mem hb) hname

/-- Leaves of one name have the same entry, whichever stage makes it. -/
theorem entry_eq (h : Mergeable uniforms)
    (hfits : ∀ stage, ∀ g ∈ (allocators.get stage).grants packing (usedUniforms (uniforms.get stage)),
      g.Fits packing) {a b : LeafSpan} (ha : a ∈ spans uniforms allocators packing stage)
    (hb : b ∈ spans uniforms allocators packing other) (hname : a.name = b.name) :
    a.entry = b.entry := by
  obtain ⟨-, -, hdecl, htype⟩ := Leaf.ext_iff.mp (h.unqualified_eq ha hb hname)
  have hsize := congrArg Declarator.arraySize hdecl
  change a.leaf.type = b.leaf.type at htype
  change a.leaf.decl.arraySize = b.leaf.decl.arraySize at hsize
  have helement := h.element_eq hfits ha hb hname
  unfold LeafSpan.name at hname
  unfold LeafSpan.entry Leaf.entryAt at helement ⊢
  rw [hname, htype, hsize]
  exact congrArg (fun element => { UniformEntry.unused _ _ _ _ _ with element }) helement

end Mergeable

namespace UniformTable

variable {stage : Stage}

theorem get?_noteSpans_of_same {table table' : UniformTable} {spans : List LeafSpan} {name : String}
    {entry : UniformEntry} (h : table.noteSpans stage spans = .ok table')
    (hsame : ∀ span ∈ spans, span.name = name → span.entry = entry) :
    table'.get? name = ((namesakes spans name).getLast?.map fun last =>
      ((table.get? name).getD entry).setRegister stage last.register).or (table.get? name) := by
  have hentry : ∀ span ∈ namesakes spans name, span.entry = entry := by
    intro span hspan
    obtain ⟨hmem, hname⟩ := List.mem_filter.mp hspan
    exact hsame span hmem (of_decide_eq_true hname)
  rw [get?_noteSpans h]
  generalize table.get? name = found
  generalize namesakes spans name = same at hentry ⊢
  induction same generalizing found with
  | nil => rfl
  | cons span rest ih =>
    rw [List.forall_mem_cons] at hentry
    rw [List.foldl_cons, ih _ hentry.2, List.getLast?_cons, hentry.1]
    cases rest.getLast? <;> simp

/-- Tables under whose distinct names the same is found are the same but for their order. -/
theorem perm_of_get? {table table' : UniformTable} (hnames : (table.map UniformEntry.name).Nodup)
    (hnames' : (table'.map UniformEntry.name).Nodup)
    (h : ∀ name, table.get? name = table'.get? name) : table.Perm table' := by
  have hmem {t : UniformTable} (ht : (t.map UniformEntry.name).Nodup) (u : UniformEntry) :
      u ∈ t ↔ t.get? u.name = some u :=
    ⟨get?_of_mem ht, List.mem_of_find?_eq_some⟩
  apply (List.perm_ext_iff_of_nodup hnames.of_map hnames'.of_map).mpr
  intro u
  rw [hmem hnames, hmem hnames', h]

def linkBoth (uniforms : PerStage (List Variable)) (allocators : PerStage Allocator)
    (first second : Stage) : Except Fault UniformTable := do
  let half ← linkStage first (uniforms.get first) [] (allocators.get first)
  let linked ← linkStage second (uniforms.get second) half.value.1 (allocators.get second)
  return linked.value.1

section LinkBoth

variable {output : Output} {packing : Packing} {uniforms : PerStage (List Variable)}
  {allocators : PerStage Allocator} {first second : Stage}

theorem exists_linkBoth (first second : Stage) (hp : output.packing = .ok packing)
    (houtput : ∀ stage, (allocators.get stage).output = output) (h : Mergeable uniforms)
    (hfits : ∀ stage, ∀ g ∈ (allocators.get stage).grants packing (usedUniforms (uniforms.get stage)),
      g.Fits packing) :
    ∃ half table, linkBoth uniforms allocators first second = .ok table ∧
      noteSpans [] first (Mergeable.spans uniforms allocators packing first) = .ok half ∧
      half.noteSpans second (Mergeable.spans uniforms allocators packing second) = .ok table := by
  have hsame (a b : LeafSpan) (ha : ∃ stage, a ∈ Mergeable.spans uniforms allocators packing stage)
      (hb : ∃ stage, b ∈ Mergeable.spans uniforms allocators packing stage) (hname : a.name = b.name) :
      a.entry.element = b.entry.element := by
    obtain ⟨stage, ha⟩ := ha
    obtain ⟨other, hb⟩ := hb
    exact h.element_eq hfits ha hb hname
  obtain ⟨half, hnotes, hhalf⟩ := @exists_noteSpans first _ _ [] hsame (by simp)
    fun span hspan => ⟨first, hspan⟩
  obtain ⟨table, hnotes', -⟩ := @exists_noteSpans second _ _ half hsame hhalf
    fun span hspan => ⟨second, hspan⟩
  obtain ⟨allocator, events, hlink⟩ :=
    linkStage_of_noteSpans ((houtput first).symm ▸ hp) (hfits first) hnotes
  obtain ⟨allocator', events', hlink'⟩ :=
    linkStage_of_noteSpans ((houtput second).symm ▸ hp) (hfits second) hnotes'
  exact ⟨half, table, bind_eq_ok.mpr ⟨_, hlink, bind_eq_ok.mpr ⟨_, hlink', rfl⟩⟩, hnotes, hnotes'⟩

/-- What is found under a name after both stages does not depend on their order. -/
theorem get?_noteSpans_comm {spans spans' : List LeafSpan} {half table half' table' : UniformTable}
    (hne : first ≠ second)
    (hsame : ∀ a ∈ spans ++ spans', ∀ b ∈ spans ++ spans', a.name = b.name → a.entry = b.entry)
    (hhalf : noteSpans [] first spans = .ok half) (htable : half.noteSpans second spans' = .ok table)
    (hhalf' : noteSpans [] second spans' = .ok half')
    (htable' : half'.noteSpans first spans = .ok table') (name : String) :
    table.get? name = table'.get? name := by
  by_cases hknown : ∃ known ∈ spans ++ spans', known.name = name
  · obtain ⟨known, hmem, rfl⟩ := hknown
    have hleft : ∀ span ∈ spans, span.name = known.name → span.entry = known.entry :=
      fun span hspan => hsame span (List.mem_append_left _ hspan) known hmem
    have hright : ∀ span ∈ spans', span.name = known.name → span.entry = known.entry :=
      fun span hspan => hsame span (List.mem_append_right _ hspan) known hmem
    have hempty : get? [] known.name = none := rfl
    rw [get?_noteSpans_of_same htable hright, get?_noteSpans_of_same hhalf hleft,
      get?_noteSpans_of_same htable' hleft, get?_noteSpans_of_same hhalf' hright, hempty]
    cases (namesakes spans known.name).getLast? <;> cases (namesakes spans' known.name).getLast? <;>
      simp [UniformEntry.setRegister_comm _ hne]
  · have hnone {part : List LeafSpan} (hsub : part ⊆ spans ++ spans') : namesakes part name = [] := by
      refine List.filter_eq_nil_iff.mpr fun span hspan hname => hknown ⟨span, hsub hspan, ?_⟩
      exact of_decide_eq_true hname
    have hleft := hnone (List.subset_append_left spans spans')
    have hright := hnone (List.subset_append_right spans spans')
    rw [get?_noteSpans htable, get?_noteSpans hhalf, get?_noteSpans htable', get?_noteSpans hhalf',
      hleft, hright]
    rfl

end LinkBoth

/-- In both orders of the stages linking succeeds, and the two tables have the same entries. -/
theorem linkBoth_perm {output : Output} {packing : Packing} {uniforms : PerStage (List Variable)}
    {allocators : PerStage Allocator} (hp : output.packing = .ok packing)
    (houtput : ∀ stage, (allocators.get stage).output = output) (h : Mergeable uniforms)
    (hfits : ∀ stage, ∀ g ∈ (allocators.get stage).grants packing (usedUniforms (uniforms.get stage)),
      g.Fits packing) :
    ∃ table table', linkBoth uniforms allocators .vertex .fragment = .ok table ∧
      linkBoth uniforms allocators .fragment .vertex = .ok table' ∧ table.Perm table' := by
  obtain ⟨half, table, hlink, hhalf, htable⟩ := exists_linkBoth .vertex .fragment hp houtput h hfits
  obtain ⟨half', table', hlink', hhalf', htable'⟩ :=
    exists_linkBoth .fragment .vertex hp houtput h hfits
  refine ⟨table, table', hlink, hlink', perm_of_get? ?_ ?_ ?_⟩
  · exact (names_merged (by decide) hhalf htable).1
  · exact (names_merged (by decide) hhalf' htable').1
  · refine get?_noteSpans_comm (by decide) ?_ hhalf htable hhalf' htable'
    intro a ha b hb hname
    have hstage {span : LeafSpan}
        (hspan : span ∈ Mergeable.spans uniforms allocators packing .vertex ++
          Mergeable.spans uniforms allocators packing .fragment) :
        ∃ stage, span ∈ Mergeable.spans uniforms allocators packing stage :=
      (List.mem_append.mp hspan).elim (⟨.vertex, ·⟩) (⟨.fragment, ·⟩)
    obtain ⟨stage, ha⟩ := hstage ha
    obtain ⟨other, hb⟩ := hstage hb
    exact h.entry_eq hfits ha hb hname

/-- Uniforms that the stages declare in opposite orders, one of them a struct whose matrix is of
another majorness, and one that the fragment stage declares and does not use. -/
def crossedUniforms : PerStage (List Variable) where
  vertex :=
    [.struct ⟨"view", 2, false, true⟩
        [.basic ⟨"m", 0, false, true⟩ (.matrix .three .two),
          .basic ⟨"eye", 0, false, true⟩ (.vector .float .three)],
      .basic ⟨"fade", 0, false, true⟩ (.vector .float .one),
      .basic ⟨"tint", 3, false, true⟩ (.vector .float .two)]
  fragment :=
    [.basic ⟨"tint", 3, false, false⟩ (.vector .float .two),
      .basic ⟨"fade", 0, false, true⟩ (.vector .float .one),
      .struct ⟨"view", 2, true, true⟩
        [.basic ⟨"m", 0, false, true⟩ (.matrix .three .two),
          .basic ⟨"eye", 0, false, true⟩ (.vector .float .three)]]

def crossedAllocators : PerStage Allocator where
  vertex := .start .hlsl9 .vertex
  fragment := .start .hlsl9 .fragment

theorem linkBoth_perm_crossedUniforms :
    ∃ table table', linkBoth crossedUniforms crossedAllocators .vertex .fragment = .ok table ∧
      linkBoth crossedUniforms crossedAllocators .fragment .vertex = .ok table' ∧
      table.Perm table' := by
  have hpacking : Output.hlsl9.packing = .ok .loose := rfl
  have hmergeable : Mergeable crossedUniforms := by
    refine ⟨?_, ?_, ?_⟩
    · intro stage
      cases stage <;> decide +kernel
    · intro stage
      cases stage <;> decide +kernel
    · simp [crossedUniforms, Variable.name, Variable.decl, Variable.kind]
  refine linkBoth_perm hpacking ?_ hmergeable ?_
  · intro stage
    cases stage <;> rfl
  · intro stage
    cases stage <;> decide +kernel

end UniformTable

end ShaderInterface
