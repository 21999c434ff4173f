import ShaderInterface.Proofs.Flattening
import ShaderInterface.Proofs.StageMerge

namespace ShaderInterface

open Position

/-- What a leaf is known by: its full name, its type and its array size. -/
@[ext] structure LeafLabel where
  name : String
  type : DataType
  arraySize : UInt32
  deriving DecidableEq, Repr

def UniformEntry.leafLabel (u : UniformEntry) : LeafLabel := ⟨u.name, u.type, u.arraySize⟩

def Leaf.uniformLabel (leaf : Leaf) : LeafLabel := ⟨leaf.uniformName, leaf.type, leaf.decl.arraySize⟩

def MemberLabel.leafLabel (label : MemberLabel) : LeafLabel :=
  ⟨label.name, label.type, label.arraySize⟩

def Occurrence.leafLabel (o : Occurrence) : LeafLabel := ⟨o.fullName "", o.type, o.arraySize⟩

theorem joinMember_eq_joinField {scope : String} (h : scope ≠ "") (name : String) :
    joinMember scope name = joinField scope name := by
  simp [joinMember, joinField, h]

namespace Declarator

variable {decl : Declarator} {path path' : Path}

theorem text_elementPath_congr (htext : path.text joinField = path'.text joinMember) (index : Nat) :
    (decl.elementPath path index).text joinField =
      (decl.elementPath path' index).text joinMember := by
  cases harray : decl.isArray <;> simp [elementPath, harray, Path.text, htext]

theorem text_elementPath_ne_empty (hne : path.text joinMember ≠ "") (index : Nat) :
    (decl.elementPath path index).text joinMember ≠ "" := by
  cases harray : decl.isArray <;> simp [elementPath, harray, Path.text, hne]

end Declarator

namespace Variable

/-- Below a scope with a name, leaves of uniforms and members of blocks have the same names. -/
theorem map_uniformLabel_visits (v : Variable) {path path' : Path} (rowMajor rowMajor' : Bool)
    (htext : path.text joinField = path'.text joinMember) (hne : path'.text joinMember ≠ "") :
    ((v.visits path rowMajor).filterMap Visit.leaf?).map Leaf.uniformLabel =
      ((v.visits path' rowMajor').filterMap Visit.leaf?).map fun leaf => leaf.label.leafLabel := by
  induction v generalizing path path' rowMajor rowMajor' with
  | basic decl type =>
    simp [visits, Visit.leaf?, Leaf.uniformLabel, Leaf.uniformName, Leaf.label, Leaf.memberName,
      MemberLabel.leafLabel, htext]
  | struct decl fields ih =>
    rw [filterMap_leaf?_struct, filterMap_leaf?_struct, List.map_flatMap, List.map_flatMap]
    apply List.flatMap_congr
    intro index _
    rw [List.map_flatMap, List.map_flatMap]
    apply List.flatMap_congr
    intro f hf
    have hscope := decl.text_elementPath_ne_empty hne index
    have hfield : ((decl.elementPath path index).field f.name).text joinField =
        ((decl.elementPath path' index).field f.name).text joinMember := by
      simp only [Path.text]
      rw [joinMember_eq_joinField hscope, decl.text_elementPath_congr htext]
    apply ih f hf _ _ hfield
    simp only [Path.text]
    rw [joinMember_eq_joinField hscope]
    simp [joinField]

variable {v : Variable} {vs : List Variable}

theorem name_ne_empty (h : v.isNamed = true) : v.name ≠ "" := by
  cases v with
  | basic decl type =>
    rw [isNamed, decide_eq_true_eq] at h
    exact h
  | struct decl fields =>
    rw [isNamed, Bool.and_eq_true, decide_eq_true_eq] at h
    exact h.1

theorem map_uniformLabel_leaves (h : v.isNamed = true) :
    v.leaves.map Leaf.uniformLabel = v.occurrences.map Occurrence.leafLabel := by
  have hname := name_ne_empty h
  have htext : (Path.root v.name).text joinField = ((Path.root "").field v.name).text joinMember := by
    simp [Path.text, joinMember]
  have hmembers := v.map_uniformLabel_visits false false htext (by rwa [← htext])
  have hlisted := v.map_label_visits (.root "") false
  have hparts : v.occurrences.map (Occurrence.labelAt "" false) =
      v.occurrences.map (Occurrence.label "" false) := by
    apply List.map_congr_left
    intro o ho
    exact Occurrence.labelAt_eq_label (ne_empty_of_mem_parts h ho) "" false
  calc v.leaves.map Leaf.uniformLabel
      = (((v.visits ((Path.root "").field v.name) false).filterMap Visit.leaf?).map
          Leaf.label).map MemberLabel.leafLabel := by
        rw [List.map_map]
        exact hmembers
    _ = (v.occurrences.map (Occurrence.label "" false)).map MemberLabel.leafLabel := by
        rw [hlisted, ← hparts]
        rfl
    _ = v.occurrences.map Occurrence.leafLabel := by
        rw [List.map_map]
        rfl

theorem map_uniformLabel_flatMap_leaves (h : areNamed vs = true) :
    (vs.flatMap leaves).map Leaf.uniformLabel =
      (fieldOccurrences vs).map Occurrence.leafLabel := by
  rw [fieldOccurrences_eq_flatMap, List.map_flatMap, List.map_flatMap]
  apply List.flatMap_congr
  intro v hv
  exact map_uniformLabel_leaves (areNamed_iff.mp h v hv)

theorem leafNames_eq_map (vs : List Variable) :
    leafNames vs = ((vs.flatMap leaves).map Leaf.uniformLabel).map LeafLabel.name := by
  rw [leafNames, List.map_map, List.map_flatMap]
  rfl

theorem nodup_leafNames (hnames : (vs.map name).Nodup) (hwell : areWellNamed vs = true) :
    (leafNames vs).Nodup := by
  have hwell := areWellNamed_iff.mp hwell
  refine List.pairwise_flatMap.mpr ⟨fun v hv => nodup_uniformNames (hwell v hv), ?_⟩
  refine (List.pairwise_map.mp hnames).imp_of_mem ?_
  intro v w hv hw hne first hfirst second hsecond hsame
  obtain ⟨leaf, hleaf, rfl⟩ := List.mem_map.mp hfirst
  obtain ⟨leaf', hleaf', rfl⟩ := List.mem_map.mp hsecond
  exact hne (name_eq_of_uniformName_eq (hwell v hv) (hwell w hw) hleaf hleaf' hsame)

end Variable

theorem Variable.map_leafLabel_entriesFrom (v : Variable) (packing : Packing) (stage : Stage)
    (register : UInt32) :
    (v.entriesFrom packing stage register).map UniformEntry.leafLabel =
      v.leaves.map Leaf.uniformLabel := by
  have hleaves := @Rule.map_fst_reached (.hlsl packing) Leaf.registerShape
    (v.visits (.root v.name) false) (registerWidth * register.toNat)
  rw [entriesFrom, List.map_map, leaves, ← hleaves, List.map_map]
  rfl

def Grant.request (g : Grant) (stage : Stage) (output : Output) : Request :=
  .uniform stage output g.uniform g.base

namespace Program

variable {packing : Packing} {stage : Stage} {output : Output}

theorem foldlM_serve_of_fresh {grants : List Grant} {program : Program}
    (hp : output.packing = .ok packing) (hfits : ∀ g ∈ grants, g.Fits packing)
    (hnames : (program.uniforms.map UniformEntry.name ++
      leafNames (grants.map Grant.uniform)).Nodup) :
    (grants.map (·.request stage output)).foldlM serve program =
      .ok { program with uniforms := program.uniforms ++
        (grants.flatMap fun g => g.uniform.entriesFrom packing stage g.base) } := by
  induction grants generalizing program with
  | nil => simp [pure, Except.pure]
  | cons g grants ih =>
    obtain ⟨hfit, hrest⟩ := List.forall_mem_cons.mp hfits
    rw [List.map_cons, leafNames, List.flatMap_cons, ← List.append_assoc] at hnames
    obtain ⟨events, hlink⟩ := @UniformTable.linkUniform_of_fresh output packing g.uniform
      program.uniforms stage g.base hp hfit (List.nodup_append.mp hnames).1
    have hserve : program.serve (g.request stage output) = .ok { program with
        uniforms := program.uniforms ++ g.uniform.entriesFrom packing stage g.base } := by
      change (program.uniforms.linkUniform stage output g.uniform g.base >>= _) = _
      rw [hlink]
      rfl
    rw [← g.uniform.map_name_entriesFrom packing stage g.base, ← List.map_append] at hnames
    rw [List.map_cons, List.foldlM_cons, hserve]
    change List.foldlM serve _ _ = _
    rw [ih hrest hnames, List.flatMap_cons, List.append_assoc]

end Program

theorem Rule.map_name_layoutMembers {rule : Rule} {rowMajor : Bool} {fields : List Variable}
    {position finish : Nat} {members : List Member} (hnamed : Variable.areNamed fields = true)
    (h : rule.layoutMembers "" rowMajor fields position = .ok (members, finish)) :
    members.map Member.name =
      (Variable.fieldOccurrences fields).map fun o => o.leafLabel.name := by
  have hlabels := (Rule.map_label_layoutMembers h).trans
    (Variable.map_label_fieldVisits hnamed "" rowMajor)
  have hnames := congrArg (List.map MemberLabel.name) hlabels
  rw [List.map_map, List.map_map] at hnames
  exact hnames

/-- Full names identify leaves, if the fields of every struct have different names and every name
has characters, but no delimiters. -/
theorem fullNames_identify {vs : List Variable} (hnames : (vs.map Variable.name).Nodup)
    (hwell : Variable.areWellNamed vs = true) (hnamed : Variable.areNamed vs = true) :
    (leafNames vs).Nodup ∧
    leafNames vs = (Variable.fieldOccurrences vs).map (·.leafLabel.name) ∧
    (∀ (stage : Stage) (output : Output) (packing : Packing) (grants : List Grant),
      output.packing = .ok packing → grants.map Grant.uniform = vs →
      (∀ g ∈ grants, g.Fits packing) →
      ∃ program, (grants.map (·.request stage output)).foldlM Program.serve .empty = .ok program ∧
        program.uniforms.map UniformEntry.leafLabel =
          (Variable.fieldOccurrences vs).map Occurrence.leafLabel) ∧
    ∀ (rule : Rule) (rowMajor : Bool) (position : Nat),
      (rule.endAt Leaf.memberShape (Variable.fieldVisits (.root "") rowMajor vs) position ≤ last →
        ∃ layout, rule.layoutMembers "" rowMajor vs position = .ok layout) ∧
      ∀ members finish, rule.layoutMembers "" rowMajor vs position = .ok (members, finish) →
        members.map Member.name = leafNames vs ∧ (members.map Member.name).Nodup := by
  have hdistinct := Variable.nodup_leafNames hnames hwell
  have hlisted : leafNames vs = (Variable.fieldOccurrences vs).map (·.leafLabel.name) := by
    rw [Variable.leafNames_eq_map, Variable.map_uniformLabel_flatMap_leaves hnamed, List.map_map]
    rfl
  refine ⟨hdistinct, hlisted, ?_, ?_⟩
  · intro stage output packing grants hp hgrants hfits
    have hfresh := @Program.foldlM_serve_of_fresh packing stage output grants .empty hp hfits
      (by rw [hgrants]; exact hdistinct)
    refine ⟨_, hfresh, ?_⟩
    have hleaves : grants.flatMap (fun g => g.uniform.leaves) = vs.flatMap Variable.leaves := by
      rw [← hgrants, List.flatMap_map]
    rw [← Variable.map_uniformLabel_flatMap_leaves hnamed, ← hleaves]
    simp only [Program.empty, List.nil_append, List.map_flatMap,
      Variable.map_leafLabel_entriesFrom]
  · intro rule rowMajor position
    refine ⟨fun hroom => ⟨_, Rule.layoutMembers_of_le hroom⟩, fun members finish h => ?_⟩
    have hmembers : members.map Member.name = leafNames vs := by
      rw [hlisted, Rule.map_name_layoutMembers hnamed h]
    exact ⟨hmembers, hmembers ▸ hdistinct⟩

/-- Names that are parts of one another and recur at other depths, and elements with numbers of one and
of two digits. -/
def boneUniforms : List Variable :=
  [.struct ⟨"bone", 11, false, true⟩
      [.basic ⟨"at", 0, false, true⟩ (.vector .float .three),
        .struct ⟨"bone", 2, true, true⟩
          [.basic ⟨"at", 2, false, true⟩ (.matrix .two .three),
            .basic ⟨"1", 0, false, true⟩ (.vector .float .one)]],
    .basic ⟨"bone1", 0, false, true⟩ (.sampler .flat),
    .struct ⟨"at", 0, false, true⟩ [.basic ⟨"bone", 3, false, true⟩ (.vector .int .two)]]

theorem fullNames_identify_boneUniforms :
    (leafNames boneUniforms).Nodup ∧
    (∃ program, ((boneUniforms.zipWith Grant.mk [7, 4294967295, 0]).map
        (·.request .fragment .hlsl11)).foldlM Program.serve .empty = .ok program ∧
      program.uniforms.map UniformEntry.leafLabel =
        (Variable.fieldOccurrences boneUniforms).map Occurrence.leafLabel) ∧
    ∃ members finish, Rule.std140.layoutMembers "" true boneUniforms 0 = .ok (members, finish) ∧
      members.map Member.name = leafNames boneUniforms := by
  obtain ⟨hdistinct, -, hlink, hlayout⟩ := @fullNames_identify boneUniforms (by decide)
    (by decide +kernel) (by decide +kernel)
  have hfits : ∀ g ∈ boneUniforms.zipWith Grant.mk [7, 4294967295, 0], g.Fits .packed := by
    decide +kernel
  obtain ⟨⟨members, finish⟩, hrun⟩ := (hlayout .std140 true 0).1 (by decide +kernel)
  exact ⟨hdistinct, hlink .fragment .hlsl11 .packed _ rfl rfl hfits, members, finish, hrun,
    ((hlayout .std140 true 0).2 members finish hrun).1⟩

end ShaderInterface
