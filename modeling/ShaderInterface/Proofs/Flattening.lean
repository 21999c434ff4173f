import Mathlib.Data.List.Basic
import ShaderInterface.Proofs.LeafNames

namespace ShaderInterface

/-- A leaf as its declaration has it: the parts of its full name, whether a struct around it asks for
row majorness, and what is declared. -/
@[ext] structure Occurrence where
  parts : List String
  rowMajor : Bool
  type : DataType
  arraySize : UInt32
  deriving DecidableEq, Repr

/-- What a declaration fixes of a member of a block: all but its place. -/
@[ext] structure MemberLabel where
  name : String
  type : DataType
  arraySize : UInt32
  rowMajorMatrix : Bool
  deriving DecidableEq, Repr

namespace Occurrence

def within (part : String) (rowMajor : Bool) (o : Occurrence) : Occurrence :=
  { o with parts := part :: o.parts, rowMajor := rowMajor || o.rowMajor }

def fullName (o : Occurrence) (scope : String) : String :=
  ".".intercalate (if scope.isEmpty then o.parts else scope :: o.parts)

/-- The member that an occurrence becomes in a block of the given majorness. -/
def label (scope : String) (rowMajor : Bool) (o : Occurrence) : MemberLabel :=
  ⟨o.fullName scope, o.type, o.arraySize, o.type.isMatrix && (rowMajor || o.rowMajor)⟩

end Occurrence

/-- The names of the elements of a struct. Only the elements of an array are numbered. -/
def Declarator.elementNames (decl : Declarator) : List String :=
  if decl.arraySize = 0 then [decl.name]
  else (List.range decl.arraySize.toNat).map fun index =>
    decl.name ++ "[" ++ toString index ++ "]"

namespace Variable

mutual

/-- The leaves of a declaration, depth first; those of a struct once for each of its elements. -/
def occurrences : Variable → List Occurrence
  | basic decl type => [⟨[decl.name], false, type, decl.arraySize⟩]
  | struct decl fields =>
    decl.elementNames.flatMap fun part => (fieldOccurrences fields).map (.within part decl.rowMajor)

def fieldOccurrences : List Variable → List Occurrence
  | [] => []
  | f :: fs => occurrences f ++ fieldOccurrences fs

end

theorem fieldOccurrences_eq_flatMap (fields : List Variable) :
    fieldOccurrences fields = fields.flatMap occurrences := by
  induction fields with
  | nil => rfl
  | cons f fs ih => rw [fieldOccurrences, List.flatMap_cons, ih]

mutual

def isNamed : Variable → Bool
  | basic decl _ => decl.name ≠ ""
  | struct decl fields => decl.name ≠ "" && areNamed fields

def areNamed : List Variable → Bool
  | [] => true
  | f :: fs => isNamed f && areNamed fs

end

theorem areNamed_iff {fields : List Variable} :
    areNamed fields = true ↔ ∀ f ∈ fields, f.isNamed = true := by
  induction fields with
  | nil => simp [areNamed]
  | cons f fs ih => simp [areNamed, ih]

end Variable

theorem joinMember_append (scope name suffix : String) :
    joinMember scope (name ++ suffix) = joinMember scope name ++ suffix := by
  unfold joinMember
  split
  · rfl
  · rw [← String.append_assoc]

theorem joinMember_ne_empty (scope : String) {name : String} (h : name ≠ "") :
    joinMember scope name ≠ "" := by
  unfold joinMember
  split
  · exact h
  · intro hempty
    exact h (String.append_eq_empty_iff.mp hempty).2

theorem foldl_joinMember {parts : List String} (h : ∀ part ∈ parts, part ≠ "") (scope : String) :
    parts.foldl joinMember scope =
      ".".intercalate (if scope.isEmpty then parts else scope :: parts) := by
  induction parts generalizing scope with
  | nil =>
    split
    case isTrue hempty => simpa using hempty
    case isFalse => simp
  | cons part parts ih =>
    have hjoined : (joinMember scope part).isEmpty = false := by
      simpa using joinMember_ne_empty scope (h part List.mem_cons_self)
    rw [List.foldl_cons, ih (fun p hp => h p (List.mem_cons_of_mem _ hp)), hjoined,
      if_neg Bool.false_ne_true]
    unfold joinMember
    split
    · rfl
    · rw [String.intercalate_cons_append, String.intercalate_cons_cons]

theorem Declarator.elementCount_of_isArray {decl : Declarator} (h : decl.isArray = true) :
    decl.elementCount = decl.arraySize.toNat := by
  have hne : decl.arraySize ≠ 0 := by simpa [isArray] using h
  have hpos : decl.arraySize.toNat ≠ 0 := fun hzero => hne (UInt32.toNat_inj.mp hzero)
  unfold elementCount
  omega

theorem map_joinMember_elementNames (decl : Declarator) (path : Path) :
    decl.elementNames.map (joinMember (path.text joinMember)) =
      (List.range' 0 decl.elementCount).map fun index =>
        (decl.elementPath (path.field decl.name) index).text joinMember := by
  unfold Declarator.elementNames
  split
  case isTrue hsingle =>
    have harray : decl.isArray = false := by simp [Declarator.isArray, hsingle]
    simp [decl.elementCount_eq_one harray, Declarator.elementPath, harray, Path.text]
  case isFalse hsize =>
    have harray : decl.isArray = true := by simp [Declarator.isArray, hsize]
    rw [decl.elementCount_of_isArray harray, List.map_map, ← List.range_eq_range']
    apply List.map_congr_left
    intro index _
    simp only [Function.comp_apply, joinMember_append, Declarator.elementPath, harray, if_true,
      Path.text]

theorem Declarator.ne_empty_of_mem_elementNames {decl : Declarator} (h : decl.name ≠ "")
    {part : String} (hpart : part ∈ decl.elementNames) : part ≠ "" := by
  unfold elementNames at hpart
  split at hpart
  · rwa [List.mem_singleton.mp hpart]
  · obtain ⟨index, -, rfl⟩ := List.mem_map.mp hpart
    simp

namespace Variable

theorem ne_empty_of_mem_parts {v : Variable} (hv : v.isNamed = true) {o : Occurrence}
    (ho : o ∈ v.occurrences) : ∀ part ∈ o.parts, part ≠ "" := by
  induction v generalizing o with
  | basic decl type =>
    rw [occurrences, List.mem_singleton] at ho
    rw [isNamed, decide_eq_true_eq] at hv
    subst ho
    simpa using hv
  | struct decl fields ih =>
    rw [isNamed, Bool.and_eq_true, decide_eq_true_eq, areNamed_iff] at hv
    rw [occurrences, fieldOccurrences_eq_flatMap] at ho
    obtain ⟨name, hname, ho⟩ := List.mem_flatMap.mp ho
    obtain ⟨inner, hinner, rfl⟩ := List.mem_map.mp ho
    obtain ⟨f, hf, hinner⟩ := List.mem_flatMap.mp hinner
    intro part hpart
    rcases List.mem_cons.mp hpart with rfl | hpart
    · exact decl.ne_empty_of_mem_elementNames hv.1 hname
    · exact ih f hf (hv.2 f hf) hinner part hpart

end Variable

def Leaf.label (leaf : Leaf) : MemberLabel :=
  ⟨leaf.memberName, leaf.type, leaf.decl.arraySize, leaf.memberShape.rowMajor⟩

def Occurrence.labelAt (scope : String) (rowMajor : Bool) (o : Occurrence) : MemberLabel :=
  ⟨o.parts.foldl joinMember scope, o.type, o.arraySize, o.type.isMatrix && (rowMajor || o.rowMajor)⟩

theorem Occurrence.labelAt_within (scope part : String) (rowMajor around : Bool) (o : Occurrence) :
    (o.within part rowMajor).labelAt scope around =
      o.labelAt (joinMember scope part) (around || rowMajor) := by
  simp [labelAt, within, Bool.or_assoc]

theorem Occurrence.labelAt_eq_label {o : Occurrence} (h : ∀ part ∈ o.parts, part ≠ "")
    (scope : String) (rowMajor : Bool) : o.labelAt scope rowMajor = o.label scope rowMajor := by
  rw [labelAt, label, fullName, foldl_joinMember h]

namespace Variable

theorem map_label_visits (v : Variable) (path : Path) (rowMajor : Bool) :
    ((v.visits (path.field v.name) rowMajor).filterMap Visit.leaf?).map Leaf.label =
      v.occurrences.map (Occurrence.labelAt (path.text joinMember) rowMajor) := by
  induction v generalizing path rowMajor with
  | basic decl type =>
    simp [visits, occurrences, Visit.leaf?, Leaf.label, Leaf.memberName, Leaf.memberShape,
      DataType.shape, Occurrence.labelAt, Path.text, name, Variable.decl]
  | struct decl fields ih =>
    have hfields (scope : Path) (around : Bool) :
        (fields.flatMap fun f => ((f.visits (scope.field f.name) around).filterMap
          Visit.leaf?).map Leaf.label) =
            (fieldOccurrences fields).map (Occurrence.labelAt (scope.text joinMember) around) := by
      rw [fieldOccurrences_eq_flatMap, List.map_flatMap]
      exact List.flatMap_congr fun f hf => ih f hf scope around
    have hnames := map_joinMember_elementNames decl path
    calc _ = (List.range' 0 decl.elementCount).flatMap fun index =>
            (fieldOccurrences fields).map (Occurrence.labelAt
              ((decl.elementPath (path.field decl.name) index).text joinMember)
              (rowMajor || decl.rowMajor)) := by
          rw [filterMap_leaf?_struct]
          simp only [List.map_flatMap, hfields]
          rfl
      _ = (decl.elementNames.map (joinMember (path.text joinMember))).flatMap fun scope =>
            (fieldOccurrences fields).map (Occurrence.labelAt scope (rowMajor || decl.rowMajor)) := by
          rw [hnames, List.flatMap_map]
      _ = _ := by
          rw [occurrences, List.map_flatMap, List.flatMap_map]
          simp only [List.map_map, Function.comp_def, Occurrence.labelAt_within]

theorem map_label_fieldVisits {fields : List Variable} (h : areNamed fields = true) (scope : String)
    (rowMajor : Bool) :
    ((fieldVisits (.root scope) rowMajor fields).filterMap Visit.leaf?).map Leaf.label =
      (fieldOccurrences fields).map (Occurrence.label scope rowMajor) := by
  rw [fieldVisits_eq_flatMap, fieldOccurrences_eq_flatMap, List.filterMap_flatMap, List.map_flatMap,
    List.map_flatMap]
  apply List.flatMap_congr
  intro f hf
  rw [map_label_visits]
  apply List.map_congr_left
  intro o ho
  exact Occurrence.labelAt_eq_label (ne_empty_of_mem_parts (areNamed_iff.mp h f hf) ho) ..

end Variable

def Member.label (member : Member) : MemberLabel :=
  ⟨member.name, member.type, member.arraySize, member.placement.shape.rowMajor⟩

def UniformEntry.label (u : UniformEntry) : MemberLabel :=
  ⟨u.name, u.type, u.arraySize, u.info.rowMajorMatrix⟩

namespace Rule

variable {rule : Rule}

theorem step_placing_label {visit : Visit} {s t : BlockProgress}
    (h : rule.placing.step s visit = .ok t) :
    t.members.toList.map Member.label =
      s.members.toList.map Member.label ++ visit.leaf?.toList.map Leaf.label := by
  cases visit with
  | enter =>
    obtain ⟨next, -, h⟩ := bind_eq_ok.mp h
    cases h
    exact (List.append_nil _).symm
  | leaf leaf =>
    obtain ⟨placement, hplace, h⟩ := bind_eq_ok.mp h
    cases h
    have hshape := shape_of_place hplace
    simp [Member.label, Leaf.label, Visit.leaf?, hshape]
  | exit =>
    obtain ⟨next, -, h⟩ := bind_eq_ok.mp h
    cases h
    exact (List.append_nil _).symm

theorem foldlM_placing_label {visits : List Visit} {s t : BlockProgress}
    (h : visits.foldlM rule.placing.step s = .ok t) :
    t.members.toList.map Member.label =
      s.members.toList.map Member.label ++ (visits.filterMap Visit.leaf?).map Leaf.label := by
  induction visits generalizing s with
  | nil =>
    cases h
    exact (List.append_nil _).symm
  | cons visit visits ih =>
    rw [List.foldlM_cons] at h
    obtain ⟨next, hstep, hrest⟩ := bind_eq_ok.mp h
    have hsplit : (visit :: visits).filterMap Visit.leaf? =
        visit.leaf?.toList ++ visits.filterMap Visit.leaf? := by
      cases visit <;> rfl
    rw [ih hrest, step_placing_label hstep, hsplit, List.map_append, List.append_assoc]

theorem map_label_layoutMembers {scope : String} {rowMajor : Bool} {fields : List Variable}
    {position finish : Nat} {members : List Member}
    (h : rule.layoutMembers scope rowMajor fields position = .ok (members, finish)) :
    members.map Member.label =
      ((Variable.fieldVisits (.root scope) rowMajor fields).filterMap Visit.leaf?).map
        Leaf.label := by
  obtain ⟨t, hrun, h⟩ := bind_eq_ok.mp h
  cases h
  rw [Walk.runFields_eq_foldlM] at hrun
  exact foldlM_placing_label hrun

end Rule

/-- A leaf without its own marks: whether it is used, and the majorness that it asks for itself. -/
def Leaf.unmarked (leaf : Leaf) : Leaf :=
  { leaf with decl := { leaf.decl with rowMajor := false, staticUse := false } }

namespace Variable

mutual

/-- A declaration without marks of use, and without marks of majorness on leaves. -/
def unmarked : Variable → Variable
  | basic decl type => basic { decl with rowMajor := false, staticUse := false } type
  | struct decl fields => struct { decl with staticUse := false } (unmarkedFields fields)

def unmarkedFields : List Variable → List Variable
  | [] => []
  | f :: fs => unmarked f :: unmarkedFields fs

end

theorem unmarkedFields_eq_map (fields : List Variable) :
    unmarkedFields fields = fields.map unmarked := by
  induction fields with
  | nil => rfl
  | cons f fs ih => rw [unmarkedFields, List.map_cons, ih]

theorem name_unmarked (v : Variable) : v.unmarked.name = v.name := by
  cases v <;> rw [unmarked] <;> rfl

theorem visits_unmarked (v : Variable) (path : Path) (rowMajor : Bool) :
    v.unmarked.visits path rowMajor =
      (v.visits path rowMajor).map (Visit.mapLeaf Leaf.unmarked) := by
  induction v generalizing path rowMajor with
  | basic decl type => rw [unmarked, visits, visits]; rfl
  | struct decl fields ih =>
    have hfields (scope : Path) (around : Bool) :
        fieldVisits scope around (fields.map unmarked) =
          (fieldVisits scope around fields).map (Visit.mapLeaf Leaf.unmarked) := by
      rw [fieldVisits_eq_flatMap, fieldVisits_eq_flatMap, List.map_flatMap, List.flatMap_map]
      apply List.flatMap_congr
      intro f hf
      rw [name_unmarked, ih f hf]
    rw [unmarked, unmarkedFields_eq_map, visits, visits, List.map_flatMap]
    simp only [hfields, List.map_append, List.map_cons, List.map_nil]
    rfl

end Variable

/-- Marks that say nothing about a member change nothing about a layout. -/
theorem Rule.layoutMembers_unmarked (rule : Rule) (scope : String) (rowMajor : Bool)
    (fields : List Variable) (position : Nat) :
    rule.layoutMembers scope rowMajor (fields.map Variable.unmarked) position =
      rule.layoutMembers scope rowMajor fields position := by
  have hvisits : Variable.fieldVisits (.root scope) rowMajor (fields.map Variable.unmarked) =
      (Variable.fieldVisits (.root scope) rowMajor fields).map (Visit.mapLeaf Leaf.unmarked) := by
    simp only [Variable.fieldVisits_eq_flatMap, List.map_flatMap, List.flatMap_map,
      Variable.name_unmarked, Variable.visits_unmarked]
  have hstep : (fun s visit => rule.placing.step s (Visit.mapLeaf Leaf.unmarked visit)) =
      rule.placing.step := by
    funext s visit
    cases visit <;> rfl
  unfold layoutMembers
  rw [Walk.runFields_eq_foldlM, Walk.runFields_eq_foldlM, hvisits, List.foldlM_map, hstep]

/-- Laying out a block flattens its declaration: an entry for each leaf, depth first and element by
element. Whether something is used, and what a leaf asks for itself, does not count. -/
theorem layoutMembers_flattens :
    (∀ (rule : Rule) (scope : String) (rowMajor : Bool) (fields : List Variable) (position : Nat)
      (table : UniformTable) (block : UInt32) (members : List Member) (finish : Nat),
      Variable.areNamed fields = true →
      rule.layoutMembers scope rowMajor fields position = .ok (members, finish) →
      ∃ entries, table.addMembers block members = table ++ entries ∧
        table.memberIndexes members = List.range' table.length entries.length ∧
        entries.map UniformEntry.label =
          (Variable.fieldOccurrences fields).map (Occurrence.label scope rowMajor) ∧
        ∀ u ∈ entries, u.block = some block) ∧
    ∀ (rule : Rule) (scope : String) (rowMajor : Bool) (fields fields' : List Variable)
      (position : Nat), fields.map Variable.unmarked = fields'.map Variable.unmarked →
      rule.layoutMembers scope rowMajor fields position =
        rule.layoutMembers scope rowMajor fields' position := by
  constructor
  · intro rule scope rowMajor fields position table block members finish hnamed h
    refine ⟨members.map (Member.entry block), rfl, ?_, ?_, ?_⟩
    · rw [List.length_map]
      rfl
    · rw [← Variable.map_label_fieldVisits hnamed, ← Rule.map_label_layoutMembers h, List.map_map]
      rfl
    · intro u hu
      obtain ⟨member, -, rfl⟩ := List.mem_map.mp hu
      rfl
  · intro rule scope rowMajor fields fields' position hmarks
    rw [← rule.layoutMembers_unmarked, hmarks, rule.layoutMembers_unmarked]

/-- A row major array of structs, in which a matrix and an array stand, and a matrix beside it that has
marks of its own. -/
def layeredFields (marked : Bool) : List Variable :=
  [.struct ⟨"layers", 2, true, marked⟩
      [.basic ⟨"tint", 0, marked, true⟩ (.matrix .two .three),
        .basic ⟨"weights", 3, false, marked⟩ (.vector .float .one)],
    .basic ⟨"basis", 0, marked, marked⟩ (.matrix .three .three)]

def exposureEntry : UniformEntry := .unused "exposure" (.vector .float .one) 0 none .unassigned

theorem layoutMembers_flattens_layeredFields :
    ∃ members finish entries,
      Rule.std140.layoutMembers "Skin" false (layeredFields true) 0 = .ok (members, finish) ∧
      Rule.std140.layoutMembers "Skin" false (layeredFields false) 0 = .ok (members, finish) ∧
      UniformTable.addMembers [exposureEntry] 7 members = exposureEntry :: entries ∧
      UniformTable.memberIndexes [exposureEntry] members = List.range' 1 entries.length ∧
      entries.map UniformEntry.label =
        [⟨"Skin.layers[0].tint", .matrix .two .three, 0, true⟩,
          ⟨"Skin.layers[0].weights", .vector .float .one, 3, false⟩,
          ⟨"Skin.layers[1].tint", .matrix .two .three, 0, true⟩,
          ⟨"Skin.layers[1].weights", .vector .float .one, 3, false⟩,
          ⟨"Skin.basis", .matrix .three .three, 0, false⟩] ∧
      ∀ u ∈ entries, u.block = some 7 := by
  obtain ⟨⟨members, finish⟩, hrun⟩ := exists_eq_ok
    (show (Rule.std140.layoutMembers "Skin" false (layeredFields true) 0).isOk = true by
      decide +kernel)
  obtain ⟨entries, hentries, hindexes, hlabels, hblock⟩ := layoutMembers_flattens.1 .std140 "Skin"
    false (layeredFields true) 0 [exposureEntry] 7 members finish (by decide) hrun
  have hmarks := layoutMembers_flattens.2 .std140 "Skin" false (layeredFields true)
    (layeredFields false) 0 (by decide)
  refine ⟨members, finish, entries, hrun, hmarks ▸ hrun, hentries, hindexes, ?_, hblock⟩
  rw [hlabels]
  decide +kernel

end ShaderInterface
