import Mathlib.Data.List.Forall2
import ShaderInterface.Proofs.Flattening
import ShaderInterface.Proofs.LayoutSize
import ShaderInterface.Proofs.Relinking
import ShaderInterface.Proofs.WalkEnds

namespace ShaderInterface

open Position

def elementName (name : String) (index : Nat) : String := name ++ "[" ++ toString index ++ "]"

theorem elementName_append_inj {name rest rest' : String} {index index' : Nat}
    (h : elementName name index ++ rest = elementName name index' ++ rest') :
    index = index' ∧ rest = rest' := by
  -- The digits end at the bracket, whatever stands behind it.
  have htake (index : Nat) (rest : List Char) :
      (Nat.toDigits 10 index ++ ']' :: rest).takeWhile Char.isDigit = Nat.toDigits 10 index := by
    rw [List.takeWhile_append_of_pos fun c hc =>
      Nat.isDigit_of_mem_toDigits (by decide) (by decide) hc, List.takeWhile_cons_of_neg (by decide),
      List.append_nil]
  have hlist : Nat.toDigits 10 index ++ ']' :: rest.toList =
      Nat.toDigits 10 index' ++ ']' :: rest'.toList := by
    simpa [elementName] using congrArg String.toList h
  have hdigits := congrArg (List.takeWhile Char.isDigit) hlist
  rw [htake, htake] at hdigits
  rw [hdigits] at hlist
  injection List.append_cancel_left hlist with _ hrest
  exact ⟨toDigits_inj hdigits, String.toList_inj.mp hrest⟩

namespace Path

/-- The path that goes on from `outer` as another path goes on from its root. -/
def follow (outer : Path) : Path → Path
  | root _ => outer
  | field parent name => (outer.follow parent).field name
  | element parent index => (outer.follow parent).element index

def tail : Path → String
  | root _ => ""
  | field parent name => parent.tail ++ "." ++ name
  | element parent index => parent.tail ++ "[" ++ toString index ++ "]"

/-- Behind a text to which names are joined by dots, a path adds the same text always. -/
theorem text_follow {join : String → String → String} {outer : Path}
    (hjoin : ∀ text name, join (outer.text join ++ text) name = outer.text join ++ text ++ "." ++ name)
    (path : Path) : (outer.follow path).text join = outer.text join ++ path.tail := by
  induction path with
  | root scope => rw [follow, tail, String.append_empty]
  | field parent name ih =>
    rw [follow, text, ih, hjoin, tail]
    simp only [String.append_assoc]
  | element parent index ih =>
    rw [follow, text, ih, tail]
    simp only [String.append_assoc]

theorem elementPath_follow (decl : Declarator) (outer path : Path) (index : Nat) :
    decl.elementPath (outer.follow path) index = outer.follow (decl.elementPath path index) := by
  unfold Declarator.elementPath
  split <;> rfl

end Path

def Leaf.inside (outer : Path) (leaf : Leaf) : Leaf := { leaf with path := outer.follow leaf.path }

namespace Variable

theorem visits_follow (v : Variable) (outer path : Path) (rowMajor : Bool) :
    v.visits (outer.follow path) rowMajor =
      (v.visits path rowMajor).map (Visit.mapLeaf (Leaf.inside outer)) := by
  induction v generalizing path rowMajor with
  | basic decl type => rw [visits, visits]; rfl
  | struct decl fields ih =>
    have hfields (scope : Path) (around : Bool) : fieldVisits (outer.follow scope) around fields =
        (fieldVisits scope around fields).map (Visit.mapLeaf (Leaf.inside outer)) := by
      rw [fieldVisits_eq_flatMap, fieldVisits_eq_flatMap, List.map_flatMap]
      exact List.flatMap_congr fun f hf => ih f hf (scope.field f.name) around
    rw [visits, visits, List.map_flatMap]
    simp only [Path.elementPath_follow, hfields, List.map_append, List.map_cons, List.map_nil]
    rfl

def body (rowMajor : Bool) (fields : List Variable) : List Visit :=
  fieldVisits (.root "") rowMajor fields

theorem fieldVisits_eq_body (path : Path) (rowMajor : Bool) (fields : List Variable) :
    fieldVisits path rowMajor fields =
      (body rowMajor fields).map (Visit.mapLeaf (Leaf.inside path)) := by
  rw [body, fieldVisits_eq_flatMap, fieldVisits_eq_flatMap, List.map_flatMap]
  simp only [← visits_follow]
  rfl

end Variable

namespace Rule

variable {rule : Rule} {shapeOf : Leaf → Shape}

/-- What a walk meets in the fields of a struct, for a struct at `outer` whose element starts at
`start`. -/
def metInside (outer : Path) (start : Nat) (met : Leaf × Nat) : Leaf × Nat :=
  (met.1.inside outer, start + met.2)

section

variable (hs : ∀ leaf, (shapeOf leaf).WellFormed)
  (hinside : ∀ outer leaf, shapeOf (Leaf.inside outer leaf) = shapeOf leaf)

include hs hinside

theorem endAt_fieldVisits_body (path : Path) (rowMajor : Bool) (fields : List Variable) {start : Nat}
    (hstart : registerWidth ∣ start) :
    rule.endAt shapeOf (Variable.fieldVisits path rowMajor fields) start =
      start + rule.endAt shapeOf (Variable.body rowMajor fields) 0 := by
  have hadd := @endAt_add rule shapeOf hs start hstart (Variable.body rowMajor fields) 0
  rw [Nat.add_zero] at hadd
  rw [Variable.fieldVisits_eq_body, endAt_mapLeaf (hinside path), hadd]

theorem reached_fieldVisits_body (path : Path) (rowMajor : Bool) (fields : List Variable)
    {start : Nat} (hstart : registerWidth ∣ start) :
    rule.reached shapeOf (Variable.fieldVisits path rowMajor fields) start =
      (rule.reached shapeOf (Variable.body rowMajor fields) 0).map (metInside path start) := by
  have hadd := @reached_add rule shapeOf hs start hstart (Variable.body rowMajor fields) 0
  rw [Nat.add_zero] at hadd
  rw [Variable.fieldVisits_eq_body, reached_mapLeaf (hinside path), hadd, List.map_map]
  rfl

theorem roundUp_endAt_elementVisits (path : Path) (rowMajor : Bool) (decl : Declarator)
    (fields : List Variable) (index position : Nat) :
    roundUp (rule.endAt shapeOf (Variable.elementVisits path rowMajor decl fields index) position)
        registerWidth =
      roundUp position registerWidth +
        registerWidth * nextWhole (rule.endAt shapeOf (Variable.body rowMajor fields) 0) := by
  have hexit (p : Nat) : roundUp (rule.exitAt p) registerWidth = roundUp p registerWidth := by
    cases rule with
    | std140 => exact roundUp_of_dvd (by decide) (dvd_roundUp p registerWidth)
    | hlsl packing => rfl
  have hwhole (p : Nat) : roundUp p registerWidth = registerWidth * nextWhole p := by
    rw [roundUp, nextWhole, Nat.mul_comm]
  have hstart := dvd_roundUp position registerWidth
  rw [endAt_elementVisits, hexit, endAt_fieldVisits_body hs hinside _ _ _ hstart,
    roundUp_add _ (by decide) hstart, ← hwhole]

theorem reached_elementRun (path : Path) (rowMajor : Bool) (decl : Declarator)
    (fields : List Variable) (first count position : Nat) :
    rule.reached shapeOf (Variable.elementRun path rowMajor decl fields first count) position =
      (List.range count).flatMap fun index =>
        (rule.reached shapeOf (Variable.body rowMajor fields) 0).map
          (metInside (decl.elementPath path (first + index))
            (roundUp position registerWidth + registerWidth *
              (index * nextWhole (rule.endAt shapeOf (Variable.body rowMajor fields) 0)))) := by
  induction count generalizing first position with
  | zero => rfl
  | succ count ih =>
    have hstart := dvd_roundUp position registerWidth
    rw [Variable.elementRun_succ, reached_append, reached_elementVisits,
      reached_fieldVisits_body hs hinside _ _ _ hstart, ih,
      roundUp_endAt_elementVisits hs hinside, List.range_succ_eq_map, List.flatMap_cons,
      List.flatMap_map]
    congr 1
    · rw [Nat.zero_mul]
      rfl
    · congr 1
      funext index
      rw [Nat.add_assoc first, Nat.add_comm 1 index, Nat.add_assoc (roundUp _ _), ← Nat.mul_add,
        Nat.succ_eq_add_one, Nat.add_mul, Nat.one_mul, Nat.add_comm (nextWhole _)]

theorem endAt_body_le (path : Path) (rowMajor : Bool) (decl : Declarator) (fields : List Variable)
    (position : Nat) :
    rule.endAt shapeOf (Variable.body rowMajor fields) 0 ≤
      rule.endAt shapeOf (Variable.elementRun path rowMajor decl fields 0 decl.elementCount)
        position := by
  obtain ⟨count, hcount⟩ := Nat.exists_eq_add_one_of_ne_zero (Nat.ne_of_gt decl.elementCount_pos)
  rw [hcount, Variable.elementRun_succ, endAt_append]
  refine Nat.le_trans ?_ (le_endAt hs _ _)
  have hexit := @le_moveAt rule shapeOf hs (rule.endAt shapeOf
    (Variable.fieldVisits (decl.elementPath path 0) rowMajor fields)
    (roundUp position registerWidth)) .exit
  rw [endAt_elementVisits]
  refine Nat.le_trans ?_ hexit
  rw [endAt_fieldVisits_body hs hinside _ _ _ (dvd_roundUp position registerWidth)]
  exact Nat.le_add_left ..

end

end Rule

/-- A member that stands as another one does, some whole registers on, as far as an offset goes. -/
structure Member.SpacedBy (registers : Nat) (first later : Member) : Prop where
  offset : later.placement.info.offset.toInt =
    min (first.placement.info.offset.toInt + registers * registerBytes) maxOffset
  arrayStride : later.placement.info.arrayStride = first.placement.info.arrayStride
  matrixStride : later.placement.info.matrixStride = first.placement.info.matrixStride

theorem toInt_byteOffset_add (position registers : Nat) :
    (byteOffset (position + registerWidth * registers)).toInt =
      min ((byteOffset position).toInt + registers * registerBytes) maxOffset := by
  rw [toInt_byteOffset, toInt_byteOffset]
  unfold registerBytes registerWidth componentBytes maxOffset
  omega

theorem Variable.fieldVisits_singleton_struct (path : Path) (rowMajor : Bool) (decl : Declarator)
    (fields : List Variable) :
    fieldVisits path rowMajor [.struct decl fields] =
      elementRun (path.field decl.name) (rowMajor || decl.rowMajor) decl fields 0
        decl.elementCount := by
  rw [fieldVisits, fieldVisits, List.append_nil, visits_struct]
  rfl

theorem Declarator.text_elementPath {decl : Declarator} (h : decl.isArray = true)
    (join : String → String → String) (path : Path) (index : Nat) :
    (decl.elementPath path index).text join = elementName (path.text join) index := by
  rw [elementPath, if_pos h]
  rfl

theorem Leaf.memberName_inside {decl : Declarator} (h : decl.isArray = true) (path : Path)
    (index : Nat) (leaf : Leaf) :
    (leaf.inside (decl.elementPath path index)).memberName =
      elementName (path.text joinMember) index ++ leaf.path.tail := by
  have hjoin (text name : String) :
      joinMember (elementName (path.text joinMember) index ++ text) name =
        elementName (path.text joinMember) index ++ text ++ "." ++ name := by
    simp [joinMember, elementName]
  rw [memberName, inside, Path.text_follow, decl.text_elementPath h]
  simpa only [decl.text_elementPath h] using hjoin

theorem Leaf.uniformName_inside {decl : Declarator} (h : decl.isArray = true) (path : Path)
    (index : Nat) (leaf : Leaf) :
    (leaf.inside (decl.elementPath path index)).uniformName =
      elementName (path.text joinField) index ++ leaf.path.tail := by
  rw [uniformName, inside, Path.text_follow fun _ _ => rfl, decl.text_elementPath h]

theorem Rule.spacedBy_memberAt (rule : Rule) (outer outer' : Path) {start : Nat} (registers : Nat)
    (hstart : registerWidth ∣ start) (met : Leaf × Nat) :
    Member.SpacedBy registers (rule.memberAt (metInside outer start met))
      (rule.memberAt (metInside outer' (start + registerWidth * registers) met)) := by
  have hwell := met.1.wellFormed_memberShape
  have hlater : registerWidth ∣ start + registerWidth * registers :=
    (Nat.dvd_add_right hstart).mpr (Nat.dvd_mul_right ..)
  have hoffset := toInt_byteOffset_add (start + rule.startAt met.1.memberShape met.2) registers
  refine ⟨?_, rfl, rfl⟩
  change (byteOffset (rule.startAt met.1.memberShape
      (start + registerWidth * registers + met.2))).toInt =
    min ((byteOffset (rule.startAt met.1.memberShape (start + met.2))).toInt + _) _
  rw [rule.startAt_add hwell hlater, rule.startAt_add hwell hstart, ← hoffset, Nat.add_right_comm]

theorem Rule.layoutMembers_body {rule : Rule} (scope : String) {rowMajor : Bool}
    {fields : List Variable}
    (h : rule.endAt Leaf.memberShape (Variable.body rowMajor fields) 0 ≤ last) :
    ∃ members, rule.layoutMembers scope rowMajor fields 0 =
        .ok (members, rule.endAt Leaf.memberShape (Variable.body rowMajor fields) 0) ∧
      members.length = (rule.reached Leaf.memberShape (Variable.body rowMajor fields) 0).length := by
  have hend := @endAt_fieldVisits_body rule _ Leaf.wellFormed_memberShape (fun _ _ => rfl)
    (.root scope) rowMajor fields _ (Nat.dvd_zero registerWidth)
  have hmet := @reached_fieldVisits_body rule _ Leaf.wellFormed_memberShape (fun _ _ => rfl)
    (.root scope) rowMajor fields _ (Nat.dvd_zero registerWidth)
  rw [Nat.zero_add] at hend
  rw [← hend] at h
  have hlayout := layoutMembers_of_le h
  rw [hend, hmet] at hlayout
  exact ⟨_, hlayout, by rw [List.length_map, List.length_map]⟩

theorem Rule.foldlM_endOf_body {rule : Rule} {rowMajor : Bool} {fields : List Variable}
    (h : rule.endAt Leaf.registerShape (Variable.body rowMajor fields) 0 ≤ last) :
    fields.foldlM (fun position f => rule.endOf f position) 0 =
      .ok (rule.endAt Leaf.registerShape (Variable.body rowMajor fields) 0) := by
  rw [← runFields_measure_eq_foldlM rule (.root "") rowMajor, Walk.runFields_eq_foldlM]
  exact foldlM_measure_of_le h

theorem Rule.layoutMembers_elements {rule : Rule} {scope : String} {rowMajor : Bool}
    {decl : Declarator} {fields : List Variable} {position : Nat} (harray : decl.isArray = true)
    (hroom : rule.endAt Leaf.memberShape
      (Variable.fieldVisits (.root scope) rowMajor [.struct decl fields]) position ≤ last) :
    ∃ finish, rule.layoutMembers scope rowMajor [.struct decl fields] position =
      .ok ((List.range decl.arraySize.toNat).flatMap fun index =>
        (rule.reached Leaf.memberShape (Variable.body (rowMajor || decl.rowMajor) fields) 0).map
          fun met => rule.memberAt (metInside
            (decl.elementPath ((Path.root scope).field decl.name) index)
            (roundUp position registerWidth + registerWidth * (index * nextWhole
              (rule.endAt Leaf.memberShape (Variable.body (rowMajor || decl.rowMajor) fields) 0)))
            met), finish) := by
  rw [layoutMembers_of_le hroom, Variable.fieldVisits_singleton_struct,
    reached_elementRun Leaf.wellFormed_memberShape (fun _ _ => rfl),
    decl.elementCount_of_isArray harray, List.map_flatMap]
  simp only [List.map_map, Nat.zero_add]
  exact ⟨_, rfl⟩

theorem flatMap_eq_of_mem {α β : Type} {items : List α} {item : α} {parts : α → List β}
    (hnodup : items.Nodup) (hmem : item ∈ items)
    (hempty : ∀ other ∈ items, other ≠ item → parts other = []) :
    items.flatMap parts = parts item := by
  obtain ⟨before, behind, rfl⟩ := List.append_of_mem hmem
  obtain ⟨-, hbehind, hbefore⟩ := List.nodup_append.mp hnodup
  have hleft : before.flatMap parts = [] := List.flatMap_eq_nil_iff.mpr fun other hother =>
    hempty other (List.mem_append_left _ hother) (hbefore other hother item List.mem_cons_self)
  have hright : behind.flatMap parts = [] := List.flatMap_eq_nil_iff.mpr fun other hother =>
    hempty other (List.mem_append_right _ (List.mem_cons_of_mem _ hother)) fun heq =>
      (List.nodup_cons.mp hbehind).1 (heq ▸ hother)
  rw [List.flatMap_append, List.flatMap_cons, hleft, hright, List.nil_append, List.append_nil]

def Leaf.spanInside (packing : Packing) (outer : Path) (start : Nat) (met : Leaf × Nat) : LeafSpan :=
  (met.1.inside outer).spanAt packing (start + met.2)

theorem Leaf.spanInside_spaced (packing : Packing) (outer outer' : Path) (start registers : Nat)
    (met : Leaf × Nat) :
    (spanInside packing outer' (start + registerWidth * registers) met).register.toNat =
        min ((spanInside packing outer start met).register.toNat + registers) maxWord ∧
      (spanInside packing outer' (start + registerWidth * registers) met).entry.element =
        (spanInside packing outer start met).entry.element := by
  have hshift := Nat.dvd_mul_right registerWidth registers
  have hnoted : (spanInside packing outer' (start + registerWidth * registers) met).noted =
      registerWidth * registers + (spanInside packing outer start met).noted := by
    change met.1.noteAt _ = _ + met.1.noteAt _
    rw [Nat.add_comm start, Nat.add_assoc, met.1.noteAt_add hshift]
  constructor
  · rw [LeafSpan.register, LeafSpan.register, toNat_clampWord, toNat_clampWord, hnoted]
    unfold Position.register registerWidth
    omega
  · rw [LeafSpan.entry, LeafSpan.entry, hnoted]
    change UInt32.ofNat _ = UInt32.ofNat _
    rw [element_add hshift]

theorem Leaf.name_spanInside {decl : Declarator} (h : decl.isArray = true) (packing : Packing)
    (index start : Nat) (met : Leaf × Nat) :
    (spanInside packing (decl.elementPath (.root decl.name) index) start met).name =
      elementName decl.name index ++ met.1.path.tail :=
  met.1.uniformName_inside h (.root decl.name) index

theorem Variable.spansAt_elements {packing : Packing} {decl : Declarator} {fields : List Variable}
    {register : UInt32} (harray : decl.isArray = true)
    (hfits : Grant.Fits ⟨.struct decl fields, register⟩ packing) :
    (struct decl fields).spansAt packing register =
      (List.range decl.arraySize.toNat).flatMap fun index =>
        ((Rule.hlsl packing).reached Leaf.registerShape (body decl.rowMajor fields) 0).map
          (Leaf.spanInside packing (decl.elementPath (.root decl.name) index)
            (registerWidth * register.toNat + registerWidth * (index * nextWhole
              ((Rule.hlsl packing).endAt Leaf.registerShape (body decl.rowMajor fields) 0)))) := by
  have hspans := Grant.spans_of_fits hfits
  have hround := roundUp_of_dvd (show 0 < registerWidth by decide)
    (Nat.dvd_mul_right registerWidth register.toNat)
  rw [Grant.spans] at hspans
  rw [hspans]
  change List.map _ ((Rule.hlsl packing).reached Leaf.registerShape
    (visits (.root decl.name) false (.struct decl fields)) (registerWidth * register.toNat)) = _
  rw [visits_struct, Rule.reached_elementRun Leaf.wellFormed_registerShape (fun _ _ => rfl),
    decl.elementCount_of_isArray harray, List.map_flatMap, hround]
  simp only [List.map_map, Nat.zero_add, Bool.false_or]
  rfl

theorem Variable.namesakes_elements {packing : Packing} {decl : Declarator} {fields : List Variable}
    {register : UInt32} (harray : decl.isArray = true)
    (hfits : Grant.Fits ⟨.struct decl fields, register⟩ packing) {index : Nat}
    (hindex : index < decl.arraySize.toNat) (rest : String) :
    UniformTable.namesakes ((struct decl fields).spansAt packing register)
        (elementName decl.name index ++ rest) =
      (((Rule.hlsl packing).reached Leaf.registerShape (body decl.rowMajor fields) 0).filter
        fun met => met.1.path.tail = rest).map
          (Leaf.spanInside packing (decl.elementPath (.root decl.name) index)
            (registerWidth * register.toNat + registerWidth * (index * nextWhole
              ((Rule.hlsl packing).endAt Leaf.registerShape (body decl.rowMajor fields) 0)))) := by
  rw [UniformTable.namesakes, spansAt_elements harray hfits, List.filter_flatMap,
    flatMap_eq_of_mem List.nodup_range (List.mem_range.mpr hindex)]
  · rw [List.filter_map]
    congr 2
    funext met
    simp only [Function.comp_apply, Leaf.name_spanInside harray, decide_eq_decide]
    exact ⟨fun h => (elementName_append_inj h).2, fun h => by rw [h]⟩
  · intro other _ hother
    rw [List.filter_eq_nil_iff]
    intro span hspan hsame
    obtain ⟨met, -, rfl⟩ := List.mem_map.mp hspan
    rw [decide_eq_true_eq, Leaf.name_spanInside harray] at hsame
    exact hother (elementName_append_inj hsame).1

theorem Variable.exists_last_namesake {packing : Packing} {decl : Declarator}
    {fields : List Variable} {register : UInt32} (harray : decl.isArray = true)
    (hfits : Grant.Fits ⟨.struct decl fields, register⟩ packing) {rest : String}
    (hrest : rest ∈ ((Rule.hlsl packing).reached Leaf.registerShape (body decl.rowMajor fields) 0).map
      (·.1.path.tail)) :
    ∃ met, ∀ index < decl.arraySize.toNat,
      (UniformTable.namesakes ((struct decl fields).spansAt packing register)
          (elementName decl.name index ++ rest)).getLast? =
        some (Leaf.spanInside packing (decl.elementPath (.root decl.name) index)
          (registerWidth * register.toNat + registerWidth * (index * nextWhole
            ((Rule.hlsl packing).endAt Leaf.registerShape (body decl.rowMajor fields) 0))) met) := by
  obtain ⟨named, hnamed, hrest⟩ := List.mem_map.mp hrest
  have hfound : (((Rule.hlsl packing).reached Leaf.registerShape (body decl.rowMajor fields)
      0).filter fun met => met.1.path.tail = rest) ≠ [] :=
    List.ne_nil_of_mem (List.mem_filter.mpr ⟨hnamed, decide_eq_true hrest⟩)
  obtain ⟨met, hmet⟩ := Option.isSome_iff_exists.mp (List.getLast?_isSome.mpr hfound)
  refine ⟨met, fun index hindex => ?_⟩
  rw [namesakes_elements harray hfits hindex, List.getLast?_map, hmet]
  rfl

theorem UniformTable.get?_noteSpans_last {stage : Stage} {table table' : UniformTable}
    {spans : List LeafSpan} {name : String} {last : LeafSpan}
    (h : table.noteSpans stage spans = .ok table')
    (hlast : (namesakes spans name).getLast? = some last) :
    ∃ u, table'.get? name = some u ∧ u.registers.get stage = some last.register ∧
      u.element = last.entry.element := by
  induction spans generalizing table with
  | nil => cases hlast
  | cons span spans ih =>
    rw [noteSpans, List.foldlM_cons] at h
    obtain ⟨next, hnote, hrest⟩ := bind_eq_ok.mp h
    rw [namesakes, List.filter_cons] at hlast
    by_cases hsame : namesakes spans name = []
    · -- Nothing that follows has the name, so that it is the first leaf that is found.
      have hfilter : (spans.filter fun span => span.name = name) = [] := hsame
      by_cases hname : span.name = name
      · rw [if_pos (decide_eq_true hname), hfilter] at hlast
        cases hlast
        obtain ⟨u, hfound, helement⟩ := get?_note_self hnote
        have hget := get?_note hnote span.entry.name
        rw [hfound, if_pos rfl] at hget
        injection hget with hget
        refine ⟨u, ?_, ?_, helement⟩
        · rw [get?_noteSpans hrest, hsame, ← hname]
          exact hfound
        · rw [hget, UniformEntry.registers_setRegister, PerStage.get_set]
          rfl
      · rw [if_neg (by simpa using hname), hfilter] at hlast
        cases hlast
    · apply ih hrest
      obtain ⟨found, hfound⟩ := Option.isSome_iff_exists.mp (List.getLast?_isSome.mpr hsame)
      split at hlast
      · rw [List.getLast?_cons] at hlast
        rw [hfound, ← hlast]
        rw [namesakes] at hfound
        rw [hfound]
        rfl
      · exact hlast

/-- Arrays of structs have one stride, under every rule, from every position and in every majorness:
the whole registers that the fields of the struct take when they are laid out from the first one. -/
theorem elements_evenlySpaced :
    (∀ (rule : Rule) (scope : String) (rowMajor : Bool) (decl : Declarator) (fields : List Variable)
      (position : Nat), decl.isArray = true →
      rule.endAt Leaf.memberShape (Variable.fieldVisits (.root scope) rowMajor [.struct decl fields])
        position ≤ last →
      ∃ (body members : List Member) (size finish : Nat) (rests : List String)
        (elements : Nat → List Member),
        rule.layoutMembers scope (rowMajor || decl.rowMajor) fields 0 = .ok (body, size) ∧
        rule.layoutMembers scope rowMajor [.struct decl fields] position = .ok (members, finish) ∧
        body.length = rests.length ∧
        members = (List.range decl.arraySize.toNat).flatMap elements ∧
        ∀ index < decl.arraySize.toNat,
          (elements index).map Member.name =
            rests.map (elementName (joinMember scope decl.name) index ++ ·) ∧
          List.Forall₂ (Member.SpacedBy (index * nextWhole size)) (elements 0) (elements index)) ∧
    ∀ (packing : Packing) (stage : Stage) (output : Output) (table : UniformTable)
      (decl : Declarator) (fields : List Variable) (register : UInt32),
      output.packing = .ok packing → decl.isArray = true →
      Grant.Fits ⟨.struct decl fields, register⟩ packing →
      ∃ (size : Nat) (rests : List String),
        fields.foldlM (fun position f => (Rule.hlsl packing).endOf f position) 0 = .ok size ∧
        (Variable.struct decl fields).leaves.map Leaf.uniformName =
          ((List.range decl.arraySize.toNat).flatMap fun index =>
            rests.map (elementName decl.name index ++ ·)) ∧
        ((table.map UniformEntry.name ++
            (Variable.struct decl fields).leaves.map Leaf.uniformName).Nodup →
          ∃ linked, table.linkUniform stage output (.struct decl fields) register = .ok linked) ∧
        ∀ linked, table.linkUniform stage output (.struct decl fields) register = .ok linked →
          ∀ index < decl.arraySize.toNat, ∀ rest ∈ rests, ∃ first later base moved,
            linked.value.get? (elementName decl.name 0 ++ rest) = some first ∧
            linked.value.get? (elementName decl.name index ++ rest) = some later ∧
            first.registers.get stage = some base ∧ later.registers.get stage = some moved ∧
            moved.toNat = min (base.toNat + index * nextWhole size) maxWord ∧
            later.element = first.element := by
  constructor
  · intro rule scope rowMajor decl fields position harray hroom
    have hend : rule.endAt Leaf.memberShape (Variable.body (rowMajor || decl.rowMajor) fields) 0 ≤
        last := by
      rw [Variable.fieldVisits_singleton_struct] at hroom
      exact Nat.le_trans (Rule.endAt_body_le Leaf.wellFormed_memberShape (fun _ _ => rfl) ..) hroom
    obtain ⟨body, hbody, hlength⟩ := Rule.layoutMembers_body scope hend
    obtain ⟨finish, hmembers⟩ := Rule.layoutMembers_elements harray hroom
    refine ⟨body, _, _, finish, (rule.reached Leaf.memberShape
      (Variable.body (rowMajor || decl.rowMajor) fields) 0).map (·.1.path.tail), _, hbody, hmembers,
      by rw [hlength, List.length_map], rfl, ?_⟩
    intro index _
    constructor
    · rw [List.map_map, List.map_map]
      apply List.map_congr_left
      intro met _
      exact met.1.memberName_inside harray ((Path.root scope).field decl.name) index
    · rw [List.forall₂_map_left_iff, List.forall₂_map_right_iff, List.forall₂_same]
      intro met _
      rw [Nat.zero_mul]
      exact rule.spacedBy_memberAt _ _ _ (dvd_roundUp position registerWidth) met
  · intro packing stage output table decl fields register hp harray hfits
    have hend : (Rule.hlsl packing).endAt Leaf.registerShape (Variable.body decl.rowMajor fields) 0 ≤
        last := by
      unfold Grant.Fits at hfits
      rw [Variable.visits_struct, Bool.false_or] at hfits
      exact Nat.le_trans (Rule.endAt_body_le Leaf.wellFormed_registerShape (fun _ _ => rfl) ..) hfits
    refine ⟨_, ((Rule.hlsl packing).reached Leaf.registerShape (Variable.body decl.rowMajor fields)
      0).map (·.1.path.tail), Rule.foldlM_endOf_body hend, ?_, ?_, ?_⟩
    · rw [← Variable.map_name_spansAt _ packing register, Variable.spansAt_elements harray hfits,
        List.map_flatMap]
      simp only [List.map_map, Function.comp_def, Leaf.name_spanInside harray]
    · intro hnames
      obtain ⟨events, hlink⟩ := UniformTable.linkUniform_of_fresh hp hfits hnames
      exact ⟨_, hlink⟩
    · intro linked hlink index hindex rest hrest
      obtain ⟨spans, hspans, hnotes⟩ := UniformTable.linkUniform_eq_ok hlink
      obtain rfl := Variable.spansFrom_eq_ok hp hspans
      obtain ⟨met, hmet⟩ := Variable.exists_last_namesake harray hfits hrest
      obtain ⟨first, hfirst, hbase, helement⟩ :=
        UniformTable.get?_noteSpans_last hnotes (hmet 0 (Nat.zero_lt_of_lt hindex))
      obtain ⟨later, hlater, hmoved, helement'⟩ :=
        UniformTable.get?_noteSpans_last hnotes (hmet index hindex)
      obtain ⟨hregister, hsame⟩ := Leaf.spanInside_spaced packing
        (decl.elementPath (.root decl.name) 0) (decl.elementPath (.root decl.name) index)
        (registerWidth * register.toNat) (index * nextWhole ((Rule.hlsl packing).endAt
          Leaf.registerShape (Variable.body decl.rowMajor fields) 0)) met
      rw [Nat.zero_mul] at hbase helement
      exact ⟨first, later, _, _, hfirst, hlater, hbase, hmoved, hregister,
        helement'.trans (hsame.trans helement.symm)⟩

theorem elements_evenlySpaced_skeleton :
    (∃ (members : List Member) (finish : Nat) (rests : List String) (elements : Nat → List Member),
      Rule.std140.layoutMembers "mesh" true [skeleton] 3 = .ok (members, finish) ∧
      members = elements 0 ++ elements 1 ∧ rests.length = 4 ∧
      (elements 1).map Member.name = rests.map (elementName "mesh.bones" 1 ++ ·) ∧
      List.Forall₂ (Member.SpacedBy 8) (elements 0) (elements 1)) ∧
    ∃ linked first later base moved,
      UniformTable.linkUniform [exposureEntry] .vertex .hlsl11 skeleton 5 = .ok linked ∧
      linked.value.get? "bones[0].joint.range" = some first ∧
      linked.value.get? "bones[1].joint.range" = some later ∧
      first.registers.get .vertex = some base ∧ later.registers.get .vertex = some moved ∧
      moved.toNat = min (base.toNat + 7) maxWord ∧ later.element = first.element := by
  constructor
  · obtain ⟨body, members, size, finish, rests, elements, hbody, hmembers, hlength, helements,
      hspaced⟩ := elements_evenlySpaced.1 .std140 "mesh" true skeleton.decl skeleton.fields 3
        (by decide) (by decide +kernel)
    obtain ⟨hnames, hspaced⟩ := hspaced 1 (by decide)
    have hsize : (Rule.std140.layoutMembers "mesh" true skeleton.fields 0).map
        (fun result => (result.1.length, nextWhole result.2)) = .ok (4, 8) := by decide +kernel
    have hbody : Rule.std140.layoutMembers "mesh" true skeleton.fields 0 = .ok (body, size) := hbody
    rw [hbody] at hsize
    injection hsize with hcounts
    injection hcounts with hfour height
    have hrange : List.range skeleton.decl.arraySize.toNat = [0, 1] := by decide
    rw [hrange] at helements
    rw [height] at hspaced
    exact ⟨members, finish, rests, elements, hmembers, by simpa using helements,
      hlength.symm.trans hfour, hnames, hspaced⟩
  · obtain ⟨size, rests, hsize, hleaves, hlink, hspaced⟩ := elements_evenlySpaced.2 .packed .vertex
      .hlsl11 [exposureEntry] skeleton.decl skeleton.fields 5 rfl (by decide) (by decide +kernel)
    obtain ⟨linked, hlinked⟩ := hlink (by decide +kernel)
    have heval : skeleton.fields.foldlM
        (fun position f => (Rule.hlsl .packed).endOf f position) 0 = .ok 26 := by decide +kernel
    obtain rfl : 26 = size := Except.ok.inj (heval.symm.trans hsize)
    have hrest : ".joint.range" ∈ rests := by
      have hmem : "bones[0].joint.range" ∈ skeleton.leaves.map Leaf.uniformName := by decide +kernel
      rw [show skeleton = .struct skeleton.decl skeleton.fields from rfl, hleaves] at hmem
      obtain ⟨index, -, hmem⟩ := List.mem_flatMap.mp hmem
      obtain ⟨rest, hrest, hname⟩ := List.mem_map.mp hmem
      have hsplit : elementName "bones" index ++ rest = elementName "bones" 0 ++ ".joint.range" :=
        hname.trans (by decide +kernel)
      rwa [← (elementName_append_inj hsplit).2]
    obtain ⟨first, later, base, moved, hfirst, hlater, hbase, hmoved, hregister, helement⟩ :=
      hspaced linked hlinked 1 (by decide) ".joint.range" hrest
    exact ⟨linked, first, later, base, moved, hlinked, hfirst, hlater, hbase, hmoved, hregister,
      helement⟩

end ShaderInterface
