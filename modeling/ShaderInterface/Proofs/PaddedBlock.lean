import ShaderInterface.Padding
import ShaderInterface.Proofs.Std140

namespace ShaderInterface

def select {α : Type} : List Bool → List α → List α
  | true :: marks, x :: xs => x :: select marks xs
  | false :: marks, _ :: xs => select marks xs
  | _, _ => []

theorem select_append {α : Type} {marks : List Bool} {xs : List α} (h : marks.length = xs.length)
    (marks' : List Bool) (xs' : List α) :
    select (marks ++ marks') (xs ++ xs') = select marks xs ++ select marks' xs' := by
  induction marks generalizing xs with
  | nil =>
    have hx : xs = [] := List.eq_nil_of_length_eq_zero h.symm
    rw [hx]
    rfl
  | cons mark marks ih =>
    cases xs with
    | nil => simp at h
    | cons x xs =>
      have hlength : marks.length = xs.length := by simpa using h
      have hrest := ih hlength
      cases mark with
      | true => exact congrArg (List.cons x) hrest
      | false => exact hrest

theorem select_map {α β : Type} (f : α → β) (marks : List Bool) (xs : List α) :
    select marks (xs.map f) = (select marks xs).map f := by
  induction marks generalizing xs with
  | nil => rfl
  | cons mark marks ih =>
    cases xs with
    | nil => cases mark <;> rfl
    | cons x xs =>
      cases mark with
      | true => exact congrArg (List.cons (f x)) (ih xs)
      | false => exact ih xs

/-- Marks for each of some values, with the marked values as given. -/
def Selects {α : Type} (marks : List Bool) (xs ys : List α) : Prop :=
  marks.length = xs.length ∧ select marks xs = ys

theorem Selects.append {α : Type} {marks marks' : List Bool} {xs xs' ys ys' : List α}
    (h : Selects marks xs ys) (h' : Selects marks' xs' ys') :
    Selects (marks ++ marks') (xs ++ xs') (ys ++ ys') := by
  constructor
  · rw [List.length_append, List.length_append, h.1, h'.1]
  · rw [select_append h.1, h.2, h'.2]

theorem selects_none {α : Type} (xs : List α) :
    Selects (List.replicate xs.length false) xs [] := by
  constructor
  · exact List.length_replicate
  · induction xs with
    | nil => rfl
    | cons x xs ih => exact ih

namespace Padding

def filler (number : Nat) : Variable :=
  .basic ⟨Fillers.name number, 0, false, true⟩ (.vector .float .one)

def fillers (next count : Nat) : List Variable := (List.range' next count).map filler

mutual

/-- A variable with the bodies of its structs padded. The fillers are numbered from `next` on; with the
variable comes the first number that is free after it. -/
def padded (rowMajor : Bool) : Variable → Nat → Variable × Nat
  | .basic decl type, next => (.basic decl type, next)
  | .struct decl fields, next =>
    let body := paddedFields (rowMajor || decl.rowMajor) fields 0 next
    (.struct decl body.1, body.2)

/-- Fields with the fillers around each of them, where the first would start at an element index. -/
def paddedFields (rowMajor : Bool) : List Variable → (index next : Nat) → List Variable × Nat
  | [], _, next => ([], next)
  | f :: fs, index, next =>
    let own := padded rowMajor f (next + (before f index).count)
    let rest := paddedFields rowMajor fs (before f index).index (own.2 + after (!rowMajor) f)
    (fillers next (before f index).count ++
      own.1 :: (fillers own.2 (after (!rowMajor) f) ++ rest.1), rest.2)

end

mutual

/-- For every leaf of a padded variable, whether it is one of the variable's own. -/
def marks (rowMajor : Bool) : Variable → List Bool
  | .basic _ _ => [true]
  | .struct decl fields =>
    (List.range' 0 decl.elementCount).flatMap fun _ =>
      fieldMarks (rowMajor || decl.rowMajor) fields 0

def fieldMarks (rowMajor : Bool) : List Variable → (index : Nat) → List Bool
  | [], _ => []
  | f :: fs, index =>
    List.replicate (before f index).count false ++
      (marks rowMajor f ++ (List.replicate (after (!rowMajor) f) false ++
        fieldMarks rowMajor fs (before f index).index))

end

open Position

abbrev registers : Rule := .hlsl .packed

theorem moveAt_filler (path : Path) (rowMajor : Bool) (number position : Nat) :
    registers.moveAt Leaf.memberShape position
        (.leaf ⟨path, rowMajor, ⟨Fillers.name number, 0, false, true⟩, .vector .float .one⟩) =
      position + 1 := by
  have hc : ¬registerWidth < 1 + element position := by
    unfold element registerWidth
    omega
  change (if _ then roundUp position registerWidth else position) + 1 = position + 1
  rw [if_neg (fun h => h.elim Bool.noConfusion hc)]

theorem endAt_fillers (path : Path) (rowMajor : Bool) (next count position : Nat) :
    registers.endAt Leaf.memberShape (Variable.fieldVisits path rowMajor (fillers next count))
      position = position + count := by
  induction count generalizing next position with
  | zero => rfl
  | succ count ih =>
    change registers.endAt _ (Variable.fieldVisits path rowMajor (fillers (next + 1) count))
      (registers.moveAt _ position (.leaf ⟨_, _, _, _⟩)) = _
    rw [moveAt_filler, ih]
    omega

theorem selects_fillers (path : Path) (rowMajor : Bool) (next count position : Nat) :
    Selects (List.replicate count false)
      (registers.placed (Variable.fieldVisits path rowMajor (fillers next count)) position) [] := by
  have hlen : (registers.placed (Variable.fieldVisits path rowMajor (fillers next count))
      position).length = count := by
    induction count generalizing next position with
    | zero => rfl
    | succ count ih => exact congrArg (· + 1) (ih (next + 1) _)
  have h := selects_none
    (registers.placed (Variable.fieldVisits path rowMajor (fillers next count)) position)
  rwa [hlen] at h

theorem name_padded (rowMajor : Bool) (v : Variable) (next : Nat) :
    (padded rowMajor v next).1.name = v.name := by
  cases v with
  | basic decl type => rfl
  | struct decl fields => rfl

/-- A padded variable fills the place of the variable in a standard block, wherever that starts: with
the fillers around it, it ends where the variable does, and its own leaves are where the variable has
them. -/
def Fits (v : Variable) : Prop :=
  ∀ (path : Path) (rowMajor : Bool) (next position : Nat),
    let visits := (padded rowMajor v next).1.visits path rowMajor
    let start := position + (before v (element position)).count
    let finish := Rule.std140.endAt Leaf.memberShape (v.visits path rowMajor) position
    registers.endAt Leaf.memberShape visits start + after (!rowMajor) v = finish ∧
      (before v (element position)).index = element finish ∧
      Selects (marks rowMajor v) (registers.placed visits start)
        (Rule.std140.placed (v.visits path rowMajor) position)

theorem fits_fields {fields : List Variable} (h : ∀ f ∈ fields, Fits f) (path : Path)
    (rowMajor : Bool) (next position : Nat) :
    let visits :=
      Variable.fieldVisits path rowMajor (paddedFields rowMajor fields (element position) next).1
    let finish :=
      Rule.std140.endAt Leaf.memberShape (Variable.fieldVisits path rowMajor fields) position
    registers.endAt Leaf.memberShape visits position = finish ∧
      indexAfter fields (element position) = element finish ∧
      Selects (fieldMarks rowMajor fields (element position)) (registers.placed visits position)
        (Rule.std140.placed (Variable.fieldVisits path rowMajor fields) position) := by
  induction fields generalizing next position with
  | nil => exact ⟨rfl, rfl, rfl, rfl⟩
  | cons f fs ih =>
    let count := (before f (element position)).count
    let own := padded rowMajor f (next + count)
    obtain ⟨hend, hindex, hown⟩ :=
      h f (List.mem_cons_self ..) (path.field f.name) rowMajor (next + count) position
    obtain ⟨ihend, ihindex, ihsel⟩ := ih (fun g hg => h g (List.mem_cons_of_mem _ hg))
      (own.2 + after (!rowMajor) f)
      (Rule.std140.endAt Leaf.memberShape (f.visits (path.field f.name) rowMajor) position)
    rw [← hindex] at ihend ihindex ihsel
    have hv : Variable.fieldVisits path rowMajor
        (paddedFields rowMajor (f :: fs) (element position) next).1 =
        Variable.fieldVisits path rowMajor (fillers next count) ++
          (own.1.visits (path.field f.name) rowMajor ++
            (Variable.fieldVisits path rowMajor (fillers own.2 (after (!rowMajor) f)) ++
              Variable.fieldVisits path rowMajor
                (paddedFields rowMajor fs (before f (element position)).index
                  (own.2 + after (!rowMajor) f)).1)) := by
      rw [paddedFields, Variable.fieldVisits_append, Variable.fieldVisits, Variable.fieldVisits_append,
        name_padded]
    dsimp only
    rw [hv, Variable.fieldVisits, @Rule.endAt_append .std140]
    refine ⟨?_, ihindex, ?_⟩
    · rw [Rule.endAt_append, Rule.endAt_append, Rule.endAt_append, endAt_fillers, endAt_fillers, hend,
        ihend]
    · rw [Rule.placed_append, Rule.placed_append, Rule.placed_append, endAt_fillers, endAt_fillers,
        hend, Rule.placed_append, fieldMarks]
      exact (selects_fillers ..).append (hown.append ((selects_fillers ..).append ihsel))

theorem element_roundUp (position : Nat) : element (roundUp position registerWidth) = 0 :=
  Nat.mod_eq_zero_of_dvd (dvd_roundUp ..)

/-- An element of a padded struct keeps in step with one of the struct, if both start the same
register: it ends at the same position, which the standard block rounds up. -/
theorem fits_element {fields : List Variable} (h : ∀ f ∈ fields, Fits f) (path : Path)
    (rowMajor : Bool) (decl : Declarator) (next index : Nat) {packed standard : Nat}
    (hp : roundUp packed registerWidth = roundUp standard registerWidth) :
    let visits :=
      Variable.elementVisits path rowMajor decl (paddedFields rowMajor fields 0 next).1 index
    let standardVisits := Variable.elementVisits path rowMajor decl fields index
    Rule.std140.endAt Leaf.memberShape standardVisits standard =
        roundUp (registers.endAt Leaf.memberShape visits packed) registerWidth ∧
      structIndex fields = element (registers.endAt Leaf.memberShape visits packed) ∧
      Selects (fieldMarks rowMajor fields 0) (registers.placed visits packed)
        (Rule.std140.placed standardVisits standard) := by
  obtain ⟨hend, hindex, hsel⟩ := fits_fields h (decl.elementPath path index) rowMajor next
    (roundUp standard registerWidth)
  rw [element_roundUp] at hend hindex hsel
  dsimp only
  rw [Rule.endAt_elementVisits, Rule.endAt_elementVisits, Rule.placed_elementVisits,
    Rule.placed_elementVisits, hp]
  refine ⟨?_, ?_, hsel⟩
  · exact congrArg (roundUp · registerWidth) hend.symm
  · exact hindex.trans (congrArg element hend.symm)

theorem fits_elements {fields : List Variable} (h : ∀ f ∈ fields, Fits f) (path : Path)
    (rowMajor : Bool) (decl : Declarator) (next count first : Nat) {packed standard : Nat}
    (hp : roundUp packed registerWidth = roundUp standard registerWidth) :
    let visits := Variable.elementRun path rowMajor decl (paddedFields rowMajor fields 0 next).1 first
      (count + 1)
    let standardVisits := Variable.elementRun path rowMajor decl fields first (count + 1)
    Rule.std140.endAt Leaf.memberShape standardVisits standard =
        roundUp (registers.endAt Leaf.memberShape visits packed) registerWidth ∧
      structIndex fields = element (registers.endAt Leaf.memberShape visits packed) ∧
      Selects ((List.range' first (count + 1)).flatMap fun _ => fieldMarks rowMajor fields 0)
        (registers.placed visits packed) (Rule.std140.placed standardVisits standard) := by
  induction count generalizing first packed standard with
  | zero =>
    simp only [Variable.elementRun, Nat.zero_add, List.range'_one, List.flatMap_cons,
      List.flatMap_nil, List.append_nil]
    exact fits_element h path rowMajor decl next first hp
  | succ count ih =>
    obtain ⟨hend, -, hsel⟩ := fits_element h path rowMajor decl next first hp
    have hnext := congrArg (roundUp · registerWidth) hend
    simp only [roundUp_of_dvd (show 0 < registerWidth by decide) (dvd_roundUp _ registerWidth)] at hnext
    obtain ⟨ihend, ihindex, ihsel⟩ := ih (first + 1) hnext.symm
    rw [Variable.elementRun_succ, Variable.elementRun_succ _ _ _ fields, List.range'_succ,
      List.flatMap_cons]
    simp only [Rule.endAt_append, Rule.placed_append]
    exact ⟨ihend, ihindex, hsel.append ihsel⟩

/-- The fillers after a struct fill up the register that its fields end in. -/
theorem add_after_struct (rowMajorPacking : Bool) (decl : Declarator) {fields : List Variable}
    {position : Nat} (h : structIndex fields = element position) :
    position + after rowMajorPacking (.struct decl fields) = roundUp position registerWidth := by
  simp only [after, lastWidth?, h]
  unfold element roundUp registerWidth
  by_cases hz : position % 4 = 0
  · simp only [hz, if_true]
    omega
  · simp only [hz, if_false]
    omega

theorem fits_struct (decl : Declarator) {fields : List Variable} (h : ∀ f ∈ fields, Fits f) :
    Fits (.struct decl fields) := by
  intro path rowMajor next position
  obtain ⟨count, hc⟩ : ∃ count, decl.elementCount = count + 1 :=
    Nat.exists_eq_add_one_of_ne_zero (Nat.ne_of_gt decl.elementCount_pos)
  obtain ⟨hend, hindex, hsel⟩ := fits_elements h path (rowMajor || decl.rowMajor) decl next count 0
    (Eq.refl (roundUp position registerWidth))
  change registers.endAt _ (Variable.visits path rowMajor (.struct decl _)) _ + _ = _ ∧
    0 = element _ ∧ Selects _ (registers.placed (Variable.visits path rowMajor (.struct decl _)) _) _
  rw [Variable.visits_struct, Variable.visits_struct, marks, hc]
  refine ⟨?_, ?_, hsel⟩
  · rw [hend]
    exact add_after_struct (!rowMajor) decl hindex
  · rw [hend, element_roundUp]

theorem lastWidth?_compound (leaf : Leaf) (h : leaf.memberShape.isCompound = true) :
    lastWidth? (!leaf.rowMajor) (.basic leaf.decl leaf.type) = some leaf.memberShape.vectorWidth := by
  rcases leaf with ⟨path, rowMajor, decl, type⟩
  rcases type with ⟨kind, width⟩ | ⟨columns, rows⟩ | s
  · have ha : decl.isArray = true := h
    simp only [lastWidth?, DataType.isMatrix, ha]
    cases width <;> rfl
  · cases rowMajor <;> cases columns <;> cases rows <;> rfl
  · have ha : decl.isArray = true := h
    simp only [lastWidth?, DataType.isMatrix, ha]
    rfl

theorem fits_compound (leaf : Leaf) (h : leaf.memberShape.isCompound = true) :
    registers.extent leaf.memberShape + after (!leaf.rowMajor) (.basic leaf.decl leaf.type) =
      registerWidth * leaf.memberShape.vectorTotal := by
  have hle := Shape.vectorWidth_le leaf.wellFormed_memberShape
  have htotal := Shape.vectorTotal_pos leaf.wellFormed_memberShape
  simp only [Rule.extent, after, lastWidth?_compound leaf h]
  unfold registerWidth at *
  omega

theorem componentCount_memberShape (leaf : Leaf) :
    leaf.memberShape.componentCount = leaf.type.componentCount :=
  leaf.type.componentCount_shape ..

theorem fits_single (leaf : Leaf) (h : leaf.memberShape.isCompound = false) :
    registers.extent leaf.memberShape = leaf.type.componentCount ∧
      Rule.std140.extent leaf.memberShape = leaf.type.componentCount ∧
      after (!leaf.rowMajor) (.basic leaf.decl leaf.type) = 0 := by
  obtain ⟨hm, ha⟩ : leaf.memberShape.isMatrix = false ∧ leaf.memberShape.isArray = false := by
    simpa [Shape.isCompound] using h
  have htype : leaf.type.isMatrix = false := by
    rw [← hm]
    exact (leaf.type.isMatrix_shape ..).symm
  have hdecl : leaf.decl.isArray = false := ha
  refine ⟨?_, ?_, ?_⟩
  · simp only [Rule.extent, Shape.vectorTotal, Shape.vectorCount_of_not_isMatrix hm,
      Shape.elementCount_of_not_isArray ha, Shape.vectorWidth_of_not_isMatrix hm,
      componentCount_memberShape]
    omega
  · simp only [Rule.extent, h, componentCount_memberShape]
    rfl
  · simp only [after, lastWidth?, htype, hdecl]
    rfl

theorem sharedWidth?_basic (leaf : Leaf) :
    sharedWidth? (.basic leaf.decl leaf.type) =
      if leaf.memberShape.isCompound = true ∨ registerWidth ≤ leaf.type.componentCount then none
      else some leaf.type.componentCount := by
  have hm : leaf.memberShape.isMatrix = leaf.type.isMatrix := leaf.type.isMatrix_shape ..
  have ha : leaf.memberShape.isArray = leaf.decl.isArray := rfl
  simp only [sharedWidth?, Shape.isCompound, hm, ha, Bool.or_eq_true, or_assoc]

theorem componentCount_of_single (leaf : Leaf) (h : leaf.memberShape.isCompound = false) :
    0 < leaf.type.componentCount ∧ leaf.type.componentCount ≤ registerWidth := by
  have hm : leaf.memberShape.isMatrix = false := by simp_all [Shape.isCompound]
  rw [← componentCount_memberShape, ← Shape.vectorWidth_of_not_isMatrix hm]
  exact ⟨Shape.vectorWidth_pos leaf.wellFormed_memberShape,
    Shape.vectorWidth_le leaf.wellFormed_memberShape⟩

/-- A value that packing starts a register for is aligned to a register in a standard block, too. -/
theorem fits_whole (leaf : Leaf) (h : sharedWidth? (.basic leaf.decl leaf.type) = none)
    (position : Nat) :
    registers.startAt leaf.memberShape position = roundUp position registerWidth ∧
      Rule.std140.startAt leaf.memberShape position = roundUp position registerWidth ∧
      registers.extent leaf.memberShape + after (!leaf.rowMajor) (.basic leaf.decl leaf.type) =
        Rule.std140.extent leaf.memberShape ∧
      registerWidth ∣ Rule.std140.extent leaf.memberShape := by
  cases hc : leaf.memberShape.isCompound with
  | true =>
    have hafter := fits_compound leaf hc
    have hextent : Rule.std140.extent leaf.memberShape =
        registerWidth * leaf.memberShape.vectorTotal := by
      simp only [Rule.extent, hc, if_true]
    refine ⟨?_, ?_, hafter.trans hextent.symm, hextent ▸ Nat.dvd_mul_right ..⟩
    · simp only [Rule.startAt, hc, true_or, if_true]
    · simp only [Rule.startAt, Shape.baseAlignment, hc, if_true]
  | false =>
    obtain ⟨hpacked, hstandard, hafter⟩ := fits_single leaf hc
    have hfour : leaf.type.componentCount = 4 := by
      have hle := (componentCount_of_single leaf hc).2
      rw [sharedWidth?_basic, hc] at h
      have hge : registerWidth ≤ leaf.type.componentCount := by simpa using h
      exact Nat.le_antisymm hle hge
    rw [hpacked, hstandard, hafter, hfour]
    refine ⟨?_, ?_, rfl, Nat.dvd_refl _⟩
    · simp only [Rule.startAt, hc, componentCount_memberShape, hfour]
      unfold element roundUp registerWidth
      split <;> omega
    · simp only [Rule.startAt, Shape.baseAlignment, hc, componentCount_memberShape, hfour]
      rfl

/-- The fillers before a vector take it to its alignment, unless packing moves it to the next
register. -/
theorem beforeVector_start {width : Nat} (hpos : 0 < width) (hlt : width < registerWidth)
    (position : Nat) :
    let padding := beforeVector width (element position)
    let start := roundUp position (if width = 3 then 4 else width)
    (if registerWidth < width + element (position + padding.count) then
        roundUp (position + padding.count) registerWidth
      else position + padding.count) = start ∧
      padding.index = element (start + width) := by
  have hwidth : width = 1 ∨ width = 2 ∨ width = 3 := by
    unfold registerWidth at hlt
    omega
  have hindex : element position = 0 ∨ element position = 1 ∨ element position = 2 ∨
      element position = 3 := by
    unfold element registerWidth
    omega
  -- With the width and the index known, so are the fillers; the rest is arithmetic of registers.
  rcases hwidth with rfl | rfl | rfl <;> rcases hindex with hi | hi | hi | hi
  all_goals
    rw [hi]
    unfold element at hi ⊢
    simp only [beforeVector, roundUp, registerWidth, Nat.reduceAdd, Nat.reduceLT, Nat.reduceMod,
      Nat.reduceEqDiff, if_true, if_false] at hi ⊢
    constructor <;> (try split) <;> omega

/-- A vector that may share a register is moved by the fillers before it, or by packing, to where a
standard block aligns it. -/
theorem fits_shared (leaf : Leaf) {width : Nat}
    (h : sharedWidth? (.basic leaf.decl leaf.type) = some width) (position : Nat) :
    let padding := beforeVector width (element position)
    let start := Rule.std140.startAt leaf.memberShape position
    registers.startAt leaf.memberShape (position + padding.count) = start ∧
      registers.extent leaf.memberShape = width ∧ Rule.std140.extent leaf.memberShape = width ∧
      after (!leaf.rowMajor) (.basic leaf.decl leaf.type) = 0 ∧
      padding.index = element (start + width) := by
  obtain ⟨hc, hlt, hw⟩ : leaf.memberShape.isCompound = false ∧ width < registerWidth ∧
      leaf.type.componentCount = width := by
    rw [sharedWidth?_basic] at h
    split at h
    case isTrue => cases h
    case isFalse hn =>
      cases h
      exact ⟨by simp_all, by omega, rfl⟩
  obtain ⟨hpacked, hstandard, hafter⟩ := fits_single leaf hc
  have hpos := (componentCount_of_single leaf hc).1
  rw [hw] at hpacked hstandard hpos
  obtain ⟨hstart, hindex⟩ := beforeVector_start hpos hlt position
  have halign : leaf.memberShape.baseAlignment = if width = 3 then 4 else width := by
    simp only [Shape.baseAlignment, hc, componentCount_memberShape, hw]
    rfl
  dsimp only
  simp only [Rule.startAt, halign, hc, componentCount_memberShape, hw, Bool.false_eq_true, false_or]
  exact ⟨hstart, hpacked, hstandard, hafter, hindex⟩

theorem fits_basic (decl : Declarator) (type : DataType) : Fits (.basic decl type) := by
  intro path rowMajor next position
  let leaf : Leaf := ⟨path, rowMajor, decl, type⟩
  simp only [padded, Variable.visits, marks, Rule.placed, Rule.reached, Rule.endAt_cons,
    Rule.endAt_nil, Rule.moveAt, List.map_cons, List.map_nil]
  cases hw : sharedWidth? (.basic decl type) with
  | none =>
    obtain ⟨hpacked, hstandard, hextent, hdvd⟩ := fits_whole leaf hw position
    simp only [before, hw, Nat.add_zero]
    refine ⟨?_, ?_, rfl, ?_⟩
    · rw [hpacked, hstandard, Nat.add_assoc, hextent]
    · rw [hstandard]
      exact (Nat.mod_eq_zero_of_dvd ((Nat.dvd_add_right (dvd_roundUp ..)).mpr hdvd)).symm
    · rw [hpacked, hstandard]
      rfl
  | some width =>
    obtain ⟨hstart, hpacked, hstandard, hafter, hindex⟩ := fits_shared leaf hw position
    simp only [before, hw]
    refine ⟨?_, ?_, rfl, ?_⟩
    · rw [hstart, hpacked, hstandard, hafter, Nat.add_zero]
    · rw [hindex, hstandard]
    · rw [hstart]
      rfl

theorem fits (v : Variable) : Fits v := by
  induction v with
  | basic decl type => exact fits_basic decl type
  | struct decl fields ih => exact fits_struct decl ih

/-- A padded block in packed registers is the standard block with fillers between its members. -/
theorem paddedFields_layout (scope : String) (rowMajor : Bool) (fields : List Variable) (next : Nat)
    (block : UInt32) (h : Std140.fieldsEnd rowMajor fields 0 ≤ last) :
    ∃ packed standard finish,
      (Rule.hlsl .packed).layoutMembers scope rowMajor (paddedFields rowMajor fields 0 next).1 0 =
        .ok (packed, finish) ∧
      Rule.std140.layoutMembers scope rowMajor fields 0 = .ok (standard, finish) ∧
      packed.length = (fieldMarks rowMajor fields 0).length ∧
      (select (fieldMarks rowMajor fields 0) packed).map (Member.entry block) =
        standard.map (Member.entry block) := by
  obtain ⟨hend, -, hlen, hsel⟩ := fits_fields (fun f (_ : f ∈ fields) => fits f) (.root scope) rowMajor
    next 0
  rw [← Std140.endAt_fieldVisits (.root scope)] at h
  have hstandard := Rule.layoutMembers_of_le h
  rw [← hend] at h
  have hpacked := Rule.layoutMembers_of_le h
  rw [hend] at hpacked
  refine ⟨_, _, _, hpacked, hstandard, ?_, ?_⟩
  · rw [List.length_map]
    exact (hlen.trans (List.length_map ..)).symm
  · rw [← select_map, Std140.map_entry_reached, Std140.map_entry_reached, select_map]
    exact congrArg _ hsel

theorem paddedFields_layout_scene :
    Std140.fieldsEnd true Std140.sceneFields 0 ≤ last ∧
      ∃ packed standard finish,
        (Rule.hlsl .packed).layoutMembers "" true (paddedFields true Std140.sceneFields 0 0).1 0 =
          .ok (packed, finish) ∧
        Rule.std140.layoutMembers "" true Std140.sceneFields 0 = .ok (standard, finish) ∧
        packed.length = (fieldMarks true Std140.sceneFields 0).length ∧
        (select (fieldMarks true Std140.sceneFields 0) packed).map (Member.entry 0) =
          standard.map (Member.entry 0) :=
  ⟨by decide, paddedFields_layout "" true Std140.sceneFields 0 0 (by decide)⟩

end Padding

end ShaderInterface
