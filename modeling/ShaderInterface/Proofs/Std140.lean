import ShaderInterface.Proofs.UnboundedWalk

namespace ShaderInterface

namespace Std140

/-- What something asks for in a standard block, in components. -/
@[ext] structure Room where
  alignment : Nat
  size : Nat
  deriving DecidableEq, Repr

namespace Room

/-- A vector of three is aligned like one of four. -/
def vector (width : Nat) : Room := ⟨if width = 3 then 4 else width, width⟩

def stride (element : Room) : Nat := roundUp element.size registerWidth

def array (element : Room) (count : Nat) : Room :=
  ⟨roundUp element.alignment registerWidth, count * element.stride⟩

/-- A struct whose fields end a number of components after its start. -/
def struct (fieldsEnd : Nat) : Room := ⟨registerWidth, roundUp fieldsEnd registerWidth⟩

/-- An array of elements, or a single one, as it was declared. -/
def declared (element : Room) (decl : Declarator) : Room :=
  if decl.isArray then element.array decl.elementCount else element

/-- Where something starts that follows a member ending at a position. -/
def startAfter (room : Room) (position : Nat) : Nat := roundUp position room.alignment

def endAfter (room : Room) (position : Nat) : Nat := room.startAfter position + room.size

end Room

/-- A vector of a type: the whole value, or a column of a matrix, or a row of it if it is row major. -/
def vectorRoom (rowMajor : Bool) : DataType → Room
  | .vector _ width => .vector width.toNat
  | .matrix columns rows => .vector (if rowMajor then columns.toNat else rows.toNat)
  | .sampler _ => .vector 1

/-- A single value of a type. A matrix is an array of its vectors. -/
def valueRoom (rowMajor : Bool) : DataType → Room
  | .matrix columns rows =>
    (vectorRoom rowMajor (.matrix columns rows)).array (if rowMajor then rows.toNat else columns.toNat)
  | type => vectorRoom rowMajor type

mutual

/-- What a variable asks for among structs of the given row majorness. -/
def room (rowMajor : Bool) : Variable → Room
  | .basic decl type => (valueRoom rowMajor type).declared decl
  | .struct decl fields =>
    (Room.struct (fieldsEnd (rowMajor || decl.rowMajor) fields 0)).declared decl

def fieldsEnd (rowMajor : Bool) : List Variable → Nat → Nat
  | [], position => position
  | f :: fs, position => fieldsEnd rowMajor fs ((room rowMajor f).endAfter position)

end

mutual

/-- The leaves of a variable that starts at an offset, each with its own offset. -/
def leaves (path : Path) (rowMajor : Bool) : Variable → Nat → List (Leaf × Nat)
  | .basic decl type, offset => [(⟨path, rowMajor, decl, type⟩, offset)]
  | .struct decl fields, offset =>
    let stride := (Room.struct (fieldsEnd (rowMajor || decl.rowMajor) fields 0)).stride
    (List.range' 0 decl.elementCount).flatMap fun index =>
      fieldLeaves (decl.elementPath path index) (rowMajor || decl.rowMajor) fields
        (offset + index * stride) 0

def fieldLeaves (path : Path) (rowMajor : Bool) : List Variable → Nat → Nat → List (Leaf × Nat)
  | [], _, _ => []
  | f :: fs, offset, position =>
    leaves (path.field f.name) rowMajor f (offset + (room rowMajor f).startAfter position) ++
      fieldLeaves path rowMajor fs offset ((room rowMajor f).endAfter position)

end

def arrayStride (leaf : Leaf) : Nat :=
  if leaf.decl.isArray then (valueRoom leaf.rowMajor leaf.type).stride else 0

def matrixStride (leaf : Leaf) : Nat :=
  if leaf.type.isMatrix then (vectorRoom leaf.rowMajor leaf.type).stride else 0

def info (placed : Leaf × Nat) : MemberInfo where
  offset := clampOffset (placed.2 * componentBytes)
  arrayStride := clampOffset (arrayStride placed.1 * componentBytes)
  matrixStride := clampOffset (matrixStride placed.1 * componentBytes)
  rowMajorMatrix := placed.1.type.isMatrix && placed.1.rowMajor

def entry (block : UInt32) (placed : Leaf × Nat) : UniformEntry :=
  .unused placed.1.memberName placed.1.type placed.1.decl.arraySize (some block) (info placed)

theorem vectorRoom_eq (leaf : Leaf) :
    vectorRoom leaf.rowMajor leaf.type = .vector leaf.memberShape.vectorWidth := by
  rcases leaf with ⟨path, rowMajor, decl, type⟩
  rcases type with ⟨kind, width⟩ | ⟨columns, rows⟩ | s
  · cases width <;> rfl
  · cases rowMajor <;> cases columns <;> cases rows <;> rfl
  · rfl

theorem valueRoom_eq (leaf : Leaf) :
    valueRoom leaf.rowMajor leaf.type =
      if leaf.memberShape.isMatrix then
        (Room.vector leaf.memberShape.vectorWidth).array leaf.memberShape.vectorCount
      else .vector leaf.memberShape.vectorWidth := by
  have hv := vectorRoom_eq leaf
  rcases leaf with ⟨path, rowMajor, decl, type⟩
  rcases type with ⟨kind, width⟩ | ⟨columns, rows⟩ | s
  · exact hv
  · cases rowMajor <;> cases columns <;> cases rows <;> rfl
  · rfl

theorem stride_vectorRoom (leaf : Leaf) :
    (vectorRoom leaf.rowMajor leaf.type).stride = registerWidth := by
  have hpos := Shape.vectorWidth_pos leaf.wellFormed_memberShape
  have hle := Shape.vectorWidth_le leaf.wellFormed_memberShape
  rw [vectorRoom_eq]
  simp only [Room.stride, Room.vector]
  unfold roundUp registerWidth at *
  omega

theorem stride_valueRoom (leaf : Leaf) :
    (valueRoom leaf.rowMajor leaf.type).stride = registerWidth * leaf.memberShape.vectorCount := by
  have hs := stride_vectorRoom leaf
  rw [vectorRoom_eq] at hs
  rw [valueRoom_eq]
  split
  case isTrue =>
    simp only [Room.stride, Room.array] at hs ⊢
    rw [hs, Nat.mul_comm]
    exact roundUp_of_dvd (by decide) (Nat.dvd_mul_right ..)
  case isFalse hm =>
    rw [hs, Shape.vectorCount_of_not_isMatrix (by simpa using hm), Nat.mul_one]

theorem strides_memberShape (leaf : Leaf) :
    leaf.memberShape.strides = ⟨arrayStride leaf, matrixStride leaf⟩ := by
  have hm : leaf.memberShape.isMatrix = leaf.type.isMatrix := leaf.type.isMatrix_shape ..
  have ha : leaf.memberShape.isArray = leaf.decl.isArray := rfl
  have hv := @Shape.vectorCount_of_not_isMatrix leaf.memberShape
  unfold Shape.strides arrayStride matrixStride
  rw [stride_valueRoom, stride_vectorRoom, ← hm, ← ha]
  cases h : leaf.memberShape.isMatrix <;> cases leaf.memberShape.isArray <;> simp_all [Strides.none]

theorem info_memberAt (rule : Rule) (met : Leaf × Nat) :
    (rule.memberAt met).placement.info = info (met.1, rule.startAt met.1.memberShape met.2) := by
  simp only [Rule.memberAt, Placement.info, strides_memberShape]
  rfl

theorem alignment_array_valueRoom (leaf : Leaf) (count : Nat) :
    ((valueRoom leaf.rowMajor leaf.type).array count).alignment = registerWidth := by
  have hpos := Shape.vectorWidth_pos leaf.wellFormed_memberShape
  have hle := Shape.vectorWidth_le leaf.wellFormed_memberShape
  rw [valueRoom_eq]
  simp only [Room.array]
  unfold roundUp registerWidth at *
  split <;> simp only [Room.vector] <;> split <;> omega

theorem alignment_room_basic (leaf : Leaf) :
    (room leaf.rowMajor (.basic leaf.decl leaf.type)).alignment = leaf.memberShape.baseAlignment := by
  have ha : leaf.memberShape.isArray = leaf.decl.isArray := rfl
  simp only [room, Room.declared, Shape.baseAlignment, Shape.isCompound, ha]
  cases hd : leaf.decl.isArray with
  | true => simp [alignment_array_valueRoom]
  | false =>
    cases hm : leaf.memberShape.isMatrix with
    | true =>
      have hv := alignment_array_valueRoom leaf 0
      rw [valueRoom_eq, hm] at hv ⊢
      simp only [Room.array, if_true, Bool.or_false, Bool.false_eq_true, if_false] at hv ⊢
      rwa [roundUp_of_dvd (by decide) (dvd_roundUp ..)] at hv
    | false =>
      rw [valueRoom_eq, hm, ← Shape.vectorWidth_of_not_isMatrix hm]
      rfl

theorem size_room_basic (leaf : Leaf) :
    (room leaf.rowMajor (.basic leaf.decl leaf.type)).size =
      Rule.std140.extent leaf.memberShape := by
  have ha : leaf.memberShape.isArray = leaf.decl.isArray := rfl
  have he : leaf.memberShape.elementCount = leaf.decl.elementCount := rfl
  have hs := stride_valueRoom leaf
  simp only [room, Room.declared, Rule.extent, Shape.isCompound, ha, Shape.vectorTotal, he]
  cases hd : leaf.decl.isArray with
  | true =>
    simp only [Room.array, hs, Bool.or_true, if_true]
    rw [Nat.mul_comm, Nat.mul_assoc]
  | false =>
    rw [leaf.decl.elementCount_eq_one hd, valueRoom_eq]
    have hw := stride_vectorRoom leaf
    rw [vectorRoom_eq] at hw
    cases hm : leaf.memberShape.isMatrix with
    | true =>
      simp only [Room.array, hw, Bool.or_false, if_true, Bool.false_eq_true, if_false]
      rw [Nat.mul_comm, Nat.mul_one]
    | false =>
      rw [← Shape.vectorWidth_of_not_isMatrix hm]
      rfl

theorem alignment_room_struct (rowMajor : Bool) (decl : Declarator) (fields : List Variable) :
    (room rowMajor (.struct decl fields)).alignment = registerWidth := by
  simp only [room, Room.declared]
  split
  · exact roundUp_of_dvd (by decide) (Nat.dvd_refl _)
  · rfl

theorem alignment_room_pos (rowMajor : Bool) (v : Variable) : 0 < (room rowMajor v).alignment := by
  cases v with
  | basic decl type =>
    have hb := Shape.baseAlignment_mem (Leaf.wellFormed_memberShape ⟨.root "", rowMajor, decl, type⟩)
    rw [alignment_room_basic ⟨.root "", rowMajor, decl, type⟩]
    omega
  | struct decl fields =>
    rw [alignment_room_struct]
    decide

theorem alignment_room_dvd (rowMajor : Bool) (v : Variable) :
    (room rowMajor v).alignment ∣ registerWidth := by
  cases v with
  | basic decl type =>
    have hb := Shape.baseAlignment_mem (Leaf.wellFormed_memberShape ⟨.root "", rowMajor, decl, type⟩)
    rw [alignment_room_basic ⟨.root "", rowMajor, decl, type⟩]
    rcases hb with hb | hb | hb <;> rw [hb] <;> decide
  | struct decl fields =>
    have ha := alignment_room_struct rowMajor decl fields
    exact ⟨1, by rw [ha, Nat.mul_one]⟩

/-- Inside a struct that starts a register, positions may be counted from its start. -/
theorem startAfter_add (rowMajor : Bool) (v : Variable) {offset : Nat} (h : registerWidth ∣ offset)
    (position : Nat) :
    (room rowMajor v).startAfter (offset + position) =
      offset + (room rowMajor v).startAfter position :=
  roundUp_add position (alignment_room_pos rowMajor v)
    (Nat.dvd_trans (alignment_room_dvd rowMajor v) h)

/-- A walk over a variable in a standard block leads and places as the rules say. -/
def Conforms (v : Variable) : Prop :=
  ∀ (path : Path) (rowMajor : Bool) (position : Nat),
    Rule.std140.endAt Leaf.memberShape (v.visits path rowMajor) position =
        (room rowMajor v).endAfter position ∧
      Rule.std140.placed (v.visits path rowMajor) position =
        leaves path rowMajor v ((room rowMajor v).startAfter position)

theorem conforms_basic (decl : Declarator) (type : DataType) : Conforms (.basic decl type) := by
  intro path rowMajor position
  have hs := size_room_basic ⟨path, rowMajor, decl, type⟩
  have ha := alignment_room_basic ⟨path, rowMajor, decl, type⟩
  constructor
  · simp only [Variable.visits, Rule.endAt_cons, Rule.endAt_nil, Rule.moveAt, Rule.startAt,
      Room.endAfter, Room.startAfter, hs, ha]
  · simp only [Variable.visits, Rule.placed, Rule.reached, List.map_cons, List.map_nil, Rule.startAt,
      leaves, Room.startAfter, ha]

theorem conforms_fields {fields : List Variable} (h : ∀ f ∈ fields, Conforms f) (path : Path)
    (rowMajor : Bool) {offset : Nat} (ho : registerWidth ∣ offset) (position : Nat) :
    Rule.std140.endAt Leaf.memberShape (Variable.fieldVisits path rowMajor fields)
        (offset + position) = offset + fieldsEnd rowMajor fields position ∧
      Rule.std140.placed (Variable.fieldVisits path rowMajor fields) (offset + position) =
        fieldLeaves path rowMajor fields offset position := by
  induction fields generalizing position with
  | nil => exact ⟨rfl, rfl⟩
  | cons f fs ih =>
    obtain ⟨hend, hplaced⟩ := h f List.mem_cons_self (path.field f.name) rowMajor (offset + position)
    rw [startAfter_add rowMajor f ho] at hplaced
    rw [Room.endAfter, startAfter_add rowMajor f ho, Nat.add_assoc, ← Room.endAfter] at hend
    obtain ⟨ihend, ihplaced⟩ := ih (fun g hg => h g (List.mem_cons_of_mem _ hg))
      ((room rowMajor f).endAfter position)
    simp only [Variable.fieldVisits, fieldsEnd, fieldLeaves]
    rw [Rule.endAt_append, Rule.placed_append, hend, hplaced, ihend, ihplaced]
    exact ⟨rfl, rfl⟩

theorem stride_struct (fieldsEnd : Nat) :
    (Room.struct fieldsEnd).stride = roundUp fieldsEnd registerWidth :=
  roundUp_of_dvd (by decide) (dvd_roundUp ..)

theorem conforms_element {fields : List Variable} (h : ∀ f ∈ fields, Conforms f) (path : Path)
    (rowMajor : Bool) (decl : Declarator) (index position : Nat) :
    let visits := Variable.elementVisits path rowMajor decl fields index
    let start := roundUp position registerWidth
    Rule.std140.endAt Leaf.memberShape visits position =
        start + (Room.struct (fieldsEnd rowMajor fields 0)).stride ∧
      Rule.std140.placed visits position =
        fieldLeaves (decl.elementPath path index) rowMajor fields start 0 := by
  intro visits start
  have hd := dvd_roundUp position registerWidth
  obtain ⟨hend, hplaced⟩ := conforms_fields h (decl.elementPath path index) rowMajor hd 0
  rw [Nat.add_zero] at hend hplaced
  constructor
  · rw [Rule.endAt_elementVisits, hend, stride_struct]
    exact roundUp_add _ (by decide) hd
  · rw [Rule.placed_elementVisits, hplaced]

theorem conforms_elements {fields : List Variable} (h : ∀ f ∈ fields, Conforms f) (path : Path)
    (rowMajor : Bool) (decl : Declarator) {offset : Nat} (ho : registerWidth ∣ offset)
    (count first : Nat) :
    let stride := (Room.struct (fieldsEnd rowMajor fields 0)).stride
    Rule.std140.endAt Leaf.memberShape (Variable.elementRun path rowMajor decl fields first count)
        (offset + first * stride) = offset + (first + count) * stride ∧
      Rule.std140.placed (Variable.elementRun path rowMajor decl fields first count)
        (offset + first * stride) =
        (List.range' first count).flatMap fun index =>
          fieldLeaves (decl.elementPath path index) rowMajor fields (offset + index * stride) 0 := by
  intro stride
  induction count generalizing first with
  | zero => exact ⟨rfl, rfl⟩
  | succ count ih =>
    have hs : registerWidth ∣ offset + first * stride := by
      refine (Nat.dvd_add_right ho).mpr (Nat.dvd_trans ?_ (Nat.dvd_mul_left ..))
      exact dvd_roundUp ..
    obtain ⟨hend, hplaced⟩ := conforms_element h path rowMajor decl first (offset + first * stride)
    rw [roundUp_of_dvd (by decide) hs] at hend hplaced
    have hnext : offset + first * stride + stride = offset + (first + 1) * stride := by
      rw [Nat.add_mul, Nat.one_mul, Nat.add_assoc]
    obtain ⟨ihend, ihplaced⟩ := ih (first + 1)
    rw [Variable.elementRun_succ, Rule.endAt_append, Rule.placed_append, hend, hplaced, hnext, ihend,
      ihplaced, List.range'_succ, List.flatMap_cons]
    exact ⟨by rw [Nat.add_assoc first 1 count, Nat.add_comm 1 count], rfl⟩

theorem size_room_struct (rowMajor : Bool) (decl : Declarator) (fields : List Variable) :
    (room rowMajor (.struct decl fields)).size =
      decl.elementCount *
        (Room.struct (fieldsEnd (rowMajor || decl.rowMajor) fields 0)).stride := by
  simp only [room, Room.declared]
  split
  case isTrue => rfl
  case isFalse h =>
    rw [decl.elementCount_eq_one (by simpa using h), Nat.one_mul, stride_struct]
    rfl

theorem conforms_struct (decl : Declarator) {fields : List Variable}
    (h : ∀ f ∈ fields, Conforms f) : Conforms (.struct decl fields) := by
  intro path rowMajor position
  let inner := rowMajor || decl.rowMajor
  have hd := dvd_roundUp position registerWidth
  obtain ⟨hend, hplaced⟩ := conforms_element h path inner decl 0 position
  -- The first element is entered at any position, the others where the one before ended.
  obtain ⟨count, hc⟩ : ∃ count, decl.elementCount = count + 1 :=
    Nat.exists_eq_add_one_of_ne_zero (Nat.ne_of_gt decl.elementCount_pos)
  obtain ⟨hrest, hplacedRest⟩ := conforms_elements h path inner decl hd count 1
  rw [Nat.one_mul] at hrest hplacedRest
  have hv : Variable.visits path rowMajor (.struct decl fields) =
      Variable.elementVisits path inner decl fields 0 ++
        Variable.elementRun path inner decl fields 1 count := by
    rw [Variable.visits_struct, hc, Variable.elementRun_succ]
  have hstart : (room rowMajor (.struct decl fields)).startAfter position =
      roundUp position registerWidth := by
    rw [Room.startAfter, alignment_room_struct]
  constructor
  · rw [hv, Rule.endAt_append, hend, hrest, Room.endAfter, hstart, size_room_struct, hc,
      Nat.add_comm 1 count]
  · rw [hv, Rule.placed_append, hend, hplaced, hplacedRest, hstart, leaves, hc, List.range'_succ,
      List.flatMap_cons, Nat.zero_mul]
    rfl

theorem conforms (v : Variable) : Conforms v := by
  induction v with
  | basic decl type => exact conforms_basic decl type
  | struct decl fields ih => exact conforms_struct decl ih

theorem endAt_fieldVisits (path : Path) (rowMajor : Bool) (fields : List Variable) :
    Rule.std140.endAt Leaf.memberShape (Variable.fieldVisits path rowMajor fields) 0 =
      fieldsEnd rowMajor fields 0 := by
  have h := (conforms_fields (fun f (_ : f ∈ fields) => conforms f) path rowMajor
    (Nat.dvd_zero registerWidth) 0).1
  rwa [Nat.zero_add, Nat.zero_add] at h

theorem map_entry_reached (rule : Rule) (block : UInt32) (visits : List Visit) (position : Nat) :
    ((rule.reached Leaf.memberShape visits position).map rule.memberAt).map (Member.entry block) =
      (rule.placed visits position).map (entry block) := by
  unfold Rule.placed
  rw [List.map_map, List.map_map]
  congr 1
  funext met
  simp only [Function.comp, Member.entry, info_memberAt]
  rfl

/-- A vector of three after a scalar, and a struct array with a row major matrix, an array and a struct
in it. -/
def sceneFields : List Variable :=
  [.basic ⟨"time", 0, false, true⟩ (.vector .float .one),
    .basic ⟨"eye", 0, false, true⟩ (.vector .float .three),
    .struct ⟨"lights", 2, true, true⟩
      [.basic ⟨"cone", 0, false, true⟩ (.matrix .two .three),
        .basic ⟨"weights", 3, false, true⟩ (.vector .float .one),
        .struct ⟨"fog", 0, false, true⟩ [.basic ⟨"range", 0, false, true⟩ (.vector .float .two)],
        .basic ⟨"power", 0, false, true⟩ (.vector .float .two)],
    .basic ⟨"mode", 0, false, true⟩ (.vector .int .one)]

end Std140

end ShaderInterface
