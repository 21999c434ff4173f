import ShaderInterface.Proofs.Unbounded

namespace ShaderInterface

open Position

/-- What can be done next in a layout under way. -/
inductive LayoutStep where
  | place (shape : Shape)
  | skip (shape : Shape)
  | enter
  | exit
  | skipRegisters (count : UInt32)
  deriving DecidableEq, Repr

def LayoutStep.WellFormed : LayoutStep → Prop
  | place shape | skip shape => shape.WellFormed
  | enter | exit | skipRegisters _ => True

instance : (step : LayoutStep) → Decidable step.WellFormed
  | .place shape | .skip shape => inferInstanceAs (Decidable shape.WellFormed)
  | .enter | .exit | .skipRegisters _ => inferInstanceAs (Decidable True)

structure PlacedMember where
  before : Nat
  placement : Placement
  deriving DecidableEq, Repr

namespace Rule

def runStep (rule : Rule) (position : Nat) :
    LayoutStep → Except Fault (Option PlacedMember × Nat)
  | .place shape => do
    let placement ← rule.place shape position
    return (some ⟨position, placement⟩, placement.finish)
  | .skip shape => do return (none, ← rule.skip shape position)
  | .enter => do return (none, ← rule.enter position)
  | .exit => do return (none, ← rule.exit position)
  | .skipRegisters count => return (none, skipRegisters position count)

/-- Does one step after the other: the values placed, in order, and the position at the end. -/
def runSteps (rule : Rule) : Nat → List LayoutStep → Except Fault (List PlacedMember × Nat)
  | position, [] => return ([], position)
  | position, step :: steps => do
    let (member, next) ← rule.runStep position step
    let (members, finish) ← runSteps rule next steps
    return (member.toList ++ members, finish)

end Rule

/-- The address of a component, given its element, its register vector in the element and its place in
the vector. -/
def MemberInfo.address (info : MemberInfo) (element vector component : Nat) : Int :=
  info.offset.toInt + element * info.arrayStride.toInt + vector * info.matrixStride.toInt +
    componentBytes * component

def PlacedMember.addresses (member : PlacedMember) : List Int :=
  (List.range member.placement.shape.elementCount).flatMap fun element =>
    (List.range member.placement.shape.vectorCount).flatMap fun vector =>
      (List.range member.placement.shape.vectorWidth).map fun component =>
        member.placement.info.address element vector component

/-- The rule puts this value of some data type there, at the position before it. -/
structure PlacedMember.PlacedBy (rule : Rule) (member : PlacedMember) : Prop where
  wellFormed : member.placement.shape.WellFormed
  before_le : member.before ≤ last
  place : rule.place member.placement.shape member.before = .ok member.placement

namespace Rule

theorem finish_bounds {rule : Rule} {shape : Shape} {position : Nat} {placement : Placement}
    (h : shape.WellFormed) (hp : position ≤ last) (hk : rule.place shape position = .ok placement) :
    position ≤ placement.finish ∧ placement.finish ≤ last := by
  have hs := rule.le_startAt h position
  rw [place_eq_ok h hp hk]
  dsimp only
  omega

theorem exit_bounds {rule : Rule} {position next : Nat} (hp : position ≤ last)
    (h : rule.exit position = .ok next) : position ≤ next ∧ next ≤ last := by
  cases rule with
  | std140 =>
    obtain ⟨rfl, hhigh⟩ := nextRegister_eq_ok h
    exact ⟨le_roundUp position (by decide), hhigh⟩
  | hlsl packing =>
    cases h
    exact ⟨Nat.le_refl position, hp⟩

theorem runStep_bounds {rule : Rule} {position next : Nat} {step : LayoutStep}
    {member : Option PlacedMember} (hw : step.WellFormed) (hp : position ≤ last)
    (h : rule.runStep position step = .ok (member, next)) :
    position ≤ next ∧ next ≤ last ∧
      ∀ m ∈ member, m.PlacedBy rule ∧ m.before = position ∧ m.placement.finish = next := by
  cases step with
  | place shape =>
    obtain ⟨placement, hk, h⟩ := bind_eq_ok.mp h
    cases h
    obtain ⟨hlow, hhigh⟩ := finish_bounds hw hp hk
    refine ⟨hlow, hhigh, ?_⟩
    rintro m ⟨⟩
    have hshape := shape_of_place hk
    refine ⟨⟨?_, hp, ?_⟩, rfl, rfl⟩
    · rw [hshape]
      exact hw
    · rw [hshape]
      exact hk
  | skip shape =>
    obtain ⟨finish, hs, h⟩ := bind_eq_ok.mp h
    cases h
    obtain ⟨placement, hk, hf⟩ := bind_eq_ok.mp hs
    cases hf
    obtain ⟨hlow, hhigh⟩ := finish_bounds hw hp hk
    exact ⟨hlow, hhigh, by simp⟩
  | enter =>
    obtain ⟨finish, he, h⟩ := bind_eq_ok.mp h
    cases h
    obtain ⟨rfl, hhigh⟩ := nextRegister_eq_ok he
    exact ⟨le_roundUp position (by decide), hhigh, by simp⟩
  | exit =>
    obtain ⟨finish, he, h⟩ := bind_eq_ok.mp h
    cases h
    obtain ⟨hlow, hhigh⟩ := exit_bounds hp he
    exact ⟨hlow, hhigh, by simp⟩
  | skipRegisters count =>
    cases h
    exact ⟨le_advance _ hp, advance_le_last _ _, by simp⟩

theorem runSteps_bounds {rule : Rule} {position finish : Nat} {steps : List LayoutStep}
    {members : List PlacedMember} (hw : ∀ step ∈ steps, step.WellFormed) (hp : position ≤ last)
    (h : rule.runSteps position steps = .ok (members, finish)) :
    position ≤ finish ∧
      (∀ m ∈ members, m.PlacedBy rule ∧ position ≤ m.before ∧ m.placement.finish ≤ finish) ∧
      members.Pairwise fun m n => m.placement.finish ≤ n.before := by
  induction steps generalizing position members with
  | nil =>
    cases h
    simp
  | cons step steps ih =>
    obtain ⟨⟨member, next⟩, hstep, h⟩ := bind_eq_ok.mp h
    obtain ⟨⟨rest, final⟩, hrun, h⟩ := bind_eq_ok.mp h
    cases h
    obtain ⟨hlow, hhigh, hmember⟩ := runStep_bounds (hw step (by simp)) hp hstep
    obtain ⟨hnext, hrest, hsorted⟩ := ih (fun s hs => hw s (by simp [hs])) hhigh hrun
    refine ⟨Nat.le_trans hlow hnext, ?_, ?_⟩
    · intro m hm
      rcases List.mem_append.mp hm with hm | hm
      · obtain ⟨hby, hbefore, hfinish⟩ := hmember m (by simpa using hm)
        exact ⟨hby, by omega, by omega⟩
      · obtain ⟨hby, hbefore, hfinish⟩ := hrest m hm
        exact ⟨hby, by omega, hfinish⟩
    · -- What this step places ends where the rest of the run starts.
      refine List.pairwise_append.mpr ⟨?_, hsorted, ?_⟩
      · cases member <;> simp
      · intro m hm n hn
        obtain ⟨-, -, hfinish⟩ := hmember m (by simpa using hm)
        obtain ⟨-, hbefore, -⟩ := hrest n hn
        omega

end Rule

namespace PlacedMember

def slot (member : PlacedMember) (element vector component : Nat) : Nat :=
  member.placement.start +
    (registerWidth * (member.placement.shape.vectorCount * element + vector) + component)

theorem vectorNumber_lt {shape : Shape} {element vector : Nat} (he : element < shape.elementCount)
    (hv : vector < shape.vectorCount) :
    shape.vectorCount * element + vector < shape.vectorTotal := by
  calc shape.vectorCount * element + vector
      < shape.vectorCount * (element + 1) := by
        rw [Nat.mul_add, Nat.mul_one]
        omega
    _ ≤ shape.vectorTotal := Nat.mul_le_mul_left _ he

theorem component_lt_extent (rule : Rule) {shape : Shape} (h : shape.WellFormed)
    {number component : Nat} (hn : number < shape.vectorTotal) (hc : component < shape.vectorWidth) :
    registerWidth * number + component < rule.extent shape := by
  have hw := Shape.vectorWidth_le h
  unfold registerWidth at hw
  rcases rule with _ | _ | _
  · simp only [Rule.extent, registerWidth]
    split
    case isTrue => omega
    case isFalse hs =>
      -- A single vector: its number is zero and its width is all that there is.
      have hm : shape.isMatrix = false := by simp_all [Shape.isCompound]
      have ha : shape.isArray = false := by simp_all [Shape.isCompound]
      rw [Shape.vectorWidth_of_not_isMatrix hm] at hc
      rw [Shape.vectorTotal, Shape.vectorCount_of_not_isMatrix hm,
        Shape.elementCount_of_not_isArray ha] at hn
      omega
  · simp only [Rule.extent, registerWidth]
    omega
  · simp only [Rule.extent, registerWidth]
    split <;> omega

variable {rule : Rule} {member : PlacedMember}

theorem PlacedBy.bounds (h : member.PlacedBy rule)
    (hs : member.placement.finish * componentBytes ≤ maxOffset) :
    member.before ≤ member.placement.start ∧
      member.placement.start * componentBytes ≤ maxOffset ∧
      member.placement.finish = member.placement.start + rule.extent member.placement.shape := by
  have hk := Rule.place_eq_ok h.wellFormed h.before_le h.place
  have hstart := congrArg Placement.start hk
  have hfinish := congrArg Placement.finish hk
  have hle := rule.le_startAt h.wellFormed member.before
  dsimp only at hstart hfinish
  unfold maxOffset componentBytes at *
  unfold last at hfinish
  omega

theorem toInt_byteOffset_of_le {components : Nat} (h : components * componentBytes ≤ maxOffset) :
    (byteOffset components).toInt = (components * componentBytes : Nat) := by
  rw [toInt_byteOffset, Nat.min_eq_left h]

theorem element_mul_arrayStride (placement : Placement) {element : Nat}
    (he : element < placement.shape.elementCount) :
    element * placement.info.arrayStride.toInt =
      (registerWidth * (placement.shape.vectorCount * element) * componentBytes : Nat) := by
  cases ha : placement.shape.isArray with
  | true =>
    have hv := placement.shape.vectorCount_lt
    have hsmall : placement.shape.strides.array * componentBytes ≤ maxOffset := by
      rw [Shape.array_strides _ ha]
      unfold registerWidth componentBytes maxOffset
      omega
    rw [Placement.info, toInt_byteOffset_of_le hsmall, Shape.array_strides _ ha]
    grind
  | false =>
    -- One element, whose number is zero.
    rw [Shape.elementCount_of_not_isArray ha] at he
    obtain rfl : element = 0 := by omega
    simp

theorem vector_mul_matrixStride (placement : Placement) {vector : Nat}
    (hv : vector < placement.shape.vectorCount) :
    vector * placement.info.matrixStride.toInt =
      (registerWidth * vector * componentBytes : Nat) := by
  cases hm : placement.shape.isMatrix with
  | true =>
    have hsmall : placement.shape.strides.matrix * componentBytes ≤ maxOffset := by
      rw [Shape.matrix_strides _ hm]
      decide
    rw [Placement.info, toInt_byteOffset_of_le hsmall, Shape.matrix_strides _ hm]
    grind
  | false =>
    rw [Shape.vectorCount_of_not_isMatrix hm] at hv
    obtain rfl : vector = 0 := by omega
    simp

/-- The address that a description gives for a component is the byte where its position is. -/
theorem address_eq (member : PlacedMember) {element vector : Nat} (component : Nat)
    (hs : member.placement.start * componentBytes ≤ maxOffset)
    (he : element < member.placement.shape.elementCount)
    (hv : vector < member.placement.shape.vectorCount) :
    member.placement.info.address element vector component =
      (member.slot element vector component * componentBytes : Nat) := by
  have hoffset : member.placement.info.offset.toInt =
      (member.placement.start * componentBytes : Nat) := toInt_byteOffset_of_le hs
  rw [MemberInfo.address, hoffset, element_mul_arrayStride _ he, vector_mul_matrixStride _ hv, slot]
  grind

theorem mem_addresses {address : Int} (hs : member.placement.start * componentBytes ≤ maxOffset) :
    address ∈ member.addresses ↔
      ∃ element < member.placement.shape.elementCount,
      ∃ vector < member.placement.shape.vectorCount,
      ∃ component < member.placement.shape.vectorWidth,
        address = (member.slot element vector component * componentBytes : Nat) := by
  simp only [addresses, List.mem_flatMap, List.mem_map, List.mem_range]
  constructor
  · rintro ⟨element, he, vector, hv, component, hc, rfl⟩
    exact ⟨element, he, vector, hv, component, hc, address_eq member component hs he hv⟩
  · rintro ⟨element, he, vector, hv, component, hc, rfl⟩
    exact ⟨element, he, vector, hv, component, hc, address_eq member component hs he hv⟩

theorem slot_lt_slot (member : PlacedMember) {element vector component : Nat}
    {element' vector' component' : Nat} (hc : component < registerWidth)
    (hn : member.placement.shape.vectorCount * element + vector <
      member.placement.shape.vectorCount * element' + vector') :
    member.slot element vector component < member.slot element' vector' component' := by
  unfold slot registerWidth at *
  omega

theorem pairwise_addresses (h : member.placement.shape.WellFormed)
    (hs : member.placement.start * componentBytes ≤ maxOffset) :
    member.addresses.Pairwise (· < ·) := by
  have hwidth := Shape.vectorWidth_le h
  refine List.pairwise_flatMap.mpr ⟨?_, ?_⟩
  · intro element he
    rw [List.mem_range] at he
    refine List.pairwise_flatMap.mpr ⟨?_, ?_⟩
    · intro vector hv
      rw [List.mem_range] at hv
      refine List.pairwise_map.mpr (List.pairwise_lt_range.imp ?_)
      intro component component' hlt
      rw [address_eq member _ hs he hv, address_eq member _ hs he hv, Int.ofNat_lt]
      unfold slot componentBytes
      omega
    · refine List.pairwise_lt_range.imp_of_mem ?_
      intro vector vector' hv hv' hlt first hfirst second hsecond
      rw [List.mem_range] at hv hv'
      obtain ⟨component, hc, rfl⟩ := List.mem_map.mp hfirst
      obtain ⟨component', -, rfl⟩ := List.mem_map.mp hsecond
      rw [List.mem_range] at hc
      rw [address_eq member _ hs he hv, address_eq member _ hs he hv', Int.ofNat_lt]
      exact Nat.mul_lt_mul_of_pos_right
        (slot_lt_slot member (by omega) (by omega)) (by decide)
  · refine List.pairwise_lt_range.imp_of_mem ?_
    intro element element' he he' hlt first hfirst second hsecond
    rw [List.mem_range] at he he'
    obtain ⟨vector, hv, hfirst⟩ := List.mem_flatMap.mp hfirst
    obtain ⟨vector', hv', hsecond⟩ := List.mem_flatMap.mp hsecond
    obtain ⟨component, hc, rfl⟩ := List.mem_map.mp hfirst
    obtain ⟨component', -, rfl⟩ := List.mem_map.mp hsecond
    rw [List.mem_range] at hv hv' hc
    rw [address_eq member _ hs he hv, address_eq member _ hs he' hv', Int.ofNat_lt]
    -- The vectors of an earlier element all have numbers below those of a later one.
    have hnumber := Nat.mul_le_mul_left member.placement.shape.vectorCount
      (show element + 1 ≤ element' from hlt)
    rw [Nat.mul_add, Nat.mul_one] at hnumber
    exact Nat.mul_lt_mul_of_pos_right (slot_lt_slot member (by omega) (by omega)) (by decide)

theorem PlacedBy.address_bounds (h : member.PlacedBy rule)
    (hs : member.placement.finish * componentBytes ≤ maxOffset) {address : Int}
    (ha : address ∈ member.addresses) :
    (bytes member.before : Int) ≤ address ∧ address < bytes member.placement.finish := by
  obtain ⟨hbefore, hstart, hfinish⟩ := h.bounds hs
  obtain ⟨element, he, vector, hv, component, hc, rfl⟩ := (mem_addresses hstart).mp ha
  have hroom := component_lt_extent rule h.wellFormed (vectorNumber_lt he hv) hc
  unfold bytes slot componentBytes last maxOffset at *
  omega

theorem PlacedBy.offset_lt {next : PlacedMember} (h : member.PlacedBy rule)
    (hnext : next.PlacedBy rule) (hs : next.placement.finish * componentBytes ≤ maxOffset)
    (hle : member.placement.finish ≤ next.before) :
    member.placement.info.offset < next.placement.info.offset := by
  obtain ⟨hbefore, hsecond, hend⟩ := hnext.bounds hs
  obtain ⟨-, hfirst, hfinish⟩ := h.bounds (by unfold componentBytes at *; omega)
  have hextent := rule.extent_pos h.wellFormed
  rw [Int32.lt_iff_toInt_lt, Placement.info, Placement.info, toInt_byteOffset_of_le hfirst,
    toInt_byteOffset_of_le hsecond, Int.ofNat_lt]
  unfold componentBytes
  omega

end PlacedMember

/-- No two components share an address, over every run of steps that stays within the largest
offset. -/
theorem components_distinct (rule : Rule) (steps : List LayoutStep) {members : List PlacedMember}
    {finish : Nat} (hw : ∀ step ∈ steps, step.WellFormed)
    (hrun : rule.runSteps 0 steps = .ok (members, finish)) (hsize : bytes finish ≤ maxOffset) :
    (members.flatMap PlacedMember.addresses).Nodup ∧
      (∀ m ∈ members, ∀ address ∈ m.addresses,
        (bytes m.before : Int) ≤ address ∧ address < bytes m.placement.finish) ∧
      members.Pairwise fun m n => m.placement.info.offset < n.placement.info.offset := by
  obtain ⟨-, hplaced, hsorted⟩ := Rule.runSteps_bounds hw (Nat.zero_le last) hrun
  have hsmall : ∀ m ∈ members, m.placement.finish * componentBytes ≤ maxOffset := by
    intro m hm
    obtain ⟨-, -, hfinish⟩ := hplaced m hm
    unfold bytes last maxOffset componentBytes at *
    omega
  have hinside : ∀ m ∈ members, ∀ address ∈ m.addresses,
      (bytes m.before : Int) ≤ address ∧ address < bytes m.placement.finish :=
    fun m hm _ ha => (hplaced m hm).1.address_bounds (hsmall m hm) ha
  refine ⟨?_, hinside, ?_⟩
  · -- The addresses increase over the whole run, within a value and from one value to the next.
    have hincreasing : (members.flatMap PlacedMember.addresses).Pairwise (· < ·) := by
      refine List.pairwise_flatMap.mpr ⟨?_, ?_⟩
      · intro m hm
        obtain ⟨hby, -, -⟩ := hplaced m hm
        obtain ⟨-, hstart, -⟩ := hby.bounds (hsmall m hm)
        exact PlacedMember.pairwise_addresses hby.wellFormed hstart
      · refine hsorted.imp_of_mem ?_
        intro m n hm hn hmn first hfirst second hsecond
        obtain ⟨-, hlow⟩ := hinside m hm first hfirst
        obtain ⟨hhigh, -⟩ := hinside n hn second hsecond
        unfold bytes componentBytes at *
        omega
    exact hincreasing.imp Int.ne_of_lt
  · refine hsorted.imp_of_mem ?_
    intro m n hm hn hmn
    exact (hplaced m hm).1.offset_lt (hplaced n hn).1 (hsmall n hn) hmn

/-- An array of scalars, a vector that fits behind its last element, two row major matrices in a struct
element, a value left out, some registers left out, and a vector. -/
def mixedSteps : List LayoutStep :=
  [.place ⟨.float, .vector 1, 3, false⟩, .place ⟨.int, .vector 3, 0, false⟩, .enter,
    .place ⟨.float, .matrix 3 2, 2, true⟩, .exit, .skip ⟨.float, .vector 4, 0, false⟩,
    .skipRegisters 2, .place ⟨.float, .vector 2, 0, false⟩]

theorem components_distinct_mixedSteps :
    ∃ members finish, (Rule.hlsl .packed).runSteps 0 mixedSteps = .ok (members, finish) ∧
      members.length = 4 ∧ (members.flatMap PlacedMember.addresses).Nodup ∧
      (∀ m ∈ members, ∀ address ∈ m.addresses,
        (bytes m.before : Int) ≤ address ∧ address < bytes m.placement.finish) ∧
      members.Pairwise fun m n => m.placement.info.offset < n.placement.info.offset := by
  have hwell : ∀ step ∈ mixedSteps, step.WellFormed := by decide
  exact ⟨_, _, rfl, rfl, components_distinct (.hlsl .packed) mixedSteps hwell rfl (by decide)⟩

end ShaderInterface
