import ShaderInterface.Link.Member
import ShaderInterface.Proofs.Unbounded

namespace ShaderInterface

theorem Leaf.wellFormed_memberShape (leaf : Leaf) : leaf.memberShape.WellFormed :=
  leaf.type.wellFormed_shape ..

theorem Leaf.wellFormed_registerShape (leaf : Leaf) : leaf.registerShape.WellFormed :=
  leaf.type.wellFormed_shape ..

namespace Variable

def elementVisits (path : Path) (rowMajor : Bool) (decl : Declarator) (fields : List Variable)
    (index : Nat) : List Visit :=
  .enter :: fieldVisits (decl.elementPath path index) rowMajor fields ++ [.exit]

def elementRun (path : Path) (rowMajor : Bool) (decl : Declarator) (fields : List Variable)
    (first count : Nat) : List Visit :=
  (List.range' first count).flatMap (elementVisits path rowMajor decl fields)

theorem elementRun_succ (path : Path) (rowMajor : Bool) (decl : Declarator) (fields : List Variable)
    (first count : Nat) :
    elementRun path rowMajor decl fields first (count + 1) =
      elementVisits path rowMajor decl fields first ++
        elementRun path rowMajor decl fields (first + 1) count := by
  rw [elementRun, List.range'_succ, List.flatMap_cons]
  rfl

theorem visits_struct (path : Path) (rowMajor : Bool) (decl : Declarator) (fields : List Variable) :
    visits path rowMajor (.struct decl fields) =
      elementRun path (rowMajor || decl.rowMajor) decl fields 0 decl.elementCount := by
  rw [visits]
  rfl

theorem fieldVisits_append (path : Path) (rowMajor : Bool) (first second : List Variable) :
    fieldVisits path rowMajor (first ++ second) =
      fieldVisits path rowMajor first ++ fieldVisits path rowMajor second := by
  induction first with
  | nil => rfl
  | cons f fs ih => rw [List.cons_append, fieldVisits, fieldVisits, ih, List.append_assoc]

end Variable

/-- A step of a walk over a declaration that was changed at its leaves only. -/
def Visit.mapLeaf (change : Leaf → Leaf) : Visit → Visit
  | .enter => .enter
  | .leaf found => .leaf (change found)
  | .exit => .exit

namespace Rule

open Position

/-- What follows a struct element starts a register in a standard block only. -/
def exitAt : Rule → Nat → Nat
  | std140, position => roundUp position registerWidth
  | hlsl _, position => position

/-- Where a step of a walk leads from a position, with leaves stored in the shapes given. -/
def moveAt (rule : Rule) (shapeOf : Leaf → Shape) (position : Nat) : Visit → Nat
  | .enter => roundUp position registerWidth
  | .leaf leaf => rule.startAt (shapeOf leaf) position + rule.extent (shapeOf leaf)
  | .exit => rule.exitAt position

def endAt (rule : Rule) (shapeOf : Leaf → Shape) (visits : List Visit) (position : Nat) : Nat :=
  visits.foldl (rule.moveAt shapeOf) position

/-- The leaves of a walk, each with the position at which the walk meets it. -/
def reached (rule : Rule) (shapeOf : Leaf → Shape) : List Visit → Nat → List (Leaf × Nat)
  | [], _ => []
  | .enter :: visits, position =>
    reached rule shapeOf visits (rule.moveAt shapeOf position .enter)
  | .leaf leaf :: visits, position =>
    (leaf, position) :: reached rule shapeOf visits (rule.moveAt shapeOf position (.leaf leaf))
  | .exit :: visits, position =>
    reached rule shapeOf visits (rule.moveAt shapeOf position .exit)

variable {rule : Rule} {shapeOf : Leaf → Shape}

@[simp] theorem endAt_nil (position : Nat) : rule.endAt shapeOf [] position = position := rfl

@[simp] theorem endAt_cons (visit : Visit) (visits : List Visit) (position : Nat) :
    rule.endAt shapeOf (visit :: visits) position =
      rule.endAt shapeOf visits (rule.moveAt shapeOf position visit) := rfl

theorem endAt_append (first second : List Visit) (position : Nat) :
    rule.endAt shapeOf (first ++ second) position =
      rule.endAt shapeOf second (rule.endAt shapeOf first position) :=
  List.foldl_append

theorem reached_append (first second : List Visit) (position : Nat) :
    rule.reached shapeOf (first ++ second) position =
      rule.reached shapeOf first position ++
        rule.reached shapeOf second (rule.endAt shapeOf first position) := by
  induction first generalizing position with
  | nil => rfl
  | cons visit visits ih =>
    cases visit with
    | enter => exact ih _
    | leaf leaf => exact congrArg (List.cons (leaf, position)) (ih _)
    | exit => exact ih _

theorem endAt_elementVisits (path : Path) (rowMajor : Bool) (decl : Declarator)
    (fields : List Variable) (index position : Nat) :
    rule.endAt shapeOf (Variable.elementVisits path rowMajor decl fields index) position =
      rule.exitAt (rule.endAt shapeOf
        (Variable.fieldVisits (decl.elementPath path index) rowMajor fields)
        (roundUp position registerWidth)) := by
  rw [Variable.elementVisits, List.cons_append, endAt_cons, endAt_append]
  rfl

theorem reached_elementVisits (path : Path) (rowMajor : Bool) (decl : Declarator)
    (fields : List Variable) (index position : Nat) :
    rule.reached shapeOf (Variable.elementVisits path rowMajor decl fields index) position =
      rule.reached shapeOf (Variable.fieldVisits (decl.elementPath path index) rowMajor fields)
        (roundUp position registerWidth) := by
  rw [Variable.elementVisits, List.cons_append]
  exact (reached_append _ [.exit] _).trans (List.append_nil _)

theorem endAt_mapLeaf {change : Leaf → Leaf} (h : ∀ leaf, shapeOf (change leaf) = shapeOf leaf)
    (visits : List Visit) (position : Nat) :
    rule.endAt shapeOf (visits.map (Visit.mapLeaf change)) position =
      rule.endAt shapeOf visits position := by
  induction visits generalizing position with
  | nil => rfl
  | cons visit visits ih =>
    have hmove : rule.moveAt shapeOf position (visit.mapLeaf change) =
        rule.moveAt shapeOf position visit := by
      cases visit <;> simp only [Visit.mapLeaf, moveAt, h]
    rw [List.map_cons, endAt_cons, endAt_cons, hmove, ih]

theorem reached_mapLeaf {change : Leaf → Leaf} (h : ∀ leaf, shapeOf (change leaf) = shapeOf leaf)
    (visits : List Visit) (position : Nat) :
    rule.reached shapeOf (visits.map (Visit.mapLeaf change)) position =
      (rule.reached shapeOf visits position).map fun met => (change met.1, met.2) := by
  induction visits generalizing position with
  | nil => rfl
  | cons visit visits ih =>
    cases visit with
    | enter => exact ih _
    | leaf leaf =>
      simp only [List.map_cons, Visit.mapLeaf, reached, moveAt, h, ih]
    | exit => exact ih _

theorem le_moveAt (hs : ∀ leaf, (shapeOf leaf).WellFormed) (position : Nat) (visit : Visit) :
    position ≤ rule.moveAt shapeOf position visit := by
  have hr := le_roundUp position (show 0 < registerWidth by decide)
  cases visit with
  | enter => exact hr
  | leaf leaf => exact Nat.le_trans (rule.le_startAt (hs leaf) position) (Nat.le_add_right ..)
  | exit =>
    cases rule with
    | std140 => exact hr
    | hlsl packing => exact Nat.le_refl position

theorem le_endAt (hs : ∀ leaf, (shapeOf leaf).WellFormed) (visits : List Visit) (position : Nat) :
    position ≤ rule.endAt shapeOf visits position := by
  induction visits generalizing position with
  | nil => exact Nat.le_refl position
  | cons visit visits ih => exact Nat.le_trans (le_moveAt hs position visit) (ih _)

theorem moveAt_add (hs : ∀ leaf, (shapeOf leaf).WellFormed) {k : Nat} (hk : registerWidth ∣ k)
    (position : Nat) (visit : Visit) :
    rule.moveAt shapeOf (k + position) visit = k + rule.moveAt shapeOf position visit := by
  have hr := roundUp_add position (show 0 < registerWidth by decide) hk
  cases visit with
  | enter => exact hr
  | leaf leaf =>
    simp only [moveAt]
    rw [rule.startAt_add (hs leaf) hk, Nat.add_assoc]
  | exit =>
    cases rule with
    | std140 => exact hr
    | hlsl packing => rfl

theorem endAt_add (hs : ∀ leaf, (shapeOf leaf).WellFormed) {k : Nat} (hk : registerWidth ∣ k)
    (visits : List Visit) (position : Nat) :
    rule.endAt shapeOf visits (k + position) = k + rule.endAt shapeOf visits position := by
  induction visits generalizing position with
  | nil => rfl
  | cons visit visits ih =>
    rw [endAt_cons, endAt_cons, moveAt_add hs hk, ih]

theorem exit_of_le {position : Nat} (h : rule.exitAt position ≤ last) :
    rule.exit position = .ok (rule.exitAt position) := by
  cases rule with
  | std140 => exact nextRegister_of_le h
  | hlsl packing => rfl

theorem skip_of_le {shape : Shape} (hs : shape.WellFormed) {position : Nat}
    (h : rule.startAt shape position + rule.extent shape ≤ last) :
    rule.skip shape position = .ok (rule.startAt shape position + rule.extent shape) := by
  unfold skip
  rw [place_of_le rule hs h]
  rfl

def memberAt (rule : Rule) (met : Leaf × Nat) : Member where
  name := met.1.memberName
  type := met.1.type
  arraySize := met.1.decl.arraySize
  placement :=
    ⟨met.1.memberShape, rule.startAt met.1.memberShape met.2,
      rule.startAt met.1.memberShape met.2 + rule.extent met.1.memberShape⟩

/-- The leaves of a walk over a block, each with the position where it is placed. -/
def placed (rule : Rule) (visits : List Visit) (position : Nat) : List (Leaf × Nat) :=
  (rule.reached Leaf.memberShape visits position).map fun met =>
    (met.1, rule.startAt met.1.memberShape met.2)

theorem placed_append (first second : List Visit) (position : Nat) :
    rule.placed (first ++ second) position =
      rule.placed first position ++
        rule.placed second (rule.endAt Leaf.memberShape first position) := by
  unfold placed
  rw [reached_append, List.map_append]

theorem placed_elementVisits (path : Path) (rowMajor : Bool) (decl : Declarator)
    (fields : List Variable) (index position : Nat) :
    rule.placed (Variable.elementVisits path rowMajor decl fields index) position =
      rule.placed (Variable.fieldVisits (decl.elementPath path index) rowMajor fields)
        (roundUp position registerWidth) := by
  unfold placed
  rw [reached_elementVisits]

theorem foldlM_placing {visits : List Visit} {position : Nat} (members : List Member)
    (h : rule.endAt Leaf.memberShape visits position ≤ last) :
    visits.foldlM rule.placing.step ⟨position, members.toArray⟩ =
      .ok ⟨rule.endAt Leaf.memberShape visits position,
        (members ++ (rule.reached Leaf.memberShape visits position).map rule.memberAt).toArray⟩ := by
  induction visits generalizing position members with
  | nil => simp [reached, pure, Except.pure]
  | cons visit visits ih =>
    -- The walk never leads back, so that no step of it leaves the positions.
    have hm := Nat.le_trans (le_endAt Leaf.wellFormed_memberShape visits _) h
    rw [List.foldlM_cons]
    cases visit with
    | enter =>
      change BlockProgress.move rule.enter _ >>= _ = _
      unfold BlockProgress.move enter
      rw [nextRegister_of_le hm]
      exact ih members h
    | leaf leaf =>
      change rule.addMember leaf _ >>= _ = _
      unfold addMember
      rw [place_of_le rule leaf.wellFormed_memberShape hm]
      have hpush := ih (members ++ [rule.memberAt (leaf, position)]) h
      rw [List.append_assoc, List.singleton_append, ← List.push_toArray] at hpush
      exact hpush
    | exit =>
      change BlockProgress.move rule.exit _ >>= _ = _
      unfold BlockProgress.move
      rw [exit_of_le hm]
      exact ih members h

/-- A layout that ends within the positions is the unbounded one. -/
theorem layoutMembers_of_le {scope : String} {rowMajor : Bool} {fields : List Variable}
    {position : Nat}
    (h : rule.endAt Leaf.memberShape (Variable.fieldVisits (.root scope) rowMajor fields) position ≤
      last) :
    rule.layoutMembers scope rowMajor fields position =
      .ok ((rule.reached Leaf.memberShape (Variable.fieldVisits (.root scope) rowMajor fields)
          position).map rule.memberAt,
        rule.endAt Leaf.memberShape (Variable.fieldVisits (.root scope) rowMajor fields) position) := by
  have hf := foldlM_placing [] h
  unfold layoutMembers
  rw [Walk.runFields_eq_foldlM, hf]
  rfl

end Rule

end ShaderInterface
