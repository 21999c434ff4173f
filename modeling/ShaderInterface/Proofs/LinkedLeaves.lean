import ShaderInterface.Link.Uniform
import ShaderInterface.Proofs.UnboundedWalk

namespace ShaderInterface

open Position

def Visit.leaf? : Visit → Option Leaf
  | .leaf found => some found
  | .enter | .exit => none

def Variable.leaves (v : Variable) : List Leaf :=
  (v.visits (.root v.name) false).filterMap Visit.leaf?

namespace Rule

variable {rule : Rule} {shapeOf : Leaf → Shape}

theorem reached_cons (visit : Visit) (visits : List Visit) (position : Nat) :
    rule.reached shapeOf (visit :: visits) position =
      visit.leaf?.toList.map (fun leaf => (leaf, position)) ++
        rule.reached shapeOf visits (rule.moveAt shapeOf position visit) := by
  cases visit <;> rfl

theorem map_fst_reached (visits : List Visit) (position : Nat) :
    (rule.reached shapeOf visits position).map Prod.fst = visits.filterMap Visit.leaf? := by
  induction visits generalizing position with
  | nil => rfl
  | cons visit visits ih =>
    rw [reached_cons, List.map_append, ih]
    cases visit <;> rfl

theorem reached_bounds (hs : ∀ leaf, (shapeOf leaf).WellFormed) {visits : List Visit}
    {position : Nat} {met : Leaf × Nat} (hm : met ∈ rule.reached shapeOf visits position) :
    position ≤ met.2 ∧
      rule.moveAt shapeOf met.2 (.leaf met.1) ≤ rule.endAt shapeOf visits position := by
  induction visits generalizing position with
  | nil => cases hm
  | cons visit visits ih =>
    have hmove := @le_moveAt rule shapeOf hs position visit
    rw [reached_cons] at hm
    rcases List.mem_append.mp hm with hm | hm
    · obtain ⟨leaf, hleaf, rfl⟩ := List.mem_map.mp hm
      cases visit with
      | enter => cases hleaf
      | leaf leaf' =>
        obtain rfl : leaf = leaf' := by simpa [Visit.leaf?] using hleaf
        exact ⟨Nat.le_refl position, le_endAt hs visits _⟩
      | exit => cases hleaf
    · obtain ⟨hlow, hhigh⟩ := ih hm
      exact ⟨Nat.le_trans hmove hlow, hhigh⟩

theorem pairwise_reached (hs : ∀ leaf, (shapeOf leaf).WellFormed) (visits : List Visit)
    (position : Nat) :
    (rule.reached shapeOf visits position).Pairwise fun met next =>
      rule.moveAt shapeOf met.2 (.leaf met.1) ≤ next.2 := by
  induction visits generalizing position with
  | nil => exact List.Pairwise.nil
  | cons visit visits ih =>
    cases visit with
    | enter => exact ih _
    | leaf leaf => exact List.pairwise_cons.mpr ⟨fun next hn => (reached_bounds hs hn).1, ih _⟩
    | exit => exact ih _

theorem step_measure_eq_ok {position next : Nat} {visit : Visit} (hp : position ≤ last)
    (h : rule.measure.step position visit = .ok next) :
    next = min (rule.moveAt Leaf.registerShape position visit) last := by
  cases visit with
  | enter =>
    obtain ⟨rfl, hle⟩ := nextRegister_eq_ok h
    exact (Nat.min_eq_left hle).symm
  | leaf leaf =>
    obtain ⟨placement, hk, hf⟩ := bind_eq_ok.mp h
    cases hf
    rw [place_eq_ok leaf.wellFormed_registerShape hp hk]
    rfl
  | exit =>
    cases rule with
    | std140 =>
      obtain ⟨rfl, hle⟩ := nextRegister_eq_ok h
      exact (Nat.min_eq_left hle).symm
    | hlsl packing =>
      cases h
      exact (Nat.min_eq_left hp).symm

theorem foldlM_measure_eq_ok {visits : List Visit} {position finish : Nat} (hp : position ≤ last)
    (h : visits.foldlM rule.measure.step position = .ok finish) (hf : finish < last) :
    finish = rule.endAt Leaf.registerShape visits position := by
  induction visits generalizing position with
  | nil =>
    cases h
    rfl
  | cons visit visits ih =>
    rw [List.foldlM_cons] at h
    obtain ⟨next, hstep, hrest⟩ := bind_eq_ok.mp h
    have hnext := step_measure_eq_ok hp hstep
    have hend := ih (by omega) hrest
    -- A step that was cut off would have left the walk at the last position.
    have hle := @le_endAt rule _ Leaf.wellFormed_registerShape visits next
    rw [endAt_cons, hend, show next = rule.moveAt Leaf.registerShape position visit by omega]

end Rule

namespace Leaf

def noteAt (leaf : Leaf) (position : Nat) : Nat :=
  if leaf.decl.isArray then roundUp position registerWidth else position

def linkedAt (leaf : Leaf) (stage : Stage) (position : Nat) : UniformEntry :=
  (leaf.entryAt (leaf.noteAt position)).setRegister stage
    (clampWord (register (leaf.noteAt position)))

theorem name_linkedAt (leaf : Leaf) (stage : Stage) (position : Nat) :
    (leaf.linkedAt stage position).name = leaf.uniformName := rfl

theorem le_noteAt (leaf : Leaf) (position : Nat) : position ≤ leaf.noteAt position := by
  unfold noteAt
  split
  · exact le_roundUp position (by decide)
  · exact Nat.le_refl position

/-- Entering an array first does not move it. -/
theorem startAt_noteAt (packing : Packing) (leaf : Leaf) (position : Nat) :
    (Rule.hlsl packing).startAt leaf.registerShape (leaf.noteAt position) =
      (Rule.hlsl packing).startAt leaf.registerShape position := by
  unfold noteAt
  split
  case isTrue ha =>
    have hcompound : leaf.registerShape.isCompound = true := by
      rw [Shape.isCompound, show leaf.registerShape.isArray = true from ha, Bool.or_true]
    have hround := roundUp_of_dvd (show 0 < registerWidth by decide)
      (dvd_roundUp position registerWidth)
    cases packing with
    | packed => simp only [Rule.startAt, hcompound, true_or, if_true, hround]
    | loose => exact hround
  case isFalse => rfl

theorem noteAt_lt (packing : Packing) (leaf : Leaf) (position : Nat) :
    leaf.noteAt position <
      (Rule.hlsl packing).moveAt Leaf.registerShape position (.leaf leaf) := by
  have hstart := (Rule.hlsl packing).le_startAt leaf.wellFormed_registerShape (leaf.noteAt position)
  have hextent := (Rule.hlsl packing).extent_pos leaf.wellFormed_registerShape
  rw [startAt_noteAt] at hstart
  exact Nat.lt_of_le_of_lt hstart (Nat.lt_add_of_pos_right hextent)

end Leaf

namespace UniformTable

theorem get?_eq_none {table : UniformTable} {name : String}
    (h : name ∉ table.map UniformEntry.name) : table.get? name = none := by
  apply List.find?_eq_none.mpr
  intro entry hentry hname
  exact h (List.mem_map.mpr ⟨entry, hentry, of_decide_eq_true hname⟩)

theorem get?_of_mem {table : UniformTable} (hnames : (table.map UniformEntry.name).Nodup)
    {entry : UniformEntry} (h : entry ∈ table) : table.get? entry.name = some entry := by
  induction table with
  | nil => cases h
  | cons first rest ih =>
    obtain ⟨hfirst, hrest⟩ := List.nodup_cons.mp hnames
    rcases List.mem_cons.mp h with rfl | h
    · exact List.find?_cons_of_pos (decide_eq_true rfl)
    · have hne : first.name ≠ entry.name := fun heq =>
        hfirst (heq ▸ List.mem_map.mpr ⟨entry, h, rfl⟩)
      rw [get?, List.find?_cons_of_neg (by simpa using hne)]
      exact ih hrest h

/-- The leaves of a linking walk, each with the position after it. -/
def leafEnds (rule : Rule) (stage : Stage) :
    List Visit → UniformProgress → Except Fault (List (Leaf × Nat))
  | [], _ => return []
  | visit :: visits, s => do
    let next ← (linking rule stage).step s visit
    let rest ← leafEnds rule stage visits next
    return visit.leaf?.toList.map (fun leaf => (leaf, next.position)) ++ rest

variable {packing : Packing} {stage : Stage}

theorem linkLeaf_of_note {leaf : Leaf} {s : UniformProgress} {table : UniformTable}
    (hroom : (Rule.hlsl packing).moveAt Leaf.registerShape s.position (.leaf leaf) ≤ last)
    (hnoted : s.table.note stage (clampWord (register (leaf.noteAt s.position)))
      (leaf.entryAt (leaf.noteAt s.position)) = .ok table) :
    ∃ events, linkLeaf (.hlsl packing) stage leaf s =
      .ok ⟨(Rule.hlsl packing).moveAt Leaf.registerShape s.position (.leaf leaf), table, events⟩ := by
  have hskip : (Rule.hlsl packing).skip leaf.registerShape (leaf.noteAt s.position) =
      .ok ((Rule.hlsl packing).moveAt Leaf.registerShape s.position (.leaf leaf)) := by
    have hmove : (Rule.hlsl packing).startAt leaf.registerShape (leaf.noteAt s.position) +
        (Rule.hlsl packing).extent leaf.registerShape =
          (Rule.hlsl packing).moveAt Leaf.registerShape s.position (.leaf leaf) := by
      rw [Leaf.startAt_noteAt]
      rfl
    rw [Rule.skip_of_le leaf.wellFormed_registerShape (by omega), hmove]
  unfold linkLeaf
  cases ha : leaf.decl.isArray with
  | true =>
    have henter : (Rule.hlsl packing).enter s.position = .ok (leaf.noteAt s.position) := by
      have hlt := leaf.noteAt_lt packing s.position
      rw [Leaf.noteAt, if_pos ha] at hlt ⊢
      exact nextRegister_of_le (by omega)
    simp only [if_true, henter, hnoted, hskip, bind, Except.bind]
    exact ⟨_, rfl⟩
  | false =>
    have hnote : leaf.noteAt s.position = s.position := by simp [Leaf.noteAt, ha]
    rw [hnote] at hnoted hskip
    simp only [Bool.false_eq_true, if_false, hnoted, hskip, bind, Except.bind]
    exact ⟨_, rfl⟩

theorem linkLeaf_of_fresh {leaf : Leaf} {s : UniformProgress}
    (hroom : (Rule.hlsl packing).moveAt Leaf.registerShape s.position (.leaf leaf) ≤ last)
    (hfresh : s.table.get? leaf.uniformName = none) :
    ∃ events, linkLeaf (.hlsl packing) stage leaf s =
      .ok ⟨(Rule.hlsl packing).moveAt Leaf.registerShape s.position (.leaf leaf),
        s.table ++ [leaf.linkedAt stage s.position], events⟩ := by
  apply linkLeaf_of_note hroom
  unfold note
  rw [show (leaf.entryAt (leaf.noteAt s.position)).name = leaf.uniformName from rfl, hfresh]
  rfl

theorem step_linking_of_fresh {visit : Visit} {s : UniformProgress}
    (hroom : (Rule.hlsl packing).moveAt Leaf.registerShape s.position visit ≤ last)
    (hfresh : ∀ leaf ∈ visit.leaf?, s.table.get? leaf.uniformName = none) :
    ∃ events, (linking (.hlsl packing) stage).step s visit =
      .ok ⟨(Rule.hlsl packing).moveAt Leaf.registerShape s.position visit,
        s.table ++ visit.leaf?.toList.map (fun leaf => leaf.linkedAt stage s.position), events⟩ := by
  cases visit with
  | enter =>
    refine ⟨s.events, ?_⟩
    change UniformProgress.move (Rule.hlsl packing).enter s = _
    unfold UniformProgress.move Rule.enter
    rw [nextRegister_of_le hroom, Visit.leaf?, Option.toList_none, List.map_nil, List.append_nil]
    rfl
  | leaf leaf => exact linkLeaf_of_fresh hroom (hfresh leaf rfl)
  | exit =>
    refine ⟨s.events, ?_⟩
    rw [Visit.leaf?, Option.toList_none, List.map_nil, List.append_nil]
    rfl

theorem foldlM_linking_of_fresh {visits : List Visit} {s : UniformProgress}
    (hroom : (Rule.hlsl packing).endAt Leaf.registerShape visits s.position ≤ last)
    (hnames : (s.table.map UniformEntry.name ++
      (visits.filterMap Visit.leaf?).map Leaf.uniformName).Nodup) :
    (∃ events, visits.foldlM (linking (.hlsl packing) stage).step s =
      .ok ⟨(Rule.hlsl packing).endAt Leaf.registerShape visits s.position,
        s.table ++ ((Rule.hlsl packing).reached Leaf.registerShape visits s.position).map
          (fun met => met.1.linkedAt stage met.2), events⟩) ∧
      leafEnds (.hlsl packing) stage visits s =
        .ok (((Rule.hlsl packing).reached Leaf.registerShape visits s.position).map fun met =>
          (met.1, (Rule.hlsl packing).moveAt Leaf.registerShape met.2 (.leaf met.1))) := by
  induction visits generalizing s with
  | nil =>
    refine ⟨⟨s.events, ?_⟩, rfl⟩
    rw [Rule.reached, List.map_nil, List.append_nil]
    rfl
  | cons visit visits ih =>
    have hmove := Nat.le_trans (Rule.le_endAt Leaf.wellFormed_registerShape visits _) hroom
    have hsplit : ((visit :: visits).filterMap Visit.leaf?).map Leaf.uniformName =
        visit.leaf?.toList.map Leaf.uniformName ++
          (visits.filterMap Visit.leaf?).map Leaf.uniformName := by
      cases visit <;> rfl
    rw [hsplit, ← List.append_assoc] at hnames
    have hfresh : ∀ leaf ∈ visit.leaf?, s.table.get? leaf.uniformName = none := by
      intro leaf hleaf
      apply get?_eq_none
      intro hmem
      have hdisjoint := (List.nodup_append.mp (List.nodup_append.mp hnames).1).2.2
      exact hdisjoint _ hmem _ (List.mem_map.mpr ⟨leaf, by simpa using hleaf, rfl⟩) rfl
    obtain ⟨events, hstep⟩ := @step_linking_of_fresh packing stage visit s hmove hfresh
    have hnext : (s.table ++ visit.leaf?.toList.map (fun leaf => leaf.linkedAt stage s.position)).map
        UniformEntry.name =
          s.table.map UniformEntry.name ++ visit.leaf?.toList.map Leaf.uniformName := by
      rw [List.map_append, List.map_map]
      rfl
    rw [← hnext] at hnames
    obtain ⟨⟨events', hfold⟩, hends⟩ :=
      @ih ⟨(Rule.hlsl packing).moveAt Leaf.registerShape s.position visit, _, events⟩ hroom hnames
    rw [Rule.reached_cons, List.map_append, List.map_append, List.map_map, List.map_map,
      ← List.append_assoc]
    constructor
    · refine ⟨events', ?_⟩
      rw [List.foldlM_cons, hstep]
      exact hfold
    · rw [leafEnds, hstep]
      change leafEnds _ stage visits _ >>= _ = _
      rw [hends]
      cases visit <;> rfl

end UniformTable

end ShaderInterface
