import ShaderInterface.Proofs.StageMerge

namespace ShaderInterface

open Position

/-- Two walks agree that agree at each step, as far as a view of their states tells. -/
theorem Walk.foldlM_view {σ τ : Type} (walk : Walk σ) (other : Walk τ) (view : σ → τ)
    {visits : List Visit}
    (hstep : ∀ visit ∈ visits, ∀ s, (walk.step s visit).map view = other.step (view s) visit)
    (s : σ) :
    (visits.foldlM walk.step s).map view = visits.foldlM other.step (view s) := by
  induction visits generalizing s with
  | nil => rfl
  | cons visit visits ih =>
    have hfirst := hstep visit List.mem_cons_self s
    have hrest := ih fun v hv => hstep v (List.mem_cons_of_mem _ hv)
    rw [List.foldlM_cons, List.foldlM_cons, ← hfirst]
    cases walk.step s visit with
    | error fault => rfl
    | ok t => exact hrest t

namespace Rule

mutual

theorem run_measure (rule : Rule) (path path' : Path) (rowMajor rowMajor' : Bool) (v : Variable)
    (position : Nat) :
    rule.measure.run path rowMajor v position = rule.measure.run path' rowMajor' v position := by
  cases v with
  | basic decl type => rfl
  | struct decl fields =>
    rw [Walk.run, Walk.run]
    congr 1
    funext index position
    congr 1
    funext entered
    rw [runFields_measure rule (decl.elementPath path index) (decl.elementPath path' index)
      (rowMajor || decl.rowMajor) (rowMajor' || decl.rowMajor) fields entered]

theorem runFields_measure (rule : Rule) (path path' : Path) (rowMajor rowMajor' : Bool)
    (fields : List Variable) (position : Nat) :
    rule.measure.runFields path rowMajor fields position =
      rule.measure.runFields path' rowMajor' fields position := by
  cases fields with
  | nil => rfl
  | cons f fs =>
    rw [Walk.runFields, Walk.runFields,
      run_measure rule (path.field f.name) (path'.field f.name) rowMajor rowMajor' f position]
    congr 1
    funext next
    exact runFields_measure rule path path' rowMajor rowMajor' fs next

end

theorem runFields_measure_eq_foldlM (rule : Rule) (path : Path) (rowMajor : Bool)
    (fields : List Variable) (position : Nat) :
    rule.measure.runFields path rowMajor fields position =
      fields.foldlM (fun position f => rule.endOf f position) position := by
  induction fields generalizing position with
  | nil => rfl
  | cons f fs ih =>
    rw [Walk.runFields, List.foldlM_cons, run_measure rule (path.field f.name) (.root f.name)
      rowMajor false f position]
    congr 1
    funext next
    exact ih next

end Rule

namespace Variable

mutual

/-- No struct in a declaration asks for row majorness. What a leaf asks for itself does not matter. -/
def isColumnMajor : Variable → Bool
  | basic _ _ => true
  | struct decl fields => !decl.rowMajor && areColumnMajor fields

def areColumnMajor : List Variable → Bool
  | [] => true
  | f :: fs => isColumnMajor f && areColumnMajor fs

end

theorem areColumnMajor_iff {fields : List Variable} :
    areColumnMajor fields = true ↔ ∀ f ∈ fields, f.isColumnMajor = true := by
  induction fields with
  | nil => simp [areColumnMajor]
  | cons f fs ih => simp [areColumnMajor, ih]

theorem rowMajor_of_mem_visits {v : Variable} {path : Path} {leaf : Leaf}
    (hv : v.isColumnMajor = true) (h : .leaf leaf ∈ v.visits path false) : leaf.rowMajor = false := by
  induction v generalizing path with
  | basic decl type =>
    rw [visits, List.mem_singleton] at h
    injection h with h
    rw [h]
  | struct decl fields ih =>
    rw [isColumnMajor, Bool.and_eq_true, areColumnMajor_iff] at hv
    obtain ⟨hdecl, hfields⟩ := hv
    have hinner : (false || decl.rowMajor) = false := by simpa using hdecl
    rw [visits_struct, hinner] at h
    obtain ⟨index, -, h⟩ := List.mem_flatMap.mp h
    simp only [elementVisits, fieldVisits_eq_flatMap, List.mem_append, List.mem_cons,
      List.mem_flatMap, reduceCtorEq, false_or, List.not_mem_nil, or_false] at h
    obtain ⟨f, hf, h⟩ := h
    exact ih f hf (hfields f hf) h

end Variable

theorem Leaf.memberShape_eq {leaf : Leaf} (h : leaf.rowMajor = false) :
    leaf.memberShape = leaf.registerShape := by
  rw [memberShape, registerShape, h, Bool.and_false]

namespace Rule

theorem step_placing_position (rule : Rule) {visit : Visit} (s : BlockProgress)
    (h : ∀ leaf ∈ visit.leaf?, leaf.rowMajor = false) :
    (rule.placing.step s visit).map BlockProgress.position = rule.measure.step s.position visit := by
  cases visit with
  | enter =>
    change (BlockProgress.move rule.enter s).map _ = rule.enter s.position
    unfold BlockProgress.move
    cases rule.enter s.position <;> rfl
  | leaf leaf =>
    change (rule.addMember leaf s).map _ = rule.skip leaf.registerShape s.position
    unfold addMember skip
    rw [Leaf.memberShape_eq (h leaf rfl)]
    cases rule.place leaf.registerShape s.position <;> rfl
  | exit =>
    change (BlockProgress.move rule.exit s).map _ = rule.exit s.position
    unfold BlockProgress.move
    cases rule.exit s.position <;> rfl

theorem layoutMembers_position (rule : Rule) (scope : String) {fields : List Variable}
    (h : Variable.areColumnMajor fields = true) (position : Nat) :
    (rule.layoutMembers scope false fields position).map Prod.snd =
      fields.foldlM (fun position f => rule.endOf f position) position := by
  have hleaves : ∀ visit ∈ Variable.fieldVisits (.root scope) false fields,
      ∀ leaf ∈ visit.leaf?, leaf.rowMajor = false := by
    intro visit hvisit leaf hleaf
    rw [Variable.fieldVisits_eq_flatMap] at hvisit
    obtain ⟨f, hf, hvisit⟩ := List.mem_flatMap.mp hvisit
    cases visit with
    | enter => cases hleaf
    | leaf found =>
      cases hleaf
      exact Variable.rowMajor_of_mem_visits (Variable.areColumnMajor_iff.mp h f hf) hvisit
    | exit => cases hleaf
  have hview := Walk.foldlM_view rule.placing rule.measure BlockProgress.position
    (fun visit hvisit s => step_placing_position rule s (hleaves visit hvisit)) ⟨position, #[]⟩
  rw [← Walk.runFields_eq_foldlM, ← Walk.runFields_eq_foldlM, runFields_measure_eq_foldlM] at hview
  rw [← hview]
  unfold layoutMembers
  cases rule.placing.runFields (.root scope) false fields ⟨position, #[]⟩ <;> rfl

/-- Entering an array before it is skipped changes nothing, not even the fault. -/
theorem noteOf_bind_skip (packing : Packing) (leaf : Leaf) (position : Nat) :
    (hlsl packing).noteOf leaf position >>= (hlsl packing).skip leaf.registerShape =
      (hlsl packing).skip leaf.registerShape position := by
  unfold noteOf
  split
  case isFalse => rfl
  case isTrue harray =>
    have hcompound : leaf.registerShape.isCompound = true := by
      rw [Shape.isCompound, show leaf.registerShape.isArray = true from harray, Bool.or_true]
    have hstart (position : Nat) :
        (hlsl packing).start leaf.registerShape position = nextRegister position := by
      cases packing with
      | packed => rw [start, if_pos (.inl hcompound)]
      | loose => rfl
    unfold skip place enter
    simp only [hstart]
    rw [nextRegister_eq]
    split
    case isFalse => rfl
    case isTrue hfits =>
      have hround := roundUp_of_dvd (show 0 < registerWidth by decide)
        (dvd_roundUp position registerWidth)
      have hagain : nextRegister (roundUp position registerWidth) =
          .ok (roundUp position registerWidth) := by
        rw [nextRegister_of_le (by rw [hround]; exact hfits), hround]
      change (nextRegister (roundUp position registerWidth) >>= _) >>= _ = _
      rw [hagain]

end Rule

namespace UniformTable

variable {packing : Packing} {stage : Stage}

def metNames (visits : List Visit) : List String :=
  (visits.filterMap Visit.leaf?).map Leaf.uniformName

theorem note_cases (table : UniformTable) (stage : Stage) (register : UInt32) (leaf : UniformEntry) :
    (∃ table', table.note stage register leaf = .ok table' ∧
      ((table.map UniformEntry.name ++ [leaf.name]).Nodup →
        table'.map UniformEntry.name = table.map UniformEntry.name ++ [leaf.name])) ∨
    (∃ recorded found, table.note stage register leaf =
      .error (.elementMismatch leaf.name recorded found)) ∧
      ¬(table.map UniformEntry.name ++ [leaf.name]).Nodup := by
  have htaken {entry : UniformEntry} (hentry : table.get? leaf.name = some entry) :
      ¬(table.map UniformEntry.name ++ [leaf.name]).Nodup := by
    intro hnodup
    have hmem : leaf.name ∈ table.map UniformEntry.name :=
      List.mem_map.mpr ⟨entry, List.mem_of_find?_eq_some hentry, name_of_get? hentry⟩
    exact (List.nodup_append.mp hnodup).2.2 _ hmem _ List.mem_cons_self rfl
  unfold note
  split
  case h_1 =>
    refine .inl ⟨_, rfl, fun _ => ?_⟩
    rw [List.map_append]
    rfl
  case h_2 entry hentry =>
    split
    case isTrue => exact .inl ⟨_, rfl, fun hnodup => absurd hnodup (htaken hentry)⟩
    case isFalse => exact .inr ⟨⟨_, _, rfl⟩, htaken hentry⟩

/-- A leaf is linked up to where it is skipped to, or faults as skipping it does, or is refused under a
name that is taken. -/
theorem linkLeaf_cases (leaf : Leaf) (s : UniformProgress) :
    (∃ t, linkLeaf (.hlsl packing) stage leaf s = .ok t ∧
      (Rule.hlsl packing).skip leaf.registerShape s.position = .ok t.position ∧
      ((s.table.map UniformEntry.name ++ [leaf.uniformName]).Nodup →
        t.table.map UniformEntry.name = s.table.map UniformEntry.name ++ [leaf.uniformName])) ∨
    (∃ fault, linkLeaf (.hlsl packing) stage leaf s = .error fault ∧
      (Rule.hlsl packing).skip leaf.registerShape s.position = .error fault) ∨
    (∃ name recorded found, linkLeaf (.hlsl packing) stage leaf s =
      .error (.elementMismatch name recorded found)) ∧
      ¬(s.table.map UniformEntry.name ++ [leaf.uniformName]).Nodup := by
  rw [linkLeaf_eq, ← Rule.noteOf_bind_skip packing leaf s.position]
  cases (Rule.hlsl packing).noteOf leaf s.position with
  | error fault => exact .inr (.inl ⟨fault, rfl, rfl⟩)
  | ok noted =>
    simp only [bind, Except.bind]
    rcases note_cases s.table stage (clampWord (register noted)) (leaf.entryAt noted) with
      ⟨table, hnote, hnames⟩ | ⟨⟨recorded, found, hnote⟩, hnames⟩
    · rw [hnote]
      cases (Rule.hlsl packing).skip leaf.registerShape noted with
      | error fault => exact .inr (.inl ⟨fault, rfl, rfl⟩)
      | ok finish => exact .inl ⟨_, rfl, rfl, hnames⟩
    · rw [hnote]
      exact .inr (.inr ⟨⟨_, recorded, found, rfl⟩, hnames⟩)

theorem move_cases (step : Nat → Except Fault Nat) (s : UniformProgress) :
    (∃ t, s.move step = .ok t ∧ step s.position = .ok t.position ∧ t.table = s.table) ∨
      ∃ fault, s.move step = .error fault ∧ step s.position = .error fault := by
  unfold UniformProgress.move
  cases step s.position with
  | error fault => exact .inr ⟨fault, rfl, rfl⟩
  | ok next => exact .inl ⟨_, rfl, rfl, rfl⟩

theorem step_linking_cases (s : UniformProgress) (visit : Visit) :
    (∃ t, (linking (.hlsl packing) stage).step s visit = .ok t ∧
      (Rule.hlsl packing).measure.step s.position visit = .ok t.position ∧
      ((s.table.map UniformEntry.name ++ metNames [visit]).Nodup →
        t.table.map UniformEntry.name = s.table.map UniformEntry.name ++ metNames [visit])) ∨
    (∃ fault, (linking (.hlsl packing) stage).step s visit = .error fault ∧
      (Rule.hlsl packing).measure.step s.position visit = .error fault) ∨
    (∃ name recorded found, (linking (.hlsl packing) stage).step s visit =
      .error (.elementMismatch name recorded found)) ∧
      ¬(s.table.map UniformEntry.name ++ metNames [visit]).Nodup := by
  have hkeeps {t : UniformProgress} (htable : t.table = s.table) :
      t.table.map UniformEntry.name = s.table.map UniformEntry.name ++ [] := by
    rw [htable, List.append_nil]
  cases visit with
  | enter =>
    rcases move_cases (Rule.hlsl packing).enter s with ⟨t, hmove, hposition, htable⟩ | hfault
    · exact .inl ⟨t, hmove, hposition, fun _ => hkeeps htable⟩
    · exact .inr (.inl hfault)
  | leaf leaf => exact linkLeaf_cases leaf s
  | exit =>
    rcases move_cases (Rule.hlsl packing).exit s with ⟨t, hmove, hposition, htable⟩ | hfault
    · exact .inl ⟨t, hmove, hposition, fun _ => hkeeps htable⟩
    · exact .inr (.inl hfault)

theorem foldlM_linking_position (visits : List Visit) (s : UniformProgress) :
    (visits.foldlM (linking (.hlsl packing) stage).step s).map UniformProgress.position =
        visits.foldlM (Rule.hlsl packing).measure.step s.position ∨
      (∃ name recorded found, visits.foldlM (linking (.hlsl packing) stage).step s =
        .error (.elementMismatch name recorded found)) ∧
        ¬(s.table.map UniformEntry.name ++ metNames visits).Nodup := by
  induction visits generalizing s with
  | nil => exact .inl rfl
  | cons visit visits ih =>
    have hsplit : metNames (visit :: visits) = metNames [visit] ++ metNames visits := by
      cases visit <;> rfl
    have hfirst : ¬(s.table.map UniformEntry.name ++ metNames [visit]).Nodup →
        ¬(s.table.map UniformEntry.name ++ metNames (visit :: visits)).Nodup := by
      intro htaken hnodup
      rw [hsplit, ← List.append_assoc] at hnodup
      exact htaken (List.nodup_append.mp hnodup).1
    rw [List.foldlM_cons, List.foldlM_cons]
    rcases @step_linking_cases packing stage s visit with
      ⟨t, hstep, hmeasure, hnames⟩ | ⟨fault, hstep, hmeasure⟩ | ⟨⟨name, recorded, found, hstep⟩, htaken⟩
    · rw [hstep, hmeasure]
      refine (ih t).imp id ?_
      rintro ⟨hstops, htaken⟩
      refine ⟨hstops, fun hnodup => htaken ?_⟩
      rw [hsplit, ← List.append_assoc] at hnodup
      rwa [hnames (List.nodup_append.mp hnodup).1]
    · rw [hstep, hmeasure]
      exact .inl rfl
    · rw [hstep]
      exact .inr ⟨⟨name, recorded, found, rfl⟩, hfirst htaken⟩

end UniformTable

/-- Walks over a declaration move alike and fault alike, but that a link stops at a leaf whose name
the table or an earlier leaf has. -/
theorem walks_agree :
    (∀ (rule : Rule) (scope : String) (fields : List Variable) (position : Nat),
      Variable.areColumnMajor fields = true →
      (rule.layoutMembers scope false fields position).map Prod.snd =
        fields.foldlM (fun position f => rule.endOf f position) position) ∧
    ∀ (packing : Packing) (stage : Stage) (path : Path) (rowMajor : Bool) (v : Variable)
      (s : UniformProgress),
      ((UniformTable.linking (.hlsl packing) stage).run path rowMajor v s).map
          UniformProgress.position = (Rule.hlsl packing).endOf v s.position ∨
        (∃ name recorded found, (UniformTable.linking (.hlsl packing) stage).run path rowMajor v s =
          .error (.elementMismatch name recorded found)) ∧
          ¬(s.table.map UniformEntry.name ++
            UniformTable.metNames (v.visits path rowMajor)).Nodup := by
  refine ⟨fun rule scope fields position h => rule.layoutMembers_position scope h position, ?_⟩
  intro packing stage path rowMajor v s
  have hend : (v.visits path rowMajor).foldlM (Rule.hlsl packing).measure.step s.position =
      (Rule.hlsl packing).endOf v s.position := by
    rw [← Walk.run_eq_foldlM, Rule.endOf]
    exact Rule.run_measure ..
  rw [Walk.run_eq_foldlM, ← hend]
  exact UniformTable.foldlM_linking_position _ s

/-- An array of structs with a matrix that asks for row majorness itself, an array and a struct in it. -/
def skeleton : Variable :=
  .struct ⟨"bones", 2, false, true⟩
    [.basic ⟨"pose", 0, true, true⟩ (.matrix .two .three),
      .basic ⟨"weights", 3, false, false⟩ (.vector .float .one),
      .struct ⟨"joint", 0, false, true⟩
        [.basic ⟨"axis", 0, false, true⟩ (.vector .float .three),
          .basic ⟨"range", 0, false, true⟩ (.vector .float .two)]]

theorem walks_agree_skeleton :
    (Rule.std140.layoutMembers "mesh" false [skeleton, skeleton] 3).map Prod.snd = .ok 116 ∧
      [skeleton, skeleton].foldlM (fun position f => Rule.std140.endOf f position) 3 = .ok 116 ∧
      ((UniformTable.linking (.hlsl .packed) .vertex).run (.root "bones") false skeleton
        ⟨3, [], #[]⟩).map UniformProgress.position = .ok 58 := by
  have hlayout := walks_agree.1 .std140 "mesh" [skeleton, skeleton] 3 (by decide)
  have hlink := (walks_agree.2 .packed .vertex (.root "bones") false skeleton ⟨3, [], #[]⟩).resolve_right
    fun hstops => hstops.2 (by decide +kernel)
  have hmeasured : [skeleton, skeleton].foldlM (fun position f => Rule.std140.endOf f position) 3 =
      .ok 116 := by
    decide +kernel
  exact ⟨hlayout.trans hmeasured, hmeasured, hlink.trans (by decide +kernel)⟩

end ShaderInterface
