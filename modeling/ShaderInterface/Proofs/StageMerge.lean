import Mathlib.Data.List.Nodup
import ShaderInterface.Proofs.EntryKinds
import ShaderInterface.Proofs.LeafNames
import ShaderInterface.Proofs.OversizedLayout

namespace ShaderInterface

open Position

def Leaf.unqualified (leaf : Leaf) : Leaf :=
  { leaf with rowMajor := false, decl := { leaf.decl with rowMajor := false, staticUse := false } }

def Visit.unqualified : Visit → Visit
  | .enter => .enter
  | .leaf found => .leaf found.unqualified
  | .exit => .exit

theorem Rule.reached_map_unqualified {rule : Rule} (visits : List Visit) (position : Nat) :
    rule.reached Leaf.registerShape (visits.map Visit.unqualified) position =
      (rule.reached Leaf.registerShape visits position).map fun met => (met.1.unqualified, met.2) := by
  have hleaves : Visit.unqualified = Visit.mapLeaf Leaf.unqualified := by
    funext visit
    cases visit <;> rfl
  have hshape (leaf : Leaf) : leaf.unqualified.registerShape = leaf.registerShape := rfl
  rw [hleaves, reached_mapLeaf hshape]

theorem Rule.reached_add {rule : Rule} {shapeOf : Leaf → Shape}
    (hs : ∀ leaf, (shapeOf leaf).WellFormed) {k : Nat} (hk : registerWidth ∣ k) (visits : List Visit)
    (position : Nat) :
    rule.reached shapeOf visits (k + position) =
      (rule.reached shapeOf visits position).map fun met => (met.1, k + met.2) := by
  induction visits generalizing position with
  | nil => rfl
  | cons visit visits ih =>
    rw [reached_cons, reached_cons, moveAt_add hs hk, ih]
    simp

theorem Leaf.noteAt_add (leaf : Leaf) {k : Nat} (hk : registerWidth ∣ k) (position : Nat) :
    leaf.noteAt (k + position) = k + leaf.noteAt position := by
  unfold noteAt
  split
  · exact roundUp_add position (by decide) hk
  · rfl

theorem Position.element_add {k : Nat} (hk : registerWidth ∣ k) (position : Nat) :
    element (k + position) = element position := by
  obtain ⟨m, rfl⟩ := hk
  exact Nat.mul_add_mod ..

namespace Variable

/-- Two declarations under one name, with the same type. -/
structure Alike (v w : Variable) : Prop where
  name : v.name = w.name
  kind : v.kind = w.kind
  arraySize : v.decl.arraySize = w.decl.arraySize

theorem map_unqualified_struct (decl : Declarator) (fields : List Variable) (path : Path)
    (rowMajor : Bool) :
    ((struct decl fields).visits path rowMajor).map Visit.unqualified =
      (List.range' 0 decl.elementCount).flatMap fun index =>
        .enter :: (fields.flatMap fun f =>
          (f.visits ((decl.elementPath path index).field f.name) (rowMajor || decl.rowMajor)).map
            Visit.unqualified) ++ [.exit] := by
  simp only [visits_struct, elementRun, elementVisits, fieldVisits_eq_flatMap, List.map_flatMap,
    List.map_append, List.map_cons, List.map_nil]
  rfl

theorem map_unqualified_visits (v : Variable) (path : Path) (rowMajor rowMajor' : Bool) :
    (v.visits path rowMajor).map Visit.unqualified =
      (v.visits path rowMajor').map Visit.unqualified := by
  induction v generalizing path rowMajor rowMajor' with
  | basic decl type => rfl
  | struct decl fields ih =>
    have hfields (index : Nat) : (fields.flatMap fun f =>
        (f.visits ((decl.elementPath path index).field f.name) (rowMajor || decl.rowMajor)).map
          Visit.unqualified) = fields.flatMap fun f =>
        (f.visits ((decl.elementPath path index).field f.name) (rowMajor' || decl.rowMajor)).map
          Visit.unqualified :=
      List.flatMap_congr fun f hf => ih f hf _ _ _
    simp only [map_unqualified_struct, hfields]

theorem Alike.map_unqualified_visits {v w : Variable} (h : v.Alike w) (path : Path) (rowMajor : Bool) :
    (v.visits path rowMajor).map Visit.unqualified =
      (w.visits path rowMajor).map Visit.unqualified := by
  obtain ⟨hname, hkind, hsize⟩ := h
  cases v with
  | basic decl type =>
    cases w with
    | struct decl' fields' => cases hkind
    | basic decl' type' =>
      cases hkind
      have hname : decl.name = decl'.name := hname
      have hsize : decl.arraySize = decl'.arraySize := hsize
      simp [visits, Visit.unqualified, Leaf.unqualified, hname, hsize]
  | struct decl fields =>
    cases w with
    | basic decl' type' => cases hkind
    | struct decl' fields' =>
      cases hkind
      have hsize : decl.arraySize = decl'.arraySize := hsize
      have hcount : decl.elementCount = decl'.elementCount := by
        simp only [Declarator.elementCount, hsize]
      have hpath (index : Nat) : decl.elementPath path index = decl'.elementPath path index := by
        rw [Declarator.elementPath, Declarator.isArray, hsize]
        rfl
      simp only [map_unqualified_struct, hcount, hpath,
        fun (f : Variable) path => f.map_unqualified_visits path (rowMajor || decl.rowMajor)
          (rowMajor || decl'.rowMajor)]

/-- The full names of the leaves of a uniform, with the components where they are noted. -/
def leafElements (v : Variable) (packing : Packing) : List (String × UInt32) :=
  ((Rule.hlsl packing).reached Leaf.registerShape (v.visits (.root v.name) false) 0).map fun met =>
    (met.1.uniformName, (met.1.entryAt (met.1.noteAt met.2)).element)

theorem map_fst_leafElements (v : Variable) (packing : Packing) :
    (v.leafElements packing).map Prod.fst = v.leaves.map Leaf.uniformName := by
  rw [leaves, ← Rule.map_fst_reached, leafElements, List.map_map, List.map_map]
  rfl

theorem Alike.leafElements_eq {v w : Variable} (h : v.Alike w) (packing : Packing) :
    v.leafElements packing = w.leafElements packing := by
  -- Neither a name nor a component depends on a qualifier.
  have hplain (u : Variable) : u.leafElements packing =
      ((Rule.hlsl packing).reached Leaf.registerShape
        ((u.visits (.root u.name) false).map Visit.unqualified) 0).map fun met =>
          (met.1.uniformName, (met.1.entryAt (met.1.noteAt met.2)).element) := by
    rw [Rule.reached_map_unqualified, List.map_map]
    rfl
  rw [hplain v, hplain w, h.name, h.map_unqualified_visits]

theorem Alike.uniformNames_eq {v w : Variable} (h : v.Alike w) :
    v.leaves.map Leaf.uniformName = w.leaves.map Leaf.uniformName := by
  rw [← v.map_fst_leafElements .packed, h.leafElements_eq, map_fst_leafElements]

end Variable

namespace Grant

variable {packing : Packing}

/-- The layout of a uniform ends within the positions. -/
def Fits (g : Grant) (packing : Packing) : Prop :=
  (Rule.hlsl packing).endAt Leaf.registerShape (g.uniform.visits (.root g.uniform.name) false)
    (registerWidth * g.base.toNat) ≤ last

instance (g : Grant) (packing : Packing) : Decidable (g.Fits packing) :=
  inferInstanceAs (Decidable (_ ≤ _))

theorem spans_of_fits {g : Grant} (h : g.Fits packing) :
    g.spans packing = ((Rule.hlsl packing).reached Leaf.registerShape
      (g.uniform.visits (.root g.uniform.name) false) (registerWidth * g.base.toNat)).map fun met =>
        met.1.spanAt packing met.2 := by
  apply List.map_congr_left
  intro met hmet
  have hbounds := (Rule.reached_bounds Leaf.wellFormed_registerShape hmet).2
  have hmove := @Rule.le_moveAt (.hlsl packing) _ Leaf.wellFormed_registerShape met.2 (.leaf met.1)
  rw [Nat.min_eq_left (Nat.le_trans hmove (Nat.le_trans hbounds h))]

theorem map_spans_of_fits {g : Grant} (h : g.Fits packing) :
    (g.spans packing).map (fun span => (span.name, span.entry.element)) =
      g.uniform.leafElements packing := by
  have hwhole := Nat.dvd_mul_right registerWidth g.base.toNat
  have hshift := @Rule.reached_add (.hlsl packing) _ Leaf.wellFormed_registerShape _ hwhole
    (g.uniform.visits (.root g.uniform.name) false) 0
  rw [Nat.add_zero] at hshift
  rw [spans_of_fits h, hshift, List.map_map, List.map_map]
  apply List.map_congr_left
  intro met _
  simp only [Function.comp_apply, LeafSpan.name, LeafSpan.entry, Leaf.spanAt, Leaf.entryAt,
    met.1.noteAt_add hwhole, element_add hwhole]

theorem Fits.not_overruns {g : Grant} (h : g.Fits packing) : ¬g.uniform.Overruns packing := by
  intro hover
  have hpast := Rule.last_lt_endAt_of_overruns hover
  have hshift := @Rule.endAt_add (.hlsl packing) _ Leaf.wellFormed_registerShape _
    (Nat.dvd_mul_right registerWidth g.base.toNat)
    (g.uniform.visits (.root g.uniform.name) false) 0
  unfold Fits at h
  rw [Nat.add_zero] at hshift
  omega

end Grant

namespace UniformTable

variable {packing : Packing} {stage : Stage}

theorem linkLeaf_of_note_error {leaf : Leaf} {s : UniformProgress} {fault : Fault}
    (hroom : leaf.noteAt s.position ≤ last)
    (hnoted : s.table.note stage (clampWord (register (leaf.noteAt s.position)))
      (leaf.entryAt (leaf.noteAt s.position)) = .error fault) :
    linkLeaf (.hlsl packing) stage leaf s = .error fault := by
  have hnote : (Rule.hlsl packing).noteOf leaf s.position = .ok (leaf.noteAt s.position) := by
    unfold Rule.noteOf Leaf.noteAt at *
    split
    case isTrue harray =>
      rw [if_pos harray] at hroom
      exact nextRegister_of_le hroom
    case isFalse => rfl
  rw [linkLeaf_eq, hnote]
  change s.table.note stage _ _ >>= _ = _
  rw [hnoted]
  rfl

/-- A walk that stays within the positions links its leaves as they are noted, and faults where one is
refused. -/
theorem map_table_foldlM_linking {visits : List Visit} {s : UniformProgress}
    (hroom : (Rule.hlsl packing).endAt Leaf.registerShape visits s.position ≤ last) :
    (visits.foldlM (linking (.hlsl packing) stage).step s).map UniformProgress.table =
      s.table.noteSpans stage
        (((Rule.hlsl packing).reached Leaf.registerShape visits s.position).map fun met =>
          met.1.spanAt packing met.2) := by
  induction visits generalizing s with
  | nil => rfl
  | cons visit visits ih =>
    have hmove := Nat.le_trans (Rule.le_endAt Leaf.wellFormed_registerShape visits _) hroom
    rw [List.foldlM_cons]
    cases visit with
    | enter =>
      have henter : (linking (.hlsl packing) stage).step s .enter =
          .ok { s with position := roundUp s.position registerWidth } := by
        change (Rule.hlsl packing).enter s.position >>= _ = _
        rw [Rule.enter, nextRegister_of_le hmove]
        rfl
      rw [henter]
      exact @ih { s with position := roundUp s.position registerWidth } hroom
    | leaf leaf =>
      rw [Rule.reached, List.map_cons, noteSpans, List.foldlM_cons]
      cases hnote : s.table.note stage (leaf.spanAt packing s.position).register
          (leaf.spanAt packing s.position).entry with
      | error fault =>
        have hlt := leaf.noteAt_lt packing s.position
        have hstep : (linking (.hlsl packing) stage).step s (.leaf leaf) = .error fault :=
          linkLeaf_of_note_error (Nat.le_trans (Nat.le_of_lt hlt) hmove) hnote
        rw [hstep]
        rfl
      | ok next =>
        obtain ⟨events, hstep⟩ := linkLeaf_of_note hmove hnote
        rw [show (linking (.hlsl packing) stage).step s (.leaf leaf) = _ from hstep]
        exact @ih ⟨_, next, events⟩ hroom
    | exit => exact @ih s hroom

theorem map_value_linkUniform {output : Output} {g : Grant} {table : UniformTable}
    (hp : output.packing = .ok packing) (hfits : g.Fits packing) :
    (table.linkUniform stage output g.uniform g.base).map Logged.value =
      table.noteSpans stage (g.spans packing) := by
  have hstart : Rule.skipRegisters 0 g.base = registerWidth * g.base.toNat := by
    have hle := @Rule.le_endAt (.hlsl packing) _ Leaf.wellFormed_registerShape
      (g.uniform.visits (.root g.uniform.name) false) (registerWidth * g.base.toNat)
    rw [Rule.skipRegisters_zero_min, Nat.min_eq_left (Nat.le_trans hle hfits)]
  have hlink := @map_table_foldlM_linking packing stage _
    ⟨registerWidth * g.base.toNat, table, #[]⟩ hfits
  rw [Grant.spans_of_fits hfits]
  refine Eq.trans ?_ hlink
  rw [linkUniform, hp]
  change ((linking (.hlsl packing) stage).run _ _ g.uniform _ >>= _).map _ = _
  rw [Walk.run_eq_foldlM, hstart]
  cases List.foldlM (linking (.hlsl packing) stage).step
    ⟨registerWidth * g.base.toNat, table, #[]⟩
    (g.uniform.visits (.root g.uniform.name) false) <;> rfl

theorem linkUniform_of_noteSpans {output : Output} {g : Grant} {table table' : UniformTable}
    (hp : output.packing = .ok packing) (hfits : g.Fits packing)
    (hnotes : table.noteSpans stage (g.spans packing) = .ok table') :
    ∃ events, table.linkUniform stage output g.uniform g.base = .ok ⟨table', events⟩ := by
  rw [← map_value_linkUniform hp hfits] at hnotes
  cases hlink : table.linkUniform stage output g.uniform g.base with
  | error fault =>
    rw [hlink] at hnotes
    cases hnotes
  | ok linked =>
    rw [hlink] at hnotes
    cases hnotes
    exact ⟨linked.events, rfl⟩

end UniformTable

namespace Allocator

variable {packing : Packing}

def grant (allocator : Allocator) (packing : Packing) (v : Variable) : Grant × Allocator :=
  match allocator.uniformRegister? v.name with
  | some register => (⟨v, register⟩, allocator)
  | none => (⟨v, allocator.nextFor v.isSampler⟩,
      allocator.take v.name v.isSampler (clampWord (v.registersNeeded packing)))

def grants (packing : Packing) : Allocator → List Variable → List Grant
  | _, [] => []
  | allocator, v :: vs =>
    (allocator.grant packing v).1 :: (allocator.grant packing v).2.grants packing vs

theorem uniform_grant (allocator : Allocator) (packing : Packing) (v : Variable) :
    (allocator.grant packing v).1.uniform = v := by
  unfold grant
  split <;> rfl

theorem output_grant (allocator : Allocator) (packing : Packing) (v : Variable) :
    (allocator.grant packing v).2.output = allocator.output := by
  unfold grant
  split
  · rfl
  · exact output_take ..

theorem map_uniform_grants (allocator : Allocator) (vs : List Variable) :
    (allocator.grants packing vs).map Grant.uniform = vs := by
  induction vs generalizing allocator with
  | nil => rfl
  | cons v vs ih => rw [grants, List.map_cons, ih, uniform_grant]

theorem assignUniform_eq_grant {allocator : Allocator} {v : Variable}
    (hp : allocator.output.packing = .ok packing) (h : ¬v.Overruns packing) :
    ∃ events, allocator.assignUniform v =
      .ok ⟨(allocator.grant packing v).1.base, (allocator.grant packing v).2, events⟩ := by
  cases hknown : allocator.uniformRegister? v.name with
  | some register =>
    refine ⟨[], ?_⟩
    simp [assignUniform, grant, hknown, pure, Except.pure]
  | none =>
    simp only [assignUniform, grant, hknown, Variable.uniformRegisters_of_not_overruns hp h]
    exact ⟨_, rfl⟩

theorem map_name_spans_grants (allocator : Allocator) (vs : List Variable) :
    ((allocator.grants packing vs).flatMap (·.spans packing)).map LeafSpan.name = leafNames vs := by
  have hspans (g : Grant) : (g.spans packing).map LeafSpan.name =
      g.uniform.leaves.map Leaf.uniformName := g.uniform.map_name_spansAt packing g.base
  have huniforms := @map_uniform_grants packing allocator vs
  rw [← huniforms, leafNames, List.flatMap_map, huniforms, List.map_flatMap]
  simp only [hspans]

end Allocator

namespace UniformTable

variable {packing : Packing} {stage : Stage}

theorem linkStage_of_noteSpans {uniforms : List Variable} {table table' : UniformTable}
    {allocator : Allocator} (hp : allocator.output.packing = .ok packing)
    (hfits : ∀ g ∈ allocator.grants packing (usedUniforms uniforms), g.Fits packing)
    (hnotes : table.noteSpans stage
      ((allocator.grants packing (usedUniforms uniforms)).flatMap (·.spans packing)) = .ok table') :
    ∃ allocator' events, linkStage stage uniforms table allocator =
      .ok ⟨(table', allocator'), events⟩ := by
  induction uniforms generalizing table allocator with
  | nil =>
    cases hnotes
    exact ⟨allocator, [], rfl⟩
  | cons v vs ih =>
    by_cases hv : v.decl.staticUse = true
    · rw [usedUniforms_cons vs hv, Allocator.grants] at hfits hnotes
      have hfit := hfits _ List.mem_cons_self
      obtain ⟨events, hassign⟩ := Allocator.assignUniform_eq_grant hp
        (allocator.uniform_grant packing v ▸ hfit.not_overruns)
      rw [List.flatMap_cons, noteSpans_append] at hnotes
      obtain ⟨next, hnote, hrest⟩ := bind_eq_ok.mp hnotes
      obtain ⟨linkEvents, hlink⟩ := linkUniform_of_noteSpans hp hfit hnote
      rw [allocator.uniform_grant] at hlink
      obtain ⟨allocator', restEvents, hstage⟩ := ih ((allocator.output_grant packing v).symm ▸ hp)
        (fun g hg => hfits g (List.mem_cons_of_mem _ hg)) hrest
      refine ⟨allocator', events ++ linkEvents ++ restEvents, ?_⟩
      rw [linkStage, if_pos hv, hassign]
      change (table.linkUniform stage allocator.output v _ >>= fun linked => _) = _
      rw [hlink]
      change (linkStage stage vs next _ >>= fun rest => _) = _
      rw [hstage]
      rfl
    · rw [usedUniforms_cons_of_unused vs hv] at hfits hnotes
      obtain ⟨allocator', events, hstage⟩ := ih hp hfits hnotes
      exact ⟨allocator', events, by rw [linkStage, if_neg hv, hstage]⟩

theorem name_of_get? {table : UniformTable} {name : String} {u : UniformEntry}
    (h : table.get? name = some u) : u.name = name := by
  unfold get? at h
  simpa using List.find?_some h

theorem exists_noteSpans {known : LeafSpan → Prop} {spans : List LeafSpan} {table : UniformTable}
    (hsame : ∀ a b, known a → known b → a.name = b.name → a.entry.element = b.entry.element)
    (htable : ∀ u ∈ table, ∃ a, known a ∧ a.name = u.name ∧ a.entry.element = u.element)
    (hspans : ∀ span ∈ spans, known span) :
    ∃ table', table.noteSpans stage spans = .ok table' ∧
      ∀ u ∈ table', ∃ a, known a ∧ a.name = u.name ∧ a.entry.element = u.element := by
  induction spans generalizing table with
  | nil => exact ⟨table, rfl, htable⟩
  | cons span spans ih =>
    have hspan := hspans span List.mem_cons_self
    obtain ⟨next, hnote⟩ : ∃ next, table.note stage span.register span.entry = .ok next := by
      unfold note
      split
      case h_1 => exact ⟨_, rfl⟩
      case h_2 entry hsome =>
        obtain ⟨a, ha, hname, helement⟩ := htable entry (List.mem_of_find?_eq_some hsome)
        have hequal := hsame a span ha hspan (hname.trans (name_of_get? hsome))
        rw [if_pos (helement.symm.trans hequal)]
        exact ⟨_, rfl⟩
    have hnext : ∀ u ∈ next, ∃ a, known a ∧ a.name = u.name ∧ a.entry.element = u.element := by
      rcases note_eq_ok hnote with ⟨-, rfl⟩ | ⟨before, entry, after, rfl, -, rfl⟩
      · rw [List.forall_mem_append, List.forall_mem_singleton]
        exact ⟨htable, span, hspan, rfl, rfl⟩
      · rw [List.forall_mem_append, List.forall_mem_cons] at htable ⊢
        exact htable
    obtain ⟨table', hnotes, htable'⟩ := ih hnext fun other hother =>
      hspans other (List.mem_cons_of_mem _ hother)
    refine ⟨table', ?_, htable'⟩
    rw [noteSpans, List.foldlM_cons, hnote]
    exact hnotes

theorem names_noteSpans {spans : List LeafSpan} {table table' : UniformTable}
    (hnames : (table.map UniformEntry.name).Nodup) (h : table.noteSpans stage spans = .ok table') :
    (table'.map UniformEntry.name).Nodup ∧ ∀ name, name ∈ table'.map UniformEntry.name ↔
      name ∈ table.map UniformEntry.name ∨ name ∈ spans.map LeafSpan.name := by
  induction spans generalizing table with
  | nil =>
    cases h
    exact ⟨hnames, by simp⟩
  | cons span spans ih =>
    obtain ⟨next, hnote, hrest⟩ := bind_eq_ok.mp h
    rcases note_eq_ok hnote with ⟨hnone, rfl⟩ | ⟨before, entry, after, rfl, hsome, rfl⟩
    · have hnew : ∀ u ∈ table, u.name ≠ span.name := by
        intro u hu hname
        exact List.find?_eq_none.mp hnone u hu (decide_eq_true hname)
      have hadd : (table ++ [span.entry.setRegister stage span.register]).map UniformEntry.name =
          table.map UniformEntry.name ++ [span.name] := by
        rw [List.map_append]
        rfl
      obtain ⟨hnodup, hmem⟩ := ih (by rw [hadd]; simpa [List.nodup_append, hnames] using hnew) hrest
      refine ⟨hnodup, fun name => ?_⟩
      rw [hmem, hadd]
      simp [or_assoc]
    · have hkeep : (before ++ entry.setRegister stage span.register :: after).map
          UniformEntry.name = (before ++ entry :: after).map UniformEntry.name := by
        simp
      have hknown : span.name ∈ (before ++ entry :: after).map UniformEntry.name :=
        List.mem_map.mpr ⟨entry, by simp, name_of_get? hsome⟩
      obtain ⟨hnodup, hmem⟩ := ih (by rw [hkeep]; exact hnames) hrest
      refine ⟨hnodup, fun name => ?_⟩
      rw [hmem, hkeep, List.map_cons, List.mem_cons]
      constructor
      · rintro (hname | hname)
        · exact .inl hname
        · exact .inr (.inr hname)
      · rintro (hname | rfl | hname)
        · exact .inl hname
        · exact .inl hknown
        · exact .inr hname

def Finds (table : UniformTable) (stage : Stage) (name : String) : Prop :=
  ∃ u, table.get? name = some u ∧ (u.registers.get stage).isSome = true

theorem finds_note {table table' : UniformTable} {span : LeafSpan} (other : Stage) (name : String)
    (h : table.note stage span.register span.entry = .ok table') :
    table'.Finds other name ↔ table.Finds other name ∨ other = stage ∧ name = span.name := by
  unfold Finds
  rw [get?_note h]
  by_cases hname : name = span.entry.name
  · rw [if_pos hname]
    have hspan : name = span.name := hname
    by_cases hstage : other = stage
    · subst hstage
      simp [hspan]
    · have hblank : span.entry.registers.get other = none := PerStage.get_both ..
      cases table.get? name <;> simp [PerStage.get_set_of_ne _ _ hstage, hblank, hstage]
  · have hspan : name ≠ span.name := hname
    simp [hname, hspan]

theorem finds_noteSpans {spans : List LeafSpan} {table table' : UniformTable} (other : Stage)
    (name : String) (h : table.noteSpans stage spans = .ok table') :
    table'.Finds other name ↔
      table.Finds other name ∨ other = stage ∧ name ∈ spans.map LeafSpan.name := by
  induction spans generalizing table with
  | nil =>
    cases h
    simp
  | cons span spans ih =>
    obtain ⟨next, hnote, hrest⟩ := bind_eq_ok.mp h
    rw [ih hrest, finds_note other name hnote, List.map_cons, List.mem_cons]
    constructor
    · rintro ((hfinds | ⟨hstage, hname⟩) | ⟨hstage, hname⟩)
      · exact .inl hfinds
      · exact .inr ⟨hstage, .inl hname⟩
      · exact .inr ⟨hstage, .inr hname⟩
    · rintro (hfinds | ⟨hstage, hname | hname⟩)
      · exact .inl (.inl hfinds)
      · exact .inl (.inr ⟨hstage, hname⟩)
      · exact .inr ⟨hstage, hname⟩

end UniformTable

/-- Declarations of uniforms that make up a program: the names in a stage are different, full names
can be read back, and a name has one type in both stages. -/
structure Mergeable (uniforms : PerStage (List Variable)) : Prop where
  names : ∀ stage, ((uniforms.get stage).map Variable.name).Nodup
  wellNamed : ∀ stage, ∀ v ∈ uniforms.get stage, v.isWellNamed = true
  typed : ∀ v ∈ uniforms.vertex, ∀ w ∈ uniforms.fragment, v.name = w.name →
    v.kind = w.kind ∧ v.decl.arraySize = w.decl.arraySize

namespace Mergeable

variable {uniforms : PerStage (List Variable)} {allocators : PerStage Allocator} {packing : Packing}
  {stage other : Stage}

theorem alike (h : Mergeable uniforms) {v w : Variable} (hv : v ∈ uniforms.get stage)
    (hw : w ∈ uniforms.get other) (hname : v.name = w.name) : v.Alike w := by
  have hself {stage : Stage} (hv : v ∈ uniforms.get stage) (hw : w ∈ uniforms.get stage) :
      v.Alike w := by
    rw [List.inj_on_of_nodup_map (h.names stage) hv hw hname]
    exact ⟨rfl, rfl, rfl⟩
  cases stage <;> cases other
  · exact hself hv hw
  · obtain ⟨hkind, hsize⟩ := h.typed v hv w hw hname
    exact ⟨hname, hkind, hsize⟩
  · obtain ⟨hkind, hsize⟩ := h.typed w hw v hv hname.symm
    exact ⟨hname, hkind.symm, hsize.symm⟩
  · exact hself hv hw

theorem mem_of_used {v : Variable} (hv : v ∈ usedUniforms (uniforms.get stage)) :
    v ∈ uniforms.get stage :=
  (List.mem_filter.mp hv).1

/-- Two uses of one full name are uses of one uniform. -/
theorem alike_of_uniformName_eq (h : Mergeable uniforms) {v w : Variable}
    (hv : v ∈ usedUniforms (uniforms.get stage)) (hw : w ∈ usedUniforms (uniforms.get other))
    {name : String} (hname : name ∈ v.leaves.map Leaf.uniformName)
    (hname' : name ∈ w.leaves.map Leaf.uniformName) : v.Alike w := by
  have hv := mem_of_used hv
  have hw := mem_of_used hw
  obtain ⟨leaf, hleaf, rfl⟩ := List.mem_map.mp hname
  obtain ⟨leaf', hleaf', hsame⟩ := List.mem_map.mp hname'
  exact h.alike hv hw (Variable.name_eq_of_uniformName_eq (h.wellNamed stage v hv)
    (h.wellNamed other w hw) hleaf hleaf' hsame.symm)

def spans (uniforms : PerStage (List Variable)) (allocators : PerStage Allocator) (packing : Packing)
    (stage : Stage) : List LeafSpan :=
  ((allocators.get stage).grants packing (usedUniforms (uniforms.get stage))).flatMap
    (·.spans packing)

theorem mem_spans {span : LeafSpan} (hspan : span ∈ spans uniforms allocators packing stage)
    (hfits : ∀ g ∈ (allocators.get stage).grants packing (usedUniforms (uniforms.get stage)),
      g.Fits packing) :
    ∃ v ∈ usedUniforms (uniforms.get stage),
      (span.name, span.entry.element) ∈ v.leafElements packing := by
  obtain ⟨g, hg, hspan⟩ := List.mem_flatMap.mp hspan
  refine ⟨g.uniform, ?_, ?_⟩
  · rw [← @Allocator.map_uniform_grants packing (allocators.get stage) (usedUniforms _)]
    exact List.mem_map.mpr ⟨g, hg, rfl⟩
  · rw [← Grant.map_spans_of_fits (hfits g hg)]
    exact List.mem_map.mpr ⟨span, hspan, rfl⟩

/-- Leaves of one name start at the same component of a register in all stages. -/
theorem element_eq (h : Mergeable uniforms)
    (hfits : ∀ stage, ∀ g ∈ (allocators.get stage).grants packing (usedUniforms (uniforms.get stage)),
      g.Fits packing) {a b : LeafSpan} (ha : a ∈ spans uniforms allocators packing stage)
    (hb : b ∈ spans uniforms allocators packing other) (hname : a.name = b.name) :
    a.entry.element = b.entry.element := by
  obtain ⟨v, hv, ha⟩ := mem_spans ha (hfits stage)
  obtain ⟨w, hw, hb⟩ := mem_spans hb (hfits other)
  have hain : a.name ∈ v.leaves.map Leaf.uniformName := by
    rw [← v.map_fst_leafElements packing]
    exact List.mem_map.mpr ⟨_, ha, rfl⟩
  have hbin : a.name ∈ w.leaves.map Leaf.uniformName := by
    rw [← w.map_fst_leafElements packing]
    exact List.mem_map.mpr ⟨_, hb, hname.symm⟩
  have halike := h.alike_of_uniformName_eq hv hw hain hbin
  have hdistinct : ((w.leafElements packing).map Prod.fst).Nodup := by
    rw [w.map_fst_leafElements]
    exact Variable.nodup_uniformNames (h.wellNamed other w (mem_of_used hw))
  rw [halike.leafElements_eq] at ha
  exact congrArg Prod.snd (List.inj_on_of_nodup_map hdistinct ha hb hname)

theorem map_name_spans (uniforms : PerStage (List Variable)) (allocators : PerStage Allocator)
    (packing : Packing) (stage : Stage) :
    (spans uniforms allocators packing stage).map LeafSpan.name =
      leafNames (usedUniforms (uniforms.get stage)) :=
  Allocator.map_name_spans_grants ..

end Mergeable

namespace UniformTable

section Merged

variable {uniforms : PerStage (List Variable)} {allocators : PerStage Allocator} {packing : Packing}
  {first second : Stage} {half table : UniformTable}

theorem stage_cases (hne : first ≠ second) (stage : Stage) : stage = first ∨ stage = second := by
  revert hne
  cases stage <;> cases first <;> cases second <;> decide

theorem names_merged (hne : first ≠ second)
    (hhalf : noteSpans [] first (Mergeable.spans uniforms allocators packing first) = .ok half)
    (htable : half.noteSpans second (Mergeable.spans uniforms allocators packing second) = .ok table) :
    (table.map UniformEntry.name).Nodup ∧ ∀ name, name ∈ table.map UniformEntry.name ↔
      ∃ stage, name ∈ leafNames (usedUniforms (uniforms.get stage)) := by
  obtain ⟨hdistinct, hnames⟩ := @names_noteSpans first _ [] half List.nodup_nil hhalf
  obtain ⟨hdistinct', hnames'⟩ := names_noteSpans hdistinct htable
  refine ⟨hdistinct', ?_⟩
  intro name
  rw [hnames', hnames, Mergeable.map_name_spans, Mergeable.map_name_spans]
  constructor
  · rintro ((hnil | hin) | hin)
    · cases hnil
    · exact ⟨first, hin⟩
    · exact ⟨second, hin⟩
  · rintro ⟨stage, hin⟩
    rcases stage_cases hne stage with rfl | rfl
    · exact .inl (.inr hin)
    · exact .inr hin

theorem finds_merged (hne : first ≠ second)
    (hhalf : noteSpans [] first (Mergeable.spans uniforms allocators packing first) = .ok half)
    (htable : half.noteSpans second (Mergeable.spans uniforms allocators packing second) = .ok table)
    (other : Stage) (name : String) :
    table.Finds other name ↔ name ∈ leafNames (usedUniforms (uniforms.get other)) := by
  have hnone : ¬Finds [] other name := by simp [Finds, get?]
  rw [finds_noteSpans other name htable, finds_noteSpans other name hhalf, Mergeable.map_name_spans,
    Mergeable.map_name_spans]
  rcases stage_cases hne other with rfl | rfl
  · simp [hnone, hne]
  · simp [hnone, hne.symm]

end Merged

/-- Both stages can be linked into one table, in either order, with one entry for each full name of
a leaf, which a stage finds exactly if it uses the uniform of it. -/
theorem linkStages_merge {output : Output} {packing : Packing} {uniforms : PerStage (List Variable)}
    {allocators : PerStage Allocator} {first second : Stage} (hp : output.packing = .ok packing)
    (houtput : ∀ stage, (allocators.get stage).output = output) (hne : first ≠ second)
    (h : Mergeable uniforms)
    (hfits : ∀ stage, ∀ g ∈ (allocators.get stage).grants packing (usedUniforms (uniforms.get stage)),
      g.Fits packing) :
    ∃ half allocator events table allocator' events',
      linkStage first (uniforms.get first) [] (allocators.get first) =
        .ok ⟨(half, allocator), events⟩ ∧
      linkStage second (uniforms.get second) half (allocators.get second) =
        .ok ⟨(table, allocator'), events'⟩ ∧
      (table.map UniformEntry.name).Nodup ∧
      (∀ name, name ∈ table.map UniformEntry.name ↔
        ∃ stage, name ∈ leafNames (usedUniforms (uniforms.get stage))) ∧
      ∀ u ∈ table, ∃ stage, ∃ v ∈ usedUniforms (uniforms.get stage),
        u.name ∈ v.leaves.map Leaf.uniformName ∧
        ∀ other, (u.registers.get other).isSome = true ↔
          ∃ w ∈ usedUniforms (uniforms.get other), w.name = v.name := by
  have hsame (a b : LeafSpan) (ha : ∃ stage, a ∈ Mergeable.spans uniforms allocators packing stage)
      (hb : ∃ stage, b ∈ Mergeable.spans uniforms allocators packing stage) (hname : a.name = b.name) :
      a.entry.element = b.entry.element := by
    obtain ⟨stage, ha⟩ := ha
    obtain ⟨other, hb⟩ := hb
    exact h.element_eq hfits ha hb hname
  obtain ⟨half, hnotes, hhalf⟩ := @exists_noteSpans first _ _ [] hsame (by simp)
    fun span hspan => ⟨first, hspan⟩
  obtain ⟨table, hnotes', -⟩ := @exists_noteSpans second _ _ half hsame hhalf
    fun span hspan => ⟨second, hspan⟩
  obtain ⟨allocator, events, hlink⟩ :=
    linkStage_of_noteSpans ((houtput first).symm ▸ hp) (hfits first) hnotes
  obtain ⟨allocator', events', hlink'⟩ :=
    linkStage_of_noteSpans ((houtput second).symm ▸ hp) (hfits second) hnotes'
  obtain ⟨hdistinct, hnames⟩ := names_merged hne hnotes hnotes'
  refine ⟨half, allocator, events, table, allocator', events', hlink, hlink', hdistinct, hnames, ?_⟩
  intro u hu
  obtain ⟨stage, hstage⟩ := (hnames u.name).mp (List.mem_map.mpr ⟨u, hu, rfl⟩)
  obtain ⟨v, hv, hname⟩ := List.mem_flatMap.mp hstage
  refine ⟨stage, v, hv, hname, ?_⟩
  intro other
  have hself : (u.registers.get other).isSome = true ↔ table.Finds other u.name := by
    simp [Finds, get?_of_mem hdistinct hu]
  rw [hself, finds_merged hne hnotes hnotes']
  constructor
  · intro hin
    obtain ⟨w, hw, hname'⟩ := List.mem_flatMap.mp hin
    exact ⟨w, hw, (h.alike_of_uniformName_eq hw hv hname' hname).name⟩
  · rintro ⟨w, hw, hsame⟩
    have halike := h.alike (Mergeable.mem_of_used hw) (Mergeable.mem_of_used hv) hsame
    exact List.mem_flatMap.mpr ⟨w, hw, halike.uniformNames_eq ▸ hname⟩

/-- An array of structs that both stages use, behind another uniform in one of them and with
matrices of another majorness, and a uniform that only one of the stages uses. -/
def sharedUniforms : PerStage (List Variable) where
  vertex := [lampUniform, .basic ⟨"tint", 0, false, true⟩ (.vector .float .three)]
  fragment :=
    [.basic ⟨"gain", 0, false, true⟩ (.vector .float .two),
      .struct ⟨"lamps", 2, true, true⟩ lampUniform.fields,
      .basic ⟨"tint", 0, true, false⟩ (.vector .float .three)]

def sharedAllocators : PerStage Allocator where
  vertex := (Allocator.start .hlsl11 .vertex).reserveVectors 7
  fragment := .start .hlsl11 .fragment

theorem linkStages_merge_sharedUniforms :
    ∃ half allocator events table allocator' events',
      linkStage .fragment (sharedUniforms.get .fragment) [] (sharedAllocators.get .fragment) =
        .ok ⟨(half, allocator), events⟩ ∧
      linkStage .vertex (sharedUniforms.get .vertex) half (sharedAllocators.get .vertex) =
        .ok ⟨(table, allocator'), events'⟩ ∧
      (table.map UniformEntry.name).Nodup ∧
      (∀ name, name ∈ table.map UniformEntry.name ↔
        ∃ stage, name ∈ leafNames (usedUniforms (sharedUniforms.get stage))) ∧
      ∀ u ∈ table, ∃ stage, ∃ v ∈ usedUniforms (sharedUniforms.get stage),
        u.name ∈ v.leaves.map Leaf.uniformName ∧
        ∀ other, (u.registers.get other).isSome = true ↔
          ∃ w ∈ usedUniforms (sharedUniforms.get other), w.name = v.name := by
  have hmergeable : Mergeable sharedUniforms := by
    refine ⟨?_, ?_, ?_⟩
    · intro stage
      cases stage <;> decide +kernel
    · intro stage
      cases stage <;> decide +kernel
    · simp [sharedUniforms, lampUniform, Variable.name, Variable.decl, Variable.kind, Variable.fields]
  have hpacking : Output.hlsl11.packing = .ok .packed := rfl
  refine linkStages_merge hpacking ?_ (by decide) hmergeable ?_
  · intro stage
    cases stage <;> rfl
  · intro stage
    cases stage <;> decide +kernel

end UniformTable

end ShaderInterface
