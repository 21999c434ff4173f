import ShaderInterface.Link.Program
import ShaderInterface.Proofs.StageSpans

namespace ShaderInterface

namespace UniformEntry

/-- A leaf of a uniform that some stage finds in a register. -/
structure IsUniform (u : UniformEntry) : Prop where
  block_eq : u.block = none
  info_eq : u.info = .unassigned
  registerCount_eq : u.registerCount = clampWord (u.type.registerCount * u.elementCount)
  used : ∃ stage, (u.registers.get stage).isSome = true

structure IsLaidOut (u : UniformEntry) : Prop where
  block_isSome : u.block.isSome = true
  info_isAssigned : u.info.isAssigned = true
  registerCount_eq : u.registerCount = 0
  element_eq : u.element = 0

/-- A member of a block, which no stage finds in a register of its own. -/
structure IsMember (u : UniformEntry) : Prop extends u.IsLaidOut where
  registers_eq : u.registers = .both none

variable {u : UniformEntry} {stage : Stage} {register : UInt32}

theorem IsUniform.setRegister (h : u.IsUniform) : (u.setRegister stage register).IsUniform where
  block_eq := h.block_eq
  info_eq := h.info_eq
  registerCount_eq := h.registerCount_eq
  used := ⟨stage, by rw [registers_setRegister, PerStage.get_set]; rfl⟩

theorem IsLaidOut.setRegister (h : u.IsLaidOut) : (u.setRegister stage register).IsLaidOut :=
  ⟨h.block_isSome, h.info_isAssigned, h.registerCount_eq, h.element_eq⟩

theorem registers_setRegister_ne : (u.setRegister stage register).registers ≠ .both none := by
  intro h
  have hget := congrArg (PerStage.get · stage) h
  rw [registers_setRegister, PerStage.get_set, PerStage.get_both] at hget
  cases hget

end UniformEntry

theorem LeafSpan.isUniform_linked (span : LeafSpan) (stage : Stage) :
    (span.linked stage).IsUniform where
  block_eq := rfl
  info_eq := rfl
  registerCount_eq := rfl
  used := ⟨stage, by rw [register_linked]; rfl⟩

theorem Member.isMember_entry (member : Member) (block : UInt32) :
    (member.entry block).IsMember where
  block_isSome := rfl
  info_isAssigned := member.placement.isAssigned_info
  registerCount_eq := rfl
  element_eq := rfl
  registers_eq := rfl

namespace UniformTable

/-- What is found under a name is a member of a block, and a leaf of that name is noted as such. -/
def captures (table : UniformTable) (name : String) : Bool :=
  (table.get? name).any fun u => u.block.isSome

def KeepsMembers (table : UniformTable) : Prop :=
  ∀ u ∈ table, u.block.isSome = true → u.registers = .both none

/-- What holds of a table whatever was noted in it: entries are of either kind but for their registers,
and nothing of its name stands before a leaf of a uniform. -/
structure Sound (table : UniformTable) : Prop where
  kind : ∀ u ∈ table, u.IsUniform ∨ u.IsLaidOut
  first : table.Pairwise fun a b => b.block = none → a.name ≠ b.name

theorem Sound.kinds_iff {table : UniformTable} (h : table.Sound) :
    (∀ u ∈ table, u.IsUniform ∨ u.IsMember) ↔ table.KeepsMembers := by
  constructor
  · intro hkinds u hu hblock
    rcases hkinds u hu with huniform | hmember
    · rw [huniform.block_eq] at hblock
      cases hblock
    · exact hmember.registers_eq
  · intro hkeeps u hu
    rcases h.kind u hu with huniform | hlaid
    · exact .inl huniform
    · exact .inr ⟨hlaid, hkeeps u hu hlaid.block_isSome⟩

theorem modify_of_get? {table : UniformTable} {name : String} {entry : UniformEntry}
    (h : table.get? name = some entry) (f : UniformEntry → UniformEntry) :
    ∃ before after, table = before ++ entry :: after ∧
      table.modify (table.findIdx (fun u => u.name = name)) f = before ++ f entry :: after := by
  induction table with
  | nil => cases h
  | cons u table ih =>
    rw [get?_cons] at h
    rw [List.findIdx_cons]
    by_cases hu : u.name = name
    · rw [if_pos hu] at h
      cases h
      exact ⟨[], table, rfl, by simp [hu]⟩
    · rw [if_neg hu] at h
      obtain ⟨before, after, rfl, hmodify⟩ := ih h
      refine ⟨u :: before, after, rfl, ?_⟩
      simp only [hu, decide_false, cond_false, List.modify_succ_cons, hmodify]
      rfl

theorem note_eq_ok {table table' : UniformTable} {stage : Stage} {register : UInt32}
    {leaf : UniformEntry} (h : table.note stage register leaf = .ok table') :
    table.get? leaf.name = none ∧ table' = table ++ [leaf.setRegister stage register] ∨
      ∃ before entry after, table = before ++ entry :: after ∧
        table.get? leaf.name = some entry ∧
        table' = before ++ entry.setRegister stage register :: after := by
  unfold note at h
  split at h
  case h_1 hnone =>
    cases h
    exact .inl ⟨hnone, rfl⟩
  case h_2 entry hsome =>
    split at h
    case isTrue =>
      cases h
      obtain ⟨before, after, htable, hmodify⟩ := modify_of_get? hsome (·.setRegister stage register)
      exact .inr ⟨before, entry, after, htable, hsome, hmodify⟩
    case isFalse => cases h

section Note

variable {table table' : UniformTable} {stage : Stage} {span : LeafSpan}

theorem Sound.note (h : table.Sound)
    (hnote : table.note stage span.register span.entry = .ok table') : table'.Sound := by
  rcases note_eq_ok hnote with ⟨hnone, rfl⟩ | ⟨before, entry, after, rfl, -, rfl⟩
  · refine ⟨?_, List.pairwise_append.mpr ⟨h.first, List.pairwise_singleton .., ?_⟩⟩
    · intro u hu
      rcases List.mem_append.mp hu with hu | hu
      · exact h.kind u hu
      · rw [List.mem_singleton.mp hu]
        exact .inl (span.isUniform_linked stage)
    · intro a ha b hb _ hname
      rw [List.mem_singleton.mp hb] at hname
      have hother := List.find?_eq_none.mp hnone a ha
      exact hother (decide_eq_true hname)
  · have hkind (u : UniformEntry)
        (hu : u ∈ before ++ entry.setRegister stage span.register :: after) :
        u.IsUniform ∨ u.IsLaidOut := by
      rcases List.mem_append.mp hu with hu | hu
      · exact h.kind u (List.mem_append_left _ hu)
      rcases List.mem_cons.mp hu with rfl | hu
      · have hentry := h.kind entry (List.mem_append_right _ List.mem_cons_self)
        exact hentry.imp UniformEntry.IsUniform.setRegister UniformEntry.IsLaidOut.setRegister
      · exact h.kind u (List.mem_append_right _ (List.mem_cons_of_mem _ hu))
    refine ⟨hkind, ?_⟩
    -- Names and blocks are what they were.
    have hfirst := h.first
    rw [List.pairwise_append, List.pairwise_cons] at hfirst ⊢
    obtain ⟨hbefore, ⟨hentry, hafter⟩, hacross⟩ := hfirst
    refine ⟨hbefore, ⟨hentry, hafter⟩, ?_⟩
    intro a ha b hb
    rcases List.mem_cons.mp hb with rfl | hb
    · exact hacross a ha entry List.mem_cons_self
    · exact hacross a ha b (List.mem_cons_of_mem _ hb)

theorem captures_note (h : table.note stage span.register span.entry = .ok table') (name : String) :
    table'.captures name = table.captures name := by
  unfold captures
  rw [get?_note h]
  split
  case isTrue hname =>
    cases table.get? name with
    | none => rfl
    | some u => rfl
  case isFalse => rfl

theorem keepsMembers_note (h : table.note stage span.register span.entry = .ok table') :
    table'.KeepsMembers ↔ table.KeepsMembers ∧ table.captures span.name = false := by
  unfold captures KeepsMembers
  change _ ↔ _ ∧ (table.get? span.entry.name).any _ = false
  rcases note_eq_ok h with ⟨hnone, rfl⟩ | ⟨before, entry, after, rfl, hsome, rfl⟩
  · rw [hnone]
    simp only [List.forall_mem_append, List.forall_mem_singleton]
    constructor
    · intro hkeeps
      exact ⟨hkeeps.1, rfl⟩
    · rintro ⟨hkeeps, -⟩
      refine ⟨hkeeps, ?_⟩
      intro hblock
      cases hblock
  · rw [hsome, Option.any_some]
    simp only [List.forall_mem_append, List.forall_mem_cons]
    -- The other entries are as they were, and the one that gets the register must not be a member.
    have hentry : ((entry.setRegister stage span.register).block.isSome = true →
        (entry.setRegister stage span.register).registers = .both none) ↔
          entry.block.isSome = false := by
      constructor
      · intro hset
        apply Bool.eq_false_iff.mpr
        intro hblock
        exact UniformEntry.registers_setRegister_ne (hset hblock)
      · intro hblock hset
        exact absurd hset (Bool.eq_false_iff.mp hblock)
    rw [hentry]
    constructor
    · rintro ⟨hbefore, hblock, hafter⟩
      refine ⟨⟨hbefore, ?_, hafter⟩, hblock⟩
      intro hmember
      rw [hblock] at hmember
      cases hmember
    · rintro ⟨⟨hbefore, -, hafter⟩, hblock⟩
      exact ⟨hbefore, hblock, hafter⟩

theorem exists_get?_note (h : table.note stage span.register span.entry = .ok table') {name : String}
    (hname : name = span.name ∨ ∃ u, table.get? name = some u ∧ (u.registers.get stage).isSome = true) :
    ∃ u, table'.get? name = some u ∧ (u.registers.get stage).isSome = true := by
  rw [get?_note h]
  by_cases hn : name = span.entry.name
  · rw [if_pos hn]
    refine ⟨_, rfl, ?_⟩
    rw [UniformEntry.registers_setRegister, PerStage.get_set]
    rfl
  · rw [if_neg hn]
    exact hname.resolve_left hn

end Note

section NoteSpans

variable {table table' : UniformTable} {stage : Stage} {spans : List LeafSpan}

theorem Sound.noteSpans (h : table.Sound) (hnotes : table.noteSpans stage spans = .ok table') :
    table'.Sound := by
  induction spans generalizing table with
  | nil =>
    cases hnotes
    exact h
  | cons span spans ih =>
    obtain ⟨next, hnote, hrest⟩ := bind_eq_ok.mp hnotes
    exact ih (h.note hnote) hrest

theorem captures_noteSpans (h : table.noteSpans stage spans = .ok table') (name : String) :
    table'.captures name = table.captures name := by
  induction spans generalizing table with
  | nil =>
    cases h
    rfl
  | cons span spans ih =>
    obtain ⟨next, hnote, hrest⟩ := bind_eq_ok.mp h
    exact (ih hrest).trans (captures_note hnote name)

theorem keepsMembers_noteSpans (h : table.noteSpans stage spans = .ok table') :
    table'.KeepsMembers ↔
      table.KeepsMembers ∧ ∀ span ∈ spans, table.captures span.name = false := by
  induction spans generalizing table with
  | nil =>
    cases h
    simp
  | cons span spans ih =>
    obtain ⟨next, hnote, hrest⟩ := bind_eq_ok.mp h
    rw [ih hrest, keepsMembers_note hnote, List.forall_mem_cons, and_assoc]
    simp only [captures_note hnote]

theorem exists_get?_noteSpans (h : table.noteSpans stage spans = .ok table') {name : String}
    (hname : name ∈ spans.map LeafSpan.name ∨
      ∃ u, table.get? name = some u ∧ (u.registers.get stage).isSome = true) :
    ∃ u, table'.get? name = some u ∧ (u.registers.get stage).isSome = true := by
  induction spans generalizing table with
  | nil =>
    cases h
    exact hname.resolve_left List.not_mem_nil
  | cons span spans ih =>
    obtain ⟨next, hnote, hrest⟩ := bind_eq_ok.mp h
    apply ih hrest
    rw [List.map_cons, List.mem_cons, or_assoc] at hname
    rcases hname with hfirst | hlater | hfound
    · exact .inr (exists_get?_note hnote (.inl hfirst))
    · exact .inl hlater
    · exact .inr (exists_get?_note hnote (.inr hfound))

/-- A leaf that was noted has an entry of its own unless its name captures a member. -/
theorem Sound.noted_iff (hsound : table.Sound) (h : table.noteSpans stage spans = .ok table')
    {name : String} (hname : name ∈ spans.map LeafSpan.name) :
    (∃ u ∈ table', u.name = name ∧ u.IsUniform ∧ (u.registers.get stage).isSome = true) ↔
      table.captures name = false := by
  obtain ⟨found, hfound, hregister⟩ := exists_get?_noteSpans h (.inl hname)
  have hcaptures : table.captures name = found.block.isSome := by
    rw [← captures_noteSpans h, captures, hfound]
    rfl
  obtain ⟨hfoundName, before, after, rfl, hbefore⟩ := List.find?_eq_some_iff_append.mp hfound
  have hsound' := hsound.noteSpans h
  have hfoundName := of_decide_eq_true hfoundName
  rw [hcaptures]
  constructor
  · rintro ⟨u, hu, hname, huniform, -⟩
    -- A leaf of a uniform is what is found under its name, as nothing else of the name precedes it.
    rcases List.mem_append.mp hu with hu | hu
    · have hother := hbefore u hu
      simp [hname] at hother
    rcases List.mem_cons.mp hu with rfl | hu
    · rw [huniform.block_eq]
      rfl
    · have hfirst := (List.pairwise_append.mp hsound'.first).2.1
      exact absurd (hfoundName.trans hname.symm)
        ((List.pairwise_cons.mp hfirst).1 u hu huniform.block_eq)
  · intro hblock
    have hmem : found ∈ before ++ found :: after := List.mem_append_right _ List.mem_cons_self
    refine ⟨found, hmem, hfoundName, ?_, hregister⟩
    rcases hsound'.kind found hmem with huniform | hlaid
    · exact huniform
    · rw [hlaid.block_isSome] at hblock
      cases hblock

theorem linkUniform_noteSpans {output : Output} {v : Variable} {register : UInt32}
    {linked : Logged UniformTable} (h : table.linkUniform stage output v register = .ok linked) :
    ∃ spans, table.noteSpans stage spans = .ok linked.value ∧
      spans.map LeafSpan.name = v.leaves.map Leaf.uniformName := by
  obtain ⟨spans, hspans, hnotes⟩ := linkUniform_eq_ok h
  obtain ⟨packing, hp, -⟩ := bind_eq_ok.mp h
  refine ⟨spans, hnotes, ?_⟩
  rw [Variable.spansFrom_eq_ok hp hspans, Variable.map_name_spansAt]

theorem linkStage_noteSpans {uniforms : List Variable} {allocator allocator' : Allocator}
    {events : List Event}
    (h : linkStage stage uniforms table allocator = .ok ⟨(table', allocator'), events⟩) :
    ∃ spans, table.noteSpans stage spans = .ok table' ∧
      spans.map LeafSpan.name = leafNames (usedUniforms uniforms) := by
  induction uniforms generalizing table allocator events with
  | nil =>
    cases h
    exact ⟨[], rfl, rfl⟩
  | cons v vs ih =>
    by_cases hv : v.decl.staticUse = true
    · obtain ⟨assigned, linked, rest, -, hlink, hrest⟩ := linkStage_cons_eq_ok hv h
      obtain ⟨first, hfirst, hfirstNames⟩ := linkUniform_noteSpans hlink
      obtain ⟨later, hlater, hlaterNames⟩ := ih hrest
      refine ⟨first ++ later, ?_, ?_⟩
      · rw [noteSpans_append, hfirst]
        exact hlater
      · rw [List.map_append, hfirstNames, hlaterNames, usedUniforms_cons vs hv]
        rfl
    · rw [linkStage, if_neg hv] at h
      obtain ⟨spans, hspans, hnames⟩ := ih h
      refine ⟨spans, hspans, ?_⟩
      rw [hnames, usedUniforms_cons_of_unused vs hv]

end NoteSpans

theorem Sound.append_members {table members : UniformTable} (h : table.Sound)
    (hmembers : ∀ u ∈ members, u.IsMember) : UniformTable.Sound (table ++ members) := by
  have hloose {u : UniformEntry} (hu : u ∈ members) : u.block ≠ none :=
    Option.isSome_iff_ne_none.mp (hmembers u hu).block_isSome
  refine ⟨?_, List.pairwise_append.mpr ⟨h.first, ?_, ?_⟩⟩
  · intro u hu
    rcases List.mem_append.mp hu with hu | hu
    · exact h.kind u hu
    · exact .inr (hmembers u hu).toIsLaidOut
  · apply List.pairwise_iff_forall_sublist.mpr
    intro a b hsub hblock
    have hb : b ∈ members := hsub.subset (List.mem_cons_of_mem _ List.mem_cons_self)
    exact absurd hblock (hloose hb)
  · intro a _ b hb hblock
    exact absurd hblock (hloose hb)

theorem keepsMembers_append_members {table members : UniformTable}
    (hmembers : ∀ u ∈ members, u.IsMember) :
    KeepsMembers (table ++ members) ↔ table.KeepsMembers := by
  unfold KeepsMembers
  rw [List.forall_mem_append]
  exact ⟨And.left, fun h => ⟨h, fun u hu _ => (hmembers u hu).registers_eq⟩⟩

end UniformTable

/-- What a program is asked to link, with the allocator where registers are not given. -/
inductive Request where
  | uniform (stage : Stage) (output : Output) (v : Variable) (register : UInt32)
  | stageUniforms (stage : Stage) (uniforms : List Variable) (allocator : Allocator)
  | block (block : BlockDeclaration)
  | stageBlocks (stage : Stage) (limits : Limits) (blocks : List BlockDeclaration)
      (allocator : Allocator)

def Request.notes : Request → List (Stage × String)
  | .uniform stage _ v _ => (v.leaves.map Leaf.uniformName).map (stage, ·)
  | .stageUniforms stage uniforms _ => (leafNames (usedUniforms uniforms)).map (stage, ·)
  | .block _ => []
  | .stageBlocks .. => []

namespace Program

/-- The program after a request. Blocks that were linked before an error stay. -/
def serve (program : Program) : Request → Except Fault Program
  | .uniform stage output v register => do
    let linked ← program.uniforms.linkUniform stage output v register
    return { program with uniforms := linked.value }
  | .stageUniforms stage uniforms allocator => do
    let linked ← UniformTable.linkStage stage uniforms program.uniforms allocator
    return { program with uniforms := linked.value.1 }
  | .block block => do
    let linked ← program.linkBlock block
    return linked.value.1
  | .stageBlocks stage limits blocks allocator => do
    let linked ← linkStage stage limits blocks program allocator
    return linked.value.program

/-- A request takes a member of a block for a leaf of a uniform. -/
def captures (program : Program) (r : Request) : Bool :=
  r.notes.any fun note => program.uniforms.captures note.2

/-- A block whose name is there changes nothing, and another one is added as it is laid out. -/
theorem linkBlock_cases {program : Program} {block : BlockDeclaration}
    {linked : Logged (Program × Nat)} (h : program.linkBlock block = .ok linked) :
    (program.blocks.index? block.decl.name).isSome = true ∧ linked.value.1 = program ∨
    program.blocks.index? block.decl.name = none ∧ ∃ members finish,
      block.layout.rule.layoutMembers "" block.decl.rowMajor block.fields 0 = .ok (members, finish) ∧
      linked.value.1 = program.addBlock block members finish := by
  unfold linkBlock at h
  split at h
  case h_1 index hindex =>
    cases h
    exact .inl ⟨by rw [hindex]; rfl, rfl⟩
  case h_2 hnone =>
    obtain ⟨⟨members, finish⟩, hlayout, h⟩ := bind_eq_ok.mp h
    cases h
    exact .inr ⟨hnone, members, finish, hlayout, rfl⟩

theorem linkBlock_uniforms {program : Program} {block : BlockDeclaration}
    {linked : Logged (Program × Nat)} (h : program.linkBlock block = .ok linked) :
    ∃ members, linked.value.1.uniforms = program.uniforms ++ members ∧
      ∀ u ∈ members, u.IsMember := by
  obtain ⟨-, hsame⟩ | ⟨-, members, finish, -, hadd⟩ := linkBlock_cases h
  · rw [hsame]
    exact ⟨[], (List.append_nil _).symm, fun _ hu => absurd hu List.not_mem_nil⟩
  · rw [hadd]
    refine ⟨_, rfl, ?_⟩
    intro u hu
    obtain ⟨member, -, rfl⟩ := List.mem_map.mp hu
    exact member.isMember_entry _

theorem uniforms_bindIfUsed (program : Program) (stage : Stage) (limits : Limits)
    (block : BlockDeclaration) (allocator : Allocator) :
    (program.bindIfUsed stage limits block allocator).value.program.uniforms =
      program.uniforms := by
  unfold bindIfUsed
  split <;> rfl

theorem linkStage_uniforms {stage : Stage} {limits : Limits} {blocks : List BlockDeclaration}
    {program : Program} {allocator : Allocator} {linked : Logged StageLink}
    (h : linkStage stage limits blocks program allocator = .ok linked) :
    ∃ members, linked.value.program.uniforms = program.uniforms ++ members ∧
      ∀ u ∈ members, u.IsMember := by
  induction blocks generalizing program allocator linked with
  | nil =>
    cases h
    exact ⟨[], (List.append_nil _).symm, fun _ hu => absurd hu List.not_mem_nil⟩
  | cons block blocks ih =>
    obtain ⟨added, hadded, h⟩ := bind_eq_ok.mp h
    obtain ⟨first, hfirst, hfirstMembers⟩ := linkBlock_uniforms hadded
    have hbound := added.value.1.uniforms_bindIfUsed stage limits block allocator
    rw [hfirst] at hbound
    dsimp only at h
    split at h
    case h_1 =>
      cases h
      exact ⟨first, hbound, hfirstMembers⟩
    case h_2 =>
      obtain ⟨rest, hrest, h⟩ := bind_eq_ok.mp h
      cases h
      obtain ⟨later, hlater, hlaterMembers⟩ := ih hrest
      rw [hbound, List.append_assoc] at hlater
      exact ⟨first ++ later, hlater, List.forall_mem_append.mpr ⟨hfirstMembers, hlaterMembers⟩⟩

theorem serve_uniforms {program program' : Program} {r : Request}
    (h : program.serve r = .ok program') :
    (∃ stage spans, program.uniforms.noteSpans stage spans = .ok program'.uniforms ∧
      r.notes = (spans.map LeafSpan.name).map (stage, ·)) ∨
    ∃ members, program'.uniforms = program.uniforms ++ members ∧
      (∀ u ∈ members, u.IsMember) ∧ r.notes = [] := by
  cases r with
  | uniform stage output v register =>
    obtain ⟨linked, hlink, h⟩ := bind_eq_ok.mp h
    cases h
    obtain ⟨spans, hspans, hnames⟩ := UniformTable.linkUniform_noteSpans hlink
    exact .inl ⟨stage, spans, hspans, by rw [hnames]; rfl⟩
  | stageUniforms stage uniforms allocator =>
    obtain ⟨⟨⟨table, later⟩, events⟩, hlink, h⟩ := bind_eq_ok.mp h
    cases h
    obtain ⟨spans, hspans, hnames⟩ := UniformTable.linkStage_noteSpans hlink
    exact .inl ⟨stage, spans, hspans, by rw [hnames]; rfl⟩
  | block block =>
    obtain ⟨linked, hlink, h⟩ := bind_eq_ok.mp h
    cases h
    obtain ⟨members, huniforms, hmembers⟩ := linkBlock_uniforms hlink
    exact .inr ⟨members, huniforms, hmembers, rfl⟩
  | stageBlocks stage limits blocks allocator =>
    obtain ⟨linked, hlink, h⟩ := bind_eq_ok.mp h
    cases h
    obtain ⟨members, huniforms, hmembers⟩ := linkStage_uniforms hlink
    exact .inr ⟨members, huniforms, hmembers, rfl⟩

theorem captures_eq_false {program : Program} {r : Request} {stage : Stage} {spans : List LeafSpan}
    (h : r.notes = (spans.map LeafSpan.name).map (stage, ·)) :
    program.captures r = false ↔ ∀ span ∈ spans, program.uniforms.captures span.name = false := by
  rw [captures, h, List.any_eq_false]
  simp

theorem sound_serve {program program' : Program} {r : Request} (hsound : program.uniforms.Sound)
    (h : program.serve r = .ok program') : program'.uniforms.Sound := by
  rcases serve_uniforms h with ⟨stage, spans, hnotes, -⟩ | ⟨members, huniforms, hmembers, -⟩
  · exact hsound.noteSpans hnotes
  · rw [huniforms]
    exact hsound.append_members hmembers

theorem keepsMembers_serve {program program' : Program} {r : Request}
    (h : program.serve r = .ok program') :
    program'.uniforms.KeepsMembers ↔ program.uniforms.KeepsMembers ∧ program.captures r = false := by
  rcases serve_uniforms h with ⟨stage, spans, hnotes, hnames⟩ | ⟨members, huniforms, hmembers, hnone⟩
  · rw [UniformTable.keepsMembers_noteSpans hnotes, captures_eq_false hnames]
  · rw [huniforms, UniformTable.keepsMembers_append_members hmembers, captures, hnone]
    simp

theorem sound_foldlM_serve {requests : List Request} {program program' : Program}
    (hsound : program.uniforms.Sound) (h : requests.foldlM serve program = .ok program') :
    program'.uniforms.Sound := by
  induction requests generalizing program with
  | nil =>
    cases h
    exact hsound
  | cons r requests ih =>
    rw [List.foldlM_cons] at h
    obtain ⟨next, hserve, hrest⟩ := bind_eq_ok.mp h
    exact ih (sound_serve hsound hserve) hrest

/-- Over a run, members of blocks get registers from those requests only that take them for leaves. -/
theorem keepsMembers_foldlM_serve {requests : List Request} {program program' : Program}
    (h : requests.foldlM serve program = .ok program') :
    program'.uniforms.KeepsMembers ↔ program.uniforms.KeepsMembers ∧
      ∀ before r after earlier, requests = before ++ r :: after →
        before.foldlM serve program = .ok earlier → earlier.captures r = false := by
  induction requests generalizing program with
  | nil =>
    cases h
    simp
  | cons r requests ih =>
    rw [List.foldlM_cons] at h
    obtain ⟨next, hserve, hrest⟩ := bind_eq_ok.mp h
    rw [ih hrest, keepsMembers_serve hserve, and_assoc]
    refine and_congr_right fun _ => ?_
    constructor
    · rintro ⟨hfirst, hlater⟩ before r' after earlier hsplit hrun
      -- Either the run is split before its first request, or in what `ih` speaks of.
      rcases List.cons_eq_append_iff.mp hsplit with ⟨rfl, hcons⟩ | ⟨rest, rfl, rfl⟩
      · cases hcons
        cases hrun
        exact hfirst
      · rw [List.foldlM_cons, hserve] at hrun
        exact hlater rest r' after earlier rfl hrun
    · intro hall
      refine ⟨hall [] r requests program rfl rfl, ?_⟩
      rintro before r' after earlier rfl hrun
      refine hall (r :: before) r' after earlier rfl ?_
      rw [List.foldlM_cons, hserve]
      exact hrun

/-- Over any run from an empty program, entries are leaves of uniforms or members of blocks
throughout exactly if no request took a member for a leaf. -/
theorem serve_kinds_iff {requests : List Request} {program : Program}
    (h : requests.foldlM serve .empty = .ok program) :
    (∀ u ∈ program.uniforms, u.IsUniform ∨ u.IsLaidOut) ∧
    ((∀ u ∈ program.uniforms, u.IsUniform ∨ u.IsMember) ↔
      ∀ before r after earlier, requests = before ++ r :: after →
        before.foldlM serve .empty = .ok earlier → earlier.captures r = false) ∧
    ∀ r later, program.serve r = .ok later → ∀ stage name, (stage, name) ∈ r.notes →
      ((∃ u ∈ later.uniforms, u.name = name ∧ u.IsUniform ∧
          (u.registers.get stage).isSome = true) ↔
        program.uniforms.captures name = false) := by
  have hempty : UniformTable.Sound [] := ⟨fun _ hu => absurd hu List.not_mem_nil, .nil⟩
  have hsound := sound_foldlM_serve (show Program.empty.uniforms.Sound from hempty) h
  refine ⟨hsound.kind, ?_, ?_⟩
  · rw [hsound.kinds_iff, keepsMembers_foldlM_serve h]
    exact and_iff_right fun _ hu => absurd hu List.not_mem_nil
  · intro r later hserve stage name hnote
    rcases serve_uniforms hserve with ⟨stage', spans, hnotes, hnames⟩ | ⟨_, -, -, hnone⟩
    · rw [hnames] at hnote
      obtain ⟨name', hmem, hpair⟩ := List.mem_map.mp hnote
      cases hpair
      exact hsound.noted_iff hnotes hmem
    · rw [hnone] at hnote
      exact absurd hnote List.not_mem_nil

def materialBlock : BlockDeclaration where
  decl := ⟨"Material", 0, false, true⟩
  layout := .shared
  fields := [.basic ⟨"color", 0, false, true⟩ (.vector .float .four)]

def sceneRequests : List Request :=
  [.block materialBlock,
    .uniform .vertex .hlsl11 UniformTable.lightUniform 2,
    .stageUniforms .fragment [UniformTable.lightUniform] (.start .hlsl11 .fragment),
    .stageBlocks .vertex .d3d11
      [⟨⟨"Frame", 0, false, true⟩, .standard,
        [.basic ⟨"time", 0, false, true⟩ (.vector .float .one)]⟩] (.start .hlsl11 .vertex)]

theorem serve_kinds_sceneRequests :
    ∃ program, sceneRequests.foldlM serve .empty = .ok program ∧
      (∀ u ∈ program.uniforms, u.IsUniform ∨ u.IsLaidOut) ∧
      ((∀ u ∈ program.uniforms, u.IsUniform ∨ u.IsMember) ↔
        ∀ before r after earlier, sceneRequests = before ++ r :: after →
          before.foldlM serve .empty = .ok earlier → earlier.captures r = false) ∧
      ∀ r later, program.serve r = .ok later → ∀ stage name, (stage, name) ∈ r.notes →
        ((∃ u ∈ later.uniforms, u.name = name ∧ u.IsUniform ∧
            (u.registers.get stage).isSome = true) ↔
          program.uniforms.captures name = false) := by
  obtain ⟨program, h⟩ := exists_eq_ok
    (show (sceneRequests.foldlM serve .empty).isOk = true by decide +kernel)
  exact ⟨program, h, serve_kinds_iff h⟩

/-- A uniform after a block with a member of its name gets no entry: the member gets its register. -/
theorem serve_color_after_materialBlock :
    ∃ program later, serve .empty (.block materialBlock) = .ok program ∧
      program.serve (.uniform .vertex .hlsl11 (.basic ⟨"color", 0, false, true⟩ (.vector .float .four)) 0)
        = .ok later ∧
      later.uniforms.map (fun u => (u.name, u.block, u.registers)) =
        [("color", some 0, ⟨some 0, none⟩)] :=
  ⟨_, _, rfl, rfl, by decide +kernel⟩

end Program

end ShaderInterface
