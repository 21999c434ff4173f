import ShaderInterface.Proofs.EntryKinds

namespace ShaderInterface

/-- A request, or slots for a block that are given and not allocated. -/
inductive Call where
  | request (r : Request)
  | bind (stage : Stage) (name : String) (register : UInt32) (count : Nat) (limits : Limits)

/-- The program after a call. What was done before an error stays. -/
def Program.perform (program : Program) : Call → Except Fault Program
  | .request r => program.serve r
  | .bind stage name register count limits =>
    return { program with
      blocks := (program.blocks.bind stage name register count (limits.get stage)).1 }

def BlockEntry.unbound (b : BlockEntry) : BlockEntry := { b with registers := .both none }

@[simp] theorem BlockEntry.unbound_setRegister (b : BlockEntry) (stage : Stage) (slot : UInt32) :
    (b.setRegister stage slot).unbound = b.unbound := rfl

def UniformTable.owners (table : UniformTable) : List (Option UInt32) :=
  table.map UniformEntry.block

@[simp] theorem UniformTable.length_owners (table : UniformTable) :
    table.owners.length = table.length := by
  simp [owners]

namespace BlockTable

theorem map_unbound_bindRun (stage : Stage) (name : String) (register : UInt32) (limits : StageLimits)
    (count element : Nat) (table : BlockTable) :
    (bindRun stage name register limits count element table).1.map BlockEntry.unbound =
      table.map BlockEntry.unbound := by
  induction count generalizing element table with
  | zero => rfl
  | succ count ih =>
    cases table with
    | nil => rfl
    | cons b table =>
      rw [bindRun]
      split
      · dsimp only
        split <;> simp [ih]
      · rfl

theorem map_unbound_bind (table : BlockTable) (stage : Stage) (name : String) (register : UInt32)
    (count : Nat) (limits : StageLimits) :
    (table.bind stage name register count limits).1.map BlockEntry.unbound =
      table.map BlockEntry.unbound := by
  have hsplit := List.takeWhile_append_dropWhile (p := fun b => decide (b.name ≠ name)) (l := table)
  unfold bind
  split
  · rfl
  · rw [List.map_append, map_unbound_bindRun, ← List.map_append, hsplit]

theorem index?_eq_none {table : BlockTable} {name : String} (h : table.index? name = none) :
    ∀ b ∈ table, b.name ≠ name := by
  intro b hb hname
  have hother := List.findIdx?_eq_none_iff.mp h b hb
  simp [hname] at hother

end BlockTable

theorem BlockDeclaration.map_unbound_entries (block : BlockDeclaration) (size : Nat)
    (members : List Nat) :
    (block.entries size members).map BlockEntry.unbound = block.entries size members := by
  unfold entries
  dsimp only
  split
  · rw [List.map_map]
    rfl
  · rfl

/-- How blocks and the owners of uniforms come about: a leaf has no owner, and a new block owns its
members. -/
inductive Assembled : List (Option UInt32) → BlockTable → Prop where
  | empty : Assembled [] []
  | leaves {owners : List (Option UInt32)} {table : BlockTable} (count : Nat)
      (h : Assembled owners table) : Assembled (owners ++ List.replicate count none) table
  | block {owners : List (Option UInt32)} {table : BlockTable} (block : BlockDeclaration)
      (size count : Nat) (h : Assembled owners table)
      (hnew : ∀ b ∈ table, b.name ≠ block.decl.name) :
      Assembled (owners ++ List.replicate count (some (clampWord table.length)))
        (table ++ block.entries size (List.range' owners.length count))

namespace UniformTable

theorem owners_noteSpans {table table' : UniformTable} {stage : Stage} {spans : List LeafSpan}
    (h : table.noteSpans stage spans = .ok table') :
    ∃ count, table'.owners = table.owners ++ List.replicate count none := by
  induction spans generalizing table with
  | nil =>
    cases h
    exact ⟨0, by simp⟩
  | cons span spans ih =>
    obtain ⟨next, hnote, hrest⟩ := bind_eq_ok.mp h
    obtain ⟨count, hcount⟩ := ih hrest
    rcases note_eq_ok hnote with ⟨-, rfl⟩ | ⟨before, entry, after, rfl, -, rfl⟩
    · refine ⟨count + 1, ?_⟩
      rw [hcount, List.replicate_succ, owners, List.map_append, List.append_assoc]
      rfl
    · refine ⟨count, ?_⟩
      rw [hcount]
      simp only [owners, List.map_append, List.map_cons]
      rfl

theorem owners_addMembers (table : UniformTable) (block : UInt32) (members : List Member) :
    (table.addMembers block members).owners =
      table.owners ++ List.replicate members.length (some block) := by
  have hmembers : (members.map (Member.entry block)).map UniformEntry.block =
      List.replicate members.length (some block) := by
    rw [List.map_map, ← List.map_const']
    rfl
  rw [owners, addMembers, List.map_append, hmembers]
  rfl

end UniformTable

namespace Program

def IsAssembled (program : Program) : Prop :=
  Assembled program.uniforms.owners (program.blocks.map BlockEntry.unbound)

theorem isAssembled_noteSpans {program : Program} {stage : Stage} {spans : List LeafSpan}
    {uniforms : UniformTable} (h : program.IsAssembled)
    (hnotes : program.uniforms.noteSpans stage spans = .ok uniforms) :
    IsAssembled { program with uniforms := uniforms } := by
  obtain ⟨count, hcount⟩ := UniformTable.owners_noteSpans hnotes
  unfold IsAssembled
  rw [hcount]
  exact h.leaves count

theorem isAssembled_bind {program : Program} (h : program.IsAssembled) (stage : Stage) (name : String)
    (register : UInt32) (count : Nat) (limits : StageLimits) :
    IsAssembled { program with
      blocks := (program.blocks.bind stage name register count limits).1 } := by
  unfold IsAssembled
  rw [BlockTable.map_unbound_bind]
  exact h

theorem isAssembled_linkBlock {program : Program} {block : BlockDeclaration}
    {linked : Logged (Program × Nat)} (h : program.IsAssembled)
    (hlink : program.linkBlock block = .ok linked) : linked.value.1.IsAssembled := by
  obtain ⟨-, hsame⟩ | ⟨hnone, members, finish, -, hadd⟩ := linkBlock_cases hlink
  · rwa [hsame]
  · rw [hadd]
    have hnew : ∀ b ∈ program.blocks.map BlockEntry.unbound, b.name ≠ block.decl.name := by
      intro b hb
      obtain ⟨entry, hentry, rfl⟩ := List.mem_map.mp hb
      exact BlockTable.index?_eq_none hnone entry hentry
    have hstep := h.block block (Position.bytes finish) members.length hnew
    rw [List.length_map, UniformTable.length_owners] at hstep
    unfold IsAssembled addBlock
    rw [UniformTable.owners_addMembers, List.map_append, BlockDeclaration.map_unbound_entries]
    exact hstep

theorem isAssembled_linkStage {stage : Stage} {limits : Limits} {blocks : List BlockDeclaration}
    {program : Program} {allocator : Allocator} {linked : Logged StageLink} (h : program.IsAssembled)
    (hlink : linkStage stage limits blocks program allocator = .ok linked) :
    linked.value.program.IsAssembled := by
  induction blocks generalizing program allocator linked with
  | nil =>
    cases hlink
    exact h
  | cons block blocks ih =>
    obtain ⟨added, hadded, hlink⟩ := bind_eq_ok.mp hlink
    have hbound :
        (added.value.1.bindIfUsed stage limits block allocator).value.program.IsAssembled := by
      have hblock := isAssembled_linkBlock h hadded
      unfold bindIfUsed
      split
      · exact isAssembled_bind hblock stage block.decl.name _ _ _
      · exact hblock
    dsimp only at hlink
    split at hlink
    case h_1 =>
      cases hlink
      exact hbound
    case h_2 =>
      obtain ⟨rest, hrest, hlink⟩ := bind_eq_ok.mp hlink
      cases hlink
      exact @ih _ _ rest hbound hrest

theorem isAssembled_perform {program program' : Program} {call : Call} (h : program.IsAssembled)
    (hcall : program.perform call = .ok program') : program'.IsAssembled := by
  rcases call with r | ⟨stage, name, register, count, limits⟩
  · cases r with
    | uniform stage output v register =>
      obtain ⟨linked, hlink, hcall⟩ := bind_eq_ok.mp hcall
      cases hcall
      obtain ⟨spans, hnotes, -⟩ := UniformTable.linkUniform_noteSpans hlink
      exact isAssembled_noteSpans h hnotes
    | stageUniforms stage uniforms allocator =>
      obtain ⟨⟨⟨table, later⟩, events⟩, hlink, hcall⟩ := bind_eq_ok.mp hcall
      cases hcall
      obtain ⟨spans, hnotes, -⟩ := UniformTable.linkStage_noteSpans hlink
      exact isAssembled_noteSpans h hnotes
    | block block =>
      obtain ⟨linked, hlink, hcall⟩ := bind_eq_ok.mp hcall
      cases hcall
      exact isAssembled_linkBlock h hlink
    | stageBlocks stage limits blocks allocator =>
      obtain ⟨linked, hlink, hcall⟩ := bind_eq_ok.mp hcall
      cases hcall
      exact isAssembled_linkStage h hlink
  · cases hcall
    exact isAssembled_bind h stage name register count _

theorem isAssembled_foldlM_perform {calls : List Call} {program program' : Program}
    (h : program.IsAssembled) (hcalls : calls.foldlM perform program = .ok program') :
    program'.IsAssembled := by
  induction calls generalizing program with
  | nil =>
    cases hcalls
    exact h
  | cons call calls ih =>
    rw [List.foldlM_cons] at hcalls
    obtain ⟨next, hcall, hrest⟩ := bind_eq_ok.mp hcalls
    exact ih (isAssembled_perform h hcall) hrest

end Program

namespace BlockTable

/-- All entries of a name, standing together from an index on: a single block, or the elements of an
array in order. They have one size and one list of members. -/
structure IsRun (table : BlockTable) (name : String) (first : Nat) (run : BlockTable) : Prop where
  ne_nil : run ≠ []
  stands : ∃ before after, table = before ++ run ++ after ∧ before.length = first ∧
    ∀ b ∈ before ++ after, b.name ≠ name
  name_eq : ∀ b ∈ run, b.name = name
  element_eq : run.map BlockEntry.element = [none] ∨
    run.length ≤ maxWord ∧ run.map BlockEntry.element =
      (List.range run.length).map fun index => some (UInt32.ofNat index)
  alike : ∀ b ∈ run, ∀ c ∈ run, b.size = c.size ∧ b.members = c.members

/-- Blocks and uniforms agree on who is a member of what: the members of a block are uniforms in a
row that it owns, and what a block owns is a member of it once, and of no other block. -/
structure Agrees (table : BlockTable) (owners : List (Option UInt32)) : Prop where
  members : ∀ b ∈ table, ∃ first run, table.IsRun b.name first run ∧
    ∃ start count, b.members = List.range' start count ∧
      ∀ i ∈ b.members, owners[i]? = some (some (clampWord first))
  owned : ∀ i owner, owners[i]? = some (some owner) →
    ∃ name first run, table.IsRun name first run ∧ owner = clampWord first ∧
      ∀ b ∈ table, b.members.count i = if b.name = name then 1 else 0

variable {table : BlockTable} {owners : List (Option UInt32)}

theorem IsRun.subset {name : String} {first : Nat} {run : BlockTable}
    (h : table.IsRun name first run) : ∀ b ∈ run, b ∈ table := by
  obtain ⟨before, after, rfl, -, -⟩ := h.stands
  intro b hb
  simp [hb]

theorem IsRun.append {name : String} {first : Nat} {run more : BlockTable}
    (h : table.IsRun name first run) (hmore : ∀ b ∈ more, b.name ≠ name) :
    IsRun (table ++ more) name first run := by
  obtain ⟨before, after, rfl, hfirst, hother⟩ := h.stands
  refine ⟨h.ne_nil, ⟨before, after ++ more, ?_, hfirst, ?_⟩, h.name_eq, h.element_eq, h.alike⟩
  · simp only [List.append_assoc]
  · intro b hb
    rw [← List.append_assoc] at hb
    rcases List.mem_append.mp hb with hb | hb
    · exact hother b hb
    · exact hmore b hb

end BlockTable

namespace BlockDeclaration

variable (block : BlockDeclaration) (size : Nat) (members : List Nat)

theorem of_mem_entries {b : BlockEntry} (h : b ∈ block.entries size members) :
    b.name = block.decl.name ∧ b.size = UInt64.ofNat size ∧ b.members = members := by
  unfold entries at h
  dsimp only at h
  split at h
  · obtain ⟨index, -, rfl⟩ := List.mem_map.mp h
    exact ⟨rfl, rfl, rfl⟩
  · rw [List.mem_singleton.mp h]
    exact ⟨rfl, rfl, rfl⟩

theorem map_element_entries :
    (block.entries size members).map BlockEntry.element = [none] ∨
      (block.entries size members).length ≤ maxWord ∧
        (block.entries size members).map BlockEntry.element =
          (List.range (block.entries size members).length).map
            fun index => some (UInt32.ofNat index) := by
  unfold entries
  dsimp only
  split
  · right
    rw [List.length_map, List.length_range]
    refine ⟨toNat_le_maxWord _, ?_⟩
    rw [List.map_map]
    rfl
  · exact .inl rfl

theorem isRun_entries {table : BlockTable} (hnew : ∀ b ∈ table, b.name ≠ block.decl.name) :
    BlockTable.IsRun (table ++ block.entries size members) block.decl.name table.length
      (block.entries size members) where
  ne_nil := by
    have hlength := block.length_entries size members
    have hpos := block.decl.elementCount_pos
    apply List.ne_nil_of_length_pos
    omega
  stands := ⟨table, [], by simp, rfl, by simpa using hnew⟩
  name_eq := fun b hb => (block.of_mem_entries size members hb).1
  element_eq := block.map_element_entries size members
  alike := by
    intro b hb c hc
    obtain ⟨-, hbsize, hbmembers⟩ := block.of_mem_entries size members hb
    obtain ⟨-, hcsize, hcmembers⟩ := block.of_mem_entries size members hc
    exact ⟨hbsize.trans hcsize.symm, hbmembers.trans hcmembers.symm⟩

end BlockDeclaration

namespace BlockTable

variable {table : BlockTable} {owners : List (Option UInt32)}

theorem Agrees.member_lt (h : table.Agrees owners) {b : BlockEntry} (hb : b ∈ table) {i : Nat}
    (hi : i ∈ b.members) : i < owners.length := by
  obtain ⟨first, run, -, start, count, -, howned⟩ := h.members b hb
  obtain ⟨hlt, -⟩ := List.getElem?_eq_some_iff.mp (howned i hi)
  exact hlt

theorem Agrees.leaves (h : table.Agrees owners) (count : Nat) :
    table.Agrees (owners ++ List.replicate count none) where
  members := by
    intro b hb
    obtain ⟨first, run, hrun, start, length, hmembers, howned⟩ := h.members b hb
    refine ⟨first, run, hrun, start, length, hmembers, ?_⟩
    intro i hi
    rw [List.getElem?_append_left (h.member_lt hb hi)]
    exact howned i hi
  owned := by
    intro i owner hi
    by_cases hlt : i < owners.length
    · rw [List.getElem?_append_left hlt] at hi
      exact h.owned i owner hi
    · -- What was added has no owner.
      rw [List.getElem?_append_right (by omega), List.getElem?_replicate] at hi
      split at hi <;> simp at hi

theorem Agrees.block (h : table.Agrees owners) (block : BlockDeclaration) (size count : Nat)
    (hnew : ∀ b ∈ table, b.name ≠ block.decl.name) :
    Agrees (table ++ block.entries size (List.range' owners.length count))
      (owners ++ List.replicate count (some (clampWord table.length))) where
  members := by
    intro b hb
    rcases List.mem_append.mp hb with hb | hb
    · obtain ⟨first, run, hrun, start, length, hmembers, howned⟩ := h.members b hb
      refine ⟨first, run, hrun.append ?_, start, length, hmembers, ?_⟩
      · intro c hc hname
        rw [(block.of_mem_entries _ _ hc).1] at hname
        exact hnew b hb hname.symm
      · intro i hi
        rw [List.getElem?_append_left (h.member_lt hb hi)]
        exact howned i hi
    · obtain ⟨hname, -, hmembers⟩ := block.of_mem_entries _ _ hb
      rw [hname]
      refine ⟨_, _, block.isRun_entries _ _ hnew, _, _, hmembers, ?_⟩
      intro i hi
      rw [hmembers, List.mem_range'_1] at hi
      rw [List.getElem?_append_right hi.1, List.getElem?_replicate, if_pos (by omega)]
  owned := by
    intro i owner hi
    by_cases hlt : i < owners.length
    · rw [List.getElem?_append_left hlt] at hi
      obtain ⟨name, first, run, hrun, howner, hcount⟩ := h.owned i owner hi
      obtain ⟨c, hc⟩ := List.exists_mem_of_ne_nil run hrun.ne_nil
      have hne : block.decl.name ≠ name := by
        rw [← hrun.name_eq c hc]
        exact (hnew c (hrun.subset c hc)).symm
      refine ⟨name, first, run, hrun.append ?_, howner, ?_⟩
      · intro b hb
        rw [(block.of_mem_entries _ _ hb).1]
        exact hne
      · intro b hb
        rcases List.mem_append.mp hb with hb | hb
        · exact hcount b hb
        · obtain ⟨hname, -, hmembers⟩ := block.of_mem_entries _ _ hb
          rw [hname, if_neg hne, hmembers]
          apply List.count_eq_zero_of_not_mem
          rw [List.mem_range'_1]
          omega
    · rw [List.getElem?_append_right (by omega), List.getElem?_replicate] at hi
      split at hi
      case isFalse => cases hi
      case isTrue hcount =>
        cases hi
        refine ⟨_, _, _, block.isRun_entries _ _ hnew, rfl, ?_⟩
        intro b hb
        rcases List.mem_append.mp hb with hb | hb
        · rw [if_neg (hnew b hb)]
          apply List.count_eq_zero_of_not_mem
          intro hi
          exact hlt (h.member_lt hb hi)
        · obtain ⟨hname, -, hmembers⟩ := block.of_mem_entries _ _ hb
          have hmem : i ∈ b.members := by
            rw [hmembers, List.mem_range'_1]
            omega
          have honce : b.members.count i ≤ 1 := by
            rw [hmembers]
            exact List.nodup_iff_count.mp List.nodup_range' i
          have hpos := List.count_pos_iff.mpr hmem
          rw [if_pos hname]
          omega

end BlockTable

theorem Assembled.agrees {owners : List (Option UInt32)} {table : BlockTable}
    (h : Assembled owners table) : table.Agrees owners := by
  induction h with
  | empty => exact ⟨by simp, by simp⟩
  | leaves count _ ih => exact ih.leaves count
  | block block size count _ hnew ih => exact ih.block block size count hnew

namespace BlockTable

variable {table : BlockTable} {owners : List (Option UInt32)}

theorem isRun_of_map_unbound {name : String} {first : Nat} {run : BlockTable}
    (h : IsRun (table.map BlockEntry.unbound) name first run) :
    ∃ bound, bound.map BlockEntry.unbound = run ∧ table.IsRun name first bound := by
  obtain ⟨front, after, hsplit, hfirst, hother⟩ := h.stands
  obtain ⟨front', after', rfl, hfront, rfl⟩ := List.map_eq_append_iff.mp hsplit
  obtain ⟨before', bound, rfl, rfl, rfl⟩ := List.map_eq_append_iff.mp hfront
  have hnames : ∀ b ∈ bound, b.name = name := by
    intro b hb
    exact h.name_eq b.unbound (List.mem_map.mpr ⟨b, hb, rfl⟩)
  refine ⟨bound, rfl, ?_, ⟨before', after', rfl, by simpa using hfirst, ?_⟩, hnames, ?_, ?_⟩
  · intro hnil
    exact h.ne_nil (by rw [hnil]; rfl)
  · intro b hb
    apply hother b.unbound
    rw [← List.map_append]
    exact List.mem_map.mpr ⟨b, hb, rfl⟩
  · have helement := h.element_eq
    rw [List.map_map, List.length_map] at helement
    exact helement
  · intro b hb c hc
    exact h.alike b.unbound (List.mem_map.mpr ⟨b, hb, rfl⟩) c.unbound (List.mem_map.mpr ⟨c, hc, rfl⟩)

theorem agrees_of_map_unbound (h : Agrees (table.map BlockEntry.unbound) owners) :
    table.Agrees owners where
  members := by
    intro b hb
    obtain ⟨first, run, hrun, hmembers⟩ := h.members b.unbound (List.mem_map.mpr ⟨b, hb, rfl⟩)
    obtain ⟨bound, -, hbound⟩ := isRun_of_map_unbound hrun
    exact ⟨first, bound, hbound, hmembers⟩
  owned := by
    intro i owner hi
    obtain ⟨name, first, run, hrun, howner, hcount⟩ := h.owned i owner hi
    obtain ⟨bound, -, hbound⟩ := isRun_of_map_unbound hrun
    refine ⟨name, first, bound, hbound, howner, ?_⟩
    intro b hb
    exact hcount b.unbound (List.mem_map.mpr ⟨b, hb, rfl⟩)

theorem IsRun.first_lt {name : String} {first : Nat} {run : BlockTable}
    (h : table.IsRun name first run) : first < table.length := by
  have hpos := List.length_pos_iff.mpr h.ne_nil
  obtain ⟨before, after, rfl, rfl, -⟩ := h.stands
  simp only [List.length_append]
  omega

end BlockTable

namespace Program

theorem agrees_foldlM_perform {calls : List Call} {program : Program}
    (h : calls.foldlM perform .empty = .ok program) :
    program.blocks.Agrees program.uniforms.owners :=
  BlockTable.agrees_of_map_unbound
    (isAssembled_foldlM_perform (show Program.empty.IsAssembled from .empty) h).agrees

/-- Over any run from an empty program, the entries of a block stand together, and its members are
uniforms in a row that it owns and that no other block lists. -/
theorem perform_blockRuns {calls : List Call} {program : Program}
    (h : calls.foldlM perform .empty = .ok program) (hfew : program.blocks.length ≤ maxWord) :
    (∀ b ∈ program.blocks, ∃ first run, program.blocks.IsRun b.name first run ∧
      ∃ start count, b.members = List.range' start count ∧
        ∀ i ∈ b.members, ∃ u owner, program.uniforms[i]? = some u ∧ u.block = some owner ∧
          owner.toNat = first) ∧
    ∀ i u owner, program.uniforms[i]? = some u → u.block = some owner →
      ∃ name run, program.blocks.IsRun name owner.toNat run ∧
        ∀ b ∈ program.blocks, b.members.count i = if b.name = name then 1 else 0 := by
  have hagrees := agrees_foldlM_perform h
  have hword {name : String} {first : Nat} {run : BlockTable}
      (hrun : program.blocks.IsRun name first run) : (clampWord first).toNat = first := by
    have hlt := hrun.first_lt
    rw [toNat_clampWord]
    omega
  constructor
  · intro b hb
    obtain ⟨first, run, hrun, start, count, hmembers, howned⟩ := hagrees.members b hb
    refine ⟨first, run, hrun, start, count, hmembers, ?_⟩
    intro i hi
    have howner := howned i hi
    rw [UniformTable.owners, List.getElem?_map] at howner
    obtain ⟨u, hu, hblock⟩ := Option.map_eq_some_iff.mp howner
    exact ⟨u, _, hu, hblock, hword hrun⟩
  · intro i u owner hu hblock
    have howner : program.uniforms.owners[i]? = some (some owner) := by
      rw [UniformTable.owners, List.getElem?_map, hu, Option.map_some, hblock]
    obtain ⟨name, first, run, hrun, rfl, hcount⟩ := hagrees.owned i owner howner
    rw [hword hrun]
    exact ⟨name, run, hrun, hcount⟩

/-- An array of blocks between two uniforms, slots for more of its elements than it has, and a stage
that declares it with another size and stops at a block past the limit. -/
def arrayCalls : List Call :=
  [.request (.uniform .vertex .hlsl11 UniformTable.lightUniform 2),
    .request (.block ⟨⟨"Lamps", 2, false, true⟩, .standard,
      [.basic ⟨"power", 0, false, true⟩ (.vector .float .one),
        .basic ⟨"weights", 3, false, true⟩ (.vector .float .two)]⟩),
    .bind .vertex "Lamps" 2 3 .d3d11,
    .request (.stageUniforms .fragment [UniformTable.lightUniform] (.start .hlsl11 .fragment)),
    .request (.stageBlocks .fragment .d3d11
      [⟨⟨"Lamps", 1, false, true⟩, .standard, []⟩, materialBlock,
        ⟨⟨"Bones", 12, false, true⟩, .packed, []⟩] (.start .hlsl11 .fragment))]

theorem perform_blockRuns_arrayCalls :
    ∃ program, arrayCalls.foldlM perform .empty = .ok program ∧ program.blocks.length = 15 ∧
      (∀ b ∈ program.blocks, ∃ first run, program.blocks.IsRun b.name first run ∧
        ∃ start count, b.members = List.range' start count ∧
          ∀ i ∈ b.members, ∃ u owner, program.uniforms[i]? = some u ∧ u.block = some owner ∧
            owner.toNat = first) ∧
      ∀ i u owner, program.uniforms[i]? = some u → u.block = some owner →
        ∃ name run, program.blocks.IsRun name owner.toNat run ∧
          ∀ b ∈ program.blocks, b.members.count i = if b.name = name then 1 else 0 := by
  have hrun : (arrayCalls.foldlM perform .empty).toOption.map (·.blocks.length) = some 15 := by
    decide +kernel
  cases h : arrayCalls.foldlM perform .empty with
  | error fault =>
    rw [h] at hrun
    cases hrun
  | ok program =>
    rw [h] at hrun
    have hlength : program.blocks.length = 15 := by simpa [Except.toOption] using hrun
    exact ⟨program, rfl, hlength, perform_blockRuns h (by rw [hlength]; decide)⟩

end Program

end ShaderInterface
