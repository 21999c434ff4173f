import ShaderInterface.Proofs.BindOutcome
import ShaderInterface.Proofs.Relinking

namespace ShaderInterface

variable {shown : List String}

/-- A block without its members, which are positions in another table. -/
def BlockEntry.withoutMembers (b : BlockEntry) : BlockEntry := { b with members := [] }

@[simp] theorem BlockEntry.name_withoutMembers (b : BlockEntry) : b.withoutMembers.name = b.name := rfl

@[simp] theorem BlockEntry.withoutMembers_setRegister (b : BlockEntry) (stage : Stage)
    (slot : UInt32) :
    (b.setRegister stage slot).withoutMembers = b.withoutMembers.setRegister stage slot := rfl

theorem BlockDeclaration.map_withoutMembers_entries (block : BlockDeclaration) (size : Nat)
    (members : List Nat) :
    (block.entries size members).map BlockEntry.withoutMembers = block.entries size [] := by
  unfold entries
  dsimp only
  split
  · rw [List.map_map]
    rfl
  · rfl

/-- Between two occurrences of a name that is shown, there is none that is not. -/
def Parted (shown : List String) : List String → Prop
  | [] => True
  | name :: names =>
    (name ∈ shown → names.Pairwise fun first second => first ∉ shown → second ≠ name) ∧
    Parted shown names

theorem parted_of_forall {names : List String}
    (h : ∀ first ∈ names, ∀ second ∈ names, first ∈ shown → second ∈ shown) :
    Parted shown names := by
  induction names with
  | nil => trivial
  | cons name names ih =>
    obtain ⟨hname, hnames⟩ := List.forall_mem_cons.mp h
    refine ⟨fun hshown => List.pairwise_of_forall_mem_list fun first hfirst _ _ hnot => ?_, ih ?_⟩
    · exact absurd (hname first (List.mem_cons_of_mem _ hfirst) hshown) hnot
    · exact fun first hfirst second hsecond =>
        hnames first hfirst second (List.mem_cons_of_mem _ hsecond)

theorem Parted.append {names more : List String} {new : String} (h : Parted shown names)
    (hnew : new ∉ names) (hmore : ∀ name ∈ more, name = new) : Parted shown (names ++ more) := by
  induction names with
  | nil =>
    refine parted_of_forall fun first hfirst second hsecond hshown => ?_
    rwa [hmore second hsecond, ← hmore first hfirst]
  | cons name names ih =>
    have hother : ∀ second ∈ more, second ≠ name := by
      rintro second hsecond rfl
      exact hnew (hmore second hsecond ▸ List.mem_cons_self)
    refine ⟨fun hshown => List.pairwise_append.mpr ⟨h.1 hshown, ?_, ?_⟩,
      ih h.2 fun hin => hnew (List.mem_cons_of_mem _ hin)⟩
    · exact List.pairwise_of_forall_mem_list fun _ _ second hsecond _ => hother second hsecond
    · exact fun _ _ second hsecond _ => hother second hsecond

namespace BlockTable

def showing (table : BlockTable) (shown : List String) : BlockTable :=
  (table.filter fun b => b.name ∈ shown).map BlockEntry.withoutMembers

theorem showing_cons_of_mem {b : BlockEntry} (h : b.name ∈ shown) (table : BlockTable) :
    showing (b :: table) shown = b.withoutMembers :: table.showing shown := by
  simp [showing, h]

theorem showing_cons_of_not_mem {b : BlockEntry} (h : b.name ∉ shown) (table : BlockTable) :
    showing (b :: table) shown = table.showing shown := by
  simp [showing, h]

theorem showing_append (table more : BlockTable) :
    showing (table ++ more) shown = table.showing shown ++ showing more shown := by
  simp [showing]

theorem mem_names_showing {table : BlockTable} {name : String} (h : name ∈ shown) :
    name ∈ (table.showing shown).names ↔ name ∈ table.names := by
  simp only [names, showing, List.map_map, List.mem_map, List.mem_filter]
  constructor
  · rintro ⟨b, ⟨hb, -⟩, rfl⟩
    exact ⟨b, hb, rfl⟩
  · rintro ⟨b, hb, rfl⟩
    exact ⟨b, ⟨hb, decide_eq_true h⟩, rfl⟩

section Bind

variable {stage : Stage} {name : String} {register : UInt32} {limits : StageLimits}

/-- Binding a run, in what is shown of it. The name must not come again behind an entry that is not
shown. -/
theorem bindRun_showing (hname : name ∈ shown) (count element : Nat) {table : BlockTable}
    (h : table.names.Pairwise fun first second => first ∉ shown → second ≠ name) :
    bindRun stage name register limits count element (table.showing shown) =
      (showing (bindRun stage name register limits count element table).1 shown,
        (bindRun stage name register limits count element table).2) := by
  induction count generalizing element table with
  | zero => rfl
  | succ count ih =>
    cases table with
    | nil => rfl
    | cons b table =>
      obtain ⟨hb, htable⟩ := List.pairwise_cons.mp h
      by_cases hshown : b.name ∈ shown
      · have hbound : (b.setRegister stage (clampWord (register.toNat + element))).name ∈ shown :=
          hshown
        rw [showing_cons_of_mem hshown, bindRun, bindRun, BlockEntry.name_withoutMembers]
        split
        · dsimp only
          split
          · rw [ih (element + 1) htable, showing_cons_of_mem hbound,
              BlockEntry.withoutMembers_setRegister]
          · rw [showing_cons_of_mem hbound, BlockEntry.withoutMembers_setRegister]
        · rw [showing_cons_of_mem hshown]
      · -- The run ends here. Without this entry it ends as well, since no other one is left.
        have hne : b.name ≠ name := fun heq => hshown (heq ▸ hname)
        have hother : ∀ c ∈ showing table shown, c.name ≠ name := by
          intro c hc
          obtain ⟨d, hd, rfl⟩ := List.mem_map.mp hc
          have hin : d.name ∈ names table := List.mem_map_of_mem (List.mem_filter.mp hd).1
          exact hb d.name hin hshown
        rw [showing_cons_of_not_mem hshown, bindRun_of_other count element hother, bindRun, if_neg hne,
          showing_cons_of_not_mem hshown]

theorem bind_showing (hname : name ∈ shown) (count : Nat) {table : BlockTable}
    (h : Parted shown table.names) :
    (table.showing shown).bind stage name register count limits =
      (showing (table.bind stage name register count limits).1 shown,
        (table.bind stage name register count limits).2) := by
  induction table with
  | nil => rfl
  | cons b table ih =>
    have hkeeps : b.withoutMembers.name = b.name := rfl
    by_cases hb : b.name = name
    · have hshown : b.name ∈ shown := hb ▸ hname
      have hrun : (names (b :: table)).Pairwise fun first second => first ∉ shown → second ≠ name :=
        List.pairwise_cons.mpr ⟨fun _ _ hnot => absurd hshown hnot, hb ▸ h.1 hshown⟩
      rw [bind_cons_of_eq table hb, ← bindRun_showing hname count 0 hrun, showing_cons_of_mem hshown,
        bind_cons_of_eq _ (hkeeps.trans hb)]
    · rw [bind_cons_of_ne table hb]
      by_cases hshown : b.name ∈ shown
      · rw [showing_cons_of_mem hshown, showing_cons_of_mem hshown, bind_cons_of_ne _ (hkeeps ▸ hb),
          ih h.2]
      · rw [showing_cons_of_not_mem hshown, showing_cons_of_not_mem hshown, ih h.2]

end Bind

def slots (table : BlockTable) (name : String) : List (Option UInt32 × PerStage (Option UInt32)) :=
  (table.filter fun b => b.name = name).map fun b => (b.element, b.registers)

theorem slots_showing {name : String} (h : name ∈ shown) (table : BlockTable) :
    (table.showing shown).slots name = table.slots name := by
  have hfilter : (table.filter fun b => b.name ∈ shown).filter
      ((fun b => decide (b.name = name)) ∘ BlockEntry.withoutMembers) =
      table.filter fun b => b.name = name := by
    rw [List.filter_filter]
    refine List.filter_congr fun b _ => ?_
    by_cases hb : b.name = name <;> simp [hb, h]
  rw [slots, showing, List.filter_map, hfilter, List.map_map]
  rfl

end BlockTable

namespace Program

variable {stage : Stage} {limits : Limits} {program other : Program} {block : BlockDeclaration}

theorem linkBlock_of_not_mem {members : List Member} {finish : Nat}
    (h : block.decl.name ∉ program.blocks.names)
    (hlayout : block.layout.rule.layoutMembers "" block.decl.rowMajor block.fields 0 =
      .ok (members, finish)) :
    program.linkBlock block = .ok ⟨(program.addBlock block members finish, program.blocks.length),
      blockEvents block members finish⟩ := by
  rw [linkBlock, BlockTable.index?_eq_none_iff.mpr h]
  exact bind_eq_ok.mpr ⟨_, hlayout, rfl⟩

theorem linkStage_cons_of_some {added : Logged (Program × Nat)} {allocator : Allocator}
    {cause : LinkError} (blocks : List BlockDeclaration) (hadded : program.linkBlock block = .ok added)
    (herror : (added.value.1.bindIfUsed stage limits block allocator).value.error = some cause) :
    linkStage stage limits (block :: blocks) program allocator =
      .ok ⟨(added.value.1.bindIfUsed stage limits block allocator).value,
        added.events ++ (added.value.1.bindIfUsed stage limits block allocator).events⟩ := by
  refine bind_eq_ok.mpr ⟨added, hadded, ?_⟩
  dsimp only
  rw [herror]
  rfl

theorem linkStage_cons_of_none {added : Logged (Program × Nat)} {allocator : Allocator}
    {blocks : List BlockDeclaration} {rest : Logged StageLink}
    (hadded : program.linkBlock block = .ok added)
    (herror : (added.value.1.bindIfUsed stage limits block allocator).value.error = none)
    (hrest : linkStage stage limits blocks
      (added.value.1.bindIfUsed stage limits block allocator).value.program
      (added.value.1.bindIfUsed stage limits block allocator).value.allocator = .ok rest) :
    linkStage stage limits (block :: blocks) program allocator =
      .ok ⟨rest.value, added.events ++
        (added.value.1.bindIfUsed stage limits block allocator).events ++ rest.events⟩ := by
  refine bind_eq_ok.mpr ⟨added, hadded, ?_⟩
  dsimp only
  rw [herror]
  exact bind_eq_ok.mpr ⟨rest, hrest, rfl⟩

theorem parted_addBlock (h : Parted shown program.blocks.names)
    (hnew : block.decl.name ∉ program.blocks.names) (members : List Member) (finish : Nat) :
    Parted shown (program.addBlock block members finish).blocks.names := by
  rw [addBlock, BlockTable.names, List.map_append]
  refine h.append hnew ?_
  intro name hname
  obtain ⟨b, hb, rfl⟩ := List.mem_map.mp hname
  exact (block.of_mem_entries _ _ hb).1

theorem showing_addBlock_of_not_mem (h : block.decl.name ∉ shown) (members : List Member)
    (finish : Nat) :
    (program.addBlock block members finish).blocks.showing shown = program.blocks.showing shown := by
  have hnone : BlockTable.showing (block.entries (Position.bytes finish)
      (program.uniforms.memberIndexes members)) shown = [] := by
    rw [BlockTable.showing, List.map_eq_nil_iff, List.filter_eq_nil_iff]
    intro b hb
    simp [(block.of_mem_entries _ _ hb).1, h]
  rw [addBlock, BlockTable.showing_append, hnone, List.append_nil]

/-- What is shown of a new block does not depend on the program that it is added to. -/
theorem showing_addBlock_of_mem (h : block.decl.name ∈ shown) (members : List Member)
    (finish : Nat) :
    (program.addBlock block members finish).blocks.showing shown =
      program.blocks.showing shown ++ block.entries (Position.bytes finish) [] := by
  have hall : (block.entries (Position.bytes finish) (program.uniforms.memberIndexes members)).filter
      (fun b => b.name ∈ shown) =
      block.entries (Position.bytes finish) (program.uniforms.memberIndexes members) := by
    rw [List.filter_eq_self]
    intro b hb
    simp [(block.of_mem_entries _ _ hb).1, h]
  rw [addBlock, BlockTable.showing_append, BlockTable.showing, BlockTable.showing, hall,
    block.map_withoutMembers_entries]

/-- Two programs that show the same of some names. -/
structure ShowSame (shown : List String) (program other : Program) : Prop where
  showing_eq : program.blocks.showing shown = other.blocks.showing shown
  parted : Parted shown program.blocks.names
  parted_other : Parted shown other.blocks.names

theorem ShowSame.refl (h : ∀ name ∈ program.blocks.names, name ∈ shown) :
    ShowSame shown program program := by
  have hparted : Parted shown program.blocks.names :=
    parted_of_forall fun _ _ second hsecond _ => h second hsecond
  exact ⟨rfl, hparted, hparted⟩

theorem ShowSame.mem_names (h : ShowSame shown program other) {name : String} (hname : name ∈ shown) :
    name ∈ other.blocks.names ↔ name ∈ program.blocks.names := by
  rw [← BlockTable.mem_names_showing hname, ← h.showing_eq, BlockTable.mem_names_showing hname]

theorem ShowSame.linkBlock_left {linked : Logged (Program × Nat)} (h : ShowSame shown program other)
    (hname : block.decl.name ∈ program.blocks.names ∨ block.decl.name ∉ shown)
    (hlink : program.linkBlock block = .ok linked) : ShowSame shown linked.value.1 other := by
  obtain ⟨-, hsame⟩ | ⟨hnone, members, finish, -, hadd⟩ := linkBlock_cases hlink
  · exact hsame ▸ h
  · have hnew := BlockTable.index?_eq_none_iff.mp hnone
    have hnot := hname.resolve_left hnew
    rw [hadd]
    exact ⟨(showing_addBlock_of_not_mem hnot members finish).trans h.showing_eq,
      parted_addBlock h.parted hnew members finish, h.parted_other⟩

theorem ShowSame.linkBlock {linked : Logged (Program × Nat)} (h : ShowSame shown program other)
    (hname : block.decl.name ∈ shown) (hlink : program.linkBlock block = .ok linked) :
    ∃ linked', other.linkBlock block = .ok linked' ∧
      ShowSame shown linked.value.1 linked'.value.1 := by
  obtain ⟨hfound, hsame⟩ | ⟨hnone, members, finish, hlayout, hadd⟩ := linkBlock_cases hlink
  · have hmem := (h.mem_names hname).mpr (BlockTable.index?_isSome.mp hfound)
    obtain ⟨index, hindex⟩ := linkBlock_of_mem hmem
    exact ⟨_, hindex, hsame ▸ h⟩
  · have hnew := BlockTable.index?_eq_none_iff.mp hnone
    have hother : block.decl.name ∉ other.blocks.names := fun hin =>
      hnew ((h.mem_names hname).mp hin)
    refine ⟨_, linkBlock_of_not_mem hother hlayout, ?_⟩
    rw [hadd]
    refine ⟨?_, parted_addBlock h.parted hnew members finish,
      parted_addBlock h.parted_other hother members finish⟩
    rw [showing_addBlock_of_mem hname, showing_addBlock_of_mem hname, h.showing_eq]

theorem ShowSame.bindIfUsed (h : ShowSame shown program other) (hname : block.decl.name ∈ shown)
    (allocator : Allocator) :
    (other.bindIfUsed stage limits block allocator).value.error =
      (program.bindIfUsed stage limits block allocator).value.error ∧
    (other.bindIfUsed stage limits block allocator).value.allocator =
      (program.bindIfUsed stage limits block allocator).value.allocator ∧
    ShowSame shown (program.bindIfUsed stage limits block allocator).value.program
      (other.bindIfUsed stage limits block allocator).value.program := by
  unfold Program.bindIfUsed
  split
  case isTrue =>
    have hbound := @BlockTable.bind_showing shown stage block.decl.name
      (allocator.assignBlock block).register (limits.get stage) hname block.decl.elementCount _ h.parted
    rw [h.showing_eq, BlockTable.bind_showing hname block.decl.elementCount h.parted_other] at hbound
    obtain ⟨hshowing, herror⟩ := Prod.mk.inj hbound
    refine ⟨herror, rfl, hshowing.symm, ?_, ?_⟩
    · exact (BlockTable.names_bind ..).symm ▸ h.parted
    · exact (BlockTable.names_bind ..).symm ▸ h.parted_other
  case isFalse => exact ⟨rfl, rfl, h⟩

theorem ShowSame.linkStage {blocks : List BlockDeclaration} {allocator : Allocator}
    {linked : Logged StageLink} (h : ShowSame shown program other)
    (hused : ∀ block ∈ usedBlocks blocks, block.decl.name ∈ shown)
    (hunused : ∀ block ∈ blocks, block.decl.staticUse = false →
      block.decl.name ∈ program.blocks.names ∨ block.decl.name ∉ shown)
    (hlink : Program.linkStage stage limits blocks program allocator = .ok linked) :
    ∃ linked', Program.linkStage stage limits (usedBlocks blocks) other allocator = .ok linked' ∧
      linked'.value.error = linked.value.error ∧
      linked'.value.allocator = linked.value.allocator ∧
      ShowSame shown linked.value.program linked'.value.program := by
  induction blocks generalizing program other allocator linked with
  | nil =>
    cases hlink
    exact ⟨_, rfl, rfl, rfl, h⟩
  | cons block blocks ih =>
    obtain ⟨added, hadded, hlink⟩ := bind_eq_ok.mp hlink
    dsimp only at hlink
    -- Names do not go away, so that what is asked of unused blocks holds for those that follow.
    have hlater : ∀ later ∈ blocks, later.decl.staticUse = false → later.decl.name ∈
          (added.value.1.bindIfUsed stage limits block allocator).value.program.blocks.names ∨
        later.decl.name ∉ shown := by
      intro later hmem hlater
      refine (hunused later (List.mem_cons_of_mem _ hmem) hlater).imp_left fun hin => ?_
      obtain ⟨more, hmore, -⟩ := @linkBlock_blocks stage _ _ _ hadded
      rw [names_bindIfUsed, hmore, BlockTable.names, List.map_append]
      exact List.mem_append_left _ hin
    cases huse : block.decl.staticUse with
    | false =>
      have hname := hunused block List.mem_cons_self huse
      have hskip : usedBlocks (block :: blocks) = usedBlocks blocks :=
        List.filter_cons_of_neg (by simp [huse])
      have hfree : added.value.1.bindIfUsed stage limits block allocator =
          ⟨⟨added.value.1, allocator, none⟩, []⟩ := by
        simp [Program.bindIfUsed, huse]
      rw [hfree] at hlink hlater
      obtain ⟨rest, hrest, hlink⟩ := bind_eq_ok.mp hlink
      cases hlink
      rw [hskip] at hused ⊢
      exact @ih _ _ _ rest (h.linkBlock_left hname hadded) hused hlater hrest
    | true =>
      have hkeep : usedBlocks (block :: blocks) = block :: usedBlocks blocks :=
        List.filter_cons_of_pos (by simp [huse])
      rw [hkeep] at hused ⊢
      obtain ⟨hname, hused⟩ := List.forall_mem_cons.mp hused
      obtain ⟨added', hadded', hsame⟩ := h.linkBlock hname hadded
      obtain ⟨herror, hallocator, hbound⟩ :=
        @ShowSame.bindIfUsed _ stage limits _ _ _ hsame hname allocator
      split at hlink
      case h_1 cause hcause =>
        cases hlink
        exact ⟨_, linkStage_cons_of_some _ hadded' (herror.trans hcause), herror, hallocator, hbound⟩
      case h_2 hnone =>
        obtain ⟨rest, hrest, hlink⟩ := bind_eq_ok.mp hlink
        cases hlink
        obtain ⟨rest', hrest', hends⟩ := ih hbound hused hlater hrest
        rw [← hallocator] at hrest'
        exact ⟨_, linkStage_cons_of_none hadded' (herror.trans hnone) hrest', hends⟩

/-- Blocks that a stage does not use make no difference to the slots of those that it uses. -/
theorem linkStage_usedBlocks {blocks : List BlockDeclaration} {allocator : Allocator}
    {linked : Logged StageLink} (hnames : (blocks.map fun block => block.decl.name).Nodup)
    (h : linkStage stage limits blocks program allocator = .ok linked) :
    ∃ used, linkStage stage limits (usedBlocks blocks) program allocator = .ok used ∧
      used.value.error = linked.value.error ∧
      used.value.allocator = linked.value.allocator ∧
      ∀ name ∈ program.blocks.names ++ (usedBlocks blocks).map (fun block => block.decl.name),
        used.value.program.blocks.slots name = linked.value.program.blocks.slots name := by
  generalize hshown :
    program.blocks.names ++ (usedBlocks blocks).map (fun block => block.decl.name) = shown
  have hmem : ∀ name, name ∈ shown ↔
      name ∈ program.blocks.names ∨ ∃ block ∈ usedBlocks blocks, block.decl.name = name := by
    simp [← hshown]
  have hused : ∀ block ∈ usedBlocks blocks, block.decl.name ∈ shown :=
    fun block hblock => (hmem _).mpr (.inr ⟨block, hblock, rfl⟩)
  have hunused : ∀ block ∈ blocks, block.decl.staticUse = false →
      block.decl.name ∈ program.blocks.names ∨ block.decl.name ∉ shown := by
    intro block hblock hfree
    refine or_iff_not_imp_left.mpr fun hnew hin => ?_
    obtain ⟨user, huser, hname⟩ := ((hmem _).mp hin).resolve_left hnew
    obtain ⟨huser, huse⟩ := List.mem_filter.mp huser
    obtain rfl := List.inj_on_of_nodup_map hnames huser hblock hname
    rw [hfree] at huse
    cases huse
  have hsame : ShowSame shown program program := .refl fun name hname => (hmem name).mpr (.inl hname)
  obtain ⟨used, hlinked, herror, hallocator, hshows⟩ := hsame.linkStage hused hunused h
  refine ⟨used, hlinked, herror, hallocator, ?_⟩
  intro name hname
  rw [← BlockTable.slots_showing hname, ← hshows.showing_eq, BlockTable.slots_showing hname]

/-- The blocks of a fragment stage, with two between them that it does not use. -/
def shadowBlocks : List BlockDeclaration :=
  [⟨⟨"Shadows", 2, false, false⟩, .packed,
      [.basic ⟨"bias", 0, false, true⟩ (.vector .float .one)]⟩,
    ⟨⟨"Fog", 0, false, true⟩, .standard, [.basic ⟨"color", 0, false, true⟩ (.vector .float .four)]⟩,
    ⟨⟨"Bones", 4, false, false⟩, .packed, []⟩,
    ⟨⟨"Lamps", 2, false, true⟩, .standard, []⟩]

theorem linkStage_usedBlocks_shadowBlocks :
    ∃ program linked, vertexCalls.foldlM perform .empty = .ok program ∧
      linkStage .fragment .d3d11 shadowBlocks program (.start .hlsl11 .fragment) = .ok linked ∧
      linked.value.program.blocks.slots "Fog" = [(none, ⟨none, some 2⟩)] ∧
      linked.value.program.blocks.slots "Lamps" =
        [(some 0, ⟨some 2, some 3⟩), (some 1, ⟨some 3, some 4⟩), (some 2, ⟨some 4, none⟩)] ∧
      ∃ used, linkStage .fragment .d3d11 (usedBlocks shadowBlocks) program
          (.start .hlsl11 .fragment) = .ok used ∧
        used.value.error = linked.value.error ∧
        used.value.allocator = linked.value.allocator ∧
        ∀ name ∈ program.blocks.names ++ (usedBlocks shadowBlocks).map (fun block => block.decl.name),
          used.value.program.blocks.slots name = linked.value.program.blocks.slots name :=
  ⟨_, _, rfl, rfl, by decide +kernel, by decide +kernel, linkStage_usedBlocks (by decide) rfl⟩

end Program

end ShaderInterface
