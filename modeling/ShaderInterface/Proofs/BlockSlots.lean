import ShaderInterface.Proofs.BlockRuns

namespace ShaderInterface

namespace BlockTable

/-- The entry at an index once `count` entries from `first` on have slots in a row. -/
def withSlot (stage : Stage) (register : UInt32) (first count index : Nat) (b : BlockEntry) :
    BlockEntry :=
  if first ≤ index ∧ index < first + count then
    b.setRegister stage (clampWord (register.toNat + (index - first)))
  else b

theorem withSlot_succ (stage : Stage) (register : UInt32) (first count index : Nat) (b : BlockEntry) :
    withSlot stage register (first + 1) count (index + 1) b =
      withSlot stage register first count index b := by
  have hcond : first + 1 ≤ index + 1 ∧ index + 1 < first + 1 + count ↔
      first ≤ index ∧ index < first + count := by omega
  simp only [withSlot, hcond, Nat.add_sub_add_right]

theorem name_withSlot (stage : Stage) (register : UInt32) (first count index : Nat) (b : BlockEntry) :
    (withSlot stage register first count index b).name = b.name := by
  unfold withSlot
  split <;> rfl

section Bind

variable {stage : Stage} {name : String} {register : UInt32} {limits : StageLimits} {count : Nat}

theorem bindRun_eq_none {element : Nat} {table : BlockTable}
    (h : (bindRun stage name register limits count element table).2 = none) :
    (∀ e < count, limits.admitsBlock (clampWord (register.toNat + (element + e))) = true ∧
      ∃ b, table[e]? = some b ∧ b.name = name) ∧
    (bindRun stage name register limits count element table).1 =
      table.mapIdx fun index b => if index < count then
        b.setRegister stage (clampWord (register.toNat + (element + index))) else b := by
  induction count generalizing element table with
  | zero =>
    refine ⟨fun e he => absurd he (Nat.not_lt_zero e), ?_⟩
    apply List.ext_getElem?
    simp [bindRun]
  | succ count ih =>
    cases table with
    | nil => cases h
    | cons b table =>
      rw [bindRun] at h ⊢
      split at h
      case isFalse => cases h
      case isTrue hname =>
        dsimp only at h
        split at h
        case isFalse => cases h
        case isTrue hadmits =>
          obtain ⟨hfound, htable⟩ := ih h
          constructor
          · intro e he
            cases e with
            | zero => exact ⟨hadmits, b, rfl, hname⟩
            | succ e =>
              rw [show element + (e + 1) = element + 1 + e by omega, List.getElem?_cons_succ]
              exact hfound e (by omega)
          · dsimp only
            rw [if_pos hname, if_pos hadmits, htable, List.mapIdx_cons]
            simp only [Nat.zero_lt_succ, if_true, Nat.add_zero, Nat.add_lt_add_iff_right,
              show ∀ index, element + 1 + index = element + (index + 1) by omega]

theorem bind_cons_of_ne {b : BlockEntry} (table : BlockTable) (h : b.name ≠ name) :
    bind (b :: table) stage name register count limits =
      (b :: (bind table stage name register count limits).1,
        (bind table stage name register count limits).2) := by
  simp only [bind, List.dropWhile_cons, List.takeWhile_cons, decide_eq_true h, if_true]
  split <;> rfl

theorem bind_cons_of_eq {b : BlockEntry} (table : BlockTable) (h : b.name = name) :
    bind (b :: table) stage name register count limits =
      bindRun stage name register limits count 0 (b :: table) := by
  simp [bind, h]

theorem index?_cons (b : BlockEntry) (table : BlockTable) (name : String) :
    index? (b :: table) name = if b.name = name then some 0 else (table.index? name).map (· + 1) := by
  simp [index?, List.findIdx?_cons]

/-- Binding without an error: the name is there, as many entries of it stand in a row, and each of
them gets its slot, which is one that the program may use. -/
theorem bind_eq_none {table : BlockTable}
    (h : (table.bind stage name register count limits).2 = none) :
    ∃ first, table.index? name = some first ∧
      (∀ e < count, limits.admitsBlock (clampWord (register.toNat + e)) = true ∧
        ∃ b, table[first + e]? = some b ∧ b.name = name) ∧
      (table.bind stage name register count limits).1 =
        table.mapIdx (withSlot stage register first count) := by
  induction table with
  | nil => cases h
  | cons b table ih =>
    rw [index?_cons]
    by_cases hname : b.name = name
    · rw [bind_cons_of_eq table hname] at h ⊢
      obtain ⟨hfound, htable⟩ := bindRun_eq_none h
      simp only [Nat.zero_add] at hfound htable
      refine ⟨0, if_pos hname, by simpa only [Nat.zero_add] using hfound, ?_⟩
      rw [htable]
      apply congrArg (List.mapIdx · (b :: table))
      funext index c
      simp [withSlot]
    · rw [bind_cons_of_ne table hname] at h ⊢
      obtain ⟨first, hfirst, hfound, htable⟩ := ih h
      refine ⟨first + 1, by rw [if_neg hname, hfirst]; rfl, ?_, ?_⟩
      · intro e he
        rw [show first + 1 + e = first + e + 1 by omega, List.getElem?_cons_succ]
        exact hfound e he
      · dsimp only
        rw [htable, List.mapIdx_cons]
        have hhead : withSlot stage register (first + 1) count 0 b = b := by simp [withSlot]
        have htail : (fun index => withSlot stage register (first + 1) count (index + 1)) =
            withSlot stage register first count := by
          funext index c
          exact withSlot_succ ..
        rw [hhead, htail]

end Bind

/-- The slots that a stage has bound are for the program to use, below `next`, and each at one
entry. -/
structure SlotsBelow (table : BlockTable) (stage : Stage) (limits : StageLimits) (next : Nat) :
    Prop where
  admitted : ∀ b ∈ table, ∀ slot, b.registers.get stage = some slot →
    limits.admitsBlock slot = true ∧ slot.toNat < next
  distinct : ∀ (i j : Nat) (b c : BlockEntry) (slot : UInt32), table[i]? = some b → table[j]? = some c →
    b.registers.get stage = some slot → c.registers.get stage = some slot → i = j

variable {table : BlockTable} {stage : Stage} {limits : StageLimits}

theorem slotsBelow_of_unbound (h : ∀ b ∈ table, b.registers.get stage = none) (next : Nat) :
    table.SlotsBelow stage limits next where
  admitted := by
    intro b hb slot hslot
    rw [h b hb] at hslot
    cases hslot
  distinct := by
    intro i j b c slot hi _ hslot
    rw [h b (List.mem_of_getElem? hi)] at hslot
    cases hslot

theorem SlotsBelow.append {next : Nat} {more : BlockTable} (h : table.SlotsBelow stage limits next)
    (hmore : ∀ b ∈ more, b.registers.get stage = none) :
    SlotsBelow (table ++ more) stage limits next := by
  have hold {i : Nat} {b : BlockEntry} {slot : UInt32} (hi : (table ++ more)[i]? = some b)
      (hslot : b.registers.get stage = some slot) : table[i]? = some b := by
    by_cases hlt : i < table.length
    · rwa [List.getElem?_append_left hlt] at hi
    · rw [List.getElem?_append_right (by omega)] at hi
      rw [hmore b (List.mem_of_getElem? hi)] at hslot
      cases hslot
  constructor
  · intro b hb slot hslot
    obtain ⟨i, hi⟩ := List.mem_iff_getElem?.mp hb
    exact h.admitted b (List.mem_of_getElem? (hold hi hslot)) slot hslot
  · intro i j b c slot hi hj hb hc
    exact h.distinct i j b c slot (hold hi hb) (hold hj hc) hb hc

/-- Where slots past the largest word are out of range, a slot in range was not cut off. -/
theorem toNat_clampWord_of_admitsBlock {n : Nat}
    (hlimit : limits.reservedBlocks.toNat + limits.maxBlocks.toNat ≤ maxWord)
    (h : limits.admitsBlock (clampWord n) = true) : (clampWord n).toNat = n ∧ n < maxWord := by
  have hrange := of_decide_eq_true h
  rw [toNat_clampWord] at hrange ⊢
  omega

/-- Binding to slots from the counter on. An entry that had a slot below it is given a new one. -/
theorem SlotsBelow.bind {name : String} {register : UInt32} {count : Nat}
    (h : table.SlotsBelow stage limits register.toNat)
    (hlimit : limits.reservedBlocks.toNat + limits.maxBlocks.toNat ≤ maxWord)
    (hbind : (table.bind stage name register count limits).2 = none) :
    register.toNat + count ≤ maxWord ∧
      SlotsBelow (table.bind stage name register count limits).1 stage limits
        (register.toNat + count) := by
  obtain ⟨first, -, hfound, htable⟩ := bind_eq_none hbind
  have hfits : register.toNat + count ≤ maxWord := by
    cases count with
    | zero => exact toNat_le_maxWord register
    | succ count =>
      have hlast := toNat_clampWord_of_admitsBlock hlimit (hfound count (Nat.lt_succ_self count)).1
      omega
  -- An entry with a slot has it from before, or is one of those that were bound now.
  have hcases {i : Nat} {b : BlockEntry} {slot : UInt32}
      (hi : (table.bind stage name register count limits).1[i]? = some b)
      (hslot : b.registers.get stage = some slot) :
      table[i]? = some b ∨ first ≤ i ∧ i < first + count ∧
        slot.toNat = register.toNat + (i - first) ∧ limits.admitsBlock slot = true := by
    rw [htable, List.getElem?_mapIdx] at hi
    obtain ⟨entry, hentry, hb⟩ := Option.map_eq_some_iff.mp hi
    unfold withSlot at hb
    split at hb
    case isFalse => exact .inl (hb ▸ hentry)
    case isTrue hin =>
      rw [← hb, BlockEntry.registers_setRegister, PerStage.get_set] at hslot
      cases hslot
      have hadmits := (hfound (i - first) (by omega)).1
      exact .inr ⟨hin.1, hin.2, (toNat_clampWord_of_admitsBlock hlimit hadmits).1, hadmits⟩
  refine ⟨hfits, ?_, ?_⟩
  · intro b hb slot hslot
    obtain ⟨i, hi⟩ := List.mem_iff_getElem?.mp hb
    rcases hcases hi hslot with hold | ⟨hlow, hhigh, hnow, hadmits⟩
    · obtain ⟨hadmits, hlt⟩ := h.admitted b (List.mem_of_getElem? hold) slot hslot
      exact ⟨hadmits, by omega⟩
    · exact ⟨hadmits, by omega⟩
  · intro i j b c slot hi hj hb hc
    rcases hcases hi hb with hiold | ⟨hilow, hihigh, hinow, -⟩
    · rcases hcases hj hc with hjold | ⟨hjlow, hjhigh, hjnow, -⟩
      · exact h.distinct i j b c slot hiold hjold hb hc
      · have hlt := (h.admitted b (List.mem_of_getElem? hiold) slot hb).2
        omega
    · rcases hcases hj hc with hjold | ⟨hjlow, hjhigh, hjnow, -⟩
      · have hlt := (h.admitted c (List.mem_of_getElem? hjold) slot hc).2
        omega
      · omega

/-- A table that has gone on from another. Entries keep their places and their names, those of other
names than the given ones do not change, and new ones of other names are not bound. -/
structure GoesOn (later earlier : BlockTable) (stage : Stage) (names : List String) : Prop where
  kept : ∀ (i : Nat) (b : BlockEntry), earlier[i]? = some b →
    ∃ b' : BlockEntry, later[i]? = some b' ∧ b'.name = b.name ∧ (b.name ∉ names → b' = b)
  new : ∀ (i : Nat) (b : BlockEntry), later[i]? = some b → earlier.length ≤ i → b.name ∉ names →
    b.registers.get stage = none

theorem GoesOn.refl (table : BlockTable) (stage : Stage) : table.GoesOn table stage [] where
  kept := fun i b hi => ⟨b, hi, rfl, fun _ => rfl⟩
  new := by
    intro i b hi hlength
    rw [List.getElem?_eq_none hlength] at hi
    cases hi

theorem GoesOn.trans {later middle earlier : BlockTable} {names names' : List String}
    (h' : later.GoesOn middle stage names') (h : middle.GoesOn earlier stage names) :
    later.GoesOn earlier stage (names ++ names') where
  kept := by
    intro i b hi
    obtain ⟨c, hc, hcname, hsame⟩ := h.kept i b hi
    obtain ⟨d, hd, hdname, hsame'⟩ := h'.kept i c hc
    refine ⟨d, hd, hdname.trans hcname, ?_⟩
    intro hnot
    rw [List.mem_append, not_or] at hnot
    rw [hsame' (hcname ▸ hnot.2), hsame hnot.1]
  new := by
    intro i b hi hlength hnot
    rw [List.mem_append, not_or] at hnot
    by_cases hlt : i < middle.length
    · obtain ⟨d, hd, hdname, hsame⟩ := h'.kept i _ (List.getElem?_eq_getElem hlt)
      obtain rfl : d = b := Option.some.inj (hd.symm.trans hi)
      have hmiddle : middle[i]? = some d := by
        rw [hsame (hdname ▸ hnot.2)]
        exact List.getElem?_eq_getElem hlt
      exact h.new i d hmiddle hlength hnot.1
    · exact h'.new i b hi (by omega) hnot.2

theorem goesOn_append {more : BlockTable} (hmore : ∀ b ∈ more, b.registers.get stage = none) :
    GoesOn (table ++ more) table stage [] where
  kept := by
    intro i b hi
    obtain ⟨hlt, -⟩ := List.getElem?_eq_some_iff.mp hi
    exact ⟨b, by rw [List.getElem?_append_left hlt, hi], rfl, fun _ => rfl⟩
  new := by
    intro i b hi hlength _
    rw [List.getElem?_append_right hlength] at hi
    exact hmore b (List.mem_of_getElem? hi)

theorem goesOn_bind {name : String} {register : UInt32} {count : Nat}
    (h : (table.bind stage name register count limits).2 = none) :
    GoesOn (table.bind stage name register count limits).1 table stage [name] := by
  obtain ⟨first, -, hfound, htable⟩ := bind_eq_none h
  rw [htable]
  constructor
  · intro i b hi
    refine ⟨withSlot stage register first count i b, by rw [List.getElem?_mapIdx, hi]; rfl,
      name_withSlot .., ?_⟩
    intro hnot
    unfold withSlot
    split
    case isFalse => rfl
    case isTrue hin =>
      -- Only entries of the name are bound.
      obtain ⟨-, c, hc, hname⟩ := hfound (i - first) (by omega)
      rw [show first + (i - first) = i by omega, hi] at hc
      cases hc
      exact absurd (List.mem_singleton.mpr hname) hnot
  · intro i b hi hlength
    rw [List.getElem?_eq_none (by simpa using hlength)] at hi
    cases hi

theorem GoesOn.free {later earlier : BlockTable} {names : List String} {name : String}
    (h : later.GoesOn earlier stage names) (hname : name ∉ names)
    (hfree : ∀ b ∈ earlier, b.name = name → b.registers.get stage = none) :
    ∀ b ∈ later, b.name = name → b.registers.get stage = none := by
  intro b hb hb'
  obtain ⟨i, hi⟩ := List.mem_iff_getElem?.mp hb
  by_cases hlt : i < earlier.length
  · obtain ⟨c, hc, hcname, hsame⟩ := h.kept i _ (List.getElem?_eq_getElem hlt)
    obtain rfl : c = b := Option.some.inj (hc.symm.trans hi)
    rw [hcname] at hb'
    rw [hsame (hb' ▸ hname)]
    exact hfree _ (List.getElem_mem hlt) hb'
  · exact h.new i b hi (by omega) (hb' ▸ hname)

theorem index?_eq_some {name : String} {first : Nat} :
    table.index? name = some first ↔ (∃ b, table[first]? = some b ∧ b.name = name) ∧
      ∀ j < first, ∀ b, table[j]? = some b → b.name ≠ name := by
  rw [index?, List.findIdx?_eq_some_iff_getElem]
  constructor
  · rintro ⟨hlt, hname, hbefore⟩
    refine ⟨⟨_, List.getElem?_eq_getElem hlt, of_decide_eq_true hname⟩, ?_⟩
    intro j hj b hb
    obtain ⟨hj', rfl⟩ := List.getElem?_eq_some_iff.mp hb
    simpa using hbefore j hj
  · rintro ⟨⟨b, hb, hname⟩, hbefore⟩
    obtain ⟨hlt, rfl⟩ := List.getElem?_eq_some_iff.mp hb
    refine ⟨hlt, decide_eq_true hname, ?_⟩
    intro j hj
    simpa using hbefore j hj _ (List.getElem?_eq_getElem (by omega))

theorem GoesOn.index? {later earlier : BlockTable} {names : List String} {name : String} {first : Nat}
    (h : later.GoesOn earlier stage names) (hfirst : earlier.index? name = some first) :
    later.index? name = some first := by
  obtain ⟨⟨b, hb, hname⟩, hbefore⟩ := index?_eq_some.mp hfirst
  obtain ⟨b', hb', hname', -⟩ := h.kept first b hb
  obtain ⟨hlt, -⟩ := List.getElem?_eq_some_iff.mp hb
  refine index?_eq_some.mpr ⟨⟨b', hb', hname'.trans hname⟩, ?_⟩
  intro j hj c hc
  obtain ⟨c', hc', hcname, -⟩ := h.kept j _ (List.getElem?_eq_getElem (by omega))
  obtain rfl : c' = c := Option.some.inj (hc'.symm.trans hc)
  rw [hcname]
  exact hbefore j hj _ (List.getElem?_eq_getElem (by omega))

def HasSlots (table : BlockTable) (stage : Stage) (name : String) (count first base : Nat) : Prop :=
  table.index? name = some first ∧ ∀ e < count, ∃ b slot, table[first + e]? = some b ∧
    b.name = name ∧ b.registers.get stage = some slot ∧ slot.toNat = base + e

theorem hasSlots_bind {name : String} {register : UInt32} {count : Nat}
    (hlimit : limits.reservedBlocks.toNat + limits.maxBlocks.toNat ≤ maxWord)
    (h : (table.bind stage name register count limits).2 = none) :
    ∃ first, HasSlots (table.bind stage name register count limits).1 stage name count first
      register.toNat := by
  obtain ⟨first, hfirst, hfound, htable⟩ := bind_eq_none h
  refine ⟨first, (goesOn_bind h).index? hfirst, ?_⟩
  intro e he
  obtain ⟨hadmits, b, hb, hname⟩ := hfound e he
  have hslot := toNat_clampWord_of_admitsBlock hlimit hadmits
  refine ⟨b.setRegister stage (clampWord (register.toNat + e)), _, ?_, hname, PerStage.get_set ..,
    hslot.1⟩
  rw [htable, List.getElem?_mapIdx, hb, Option.map_some, withSlot, if_pos (by omega),
    Nat.add_sub_cancel_left]

theorem HasSlots.goesOn {later earlier : BlockTable} {names : List String} {name : String}
    {count first base : Nat} (h : earlier.HasSlots stage name count first base)
    (hlater : later.GoesOn earlier stage names) (hname : name ∉ names) :
    later.HasSlots stage name count first base := by
  refine ⟨hlater.index? h.1, ?_⟩
  intro e he
  obtain ⟨b, slot, hb, hbname, hslot⟩ := h.2 e he
  obtain ⟨b', hb', -, hsame⟩ := hlater.kept _ b hb
  rw [hsame (hbname ▸ hname)] at hb'
  exact ⟨b, slot, hb', hbname, hslot⟩

theorem IsRun.element {name : String} {first e : Nat} {run : BlockTable} {b : BlockEntry}
    (h : table.IsRun name first run) (hb : table[first + e]? = some b) (hname : b.name = name) :
    b.element = none ∧ e = 0 ∨ b.element = some (UInt32.ofNat e) := by
  obtain ⟨before, after, rfl, rfl, hother⟩ := h.stands
  rw [List.append_assoc, List.getElem?_append_right (by omega), Nat.add_sub_cancel_left] at hb
  have hlt : e < run.length := by
    apply Nat.lt_of_not_le
    intro hle
    rw [List.getElem?_append_right hle] at hb
    exact hother b (List.mem_append_right _ (List.mem_of_getElem? hb)) hname
  rw [List.getElem?_append_left hlt] at hb
  have helement : (run.map BlockEntry.element)[e]? = some b.element := by
    rw [List.getElem?_map, hb, Option.map_some]
  rcases h.element_eq with hsingle | ⟨-, hall⟩
  · rw [hsingle, List.getElem?_singleton] at helement
    split at helement
    case isTrue hzero =>
      injection helement with helement
      exact .inl ⟨helement.symm, hzero⟩
    case isFalse => cases helement
  · rw [hall, List.getElem?_map, List.getElem?_range hlt, Option.map_some] at helement
    injection helement with helement
    exact .inr helement.symm

theorem IsRun.index? {name : String} {first : Nat} {run : BlockTable}
    (h : table.IsRun name first run) : table.index? name = some first := by
  obtain ⟨before, after, rfl, rfl, hother⟩ := h.stands
  obtain ⟨b, hb⟩ := List.exists_mem_of_ne_nil run h.ne_nil
  cases run with
  | nil => cases hb
  | cons c run =>
    refine index?_eq_some.mpr ⟨⟨c, ?_, h.name_eq c List.mem_cons_self⟩, ?_⟩
    · simp
    · intro j hj d hd
      rw [List.append_assoc, List.getElem?_append_left hj] at hd
      exact hother d (List.mem_append_left _ (List.mem_of_getElem? hd))

end BlockTable

def usedBlocks (blocks : List BlockDeclaration) : List BlockDeclaration :=
  blocks.filter fun block => block.decl.staticUse

namespace Program

variable {stage : Stage} {limits : Limits}

theorem linkBlock_blocks {program : Program} {block : BlockDeclaration}
    {linked : Logged (Program × Nat)} (h : program.linkBlock block = .ok linked) :
    ∃ more, linked.value.1.blocks = program.blocks ++ more ∧
      ∀ b ∈ more, b.registers.get stage = none := by
  obtain ⟨-, hsame⟩ | ⟨-, members, finish, -, hadd⟩ := linkBlock_cases h
  · rw [hsame]
    exact ⟨[], (List.append_nil _).symm, fun _ hb => absurd hb List.not_mem_nil⟩
  · rw [hadd]
    refine ⟨_, rfl, ?_⟩
    intro b hb
    rw [← BlockDeclaration.map_unbound_entries] at hb
    obtain ⟨entry, -, rfl⟩ := List.mem_map.mp hb
    exact PerStage.get_both ..

theorem assignBlock_of_new {allocator : Allocator} {block : BlockDeclaration}
    (hnew : allocator.blockRegister? block.decl.name = none) :
    (allocator.assignBlock block).register = allocator.blocks ∧
      (allocator.assignBlock block).allocator.blocks =
        clampWord (allocator.blocks.toNat + block.decl.elementCount) ∧
      ∀ name, name ≠ block.decl.name →
        (allocator.assignBlock block).allocator.blockRegister? name =
          allocator.blockRegister? name := by
  unfold Allocator.assignBlock
  rw [hnew]
  refine ⟨rfl, rfl, ?_⟩
  intro name hname
  simp only [Allocator.blockRegister?]
  rw [List.lookup_cons, beq_false_of_ne hname]

/-- The state of a stage between two blocks: the slots so far are below the counter of the
allocator, which does not know the blocks to come. -/
structure StageReady (stage : Stage) (limits : StageLimits) (program : Program) (allocator : Allocator)
    (blocks : List BlockDeclaration) : Prop where
  slots : program.blocks.SlotsBelow stage limits allocator.blocks.toNat
  names : (blocks.map fun block => block.decl.name).Nodup
  new : ∀ block ∈ blocks, allocator.blockRegister? block.decl.name = none

theorem StageReady.linkBlock {program : Program} {allocator : Allocator} {block : BlockDeclaration}
    {blocks : List BlockDeclaration} {linked : Logged (Program × Nat)}
    (h : StageReady stage (limits.get stage) program allocator blocks)
    (hlink : program.linkBlock block = .ok linked) :
    StageReady stage (limits.get stage) linked.value.1 allocator blocks ∧
      linked.value.1.blocks.GoesOn program.blocks stage [] := by
  obtain ⟨more, hblocks, hmore⟩ := @linkBlock_blocks stage _ _ _ hlink
  have hgoes := @BlockTable.goesOn_append program.blocks stage more hmore
  rw [← hblocks] at hgoes
  refine ⟨⟨?_, h.names, h.new⟩, hgoes⟩
  rw [hblocks]
  exact h.slots.append hmore

/-- One block of a stage: if it is used, it gets slots in a row behind those of the blocks before
it. -/
theorem StageReady.bindIfUsed {program : Program} {allocator : Allocator} {block : BlockDeclaration}
    {blocks : List BlockDeclaration}
    (hlimit : (limits.get stage).reservedBlocks.toNat + (limits.get stage).maxBlocks.toNat ≤ maxWord)
    (h : StageReady stage (limits.get stage) program allocator (block :: blocks))
    (hok : (program.bindIfUsed stage limits block allocator).value.error = none) :
    StageReady stage (limits.get stage)
        (program.bindIfUsed stage limits block allocator).value.program
        (program.bindIfUsed stage limits block allocator).value.allocator blocks ∧
      (program.bindIfUsed stage limits block allocator).value.program.blocks.GoesOn program.blocks
        stage ((usedBlocks [block]).map fun block => block.decl.name) ∧
      (block.decl.staticUse = true → ∃ first base,
        (program.bindIfUsed stage limits block allocator).value.program.blocks.HasSlots stage
          block.decl.name block.decl.elementCount first base) := by
  obtain ⟨hother, hnames⟩ := List.nodup_cons.mp h.names
  by_cases hused : block.decl.staticUse = true
  · rw [Program.bindIfUsed, if_pos hused] at hok ⊢
    obtain ⟨hregister, hcounter, hkept⟩ := assignBlock_of_new (h.new block List.mem_cons_self)
    have hbound : (program.blocks.bind stage block.decl.name (allocator.assignBlock block).register
      block.decl.elementCount (limits.get stage)).2 = none := hok
    have hslots := h.slots
    rw [← hregister] at hslots
    obtain ⟨hfits, hslots⟩ := hslots.bind hlimit hbound
    have hgoes := BlockTable.goesOn_bind hbound
    have hne : ∀ other ∈ blocks, other.decl.name ≠ block.decl.name := fun other hmem heq =>
      hother (List.mem_map.mpr ⟨other, hmem, heq⟩)
    refine ⟨⟨?_, hnames, ?_⟩, ?_, ?_⟩
    · change BlockTable.SlotsBelow _ stage _ (allocator.assignBlock block).allocator.blocks.toNat
      rw [hcounter, toNat_clampWord, ← hregister, Nat.min_eq_left hfits]
      exact hslots
    · intro other hmem
      exact (hkept _ (hne other hmem)).trans (h.new other (List.mem_cons_of_mem _ hmem))
    · have hself : usedBlocks [block] = [block] := by simp [usedBlocks, hused]
      rw [hself]
      exact hgoes
    · intro _
      obtain ⟨first, hfirst⟩ := BlockTable.hasSlots_bind hlimit hbound
      exact ⟨first, _, hfirst⟩
  · rw [Program.bindIfUsed, if_neg hused]
    refine ⟨⟨h.slots, hnames, ?_⟩, ?_, fun huse => absurd huse hused⟩
    · exact fun other hmem => h.new other (List.mem_cons_of_mem _ hmem)
    · have hself : usedBlocks [block] = [] := by simp [usedBlocks, hused]
      rw [hself]
      exact .refl _ stage

theorem StageReady.linkStage {program : Program} {allocator : Allocator}
    {blocks : List BlockDeclaration} {linked : Logged StageLink}
    (hlimit : (limits.get stage).reservedBlocks.toNat + (limits.get stage).maxBlocks.toNat ≤ maxWord)
    (h : StageReady stage (limits.get stage) program allocator blocks)
    (hlink : linkStage stage limits blocks program allocator = .ok linked)
    (hok : linked.value.error = none) :
    (∃ next, linked.value.program.blocks.SlotsBelow stage (limits.get stage) next) ∧
      linked.value.program.blocks.GoesOn program.blocks stage
        ((usedBlocks blocks).map fun block => block.decl.name) ∧
      ∀ block ∈ blocks, block.decl.staticUse = true → ∃ first base,
        linked.value.program.blocks.HasSlots stage block.decl.name block.decl.elementCount first
          base := by
  induction blocks generalizing program allocator linked with
  | nil =>
    cases hlink
    exact ⟨⟨_, h.slots⟩, .refl _ stage, by simp⟩
  | cons block blocks ih =>
    obtain ⟨added, hadded, hlink⟩ := bind_eq_ok.mp hlink
    obtain ⟨hready, hgrown⟩ := h.linkBlock hadded
    dsimp only at hlink
    split at hlink
    case h_1 herror =>
      cases hlink
      rw [hok] at herror
      cases herror
    case h_2 hnone =>
      obtain ⟨rest, hrest, hlink⟩ := bind_eq_ok.mp hlink
      cases hlink
      obtain ⟨hready, hbound, hself⟩ := hready.bindIfUsed hlimit hnone
      obtain ⟨hslots, hgoes, hhas⟩ := @ih _ _ rest hready hrest hok
      have hsplit : usedBlocks (block :: blocks) = usedBlocks [block] ++ usedBlocks blocks :=
        @List.filter_append _ _ [block] blocks
      refine ⟨hslots, ?_, ?_⟩
      · rw [hsplit, List.map_append]
        exact hgoes.trans (hbound.trans hgrown)
      · intro other hmem hused
        rcases List.mem_cons.mp hmem with rfl | hmem
        · -- The blocks that follow have other names, so that this one stays as it was bound.
          obtain ⟨first, base, hfirst⟩ := hself hused
          refine ⟨first, base, hfirst.goesOn hgoes ?_⟩
          intro hin
          obtain ⟨later, hlater, hname⟩ := List.mem_map.mp hin
          have hnot := (List.nodup_cons.mp h.names).1
          exact hnot (List.mem_map.mpr ⟨later, (List.mem_filter.mp hlater).1, hname⟩)
        · exact hhas other hmem hused

/-- If a stage is linked without an error, every element of every block that it uses has a slot of
its own, which the program may use, and what it does not use has none. -/
theorem linkStage_slots {calls : List Call} {program : Program} {blocks : List BlockDeclaration}
    {allocator : Allocator} {linked : Logged StageLink}
    (hcalls : calls.foldlM perform .empty = .ok program)
    (hunbound : ∀ b ∈ program.blocks, b.registers.get stage = none)
    (hnames : (blocks.map fun block => block.decl.name).Nodup) (hfresh : allocator.blockSlots = [])
    (hlimit : (limits.get stage).reservedBlocks.toNat + (limits.get stage).maxBlocks.toNat ≤ maxWord)
    (h : linkStage stage limits blocks program allocator = .ok linked)
    (hok : linked.value.error = none) :
    (∀ block ∈ blocks, block.decl.staticUse = true → ∃ first base,
      linked.value.program.blocks.index? block.decl.name = some first ∧
      ∀ e < block.decl.elementCount, ∃ b slot,
        linked.value.program.blocks[first + e]? = some b ∧ b.name = block.decl.name ∧
        (b.element = none ∧ e = 0 ∨ b.element = some (UInt32.ofNat e)) ∧
        b.registers.get stage = some slot ∧ slot.toNat = base + e) ∧
    (∀ (i j : Nat) (b c : BlockEntry) (slot : UInt32), linked.value.program.blocks[i]? = some b →
      linked.value.program.blocks[j]? = some c → b.registers.get stage = some slot →
      c.registers.get stage = some slot → i = j) ∧
    (∀ b ∈ linked.value.program.blocks, ∀ slot, b.registers.get stage = some slot →
      (limits.get stage).reservedBlocks.toNat ≤ slot.toNat ∧
      slot.toNat < (limits.get stage).reservedBlocks.toNat + (limits.get stage).maxBlocks.toNat) ∧
    ∀ b ∈ linked.value.program.blocks,
      (∀ block ∈ blocks, block.decl.name = b.name → block.decl.staticUse = false) →
      b.registers.get stage = none := by
  have hready : StageReady stage (limits.get stage) program allocator blocks := by
    refine ⟨BlockTable.slotsBelow_of_unbound hunbound _, hnames, ?_⟩
    intro block _
    rw [Allocator.blockRegister?, hfresh]
    rfl
  obtain ⟨⟨next, hslots⟩, hgoes, hhas⟩ := hready.linkStage hlimit h hok
  have hassembled := isAssembled_linkStage
    (isAssembled_foldlM_perform (show Program.empty.IsAssembled from .empty) hcalls) h
  have hagrees := BlockTable.agrees_of_map_unbound hassembled.agrees
  refine ⟨?_, hslots.distinct, ?_, ?_⟩
  · intro block hblock hused
    obtain ⟨first, base, hfirst, hbound⟩ := hhas block hblock hused
    refine ⟨first, base, hfirst, ?_⟩
    intro e he
    obtain ⟨b, slot, hb, hname, hslot⟩ := hbound e he
    obtain ⟨first', run, hrun, -⟩ := hagrees.members b (List.mem_of_getElem? hb)
    rw [hname] at hrun
    obtain rfl : first' = first := Option.some.inj (hrun.index?.symm.trans hfirst)
    exact ⟨b, slot, hb, hname, hrun.element hb hname, hslot⟩
  · intro b hb slot hslot
    exact of_decide_eq_true (hslots.admitted b hb slot hslot).1
  · intro b hb hunused
    refine hgoes.free ?_ (fun c hc _ => hunbound c hc) b hb rfl
    intro hin
    obtain ⟨block, hblock, hname⟩ := List.mem_map.mp hin
    obtain ⟨hmem, hused⟩ := List.mem_filter.mp hblock
    rw [hunused block hmem hname] at hused
    cases hused

def vertexCalls : List Call :=
  [.request (.stageBlocks .vertex .d3d11
    [⟨⟨"Lamps", 3, false, true⟩, .standard,
      [.basic ⟨"power", 0, false, true⟩ (.vector .float .one)]⟩, materialBlock]
    (.start .hlsl11 .vertex))]

def fragmentBlocks : List BlockDeclaration :=
  [⟨⟨"Fog", 0, false, true⟩, .standard, [.basic ⟨"color", 0, false, true⟩ (.vector .float .four)]⟩,
    ⟨⟨"Lamps", 2, false, true⟩, .standard, []⟩,
    ⟨⟨"Bones", 4, false, false⟩, .packed, []⟩]

theorem linkStage_slots_fragmentBlocks :
    ∃ program linked, vertexCalls.foldlM perform .empty = .ok program ∧
      linkStage .fragment .d3d11 fragmentBlocks program (.start .hlsl11 .fragment) = .ok linked ∧
      (∀ block ∈ fragmentBlocks, block.decl.staticUse = true → ∃ first base,
        linked.value.program.blocks.index? block.decl.name = some first ∧
        ∀ e < block.decl.elementCount, ∃ b slot,
          linked.value.program.blocks[first + e]? = some b ∧ b.name = block.decl.name ∧
          (b.element = none ∧ e = 0 ∨ b.element = some (UInt32.ofNat e)) ∧
          b.registers.get .fragment = some slot ∧ slot.toNat = base + e) ∧
      (∀ (i j : Nat) (b c : BlockEntry) (slot : UInt32), linked.value.program.blocks[i]? = some b →
        linked.value.program.blocks[j]? = some c → b.registers.get .fragment = some slot →
        c.registers.get .fragment = some slot → i = j) ∧
      (∀ b ∈ linked.value.program.blocks, ∀ slot, b.registers.get .fragment = some slot →
        2 ≤ slot.toNat ∧ slot.toNat < 14) ∧
      ∀ b ∈ linked.value.program.blocks,
        (∀ block ∈ fragmentBlocks, block.decl.name = b.name → block.decl.staticUse = false) →
        b.registers.get .fragment = none := by
  refine ⟨_, _, rfl, rfl, ?_⟩
  exact @linkStage_slots .fragment .d3d11 vertexCalls _ fragmentBlocks (.start .hlsl11 .fragment) _ rfl
    (by decide +kernel) (by decide) rfl (by decide) rfl (by decide +kernel)

end Program

end ShaderInterface
