import ShaderInterface.Proofs.BlockSlots

namespace ShaderInterface

/-- A slot that the program may use, in unbounded numbers. -/
def StageLimits.InRange (limits : StageLimits) (slot : Nat) : Prop :=
  limits.reservedBlocks.toNat ≤ slot ∧
    slot < limits.reservedBlocks.toNat + limits.maxBlocks.toNat

instance (limits : StageLimits) (slot : Nat) : Decidable (limits.InRange slot) :=
  inferInstanceAs (Decidable (_ ∧ _))

theorem StageLimits.admitsBlock_clampWord (limits : StageLimits) (n : Nat) :
    limits.admitsBlock (clampWord n) = true ↔ limits.InRange (min n maxWord) := by
  simp [admitsBlock, InRange]

namespace BlockTable

/-- A table in three parts, of which the middle one holds the entries of a name. -/
structure Stands (table : BlockTable) (name : String) (before run after : BlockTable) : Prop where
  split : table = before ++ (run ++ after)
  name_eq : ∀ b ∈ run, b.name = name
  before_ne : ∀ b ∈ before, b.name ≠ name
  after_ne : ∀ b ∈ after, b.name ≠ name

/-- The entries of each name stand together. -/
def Contiguous (table : BlockTable) : Prop :=
  ∀ name, ∃ before run after, table.Stands name before run after

def entryCount (table : BlockTable) (name : String) : Nat := table.countP fun b => b.name = name

/-- The first of `count` elements that cannot be bound: it has no entry, or its slot is out of
range. -/
structure StopsAt (table : BlockTable) (name : String) (register : UInt32) (count : Nat)
    (limits : StageLimits) (e : Nat) : Prop where
  lt_count : e < count
  fails : e = table.entryCount name ∨ ¬limits.InRange (min (register.toNat + e) maxWord)
  first : ∀ earlier < e, earlier ≠ table.entryCount name ∧
    limits.InRange (min (register.toNat + earlier) maxWord)

/-- A table with `count` of the entries of another, from `first` on, bound to slots in a row for a
stage. Nothing else of it is different. -/
structure BoundFrom (bound table : BlockTable) (stage : Stage) (register : UInt32)
    (first count : Nat) : Prop where
  length_eq : bound.length = table.length
  slot : ∀ e < count, ∃ b, bound[first + e]? = some b ∧
    b.registers.get stage = some (clampWord (register.toNat + e))
  other_entry : ∀ i, i < first ∨ first + count ≤ i → bound[i]? = table[i]?
  other_stage : ∀ (i : Nat) (b c : BlockEntry), table[i]? = some b → bound[i]? = some c →
    ∀ other ≠ stage, c.registers.get other = b.registers.get other
  fields : ∀ (i : Nat) (b c : BlockEntry), table[i]? = some b → bound[i]? = some c →
    c.name = b.name ∧ c.element = b.element ∧ c.size = b.size ∧ c.members = b.members

section Run

variable {stage : Stage} {name : String} {register : UInt32} {limits : StageLimits}

theorem bindRun_append {done : BlockTable} (rest : BlockTable) (count element : Nat)
    (hnames : ∀ b ∈ done, b.name = name)
    (hrange : ∀ e < done.length, limits.InRange (min (register.toNat + (element + e)) maxWord)) :
    bindRun stage name register limits (done.length + count) element (done ++ rest) =
      (done.mapIdx (fun e b => b.setRegister stage (clampWord (register.toNat + (element + e)))) ++
          (bindRun stage name register limits count (element + done.length) rest).1,
        (bindRun stage name register limits count (element + done.length) rest).2) := by
  induction done generalizing element with
  | nil => simp
  | cons b done ih =>
    have hname := hnames b List.mem_cons_self
    have hfirst := hrange 0 (Nat.zero_lt_succ _)
    rw [Nat.add_zero, ← limits.admitsBlock_clampWord] at hfirst
    have hrest : ∀ e < done.length,
        limits.InRange (min (register.toNat + (element + 1 + e)) maxWord) := by
      intro e he
      have hnext := hrange (e + 1) (Nat.succ_lt_succ he)
      rwa [show element + (e + 1) = element + 1 + e by omega] at hnext
    have htail := ih (element + 1) (fun c hc => hnames c (List.mem_cons_of_mem _ hc)) hrest
    have hcount : (b :: done).length + count = done.length + count + 1 := by simp; omega
    have hlength : element + (b :: done).length = element + 1 + done.length := by simp; omega
    have hshift (e : Nat) : element + 1 + e = element + (e + 1) := by omega
    rw [hcount, hlength, List.cons_append, bindRun, if_pos hname, if_pos hfirst, htail,
      List.mapIdx_cons]
    simp only [hshift, Nat.add_zero, List.cons_append]

theorem bindRun_of_other {table : BlockTable} (count element : Nat)
    (h : ∀ b ∈ table, b.name ≠ name) :
    bindRun stage name register limits (count + 1) element table =
      (table, some (.unknownBlock name)) := by
  cases table with
  | nil => rfl
  | cons b table => rw [bindRun, if_neg (h b List.mem_cons_self)]

theorem bindRun_of_not_inRange {b : BlockEntry} (table : BlockTable) (count element : Nat)
    (hname : b.name = name)
    (hrange : ¬limits.InRange (min (register.toNat + element) maxWord)) :
    bindRun stage name register limits (count + 1) element (b :: table) =
      (b.setRegister stage (clampWord (register.toNat + element)) :: table,
        some (.tooManyBlocks stage name (clampWord (register.toNat + element)) limits.maxBlocks)) := by
  rw [← limits.admitsBlock_clampWord] at hrange
  rw [bindRun, if_pos hname, if_neg hrange]

theorem bind_append_of_ne {before : BlockTable} (table : BlockTable) (count : Nat)
    (h : ∀ b ∈ before, b.name ≠ name) :
    bind (before ++ table) stage name register count limits =
      (before ++ (bind table stage name register count limits).1,
        (bind table stage name register count limits).2) := by
  induction before with
  | nil => rfl
  | cons b before ih =>
    have hrest := ih fun c hc => h c (List.mem_cons_of_mem _ hc)
    rw [List.cons_append, bind_cons_of_ne _ (h b List.mem_cons_self), hrest]
    rfl

end Run

theorem mapIdx_eq_self {f : Nat → BlockEntry → BlockEntry} {table : BlockTable}
    (h : ∀ i < table.length, ∀ b, f i b = b) : table.mapIdx f = table := by
  apply List.ext_getElem?
  intro i
  rw [List.getElem?_mapIdx]
  by_cases hi : i < table.length
  · rw [List.getElem?_eq_getElem hi, Option.map_some, h i hi]
  · rw [List.getElem?_eq_none (by omega)]
    rfl

theorem mapIdx_withSlot (stage : Stage) (register : UInt32) (before done rest : BlockTable) :
    (before ++ (done ++ rest)).mapIdx (withSlot stage register before.length done.length) =
      before ++ (done.mapIdx (fun e b => b.setRegister stage (clampWord (register.toNat + e))) ++
        rest) := by
  have hbefore : before.mapIdx (withSlot stage register before.length done.length) = before := by
    apply mapIdx_eq_self
    intro i hi b
    rw [withSlot, if_neg (by omega)]
  have hrest : (rest.mapIdx fun i => withSlot stage register before.length done.length
      (i + done.length + before.length)) = rest := by
    apply mapIdx_eq_self
    intro i _ b
    rw [withSlot, if_neg (by omega)]
  have hdone : (done.mapIdx fun i => withSlot stage register before.length done.length
      (i + before.length)) =
        done.mapIdx fun e b => b.setRegister stage (clampWord (register.toNat + e)) := by
    apply List.ext_getElem?
    intro i
    rw [List.getElem?_mapIdx, List.getElem?_mapIdx]
    by_cases hi : i < done.length
    · have hoffset : i + before.length - before.length = i := by omega
      rw [List.getElem?_eq_getElem hi, Option.map_some, Option.map_some, withSlot,
        if_pos (by omega), hoffset]
    · rw [List.getElem?_eq_none (by omega)]
      rfl
  rw [List.mapIdx_append, List.mapIdx_append, hbefore, hdone, hrest]

theorem other_stage_withSlot {stage other : Stage} (hother : other ≠ stage) (register : UInt32)
    (first count index : Nat) (b : BlockEntry) :
    (withSlot stage register first count index b).registers.get other = b.registers.get other := by
  rw [withSlot]
  split
  case isTrue => rw [BlockEntry.registers_setRegister, PerStage.get_set_of_ne _ _ hother]
  case isFalse => rfl

theorem boundFrom_mapIdx_withSlot {table : BlockTable} (stage : Stage) (register : UInt32)
    {first count : Nat} (h : first + count ≤ table.length) :
    BoundFrom (table.mapIdx (withSlot stage register first count)) table stage register first
      count where
  length_eq := List.length_mapIdx
  slot := by
    intro e he
    have hin : first + e < table.length := by omega
    refine ⟨withSlot stage register first count (first + e) table[first + e], ?_, ?_⟩
    · rw [List.getElem?_mapIdx, List.getElem?_eq_getElem hin, Option.map_some]
    · rw [withSlot, if_pos (by omega), Nat.add_sub_cancel_left, BlockEntry.registers_setRegister,
        PerStage.get_set]
  other_entry := by
    intro i hi
    have hsame : withSlot stage register first count i = id := by
      funext b
      exact if_neg (by omega)
    rw [List.getElem?_mapIdx, hsame, Option.map_id_fun, id]
  other_stage := by
    intro i b c hb hc other hother
    rw [List.getElem?_mapIdx, hb, Option.map_some] at hc
    cases hc
    exact other_stage_withSlot hother ..
  fields := by
    intro i b c hb hc
    rw [List.getElem?_mapIdx, hb, Option.map_some] at hc
    cases hc
    rw [withSlot]
    split <;> exact ⟨rfl, rfl, rfl, rfl⟩

section Stands

variable {table before run after : BlockTable} {stage : Stage} {name : String} {register : UInt32}
  {limits : StageLimits} {count : Nat}

theorem Stands.entryCount_eq (h : table.Stands name before run after) :
    table.entryCount name = run.length := by
  have hbefore : before.countP (fun b => b.name = name) = 0 := by
    simpa [List.countP_eq_zero] using h.before_ne
  have hafter : after.countP (fun b => b.name = name) = 0 := by
    simpa [List.countP_eq_zero] using h.after_ne
  have hrun : run.countP (fun b => b.name = name) = run.length := by
    simpa [List.countP_eq_length] using h.name_eq
  rw [entryCount, h.split, List.countP_append, List.countP_append, hbefore, hafter, hrun]
  omega

theorem Stands.index?_eq (h : table.Stands name before run after) (hrun : 1 ≤ run.length) :
    table.index? name = some before.length := by
  cases run with
  | nil => cases hrun
  | cons b run =>
    refine index?_eq_some.mpr ⟨⟨b, ?_, h.name_eq b List.mem_cons_self⟩, ?_⟩
    · simp [h.split]
    · intro j hj c hc
      rw [h.split, List.getElem?_append_left hj] at hc
      exact h.before_ne c (List.mem_of_getElem? hc)

theorem Stands.bind_of_entryCount_eq_zero (h : table.Stands name before run after)
    (hzero : table.entryCount name = 0) :
    table.bind stage name register count limits = (table, some (.unknownBlock name)) := by
  obtain rfl : run = [] := List.eq_nil_of_length_eq_zero (h.entryCount_eq.symm.trans hzero)
  have hother : ∀ b ∈ table, b.name ≠ name := by
    intro b hb
    rw [h.split, List.nil_append] at hb
    rcases List.mem_append.mp hb with hb | hb
    · exact h.before_ne b hb
    · exact h.after_ne b hb
  have hall := @bind_append_of_ne stage name register limits table [] count hother
  rw [List.append_nil] at hall
  rw [hall]
  simp [bind]

theorem Stands.bind_of_inRange (h : table.Stands name before run after) (hrun : 1 ≤ run.length)
    {done : Nat} (hdone : done ≤ run.length)
    (hrange : ∀ e < done, limits.InRange (min (register.toNat + e) maxWord)) :
    table.bind stage name register (done + count) limits =
      (before ++ ((run.take done).mapIdx
            (fun e b => b.setRegister stage (clampWord (register.toNat + e))) ++
          (bindRun stage name register limits count done (run.drop done ++ after)).1),
        (bindRun stage name register limits count done (run.drop done ++ after)).2) := by
  have hlength : (run.take done).length = done := List.length_take_of_le hdone
  have hwhole : run ++ after = run.take done ++ (run.drop done ++ after) := by
    rw [← List.append_assoc, List.take_append_drop]
  have hnames : ∀ b ∈ run.take done, b.name = name := fun b hb =>
    h.name_eq b (List.mem_of_mem_take hb)
  have hfirst := @bindRun_append stage name register limits (run.take done) (run.drop done ++ after)
    count 0 hnames (by simpa [hlength] using hrange)
  have hbind : bind (run ++ after) stage name register (done + count) limits =
      bindRun stage name register limits (done + count) 0 (run ++ after) := by
    cases run with
    | nil => cases hrun
    | cons b run => exact bind_cons_of_eq _ (h.name_eq b List.mem_cons_self)
  simp only [hlength, Nat.zero_add, ← hwhole] at hfirst
  rw [h.split, bind_append_of_ne _ _ h.before_ne, hbind, hfirst]

theorem Stands.mapIdx_withSlot (h : table.Stands name before run after) {done : Nat}
    (hdone : done ≤ run.length) :
    table.mapIdx (withSlot stage register before.length done) =
      before ++ ((run.take done).mapIdx
          (fun e b => b.setRegister stage (clampWord (register.toNat + e))) ++
        (run.drop done ++ after)) := by
  have hlength : (run.take done).length = done := List.length_take_of_le hdone
  have hslots := BlockTable.mapIdx_withSlot stage register before (run.take done)
    (run.drop done ++ after)
  rwa [hlength, ← List.append_assoc (run.take done), List.take_append_drop, ← h.split] at hslots

theorem Stands.boundFrom (h : table.Stands name before run after) (stage : Stage)
    (register : UInt32) {done : Nat} (hdone : done ≤ run.length) :
    BoundFrom (table.mapIdx (withSlot stage register before.length done)) table stage register
      before.length done := by
  apply boundFrom_mapIdx_withSlot
  rw [h.split, List.length_append, List.length_append]
  omega

theorem Stands.bind_of_all (h : table.Stands name before run after) (hrun : 1 ≤ run.length)
    (hcount : count ≤ run.length)
    (hrange : ∀ e < count, limits.InRange (min (register.toNat + e) maxWord)) :
    table.bind stage name register count limits =
      (table.mapIdx (withSlot stage register before.length count), none) := by
  have hbound := @Stands.bind_of_inRange _ _ _ _ stage _ register limits 0 h hrun _ hcount hrange
  rw [Nat.add_zero] at hbound
  rw [hbound, h.mapIdx_withSlot hcount]
  simp [bindRun]

theorem Stands.bind_of_missing (h : table.Stands name before run after) (hrun : 1 ≤ run.length)
    (hcount : run.length < count)
    (hrange : ∀ e < run.length, limits.InRange (min (register.toNat + e) maxWord)) :
    table.bind stage name register count limits =
      (table.mapIdx (withSlot stage register before.length run.length),
        some (.unknownBlock name)) := by
  obtain ⟨more, rfl⟩ : ∃ more, count = run.length + (more + 1) := ⟨count - run.length - 1, by omega⟩
  have hbound := @Stands.bind_of_inRange _ _ _ _ stage _ register limits (more + 1) h hrun _
    (Nat.le_refl _) hrange
  rw [hbound, h.mapIdx_withSlot (Nat.le_refl _), List.drop_length, List.nil_append,
    bindRun_of_other _ _ h.after_ne]

/-- The slot of an element is out of range, and is written nevertheless. -/
theorem Stands.bind_of_not_inRange (h : table.Stands name before run after) {e : Nat}
    (he : e < run.length) (hcount : e < count)
    (hbad : ¬limits.InRange (min (register.toNat + e) maxWord))
    (hrange : ∀ earlier < e, limits.InRange (min (register.toNat + earlier) maxWord)) :
    table.bind stage name register count limits =
      (table.mapIdx (withSlot stage register before.length (e + 1)),
        some (.tooManyBlocks stage name (clampWord (register.toNat + e)) limits.maxBlocks)) := by
  obtain ⟨more, rfl⟩ : ∃ more, count = e + (more + 1) := ⟨count - e - 1, by omega⟩
  have hbound := @Stands.bind_of_inRange _ _ _ _ stage _ register limits (more + 1) h (by omega) _
    (Nat.le_of_lt he) hrange
  have hname : run[e].name = name := h.name_eq _ (List.getElem_mem he)
  have hlength : (run.take e).length = e := List.length_take_of_le (Nat.le_of_lt he)
  rw [hbound, h.mapIdx_withSlot he, List.drop_eq_getElem_cons he, List.cons_append,
    bindRun_of_not_inRange _ _ _ hname hbad, List.take_succ_eq_append_getElem he,
    List.mapIdx_append]
  simp [hlength]

end Stands

section Outcome

variable {table : BlockTable} {name : String} {register : UInt32} {limits : StageLimits}

/-- Either all elements can be bound, or there is a first one that cannot. -/
theorem all_or_stopsAt (table : BlockTable) (name : String) (register : UInt32) (count : Nat)
    (limits : StageLimits) :
    (count ≤ table.entryCount name ∧
        ∀ e < count, limits.InRange (min (register.toNat + e) maxWord)) ∨
      ∃ e, table.StopsAt name register count limits e := by
  induction count with
  | zero => exact .inl ⟨Nat.zero_le _, fun e he => absurd he (Nat.not_lt_zero e)⟩
  | succ count ih =>
    rcases ih with ⟨hcount, hrange⟩ | ⟨e, hstop⟩
    · by_cases hfails : count = table.entryCount name ∨
          ¬limits.InRange (min (register.toNat + count) maxWord)
      · right
        refine ⟨count, Nat.lt_succ_self count, hfails, ?_⟩
        intro earlier hearlier
        exact ⟨by omega, hrange earlier hearlier⟩
      · left
        obtain ⟨hne, hlast⟩ := not_or.mp hfails
        refine ⟨by omega, ?_⟩
        intro e he
        rcases Nat.lt_or_eq_of_le (Nat.le_of_lt_succ he) with he | rfl
        · exact hrange e he
        · exact Classical.not_not.mp hlast
    · exact .inr ⟨e, Nat.lt_succ_of_lt hstop.lt_count, hstop.fails, hstop.first⟩

theorem StopsAt.le_entryCount {count e : Nat} (h : table.StopsAt name register count limits e) :
    e ≤ table.entryCount name := by
  apply Nat.le_of_not_lt
  intro hlt
  exact (h.first _ hlt).1 rfl

end Outcome

theorem Stands.bind_of_stopsAt {table before run after : BlockTable} {name : String}
    {register : UInt32} {limits : StageLimits} {count e : Nat} (stage : Stage)
    (h : table.Stands name before run after) (hrun : 1 ≤ run.length)
    (hstop : table.StopsAt name register count limits e) :
    table.bind stage name register count limits =
      if e = table.entryCount name then
        (table.mapIdx (withSlot stage register before.length e), some (.unknownBlock name))
      else
        (table.mapIdx (withSlot stage register before.length (e + 1)),
          some (.tooManyBlocks stage name (clampWord (register.toNat + e)) limits.maxBlocks)) := by
  have hfound := h.entryCount_eq
  have hle := hstop.le_entryCount
  have hrange : ∀ earlier < e, limits.InRange (min (register.toNat + earlier) maxWord) :=
    fun earlier hearlier => (hstop.first earlier hearlier).2
  by_cases hend : e = table.entryCount name
  · obtain rfl : e = run.length := hend.trans hfound
    rw [if_pos hend]
    exact h.bind_of_missing hrun hstop.lt_count hrange
  · rw [if_neg hend]
    exact h.bind_of_not_inRange (by omega) hstop.lt_count (hstop.fails.resolve_left hend) hrange

theorem Stands.bind_eq_none_iff {table before run after : BlockTable} {name : String}
    {register : UInt32} {limits : StageLimits} {count : Nat} (stage : Stage)
    (h : table.Stands name before run after) :
    (table.bind stage name register count limits).2 = none ↔
      1 ≤ table.entryCount name ∧ count ≤ table.entryCount name ∧
        ∀ e < count, limits.InRange (min (register.toNat + e) maxWord) := by
  have hfound := h.entryCount_eq
  constructor
  · intro hok
    rcases Nat.eq_zero_or_pos (table.entryCount name) with hzero | hpos
    · rw [h.bind_of_entryCount_eq_zero hzero] at hok
      cases hok
    · rcases table.all_or_stopsAt name register count limits with hrange | ⟨e, hstop⟩
      · exact ⟨hpos, hrange⟩
      · rw [h.bind_of_stopsAt stage (hfound ▸ hpos) hstop] at hok
        split at hok <;> cases hok
  · rintro ⟨hpos, hcount, hrange⟩
    rw [hfound] at hpos hcount
    rw [h.bind_of_all hpos hcount hrange]

theorem IsRun.exists_stands {table run : BlockTable} {name : String} {first : Nat}
    (h : table.IsRun name first run) : ∃ before after, table.Stands name before run after := by
  obtain ⟨before, after, hsplit, -, hother⟩ := h.stands
  refine ⟨before, after, ?_, h.name_eq, ?_, ?_⟩
  · rw [hsplit, List.append_assoc]
  · exact fun b hb => hother b (List.mem_append_left _ hb)
  · exact fun b hb => hother b (List.mem_append_right _ hb)

end BlockTable

/-- Whatever a program was asked to do, the entries of each of its blocks stand together. -/
theorem Program.contiguous_foldlM_perform {calls : List Call} {program : Program}
    (h : calls.foldlM perform .empty = .ok program) : program.blocks.Contiguous := by
  have hagrees := agrees_foldlM_perform h
  intro name
  by_cases hname : ∃ b ∈ program.blocks, b.name = name
  · obtain ⟨b, hb, rfl⟩ := hname
    obtain ⟨first, run, hrun, -⟩ := hagrees.members b hb
    obtain ⟨before, after, hstands⟩ := hrun.exists_stands
    exact ⟨before, run, after, hstands⟩
  · refine ⟨program.blocks, [], [], by simp, by simp, ?_, by simp⟩
    intro b hb heq
    exact hname ⟨b, hb, heq⟩

namespace BlockTable

/-- Binding succeeds just if the name has entries for all elements and all slots are in range. Else
it stops at the first element without an entry, or at the first slot out of range, which is still
written. -/
theorem bind_outcome {table : BlockTable} (h : table.Contiguous) (stage : Stage) (name : String)
    (register : UInt32) (count : Nat) (limits : StageLimits) :
    ((table.bind stage name register count limits).2 = none ↔
      1 ≤ table.entryCount name ∧ count ≤ table.entryCount name ∧
        ∀ e < count, limits.InRange (min (register.toNat + e) maxWord)) ∧
    ((table.bind stage name register count limits).2 = none → ∃ head,
      table.index? name = some head ∧
        BoundFrom (table.bind stage name register count limits).1 table stage register head count) ∧
    ((table.bind stage name register count limits).2 ≠ none →
      table.entryCount name = 0 ∨ ∃ e, table.StopsAt name register count limits e) ∧
    (table.entryCount name = 0 →
      table.bind stage name register count limits = (table, some (.unknownBlock name))) ∧
    ∀ e, 1 ≤ table.entryCount name → table.StopsAt name register count limits e → ∃ head,
      table.index? name = some head ∧
        if e = table.entryCount name then
          (table.bind stage name register count limits).2 = some (.unknownBlock name) ∧
            BoundFrom (table.bind stage name register count limits).1 table stage register head e
        else
          (table.bind stage name register count limits).2 =
              some (.tooManyBlocks stage name (clampWord (register.toNat + e)) limits.maxBlocks) ∧
            BoundFrom (table.bind stage name register count limits).1 table stage register head
              (e + 1) := by
  obtain ⟨before, run, after, hstands⟩ := h name
  have hfound := hstands.entryCount_eq
  have hiff := @Stands.bind_eq_none_iff _ _ _ _ _ register limits count stage hstands
  refine ⟨hiff, ?_, ?_, hstands.bind_of_entryCount_eq_zero, ?_⟩
  · intro hok
    obtain ⟨hpos, hcount, hrange⟩ := hiff.mp hok
    rw [hfound] at hpos hcount
    refine ⟨before.length, hstands.index?_eq hpos, ?_⟩
    rw [hstands.bind_of_all hpos hcount hrange]
    exact hstands.boundFrom stage register hcount
  · intro herror
    rcases Nat.eq_zero_or_pos (table.entryCount name) with hzero | hpos
    · exact .inl hzero
    · rcases table.all_or_stopsAt name register count limits with hrange | hstop
      · exact absurd (hiff.mpr ⟨hpos, hrange⟩) herror
      · exact .inr hstop
  · intro e hpos hstop
    have hle := hstop.le_entryCount
    rw [hfound] at hpos
    refine ⟨before.length, hstands.index?_eq hpos, ?_⟩
    rw [hstands.bind_of_stopsAt stage hpos hstop]
    split
    case isTrue hend => exact ⟨rfl, hstands.boundFrom stage register (by omega)⟩
    case isFalse hend => exact ⟨rfl, hstands.boundFrom stage register (by omega)⟩

theorem bind_outcome_vertexCalls :
    ∃ program, Program.vertexCalls.foldlM Program.perform .empty = .ok program ∧
      ((program.blocks.bind .fragment "Lamps" 2 2 ⟨0, 1024, 2, 12, 16⟩).2 = none ∧
        BoundFrom (program.blocks.bind .fragment "Lamps" 2 2 ⟨0, 1024, 2, 12, 16⟩).1
          program.blocks .fragment 2 0 2) ∧
      ((program.blocks.bind .fragment "Lamps" 2 5 ⟨0, 1024, 2, 12, 16⟩).2 =
          some (.unknownBlock "Lamps") ∧
        BoundFrom (program.blocks.bind .fragment "Lamps" 2 5 ⟨0, 1024, 2, 12, 16⟩).1
          program.blocks .fragment 2 0 3) ∧
      ((program.blocks.bind .fragment "Lamps" 13 5 ⟨0, 1024, 2, 12, 16⟩).2 =
          some (.tooManyBlocks .fragment "Lamps" 14 12) ∧
        BoundFrom (program.blocks.bind .fragment "Lamps" 13 5 ⟨0, 1024, 2, 12, 16⟩).1
          program.blocks .fragment 13 0 2) ∧
      ((program.blocks.bind .fragment "Lamps" 0 1 ⟨0, 1024, 2, 12, 16⟩).2 =
          some (.tooManyBlocks .fragment "Lamps" 0 12) ∧
        BoundFrom (program.blocks.bind .fragment "Lamps" 0 1 ⟨0, 1024, 2, 12, 16⟩).1
          program.blocks .fragment 0 0 1) ∧
      program.blocks.bind .fragment "Fog" 2 0 ⟨0, 1024, 2, 12, 16⟩ =
        (program.blocks, some (.unknownBlock "Fog")) ∧
      (program.blocks.bind .fragment "Lamps" 13 5 ⟨0, 1024, 2, 12, 16⟩).1 =
        [⟨"Lamps", some 0, 4, [0], ⟨some 2, some 13⟩⟩, ⟨"Lamps", some 1, 4, [0], ⟨some 3, some 14⟩⟩,
          ⟨"Lamps", some 2, 4, [0], ⟨some 4, none⟩⟩,
          ⟨"Material", none, 16, [1], ⟨some 5, none⟩⟩] := by
  have hrun : (Program.vertexCalls.foldlM Program.perform .empty).toOption.map Program.blocks =
      some [⟨"Lamps", some 0, 4, [0], ⟨some 2, none⟩⟩, ⟨"Lamps", some 1, 4, [0], ⟨some 3, none⟩⟩,
        ⟨"Lamps", some 2, 4, [0], ⟨some 4, none⟩⟩, ⟨"Material", none, 16, [1], ⟨some 5, none⟩⟩] := by
    decide +kernel
  cases h : Program.vertexCalls.foldlM Program.perform .empty with
  | error fault =>
    rw [h] at hrun
    cases hrun
  | ok program =>
    rw [h] at hrun
    have hblocks := Option.some.inj hrun
    have hindex : program.blocks.index? "Lamps" = some 0 := by rw [hblocks]; decide
    have hlamps : program.blocks.entryCount "Lamps" = 3 := by rw [hblocks]; decide
    have hcontiguous := Program.contiguous_foldlM_perform h
    -- The outcome of a stop, with the facts about this table put in.
    have hstops (register : UInt32) (count e : Nat) (limits : StageLimits)
        (hstop : program.blocks.StopsAt "Lamps" register count limits e) :
        if e = 3 then
          (program.blocks.bind .fragment "Lamps" register count limits).2 =
              some (.unknownBlock "Lamps") ∧
            BoundFrom (program.blocks.bind .fragment "Lamps" register count limits).1
              program.blocks .fragment register 0 e
        else
          (program.blocks.bind .fragment "Lamps" register count limits).2 =
              some (.tooManyBlocks .fragment "Lamps" (clampWord (register.toNat + e))
                limits.maxBlocks) ∧
            BoundFrom (program.blocks.bind .fragment "Lamps" register count limits).1
              program.blocks .fragment register 0 (e + 1) := by
      obtain ⟨-, -, -, -, hout⟩ :=
        bind_outcome hcontiguous .fragment "Lamps" register count limits
      obtain ⟨head, hhead, hbind⟩ := hout e (by omega) hstop
      obtain rfl : head = 0 := Option.some.inj (hhead.symm.trans hindex)
      rwa [hlamps] at hbind
    refine ⟨program, rfl, ?_, ?_, ?_, ?_, ?_, ?_⟩
    · obtain ⟨hiff, hok, -⟩ :=
        bind_outcome hcontiguous .fragment "Lamps" 2 2 ⟨0, 1024, 2, 12, 16⟩
      have hnone := hiff.mpr (by rw [hlamps]; decide)
      obtain ⟨head, hhead, hbound⟩ := hok hnone
      obtain rfl : head = 0 := Option.some.inj (hhead.symm.trans hindex)
      exact ⟨hnone, hbound⟩
    · refine hstops 2 5 3 _ ⟨by decide, .inl hlamps.symm, ?_⟩
      rw [hlamps]
      decide
    · refine hstops 13 5 1 _ ⟨by decide, .inr (by decide), ?_⟩
      rw [hlamps]
      decide
    · refine hstops 0 1 0 _ ⟨by decide, .inr (by decide), ?_⟩
      rw [hlamps]
      decide
    · apply (bind_outcome hcontiguous .fragment "Fog" 2 0 _).2.2.2.1
      rw [hblocks]
      decide
    · rw [hblocks]
      decide +kernel

end BlockTable

end ShaderInterface
