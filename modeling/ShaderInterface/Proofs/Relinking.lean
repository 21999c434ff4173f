import ShaderInterface.Proofs.BlockSlots
import ShaderInterface.Proofs.StageMerge

namespace ShaderInterface

abbrev Writes := Nat → Option UInt32

namespace Writes

def blank : Writes := fun _ => none

def single (index : Nat) (register : UInt32) : Writes := fun i =>
  if i = index then some register else none

def cons (register : Option UInt32) (writes : Writes) : Writes
  | 0 => register
  | index + 1 => writes index

/-- Some writes and then others, which win. -/
def andThen (first second : Writes) : Writes := fun index => (second index).or (first index)

variable {α : Type}

/-- A table after some writes, where `set` writes into an entry. -/
def apply (writes : Writes) (set : α → UInt32 → α) (table : List α) : List α :=
  table.mapIdx fun index entry => (writes index).elim entry (set entry)

/-- How a table has become another: entries were added, and then all the writes done. -/
structure Lead (writes : Writes) (set : α → UInt32 → α) (table table' : List α) : Prop where
  within : ∀ index, table'.length ≤ index → writes index = none
  grown : ∃ new, table' = writes.apply set (table ++ new)

variable {set : α → UInt32 → α} {table table' : List α}

@[simp] theorem length_apply (writes : Writes) : (writes.apply set table).length = table.length :=
  List.length_mapIdx

@[simp] theorem apply_blank : blank.apply set table = table := by
  apply List.ext_getElem?
  simp [apply, blank]

theorem apply_cons (register : Option UInt32) (writes : Writes) (entry : α) :
    (cons register writes).apply set (entry :: table) =
      register.elim entry (set entry) :: writes.apply set table := by
  rw [apply, List.mapIdx_cons]
  rfl

theorem apply_single (index : Nat) (register : UInt32) :
    (single index register).apply set table = table.modify index (set · register) := by
  apply List.ext_getElem?
  intro i
  rw [apply, List.getElem?_mapIdx, List.getElem?_modify]
  cases table[i]? with
  | none => rfl
  | some entry =>
    by_cases hi : i = index
    · simp [single, hi]
    · simp [single, hi, Ne.symm hi]

theorem map_apply {β : Type} {key : α → β}
    (hkey : ∀ entry register, key (set entry register) = key entry) (writes : Writes) :
    (writes.apply set table).map key = table.map key := by
  apply List.ext_getElem?
  intro i
  rw [apply, List.getElem?_map, List.getElem?_mapIdx, List.getElem?_map, Option.map_map]
  apply congrFun (congrArg Option.map _)
  funext entry
  cases writes i <;> simp [hkey]

theorem apply_append {writes : Writes} (h : ∀ index, table.length ≤ index → writes index = none)
    (new : List α) : writes.apply set (table ++ new) = writes.apply set table ++ new := by
  have hnew : (fun index entry => (writes (index + table.length)).elim entry (set entry)) =
      fun (_ : Nat) (entry : α) => entry := by
    funext index entry
    rw [h _ (Nat.le_add_left ..)]
    rfl
  rw [apply, List.mapIdx_append, hnew]
  exact congrArg (apply writes set table ++ ·) (@apply_blank _ set new)

section Overwriting

variable (hset : ∀ entry first second, set (set entry first) second = set entry second)

include hset

theorem apply_apply (first second : Writes) :
    second.apply set (first.apply set table) = (first.andThen second).apply set table := by
  rw [apply, apply, List.mapIdx_mapIdx]
  apply congrArg (List.mapIdx · table)
  funext index entry
  cases hs : second index <;> cases hf : first index <;> simp [andThen, hs, hf, hset]

/-- Doing writes over again changes nothing. -/
theorem Lead.apply_eq {writes : Writes} (h : writes.Lead set table table') :
    writes.apply set table' = table' := by
  obtain ⟨new, rfl⟩ := h.grown
  rw [apply_apply hset]
  apply congrArg (apply · set (table ++ new))
  funext index
  exact Option.or_self

theorem Lead.trans {table'' : List α} {first second : Writes} (h : first.Lead set table table')
    (h' : second.Lead set table' table'') : (first.andThen second).Lead set table table'' := by
  obtain ⟨new, hnew⟩ := h.grown
  obtain ⟨more, hmore⟩ := h'.grown
  have hlength : table'.length ≤ table''.length := by simp [hmore]
  refine ⟨?_, new ++ more, ?_⟩
  · intro index hindex
    rw [andThen, h'.within index hindex, h.within index (Nat.le_trans hlength hindex)]
    rfl
  · have hwithin : ∀ index, (table ++ new).length ≤ index → first index = none := by
      simpa [hnew] using h.within
    rw [← apply_apply hset, ← List.append_assoc, apply_append hwithin, ← hnew]
    exact hmore

end Overwriting

theorem Lead.refl (set : α → UInt32 → α) (table : List α) : blank.Lead set table table :=
  ⟨fun _ _ => rfl, [], by simp⟩

theorem Lead.of_append {writes : Writes} {new : List α} (h : writes.Lead set (table ++ new) table') :
    writes.Lead set table table' := by
  obtain ⟨more, hmore⟩ := h.grown
  exact ⟨h.within, new ++ more, by rw [← List.append_assoc, hmore]⟩

theorem Lead.cons {writes : Writes} (h : writes.Lead set table table') (register : Option UInt32)
    (entry : α) :
    (cons register writes).Lead set (entry :: table) (register.elim entry (set entry) :: table') := by
  obtain ⟨new, rfl⟩ := h.grown
  refine ⟨?_, new, ?_⟩
  · rintro (_ | index) hindex
    · simp at hindex
    · exact h.within index (Nat.le_of_succ_le_succ hindex)
  · rw [List.cons_append, apply_cons]

theorem Lead.prefix_map {β : Type} {key : α → β} {writes : Writes} (h : writes.Lead set table table')
    (hkey : ∀ entry register, key (set entry register) = key entry) :
    table.map key <+: table'.map key := by
  obtain ⟨new, rfl⟩ := h.grown
  rw [map_apply hkey, List.map_append]
  exact List.prefix_append ..

end Writes

namespace Allocator

theorem uniformRegister?_assignUniform {allocator : Allocator} {v : Variable} {assigned : Assigned}
    (h : allocator.assignUniform v = .ok assigned) :
    assigned.allocator.uniformRegister? v.name = some assigned.register := by
  cases hr : allocator.uniformRegister? v.name with
  | none =>
    obtain ⟨count, -, hregister, htaken⟩ := assignUniform_of_new hr h
    rw [htaken, uniformRegister?_take_self, hregister]
  | some register =>
    rw [assignUniform, hr] at h
    cases h
    exact hr

theorem assignUniform_of_known {allocator : Allocator} {v : Variable} {register : UInt32}
    (h : allocator.uniformRegister? v.name = some register) :
    allocator.assignUniform v = .ok ⟨register, allocator, []⟩ := by
  rw [assignUniform, h]
  rfl

def KeepsBlocks (later earlier : Allocator) : Prop :=
  ∀ name register, earlier.blockRegister? name = some register →
    later.blockRegister? name = some register

theorem assignBlock_of_known {allocator : Allocator} {block : BlockDeclaration} {register : UInt32}
    (h : allocator.blockRegister? block.decl.name = some register) :
    allocator.assignBlock block = ⟨register, allocator, []⟩ := by
  rw [assignBlock, h]

theorem blockRegister?_assignBlock (allocator : Allocator) (block : BlockDeclaration) :
    (allocator.assignBlock block).allocator.blockRegister? block.decl.name =
      some (allocator.assignBlock block).register := by
  unfold assignBlock
  split
  case h_1 hknown => exact hknown
  case h_2 => exact List.lookup_cons_self

theorem assignBlock_keepsBlocks (allocator : Allocator) (block : BlockDeclaration) :
    (allocator.assignBlock block).allocator.KeepsBlocks allocator := by
  intro name register hr
  cases hknown : allocator.blockRegister? block.decl.name with
  | some slot =>
    rw [assignBlock_of_known hknown]
    exact hr
  | none =>
    have hne : name ≠ block.decl.name := by
      rintro rfl
      rw [hknown] at hr
      cases hr
    rw [(Program.assignBlock_of_new hknown).2.2 name hne, hr]

end Allocator

namespace UniformTable

/-- What linking asks of the entries of a table: the name, and the component where the leaf starts. -/
def keys (table : UniformTable) : List (String × UInt32) :=
  table.map fun u => (u.name, u.element)

variable {stage : Stage} {register : UInt32} {leaf : UniformEntry} {table table' : UniformTable}

theorem keys_apply (writes : Writes) (stage : Stage) (table : UniformTable) :
    keys (writes.apply (·.setRegister stage ·) table) = table.keys :=
  Writes.map_apply (by simp) writes

theorem findIdx_lt_of_get? {name : String} {u : UniformEntry} (h : table.get? name = some u) :
    table.findIdx (fun u => u.name = name) < table.length :=
  List.findIdx_lt_length_of_exists
    ⟨u, List.mem_of_find?_eq_some h, decide_eq_true (name_of_get? h)⟩

theorem found_of_prefix_keys {later : UniformTable} {name : String} {u : UniformEntry}
    (hkeys : table.keys <+: later.keys) (h : table.get? name = some u) :
    later.findIdx (fun u => u.name = name) = table.findIdx (fun u => u.name = name) ∧
      ∃ u', later.get? name = some u' ∧ u'.element = u.element := by
  have hfind (t : UniformTable) : t.keys.find? (fun key => key.1 = name) =
      (t.get? name).map fun u => (u.name, u.element) := List.find?_map ..
  have hindex (t : UniformTable) : t.keys.findIdx (fun key => key.1 = name) =
      t.findIdx (fun u => u.name = name) := List.findIdx_map ..
  constructor
  · rw [← hindex, ← hindex]
    apply hkeys.findIdx_eq_of_findIdx_lt_length
    rw [hindex, keys, List.length_map]
    exact findIdx_lt_of_get? h
  · have hkey : table.keys.find? (fun key => key.1 = name) = some (u.name, u.element) := by
      rw [hfind, h]
      rfl
    have hlater := hkeys.find?_eq_some hkey
    rw [hfind] at hlater
    obtain ⟨u', hu', hsame⟩ := Option.map_eq_some_iff.mp hlater
    exact ⟨u', hu', congrArg Prod.snd hsame⟩

theorem prefix_keys {writes : Writes} (h : writes.Lead (·.setRegister stage ·) table table') :
    table.keys <+: table'.keys :=
  h.prefix_map (by simp)

theorem get?_note_self (h : table.note stage register leaf = .ok table') :
    ∃ u, table'.get? leaf.name = some u ∧ u.element = leaf.element := by
  refine ⟨_, by rw [get?_note h, if_pos rfl], ?_⟩
  unfold note at h
  split at h
  case h_1 hnone => rw [hnone]; rfl
  case h_2 entry hsome =>
    split at h
    case isTrue helement => rw [hsome]; exact helement
    case isFalse => cases h

theorem note_lead (h : table.note stage register leaf = .ok table') :
    (Writes.single (table'.findIdx (fun u => u.name = leaf.name)) register).Lead
      (·.setRegister stage ·) table table' := by
  obtain ⟨found, hfound, -⟩ := get?_note_self h
  refine ⟨?_, ?_⟩
  · intro index hindex
    have hlt := findIdx_lt_of_get? hfound
    exact if_neg (by omega)
  · simp only [Writes.apply_single]
    unfold note at h
    split at h
    case h_1 hnone =>
      cases h
      have hother : table.findIdx (fun u => u.name = leaf.name) = table.length := by
        simpa [get?] using hnone
      refine ⟨[leaf], ?_⟩
      rw [List.findIdx_append, hother, if_neg (Nat.lt_irrefl _), List.findIdx_cons]
      simp [List.modify_eq_take_cons_drop]
    case h_2 entry hsome =>
      split at h
      case isTrue =>
        cases h
        have hkeys := keys_apply (.single (table.findIdx (fun u => u.name = leaf.name)) register)
          stage table
        rw [Writes.apply_single] at hkeys
        have hindex := (found_of_prefix_keys ⟨[], by rw [List.append_nil, hkeys]⟩ hsome).1
        exact ⟨[], by rw [List.append_nil, hindex]⟩
      case isFalse => cases h

theorem note_again (h : table.note stage register leaf = .ok table') {later : UniformTable}
    (hkeys : table'.keys <+: later.keys) :
    later.note stage register leaf =
      .ok ((Writes.single (table'.findIdx (fun u => u.name = leaf.name)) register).apply
        (·.setRegister stage ·) later) := by
  obtain ⟨u, hu, helement⟩ := get?_note_self h
  obtain ⟨hindex, u', hu', hsame⟩ := found_of_prefix_keys hkeys hu
  rw [note, hu', Writes.apply_single, ← hindex]
  exact if_pos (hsame.trans helement)

/-- A step that leads from `s` to `t` by writes into the table, which it does over when it is taken
again with a table that goes on from that of `t`. -/
def Repeats (stage : Stage) (step : UniformProgress → Except Fault UniformProgress)
    (s t : UniformProgress) : Prop :=
  ∃ writes : Writes, writes.Lead (·.setRegister stage ·) s.table t.table ∧
    ∀ later : UniformTable, t.table.keys <+: later.keys →
      step { s with table := later } =
        .ok { t with table := writes.apply (·.setRegister stage ·) later }

theorem Repeats.comp {step step' : UniformProgress → Except Fault UniformProgress}
    {s t u : UniformProgress} (h : Repeats stage step s t) (h' : Repeats stage step' t u) :
    Repeats stage (fun s => step s >>= step') s u := by
  obtain ⟨first, hlead, hfirst⟩ := h
  obtain ⟨second, hlead', hsecond⟩ := h'
  refine ⟨first.andThen second, hlead.trans (by simp) hlead', fun later hkeys => ?_⟩
  refine bind_eq_ok.mpr ⟨_, hfirst later ((prefix_keys hlead').trans hkeys), ?_⟩
  rw [← Writes.apply_apply (by simp)]
  exact hsecond _ (by rwa [keys_apply])

theorem repeats_ok (stage : Stage) (s : UniformProgress) : Repeats stage .ok s s := by
  refine ⟨.blank, .refl .., fun later _ => ?_⟩
  rw [Writes.apply_blank]

theorem repeats_move {step : Nat → Except Fault Nat} {s t : UniformProgress}
    (h : UniformProgress.move step s = .ok t) : Repeats stage (UniformProgress.move step) s t := by
  obtain ⟨next, hstep, h⟩ := bind_eq_ok.mp h
  cases h
  refine ⟨.blank, .refl .., fun later _ => bind_eq_ok.mpr ⟨next, hstep, ?_⟩⟩
  rw [Writes.apply_blank]
  rfl

section Walk

variable {packing : Packing} {s t : UniformProgress}

theorem repeats_linkLeaf {leaf : Leaf} (h : linkLeaf (.hlsl packing) stage leaf s = .ok t) :
    Repeats stage (linkLeaf (.hlsl packing) stage leaf) s t := by
  rw [linkLeaf_eq] at h
  obtain ⟨noted, hnoted, h⟩ := bind_eq_ok.mp h
  obtain ⟨table, hnote, h⟩ := bind_eq_ok.mp h
  obtain ⟨finish, hskip, h⟩ := bind_eq_ok.mp h
  cases h
  refine ⟨_, note_lead hnote, fun later hkeys => ?_⟩
  rw [linkLeaf_eq]
  exact bind_eq_ok.mpr ⟨noted, hnoted, bind_eq_ok.mpr ⟨_, note_again hnote hkeys,
    bind_eq_ok.mpr ⟨finish, hskip, rfl⟩⟩⟩

theorem repeats_step_linking {visit : Visit}
    (h : (linking (.hlsl packing) stage).step s visit = .ok t) :
    Repeats stage ((linking (.hlsl packing) stage).step · visit) s t := by
  cases visit with
  | enter => exact repeats_move h
  | leaf leaf => exact repeats_linkLeaf h
  | exit => exact repeats_move h

theorem repeats_foldlM_linking {visits : List Visit}
    (h : visits.foldlM (linking (.hlsl packing) stage).step s = .ok t) :
    Repeats stage (visits.foldlM (linking (.hlsl packing) stage).step ·) s t := by
  induction visits generalizing s with
  | nil =>
    cases h
    exact repeats_ok stage _
  | cons visit visits ih =>
    obtain ⟨next, hstep, hrest⟩ := bind_eq_ok.mp h
    exact (repeats_step_linking hstep).comp (ih hrest)

end Walk

theorem linkUniform_again {output : Output} {v : Variable} {linked : Logged UniformTable}
    (h : table.linkUniform stage output v register = .ok linked) :
    ∃ writes : Writes, writes.Lead (·.setRegister stage ·) table linked.value ∧
      ∀ later : UniformTable, linked.value.keys <+: later.keys →
        later.linkUniform stage output v register =
          .ok ⟨writes.apply (·.setRegister stage ·) later, linked.events⟩ := by
  obtain ⟨packing, hp, h⟩ := bind_eq_ok.mp h
  obtain ⟨t, hrun, h⟩ := bind_eq_ok.mp h
  cases h
  rw [Walk.run_eq_foldlM] at hrun
  obtain ⟨writes, hlead, hagain⟩ := repeats_foldlM_linking hrun
  refine ⟨writes, hlead, fun later hkeys => ?_⟩
  have hlater := (Walk.run_eq_foldlM ..).trans (hagain later hkeys)
  exact bind_eq_ok.mpr ⟨packing, hp, bind_eq_ok.mpr ⟨_, hlater, rfl⟩⟩

theorem linkStage_again {uniforms : List Variable} {allocator : Allocator}
    {linked : Logged (UniformTable × Allocator)}
    (h : linkStage stage uniforms table allocator = .ok linked) :
    ∃ writes : Writes, writes.Lead (·.setRegister stage ·) table linked.value.1 ∧
      ∀ (later : UniformTable) (laterAllocator : Allocator), linked.value.1.keys <+: later.keys →
        laterAllocator.Extends linked.value.2 →
        ∃ events, linkStage stage uniforms later laterAllocator =
          .ok ⟨(writes.apply (·.setRegister stage ·) later, laterAllocator), events⟩ := by
  induction uniforms generalizing table allocator linked with
  | nil =>
    cases h
    refine ⟨.blank, .refl .., fun later laterAllocator _ _ => ⟨[], ?_⟩⟩
    rw [Writes.apply_blank]
    rfl
  | cons v vs ih =>
    rw [linkStage] at h
    split at h
    case isTrue hv =>
      obtain ⟨assigned, hassign, h⟩ := bind_eq_ok.mp h
      obtain ⟨uniform, hlink, h⟩ := bind_eq_ok.mp h
      obtain ⟨rest, hrest, h⟩ := bind_eq_ok.mp h
      cases h
      obtain ⟨first, hlead, hfirst⟩ := linkUniform_again hlink
      obtain ⟨second, hlead', hsecond⟩ := ih hrest
      refine ⟨first.andThen second, hlead.trans (by simp) hlead', ?_⟩
      intro later laterAllocator hkeys hextends
      -- The allocator knows the uniform now, and gives it the register that it had.
      have hassigned := hextends.trans (linkStage_extends hrest)
      have hknown := hassigned.register_eq (Allocator.uniformRegister?_assignUniform hassign)
      have houtput := (hassigned.trans (Allocator.assignUniform_extends hassign)).output_eq
      obtain ⟨events, hlater⟩ := hsecond (first.apply (·.setRegister stage ·) later) laterAllocator
        (by rwa [keys_apply]) hextends
      refine ⟨[] ++ uniform.events ++ events, ?_⟩
      rw [linkStage, if_pos hv, ← Writes.apply_apply (by simp)]
      refine bind_eq_ok.mpr ⟨_, Allocator.assignUniform_of_known hknown, ?_⟩
      rw [houtput]
      refine bind_eq_ok.mpr ⟨_, hfirst later ((prefix_keys hlead').trans hkeys), ?_⟩
      exact bind_eq_ok.mpr ⟨_, hlater, rfl⟩
    case isFalse hv =>
      obtain ⟨writes, hlead, hagain⟩ := ih h
      refine ⟨writes, hlead, fun later laterAllocator hkeys hextends => ?_⟩
      obtain ⟨events, hlater⟩ := hagain later laterAllocator hkeys hextends
      exact ⟨events, by rw [linkStage, if_neg hv, hlater]⟩

end UniformTable

namespace BlockTable

def names (table : BlockTable) : List String := table.map BlockEntry.name

/-- A table that goes on from another one. Behind an error there is nothing more: what is missing in
the one must not be there in the other. -/
def Follows (later table : BlockTable) (error : Option LinkError) : Prop :=
  table.names <+: later.names ∧ (error ≠ none → later.names = table.names)

section Bind

variable {later table : BlockTable} {error : Option LinkError}

theorem Follows.eq_nil {cause : LinkError} (h : later.Follows [] (some cause)) : later = [] :=
  List.map_eq_nil_iff.mp (h.2 (by simp))

theorem Follows.exists_cons {b : BlockEntry} (h : later.Follows (b :: table) error) :
    ∃ b' later', later = b' :: later' ∧ b'.name = b.name ∧ Follows later' table error := by
  obtain ⟨hfront, hequal⟩ := h
  cases later with
  | nil => simp [names] at hfront
  | cons b' later =>
    simp only [names, List.map_cons, List.cons_prefix_cons, List.cons.injEq] at hfront hequal
    exact ⟨b', later, rfl, hfront.1.symm, hfront.2, fun he => (hequal he).2⟩

theorem bindRun_again (stage : Stage) (name : String) (register : UInt32) (limits : StageLimits)
    (count element : Nat) (table : BlockTable) :
    ∃ writes : Writes, writes.Lead (·.setRegister stage ·) table
        (bindRun stage name register limits count element table).1 ∧
      ∀ later : BlockTable,
        later.Follows table (bindRun stage name register limits count element table).2 →
        bindRun stage name register limits count element later =
          (writes.apply (·.setRegister stage ·) later,
            (bindRun stage name register limits count element table).2) := by
  induction count generalizing element table with
  | zero =>
    refine ⟨.blank, .refl .., fun later _ => ?_⟩
    rw [Writes.apply_blank, bindRun, bindRun]
  | succ count ih =>
    cases table with
    | nil =>
      refine ⟨.blank, .refl .., fun later hfollows => ?_⟩
      rw [hfollows.eq_nil]
      rfl
    | cons b table =>
      by_cases hname : b.name = name
      · by_cases hadmits : limits.admitsBlock (clampWord (register.toNat + element)) = true
        · obtain ⟨writes, hlead, hagain⟩ := ih (element + 1) table
          simp only [bindRun, hname, if_true, hadmits]
          refine ⟨.cons (some (clampWord (register.toNat + element))) writes, hlead.cons _ b, ?_⟩
          intro later hfollows
          obtain ⟨b', later', rfl, hb', hrest⟩ := hfollows.exists_cons
          simp only [bindRun, hb', hname, if_true, hadmits]
          rw [hagain later' hrest, Writes.apply_cons]
          rfl
        · simp only [bindRun, hname, if_true, hadmits]
          refine ⟨.cons (some (clampWord (register.toNat + element))) .blank,
            (Writes.Lead.refl ..).cons _ b, ?_⟩
          intro later hfollows
          obtain ⟨b', later', rfl, hb', -⟩ := hfollows.exists_cons
          simp only [bindRun, hb', hname, if_true, hadmits]
          rw [Writes.apply_cons, Writes.apply_blank]
          rfl
      · simp only [bindRun, hname, if_false]
        refine ⟨.blank, .refl .., fun later hfollows => ?_⟩
        obtain ⟨b', later', rfl, hb', -⟩ := hfollows.exists_cons
        simp only [bindRun, hb', hname, if_false, Writes.apply_blank]

theorem bind_again (table : BlockTable) (stage : Stage) (name : String) (register : UInt32)
    (count : Nat) (limits : StageLimits) :
    ∃ writes : Writes, writes.Lead (·.setRegister stage ·) table
        (table.bind stage name register count limits).1 ∧
      ∀ later : BlockTable, later.Follows table (table.bind stage name register count limits).2 →
        later.bind stage name register count limits =
          (writes.apply (·.setRegister stage ·) later,
            (table.bind stage name register count limits).2) := by
  induction table with
  | nil =>
    refine ⟨.blank, .refl .., fun later hfollows => ?_⟩
    rw [hfollows.eq_nil]
    rfl
  | cons b table ih =>
    by_cases hname : b.name = name
    · rw [bind_cons_of_eq table hname]
      obtain ⟨writes, hlead, hagain⟩ := bindRun_again stage name register limits count 0 (b :: table)
      refine ⟨writes, hlead, fun later hfollows => ?_⟩
      rw [← hagain later hfollows]
      obtain ⟨b', later', rfl, hb', -⟩ := hfollows.exists_cons
      exact bind_cons_of_eq later' (hb'.trans hname)
    · rw [bind_cons_of_ne table hname]
      obtain ⟨writes, hlead, hagain⟩ := ih
      refine ⟨.cons none writes, hlead.cons none b, fun later hfollows => ?_⟩
      obtain ⟨b', later', rfl, hb', hrest⟩ := hfollows.exists_cons
      rw [bind_cons_of_ne later' (hb' ▸ hname), hagain later' hrest, Writes.apply_cons]
      rfl

theorem names_apply (writes : Writes) (stage : Stage) (table : BlockTable) :
    names (writes.apply (·.setRegister stage ·) table) = table.names :=
  Writes.map_apply (by simp) writes

theorem names_bind (table : BlockTable) (stage : Stage) (name : String) (register : UInt32)
    (count : Nat) (limits : StageLimits) :
    names (table.bind stage name register count limits).1 = table.names := by
  have hunbound := congrArg names (map_unbound_bind table stage name register count limits)
  simpa [names, Function.comp_def, BlockEntry.unbound] using hunbound

theorem index?_isSome {table : BlockTable} {name : String} :
    (table.index? name).isSome = true ↔ name ∈ table.names := by
  simp [index?, names]

theorem index?_eq_none_iff {table : BlockTable} {name : String} :
    table.index? name = none ↔ name ∉ table.names := by
  rw [← Option.not_isSome_iff_eq_none, index?_isSome]

end Bind

end BlockTable

namespace Program

variable {stage : Stage} {limits : Limits}

theorem mem_names_linkBlock {program : Program} {block : BlockDeclaration}
    {linked : Logged (Program × Nat)} (h : program.linkBlock block = .ok linked) :
    block.decl.name ∈ linked.value.1.blocks.names := by
  obtain ⟨hfound, hsame⟩ | ⟨-, members, finish, -, hadd⟩ := linkBlock_cases h
  · rw [hsame]
    exact BlockTable.index?_isSome.mp hfound
  · rw [hadd]
    have hlength := block.length_entries (Position.bytes finish)
      (program.uniforms.memberIndexes members)
    have hpos := block.decl.elementCount_pos
    obtain ⟨b, hb⟩ := List.exists_mem_of_length_pos (hlength ▸ hpos)
    rw [← (block.of_mem_entries _ _ hb).1]
    exact List.mem_map_of_mem (List.mem_append_right _ hb)

theorem linkBlock_of_mem {program : Program} {block : BlockDeclaration}
    (h : block.decl.name ∈ program.blocks.names) :
    ∃ index, program.linkBlock block = .ok ⟨(program, index), []⟩ := by
  obtain ⟨index, hindex⟩ := Option.isSome_iff_exists.mp (BlockTable.index?_isSome.mpr h)
  refine ⟨index, ?_⟩
  rw [linkBlock, hindex]
  rfl

theorem linkBlock_again {program later : Program} {block : BlockDeclaration}
    {linked : Logged (Program × Nat)} (h : program.linkBlock block = .ok linked)
    (hlater : linked.value.1.blocks.names <+: later.blocks.names) :
    ∃ index, later.linkBlock block = .ok ⟨(later, index), []⟩ :=
  linkBlock_of_mem (hlater.subset (mem_names_linkBlock h))

theorem bindIfUsed_again (program : Program) (stage : Stage) (limits : Limits)
    (block : BlockDeclaration) (allocator : Allocator) :
    ∃ writes : Writes, writes.Lead (·.setRegister stage ·) program.blocks
        (program.bindIfUsed stage limits block allocator).value.program.blocks ∧
      ∀ (later : Program) (laterAllocator : Allocator),
        later.blocks.Follows program.blocks
          (program.bindIfUsed stage limits block allocator).value.error →
        laterAllocator.KeepsBlocks (program.bindIfUsed stage limits block allocator).value.allocator →
        later.bindIfUsed stage limits block laterAllocator =
          ⟨⟨{ later with blocks := writes.apply (·.setRegister stage ·) later.blocks },
            laterAllocator, (program.bindIfUsed stage limits block allocator).value.error⟩, []⟩ := by
  unfold bindIfUsed
  split
  case isTrue =>
    obtain ⟨writes, hlead, hagain⟩ := program.blocks.bind_again stage block.decl.name
      (allocator.assignBlock block).register block.decl.elementCount (limits.get stage)
    refine ⟨writes, hlead, fun later laterAllocator hfollows hkeeps => ?_⟩
    have hknown := hkeeps _ _ (allocator.blockRegister?_assignBlock block)
    unfold bindBlock
    rw [Allocator.assignBlock_of_known hknown]
    dsimp only
    rw [hagain later.blocks hfollows]
  case isFalse =>
    refine ⟨.blank, .refl .., fun later laterAllocator _ _ => ?_⟩
    rw [Writes.apply_blank]

theorem names_bindIfUsed (program : Program) (stage : Stage) (limits : Limits)
    (block : BlockDeclaration) (allocator : Allocator) :
    (program.bindIfUsed stage limits block allocator).value.program.blocks.names =
      program.blocks.names := by
  unfold bindIfUsed
  split
  · exact BlockTable.names_bind ..
  · rfl

theorem bindIfUsed_keepsBlocks (program : Program) (stage : Stage) (limits : Limits)
    (block : BlockDeclaration) (allocator : Allocator) :
    (program.bindIfUsed stage limits block allocator).value.allocator.KeepsBlocks allocator := by
  unfold bindIfUsed
  split
  · exact allocator.assignBlock_keepsBlocks block
  · exact fun _ _ hr => hr

theorem linkStage_keepsBlocks {blocks : List BlockDeclaration} {program : Program}
    {allocator : Allocator} {linked : Logged StageLink}
    (h : linkStage stage limits blocks program allocator = .ok linked) :
    linked.value.allocator.KeepsBlocks allocator := by
  induction blocks generalizing program allocator linked with
  | nil =>
    cases h
    exact fun _ _ hr => hr
  | cons block blocks ih =>
    obtain ⟨added, -, h⟩ := bind_eq_ok.mp h
    have hkeeps := added.value.1.bindIfUsed_keepsBlocks stage limits block allocator
    dsimp only at h
    split at h
    case h_1 =>
      cases h
      exact hkeeps
    case h_2 =>
      obtain ⟨rest, hrest, h⟩ := bind_eq_ok.mp h
      cases h
      exact fun name register hr => ih hrest name register (hkeeps name register hr)

/-- Linking the blocks of a stage again does the same writes, gives out nothing and ends in the same
way. -/
theorem linkStage_again {blocks : List BlockDeclaration} {program : Program} {allocator : Allocator}
    {linked : Logged StageLink} (h : linkStage stage limits blocks program allocator = .ok linked) :
    ∃ writes : Writes, writes.Lead (·.setRegister stage ·) program.blocks
        linked.value.program.blocks ∧
      ∀ (later : Program) (laterAllocator : Allocator),
        later.blocks.Follows linked.value.program.blocks linked.value.error →
        laterAllocator.KeepsBlocks linked.value.allocator →
        linkStage stage limits blocks later laterAllocator =
          .ok ⟨⟨{ later with blocks := writes.apply (·.setRegister stage ·) later.blocks },
            laterAllocator, linked.value.error⟩, []⟩ := by
  induction blocks generalizing program allocator linked with
  | nil =>
    cases h
    refine ⟨.blank, .refl .., fun later laterAllocator _ _ => ?_⟩
    rw [Writes.apply_blank]
    rfl
  | cons block blocks ih =>
    obtain ⟨added, hadded, h⟩ := bind_eq_ok.mp h
    obtain ⟨more, hmore, -⟩ := @linkBlock_blocks stage _ _ _ hadded
    obtain ⟨first, hlead, hfirst⟩ := added.value.1.bindIfUsed_again stage limits block allocator
    have hnames := added.value.1.names_bindIfUsed stage limits block allocator
    rw [hmore] at hlead
    dsimp only at h
    split at h
    case h_1 cause herror =>
      cases h
      refine ⟨first, hlead.of_append, fun later laterAllocator hfollows hkeeps => ?_⟩
      have hadds : later.blocks.Follows added.value.1.blocks
          (added.value.1.bindIfUsed stage limits block allocator).value.error := by
        rwa [BlockTable.Follows, ← hnames]
      obtain ⟨index, hindex⟩ := linkBlock_again hadded hadds.1
      refine bind_eq_ok.mpr ⟨_, hindex, ?_⟩
      dsimp only
      rw [hfirst later laterAllocator hadds hkeeps]
      simp only [herror]
      rfl
    case h_2 herror =>
      obtain ⟨rest, hrest, h⟩ := bind_eq_ok.mp h
      cases h
      obtain ⟨second, hlead', hsecond⟩ := ih hrest
      refine ⟨first.andThen second, hlead.of_append.trans (by simp) hlead', ?_⟩
      intro later laterAllocator hfollows hkeeps
      have hadds : later.blocks.Follows added.value.1.blocks
          (added.value.1.bindIfUsed stage limits block allocator).value.error := by
        rw [herror, BlockTable.Follows, ← hnames]
        exact ⟨(hlead'.prefix_map (by simp)).trans hfollows.1, fun h => absurd rfl h⟩
      obtain ⟨index, hindex⟩ := linkBlock_again hadded hadds.1
      refine bind_eq_ok.mpr ⟨_, hindex, ?_⟩
      dsimp only
      rw [hfirst later laterAllocator hadds fun name register hr =>
        hkeeps name register (linkStage_keepsBlocks hrest name register hr)]
      simp only [herror]
      refine bind_eq_ok.mpr ⟨_, hsecond _ laterAllocator ?_ hkeeps, ?_⟩
      · rwa [BlockTable.Follows, BlockTable.names_apply]
      · rw [Writes.apply_apply (by simp)]
        rfl

end Program

/-- Linking a stage again, with the table and the allocator that it left, changes neither. -/
theorem relink_unchanged (stage : Stage) :
    (∀ (uniforms : List Variable) (table : UniformTable) (allocator : Allocator)
        (linked : Logged (UniformTable × Allocator)),
      UniformTable.linkStage stage uniforms table allocator = .ok linked →
      ∃ events, UniformTable.linkStage stage uniforms linked.value.1 linked.value.2 =
        .ok ⟨linked.value, events⟩) ∧
    ∀ (limits : Limits) (blocks : List BlockDeclaration) (program : Program) (allocator : Allocator)
        (linked : Logged StageLink),
      Program.linkStage stage limits blocks program allocator = .ok linked →
      Program.linkStage stage limits blocks linked.value.program linked.value.allocator =
        .ok ⟨linked.value, []⟩ := by
  constructor
  · intro uniforms table allocator linked h
    obtain ⟨writes, hlead, hagain⟩ := UniformTable.linkStage_again h
    obtain ⟨events, hlater⟩ := hagain linked.value.1 linked.value.2 List.prefix_rfl (.refl _)
    rw [hlead.apply_eq (by simp)] at hlater
    exact ⟨events, hlater⟩
  · intro limits blocks program allocator linked h
    obtain ⟨writes, hlead, hagain⟩ := Program.linkStage_again h
    have hlater := hagain linked.value.program linked.value.allocator
      ⟨List.prefix_rfl, fun _ => rfl⟩ (fun _ _ hr => hr)
    rw [hlead.apply_eq (by simp)] at hlater
    exact hlater

/-- A struct that is declared twice, so that the register of its field is written twice. -/
def redeclaredUniforms : List Variable :=
  [.struct ⟨"s", 0, false, true⟩ [.basic ⟨"x", 0, false, true⟩ (.vector .float .one)],
    .struct ⟨"s", 0, false, true⟩
      [.basic ⟨"y", 0, false, true⟩ (.vector .float .four),
        .basic ⟨"x", 0, false, true⟩ (.vector .float .one)]]

def crowdedBlocks : List BlockDeclaration :=
  [⟨⟨"Lamps", 2, false, true⟩, .standard, [.basic ⟨"power", 0, false, true⟩ (.vector .float .one)]⟩,
    ⟨⟨"Lamps", 0, false, true⟩, .packed, []⟩, ⟨⟨"Bones", 12, false, true⟩, .standard, []⟩]

theorem relink_unchanged_crowdedBlocks :
    (∃ linked events, UniformTable.linkStage .vertex redeclaredUniforms [] (.start .hlsl11 .vertex) =
        .ok linked ∧
      UniformTable.linkStage .vertex redeclaredUniforms linked.value.1 linked.value.2 =
        .ok ⟨linked.value, events⟩) ∧
    ∃ linked, Program.linkStage .vertex .d3d11 crowdedBlocks .empty (.start .hlsl11 .vertex) =
        .ok linked ∧
      linked.value.error = some (.tooManyBlocks .vertex "Bones" 14 12) ∧
      Program.linkStage .vertex .d3d11 crowdedBlocks linked.value.program linked.value.allocator =
        .ok ⟨linked.value, []⟩ := by
  constructor
  · obtain ⟨linked, h⟩ := exists_eq_ok (show (UniformTable.linkStage .vertex redeclaredUniforms []
      (.start .hlsl11 .vertex)).isOk = true by decide +kernel)
    obtain ⟨events, hagain⟩ := (relink_unchanged .vertex).1 _ _ _ linked h
    exact ⟨linked, events, h, hagain⟩
  · refine ⟨_, rfl, by decide +kernel, ?_⟩
    exact (relink_unchanged .vertex).2 .d3d11 crowdedBlocks .empty (.start .hlsl11 .vertex) _ rfl

end ShaderInterface
