import ShaderInterface.Proofs.LinkedLeaves

namespace ShaderInterface

open Position

namespace Allocator

theorem toNat_nextFor_take_self (allocator : Allocator) (name : String) (file : Bool)
    (count : UInt32) :
    ((allocator.take name file count).nextFor file).toNat =
      min ((allocator.nextFor file).toNat + count.toNat) maxWord := by
  cases file <;> exact toNat_clampWord _

theorem nextFor_take_of_ne (allocator : Allocator) (name : String) {file other : Bool}
    (count : UInt32) (h : other ≠ file) :
    (allocator.take name file count).nextFor other = allocator.nextFor other := by
  cases file <;> cases other
  · exact absurd rfl h
  · rfl
  · rfl
  · exact absurd rfl h

theorem uniformRegister?_take_self (allocator : Allocator) (name : String) (file : Bool)
    (count : UInt32) :
    (allocator.take name file count).uniformRegister? name = some (allocator.nextFor file) := by
  rw [uniformRegister?, uniforms_take, List.lookup_cons_self]

theorem uniformRegister?_take_of_ne (allocator : Allocator) {name other : String} (file : Bool)
    (count : UInt32) (h : other ≠ name) :
    (allocator.take name file count).uniformRegister? other = allocator.uniformRegister? other := by
  rw [uniformRegister?, uniforms_take, List.lookup_cons, beq_false_of_ne h]
  rfl

theorem vectors_start (output : Output) (stage : Stage) :
    (start output stage).vectors = driverVectors output stage := by
  cases output <;> cases stage <;> rfl

/-- An allocator that has gone on from another: what was given out stays so. -/
structure Extends (later earlier : Allocator) : Prop where
  output_eq : later.output = earlier.output
  next_le (file : Bool) : (earlier.nextFor file).toNat ≤ (later.nextFor file).toNat
  register_eq {name : String} {register : UInt32} :
    earlier.uniformRegister? name = some register → later.uniformRegister? name = some register

theorem Extends.refl (allocator : Allocator) : allocator.Extends allocator :=
  ⟨rfl, fun _ => Nat.le_refl _, id⟩

theorem Extends.trans {last middle first : Allocator} (h : last.Extends middle)
    (h' : middle.Extends first) : last.Extends first :=
  ⟨h.output_eq.trans h'.output_eq, fun file => Nat.le_trans (h'.next_le file) (h.next_le file),
    fun hr => h.register_eq (h'.register_eq hr)⟩

theorem extends_take {allocator : Allocator} {name : String} (file : Bool) (count : UInt32)
    (hnew : allocator.uniformRegister? name = none) :
    (allocator.take name file count).Extends allocator := by
  refine ⟨output_take _ _ _ _, ?_, ?_⟩
  · intro other
    by_cases ho : other = file
    · subst ho
      have hword := toNat_le_maxWord (allocator.nextFor other)
      rw [toNat_nextFor_take_self]
      omega
    · have hsame := allocator.nextFor_take_of_ne name count ho
      exact Nat.le_of_eq (congrArg UInt32.toNat hsame.symm)
  · intro other register hr
    have hne : other ≠ name := by
      intro heq
      rw [heq, hnew] at hr
      cases hr
    rw [uniformRegister?_take_of_ne _ _ _ hne, hr]

theorem assignUniform_of_new {allocator : Allocator} {v : Variable} {assigned : Assigned}
    (hnew : allocator.uniformRegister? v.name = none)
    (h : allocator.assignUniform v = .ok assigned) :
    ∃ count, uniformRegisters allocator.output v = .ok count ∧
      assigned.register = allocator.nextFor v.isSampler ∧
      assigned.allocator = allocator.take v.name v.isSampler count := by
  rw [assignUniform, hnew] at h
  obtain ⟨count, hcount, h⟩ := bind_eq_ok.mp h
  cases h
  exact ⟨count, hcount, rfl, rfl⟩

theorem assignUniform_extends {allocator : Allocator} {v : Variable} {assigned : Assigned}
    (h : allocator.assignUniform v = .ok assigned) : assigned.allocator.Extends allocator := by
  cases hr : allocator.uniformRegister? v.name with
  | none =>
    obtain ⟨count, -, -, ha⟩ := assignUniform_of_new hr h
    rw [ha]
    exact extends_take _ _ hr
  | some register =>
    rw [assignUniform, hr] at h
    cases h
    exact Extends.refl _

theorem uniformRegister?_of_assignUniform {allocator : Allocator} {v : Variable}
    {assigned : Assigned} {name : String} (h : allocator.assignUniform v = .ok assigned)
    (hne : name ≠ v.name) :
    assigned.allocator.uniformRegister? name = allocator.uniformRegister? name := by
  cases hr : allocator.uniformRegister? v.name with
  | none =>
    obtain ⟨count, -, -, ha⟩ := assignUniform_of_new hr h
    rw [ha, uniformRegister?_take_of_ne _ _ _ hne]
  | some register =>
    rw [assignUniform, hr] at h
    cases h
    rfl

end Allocator

def usedUniforms (uniforms : List Variable) : List Variable :=
  uniforms.filter fun v => v.decl.staticUse

theorem UniformTable.linkStage_extends {stage : Stage} {uniforms : List Variable}
    {table table' : UniformTable} {allocator allocator' : Allocator} {events : List Event}
    (h : linkStage stage uniforms table allocator = .ok ⟨(table', allocator'), events⟩) :
    allocator'.Extends allocator := by
  induction uniforms generalizing table allocator events with
  | nil =>
    cases h
    exact .refl _
  | cons v vs ih =>
    rw [linkStage] at h
    split at h
    case isTrue =>
      obtain ⟨assigned, hassign, h⟩ := bind_eq_ok.mp h
      obtain ⟨linked, -, h⟩ := bind_eq_ok.mp h
      obtain ⟨⟨⟨table'', allocator''⟩, rest⟩, hrest, h⟩ := bind_eq_ok.mp h
      cases h
      exact (ih hrest).trans (Allocator.assignUniform_extends hassign)
    case isFalse => exact ih h

theorem endAt_le_of_uniformRegisters {output : Output} {packing : Packing} {v : Variable}
    {count : UInt32} (hp : output.packing = .ok packing)
    (h : uniformRegisters output v = .ok count) (hc : count.toNat < maxWord) :
    (Rule.hlsl packing).endAt Leaf.registerShape (v.visits (.root v.name) false) 0 ≤
      registerWidth * count.toNat := by
  obtain ⟨packing', hp', h⟩ := bind_eq_ok.mp h
  obtain rfl : packing = packing' := by
    rw [hp] at hp'
    cases hp'
    rfl
  obtain ⟨finish, hend, h⟩ := bind_eq_ok.mp h
  cases h
  rw [Rule.endOf, Walk.run_eq_foldlM] at hend
  rw [registersBefore, toNat_registersForBytes] at hc ⊢
  -- An end that was cut off would need more registers than there are numbers for.
  have hfinish : finish < last ∧ finish ≤ registerWidth * ((bytes finish + 15) / 16) := by
    unfold bytes last maxWord registerWidth componentBytes at *
    omega
  have heq := Rule.foldlM_measure_eq_ok (Nat.zero_le last) hend hfinish.1
  rw [← heq, Nat.min_eq_left (by omega)]
  exact hfinish.2

theorem Rule.skipRegisters_zero (register : UInt32) :
    skipRegisters 0 register = registerWidth * register.toNat := by
  have hr := register.toNat_lt
  unfold skipRegisters advance last registerWidth
  omega

def Variable.entriesFrom (v : Variable) (packing : Packing) (stage : Stage) (register : UInt32) :
    List UniformEntry :=
  ((Rule.hlsl packing).reached Leaf.registerShape (v.visits (.root v.name) false)
    (registerWidth * register.toNat)).map fun met => met.1.linkedAt stage met.2

theorem Variable.map_name_entriesFrom (v : Variable) (packing : Packing) (stage : Stage)
    (register : UInt32) :
    (v.entriesFrom packing stage register).map UniformEntry.name =
      v.leaves.map Leaf.uniformName := by
  have hleaves := @Rule.map_fst_reached (.hlsl packing) Leaf.registerShape
    (v.visits (.root v.name) false) (registerWidth * register.toNat)
  rw [entriesFrom, List.map_map, leaves, ← hleaves, List.map_map]
  rfl

theorem Rule.endAt_registers {rule : Rule} {visits : List Visit} {count : Nat} (register : Nat)
    (h : rule.endAt Leaf.registerShape visits 0 ≤ registerWidth * count) :
    rule.endAt Leaf.registerShape visits (registerWidth * register) ≤
      registerWidth * (register + count) := by
  have hadd := @endAt_add rule _ Leaf.wellFormed_registerShape _
    (Nat.dvd_mul_right registerWidth register) visits 0
  rw [Nat.add_zero] at hadd
  rw [hadd, Nat.mul_add]
  exact Nat.add_le_add_left h _

theorem UniformTable.linkUniform_of_fresh {output : Output} {packing : Packing} {v : Variable}
    {table : UniformTable} {stage : Stage} {register : UInt32} (hp : output.packing = .ok packing)
    (hroom : (Rule.hlsl packing).endAt Leaf.registerShape (v.visits (.root v.name) false)
      (registerWidth * register.toNat) ≤ last)
    (hnames : (table.map UniformEntry.name ++ v.leaves.map Leaf.uniformName).Nodup) :
    ∃ events, table.linkUniform stage output v register =
      .ok ⟨table ++ v.entriesFrom packing stage register, events⟩ := by
  obtain ⟨⟨events, hfold⟩, -⟩ := @foldlM_linking_of_fresh packing stage
    (v.visits (.root v.name) false) ⟨registerWidth * register.toNat, table, #[]⟩ hroom hnames
  refine ⟨events.toList, ?_⟩
  rw [linkUniform, hp]
  change (linking (.hlsl packing) stage).run _ _ v _ >>= _ = _
  rw [Walk.run_eq_foldlM, Rule.skipRegisters_zero, hfold]
  rfl

/-- A uniform with the registers that it was given. -/
structure Window where
  uniform : Variable
  base : UInt32
  count : UInt32

/-- An allocator that went on from another gave the uniform of a window its registers on the way. -/
structure Window.Granted (w : Window) (later earlier : Allocator) : Prop where
  register_eq : later.uniformRegister? w.uniform.name = some w.base
  count_eq : uniformRegisters earlier.output w.uniform = .ok w.count
  next_le : (earlier.nextFor w.uniform.isSampler).toNat ≤ w.base.toNat
  le_next : w.base.toNat + w.count.toNat ≤ (later.nextFor w.uniform.isSampler).toNat

theorem Window.Granted.of_extends {w : Window} {later middle earlier : Allocator}
    (h : w.Granted later middle) (he : middle.Extends earlier) : w.Granted later earlier :=
  ⟨h.register_eq, he.output_eq ▸ h.count_eq, Nat.le_trans (he.next_le _) h.next_le, h.le_next⟩

/-- A uniform ends in its window, and all its positions have register numbers. -/
theorem Window.Granted.endAt_le {w : Window} {later earlier : Allocator} {packing : Packing}
    (h : w.Granted later earlier) (hp : earlier.output.packing = .ok packing)
    (hsmall : (later.nextFor w.uniform.isSampler).toNat < maxWord) :
    (Rule.hlsl packing).endAt Leaf.registerShape (w.uniform.visits (.root w.uniform.name) false)
        (registerWidth * w.base.toNat) ≤ registerWidth * (w.base.toNat + w.count.toNat) ∧
      registerWidth * (w.base.toNat + w.count.toNat) ≤ registerWidth * maxWord := by
  have hle := h.le_next
  have hend := endAt_le_of_uniformRegisters hp h.count_eq (by omega)
  exact ⟨Rule.endAt_registers _ hend, Nat.mul_le_mul_left _ (by omega)⟩

theorem Window.granted_of_assignUniform {allocator later : Allocator} {v : Variable}
    {assigned : Assigned} (hnew : allocator.uniformRegister? v.name = none)
    (h : allocator.assignUniform v = .ok assigned) (hlater : later.Extends assigned.allocator)
    (hsmall : (later.nextFor v.isSampler).toNat < maxWord) :
    ∃ count, Granted ⟨v, assigned.register, count⟩ later allocator ∧
      (assigned.allocator.nextFor v.isSampler).toNat = assigned.register.toNat + count.toNat := by
  obtain ⟨count, hcount, hregister, htaken⟩ := Allocator.assignUniform_of_new hnew h
  have hnext := hlater.next_le v.isSampler
  have hself := allocator.toNat_nextFor_take_self v.name v.isSampler count
  rw [← htaken, ← hregister] at hself
  refine ⟨count, ⟨?_, hcount, ?_, ?_⟩, by omega⟩
  · apply hlater.register_eq
    rw [htaken, Allocator.uniformRegister?_take_self, hregister]
  · exact Nat.le_of_eq (congrArg UInt32.toNat hregister.symm)
  · dsimp only
    omega

theorem usedUniforms_cons {v : Variable} (vs : List Variable) (h : v.decl.staticUse = true) :
    usedUniforms (v :: vs) = v :: usedUniforms vs :=
  List.filter_cons_of_pos h

def leafNames (uniforms : List Variable) : List String :=
  uniforms.flatMap fun v => v.leaves.map Leaf.uniformName

/-- Linking a stage gives its uniforms windows, one behind the other in each register file, and enters
the leaves of each in its window. -/
theorem UniformTable.linkStage_windows {packing : Packing} {stage : Stage} {uniforms : List Variable}
    {table table' : UniformTable} {allocator allocator' : Allocator} {events : List Event}
    (hp : allocator.output.packing = .ok packing)
    (hnames : ((usedUniforms uniforms).map Variable.name).Nodup)
    (hnew : ∀ v ∈ usedUniforms uniforms, allocator.uniformRegister? v.name = none)
    (hleaves : (table.map UniformEntry.name ++ leafNames (usedUniforms uniforms)).Nodup)
    (h : linkStage stage uniforms table allocator = .ok ⟨(table', allocator'), events⟩)
    (hsmall : ∀ file, (allocator'.nextFor file).toNat < maxWord) :
    ∃ windows : List Window, windows.map Window.uniform = usedUniforms uniforms ∧
      (∀ w ∈ windows, w.Granted allocator' allocator) ∧
      (windows.Pairwise fun w next => w.uniform.isSampler = next.uniform.isSampler →
        w.base.toNat + w.count.toNat ≤ next.base.toNat) ∧
      table' = table ++ windows.flatMap fun w => w.uniform.entriesFrom packing stage w.base := by
  induction uniforms generalizing table allocator events with
  | nil =>
    cases h
    exact ⟨[], rfl, by simp, List.Pairwise.nil, by simp⟩
  | cons v vs ih =>
    rw [linkStage] at h
    split at h
    case isTrue hv =>
      rw [usedUniforms_cons vs hv] at hnames hnew hleaves ⊢
      obtain ⟨assigned, hassign, h⟩ := bind_eq_ok.mp h
      obtain ⟨linked, hlink, h⟩ := bind_eq_ok.mp h
      obtain ⟨⟨⟨table'', allocator''⟩, rest⟩, hrest, h⟩ := bind_eq_ok.mp h
      cases h
      have hext := Allocator.assignUniform_extends hassign
      obtain ⟨count, hgranted, hnext⟩ := Window.granted_of_assignUniform
        (hnew v List.mem_cons_self) hassign (linkStage_extends hrest) (hsmall _)
      obtain ⟨hend, hwords⟩ := hgranted.endAt_le hp (hsmall _)
      have hroom := Nat.le_trans hend (Nat.le_trans hwords (show _ ≤ last by decide))
      -- The leaves of this uniform are new to the table, so its entries are all that is added.
      rw [leafNames, List.flatMap_cons, ← List.append_assoc] at hleaves
      obtain ⟨log, hentries⟩ := @linkUniform_of_fresh _ packing v table stage _ hp hroom
        (List.nodup_append.mp hleaves).1
      rw [hentries] at hlink
      cases hlink
      rw [← v.map_name_entriesFrom packing stage assigned.register, ← List.map_append] at hleaves
      obtain ⟨hother, hnames⟩ := List.nodup_cons.mp hnames
      have hnew' : ∀ u ∈ usedUniforms vs, assigned.allocator.uniformRegister? u.name = none := by
        intro u hu
        have hne : u.name ≠ v.name := fun heq => hother (List.mem_map.mpr ⟨u, hu, heq⟩)
        rw [Allocator.uniformRegister?_of_assignUniform hassign hne]
        exact hnew u (List.mem_cons_of_mem _ hu)
      obtain ⟨windows, huniforms, hgrants, hordered, htable⟩ :=
        ih (hext.output_eq ▸ hp) hnames hnew' hleaves hrest
      refine ⟨⟨v, assigned.register, count⟩ :: windows, ?_, ?_, ?_, ?_⟩
      · rw [List.map_cons, huniforms]
      · intro w hw
        rcases List.mem_cons.mp hw with rfl | hw
        · exact hgranted
        · exact (hgrants w hw).of_extends hext
      · refine List.pairwise_cons.mpr ⟨?_, hordered⟩
        -- The rest of the stage starts in this file where the window ends.
        intro w hw hfile
        have hle := (hgrants w hw).next_le
        dsimp only at hfile ⊢
        rw [← hfile] at hle
        omega
      · rw [htable, List.flatMap_cons, List.append_assoc]
    case isFalse hv =>
      have hskip : usedUniforms (v :: vs) = usedUniforms vs := List.filter_cons_of_neg hv
      rw [hskip] at hnames hnew hleaves ⊢
      exact ih hp hnames hnew hleaves h

/-- The components of a register file that a leaf takes: from `first` up to `finish`. -/
structure LeafRange where
  leaf : Leaf
  isSampler : Bool
  first : Nat
  finish : Nat
  deriving DecidableEq, Repr

namespace UniformTable

def leafRange? (table : UniformTable) (stage : Stage) (isSampler : Bool) (ended : Leaf × Nat) :
    Option LeafRange := do
  let entry ← table.get? ended.1.uniformName
  let register ← entry.registers.get stage
  return ⟨ended.1, isSampler, registerWidth * register.toNat + entry.element.toNat, ended.2⟩

/-- The components of the leaves of a uniform whose registers start at `register`, each from where the
table says that a stage finds it up to where a linking walk leaves it. -/
def ranges? (table : UniformTable) (stage : Stage) (output : Output) (v : Variable)
    (register : UInt32) : Option (List LeafRange) := do
  let packing ← output.packing.toOption
  let ends ← (leafEnds (.hlsl packing) stage (v.visits (.root v.name) false)
    ⟨Rule.skipRegisters 0 register, [], #[]⟩).toOption
  ends.mapM (table.leafRange? stage v.isSampler)

end UniformTable

namespace Variable

def rangesFrom (v : Variable) (packing : Packing) (register : UInt32) : List LeafRange :=
  ((Rule.hlsl packing).reached Leaf.registerShape (v.visits (.root v.name) false)
    (registerWidth * register.toNat)).map fun met =>
      ⟨met.1, v.isSampler, met.1.noteAt met.2,
        (Rule.hlsl packing).moveAt Leaf.registerShape met.2 (.leaf met.1)⟩

variable {v : Variable} {packing : Packing} {register : UInt32}

theorem map_leaf_rangesFrom (v : Variable) (packing : Packing) (register : UInt32) :
    (v.rangesFrom packing register).map LeafRange.leaf = v.leaves := by
  rw [rangesFrom, List.map_map]
  exact Rule.map_fst_reached _ _

theorem rangesFrom_bounds {r : LeafRange} (h : r ∈ v.rangesFrom packing register) :
    r.isSampler = v.isSampler ∧ registerWidth * register.toNat ≤ r.first ∧ r.first < r.finish ∧
      r.finish ≤ (Rule.hlsl packing).endAt Leaf.registerShape (v.visits (.root v.name) false)
        (registerWidth * register.toNat) := by
  obtain ⟨met, hmet, rfl⟩ := List.mem_map.mp h
  obtain ⟨hlow, hhigh⟩ := Rule.reached_bounds Leaf.wellFormed_registerShape hmet
  exact ⟨rfl, Nat.le_trans hlow (met.1.le_noteAt met.2), met.1.noteAt_lt packing met.2, hhigh⟩

theorem pairwise_rangesFrom (v : Variable) (packing : Packing) (register : UInt32) :
    (v.rangesFrom packing register).Pairwise fun r s => r.finish ≤ s.first := by
  apply List.pairwise_map.mpr
  refine (Rule.pairwise_reached Leaf.wellFormed_registerShape _ _).imp ?_
  intro met next hle
  exact Nat.le_trans hle (next.1.le_noteAt next.2)

end Variable

namespace UniformTable

theorem mapM_eq_some {α β : Type} {f : α → Option β} {g : α → β} {xs : List α}
    (h : ∀ x ∈ xs, f x = some (g x)) : xs.mapM f = some (xs.map g) := by
  induction xs with
  | nil => rfl
  | cons x xs ih =>
    rw [List.mapM_cons, h x List.mem_cons_self, ih fun y hy => h y (List.mem_cons_of_mem _ hy)]
    rfl

theorem leafRange?_of_mem {table : UniformTable} {stage : Stage} {isSampler : Bool} {leaf : Leaf}
    {position : Nat} (finish : Nat) (hnames : (table.map UniformEntry.name).Nodup)
    (hmem : leaf.linkedAt stage position ∈ table)
    (hnote : leaf.noteAt position ≤ registerWidth * maxWord) :
    table.leafRange? stage isSampler (leaf, finish) =
      some ⟨leaf, isSampler, leaf.noteAt position, finish⟩ := by
  have hget := get?_of_mem hnames hmem
  have hregister : (leaf.linkedAt stage position).registers.get stage =
      some (clampWord (register (leaf.noteAt position))) := PerStage.get_set ..
  have helement : (leaf.linkedAt stage position).element.toNat = element (leaf.noteAt position) := by
    have hlt : element (leaf.noteAt position) < 4 := Nat.mod_lt _ (by decide)
    exact UInt32.toNat_ofNat_of_lt (Nat.lt_trans hlt (by decide))
  have hfirst : registerWidth * (clampWord (register (leaf.noteAt position))).toNat +
      element (leaf.noteAt position) = leaf.noteAt position := by
    rw [toNat_clampWord]
    unfold register element registerWidth at *
    omega
  rw [Leaf.name_linkedAt] at hget
  simp only [leafRange?, hget, hregister, helement, hfirst, bind, Option.bind]
  rfl

theorem ranges?_of_fresh {table : UniformTable} {stage : Stage} {output : Output}
    {packing : Packing} {v : Variable} {register : UInt32} (hp : output.packing = .ok packing)
    (hroom : (Rule.hlsl packing).endAt Leaf.registerShape (v.visits (.root v.name) false)
      (registerWidth * register.toNat) ≤ registerWidth * maxWord)
    (hleaves : (v.leaves.map Leaf.uniformName).Nodup)
    (hnames : (table.map UniformEntry.name).Nodup)
    (hentries : ∀ entry ∈ v.entriesFrom packing stage register, entry ∈ table) :
    table.ranges? stage output v register = some (v.rangesFrom packing register) := by
  obtain ⟨-, hends⟩ := @foldlM_linking_of_fresh packing stage (v.visits (.root v.name) false)
    ⟨registerWidth * register.toNat, [], #[]⟩ (Nat.le_trans hroom (by decide)) hleaves
  simp only [ranges?, hp, Rule.skipRegisters_zero, hends, Except.toOption, bind, Option.bind]
  rw [List.mapM_map, Variable.rangesFrom]
  apply mapM_eq_some
  intro met hmet
  apply leafRange?_of_mem _ hnames
  · exact hentries _ (List.mem_map.mpr ⟨met, hmet, rfl⟩)
  · obtain ⟨-, hhigh⟩ := Rule.reached_bounds Leaf.wellFormed_registerShape hmet
    have hlt := met.1.noteAt_lt packing met.2
    omega

theorem map_name_entries (windows : List Window) (packing : Packing) (stage : Stage) :
    (windows.flatMap fun w => w.uniform.entriesFrom packing stage w.base).map UniformEntry.name =
      leafNames (windows.map Window.uniform) := by
  rw [List.map_flatMap, leafNames, List.flatMap_map]
  simp only [Variable.map_name_entriesFrom]

end UniformTable

namespace Window

variable {later earlier : Allocator} {packing : Packing}

theorem Granted.range_bounds {w : Window} (h : w.Granted later earlier)
    (hp : earlier.output.packing = .ok packing)
    (hsmall : (later.nextFor w.uniform.isSampler).toNat < maxWord) {r : LeafRange}
    (hr : r ∈ w.uniform.rangesFrom packing w.base) :
    r.isSampler = w.uniform.isSampler ∧ registerWidth * w.base.toNat ≤ r.first ∧
      r.first < r.finish ∧ r.finish ≤ registerWidth * (w.base.toNat + w.count.toNat) := by
  obtain ⟨hfile, hlow, hlt, hhigh⟩ := Variable.rangesFrom_bounds hr
  obtain ⟨hend, -⟩ := h.endAt_le hp hsmall
  exact ⟨hfile, hlow, hlt, Nat.le_trans hhigh hend⟩

theorem pairwise_ranges {windows : List Window} (hp : earlier.output.packing = .ok packing)
    (hsmall : ∀ file, (later.nextFor file).toNat < maxWord)
    (hgranted : ∀ w ∈ windows, w.Granted later earlier)
    (hordered : windows.Pairwise fun w next => w.uniform.isSampler = next.uniform.isSampler →
      w.base.toNat + w.count.toNat ≤ next.base.toNat) :
    (windows.flatMap fun w => w.uniform.rangesFrom packing w.base).Pairwise fun r s =>
      r.isSampler = s.isSampler → r.finish ≤ s.first := by
  refine List.pairwise_flatMap.mpr ⟨?_, ?_⟩
  · intro w hw
    refine (w.uniform.pairwise_rangesFrom packing w.base).imp ?_
    intro r s hle _
    exact hle
  · refine hordered.imp_of_mem ?_
    intro w next hw hnext hle r hr s hs hfile
    obtain ⟨hfirst, -, -, hhigh⟩ := (hgranted w hw).range_bounds hp (hsmall _) hr
    obtain ⟨hsecond, hlow, -, -⟩ := (hgranted next hnext).range_bounds hp (hsmall _) hs
    rw [hfirst, hsecond] at hfile
    calc r.finish
        ≤ registerWidth * (w.base.toNat + w.count.toNat) := hhigh
      _ ≤ registerWidth * next.base.toNat := Nat.mul_le_mul_left _ (hle hfile)
      _ ≤ s.first := hlow

end Window

namespace UniformTable

/-- No two uniforms of a stage share storage: leaves in a register file take their components one
after the other, each inside the registers that its uniform was given. -/
theorem linkStage_disjoint {output : Output} {stage : Stage} {uniforms : List Variable}
    {table : UniformTable} {allocator : Allocator} {events : List Event}
    (ho : output.isHlsl = true) (hnames : ((usedUniforms uniforms).map Variable.name).Nodup)
    (hleaves : (leafNames (usedUniforms uniforms)).Nodup)
    (h : linkStage stage uniforms [] (.start output stage) = .ok ⟨(table, allocator), events⟩)
    (hvectors : allocator.vectors.toNat < maxWord) (hsamplers : allocator.samplers.toNat < maxWord) :
    ∃ ranges : Variable → List LeafRange,
      (∀ v ∈ usedUniforms uniforms, ∃ base count : UInt32,
        allocator.uniformRegister? v.name = some base ∧ uniformRegisters output v = .ok count ∧
        table.ranges? stage output v base = some (ranges v) ∧
        (ranges v).map LeafRange.leaf = v.leaves ∧
        ∀ r ∈ ranges v, r.isSampler = v.isSampler ∧ registerWidth * base.toNat ≤ r.first ∧
          r.first < r.finish ∧ r.finish ≤ registerWidth * (base.toNat + count.toNat) ∧
          (v.isSampler = false →
            registerWidth * (Allocator.driverVectors output stage).toNat ≤ r.first)) ∧
      ((usedUniforms uniforms).flatMap ranges).Pairwise fun r s =>
        r.isSampler = s.isSampler → r.finish ≤ s.first := by
  obtain ⟨packing, hp⟩ : ∃ packing, output.packing = .ok packing := by
    cases output with
    | essl | glsl => cases ho
    | hlsl9 | hlsl11 => exact ⟨_, rfl⟩
  have hsmall : ∀ file, (allocator.nextFor file).toNat < maxWord := by
    intro file
    cases file with
    | false => exact hvectors
    | true => exact hsamplers
  obtain ⟨windows, huniforms, hgranted, hordered, htable⟩ :=
    @linkStage_windows packing stage uniforms [] table (.start output stage) allocator events hp hnames
      (fun _ _ => rfl) hleaves h hsmall
  have hentries : (table.map UniformEntry.name).Nodup := by
    rw [htable, List.nil_append, map_name_entries, huniforms]
    exact hleaves
  let ranges (v : Variable) : List LeafRange :=
    v.rangesFrom packing ((allocator.uniformRegister? v.name).getD 0)
  have hranges : ∀ w ∈ windows, ranges w.uniform = w.uniform.rangesFrom packing w.base := by
    intro w hw
    simp only [ranges, (hgranted w hw).register_eq, Option.getD_some]
  refine ⟨ranges, ?_, ?_⟩
  · intro v hv
    have hown : (v.leaves.map Leaf.uniformName).Nodup := (List.pairwise_flatMap.mp hleaves).1 v hv
    rw [← huniforms] at hv
    obtain ⟨w, hw, rfl⟩ := List.mem_map.mp hv
    have hw' := hgranted w hw
    obtain ⟨hend, hwords⟩ := hw'.endAt_le hp (hsmall _)
    rw [hranges w hw]
    refine ⟨w.base, w.count, hw'.register_eq, hw'.count_eq, ?_, Variable.map_leaf_rangesFrom .., ?_⟩
    · apply ranges?_of_fresh hp (Nat.le_trans hend hwords) hown hentries
      intro entry hentry
      rw [htable]
      exact List.mem_flatMap.mpr ⟨w, hw, hentry⟩
    · intro r hr
      obtain ⟨hfile, hlow, hlt, hhigh⟩ := hw'.range_bounds hp (hsmall _) hr
      refine ⟨hfile, hlow, hlt, hhigh, ?_⟩
      intro hvector
      have hnext := hw'.next_le
      rw [hvector, Allocator.nextFor_false, Allocator.vectors_start] at hnext
      exact Nat.le_trans (Nat.mul_le_mul_left _ hnext) hlow
  · have hpairs := Window.pairwise_ranges hp hsmall hgranted hordered
    have hmap : (usedUniforms uniforms).flatMap ranges =
        windows.flatMap fun w => w.uniform.rangesFrom packing w.base := by
      rw [← huniforms, List.flatMap_map, List.flatMap_def, List.map_congr_left hranges,
        ← List.flatMap_def]
    rw [hmap]
    exact hpairs

def litUniforms : List Variable :=
  [.struct ⟨"lights", 2, false, true⟩
      [.basic ⟨"power", 0, false, true⟩ (.vector .float .one),
        .basic ⟨"color", 0, false, true⟩ (.vector .float .three),
        .basic ⟨"weights", 2, false, true⟩ (.vector .float .one),
        .basic ⟨"cone", 0, false, true⟩ (.matrix .two .three)],
    .basic ⟨"shadows", 3, false, true⟩ (.sampler .flatShadow),
    .basic ⟨"unused", 0, false, false⟩ (.matrix .four .four),
    .struct ⟨"fog", 0, false, true⟩
      [.basic ⟨"noise", 0, false, true⟩ (.sampler .flat),
        .basic ⟨"range", 0, false, true⟩ (.vector .float .two)],
    .basic ⟨"sky", 0, false, true⟩ (.sampler .cube)]

theorem linkStage_disjoint_litUniforms :
    ∃ table allocator events,
      linkStage .fragment litUniforms [] (.start .hlsl9 .fragment) =
        .ok ⟨(table, allocator), events⟩ ∧
      allocator.vectors = 17 ∧ allocator.samplers = 4 ∧
      ∃ ranges : Variable → List LeafRange,
        (∀ v ∈ usedUniforms litUniforms, ∃ base count : UInt32,
          allocator.uniformRegister? v.name = some base ∧ uniformRegisters .hlsl9 v = .ok count ∧
          table.ranges? .fragment .hlsl9 v base = some (ranges v) ∧
          (ranges v).map LeafRange.leaf = v.leaves ∧
          ∀ r ∈ ranges v, r.isSampler = v.isSampler ∧ registerWidth * base.toNat ≤ r.first ∧
            r.first < r.finish ∧ r.finish ≤ registerWidth * (base.toNat + count.toNat) ∧
            (v.isSampler = false → registerWidth * 3 ≤ r.first)) ∧
        ((usedUniforms litUniforms).flatMap ranges).Pairwise fun r s =>
          r.isSampler = s.isSampler → r.finish ≤ s.first := by
  have hrun : (linkStage .fragment litUniforms [] (.start .hlsl9 .fragment)).toOption.map
      (fun linked => (linked.value.2.vectors, linked.value.2.samplers)) = some (17, 4) := by
    decide +kernel
  cases h : linkStage .fragment litUniforms [] (.start .hlsl9 .fragment) with
  | error fault =>
    rw [h] at hrun
    cases hrun
  | ok linked =>
    obtain ⟨⟨table, allocator⟩, events⟩ := linked
    rw [h] at hrun
    obtain ⟨hvectors, hsamplers⟩ : allocator.vectors = 17 ∧ allocator.samplers = 4 := by
      simpa [Except.toOption] using hrun
    refine ⟨table, allocator, events, rfl, hvectors, hsamplers, ?_⟩
    exact linkStage_disjoint rfl (by decide) (by decide) h (by rw [hvectors]; decide)
      (by rw [hsamplers]; decide)

end UniformTable

end ShaderInterface
