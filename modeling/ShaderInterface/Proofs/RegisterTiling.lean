import ShaderInterface.Proofs.Relinking

namespace ShaderInterface

inductive RegisterFile where
  | vectors
  | samplers
  | blocks
  deriving DecidableEq, Repr

/-- A name that was declared. Uniforms and blocks have names of their own. -/
inductive DeclaredName where
  | uniform (name : String)
  | block (name : String)
  deriving DecidableEq, Repr

/-- What an allocator is asked for: to keep registers, or to give some to a declaration. -/
inductive Demand where
  | keepVectors (count : UInt32)
  | keepBlocks (count : UInt32)
  | uniform (v : Variable)
  | block (declaration : BlockDeclaration)

namespace Demand

def file : Demand → RegisterFile
  | keepVectors _ => .vectors
  | keepBlocks _ => .blocks
  | uniform v => if v.isSampler then .samplers else .vectors
  | block _ => .blocks

def name? : Demand → Option DeclaredName
  | keepVectors _ => none
  | keepBlocks _ => none
  | uniform v => some (.uniform v.name)
  | block declaration => some (.block declaration.decl.name)

/-- The registers that a demand takes where its name is new; none for a uniform without a count. -/
def registers (output : Output) : Demand → Nat
  | keepVectors count => count.toNat
  | keepBlocks count => count.toNat
  | uniform v =>
    match uniformRegisters output v with
    | .ok count => count.toNat
    | .error _ => 0
  | block declaration => declaration.decl.elementCount

def isNew (before : List Demand) (d : Demand) : Bool :=
  d.name?.all fun name => !before.any fun earlier => earlier.name? = some name

/-- The demands that take registers: a name that was declared before takes none. -/
def granted : List Demand → List Demand
  | [] => []
  | d :: ds => d :: (granted ds).filter fun later => later.isNew [d]

/-- The registers of a file that some demands take if all their names are new, in unbounded numbers. -/
def total (output : Output) (file : RegisterFile) : List Demand → Nat
  | [] => 0
  | d :: ds => (if d.file = file then d.registers output else 0) + total output file ds

def taken (output : Output) (file : RegisterFile) (demands : List Demand) : Nat :=
  total output file (granted demands)

/-- The first of some demands that declares a name, with those before it. -/
def FirstDeclares (demands before : List Demand) (d : Demand) (name : DeclaredName) : Prop :=
  d.name? = some name ∧ some name ∉ before.map name? ∧ ∃ after, demands = before ++ d :: after

theorem isNew_iff {before : List Demand} {d : Demand} :
    d.isNew before = true ↔ ∀ name, d.name? = some name → some name ∉ before.map name? := by
  cases hname : d.name? with
  | none => simp [isNew, hname]
  | some name => simp [isNew, hname]

theorem isNew_cons (e : Demand) (before : List Demand) (d : Demand) :
    d.isNew (e :: before) = (d.isNew [e] && d.isNew before) := by
  cases hname : d.name? with
  | none => simp [isNew, hname]
  | some name => simp [isNew, hname]

theorem granted_concat (done : List Demand) (d : Demand) :
    granted (done ++ [d]) = granted done ++ if d.isNew done then [d] else [] := by
  induction done with
  | nil =>
    have hnew : d.isNew [] = true := isNew_iff.mpr (by simp)
    simp [granted, hnew]
  | cons e done ih =>
    simp only [List.cons_append, granted, ih, List.filter_append, isNew_cons e done d]
    cases d.isNew done <;> cases hfirst : d.isNew [e] <;> simp [hfirst]

theorem total_append (output : Output) (file : RegisterFile) (ds es : List Demand) :
    total output file (ds ++ es) = total output file ds + total output file es := by
  induction ds with
  | nil => simp [total]
  | cons d ds ih => rw [List.cons_append, total, total, ih, Nat.add_assoc]

theorem taken_concat (output : Output) (file : RegisterFile) (done : List Demand) (d : Demand) :
    taken output file (done ++ [d]) = taken output file done +
      if d.isNew done = true ∧ d.file = file then d.registers output else 0 := by
  rw [taken, granted_concat, total_append]
  cases d.isNew done with
  | false => simp [taken, total]
  | true => simp [taken, total]

theorem exists_firstDeclares {demands : List Demand} {name : DeclaredName}
    (h : some name ∈ demands.map name?) : ∃ before d, FirstDeclares demands before d name := by
  obtain ⟨front, back, hsplit, hnot⟩ := List.eq_append_cons_of_mem h
  obtain ⟨before, rest, hdemands, hfront, hrest⟩ := List.map_eq_append_iff.mp hsplit
  obtain ⟨d, after, hcons, hd, -⟩ := List.map_eq_cons_iff.mp hrest
  refine ⟨before, d, hd, ?_, after, ?_⟩
  · rwa [hfront]
  · rw [hdemands, hcons]

theorem firstDeclares_concat {done before : List Demand} {d e : Demand} {name : DeclaredName}
    (h : FirstDeclares (done ++ [d]) before e name) :
    FirstDeclares done before e name ∨ before = done ∧ e = d ∧ d.isNew done = true := by
  obtain ⟨hname, hfirst, after, hsplit⟩ := h
  rcases List.eq_nil_or_concat after with rfl | ⟨after, last, rfl⟩
  · obtain ⟨hdone, hlast⟩ := List.append_inj' hsplit rfl
    obtain rfl : d = e := by simpa using hlast
    subst hdone
    refine .inr ⟨rfl, rfl, isNew_iff.mpr ?_⟩
    intro other hother
    rw [hname] at hother
    cases hother
    exact hfirst
  · left
    refine ⟨hname, hfirst, after, ?_⟩
    have hcut : done ++ [d] = (before ++ e :: after) ++ [last] := by simpa using hsplit
    exact (List.append_inj' hcut rfl).1

end Demand

namespace Allocator

open Demand

def counter (allocator : Allocator) : RegisterFile → UInt32
  | .vectors => allocator.vectors
  | .samplers => allocator.samplers
  | .blocks => allocator.blocks

def register? (allocator : Allocator) : DeclaredName → Option UInt32
  | .uniform name => allocator.uniformRegister? name
  | .block name => allocator.blockRegister? name

/-- Meets a demand. Only a declaration is answered with a register. -/
def meet (allocator : Allocator) : Demand → Except Fault (Option UInt32 × Allocator)
  | .keepVectors count => return (none, allocator.reserveVectors count)
  | .keepBlocks count => return (none, allocator.reserveBlocks count)
  | .uniform v => do
    let assigned ← allocator.assignUniform v
    return (some assigned.register, assigned.allocator)
  | .block declaration =>
    let assigned := allocator.assignBlock declaration
    return (some assigned.register, assigned.allocator)

def meetAll (allocator : Allocator) : List Demand → Except Fault (List (Option UInt32) × Allocator)
  | [] => return ([], allocator)
  | d :: ds => do
    let (answer, next) ← allocator.meet d
    let (answers, final) ← next.meetAll ds
    return (answer :: answers, final)

/-- An allocator after it gave registers to a demand whose name it did not know: the counter of the
file moves on, and the name has the registers from where it stood. -/
structure Gives (allocator next : Allocator) (d : Demand) : Prop where
  new : ∀ name, d.name? = some name → allocator.register? name = none
  counted : ∀ v, d = .uniform v → ∃ count, uniformRegisters allocator.output v = .ok count
  output_eq : next.output = allocator.output
  counter_self : (next.counter d.file).toNat =
    min ((allocator.counter d.file).toNat + d.registers allocator.output) maxWord
  counter_other : ∀ file, file ≠ d.file → next.counter file = allocator.counter file
  register_self : ∀ name, d.name? = some name →
    next.register? name = some (allocator.counter d.file)
  register_other : ∀ name, d.name? ≠ some name → next.register? name = allocator.register? name

theorem gives_keepVectors (allocator : Allocator) (count : UInt32) :
    allocator.Gives (allocator.reserveVectors count) (.keepVectors count) where
  new name hname := by cases hname
  counted v hv := by cases hv
  output_eq := rfl
  counter_self := toNat_clampWord _
  counter_other file hfile := by
    cases file with
    | vectors => exact absurd rfl hfile
    | samplers | blocks => rfl
  register_self name hname := by cases hname
  register_other name _ := by cases name <;> rfl

theorem gives_keepBlocks (allocator : Allocator) (count : UInt32) :
    allocator.Gives (allocator.reserveBlocks count) (.keepBlocks count) where
  new name hname := by cases hname
  counted v hv := by cases hv
  output_eq := rfl
  counter_self := toNat_clampWord _
  counter_other file hfile := by
    cases file with
    | blocks => exact absurd rfl hfile
    | samplers | vectors => rfl
  register_self name hname := by cases hname
  register_other name _ := by cases name <;> rfl

theorem counter_uniform (allocator : Allocator) (v : Variable) :
    allocator.counter (Demand.uniform v).file = allocator.nextFor v.isSampler := by
  cases hv : v.isSampler <;> simp [Demand.file, hv, counter]

theorem gives_take {allocator : Allocator} {v : Variable} {count : UInt32}
    (hnew : allocator.uniformRegister? v.name = none)
    (hcount : uniformRegisters allocator.output v = .ok count) :
    allocator.Gives (allocator.take v.name v.isSampler count) (.uniform v) where
  new name hname := by
    cases hname
    exact hnew
  counted w hw := by
    cases hw
    exact ⟨count, hcount⟩
  output_eq := output_take ..
  counter_self := by
    rw [counter_uniform, counter_uniform, toNat_nextFor_take_self]
    simp [Demand.registers, hcount]
  counter_other file hfile := by
    cases file with
    | blocks => cases v.isSampler <;> rfl
    | vectors | samplers => cases hv : v.isSampler <;> simp_all [Demand.file, counter, take]
  register_self name hname := by
    cases hname
    rw [counter_uniform]
    exact uniformRegister?_take_self ..
  register_other name hname := by
    cases name with
    | block name => exact congrArg (List.lookup name) (blockSlots_take ..)
    | uniform name =>
      have hne : name ≠ v.name := by
        rintro rfl
        exact hname rfl
      exact uniformRegister?_take_of_ne _ _ _ hne

theorem gives_assignBlock {allocator : Allocator} {declaration : BlockDeclaration}
    (hnew : allocator.blockRegister? declaration.decl.name = none) :
    allocator.Gives (allocator.assignBlock declaration).allocator (.block declaration) := by
  obtain ⟨hregister, hcounter, hkept⟩ := Program.assignBlock_of_new hnew
  have hself := allocator.blockRegister?_assignBlock declaration
  rw [hregister] at hself
  have hrest : (allocator.assignBlock declaration).allocator =
      { allocator with
        blocks := (allocator.assignBlock declaration).allocator.blocks
        blockSlots := (allocator.assignBlock declaration).allocator.blockSlots } := by
    unfold assignBlock
    rw [hnew]
  constructor
  · intro name hname
    cases hname
    exact hnew
  · intro v hv
    cases hv
  · rw [hrest]
  · change (allocator.assignBlock declaration).allocator.blocks.toNat = _
    rw [hcounter, toNat_clampWord]
    rfl
  · intro file hfile
    cases file with
    | blocks => exact absurd rfl hfile
    | vectors | samplers => rw [hrest]; rfl
  · intro name hname
    cases hname
    exact hself
  · intro name hname
    cases name with
    | uniform name => rw [hrest]; rfl
    | block name =>
      apply hkept
      rintro rfl
      exact hname rfl

/-- What meeting a demand can do: nothing, if it declares a name that is known, or else give registers
to it. -/
theorem meet_cases {allocator next : Allocator} {d : Demand} {answer : Option UInt32}
    (h : allocator.meet d = .ok (answer, next)) :
    (∃ name register, d.name? = some name ∧ allocator.register? name = some register ∧
        answer = some register ∧ next = allocator) ∨
      allocator.Gives next d ∧ answer = d.name?.map fun _ => allocator.counter d.file := by
  cases d with
  | keepVectors count =>
    cases h
    exact .inr ⟨gives_keepVectors .., rfl⟩
  | keepBlocks count =>
    cases h
    exact .inr ⟨gives_keepBlocks .., rfl⟩
  | uniform v =>
    obtain ⟨assigned, hassign, h⟩ := bind_eq_ok.mp h
    cases h
    cases hknown : allocator.uniformRegister? v.name with
    | some register =>
      rw [assignUniform_of_known hknown] at hassign
      cases hassign
      exact .inl ⟨.uniform v.name, register, rfl, hknown, rfl, rfl⟩
    | none =>
      obtain ⟨count, hcount, hregister, hnext⟩ := assignUniform_of_new hknown hassign
      rw [hregister, hnext, ← counter_uniform]
      exact .inr ⟨gives_take hknown hcount, rfl⟩
  | block declaration =>
    cases h
    cases hknown : allocator.blockRegister? declaration.decl.name with
    | some register =>
      rw [assignBlock_of_known hknown]
      exact .inl ⟨.block declaration.decl.name, register, rfl, hknown, rfl, rfl⟩
    | none =>
      rw [(Program.assignBlock_of_new hknown).1]
      exact .inr ⟨gives_assignBlock hknown, rfl⟩

/-- An allocator that met some demands from the start. -/
structure Tiled (output : Output) (done : List Demand) (allocator : Allocator) : Prop where
  output_eq : allocator.output = output
  counted : ∀ v, .uniform v ∈ granted done → ∃ count, uniformRegisters output v = .ok count
  counter_eq : ∀ file, (allocator.counter file).toNat = min (taken output file done) maxWord
  register_eq : ∀ before d name, FirstDeclares done before d name →
    allocator.register? name = some (clampWord (taken output d.file before))
  register_none : ∀ name, some name ∉ done.map name? → allocator.register? name = none

theorem tiled_empty (output : Output) : Tiled output [] (empty output) where
  output_eq := rfl
  counted v hv := absurd hv List.not_mem_nil
  counter_eq file := by cases file <;> rfl
  register_eq before d name hfirst := by
    obtain ⟨-, -, after, hsplit⟩ := hfirst
    simp at hsplit
  register_none name _ := by cases name <;> rfl

section Step

variable {output : Output} {done : List Demand} {allocator next : Allocator} {d : Demand}

theorem Tiled.register?_eq_none_iff (h : Tiled output done allocator) (name : DeclaredName) :
    allocator.register? name = none ↔ some name ∉ done.map name? := by
  refine ⟨?_, h.register_none name⟩
  intro hnone hmem
  obtain ⟨before, first, hfirst⟩ := exists_firstDeclares hmem
  rw [h.register_eq before first name hfirst] at hnone
  cases hnone

theorem Tiled.of_known (h : Tiled output done allocator) {name : DeclaredName} {register : UInt32}
    (hname : d.name? = some name) (hknown : allocator.register? name = some register) :
    Tiled output (done ++ [d]) allocator := by
  have hmem : some name ∈ done.map name? := by
    apply Classical.byContradiction
    intro hnot
    rw [h.register_none name hnot] at hknown
    cases hknown
  have hold : d.isNew done = false := by
    apply Bool.eq_false_iff.mpr
    intro hnew
    exact isNew_iff.mp hnew name hname hmem
  refine ⟨h.output_eq, ?_, ?_, ?_, ?_⟩
  · simpa [granted_concat, hold] using h.counted
  · intro file
    simpa [taken_concat, hold] using h.counter_eq file
  · intro before e other hfirst
    rcases firstDeclares_concat hfirst with hfirst | ⟨-, -, hnew⟩
    · exact h.register_eq before e other hfirst
    · rw [hold] at hnew
      cases hnew
  · intro other hnot
    apply h.register_none
    intro hin
    apply hnot
    simp only [List.map_append, List.mem_append]
    exact .inl hin

theorem Tiled.of_gives (h : Tiled output done allocator) (hgives : allocator.Gives next d) :
    Tiled output (done ++ [d]) next := by
  have hnew : d.isNew done = true := by
    apply isNew_iff.mpr
    intro name hname
    exact (h.register?_eq_none_iff name).mp (hgives.new name hname)
  refine ⟨hgives.output_eq.trans h.output_eq, ?_, ?_, ?_, ?_⟩
  · intro v hv
    rw [granted_concat, if_pos hnew] at hv
    rcases List.mem_append.mp hv with hv | hv
    · exact h.counted v hv
    · rw [← h.output_eq]
      exact hgives.counted v (List.mem_singleton.mp hv).symm
  · intro file
    have hcounter := h.counter_eq file
    by_cases hfile : d.file = file
    · subst hfile
      rw [hgives.counter_self, h.output_eq, taken_concat, if_pos ⟨hnew, rfl⟩]
      omega
    · rw [hgives.counter_other file (Ne.symm hfile), taken_concat, if_neg fun hc => hfile hc.2]
      exact hcounter
  · intro before e name hfirst
    rcases firstDeclares_concat hfirst with hfirst' | ⟨rfl, rfl, -⟩
    · have hregister := h.register_eq before e name hfirst'
      rw [hgives.register_other name ?_, hregister]
      intro hname
      rw [hgives.new name hname] at hregister
      cases hregister
    · -- The counter stood at the sum that the demands before this one had taken.
      rw [hgives.register_self name hfirst.1]
      apply congrArg some
      apply UInt32.toNat_inj.mp
      rw [h.counter_eq, toNat_clampWord]
  · intro name hnot
    simp only [List.map_append, List.map_cons, List.map_nil, List.mem_append, List.mem_singleton,
      not_or] at hnot
    rw [hgives.register_other name (Ne.symm hnot.2)]
    exact h.register_none name hnot.1

/-- One demand. It is answered with the register that its name then has, and names keep theirs. -/
theorem Tiled.meet {answer : Option UInt32} (h : Tiled output done allocator)
    (hmeet : allocator.meet d = .ok (answer, next)) :
    Tiled output (done ++ [d]) next ∧ answer = d.name?.bind next.register? ∧
      ∀ name register, allocator.register? name = some register →
        next.register? name = some register := by
  rcases meet_cases hmeet with ⟨name, register, hname, hknown, rfl, rfl⟩ | ⟨hgives, rfl⟩
  · refine ⟨h.of_known hname hknown, ?_, fun _ _ hr => hr⟩
    rw [hname, Option.bind_some, hknown]
  · refine ⟨h.of_gives hgives, ?_, ?_⟩
    · cases hname : d.name? with
      | none => rfl
      | some name => exact (hgives.register_self name hname).symm
    · intro name register hr
      rw [hgives.register_other name ?_, hr]
      intro hname
      rw [hgives.new name hname] at hr
      cases hr

end Step

theorem Tiled.meetAll {output : Output} {done demands : List Demand} {allocator final : Allocator}
    {answers : List (Option UInt32)} (h : Tiled output done allocator)
    (hmeet : allocator.meetAll demands = .ok (answers, final)) :
    Tiled output (done ++ demands) final ∧
      (answers = demands.map fun d => d.name?.bind final.register?) ∧
      ∀ name register, allocator.register? name = some register →
        final.register? name = some register := by
  induction demands generalizing done allocator answers with
  | nil =>
    cases hmeet
    exact ⟨by simpa using h, rfl, fun _ _ hr => hr⟩
  | cons d ds ih =>
    obtain ⟨⟨answer, next⟩, hfirst, hmeet⟩ := bind_eq_ok.mp hmeet
    obtain ⟨⟨rest, last⟩, hrest, hmeet⟩ := bind_eq_ok.mp hmeet
    cases hmeet
    obtain ⟨hnext, hanswer, hkept⟩ := h.meet hfirst
    obtain ⟨hfinal, hanswers, hlater⟩ := ih hnext hrest
    refine ⟨by simpa using hfinal, ?_, fun name register hr => hlater _ _ (hkept _ _ hr)⟩
    rw [List.map_cons, hanswers, hanswer]
    cases hname : d.name? with
    | none => rfl
    | some name =>
      -- After its demand the name is known, and what is known stays.
      have hknown : next.register? name ≠ none := by
        rw [Ne, hnext.register?_eq_none_iff, not_not]
        simp [hname]
      obtain ⟨register, hregister⟩ := Option.ne_none_iff_exists'.mp hknown
      simp only [Option.bind_some, hregister, hlater name register hregister]

/-- An allocator gives out its registers without gaps and without overlaps, whatever it is asked
for. All sums are cut off at the largest word. -/
theorem meetAll_tiles {output : Output} {demands : List Demand} {allocator : Allocator}
    {answers : List (Option UInt32)} (h : (empty output).meetAll demands = .ok (answers, allocator)) :
    (∀ v, .uniform v ∈ granted demands → ∃ count, uniformRegisters output v = .ok count) ∧
    allocator.vectors.toNat = min (taken output .vectors demands) maxWord ∧
    allocator.samplers.toNat = min (taken output .samplers demands) maxWord ∧
    allocator.blocks.toNat = min (taken output .blocks demands) maxWord ∧
    (∀ before first name, FirstDeclares demands before first name →
      (∀ (i : Nat) (d : Demand), demands[i]? = some d → d.name? = some name →
        answers[i]? = some (some (clampWord (taken output first.file before)))) ∧
      allocator.register? name = some (clampWord (taken output first.file before))) ∧
    ∀ name, some name ∉ demands.map name? → allocator.register? name = none := by
  obtain ⟨htiled, hanswers, -⟩ := (tiled_empty output).meetAll h
  rw [List.nil_append] at htiled
  refine ⟨htiled.counted, htiled.counter_eq .vectors, htiled.counter_eq .samplers,
    htiled.counter_eq .blocks, ?_, htiled.register_none⟩
  intro before first name hfirst
  have hregister := htiled.register_eq before first name hfirst
  refine ⟨?_, hregister⟩
  intro i d hi hname
  rw [hanswers, List.getElem?_map, hi, Option.map_some, hname, Option.bind_some, hregister]

/-- Declarations of all files between registers that are kept. A sampler is declared again as a vector
and a matrix as a scalar, a block of a name has another size the second time, and the vectors run
out. -/
def mixedDemands : List Demand :=
  [.keepVectors 3, .uniform (.basic ⟨"model", 0, false, true⟩ (.matrix .four .four)),
    .uniform (.basic ⟨"tex", 2, false, true⟩ (.sampler .flat)),
    .block ⟨⟨"Lamps", 3, false, true⟩, .standard, []⟩,
    .uniform (.basic ⟨"tex", 5, false, true⟩ (.vector .float .four)), .keepBlocks 2,
    .uniform (.basic ⟨"model", 0, false, true⟩ (.vector .float .one)),
    .uniform (.basic ⟨"tint", 0, false, true⟩ (.vector .float .four)),
    .block ⟨⟨"Lamps", 0, false, true⟩, .packed, []⟩, .block ⟨⟨"tint", 0, false, true⟩, .shared, []⟩,
    .keepVectors 0xFFFFFFFF, .uniform (.basic ⟨"late", 0, false, true⟩ (.vector .float .one)),
    .uniform (.basic ⟨"sky", 0, false, true⟩ (.sampler .cube))]

theorem meetAll_tiles_mixedDemands :
    ∃ answers allocator, (empty .hlsl9).meetAll mixedDemands = .ok (answers, allocator) ∧
      allocator.vectors.toNat = maxWord ∧ allocator.samplers.toNat = 3 ∧
      allocator.blocks.toNat = 6 ∧ answers[2]? = some (some 0) ∧ answers[4]? = some (some 0) ∧
      allocator.register? (.uniform "tex") = some 0 ∧ answers[11]? = some (some 0xFFFFFFFF) ∧
      allocator.register? (.uniform "late") = some 0xFFFFFFFF ∧
      allocator.register? (.block "late") = none := by
  obtain ⟨⟨answers, allocator⟩, h⟩ := exists_eq_ok
    (show ((empty .hlsl9).meetAll mixedDemands).isOk = true by decide +kernel)
  obtain ⟨-, hvectors, hsamplers, hblocks, hfirst, hnone⟩ := meetAll_tiles h
  have htex := hfirst (mixedDemands.take 2) _ (.uniform "tex") ⟨rfl, by decide, _, rfl⟩
  have hlate := hfirst (mixedDemands.take 11) _ (.uniform "late") ⟨rfl, by decide, _, rfl⟩
  have hzero : clampWord (taken .hlsl9 .samplers (mixedDemands.take 2)) = 0 := by decide +kernel
  have htop : clampWord (taken .hlsl9 .vectors (mixedDemands.take 11)) = 0xFFFFFFFF := by
    decide +kernel
  refine ⟨answers, allocator, h, hvectors.trans (by decide +kernel),
    hsamplers.trans (by decide +kernel), hblocks.trans (by decide +kernel), ?_⟩
  refine ⟨(htex.1 2 _ rfl rfl).trans ?_, (htex.1 4 _ rfl rfl).trans ?_, htex.2.trans ?_,
    (hlate.1 11 _ rfl rfl).trans ?_, hlate.2.trans ?_, hnone _ (by decide)⟩
  · exact congrArg (some ∘ some) hzero
  · exact congrArg (some ∘ some) hzero
  · exact congrArg some hzero
  · exact congrArg (some ∘ some) htop
  · exact congrArg some htop

end Allocator

end ShaderInterface
