import ShaderInterface.Proofs.LinkedLeaves

namespace ShaderInterface

open Position

def Position.nextWhole (position : Nat) : Nat := (position + registerWidth - 1) / registerWidth

/-- The registers that a leaf is charged for: the rows of all its elements. -/
def Leaf.registersCharged (leaf : Leaf) : Nat := leaf.type.registerCount * leaf.decl.elementCount

/-- The registers that a leaf is stored in: the columns of all its elements. -/
def Leaf.registersStored (leaf : Leaf) : Nat := leaf.registerShape.vectorTotal

/-- A leaf in the registers: noted at a position, and put in a place by the rule. -/
@[ext] structure LeafSpan where
  leaf : Leaf
  noted : Nat
  placement : Placement
  deriving DecidableEq, Repr

namespace LeafSpan

def name (span : LeafSpan) : String := span.leaf.uniformName

def register (span : LeafSpan) : UInt32 := clampWord (Position.register span.noted)

def entry (span : LeafSpan) : UniformEntry := span.leaf.entryAt span.noted

def linked (span : LeafSpan) (stage : Stage) : UniformEntry :=
  span.entry.setRegister stage span.register

theorem register_linked (span : LeafSpan) (stage : Stage) :
    (span.linked stage).registers.get stage = some span.register :=
  PerStage.get_set ..

def endRegister (span : LeafSpan) : Nat := nextWhole span.placement.finish

/-- The registers between where a leaf is noted and where it starts: one if the rule moved it on. -/
def displacement (span : LeafSpan) : Nat := if span.placement.start = span.noted then 0 else 1

end LeafSpan

@[ext] structure TraceProgress where
  position : Nat
  spans : List LeafSpan

namespace Rule

/-- Where linking notes a leaf that a walk meets at a position. An array starts a register. -/
def noteOf (rule : Rule) (leaf : Leaf) (position : Nat) : Except Fault Nat :=
  if leaf.decl.isArray then rule.enter position else .ok position

def spanOf (rule : Rule) (leaf : Leaf) (position : Nat) : Except Fault LeafSpan := do
  let noted ← rule.noteOf leaf position
  let placement ← rule.place leaf.registerShape noted
  return ⟨leaf, noted, placement⟩

/-- The walk that only says where the leaves are. -/
def tracing (rule : Rule) : Walk TraceProgress where
  enter s := return { s with position := ← rule.enter s.position }
  leaf leaf s := do
    let span ← rule.spanOf leaf s.position
    return ⟨span.placement.finish, s.spans ++ [span]⟩
  exit s := return { s with position := ← rule.exit s.position }

end Rule

def Variable.spansFrom (v : Variable) (output : Output) (register : UInt32) :
    Except Fault (List LeafSpan) := do
  let packing ← output.packing
  let s ← (Rule.hlsl packing).tracing.run (.root v.name) false v ⟨Rule.skipRegisters 0 register, []⟩
  return s.spans

namespace Rule

theorem startAt_hlsl (packing : Packing) (shape : Shape) (position : Nat) :
    (hlsl packing).startAt shape position = position ∨
      (hlsl packing).startAt shape position = roundUp position registerWidth := by
  cases packing with
  | packed =>
    simp only [startAt]
    split
    · exact .inr rfl
    · exact .inl rfl
  | loose => exact .inr rfl

/-- A value that is not moved stays in its register, and one that is moved starts the next. -/
theorem register_startAt (packing : Packing) (shape : Shape) (position : Nat) :
    register ((hlsl packing).startAt shape position) =
      register position + if (hlsl packing).startAt shape position = position then 0 else 1 := by
  rcases startAt_hlsl packing shape position with h | h
  · rw [if_pos h, h, Nat.add_zero]
  · rw [h]
    unfold register roundUp registerWidth
    split <;> omega

theorem exists_lastWidth (packing : Packing) {shape : Shape} (h : shape.WellFormed) (position : Nat) :
    ∃ width, 0 < width ∧
      (hlsl packing).extent shape = registerWidth * (shape.vectorTotal - 1) + width ∧
      element ((hlsl packing).startAt shape position) + width ≤ registerWidth := by
  have hpos := Shape.vectorWidth_pos h
  have hle := Shape.vectorWidth_le h
  have hround : element (roundUp position registerWidth) = 0 :=
    Nat.mod_eq_zero_of_dvd (dvd_roundUp position registerWidth)
  cases packing with
  | packed =>
    refine ⟨shape.vectorWidth, hpos, rfl, ?_⟩
    simp only [startAt]
    split
    case isTrue =>
      rw [hround, Nat.zero_add]
      exact hle
    case isFalse hstays =>
      have hmatrix : shape.isMatrix = false := by simp_all [Shape.isCompound]
      rw [Shape.vectorWidth_of_not_isMatrix hmatrix]
      omega
  | loose =>
    refine ⟨if shape.isMatrix then shape.vectorWidth else registerWidth, ?_, rfl, ?_⟩
    · split
      · exact hpos
      · decide
    · simp only [startAt, hround, Nat.zero_add]
      split
      · exact hle
      · exact Nat.le_refl _

theorem nextWhole_extent (packing : Packing) {shape : Shape} (h : shape.WellFormed) (position : Nat) :
    nextWhole ((hlsl packing).startAt shape position + (hlsl packing).extent shape) =
      register ((hlsl packing).startAt shape position) + shape.vectorTotal := by
  obtain ⟨width, hpos, hextent, hfits⟩ := exists_lastWidth packing h position
  have htotal := Shape.vectorTotal_pos h
  rw [hextent]
  unfold nextWhole register element registerWidth at *
  omega

end Rule

namespace Leaf

def spanAt (leaf : Leaf) (packing : Packing) (position : Nat) : LeafSpan where
  leaf := leaf
  noted := leaf.noteAt position
  placement :=
    ⟨leaf.registerShape, (Rule.hlsl packing).startAt leaf.registerShape position,
      min ((Rule.hlsl packing).moveAt Leaf.registerShape position (.leaf leaf)) last⟩

theorem spanOf_eq_ok {packing : Packing} {leaf : Leaf} {position : Nat} {span : LeafSpan}
    (hp : position ≤ last) (h : (Rule.hlsl packing).spanOf leaf position = .ok span) :
    span = leaf.spanAt packing position := by
  obtain ⟨noted, hnoted, h⟩ := bind_eq_ok.mp h
  obtain ⟨placement, hplace, h⟩ := bind_eq_ok.mp h
  cases h
  have hat : noted = leaf.noteAt position ∧ noted ≤ last := by
    unfold Rule.noteOf at hnoted
    unfold noteAt
    split at hnoted
    case isTrue ha =>
      rw [if_pos ha]
      exact Rule.nextRegister_eq_ok hnoted
    case isFalse ha =>
      cases hnoted
      rw [if_neg ha]
      exact ⟨rfl, hp⟩
  obtain ⟨rfl, hlast⟩ := hat
  rw [Rule.place_eq_ok leaf.wellFormed_registerShape hlast hplace, startAt_noteAt]
  rfl

/-- A leaf starts in the register where it is noted, or in the next if the rule moves it on. -/
theorem register_start_spanAt (leaf : Leaf) (packing : Packing) (position : Nat) :
    Position.register (leaf.spanAt packing position).placement.start =
      Position.register (leaf.spanAt packing position).noted +
        (leaf.spanAt packing position).displacement := by
  have h := Rule.register_startAt packing leaf.registerShape (leaf.noteAt position)
  rw [startAt_noteAt] at h
  exact h

theorem endRegister_spanAt (leaf : Leaf) (packing : Packing) (position : Nat) :
    (leaf.spanAt packing position).endRegister =
      min (Position.register (leaf.spanAt packing position).noted +
          (leaf.spanAt packing position).displacement + leaf.registersStored)
        (nextWhole last) := by
  have hend := Rule.nextWhole_extent packing leaf.wellFormed_registerShape position
  have hmin : nextWhole (min ((Rule.hlsl packing).moveAt Leaf.registerShape position (.leaf leaf))
      last) =
        min (nextWhole ((Rule.hlsl packing).moveAt Leaf.registerShape position (.leaf leaf)))
          (nextWhole last) := by
    unfold nextWhole registerWidth
    omega
  rw [← register_start_spanAt]
  exact hmin.trans (congrArg (min · (nextWhole last)) hend)

end Leaf

namespace Rule

theorem min_moveAt_min {rule : Rule} {shapeOf : Leaf → Shape}
    (hs : ∀ leaf, (shapeOf leaf).WellFormed) (position : Nat) (visit : Visit) :
    min (rule.moveAt shapeOf (min position last) visit) last =
      min (rule.moveAt shapeOf position visit) last := by
  have hcut := @le_moveAt rule shapeOf hs (min position last) visit
  have hfull := @le_moveAt rule shapeOf hs position visit
  by_cases hp : position ≤ last
  · rw [Nat.min_eq_left hp]
  · omega

variable {packing : Packing}

theorem step_tracing_eq_ok {position : Nat} {spans : List LeafSpan} {visit : Visit}
    {t : TraceProgress} (h : (hlsl packing).tracing.step ⟨min position last, spans⟩ visit = .ok t) :
    t = ⟨min ((hlsl packing).moveAt Leaf.registerShape position visit) last,
      spans ++ visit.leaf?.toList.map (fun leaf => leaf.spanAt packing (min position last))⟩ := by
  have hcut := Nat.min_le_right position last
  rw [← min_moveAt_min Leaf.wellFormed_registerShape]
  cases visit with
  | enter =>
    obtain ⟨next, henter, h⟩ := bind_eq_ok.mp h
    cases h
    obtain ⟨rfl, hle⟩ := nextRegister_eq_ok henter
    rw [Visit.leaf?, Option.toList_none, List.map_nil, List.append_nil]
    exact congrArg (TraceProgress.mk · spans) (Nat.min_eq_left hle).symm
  | leaf leaf =>
    obtain ⟨span, hspan, h⟩ := bind_eq_ok.mp h
    cases h
    rw [Leaf.spanOf_eq_ok hcut hspan]
    rfl
  | exit =>
    cases h
    rw [Visit.leaf?, Option.toList_none, List.map_nil, List.append_nil]
    exact congrArg (TraceProgress.mk · spans) (Nat.min_eq_left hcut).symm

/-- A trace meets the leaves where an unbounded walk does, cut off at the last position. -/
theorem foldlM_tracing_eq_ok {visits : List Visit} {position : Nat} {spans : List LeafSpan}
    {t : TraceProgress}
    (h : visits.foldlM (hlsl packing).tracing.step ⟨min position last, spans⟩ = .ok t) :
    t.spans = spans ++ ((hlsl packing).reached Leaf.registerShape visits position).map
      fun met => met.1.spanAt packing (min met.2 last) := by
  induction visits generalizing position spans with
  | nil =>
    cases h
    exact (List.append_nil spans).symm
  | cons visit visits ih =>
    rw [List.foldlM_cons] at h
    obtain ⟨next, hstep, hrest⟩ := bind_eq_ok.mp h
    rw [step_tracing_eq_ok hstep] at hrest
    rw [ih hrest, reached_cons, List.map_append, List.map_map, List.append_assoc]
    rfl

end Rule

theorem Rule.skipRegisters_zero_min (register : UInt32) :
    skipRegisters 0 register = min (registerWidth * register.toNat) last := by
  unfold skipRegisters advance
  rw [Nat.zero_add, Nat.mul_comm]

def Variable.spansAt (v : Variable) (packing : Packing) (register : UInt32) : List LeafSpan :=
  ((Rule.hlsl packing).reached Leaf.registerShape (v.visits (.root v.name) false)
    (registerWidth * register.toNat)).map fun met => met.1.spanAt packing (min met.2 last)

theorem Variable.spansFrom_eq_ok {v : Variable} {output : Output} {packing : Packing}
    {register : UInt32} {spans : List LeafSpan} (hp : output.packing = .ok packing)
    (h : v.spansFrom output register = .ok spans) : spans = v.spansAt packing register := by
  rw [spansFrom, hp] at h
  change (Rule.hlsl packing).tracing.run _ _ v _ >>= _ = _ at h
  obtain ⟨t, hrun, h⟩ := bind_eq_ok.mp h
  cases h
  rw [Walk.run_eq_foldlM, Rule.skipRegisters_zero_min] at hrun
  exact Rule.foldlM_tracing_eq_ok hrun

theorem Variable.map_leaf_spansAt (v : Variable) (packing : Packing) (register : UInt32) :
    (v.spansAt packing register).map LeafSpan.leaf = v.leaves := by
  rw [spansAt, List.map_map]
  exact Rule.map_fst_reached _ _

namespace UniformTable

def noteSpans (table : UniformTable) (stage : Stage) (spans : List LeafSpan) :
    Except Fault UniformTable :=
  spans.foldlM (fun table span => table.note stage span.register span.entry) table

theorem noteSpans_append {table : UniformTable} {stage : Stage} (first second : List LeafSpan) :
    table.noteSpans stage (first ++ second) =
      table.noteSpans stage first >>= (noteSpans · stage second) :=
  List.foldlM_append

variable {packing : Packing} {stage : Stage}

/-- In registers, leaving an array does not move on. -/
theorem linkLeaf_eq (packing : Packing) (stage : Stage) (leaf : Leaf) (s : UniformProgress) :
    linkLeaf (.hlsl packing) stage leaf s = (do
      let noted ← (Rule.hlsl packing).noteOf leaf s.position
      let table ← s.table.note stage (clampWord (register noted)) (leaf.entryAt noted)
      let finish ← (Rule.hlsl packing).skip leaf.registerShape noted
      return ⟨finish, table, s.events.push (.definedUniform leaf.uniformName stage
        (clampWord (register noted)) (leaf.entryAt noted).element)⟩) := by
  unfold linkLeaf Rule.noteOf
  cases leaf.decl.isArray <;> rfl

theorem linkLeaf_eq_ok {leaf : Leaf} {s t : UniformProgress}
    (h : linkLeaf (.hlsl packing) stage leaf s = .ok t) :
    ∃ span, (Rule.hlsl packing).spanOf leaf s.position = .ok span ∧
      s.table.note stage span.register span.entry = .ok t.table ∧
      t.position = span.placement.finish := by
  rw [linkLeaf_eq] at h
  obtain ⟨noted, hnoted, h⟩ := bind_eq_ok.mp h
  obtain ⟨table, htable, h⟩ := bind_eq_ok.mp h
  obtain ⟨finish, hskip, h⟩ := bind_eq_ok.mp h
  obtain ⟨placement, hplace, hfinish⟩ := bind_eq_ok.mp hskip
  cases hfinish
  cases h
  refine ⟨⟨leaf, noted, placement⟩, ?_, htable, rfl⟩
  rw [Rule.spanOf, hnoted]
  change (Rule.hlsl packing).place leaf.registerShape noted >>= _ = _
  rw [hplace]
  rfl

theorem step_linking_eq_ok {visit : Visit} {s t : UniformProgress} (spans : List LeafSpan)
    (h : (linking (.hlsl packing) stage).step s visit = .ok t) :
    ∃ new, (Rule.hlsl packing).tracing.step ⟨s.position, spans⟩ visit =
        .ok ⟨t.position, spans ++ new⟩ ∧
      s.table.noteSpans stage new = .ok t.table := by
  cases visit with
  | enter =>
    obtain ⟨next, henter, h⟩ := bind_eq_ok.mp h
    cases h
    refine ⟨[], ?_, rfl⟩
    change (Rule.hlsl packing).enter s.position >>= _ = _
    rw [henter, List.append_nil]
    rfl
  | leaf leaf =>
    obtain ⟨span, hspan, hnote, hposition⟩ := linkLeaf_eq_ok h
    refine ⟨[span], ?_, ?_⟩
    · change (Rule.hlsl packing).spanOf leaf s.position >>= _ = _
      rw [hspan, hposition]
      rfl
    · rw [noteSpans, List.foldlM_cons, hnote]
      rfl
  | exit =>
    cases h
    refine ⟨[], ?_, rfl⟩
    rw [List.append_nil]
    rfl

theorem foldlM_linking_eq_ok {visits : List Visit} {s t : UniformProgress} (spans : List LeafSpan)
    (h : visits.foldlM (linking (.hlsl packing) stage).step s = .ok t) :
    ∃ new, visits.foldlM (Rule.hlsl packing).tracing.step ⟨s.position, spans⟩ =
        .ok ⟨t.position, spans ++ new⟩ ∧
      s.table.noteSpans stage new = .ok t.table := by
  induction visits generalizing s spans with
  | nil =>
    cases h
    exact ⟨[], by rw [List.append_nil]; rfl, rfl⟩
  | cons visit visits ih =>
    rw [List.foldlM_cons] at h
    obtain ⟨next, hstep, hrest⟩ := bind_eq_ok.mp h
    obtain ⟨first, htrace, hnote⟩ := step_linking_eq_ok spans hstep
    obtain ⟨rest, htraces, hnotes⟩ := ih (spans ++ first) hrest
    refine ⟨first ++ rest, ?_, ?_⟩
    · rw [List.foldlM_cons, htrace, ← List.append_assoc]
      exact htraces
    · rw [noteSpans_append, hnote]
      exact hnotes

theorem linkUniform_eq_ok {table : UniformTable} {output : Output} {v : Variable} {register : UInt32}
    {linked : Logged UniformTable} (h : table.linkUniform stage output v register = .ok linked) :
    ∃ spans, v.spansFrom output register = .ok spans ∧
      table.noteSpans stage spans = .ok linked.value := by
  obtain ⟨packing, hp, h⟩ := bind_eq_ok.mp h
  obtain ⟨t, hrun, h⟩ := bind_eq_ok.mp h
  cases h
  rw [Walk.run_eq_foldlM] at hrun
  obtain ⟨spans, htrace, hnotes⟩ := foldlM_linking_eq_ok [] hrun
  refine ⟨spans, ?_, hnotes⟩
  rw [Variable.spansFrom, hp]
  change (Rule.hlsl packing).tracing.run _ _ v _ >>= _ = _
  rw [Walk.run_eq_foldlM, htrace]
  rfl

theorem get?_cons (u : UniformEntry) (table : UniformTable) (name : String) :
    get? (u :: table) name = if u.name = name then some u else get? table name := by
  unfold get?
  rw [List.find?_cons]
  by_cases h : u.name = name <;> simp [h]

theorem get?_modify (table : UniformTable) (stage : Stage) (register : UInt32) (noted name : String) :
    get? (table.modify (table.findIdx (fun u => u.name = noted)) (·.setRegister stage register)) name =
      if name = noted then (table.get? name).map (·.setRegister stage register)
      else table.get? name := by
  induction table with
  | nil => simp [get?]
  | cons u table ih =>
    rw [List.findIdx_cons]
    by_cases hu : u.name = noted
    · simp only [hu, decide_true, cond_true, List.modify_zero_cons]
      rw [get?_cons, get?_cons, UniformEntry.name_setRegister, hu]
      by_cases hn : name = noted
      · simp [hn]
      · simp [hn, Ne.symm hn]
    · simp only [hu, decide_false, cond_false, List.modify_succ_cons]
      rw [get?_cons, get?_cons, ih]
      by_cases hn : u.name = name
      · simp [hn, show name ≠ noted from hn ▸ hu]
      · simp [hn]

theorem get?_append_singleton (table : UniformTable) (u : UniformEntry) (name : String) :
    get? (table ++ [u]) name = (table.get? name).or (if u.name = name then some u else none) := by
  unfold get?
  rw [List.find?_append]
  by_cases h : u.name = name <;> simp [h]

/-- Noting a leaf changes what is found under its name only: the entry there, or else a new one, gets
the register. -/
theorem get?_note {table table' : UniformTable} {stage : Stage} {register : UInt32}
    {leaf : UniformEntry} (h : table.note stage register leaf = .ok table') (name : String) :
    table'.get? name =
      if name = leaf.name then some (((table.get? name).getD leaf).setRegister stage register)
      else table.get? name := by
  unfold note at h
  split at h
  case h_1 hnone =>
    cases h
    rw [get?_append_singleton, UniformEntry.name_setRegister]
    by_cases hn : name = leaf.name
    · simp [hn, hnone]
    · simp [hn, Ne.symm hn]
  case h_2 entry hsome =>
    split at h
    case isTrue =>
      cases h
      rw [get?_modify]
      by_cases hn : name = leaf.name
      · simp [hn, hsome]
      · simp [hn]
    case isFalse => cases h

def namesakes (spans : List LeafSpan) (name : String) : List LeafSpan :=
  spans.filter fun span => span.name = name

theorem get?_noteSpans {table table' : UniformTable} {spans : List LeafSpan}
    (h : table.noteSpans stage spans = .ok table') (name : String) :
    table'.get? name = (namesakes spans name).foldl
      (fun found span => some ((found.getD span.entry).setRegister stage span.register))
      (table.get? name) := by
  induction spans generalizing table with
  | nil =>
    cases h
    rfl
  | cons span spans ih =>
    rw [noteSpans, List.foldlM_cons] at h
    obtain ⟨next, hnote, hrest⟩ := bind_eq_ok.mp h
    rw [ih hrest, get?_note hnote, namesakes, namesakes, List.filter_cons]
    change List.foldl _ (if name = span.name then _ else _) _ = _
    by_cases hn : span.name = name
    · simp [hn]
    · simp [hn, Ne.symm hn]

/-- Under a name that leaves have, a table has the entry that it had, or else that of the first of them,
with the register of the last. -/
theorem get?_noteSpans_of_namesakes {table table' : UniformTable} {spans : List LeafSpan}
    {name : String} {first last : LeafSpan} (h : table.noteSpans stage spans = .ok table')
    (hfirst : (namesakes spans name).head? = some first)
    (hlast : (namesakes spans name).getLast? = some last) :
    table'.get? name =
      some (((table.get? name).getD first.entry).setRegister stage last.register) := by
  have hfold (span : LeafSpan) (rest : List LeafSpan) (found : Option UniformEntry) :
      (span :: rest).foldl
          (fun found span => some ((found.getD span.entry).setRegister stage span.register)) found =
        some ((found.getD span.entry).setRegister stage
          ((rest.getLast?.map LeafSpan.register).getD span.register)) := by
    induction rest generalizing span found with
    | nil => rfl
    | cons next rest ih =>
      have hnext := ih next (some ((found.getD span.entry).setRegister stage span.register))
      rw [List.foldl_cons, hnext, Option.getD_some, UniformEntry.setRegister_setRegister,
        List.getLast?_cons]
      cases rest.getLast? <;> rfl
  rw [get?_noteSpans h]
  cases hspans : namesakes spans name with
  | nil =>
    rw [hspans] at hfirst
    cases hfirst
  | cons span rest =>
    rw [hspans] at hfirst hlast
    cases hfirst
    rw [List.getLast?_cons] at hlast
    cases hlast
    rw [hfold]
    cases rest.getLast? <;> rfl

theorem get?_noteSpans_of_new {table table' : UniformTable} {spans : List LeafSpan}
    {first last : LeafSpan} {name : String} (h : table.noteSpans stage spans = .ok table')
    (hnew : table.get? name = none) (hfirst : (namesakes spans name).head? = some first)
    (hlast : (namesakes spans name).getLast? = some last) :
    table'.get? name = some (first.entry.setRegister stage last.register) := by
  rw [get?_noteSpans_of_namesakes h hfirst hlast, hnew, Option.getD_none]

/-- The register where an entry ends, as far as a table tells: the one where a stage finds it, and those
that it is charged for. -/
def recordedEnd? (table : UniformTable) (stage : Stage) (name : String) : Option Nat := do
  let entry ← table.get? name
  let register ← entry.registers.get stage
  return register.toNat + entry.registerCount.toNat

theorem recordedEnd?_of_get? {table : UniformTable} {name : String} {first last : LeafSpan}
    (h : table.get? name = some (first.entry.setRegister stage last.register)) :
    table.recordedEnd? stage name =
      some (min (Position.register last.noted) maxWord +
        min first.leaf.registersCharged maxWord) := by
  have hregister : (first.entry.setRegister stage last.register).registers.get stage =
      some last.register := PerStage.get_set ..
  have hcount : (first.entry.setRegister stage last.register).registerCount =
      clampWord first.leaf.registersCharged := rfl
  rw [recordedEnd?, h]
  change (first.entry.setRegister stage last.register).registers.get stage >>= _ = _
  rw [hregister]
  change some (last.register.toNat + _) = _
  rw [hcount, LeafSpan.register, toNat_clampWord, toNat_clampWord]

/-- A leaf whose name is its own is said to end where it does exactly if it is charged for the
registers that it is stored in and, if the rule moved it on, for one more. -/
theorem linkUniform_recordedEnd {output : Output} {v : Variable} {register : UInt32}
    {linked : Logged UniformTable} (h : linkUniform [] stage output v register = .ok linked) :
    ∃ spans, v.spansFrom output register = .ok spans ∧ spans.map LeafSpan.leaf = v.leaves ∧
      ∀ span ∈ spans,
        (∃ first last, (namesakes spans span.name).head? = some first ∧
          (namesakes spans span.name).getLast? = some last ∧
          linked.value.recordedEnd? stage span.name =
            some (min (Position.register last.noted) maxWord +
              min first.leaf.registersCharged maxWord)) ∧
        span.endRegister =
          min (Position.register span.noted + span.displacement + span.leaf.registersStored)
            (nextWhole Position.last) ∧
        (namesakes spans span.name = [span] → span.endRegister ≤ maxWord →
          span.leaf.registersCharged ≤ maxWord →
          (linked.value.recordedEnd? stage span.name = some span.endRegister ↔
            span.leaf.registersCharged = span.displacement + span.leaf.registersStored)) := by
  obtain ⟨spans, hspans, hnotes⟩ := linkUniform_eq_ok h
  obtain ⟨packing, hp, -⟩ := bind_eq_ok.mp h
  have hall := Variable.spansFrom_eq_ok hp hspans
  have hrecorded {name : String} {first last : LeafSpan}
      (hfirst : (namesakes spans name).head? = some first)
      (hlast : (namesakes spans name).getLast? = some last) :
      linked.value.recordedEnd? stage name =
        some (min (Position.register last.noted) maxWord +
          min first.leaf.registersCharged maxWord) :=
    recordedEnd?_of_get? (get?_noteSpans_of_new hnotes rfl hfirst hlast)
  refine ⟨spans, hspans, by rw [hall, Variable.map_leaf_spansAt], ?_⟩
  intro span hspan
  have hend : span.endRegister =
      min (Position.register span.noted + span.displacement + span.leaf.registersStored)
        (nextWhole Position.last) := by
    rw [hall] at hspan
    obtain ⟨met, -, rfl⟩ := List.mem_map.mp hspan
    exact met.1.endRegister_spanAt packing _
  have hself : span ∈ namesakes spans span.name :=
    List.mem_filter.mpr ⟨hspan, decide_eq_true rfl⟩
  refine ⟨?_, hend, ?_⟩
  · have hne := List.ne_nil_of_mem hself
    have hfirst := List.head?_eq_some_head hne
    have hlast := List.getLast?_eq_some_getLast hne
    exact ⟨_, _, hfirst, hlast, hrecorded hfirst hlast⟩
  · intro hown hfits hcharge
    have hsame := @hrecorded span.name span span (by rw [hown]; rfl) (by rw [hown]; rfl)
    rw [hsame, Option.some.injEq]
    have hlimit : maxWord < nextWhole Position.last := by decide
    omega

/-- An array of structs whose second vector does not fit beside the first, with matrices of both kinds
after vectors and after arrays. -/
def lampUniform : Variable :=
  .struct ⟨"lamps", 2, false, true⟩
    [.basic ⟨"dir", 0, false, true⟩ (.vector .float .three),
      .basic ⟨"range", 0, false, true⟩ (.vector .float .two),
      .basic ⟨"cone", 0, false, true⟩ (.matrix .two .three),
      .basic ⟨"weights", 2, false, true⟩ (.vector .float .one),
      .basic ⟨"basis", 0, false, true⟩ (.matrix .three .three)]

theorem linkUniform_recordedEnd_lamps :
    ∃ linked, linkUniform [] .vertex .hlsl11 lampUniform 3 = .ok linked ∧
      ∃ spans, lampUniform.spansFrom .hlsl11 3 = .ok spans ∧
        spans.map LeafSpan.leaf = lampUniform.leaves ∧
        ∀ span ∈ spans,
          (∃ first last, (namesakes spans span.name).head? = some first ∧
            (namesakes spans span.name).getLast? = some last ∧
            linked.value.recordedEnd? .vertex span.name =
              some (min (Position.register last.noted) maxWord +
                min first.leaf.registersCharged maxWord)) ∧
          span.endRegister =
            min (Position.register span.noted + span.displacement + span.leaf.registersStored)
              (nextWhole Position.last) ∧
          (namesakes spans span.name = [span] → span.endRegister ≤ maxWord →
            span.leaf.registersCharged ≤ maxWord →
            (linked.value.recordedEnd? .vertex span.name = some span.endRegister ↔
              span.leaf.registersCharged = span.displacement + span.leaf.registersStored)) := by
  obtain ⟨linked, h⟩ := exists_eq_ok
    (show (linkUniform [] .vertex .hlsl11 lampUniform 3).isOk = true by decide +kernel)
  exact ⟨linked, h, linkUniform_recordedEnd h⟩

def lightUniform : Variable :=
  .struct ⟨"light", 0, false, true⟩
    [.basic ⟨"dir", 0, false, true⟩ (.vector .float .three),
      .basic ⟨"range", 0, false, true⟩ (.vector .float .two)]

/-- A leaf that is moved on to the next register is noted in the one before, and a matrix is charged
for its rows and stored by its columns. -/
theorem recordedEnd_ne_endRegister :
    (∃ linked spans, linkUniform [] .vertex .hlsl11 lightUniform 0 = .ok linked ∧
      lightUniform.spansFrom .hlsl11 0 = .ok spans ∧
      ∃ span ∈ spans, span.name = "light.range" ∧
        linked.value.recordedEnd? .vertex span.name = some 1 ∧ span.endRegister = 2) ∧
    ∃ linked spans,
      linkUniform [] .vertex .hlsl9 (.basic ⟨"m", 0, false, true⟩ (.matrix .two .three)) 0 =
        .ok linked ∧
      Variable.spansFrom (.basic ⟨"m", 0, false, true⟩ (.matrix .two .three)) .hlsl9 0 = .ok spans ∧
      ∃ span ∈ spans, span.name = "m" ∧
        linked.value.recordedEnd? .vertex span.name = some 3 ∧ span.endRegister = 2 := by
  refine ⟨⟨_, _, rfl, rfl, ?_⟩, ⟨_, _, rfl, rfl, ?_⟩⟩
  · refine ⟨_, List.mem_cons_of_mem _ List.mem_cons_self, ?_⟩
    decide +kernel
  · refine ⟨_, List.mem_cons_self, ?_⟩
    decide +kernel

end UniformTable

end ShaderInterface
