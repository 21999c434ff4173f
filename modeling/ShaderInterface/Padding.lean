import ShaderInterface.Variable
import ShaderInterface.Word

namespace ShaderInterface

/-- Fillers before a field, and the element index after it. -/
@[ext] structure PrePadding where
  count : Nat
  index : Nat
  deriving DecidableEq, Repr

namespace Padding

/-- The width of a field that may share a register with the one before it. Structs, matrices, arrays
and vectors of a whole register start one. -/
def sharedWidth? : Variable → Option Nat
  | .struct _ _ => none
  | .basic decl type =>
    if type.isMatrix ∨ decl.isArray ∨ registerWidth ≤ type.componentCount then none
    else some type.componentCount

/-- The fillers before a vector at an index, so that it is aligned as in a standard block. Where it
does not fit in the register, packing moves it to the next one by itself. -/
def beforeVector (width index : Nat) : PrePadding :=
  if registerWidth < index + width then ⟨0, width⟩
  else
    let alignment := if width = 3 then 4 else width
    let count := if index % alignment = 0 then 0 else alignment - index % alignment
    ⟨count, (index + count + width) % registerWidth⟩

def before (field : Variable) (index : Nat) : PrePadding :=
  match sharedWidth? field with
  | none => ⟨0, 0⟩
  | some width => beforeVector width index

/-- The same for any 32-bit index, where the end of the field has to fit in 32 bits. -/
def beforeWord (field : Variable) (index : UInt32) : Except Fault PrePadding :=
  match sharedWidth? field with
  | none => .ok ⟨0, 0⟩
  | some width =>
    if index.toNat + width ≤ maxWord then .ok (beforeVector width index.toNat)
    else .error .addOverflow

def indexAfter (fields : List Variable) (index : Nat) : Nat :=
  fields.foldl (fun index field => (before field index).index) index

def structIndex (fields : List Variable) : Nat := indexAfter fields 0

/-- The components of the last register that a field takes, where the rest of it has to be filled.
A matrix is filled along the side that packing stores. -/
def lastWidth? (rowMajorPacking : Bool) : Variable → Option Nat
  | .struct _ fields => if structIndex fields = 0 then none else some (structIndex fields)
  | .basic decl type =>
    if type.isMatrix then some (if rowMajorPacking then type.rows else type.columns)
    else if decl.isArray then some type.componentCount
    else none

def after (rowMajorPacking : Bool) (field : Variable) : Nat :=
  match lastWidth? rowMajorPacking field with
  | none => 0
  | some width => registerWidth - width

theorem beforeVector_index_lt {width index : Nat} (h : width < registerWidth) :
    (beforeVector width index).index < registerWidth := by
  unfold beforeVector
  split
  · exact h
  · exact Nat.mod_lt _ (by decide)

theorem sharedWidth?_lt {field : Variable} {width : Nat} (h : sharedWidth? field = some width) :
    width < registerWidth := by
  cases field with
  | basic decl type =>
    simp only [sharedWidth?] at h
    split at h
    · cases h
    · cases h
      rename_i hc
      exact Nat.lt_of_not_le (fun hle => hc (.inr (.inr hle)))
  | struct decl fields => cases h

theorem before_index_lt (field : Variable) (index : Nat) :
    (before field index).index < registerWidth := by
  unfold before
  split
  · decide
  · exact beforeVector_index_lt (sharedWidth?_lt ‹_›)

/-- Below a register's width no sum comes near the 32-bit range. -/
theorem beforeWord_of_lt (field : Variable) {index : UInt32} (h : index.toNat < registerWidth) :
    beforeWord field index = .ok (before field index.toNat) := by
  unfold beforeWord before
  cases hw : sharedWidth? field with
  | none => rfl
  | some width =>
    have hlt := sharedWidth?_lt hw
    have hle : index.toNat + width ≤ maxWord := by
      unfold registerWidth at h hlt
      unfold maxWord
      omega
    simp only [hle, if_true]

end Padding

/-- The names of fillers, numbered from zero; `next` is the first number that is free. All the structs
of a shader draw on the same numbers. -/
@[ext] structure Fillers where
  next : UInt32
  deriving DecidableEq, Repr

namespace Fillers

def empty : Fillers := ⟨0⟩

def name (number : Nat) : String := "pad_" ++ toString number

/-- A name that was not given out before. The number after it has to fit in 32 bits. -/
def take (fillers : Fillers) : Except Fault (String × Fillers) :=
  if fillers.next.toNat < maxWord then .ok (name fillers.next.toNat, ⟨fillers.next + 1⟩)
  else .error .addOverflow

def takeMany : Nat → Fillers → Except Fault (List String × Fillers)
  | 0, fillers => return ([], fillers)
  | count + 1, fillers => do
    let (first, fillers) ← fillers.take
    let (rest, fillers) ← takeMany count fillers
    return (first :: rest, fillers)

end Fillers

@[ext] structure Planner where
  fillers : Fillers
  index : Nat
  deriving DecidableEq, Repr

namespace Planner

def start (fillers : Fillers) : Planner := ⟨fillers, 0⟩

def before (planner : Planner) (field : Variable) : Except Fault (List String × Planner) := do
  let padding := Padding.before field planner.index
  let (names, fillers) ← planner.fillers.takeMany padding.count
  return (names, ⟨fillers, padding.index⟩)

def after (planner : Planner) (rowMajorPacking : Bool) (field : Variable) :
    Except Fault (List String × Planner) := do
  let (names, fillers) ← planner.fillers.takeMany (Padding.after rowMajorPacking field)
  return (names, { planner with fillers })

end Planner

end ShaderInterface
