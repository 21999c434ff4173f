import ShaderInterface.Shape

namespace ShaderInterface

/-- What every declaration says beside its type. An array size of zero declares a single value. -/
@[ext] structure Declarator where
  name : String
  arraySize : UInt32
  rowMajor : Bool
  staticUse : Bool
  deriving DecidableEq, Repr

namespace Declarator

def isArray (decl : Declarator) : Bool := decl.arraySize ≠ 0

def elementCount (decl : Declarator) : Nat := max 1 decl.arraySize.toNat

theorem elementCount_pos (decl : Declarator) : 0 < decl.elementCount := by
  unfold elementCount
  omega

theorem elementCount_eq_one (decl : Declarator) (h : decl.isArray = false) :
    decl.elementCount = 1 := by
  have hz : decl.arraySize = 0 := by simpa [isArray] using h
  simp [elementCount, hz]

end Declarator

/-- A variable or a field: of a data type, or a struct with fields of its own. -/
inductive Variable where
  | basic (decl : Declarator) (type : DataType)
  | struct (decl : Declarator) (fields : List Variable)
  deriving Repr

inductive Kind where
  | basic (type : DataType)
  | struct (fields : List Variable)

namespace Variable

def decl : Variable → Declarator
  | basic decl _ => decl
  | struct decl _ => decl

def kind : Variable → Kind
  | basic _ type => .basic type
  | struct _ fields => .struct fields

def ofKind (decl : Declarator) : Kind → Variable
  | .basic type => basic decl type
  | .struct fields => struct decl fields

def name (v : Variable) : String := v.decl.name

def isStruct : Variable → Bool
  | basic _ _ => false
  | struct _ _ => true

def type? : Variable → Option DataType
  | basic _ type => some type
  | struct _ _ => none

def fields : Variable → List Variable
  | basic _ _ => []
  | struct _ fields => fields

/-- A variable that is a sampler itself; one inside a struct does not count. -/
def isSampler (v : Variable) : Bool := v.type?.any DataType.isSampler

@[simp] theorem ofKind_decl_kind (v : Variable) : ofKind v.decl v.kind = v := by cases v <;> rfl

mutual

def decEq : (a b : Variable) → Decidable (a = b)
  | basic d t, basic d' t' =>
    if h : d = d' ∧ t = t' then isTrue (by rw [h.1, h.2])
    else isFalse (fun e => h (by injection e with hd ht; exact ⟨hd, ht⟩))
  | struct d fs, struct d' fs' =>
    if h : d = d' then
      match decEqFields fs fs' with
      | isTrue hf => isTrue (by rw [h, hf])
      | isFalse hf => isFalse (fun e => hf (by injection e))
    else isFalse (fun e => h (by injection e))
  | basic _ _, struct _ _ => isFalse (fun e => by cases e)
  | struct _ _, basic _ _ => isFalse (fun e => by cases e)

def decEqFields : (a b : List Variable) → Decidable (a = b)
  | [], [] => isTrue rfl
  | f :: fs, g :: gs =>
    match decEq f g, decEqFields fs gs with
    | isTrue h, isTrue hs => isTrue (by rw [h, hs])
    | isFalse h, _ => isFalse (fun e => h (by injection e))
    | _, isFalse hs => isFalse (fun e => hs (by injection e))
  | [], _ :: _ => isFalse (fun e => by cases e)
  | _ :: _, [] => isFalse (fun e => by cases e)

end

instance : DecidableEq Variable := decEq

/-- Induction over a declaration: a struct may use the statement for each of its fields. -/
@[elab_as_elim, induction_eliminator] theorem induction {P : Variable → Prop}
    (basic : ∀ decl type, P (.basic decl type))
    (struct : ∀ decl fields, (∀ f ∈ fields, P f) → P (.struct decl fields)) (v : Variable) : P v :=
  match v with
  | .basic decl type => basic decl type
  | .struct decl fields => struct decl fields (fun f _ => induction basic struct f)

end Variable

inductive BlockLayout where
  | standard
  | packed
  | shared
  deriving DecidableEq, Repr

/-- A block without a layout qualifier is shared. -/
def BlockLayout.unqualified : BlockLayout := .shared

@[ext] structure BlockDeclaration where
  decl : Declarator
  layout : BlockLayout
  fields : List Variable
  deriving DecidableEq, Repr

end ShaderInterface
