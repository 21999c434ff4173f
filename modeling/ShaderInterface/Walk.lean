import ShaderInterface.Variable

namespace ShaderInterface

/-- Where a leaf stands: the way to it from the outermost scope. -/
inductive Path where
  | root (scope : String)
  | field (parent : Path) (name : String)
  | element (parent : Path) (index : Nat)
  deriving DecidableEq, Repr

/-- The text of a path, where `join` adds the name of a field to the text of its struct. -/
def Path.text (join : String → String → String) : Path → String
  | root scope => scope
  | field parent name => join (parent.text join) name
  | element parent index => parent.text join ++ "[" ++ toString index ++ "]"

/-- The path of a struct element: only the elements of an array are numbered. -/
def Declarator.elementPath (decl : Declarator) (path : Path) (index : Nat) : Path :=
  if decl.isArray then path.element index else path

/-- A variable of a data type, as a walk meets it: where it stands, and whether the structs around it
ask for row majorness. -/
@[ext] structure Leaf where
  path : Path
  rowMajor : Bool
  decl : Declarator
  type : DataType
  deriving DecidableEq, Repr

/-- What a walk does in a state of type `σ`. -/
structure Walk (σ : Type) where
  enter : σ → Except Fault σ
  leaf : Leaf → σ → Except Fault σ
  exit : σ → Except Fault σ

def forIndices {σ : Type} (step : Nat → σ → Except Fault σ) : (count first : Nat) → σ → Except Fault σ
  | 0, _, s => .ok s
  | count + 1, first, s =>
    match step first s with
    | .ok t => forIndices step count (first + 1) t
    | .error fault => .error fault

namespace Walk

variable {σ : Type}

mutual

/-- Walks a variable that stands at `path` among structs of the given row majorness. -/
def run (walk : Walk σ) (path : Path) (rowMajor : Bool) : Variable → σ → Except Fault σ
  | .basic decl type, s => walk.leaf ⟨path, rowMajor, decl, type⟩ s
  | .struct decl fields, s =>
    forIndices (fun index s => do
      let s ← walk.enter s
      let s ← runFields walk (decl.elementPath path index) (rowMajor || decl.rowMajor) fields s
      walk.exit s) decl.elementCount 0 s

def runFields (walk : Walk σ) (path : Path) (rowMajor : Bool) : List Variable → σ → Except Fault σ
  | [], s => .ok s
  | f :: fs, s => do
    let s ← run walk (path.field f.name) rowMajor f s
    runFields walk path rowMajor fs s

end

end Walk

/-- A step of a walk. -/
inductive Visit where
  | enter
  | leaf (leaf : Leaf)
  | exit
  deriving DecidableEq, Repr

namespace Variable

mutual

def visits (path : Path) (rowMajor : Bool) : Variable → List Visit
  | .basic decl type => [.leaf ⟨path, rowMajor, decl, type⟩]
  | .struct decl fields =>
    (List.range' 0 decl.elementCount).flatMap fun index =>
      .enter :: fieldVisits (decl.elementPath path index) (rowMajor || decl.rowMajor) fields ++ [.exit]

def fieldVisits (path : Path) (rowMajor : Bool) : List Variable → List Visit
  | [] => []
  | f :: fs => visits (path.field f.name) rowMajor f ++ fieldVisits path rowMajor fs

end

end Variable

def Walk.step {σ : Type} (walk : Walk σ) (s : σ) : Visit → Except Fault σ
  | .enter => walk.enter s
  | .leaf leaf => walk.leaf leaf s
  | .exit => walk.exit s

theorem forIndices_eq_foldlM {σ : Type} (step : Nat → σ → Except Fault σ) (count first : Nat) (s : σ) :
    forIndices step count first s =
      (List.range' first count).foldlM (fun s index => step index s) s := by
  induction count generalizing first s with
  | zero => rfl
  | succ count ih =>
    rw [forIndices, List.range'_succ, List.foldlM_cons]
    cases step first s with
    | error fault => rfl
    | ok t => exact ih (first + 1) t

namespace Walk

variable {σ : Type}

theorem foldlM_flatMap (step : σ → Visit → Except Fault σ) (visits : Nat → List Visit)
    (indices : List Nat) (s : σ) :
    (indices.flatMap visits).foldlM step s =
      indices.foldlM (fun s index => (visits index).foldlM step s) s := by
  induction indices generalizing s with
  | nil => rfl
  | cons index indices ih =>
    rw [List.flatMap_cons, List.foldlM_append, List.foldlM_cons]
    cases (visits index).foldlM step s with
    | error fault => rfl
    | ok t => exact ih t

mutual

/-- A walk over a variable is the fold over its steps. -/
theorem run_eq_foldlM (walk : Walk σ) (path : Path) (rowMajor : Bool) (v : Variable) (s : σ) :
    walk.run path rowMajor v s = (v.visits path rowMajor).foldlM walk.step s := by
  cases v with
  | basic decl type =>
    rw [run, Variable.visits, List.foldlM_cons]
    change _ = walk.leaf _ s >>= pure
    rw [bind_pure]
  | struct decl fields =>
    rw [run, Variable.visits, forIndices_eq_foldlM, foldlM_flatMap]
    congr
    funext s index
    rw [List.cons_append, List.foldlM_cons]
    change walk.enter s >>= _ = walk.enter s >>= _
    cases walk.enter s with
    | error fault => rfl
    | ok t =>
      change walk.runFields _ _ fields t >>= _ = List.foldlM walk.step t (_ ++ [.exit])
      rw [runFields_eq_foldlM, List.foldlM_append]
      congr
      funext t
      change walk.exit t = walk.exit t >>= pure
      rw [bind_pure]

theorem runFields_eq_foldlM (walk : Walk σ) (path : Path) (rowMajor : Bool) (fs : List Variable)
    (s : σ) :
    walk.runFields path rowMajor fs s =
      (Variable.fieldVisits path rowMajor fs).foldlM walk.step s := by
  cases fs with
  | nil => rw [runFields, Variable.fieldVisits]; rfl
  | cons f fs =>
    rw [runFields, Variable.fieldVisits, List.foldlM_append, run_eq_foldlM]
    congr
    funext t
    exact runFields_eq_foldlM walk path rowMajor fs t

end

end Walk

end ShaderInterface
