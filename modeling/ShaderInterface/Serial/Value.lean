namespace ShaderInterface

/-- A structured value. The entries of a record have an order here, and a name may occur twice. -/
inductive Value where
  | null
  | bool (value : Bool)
  | int (value : Int)
  /-- A number that is written with a fraction or an exponent: `digits / 10 ^ places`. -/
  | decimal (digits : Int) (places : Nat)
  | text (value : String)
  | list (items : List Value)
  | record (entries : List (String × Value))
  deriving Repr, Inhabited

namespace Value

def nat (n : Nat) : Value := .int (.ofNat n)

def entriesNamed (entries : List (String × Value)) (name : String) : List Value :=
  (entries.filter (·.1 = name)).map (·.2)

/-- The value of a field that a record has to have, once. -/
def field? (entries : List (String × Value)) (name : String) : Option Value :=
  match entriesNamed entries name with
  | [value] => some value
  | _ => none

/-- The value of a field that a record may leave out, which then is null. -/
def optionalField? (entries : List (String × Value)) (name : String) : Option Value :=
  match entriesNamed entries name with
  | [] => some .null
  | [value] => some value
  | _ => none

def record? : Value → Option (List (String × Value))
  | record entries => some entries
  | _ => none

def list? : Value → Option (List Value)
  | list items => some items
  | _ => none

def text? : Value → Option String
  | text value => some value
  | _ => none

def bool? : Value → Option Bool
  | bool value => some value
  | _ => none

def int? : Value → Option Int
  | int value => some value
  | _ => none

def natBelow? (bound : Nat) : Value → Option Nat
  | int (.ofNat n) => if n < bound then some n else none
  | _ => none

theorem natBelow?_nat {bound n : Nat} (h : n < bound) : (nat n).natBelow? bound = some n :=
  if_pos h

end Value

end ShaderInterface
