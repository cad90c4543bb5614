import MobileCode.Error

/-! # Variables

A variable carries the value of a field, a property or a parameter from one host to another, with
the name and the type that the member was declared with.
-/
namespace MobileCode

inductive VariableKind
  | field
  | property
  | parameter
  deriving DecidableEq, Inhabited, Repr

def VariableKind.all : List VariableKind := [field, property, parameter]

structure Variable (α : Type) where
  kind : VariableKind
  name : String
  /-- The declaring type; a parameter has none. -/
  owner : String := ""
  type : String
  value : α
  isStatic : Bool := false
  deriving Inhabited, BEq

namespace Variable
variable {α β : Type}

def withValue (v : Variable α) (value : β) : Variable β :=
  ⟨v.kind, v.name, v.owner, v.type, value, v.isStatic⟩

def traverse {m : Type → Type} [Monad m] (f : α → m β) (v : Variable α) : m (Variable β) :=
  return v.withValue (← f v.value)

def defect? (v : Variable α) : Option Defect :=
  if v.name.isEmpty then some .unnamedVariable
  else if v.type.isEmpty then some (.untypedVariable v.name)
  else if v.kind ≠ .parameter ∧ v.owner.isEmpty then some (.ownerlessVariable v.name)
  else none

def validate (v : Variable α) : Except Error Unit :=
  match v.defect? with
  | none => .ok ()
  | some d => .error (.malformed d)

end Variable
end MobileCode
