import MobileCode.KeySet

/-! # References

Code names types, fields and methods by text. A type reference may say which module it points
into; without that scope it points into the module it stands in.
-/
namespace MobileCode

structure TypeRef where
  scope : Option String := none
  fullName : String
  deriving DecidableEq, Inhabited, Repr

structure FieldRef where
  owner : TypeRef
  name : String
  deriving DecidableEq, Inhabited, Repr

structure MethodRef where
  owner : TypeRef
  name : String
  paramTypes : List String
  deriving DecidableEq, Inhabited, Repr

/-- A method of a type, told from its overloads by the types of its parameters. -/
structure MethodKey where
  type : String
  name : String
  paramTypes : List String
  deriving DecidableEq, Inhabited, Repr

instance : Keyed MethodKey := ⟨fun k => k.type :: k.name :: k.paramTypes⟩

/-- The part of a name in front of its last dot. -/
def namespaceOf (fullName : String) : String :=
  String.ofList ((fullName.toList.reverse.dropWhile (· ≠ '.')).drop 1).reverse

namespace TypeRef

def display (t : TypeRef) : String :=
  match t.scope with
  | some scope => "[" ++ scope ++ "]" ++ t.fullName
  | none => t.fullName

def namespaceName (t : TypeRef) : String := namespaceOf t.fullName

end TypeRef

def FieldRef.display (f : FieldRef) : String := f.owner.display ++ "::" ++ f.name

def signature (type name : String) (paramTypes : List String) : String :=
  type ++ "::" ++ name ++ "(" ++ String.intercalate ", " paramTypes ++ ")"

namespace MethodRef

def display (m : MethodRef) : String := signature m.owner.display m.name m.paramTypes
def key (m : MethodRef) : MethodKey := ⟨m.owner.fullName, m.name, m.paramTypes⟩

end MethodRef

def MethodKey.display (k : MethodKey) : String := signature k.type k.name k.paramTypes

end MobileCode
