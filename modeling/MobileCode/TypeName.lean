import MobileCode.Double

/-! # Built-in types

Types are known by their full names. The four primitive types have no null value and a default of
their own; every other type defaults to null.
-/
namespace MobileCode

namespace TypeName

def boolean : String := "System.Boolean"
def int32 : String := "System.Int32"
def int64 : String := "System.Int64"
def double : String := "System.Double"
def text : String := "System.String"
def list : String := "System.Collections.List"
/-- The type that every value belongs to. -/
def any : String := "System.Object"

def isPrimitive (name : String) : Bool :=
  name = boolean || name = int32 || name = int64 || name = double

end TypeName

/-- What can be written for a constant: null and the primitive values. -/
class Literal (α : Type) where
  null : α
  bool : Bool → α
  int32 : Int32 → α
  int64 : Int64 → α
  double : Double → α

namespace Literal
variable {α : Type} [Literal α]

def defaultFor (typeName : String) : α :=
  if typeName = TypeName.boolean then bool false
  else if typeName = TypeName.int32 then int32 0
  else if typeName = TypeName.int64 then int64 0
  else if typeName = TypeName.double then double Double.zero
  else null

end Literal
end MobileCode
