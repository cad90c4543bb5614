import MobileCode.TypeName
import MobileCode.Double.Shortest
import MobileCode.Text.Quoted

/-! # Data

Values as they stand in a file or travel between hosts: finite trees in which an object is its
type and its fields. Fields are in ascending order of their names.
-/
namespace MobileCode

inductive Datum
  | null
  | bool (b : Bool)
  | int32 (n : Int32)
  | int64 (n : Int64)
  | double (x : Double)
  | text (s : String)
  | list (items : List Datum)
  | object (type : String) (fields : List (String × Datum))
  deriving Inhabited

instance : Literal Datum := ⟨.null, .bool, .int32, .int64, .double⟩

namespace Datum

def typeName : Datum → String
  | null => TypeName.any
  | bool _ => TypeName.boolean
  | int32 _ => TypeName.int32
  | int64 _ => TypeName.int64
  | double _ => TypeName.double
  | text _ => TypeName.text
  | list _ => TypeName.list
  | object type _ => type

mutual

def display : Datum → String
  | null => "null"
  | bool b => if b then "true" else "false"
  | int32 n => toString n.toInt
  | int64 n => toString n.toInt ++ "L"
  | double x => x.toText
  | text s => Text.quoted s
  | list items => "[" ++ displayItems items ++ "]"
  | object type _ => "<" ++ type ++ ">"

def displayItems : List Datum → String
  | [] => ""
  | [x] => display x
  | x :: rest => display x ++ ", " ++ displayItems rest

end

mutual

/-- Equality as programs see it: doubles are compared as numbers. -/
def agrees : Datum → Datum → Bool
  | null, null => true
  | bool a, bool b => a = b
  | int32 a, int32 b => a = b
  | int64 a, int64 b => a = b
  | double a, double b => a.equal b
  | text a, text b => a = b
  | list xs, list ys => agreesItems xs ys
  | object t xs, object u ys => t = u && agreesFields xs ys
  | _, _ => false

def agreesItems : List Datum → List Datum → Bool
  | [], [] => true
  | x :: xs, y :: ys => agrees x y && agreesItems xs ys
  | _, _ => false

def agreesFields : List (String × Datum) → List (String × Datum) → Bool
  | [], [] => true
  | (n, x) :: xs, (m, y) :: ys => n = m && agrees x y && agreesFields xs ys
  | _, _ => false

end

instance : BEq Datum := ⟨agrees⟩

mutual

/-- Levels of nesting. -/
def depth : Datum → Nat
  | list items => depthItems items + 1
  | object _ fields => depthFields fields + 1
  | _ => 1

def depthItems : List Datum → Nat
  | [] => 0
  | x :: rest => max (depth x) (depthItems rest)

def depthFields : List (String × Datum) → Nat
  | [] => 0
  | (_, x) :: rest => max (depth x) (depthFields rest)

end
end Datum
end MobileCode
