import MobileCode.Json
import MobileCode.Datum
import MobileCode.Dict

/-! # Data in JSON

A datum is written by the name of its form and what the form holds. How a double is written
differs between documents, so readers and writers are given that part.
-/
namespace MobileCode.Datum

def int32OfJson? (j : Json) : Option Int32 := (j.asIntIn? Int32.minValue.toInt Int32.maxValue.toInt).map Int32.ofInt
def int64OfJson? (j : Json) : Option Int64 := (j.asIntIn? Int64.minValue.toInt Int64.maxValue.toInt).map Int64.ofInt

/-- Reads data of at most `n` levels. -/
def ofJsonUpTo? (double : Json → Option Double) : Nat → Json → Option Datum
  | 0, _ => none
  | n + 1, j => do
    match ← j.form? with
    | ("Null", x) => if (x.getD .null) matches .null then some null else none
    | ("Bool", some x) => x.asBool?.map bool
    | ("I32", some x) => (int32OfJson? x).map int32
    | ("I64", some x) => (int64OfJson? x).map int64
    | ("F64", some x) => (double x).map .double
    | ("Str", some x) => x.asText?.map text
    | ("List", some x) => (x.listOf? (ofJsonUpTo? double n)).map list
    | ("Object", some x) =>
      let get ← x.record? ["type_name", "fields"]
      let type ← (← get "type_name").asText?
      let fields ← (← get "fields").dictOf? (ofJsonUpTo? double n)
      some (object type (Dict.ofList fields))
    | _ => none

def ofJson? (double : Json → Option Double) (j : Json) : Option Datum :=
  ofJsonUpTo? double (j.depth + 1) j

mutual

def toJson (double : Double → Json) : Datum → Json
  | null => .text "Null"
  | bool b => .form "Bool" (.bool b)
  | int32 n => .form "I32" (.int n.toInt)
  | int64 n => .form "I64" (.int n.toInt)
  | .double x => .form "F64" (double x)
  | text s => .form "Str" (.text s)
  | list items => .form "List" (.array (toJsonItems double items))
  | object type fields =>
    .form "Object" (.object [("type_name", .text type), ("fields", .object (toJsonFields double fields))])

def toJsonItems (double : Double → Json) : List Datum → List Json
  | [] => []
  | x :: rest => toJson double x :: toJsonItems double rest

def toJsonFields (double : Double → Json) : List (String × Datum) → List (String × Json)
  | [] => []
  | (n, x) :: rest => (n, toJson double x) :: toJsonFields double rest

end
end MobileCode.Datum
