import MobileCode.Heap
import MobileCode.Json.Datum

/-! # Values in JSON

An object is written with a number where it is met first, and as that number alone where it is met
again; so values that share objects or lie on cycles can be written too.
-/
namespace MobileCode.Value

/-- Writes a value of at most `n` levels; the state holds the objects met, the last one first. -/
def toJsonUpTo (double : Double → Json) (h : Heap) : Nat → Value → StateM (List Ref) Json
  | 0, _ => return .null
  | n + 1, .list items => return .form "List" (.array (← items.mapM (toJsonUpTo double h n)))
  | n + 1, .object r => do
    let met ← get
    match met.reverse.findIdx? (· = r) with
    | some i => return .form "Object" (.object [("id", .nat i)])
    | none => do
      set (r :: met)
      let fields := ((h.get? r).map (·.fields)).getD []
      let fields ← fields.mapM fun (name, x) => return (name, ← toJsonUpTo double h n x)
      return .form "Object" (.object [("id", .nat met.length), ("type_name", .text (h.typeOf r)),
        ("fields", .object fields)])
  | _ + 1, v => return (h.outline v).toJson double

/-- No object is entered twice, so the size of the heap bounds the levels. -/
def toJson (double : Double → Json) (h : Heap) (v : Value) : Json :=
  ((toJsonUpTo double h (h.reach v + 1) v).run []).1

/-- Values that share one numbering. -/
def listToJson (double : Double → Json) (h : Heap) (vs : List Value) : Json :=
  .array ((vs.mapM fun v => toJsonUpTo double h (h.reach v + 1) v).run []).1

end MobileCode.Value

namespace MobileCode.Datum

/-- Writes a datum like a value, its objects numbered. -/
def toJsonNumbered (double : Double → Json) (x : Datum) : Json :=
  let (v, h) := Heap.instantiate x {}
  v.toJson double h

/-- Writes data with one numbering of their objects. -/
def listToJsonNumbered (double : Double → Json) (xs : List Datum) : Json :=
  let (vs, h) := Heap.instantiateItems xs {}
  Value.listToJson double h vs

end MobileCode.Datum
