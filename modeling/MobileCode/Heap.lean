import MobileCode.Datum
import MobileCode.Dict

/-! # Values and the heap

A running program holds values in which an object is a reference into a heap, so that whoever
holds the reference sees every change. A datum becomes a value by new objects for all of its
objects; a value becomes a datum by copying what can be reached from it, which a cycle of
references forbids.
-/
namespace MobileCode

/-- The identity of an object. -/
structure Ref where
  index : Nat
  deriving DecidableEq, Inhabited, Repr

inductive Value
  | null
  | bool (b : Bool)
  | int32 (n : Int32)
  | int64 (n : Int64)
  | double (x : Double)
  | text (s : String)
  | list (items : List Value)
  | object (ref : Ref)
  deriving Inhabited

instance : Literal Value := ⟨.null, .bool, .int32, .int64, .double⟩

structure Object where
  type : String
  fields : Dict Value
  deriving Inhabited

structure Heap where
  objects : Array Object := #[]
  deriving Inhabited

namespace Value

/-- Null counts as false, a number as false when it is zero, and an object as true. -/
def truth? : Value → Option Bool
  | null => some false
  | bool b => some b
  | int32 n => some (n ≠ 0)
  | int64 n => some (n ≠ 0)
  | object _ => some true
  | _ => none

def asText? : Value → Option String
  | text s => some s
  | _ => none

/-- An integer of either width, in the larger one. -/
def asInt64? : Value → Option Int64
  | int32 n => some n.toInt64
  | int64 n => some n
  | _ => none

def asDouble? : Value → Option Double
  | double x => some x
  | v => v.asInt64?.map Double.ofInt64

def isNull : Value → Bool
  | null => true
  | _ => false

def isObject : Value → Bool
  | object _ => true
  | _ => false

mutual

/-- The number of values in a value, references not followed. -/
def size : Value → Nat
  | list items => sizeItems items + 1
  | _ => 1

def sizeItems : List Value → Nat
  | [] => 0
  | x :: rest => size x + sizeItems rest

end
end Value

namespace Heap

def get? (h : Heap) (r : Ref) : Option Object := h.objects[r.index]?

def typeOf (h : Heap) (r : Ref) : String := ((h.get? r).map (·.type)).getD ""

def field? (h : Heap) (r : Ref) (name : String) : Option Value :=
  (h.get? r).bind (·.fields.find? name)

def setField (h : Heap) (r : Ref) (name : String) (value : Value) : Heap :=
  ⟨h.objects.modify r.index fun o => { o with fields := o.fields.insert name value }⟩

def alloc (h : Heap) (o : Object) : Ref × Heap := (⟨h.objects.size⟩, ⟨h.objects.push o⟩)

mutual

/-- A value with the state of a datum, its objects new. -/
def instantiate : Datum → Heap → Value × Heap
  | .null, h => (.null, h)
  | .bool b, h => (.bool b, h)
  | .int32 n, h => (.int32 n, h)
  | .int64 n, h => (.int64 n, h)
  | .double x, h => (.double x, h)
  | .text s, h => (.text s, h)
  | .list items, h =>
    let (values, h) := instantiateItems items h
    (.list values, h)
  | .object type fields, h =>
    let (values, h) := instantiateFields fields h
    let (r, h) := h.alloc ⟨type, values⟩
    (.object r, h)

def instantiateItems : List Datum → Heap → List Value × Heap
  | [], h => ([], h)
  | x :: rest, h =>
    let (value, h) := instantiate x h
    let (values, h) := instantiateItems rest h
    (value :: values, h)

def instantiateFields : List (String × Datum) → Heap → List (String × Value) × Heap
  | [], h => ([], h)
  | (name, x) :: rest, h =>
    let (value, h) := instantiate x h
    let (values, h) := instantiateFields rest h
    ((name, value) :: values, h)

end

mutual

/-- A value with each of its objects reduced to the type. -/
def outline (h : Heap) : Value → Datum
  | .null => .null
  | .bool b => .bool b
  | .int32 n => .int32 n
  | .int64 n => .int64 n
  | .double x => .double x
  | .text s => .text s
  | .list items => .list (outlineItems h items)
  | .object r => .object (h.typeOf r) []

def outlineItems (h : Heap) : List Value → List Datum
  | [] => []
  | x :: rest => outline h x :: outlineItems h rest

end

def typeName (h : Heap) : Value → String
  | .null => TypeName.any
  | .bool _ => TypeName.boolean
  | .int32 _ => TypeName.int32
  | .int64 _ => TypeName.int64
  | .double _ => TypeName.double
  | .text _ => TypeName.text
  | .list _ => TypeName.list
  | .object r => h.typeOf r

/-- Null belongs to every type but the primitive ones. -/
def matchesType (h : Heap) (v : Value) (declared : String) : Bool :=
  declared = TypeName.any ||
    match v with
    | .null => !TypeName.isPrimitive declared
    | v => h.typeName v = declared

def display (h : Heap) (v : Value) : String := (h.outline v).display

/-- A text stands for itself, any other value for its display. -/
def textOf (h : Heap) : Value → String
  | .text s => s
  | v => h.display v

/-- A bound on the levels below a value that is on no cycle. -/
def reach (h : Heap) (v : Value) : Nat :=
  h.objects.foldl (fun n o => o.fields.foldl (fun n f => n + f.2.size) (n + 1)) v.size

def snapshotUpTo (h : Heap) : Nat → Value → Option Datum
  | 0, _ => none
  | n + 1, v =>
    match v with
    | .null => some .null
    | .bool b => some (.bool b)
    | .int32 k => some (.int32 k)
    | .int64 k => some (.int64 k)
    | .double x => some (.double x)
    | .text s => some (.text s)
    | .list items => (items.mapM (snapshotUpTo h n)).map .list
    | .object r => do
      let o ← h.get? r
      let fields ← o.fields.mapM fun (name, x) => return (name, ← snapshotUpTo h n x)
      return .object o.type fields

/-- The state below a value; a value on a cycle of references has none. -/
def snapshot (h : Heap) (v : Value) : Option Datum := h.snapshotUpTo (h.reach v + 1) v

/-- The pairs of objects that are not among those met. -/
def unmet (h : Heap) (met : List (Ref × Ref)) : List (Ref × Ref) :=
  let refs := (List.range h.objects.size).map Ref.mk
  (refs.flatMap fun a => refs.map fun b => (a, b)).filter (· ∉ met)

theorem length_unmet_lt {h : Heap} {met : List (Ref × Ref)} {a b : Ref} {x y : Object}
    (hx : h.get? a = some x) (hy : h.get? b = some y) (hm : (a, b) ∉ met) :
    (h.unmet ((a, b) :: met)).length < (h.unmet met).length := by
  have ha : a.index < h.objects.size := (Array.getElem?_eq_some_iff.mp hx).1
  have hb : b.index < h.objects.size := (Array.getElem?_eq_some_iff.mp hy).1
  have hmem : (a, b) ∈ h.unmet met := by
    simp only [unmet, List.mem_filter, List.mem_flatMap, List.mem_map, List.mem_range]
    exact ⟨⟨a, ⟨a.index, ha, rfl⟩, b, ⟨b.index, hb, rfl⟩, rfl⟩, decide_eq_true hm⟩
  have hsplit : h.unmet ((a, b) :: met) = (h.unmet met).filter (· ≠ (a, b)) := by
    simp only [unmet, List.filter_filter]
    exact List.filter_congr fun p _ => by simp [List.mem_cons, Bool.and_comm]
  rw [hsplit]
  exact List.length_filter_lt_length_iff_exists.mpr ⟨(a, b), hmem, by simp⟩

mutual

/-- Are two values equal? The pairs of objects on the way to them have been met: a pair that comes
up again leads back to itself, and the comparison has no end. -/
def agree (h : Heap) (met : List (Ref × Ref)) (a b : Value) : Option Bool :=
  match a, b with
  | .null, .null => some true
  | .bool a, .bool b => some (a = b)
  | .int32 a, .int32 b => some (a = b)
  | .int64 a, .int64 b => some (a = b)
  | .double a, .double b => some (a.equal b)
  | .text a, .text b => some (a = b)
  | .list xs, .list ys => if xs.length = ys.length then agreeItems h met xs ys else some false
  | .object a, .object b =>
    if a = b then some true
    else if _hm : (a, b) ∈ met then none
    else
      match _hx : h.get? a, _hy : h.get? b with
      | some x, some y =>
        if x.type = y.type ∧ x.fields.length = y.fields.length then
          agreeFields h ((a, b) :: met) x.fields y.fields
        else some false
      | _, _ => none
  | _, _ => some false
termination_by ((h.unmet met).length, sizeOf a)
decreasing_by
  · exact Prod.Lex.right _ (by simp)
  · exact Prod.Lex.left _ _ (length_unmet_lt _hx _hy _hm)

/-- Are all pairs equal? The first unequal pair settles it. -/
def agreeItems (h : Heap) (met : List (Ref × Ref)) (xs ys : List Value) : Option Bool :=
  match xs, ys with
  | [], [] => some true
  | x :: xs, y :: ys => do
    if ← agree h met x y then agreeItems h met xs ys else return false
  | _, _ => some false
termination_by ((h.unmet met).length, sizeOf xs)

def agreeFields (h : Heap) (met : List (Ref × Ref)) (xs ys : List (String × Value)) : Option Bool :=
  match xs, ys with
  | [], [] => some true
  | (n, x) :: xs, (m, y) :: ys => do
    if ← (if n = m then agree h met x y else some false) then agreeFields h met xs ys
    else return false
  | _, _ => some false
termination_by ((h.unmet met).length, sizeOf xs)

end

/-- Equality as programs see it: one object, or objects of equal state. It is undefined where two
cycles of references never differ. -/
def equal (h : Heap) (a b : Value) : Option Bool := h.agree [] a b

end Heap
end MobileCode
