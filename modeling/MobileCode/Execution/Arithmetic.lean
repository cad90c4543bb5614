import MobileCode.Heap
import MobileCode.Instruction

/-! # Arithmetic

Two integers of the smaller width give one of that width; otherwise integers are taken in the
larger one, and with a double among the operands the other is made a double too. Integers wrap
around; division goes toward zero and is refused where the quotient does not exist.
-/
namespace MobileCode

inductive DivisionFault
  | byZero
  | overflow
  deriving DecidableEq, Inhabited, Repr

def DivisionFault.message : DivisionFault → String
  | byZero => "Attempted to divide by zero"
  | overflow => "Arithmetic operation resulted in an overflow"

namespace BinaryOp

def onInt32 (op : BinaryOp) (a b : Int32) : Except DivisionFault Int32 :=
  match op with
  | add => .ok (a + b)
  | sub => .ok (a - b)
  | mul => .ok (a * b)
  | div =>
    if b = 0 then .error .byZero
    else if a = Int32.minValue ∧ b = -1 then .error .overflow
    else .ok (a / b)
  | rem =>
    if b = 0 then .error .byZero
    else if a = Int32.minValue ∧ b = -1 then .error .overflow
    else .ok (a % b)
  | and => .ok (a &&& b)
  | or => .ok (a ||| b)

def onInt64 (op : BinaryOp) (a b : Int64) : Except DivisionFault Int64 :=
  match op with
  | add => .ok (a + b)
  | sub => .ok (a - b)
  | mul => .ok (a * b)
  | div =>
    if b = 0 then .error .byZero
    else if a = Int64.minValue ∧ b = -1 then .error .overflow
    else .ok (a / b)
  | rem =>
    if b = 0 then .error .byZero
    else if a = Int64.minValue ∧ b = -1 then .error .overflow
    else .ok (a % b)
  | and => .ok (a &&& b)
  | or => .ok (a ||| b)

def onDouble? (op : BinaryOp) (a b : Double) : Option Double :=
  match op with
  | add => some (a.add b)
  | sub => some (a.sub b)
  | mul => some (a.mul b)
  | div => some (a.div b)
  | rem => some (a.rem b)
  | and | or => none

/-- Why two values have no result. -/
inductive Failure
  | fault (f : DivisionFault)
  | mismatch
  deriving DecidableEq, Inhabited

def onNumbers (op : BinaryOp) (left right : Value) : Except Failure Value :=
  match left, right with
  | .int32 a, .int32 b => ((op.onInt32 a b).map .int32).mapError .fault
  | _, _ =>
    match left.asInt64?, right.asInt64? with
    | some a, some b => ((op.onInt64 a b).map .int64).mapError .fault
    | _, _ =>
      match left.asDouble?, right.asDouble? with
      | some a, some b => ((op.onDouble? a b).map .double).elim (.error .mismatch) .ok
      | _, _ => .error .mismatch

/-- Addition also appends to lists and joins texts with anything; the logical operations also
take truth values. -/
def apply (heap : Heap) (op : BinaryOp) (left right : Value) : Except Failure Value :=
  match op, left, right with
  | add, .list xs, .list ys => .ok (.list (xs ++ ys))
  | add, .list xs, y => .ok (.list (xs ++ [y]))
  | add, .text s, y => .ok (.text (s ++ heap.textOf y))
  | add, x, .text s => .ok (.text (heap.textOf x ++ s))
  | and, .bool a, .bool b => .ok (.bool (a && b))
  | or, .bool a, .bool b => .ok (.bool (a || b))
  | op, x, y => op.onNumbers x y

end BinaryOp

namespace Value

/-- The order of two texts or two numbers; none for a NaN or values of other types. -/
def compare? (left right : Value) : Option Ordering :=
  match left, right with
  | .text a, .text b => some (compareOfLessAndEq a b)
  | _, _ =>
    match left.asInt64?, right.asInt64? with
    | some a, some b => some (compareOfLessAndEq a.toInt b.toInt)
    | _, _ =>
      match left.asDouble?, right.asDouble? with
      | some a, some b => a.compare? b
      | _, _ => none

end Value
end MobileCode
