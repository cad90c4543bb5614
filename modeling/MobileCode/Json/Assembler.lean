import MobileCode.Assembler
import MobileCode.Json.Module

/-! # Assembly in JSON

Each step is a list of its name and its operands. In a step, a reference to a type or a method is
one flat record.
-/
namespace MobileCode
variable {α : Type}

namespace TypeRef

def ofFlatJson? (j : Json) : Option TypeRef := do
  return ⟨← Json.nullable? Json.asText? (j.get? "scope"), ← (j.get? "type").bind (·.asText?)⟩

end TypeRef

namespace MethodRef

def ofFlatJson? (j : Json) : Option MethodRef := do
  let params ← ((j.get? "params").map (·.listOf? Json.asText?)).getD (some [])
  return ⟨← TypeRef.ofFlatJson? j, ← (j.get? "method").bind (·.asText?), params⟩

end MethodRef

namespace Assembler

/-- Instructions without operands. -/
def plain : List (String × Instruction α) :=
  [("nop", .nop), ("ldthis", .loadThis), ("add", .binary .add), ("not", .not), ("dup", .dup),
    ("pop", .pop), ("ret", .ret), ("throw", .throw)]

/-- Instructions with the number of an argument or a local. -/
def indexed : List (String × (UInt16 → Instruction α)) :=
  [("ldarg", .loadArg), ("starg", .storeArg), ("ldloc", .loadLocal), ("stloc", .storeLocal)]

/-- Instructions with a field. -/
def fielded : List (String × (FieldRef → Instruction α)) :=
  [("ldfld", .loadField), ("stfld", .storeField), ("ldsfld", .loadStatic), ("stsfld", .storeStatic)]

/-- The one instruction of a step that is neither a label nor a branch. -/
def instruction? (literal : Json → Option Datum) (name : String) (operands : List Json) :
    Option (Instruction Datum) := do
  match name, operands with
  | _, [] => plain.lookup name
  | "emit", [i] => Instruction.ofJson? literal i
  | "constant", [v] => return .const (← literal v)
  | "string", [s] => return .const (.text (← s.asText?))
  | "call", [m] => return .call (← MethodRef.ofFlatJson? m)
  | "newobj", [t] => return .construct (← TypeRef.ofFlatJson? t)
  | "binary", [o] => return .binary (← BinaryOp.ofName? (← o.asText?))
  | "compare", [o] => return .compare (← CompareOp.ofName? (← o.asText?))
  | _, [n] => return (← indexed.lookup name) (← n.asUInt16?)
  | _, [t, n] => return (← fielded.lookup name) ⟨← TypeRef.ofFlatJson? t, ← n.asText?⟩
  | _, _ => none

def step? (literal : Json → Option Datum) (a : Assembler Datum) (j : Json) :
    Option (Assembler Datum) := do
  match ← j.asArray? with
  | [] => none
  | name :: operands =>
    match ← name.asText?, operands with
    | "label", [s] => return a.label (← s.asText?)
    | "br", [s] => return a.push (.jump (← s.asText?))
    | "brtrue", [s] => return a.push (.jumpIfTrue (← s.asText?))
    | "brfalse", [s] => return a.push (.jumpIfFalse (← s.asText?))
    | name, operands => return a.emit (← instruction? literal name operands)

def ofJson? (literal : Json → Option Datum) (j : Json) : Option (Assembler Datum) := do
  (← j.asArray?).foldlM (step? literal) {}

end Assembler
end MobileCode
