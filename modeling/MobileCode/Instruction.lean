import MobileCode.Reference
import MobileCode.Datum

/-! # Instructions

Method bodies run on a stack of values. The instructions are generic in the literals they carry,
which are data in a module file and values once the module is loaded. Branch targets are positions
in the body.
-/
namespace MobileCode

inductive BinaryOp
  | add | sub | mul | div | rem | and | or
  deriving DecidableEq, Inhabited, Repr

namespace BinaryOp

def all : List BinaryOp := [add, sub, mul, div, rem, and, or]

def name : BinaryOp → String
  | add => "add"
  | sub => "sub"
  | mul => "mul"
  | div => "div"
  | rem => "rem"
  | and => "and"
  | or => "or"

def ofName? (text : String) : Option BinaryOp := all.find? (·.name = text)

end BinaryOp

inductive CompareOp
  | eq | ne | lt | le | gt | ge
  deriving DecidableEq, Inhabited, Repr

namespace CompareOp

def all : List CompareOp := [eq, ne, lt, le, gt, ge]

def name : CompareOp → String
  | eq => "eq"
  | ne => "ne"
  | lt => "lt"
  | le => "le"
  | gt => "gt"
  | ge => "ge"

def ofName? (text : String) : Option CompareOp := all.find? (·.name = text)

/-- Does the relation hold between values that stand in this order? -/
def holds : CompareOp → Ordering → Bool
  | eq, o => o.isEq
  | ne, o => o.isNe
  | lt, o => o.isLT
  | le, o => o.isLE
  | gt, o => o.isGT
  | ge, o => o.isGE

end CompareOp

/-- Where the body of a mobile method runs: on the server with its state, on the server alone, or
on the server and then on the client as well. -/
inductive Mode
  | normal
  | relay
  | replay
  deriving DecidableEq, Inhabited, Repr

namespace Mode

def all : List Mode := [normal, relay, replay]

def name : Mode → String
  | normal => "Normal"
  | relay => "Relay"
  | replay => "Repeat"

def ofName? (text : String) : Option Mode := all.find? (·.name = text)

end Mode

/-- What a dispatch instruction hands to the client named by its type. -/
structure DispatchSite where
  client : TypeRef
  mode : Mode
  onMainThread : Bool
  method : MethodRef
  paramCount : UInt16
  deriving DecidableEq, Inhabited, Repr

inductive Instruction (α : Type)
  | nop
  | const (literal : α)
  | loadArg (index : UInt16)
  | storeArg (index : UInt16)
  | loadLocal (index : UInt16)
  | storeLocal (index : UInt16)
  | loadThis
  | loadField (field : FieldRef)
  | storeField (field : FieldRef)
  | loadStatic (field : FieldRef)
  | storeStatic (field : FieldRef)
  | call (method : MethodRef)
  | construct (type : TypeRef)
  | binary (op : BinaryOp)
  | compare (op : CompareOp)
  | not
  | jump (target : UInt64)
  | jumpIfTrue (target : UInt64)
  | jumpIfFalse (target : UInt64)
  | dup
  | pop
  | ret
  | throw
  | dispatch (site : DispatchSite)
  deriving Inhabited, BEq

namespace Instruction
variable {α β : Type}

def mnemonic : Instruction α → String
  | nop => "nop"
  | const _ => "const"
  | loadArg _ => "ldarg"
  | storeArg _ => "starg"
  | loadLocal _ => "ldloc"
  | storeLocal _ => "stloc"
  | loadThis => "ldthis"
  | loadField _ => "ldfld"
  | storeField _ => "stfld"
  | loadStatic _ => "ldsfld"
  | storeStatic _ => "stsfld"
  | call _ => "call"
  | construct _ => "newobj"
  | binary _ => "binary"
  | compare _ => "cmp"
  | not => "not"
  | jump _ => "br"
  | jumpIfTrue _ => "brtrue"
  | jumpIfFalse _ => "brfalse"
  | dup => "dup"
  | pop => "pop"
  | ret => "ret"
  | throw => "throw"
  | dispatch _ => "dispatch"

def target? : Instruction α → Option UInt64
  | jump t | jumpIfTrue t | jumpIfFalse t => some t
  | _ => none

/-- Moves a branch by `offset` positions. -/
def shift (offset : UInt64) : Instruction α → Instruction α
  | jump t => jump (t + offset)
  | jumpIfTrue t => jumpIfTrue (t + offset)
  | jumpIfFalse t => jumpIfFalse (t + offset)
  | i => i

/-- Does control never go on to the next instruction? -/
def isTerminator : Instruction α → Bool
  | ret | throw | jump _ => true
  | _ => false

/-- Changes the literal, if there is one, by a computation. -/
def traverse {m : Type → Type} [Monad m] (f : α → m β) : Instruction α → m (Instruction β)
  | const x => return const (← f x)
  | nop => return nop
  | loadArg i => return loadArg i
  | storeArg i => return storeArg i
  | loadLocal i => return loadLocal i
  | storeLocal i => return storeLocal i
  | loadThis => return loadThis
  | loadField r => return loadField r
  | storeField r => return storeField r
  | loadStatic r => return loadStatic r
  | storeStatic r => return storeStatic r
  | call r => return call r
  | construct r => return construct r
  | binary op => return binary op
  | compare op => return compare op
  | not => return not
  | jump t => return jump t
  | jumpIfTrue t => return jumpIfTrue t
  | jumpIfFalse t => return jumpIfFalse t
  | dup => return dup
  | pop => return pop
  | ret => return ret
  | throw => return throw
  | dispatch s => return dispatch s

/-- A position in a body, with four digits at least. -/
def position (n : Nat) : String :=
  let digits := toString n
  "IL_" ++ String.ofList (List.replicate (4 - digits.length) '0') ++ digits

def DispatchSite.operands (site : DispatchSite) : String :=
  site.mode.name ++ " via " ++ site.client.display ++ " (" ++ toString site.paramCount.toNat ++
    " args" ++ (if site.onMainThread then ", main thread" else "") ++ ")"

/-- The text of an instruction, given that of a literal. -/
def displayWith (literal : α → String) (i : Instruction α) : String :=
  match i with
  | const x => i.mnemonic ++ " " ++ literal x
  | loadArg n | storeArg n | loadLocal n | storeLocal n => i.mnemonic ++ " " ++ toString n.toNat
  | loadField f | storeField f | loadStatic f | storeStatic f => i.mnemonic ++ " " ++ f.display
  | call m => i.mnemonic ++ " " ++ m.display
  | construct t => i.mnemonic ++ " " ++ t.display
  | binary op => op.name
  | compare op => i.mnemonic ++ "." ++ op.name
  | jump t | jumpIfTrue t | jumpIfFalse t => i.mnemonic ++ " " ++ position t.toNat
  | dispatch site => i.mnemonic ++ " " ++ DispatchSite.operands site
  | _ => i.mnemonic

def display (i : Instruction Datum) : String := i.displayWith Datum.display

end Instruction
end MobileCode
