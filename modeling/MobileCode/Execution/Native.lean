import MobileCode.Execution.Host

/-! # Native methods

The native methods every host has: on texts, on lists, and for the names of host and thread.
-/
namespace MobileCode.Native
variable {ω : Type}

def mainThread : String := "nomad-main"

def wrongArity {α : Type} (type method : String) (expected : Nat) (args : List Value) :
    Run (State ω) α :=
  throw (.invalid (.nativeArity type method expected args.length))

/-- The items of a list argument. -/
def items (method : String) : Value → Run (State ω) (List Value)
  | .list xs => return xs
  | v => do throw (.invalid (.notAList method ((← State.getHeap).typeName v)))

/-- A count as a program sees it; it stops at the largest integer. -/
def count (n : Nat) : Value := .int32 (Int32.ofNat (min n 0x7fffffff))

def textOf (v : Value) : Run (State ω) String := return (← State.getHeap).textOf v

def concat : List Value → Run (State ω) Value
  | [a, b] => return .text ((← textOf a) ++ (← textOf b))
  | args => wrongArity TypeName.text "Concat" 2 args

def length : List Value → Run (State ω) Value
  | [a] => return count ((a.asText?.map (·.length)).getD 0)
  | args => wrongArity TypeName.text "Length" 1 args

def toText : List Value → Run (State ω) Value
  | [a] => return .text (← textOf a)
  | args => wrongArity TypeName.any "ToString" 1 args

def newList : List Value → Run (State ω) Value
  | [] => return .list []
  | args => wrongArity TypeName.list "New" 0 args

/-- Null counts as the empty list. -/
def append : List Value → Run (State ω) Value
  | [.null, x] => return .list [x]
  | [xs, x] => return .list ((← items "Append" xs) ++ [x])
  | args => wrongArity TypeName.list "Append" 2 args

def listCount : List Value → Run (State ω) Value
  | [.null] => return count 0
  | [xs] => return count (← items "Count" xs).length
  | args => wrongArity TypeName.list "Count" 1 args

def listGet : List Value → Run (State ω) Value
  | [xs, index] => do
    let xs ← items "Get" xs
    let found := do
      let i ← index.asInt64?
      if 0 ≤ i then xs[i.toInt.toNat]? else none
    match found with
    | some x => return x
    | none => throw (.invalid (.listIndex ((← State.getHeap).display index) xs.length))
  | args => wrongArity TypeName.list "Get" 2 args

def machineName : List Value → Run (State ω) Value
  | [] => return .text (← get).domain.hostName
  | args => wrongArity "System.Environment" "get_MachineName" 0 args

def threadName (thread : Option String) : List Value → Run (State ω) Value
  | [] => return (thread.map Value.text).getD .null
  | args => wrongArity "System.Threading.Thread" "get_Name" 0 args

def standard (thread : Option String) : List ((String × String) × Native ω) := [
  ((TypeName.text, "Concat"), { call := concat }),
  ((TypeName.text, "Length"), { call := length }),
  ((TypeName.any, "ToString"), { call := toText }),
  ((TypeName.list, "New"), { call := newList }),
  ((TypeName.list, "Append"), { call := append }),
  ((TypeName.list, "Count"), { call := listCount }),
  ((TypeName.list, "Get"), { call := listGet }),
  (("System.Environment", "get_MachineName"), { call := machineName }),
  (("System.Threading.Thread", "get_Name"), { call := threadName thread })]

end MobileCode.Native
