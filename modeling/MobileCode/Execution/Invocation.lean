import MobileCode.Execution.Machine

/-! # Calls from outside

Constructing an object and calling a method, by reference or by the values of its arguments. Each
is a run of its own, with nothing below its first frame.
-/
namespace MobileCode.Host
variable {ω : Type}

def construct (host : Host ω) (run : Runner ω) (type : String) : Run (State ω) Ref := do
  match ← run (← Machine.startConstruction host type) with
  | .object r => return r
  | _ => Run.outOfBudget

/-- Runs a method whose declaration is known. -/
def invokeHandle (run : Runner ω) (m : MethodHandle) (receiver : Option Ref) (args : List Value) :
    Run (State ω) Value := do
  run (← Run.ofExcept (Frame.enter (← get).domain.maxDepth 0 m receiver args))

/-- Calls the native method of that name, if there is one, and else the method itself. -/
def invoke (host : Host ω) (run : Runner ω) (m : MethodRef) (receiver : Option Ref)
    (args : List Value) : Run (State ω) Value := do
  match host.native? m.owner.fullName m.name with
  | some native => native.call args
  | none => invokeHandle run (← host.resolveMethod m) receiver args

def invokeByValues (host : Host ω) (run : Runner ω) (type method : String) (receiver : Option Ref)
    (args : List Value) : Run (State ω) Value := do
  invokeHandle run (← host.resolveOverload type method args) receiver args

end MobileCode.Host
