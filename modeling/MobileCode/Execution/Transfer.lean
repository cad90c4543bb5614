import MobileCode.Execution.Invocation
import MobileCode.Variable

/-! # Carrying state

Variables are filled from the members they name and written onto them again. A field must be
declared as the variable says and is read or set directly; a property is read and set by its
accessors. A property without the accessor that is needed stays as it is.
-/
namespace MobileCode
variable {ω : Type}

namespace Variable

/-- The object whose member is meant; a static member has none. -/
def instance? (v : Variable Value) (target : Option Ref) : Run (State ω) (Option Ref) := do
  if v.isStatic then return none
  match target with
  | none => throw (.invalid (.noTarget v.owner v.name))
  | some r =>
    let type := (← State.getHeap).typeOf r
    if type = v.owner then return some r
    else throw (.invalid (.foreignTarget v.owner v.name type))

def undeclared (v : Variable Value) (owner : TypeHandle) : Error :=
  .memberNotFound v.name v.owner owner.module.name

/-- Fails unless the type declares the field, static or not as the variable says. -/
def checkField (host : Host ω) (v : Variable Value) : Run (State ω) Unit := do
  let owner ← host.resolveLocal v.owner
  if (owner.decl.field? v.name).any (·.isStatic = v.isStatic) then return ()
  else throw (v.undeclared owner)

/-- The accessor of a property that `which` selects. -/
def accessor (host : Host ω) (which : PropertyDecl → Option String) (v : Variable Value) :
    Run (State ω) String := do
  let owner ← host.resolveLocal v.owner
  match owner.decl.property? v.name with
  | none => throw (.unresolved .property v.name v.owner "<variable copy>")
  | some p =>
    if p.isStatic ≠ v.isStatic then throw (v.undeclared owner)
    else
      match which p with
      | some name => return name
      | none => throw (.accessorUnavailable v.name v.owner)

def readField (host : Host ω) (v : Variable Value) (target : Option Ref) : Run (State ω) Value := do
  match ← v.instance? target with
  | none => host.getStatic v.owner v.name
  | some r =>
    match (← State.getHeap).field? r v.name with
    | some x => return x
    | none =>
      let module := ((← get).domain.moduleOf? v.owner).map (·.name)
      throw (.memberNotFound v.name v.owner (module.getD ""))

def readProperty (host : Host ω) (run : Runner ω) (v : Variable Value) (target : Option Ref) :
    Run (State ω) Value := do
  let getter ← v.accessor host (·.getter)
  host.invoke run ⟨⟨none, v.owner⟩, getter, []⟩ (← v.instance? target) []

/-- The variable with the value that its member has. -/
def copyFrom (host : Host ω) (run : Runner ω) (v : Variable Value) (target : Option Ref) :
    Run (State ω) (Variable Value) := do
  Run.ofExcept v.validate
  match v.kind with
  | .parameter => throw (.invalid (.parameterFromObject v.name))
  | .field => do
    v.checkField host
    return v.withValue (← v.readField host target)
  | .property => return v.withValue (← v.readProperty host run target)

def checkValue (v : Variable Value) : Run (State ω) Unit := do
  let heap ← State.getHeap
  if heap.matchesType v.value v.type then return ()
  else throw (.invalid (.unassignable (heap.typeName v.value) v.owner v.name v.type))

/-- Gives the member the value of the variable. -/
def copyTo (host : Host ω) (run : Runner ω) (v : Variable Value) (target : Option Ref) :
    Run (State ω) Unit := do
  Run.ofExcept v.validate
  match v.kind with
  | .parameter => throw (.invalid (.parameterOntoObject v.name))
  | .field => do
    v.checkField host
    v.checkValue
    match ← v.instance? target with
    | some r => State.setField r v.name v.value
    | none => host.setStatic v.owner v.name v.value
  | .property => do
    v.checkValue
    let setter ← v.accessor host (·.setter)
    let receiver ← v.instance? target
    let _ ← host.invoke run ⟨⟨none, v.owner⟩, setter, [v.type]⟩ receiver [v.value]

end Variable

namespace Transfer

/-- Passes over a property that lacks the accessor. -/
def unlessUnavailable {α : Type} (x : Run (State ω) α) : Run (State ω) (Option α) := do
  match ← Run.attempt x with
  | .ok y => return some y
  | .error (.accessorUnavailable ..) => return none
  | .error e => throw e

def unresolved (kind : ReferenceKind) (id : MemberId) : Error :=
  .unresolved kind id.name id.type "<capture>"

def captureField (host : Host ω) (run : Runner ω) (owner : TypeHandle) (receiver : Option Ref)
    (id : MemberId) : Run (State ω) (Option (Variable Value)) := do
  match owner.decl.field? id.name with
  | none => throw (unresolved .field id)
  | some d =>
    if !d.isStatic && receiver.isNone then return none
    else
      let v : Variable Value := ⟨.field, d.name, id.type, d.type, .null, d.isStatic⟩
      return some (← v.copyFrom host run receiver)

def captureProperty (host : Host ω) (run : Runner ω) (owner : TypeHandle) (receiver : Option Ref)
    (id : MemberId) : Run (State ω) (Option (Variable Value)) := do
  match owner.decl.property? id.name with
  | none => throw (unresolved .property id)
  | some p =>
    if !p.isStatic && receiver.isNone then return none
    else
      let v : Variable Value := ⟨.property, p.name, id.type, p.type, .null, p.isStatic⟩
      unlessUnavailable (v.copyFrom host run receiver)

/-- The fields and properties of a type that a closure names. Without a receiver only static ones
are captured. -/
def capture (host : Host ω) (run : Runner ω) (type : String) (closure : Closure)
    (receiver : Option Ref) : Run (State ω) (List (Variable Value)) := do
  let owner ← host.resolveLocal type
  let fields ← (closure.fields.filter (·.type = type)).mapM (captureField host run owner receiver)
  let properties ←
    (closure.properties.filter (·.type = type)).mapM (captureProperty host run owner receiver)
  return (fields ++ properties).filterMap id

/-- Writes variables onto their members, one after the other. -/
def apply (host : Host ω) (run : Runner ω) (target : Option Ref) :
    List (Variable Value) → Run (State ω) Unit
  | [] => return ()
  | v :: rest => do
    let _ ← unlessUnavailable (v.copyTo host run target)
    apply host run target rest

/-- Reads variables again, up to the first failure. -/
def refresh (host : Host ω) (run : Runner ω) (target : Option Ref) :
    List (Variable Value) → Run (State ω) (List (Variable Value) × Except Error Unit)
  | [] => return ([], .ok ())
  | v :: rest => do
    match ← Run.attempt (unlessUnavailable (v.copyFrom host run target)) with
    | .error e => return (v :: rest, .error e)
    | .ok w =>
      let (ws, outcome) ← refresh host run target rest
      return (w.getD v :: ws, outcome)

end Transfer
end MobileCode
