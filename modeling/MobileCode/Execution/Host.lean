import MobileCode.Execution.Domain
import MobileCode.Execution.Run

/-! # Hosts

Programs run in a domain on a host. The host gives them its thread, the native methods and, while
one is installed, a resolver that finds the files of modules that are not loaded. What lies
outside the domain is a state of its own, of whatever type the host needs.
-/
namespace MobileCode

structure State (ω : Type) where
  domain : Domain
  outside : ω
  deriving Inhabited

/-- A method that is not made of instructions. -/
structure Native (ω : Type) where
  returnsValue : Bool := true
  call : List Value → Run (State ω) Value

structure Host (ω : Type) where
  thread : Option String
  natives : List ((String × String) × Native ω)
  resolver : Option (String → Run ω (Option Bytes)) := none

namespace State
variable {ω : Type}

def getHeap : Run (State ω) Heap := return (← get).domain.heap

def modifyDomain (f : Domain → Domain) : Run (State ω) Unit :=
  modify fun s => { s with domain := f s.domain }

def setField (r : Ref) (name : String) (value : Value) : Run (State ω) Unit :=
  modifyDomain fun d => { d with heap := d.heap.setField r name value }

def alloc (o : Object) : Run (State ω) Ref := do
  let (r, heap) := (← getHeap).alloc o
  modifyDomain fun d => { d with heap }
  return r

/-- New objects for a datum from outside. -/
def instantiate (x : Datum) : Run (State ω) Value := do
  let (v, heap) := Heap.instantiate x (← getHeap)
  modifyDomain fun d => { d with heap }
  return v

/-- The state of a value, to be sent outside; for a value on a cycle there is no answer. -/
def snapshot (v : Value) : Run (State ω) Datum := do
  Run.ofOption ((← getHeap).snapshot v)

def onOutside {α : Type} (x : Run ω α) : Run (State ω) α :=
  Run.zoom (·.outside) (fun o s => { s with outside := o }) x

def loadFile (bytes : Bytes) (path : Option String) : Run (State ω) LoadedModule := do
  let (m, d) ← Run.ofExcept ((← get).domain.loadFile bytes path)
  modifyDomain fun _ => d
  return m

end State

namespace Host
variable {ω : Type}

def native? (host : Host ω) (type method : String) : Option (Native ω) :=
  host.natives.lookup (type, method)

/-- Asks the resolver, if there is one, and loads what it finds. -/
def resolveModule (host : Host ω) (name : String) : Run (State ω) Bool := do
  match host.resolver with
  | none => return false
  | some resolve =>
    match ← State.onOutside (resolve name) with
    | none => return false
    | some bytes =>
      let _ ← State.loadFile bytes none
      return true

def typeMissing (t : TypeRef) : Error :=
  .memberNotFound t.fullName t.fullName (t.scope.getD "<unknown>")

/-- The type of that full name, whatever module holds it. The scope matters only while its module
is not loaded: then the module may be found by the resolver. -/
def resolveType (host : Host ω) (t : TypeRef) : Run (State ω) TypeHandle := do
  match (← get).domain.type? t.fullName with
  | some handle => return handle
  | none =>
    match t.scope with
    | none => throw (typeMissing t)
    | some scope =>
      if ((← get).domain.module? scope).isSome then throw (typeMissing t)
      else if ← host.resolveModule scope then
        match (← get).domain.type? t.fullName with
        | some handle => return handle
        | none => throw (typeMissing t)
      else throw (typeMissing t)

def resolveLocal (host : Host ω) (type : String) : Run (State ω) TypeHandle :=
  host.resolveType ⟨none, type⟩

def resolveMethod (host : Host ω) (m : MethodRef) : Run (State ω) MethodHandle := do
  let owner ← host.resolveType m.owner
  match owner.method? m.name m.paramTypes with
  | some handle => return handle
  | none => throw (.memberNotFound m.display m.owner.fullName owner.module.name)

def overloadMissing (heap : Heap) (type method : String) (args : List Value) (module : String) :
    Error :=
  .memberNotFound (method ++ "(" ++ String.intercalate ", " (args.map heap.typeName) ++ ")") type module

/-- The method that a call by argument values means. -/
def resolveOverload (host : Host ω) (type method : String) (args : List Value) :
    Run (State ω) MethodHandle := do
  let owner ← host.resolveLocal type
  let domain := (← get).domain
  let handle? := do
    let table ← domain.table? owner.module.name
    let overload ← table.resolve? domain.heap type method args
    owner.method? overload.key.name overload.key.paramTypes
  match handle? with
  | some handle => return handle
  | none => throw (overloadMissing domain.heap type method args owner.module.name)

/-! ## Static fields -/

def staticMissing (type field : String) : Error := .unresolved .field field type "<static access>"

/-- The static fields of a type, if it declares that one. -/
def staticsWith (host : Host ω) (type field : String) : Run (State ω) (Dict Value) := do
  let owner ← host.resolveLocal type
  if (owner.decl.field? field).any (·.isStatic) then
    match (← get).domain.statics.find? type with
    | some fields => return fields
    | none => throw (staticMissing type field)
  else throw (staticMissing type field)

def getStatic (host : Host ω) (type field : String) : Run (State ω) Value := do
  match (← host.staticsWith type field).find? field with
  | some value => return value
  | none => throw (staticMissing type field)

def setStatic (host : Host ω) (type field : String) (value : Value) : Run (State ω) Unit := do
  let fields ← host.staticsWith type field
  State.modifyDomain fun d => { d with statics := d.statics.insert type (fields.insert field value) }

end Host
end MobileCode
