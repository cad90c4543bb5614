import MobileCode.Digest
import MobileCode.Discovery
import MobileCode.FileTree
import MobileCode.Mobilize
import MobileCode.Wire.Module

/-! # Deployments

A module with mobile methods is deployed as two modules. The client module holds the mobile forms
of its methods and carries the modules that their closures reach into. The server module is the
same, but names the client module it belongs to and marks the methods whose calls go to a sibling.
-/
namespace MobileCode

/-- A method that is to be made mobile, and where it stands. -/
structure Target (α : Type) where
  typeIndex : Nat
  methodIndex : Nat
  type : TypeDecl α
  method : MethodDecl α

namespace Target
variable {α : Type}

/-- The mark of the method; one that is mobile with its type or module runs in normal mode. -/
def mobility (t : Target α) : Mobility := t.method.mobility.getD {}

def check (t : Target α) (module : String) : Except Error Unit :=
  t.mobility.check module t.type t.method

/-- Makes the method mobile in its module. -/
def mobilize [Literal α] (t : Target α) (client : String) (closure : Closure) (m : Module α) :
    Except Error (Mobilized × Module α) :=
  match m.types[t.typeIndex]? with
  | none => .error (.general s!"Type index {t.typeIndex} out of range in '{m.name}'")
  | some type => do
    let (done, type) ← type.mobilize client m.name t.methodIndex t.mobility closure
    return (done, { m with types := m.types.set t.typeIndex type })

end Target

/-- The mobile methods of a module that are still to be made mobile, in their order. -/
def Module.targets {α : Type} (m : Module α) : List (Target α) :=
  m.types.zipIdx.flatMap fun (t, i) => t.methods.zipIdx.filterMap fun (d, k) =>
    if m.isMobile t d && !d.flags.has MethodFlags.mobilized then some ⟨i, k, t, d⟩ else none

/-- Carries a module along and refers to it. -/
def Module.carry (m : Module Datum) (name : String) (dependency : Module Datum) : Module Datum :=
  { m with
    resources := m.resources.insert (Module.bundleMark ++ name) dependency.toFile
    references := if m.references.contains name then m.references else m.references ++ [name] }

/-- Marks a method whose calls go to its sibling. -/
def Module.markRelayEntry {α : Type} (m : Module α) (t : Target α) : Module α :=
  { m with types := m.types.modify t.typeIndex fun type =>
      { type with methods := type.methods.modify t.methodIndex fun d =>
          { d with flags := d.flags ||| MethodFlags.relayEntry } } }

structure Deployment where
  client : Module Datum
  server : Module Datum
  methods : List Mobilized
  /-- The modules carried along. -/
  bundle : KeySet String
  deriving Inhabited

namespace Deployment

/-- Makes targets mobile one after the other. -/
def mobilizeAll (client : String) : List (Target Datum × Closure) → Module Datum →
    Except Error (List Mobilized × Module Datum)
  | [], m => .ok ([], m)
  | (t, c) :: rest, m => do
    let (done, m) ← t.mobilize client c m
    let (others, m) ← mobilizeAll client rest m
    return (done :: others, m)

/-- Carries along the first supplied module of each name. -/
def carryAll (dependencies : List (Module Datum)) : List String → Module Datum →
    Except Error (Module Datum)
  | [], m => .ok m
  | name :: rest, m =>
    match dependencies.find? (·.name = name) with
    | none => .error (.general
        s!"Dependency module '{name}' required by '{m.name}' was not supplied")
    | some d => carryAll dependencies rest (m.carry name d)

/-- The server's counterpart of a client module. -/
def serverModule (digest : DigestAlgorithm) (client : Module Datum)
    (relayed : List (Target Datum)) : Module Datum :=
  relayed.foldl Module.markRelayEntry { client with pairedHash := some (digest.digest client.toFile) }

/-- The two modules of a deployment; a module with nothing to make mobile needs none. -/
def make? (boundary : Boundary) (digest : DigestAlgorithm) (m : Module Datum)
    (dependencies : List (Module Datum)) : Except Error (Option Deployment) := do
  let targets := m.targets
  if targets.isEmpty then return none
  let _ ← targets.mapM (·.check m.name)
  let modules := ModuleSet.ofList m dependencies
  let closures ← targets.mapM fun t => modules.discover boundary t.type.fullName t.method
  let bundle := closures.foldl (fun names c => KeySet.union names c.modules) []
  let (methods, client) ← mobilizeAll boundary.clientType (targets.zip closures) m
  let client ← carryAll dependencies bundle client
  let relayed := targets.filter (·.mobility.mode ≠ .normal)
  return some { client, methods, bundle, server := serverModule digest client relayed }

/-- Writes each module to a directory of its own, which is created if it is not there. -/
def store {m : Type → Type} [Monad m] (files : FileAccess m) (d : Deployment)
    (clientDirectory serverDirectory : String) : m Bool := do
  if ← files.createDirectories clientDirectory then
    if ← files.createDirectories serverDirectory then
      if ← files.write (joinPath clientDirectory d.client.name) d.client.toFile then
        files.write (joinPath serverDirectory d.server.name) d.server.toFile
      else return false
    else return false
  else return false

/-- What an observer of deployments is told about each module. -/
structure Notice where
  module : String
  /-- The module has mobile methods. -/
  mobile : Bool
  error : Option String
  deriving DecidableEq, Inhabited, Repr

def notice (m : Module Datum) : Except Error (Option Deployment) → Notice
  | .ok d => ⟨m.name, d.isSome, none⟩
  | .error e => ⟨m.name, true, some e.message⟩

end Deployment
end MobileCode
