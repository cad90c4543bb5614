import MobileCode.Heap
import MobileCode.Digest
import MobileCode.Wire.Module

/-! # Domains

A domain holds the modules loaded into it, an index of their types, a table of their methods for
calls by argument values, the static fields of their types and the heap. The literals of a module
become values when it is loaded, so a literal object is one object wherever the code mentions it.
-/
namespace MobileCode

structure LoadedModule where
  code : Module Value
  bytes : Bytes
  hash : String
  /-- The file that the module was read from. -/
  path : Option String
  deriving Inhabited

def LoadedModule.name (m : LoadedModule) : String := m.code.name

structure MethodHandle where
  module : LoadedModule
  owner : TypeDecl Value
  decl : MethodDecl Value
  deriving Inhabited

def MethodHandle.key (m : MethodHandle) : MethodKey := m.decl.key m.owner.fullName

structure TypeHandle where
  module : LoadedModule
  decl : TypeDecl Value
  deriving Inhabited

def TypeHandle.method? (t : TypeHandle) (name : String) (types : List String) : Option MethodHandle :=
  (t.decl.method? name types).map fun d => ⟨t.module, t.decl, d⟩

/-! ## Overloads -/

structure Overload where
  key : MethodKey
  params : List (ParamDecl Value)
  isStatic : Bool
  deriving Inhabited

namespace Overload

def ofMethod (type : String) (d : MethodDecl Value) : Overload := ⟨d.key type, d.params, d.isStatic⟩

/-- The parameters in front of the first one with a default. -/
def required (o : Overload) : Nat := (o.params.takeWhile (·.default.isNone)).length

/-- Are there arguments enough and not too many, each of its declared type? -/
def accepts (heap : Heap) (o : Overload) (args : List Value) : Bool :=
  o.required ≤ args.length && args.length ≤ o.params.length &&
    (args.zip o.params).all fun (v, p) => heap.matchesType v p.type

end Overload

structure DispatchTable where
  module : String
  entries : List ((String × String) × List Overload)
  deriving Inhabited

namespace DispatchTable

def add (entries : List ((String × String) × List Overload)) (o : Overload) :
    List ((String × String) × List Overload) :=
  match entries with
  | [] => [((o.key.type, o.key.name), [o])]
  | (k, os) :: rest => if k = (o.key.type, o.key.name) then (k, os ++ [o]) :: rest else (k, os) :: add rest o

/-- Overloads in the order of their declaration. -/
def ofModule (m : Module Value) : DispatchTable where
  module := m.name
  entries := (m.types.flatMap fun t => t.methods.map (Overload.ofMethod t.fullName)).foldl add []

def overloads (t : DispatchTable) (type method : String) : List Overload :=
  (t.entries.lookup (type, method)).getD []

/-- The first declared overload that accepts the arguments. -/
def resolve? (t : DispatchTable) (heap : Heap) (type method : String) (args : List Value) :
    Option Overload :=
  (t.overloads type method).find? (·.accepts heap args)

end DispatchTable

/-! ## Loading -/

structure Domain where
  hostName : String
  digest : DigestAlgorithm := .sha1
  maxDepth : Nat := 256
  heap : Heap := {}
  modules : Dict LoadedModule := []
  types : Dict TypeHandle := []
  tables : Dict DispatchTable := []
  statics : Dict (Dict Value) := []
  deriving Inhabited

namespace Domain

def module? (d : Domain) (name : String) : Option LoadedModule := d.modules.find? name
def type? (d : Domain) (name : String) : Option TypeHandle := d.types.find? name
def table? (d : Domain) (module : String) : Option DispatchTable := d.tables.find? module
def moduleNames (d : Domain) : List String := d.modules.names
def moduleOf? (d : Domain) (type : String) : Option LoadedModule := (d.type? type).map (·.module)

/-- The initial static fields of a type. -/
def staticsOf (t : TypeDecl Value) : Dict Value :=
  Dict.ofList ((t.fields.filter (·.isStatic)).map fun f => (f.name, f.initialValue))

/-- The first type of a module that another module has defined already. -/
def clash? (d : Domain) (m : Module Value) : Option (String × String) :=
  m.types.findSome? fun t => (d.type? t.fullName).map fun h => (t.fullName, h.module.name)

def enterType (m : LoadedModule) (d : Domain) (t : TypeDecl Value) : Domain :=
  { d with types := d.types.insert t.fullName ⟨m, t⟩,
           statics := d.statics.insert t.fullName (staticsOf t) }

def enter (d : Domain) (m : LoadedModule) : Domain :=
  let d := m.code.types.foldl (enterType m) d
  { d with tables := d.tables.insert m.name (DispatchTable.ofModule m.code),
           modules := d.modules.insert m.name m }

/-- The literals of a module, each with objects of its own. -/
def instantiate (m : Module Datum) : StateM Heap (Module Value) :=
  let literal : Datum → StateM Heap Value := Heap.instantiate
  m.traverse literal

/-- Adds a valid module with the bytes of its file. A module that is loaded stays as it is, and a
second version of it is refused. -/
def register (d : Domain) (m : Module Datum) (bytes : Bytes) (path : Option String) :
    Except Error (LoadedModule × Domain) :=
  let hash := d.digest.digest bytes
  match d.module? m.name with
  | some existing =>
    if existing.hash = hash then .ok (existing, d)
    else .error (.invalid (.versionLoaded m.name existing.hash hash))
  | none =>
    let (code, heap) := (instantiate m).run d.heap
    match d.clash? code with
    | some (type, owner) => .error (.invalid (.typeDefined type m.name owner))
    | none =>
      let loaded : LoadedModule := ⟨code, bytes, hash, path⟩
      .ok (loaded, ({ d with heap } : Domain).enter loaded)

def load (d : Domain) (m : Module Datum) : Except Error (LoadedModule × Domain) := do
  m.validate
  d.register m m.toFile none

def loadFile (d : Domain) (bytes : Bytes) (path : Option String) :
    Except Error (LoadedModule × Domain) := do
  let m ← Module.ofFile bytes
  d.register m bytes path

end Domain
end MobileCode
