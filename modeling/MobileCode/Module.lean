import MobileCode.Instruction
import MobileCode.Closure
import MobileCode.Flags
import MobileCode.Dict

/-! # Modules

A module declares types, a type declares fields, properties and methods. As in bodies, literals
are generic: a module read from a file holds data, a loaded one holds values.
-/
namespace MobileCode

abbrev ModuleFlags := Flags [("NOMADIC", 1)]
abbrev TypeFlags := Flags [("NOMADIC", 1)]
abbrev MemberFlags := Flags [("STATIC", 1), ("IGNORE_TRANSFER", 2)]
abbrev MethodFlags := Flags [("STATIC", 1), ("NOMADIC", 2), ("CONSTRUCTOR", 4), ("GETTER", 8),
  ("SETTER", 16), ("RELAY_BODY", 32), ("SERVER_RELAY_ENTRY", 64), ("REWRITTEN", 128)]

namespace ModuleFlags
/-- Every method of the module is mobile. -/
def mobile : ModuleFlags := ⟨1⟩
end ModuleFlags

namespace TypeFlags
/-- Every method of the type is mobile. -/
def mobile : TypeFlags := ⟨1⟩
end TypeFlags

namespace MemberFlags
def static : MemberFlags := ⟨1⟩
/-- The member stays at home when its type travels. -/
def ignoreTransfer : MemberFlags := ⟨2⟩
end MemberFlags

namespace MethodFlags
def static : MethodFlags := ⟨1⟩
def mobile : MethodFlags := ⟨2⟩
def constructor : MethodFlags := ⟨4⟩
def getter : MethodFlags := ⟨8⟩
def setter : MethodFlags := ⟨16⟩
/-- The method holds the body that a relayed method had. -/
def relayBody : MethodFlags := ⟨32⟩
/-- On a server, calls of the method go to its relay body. -/
def relayEntry : MethodFlags := ⟨64⟩
/-- The method has its mobile form. -/
def mobilized : MethodFlags := ⟨128⟩
/-- Methods with one of these flags never move. -/
def unmovable : MethodFlags := constructor ||| getter ||| setter ||| relayBody
end MethodFlags

def constructorName : String := ".ctor"

/-- How a method that was marked mobile is to run. -/
structure Mobility where
  mode : Mode := .normal
  onMainThread : Bool := false
  deriving DecidableEq, Inhabited, Repr

structure ParamDecl (α : Type) where
  name : String
  type : String
  default : Option α := none
  deriving Inhabited, BEq

structure FieldDecl (α : Type) where
  name : String
  type : String
  flags : MemberFlags := .none
  initial : Option α := none
  deriving Inhabited, BEq

structure PropertyDecl where
  name : String
  type : String
  flags : MemberFlags := .none
  getter : Option String := none
  setter : Option String := none
  deriving Inhabited, DecidableEq

structure MethodDecl (α : Type) where
  name : String
  flags : MethodFlags := .none
  params : List (ParamDecl α) := []
  returns : Option String := none
  locals : UInt16 := 0
  body : List (Instruction α)
  mobility : Option Mobility := none
  relayBody : Option String := none
  closure : Option Closure := none
  deriving Inhabited, BEq

structure TypeDecl (α : Type) where
  space : String
  name : String
  flags : TypeFlags := .none
  fields : List (FieldDecl α) := []
  properties : List PropertyDecl := []
  methods : List (MethodDecl α) := []
  deriving Inhabited, BEq

structure Module (α : Type) where
  name : String
  flags : ModuleFlags := .none
  references : List String := []
  types : List (TypeDecl α) := []
  resources : Dict Bytes := []
  pairedHash : Option String := none
  deriving Inhabited, BEq

variable {α β : Type}

def FieldDecl.isStatic (f : FieldDecl α) : Bool := f.flags.has MemberFlags.static

/-- The value that a field starts with. -/
def FieldDecl.initialValue [Literal α] (f : FieldDecl α) : α :=
  f.initial.getD (Literal.defaultFor f.type)

def PropertyDecl.isStatic (p : PropertyDecl) : Bool := p.flags.has MemberFlags.static

def PropertyDecl.hasAccessor (p : PropertyDecl) (method : String) : Bool :=
  p.getter = some method || p.setter = some method

namespace MethodDecl

def isStatic (m : MethodDecl α) : Bool := m.flags.has MethodFlags.static
def isVoid (m : MethodDecl α) : Bool := m.returns.isNone
def isAccessor (m : MethodDecl α) : Bool := m.flags.meets (MethodFlags.getter ||| MethodFlags.setter)

def isDefaultConstructor (m : MethodDecl α) : Bool :=
  m.flags.has MethodFlags.constructor && !m.isStatic && m.params.isEmpty

def paramTypes (m : MethodDecl α) : List String := m.params.map (·.type)
def hasSignature (m : MethodDecl α) (types : List String) : Bool := m.paramTypes = types
def key (m : MethodDecl α) (type : String) : MethodKey := ⟨type, m.name, m.paramTypes⟩
def reference (m : MethodDecl α) (owner : TypeRef) : MethodRef := ⟨owner, m.name, m.paramTypes⟩

end MethodDecl

namespace TypeDecl

def fullName (t : TypeDecl α) : String :=
  if t.space.isEmpty then t.name else t.space ++ "." ++ t.name

def field? (t : TypeDecl α) (name : String) : Option (FieldDecl α) :=
  t.fields.find? (·.name = name)

def property? (t : TypeDecl α) (name : String) : Option PropertyDecl :=
  t.properties.find? (·.name = name)

/-- The property that a method reads or writes for. -/
def propertyOfAccessor? (t : TypeDecl α) (method : String) : Option PropertyDecl :=
  t.properties.find? (·.hasAccessor method)

def method? (t : TypeDecl α) (name : String) (types : List String) : Option (MethodDecl α) :=
  t.methods.find? fun m => m.name = name && m.hasSignature types

def methodsNamed (t : TypeDecl α) (name : String) : List (MethodDecl α) :=
  t.methods.filter (·.name = name)

def defaultConstructor? (t : TypeDecl α) : Option (MethodDecl α) :=
  t.methods.find? (·.isDefaultConstructor)

end TypeDecl

namespace Module

def type? (m : Module α) (fullName : String) : Option (TypeDecl α) :=
  m.types.find? (·.fullName = fullName)

def method? (m : Module α) (key : MethodKey) : Option (MethodDecl α) :=
  (m.type? key.type).bind (·.method? key.name key.paramTypes)

/-- Is a method marked, itself or with its type or module? Constructors, accessors and moved
bodies never are. -/
def isMobile (m : Module α) (t : TypeDecl α) (d : MethodDecl α) : Bool :=
  !d.flags.meets MethodFlags.unmovable &&
    (d.mobility.isSome || d.flags.has MethodFlags.mobile || t.flags.has TypeFlags.mobile ||
      m.flags.has ModuleFlags.mobile)

/-- The resource names that hold modules carried along start with this text. -/
def bundleMark : String := "nomad.bundle/"

def bundled? (m : Module α) (name : String) : Option Bytes :=
  m.resources.find? (bundleMark ++ name)

end Module

section Traverse
variable {m : Type → Type} [Monad m]

def traverseOption (f : α → m β) : Option α → m (Option β)
  | none => return none
  | some x => return some (← f x)

def ParamDecl.traverse (f : α → m β) (p : ParamDecl α) : m (ParamDecl β) :=
  return ⟨p.name, p.type, ← traverseOption f p.default⟩

def FieldDecl.traverse (f : α → m β) (d : FieldDecl α) : m (FieldDecl β) :=
  return ⟨d.name, d.type, d.flags, ← traverseOption f d.initial⟩

def MethodDecl.traverse (f : α → m β) (d : MethodDecl α) : m (MethodDecl β) :=
  return { name := d.name, flags := d.flags, params := ← d.params.mapM (·.traverse f),
           returns := d.returns, locals := d.locals, body := ← d.body.mapM (·.traverse f),
           mobility := d.mobility, relayBody := d.relayBody, closure := d.closure }

def TypeDecl.traverse (f : α → m β) (t : TypeDecl α) : m (TypeDecl β) :=
  return { space := t.space, name := t.name, flags := t.flags,
           fields := ← t.fields.mapM (·.traverse f), properties := t.properties,
           methods := ← t.methods.mapM (·.traverse f) }

/-- Changes every literal by a computation, in the order of the file. -/
def Module.traverse (f : α → m β) (d : Module α) : m (Module β) :=
  return { name := d.name, flags := d.flags, references := d.references,
           types := ← d.types.mapM (·.traverse f), resources := d.resources,
           pairedHash := d.pairedHash }

end Traverse
end MobileCode
