import MobileCode.Module
import MobileCode.Error

/-! # Discovering closures

The closure of a method is found by a walk over the bodies it can reach. The walk keeps a stack of
bodies to be read and the keys of all methods met so far, so no body is read twice. It does not
enter excluded namespaces, the client type, or accessors of properties that stay at home.
-/
namespace MobileCode
variable {α : Type}

/-- A module and those it may reach into; of two of one name the later one counts. -/
structure ModuleSet (α : Type) where
  root : Module α
  dependencies : Dict (Module α) := []

namespace ModuleSet

def ofList (root : Module α) (dependencies : List (Module α)) : ModuleSet α :=
  ⟨root, Dict.ofList (dependencies.map fun m => (m.name, m))⟩

/-- The module that a scope means in the code of `current`. -/
def scope? (s : ModuleSet α) (current : Module α) : Option String → Option (Module α)
  | none => some current
  | some name =>
    if name = current.name then some current
    else if name = s.root.name then some s.root
    else s.dependencies.find? name

/-- More than the methods that a walk can meet. -/
def bound (s : ModuleSet α) : Nat :=
  let methods (m : Module α) := m.types.flatMap (·.methods)
  (methods s.root ++ s.dependencies.flatMap fun d => methods d.2).length + 2

end ModuleSet

def defaultClientType : String := "Nomad.Remote.ExecutionClient"
def defaultExcluded : List String := ["System", "Microsoft"]

/-- Where walks stop. -/
structure Boundary where
  clientType : String := defaultClientType
  excluded : List String := defaultExcluded
  deriving Inhabited

/-- Does the type lie in an excluded namespace or one nested in it? -/
def Boundary.excludes (b : Boundary) (type : String) : Bool :=
  b.excluded.any fun space => (space.toList ++ ['.']).isPrefixOf type.toList

namespace Discovery

/-- A body to be read, with the module and the type it stands in. -/
structure Item (α : Type) where
  module : Module α
  type : TypeDecl α
  method : MethodDecl α

structure Walk (α : Type) where
  visited : List MethodKey
  closure : Closure := {}
  pending : List (Item α)

/-- What all steps of a walk share. -/
structure Setting (α : Type) where
  modules : ModuleSet α
  boundary : Boundary
  rootType : String

variable (g : Setting α)

def noteModule (m : Module α) (w : Walk α) : Walk α :=
  if m.name = g.modules.root.name then w
  else { w with closure := { w.closure with modules := KeySet.insert m.name w.closure.modules } }

/-- Adds a method that has not been met before. -/
def enqueue (item : Item α) (w : Walk α) : Walk α :=
  let key := item.method.key item.type.fullName
  if key ∈ w.visited then w
  else { visited := key :: w.visited, pending := item :: w.pending,
         closure := { w.closure with methods := KeySet.insert key w.closure.methods } }

def resolveType (item : Item α) (t : TypeRef) (kind : ReferenceKind) (member : String)
    (site : MethodKey) : Except Error (Module α × TypeDecl α) :=
  let found := do
    let m ← g.modules.scope? item.module t.scope
    return (m, ← m.type? t.fullName)
  match found with
  | some x => .ok x
  | none => .error (.unresolved kind member t.display site.display)

def visitField (item : Item α) (site : MethodKey) (field : FieldRef) (w : Walk α) :
    Except Error (Walk α) := do
  if g.boundary.excludes field.owner.fullName then return w
  let (m, t) ← resolveType g item field.owner .field field.name site
  match t.field? field.name with
  | none => throw (.unresolved .field field.name t.fullName site.display)
  | some d =>
    let w := noteModule g m w
    if t.fullName = g.rootType ∧ !d.flags.has MemberFlags.ignoreTransfer then
      return { w with closure := { w.closure with
        fields := KeySet.insert ⟨t.fullName, d.name⟩ w.closure.fields } }
    else return w

/-- The property that an accessor belongs to. -/
def accessed? (t : TypeDecl α) (d : MethodDecl α) : Option PropertyDecl :=
  if d.isAccessor then t.propertyOfAccessor? d.name else none

def noteProperty (t : TypeDecl α) (p : PropertyDecl) (w : Walk α) : Walk α :=
  if t.fullName = g.rootType then
    { w with closure := { w.closure with
      properties := KeySet.insert ⟨t.fullName, p.name⟩ w.closure.properties } }
  else w

def visitCall (item : Item α) (site : MethodKey) (target : MethodRef) (w : Walk α) :
    Except Error (Walk α) := do
  let owner := target.owner.fullName
  if owner = g.boundary.clientType || g.boundary.excludes owner then return w
  let (m, t) ← resolveType g item target.owner .method target.name site
  match t.method? target.name target.paramTypes with
  | none => throw (.unresolved .method target.display t.fullName site.display)
  | some d =>
    match accessed? t d with
    | none => return enqueue ⟨m, t, d⟩ (noteModule g m w)
    | some p =>
      if p.flags.has MemberFlags.ignoreTransfer then return w
      else return enqueue ⟨m, t, d⟩ (noteModule g m (noteProperty g t p w))

def visitConstruct (item : Item α) (site : MethodKey) (type : TypeRef) (w : Walk α) :
    Except Error (Walk α) := do
  if g.boundary.excludes type.fullName then return w
  let (m, t) ← resolveType g item type .type type.fullName site
  let w := noteModule g m w
  match t.defaultConstructor? with
  | some d => return enqueue ⟨m, t, d⟩ w
  | none => return w

def visit (item : Item α) (site : MethodKey) (w : Walk α) : Instruction α → Except Error (Walk α)
  | .loadField f | .storeField f | .loadStatic f | .storeStatic f => visitField g item site f w
  | .call m => visitCall g item site m w
  | .construct t => visitConstruct g item site t w
  | _ => .ok w

def scan (item : Item α) (w : Walk α) : Except Error (Walk α) :=
  item.method.body.foldlM (visit g item (item.method.key item.type.fullName)) w

/-- Reads pending bodies, the last one met first, until none is left. -/
def walk : Nat → Walk α → Except Error (Walk α)
  | 0, w => .ok w
  | fuel + 1, w =>
    match w.pending with
    | [] => .ok w
    | item :: rest => (scan g item { w with pending := rest }).bind (walk fuel)

end Discovery

/-- The closure of a method of a type of the root module. -/
def ModuleSet.discover (s : ModuleSet α) (boundary : Boundary) (type : String) (method : MethodDecl α) :
    Except Error Closure :=
  match s.root.type? type with
  | none => .error (.unresolved .type type s.root.name method.name)
  | some t =>
    let start : Discovery.Walk α := { visited := [method.key type], pending := [⟨s.root, t, method⟩] }
    (Discovery.walk ⟨s, boundary, t.fullName⟩ s.bound start).map (·.closure)

end MobileCode
