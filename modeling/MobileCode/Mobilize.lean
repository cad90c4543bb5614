import MobileCode.Module
import MobileCode.Error

/-! # Making a method mobile

A mobile method first dispatches its call. In normal mode the body follows the dispatch and runs
only when nothing was executed elsewhere. In the other modes the body moves to a sibling with one
more parameter, a marker: with the marker set the body runs at once, without it the call is
dispatched first. The method itself becomes a stub that calls its sibling without the marker.
-/
namespace MobileCode
variable {α : Type}

/-- Why a method cannot be made mobile. -/
inductive Obstacle
  | alreadyMobile
  | noDefaultConstructor
  | tooManyParams
  | notStatic (mode : Mode)
  | returnsValue (mode : Mode)
  | siblingExists (name : String)
  deriving DecidableEq, Inhabited, Repr

def Obstacle.message : Obstacle → String
  | alreadyMobile => "method was already rewritten"
  | noDefaultConstructor => "declaring type has no parameterless constructor"
  | tooManyParams => "too many parameters"
  | notStatic mode => mode.name ++ " methods must be static"
  | returnsValue mode => mode.name ++ " methods must not return a value"
  | siblingExists name => s!"a method named '{name}' already exists"

/-- The name of the sibling that holds a moved body. -/
def relayBodyName (method : String) : String := method ++ "$relay"

/-- The last parameter of a sibling; it says whether the body is to run at once. -/
def relayMarker [Literal α] : ParamDecl α :=
  ⟨"<nomad>relay", TypeName.boolean, some (Literal.bool false)⟩

/-- A method that was made mobile. -/
structure Mobilized where
  type : String
  method : String
  mode : Mode
  relayBody : Option String
  deriving DecidableEq, Inhabited, Repr

namespace Mobility

/-- The first obstacle to making a method of a type mobile in this way. -/
def obstacle? (a : Mobility) (t : TypeDecl α) (d : MethodDecl α) : Option Obstacle :=
  if d.flags.has MethodFlags.mobilized then some .alreadyMobile
  else if t.defaultConstructor?.isNone then some .noDefaultConstructor
  else if UInt16.size ≤ d.params.length then some .tooManyParams
  else if a.mode = .normal then none
  else if !d.isStatic then some (.notStatic a.mode)
  else if !d.isVoid then some (.returnsValue a.mode)
  else if (t.methodsNamed (relayBodyName d.name)).isEmpty then none
  else some (.siblingExists (relayBodyName d.name))

def check (a : Mobility) (module : String) (t : TypeDecl α) (d : MethodDecl α) : Except Error Unit :=
  match a.obstacle? t d with
  | none => .ok ()
  | some o => .error (.unmovable (t.fullName ++ "::" ++ d.name) module o.message)

/-- The dispatch of a method of a type. -/
def site (a : Mobility) (client : String) (type : String) (d : MethodDecl α) : DispatchSite where
  client := ⟨none, client⟩
  mode := a.mode
  onMainThread := a.onMainThread
  method := d.reference ⟨none, type⟩
  paramCount := UInt16.ofNat d.params.length

end Mobility

/-- Puts instructions in front of a body, whose branches go where they went before. -/
def inFrontOf (front body : List (Instruction α)) : List (Instruction α) :=
  front ++ body.map (·.shift (UInt64.ofNat front.length))

namespace DispatchSite

/-- Dispatches, and returns unless nothing was executed. -/
def normalFront (site : DispatchSite) (isVoid : Bool) : List (Instruction α) :=
  if isVoid then [.dispatch site, .jumpIfFalse 4, .pop, .ret, .pop]
  else [.dispatch site, .jumpIfFalse 3, .ret, .pop]

/-- Without the marker dispatches; a relayed call then returns, a replayed one goes on. -/
def relayFront (site : DispatchSite) : List (Instruction α) :=
  match site.mode with
  | .replay => [.loadArg site.paramCount, .jumpIfTrue 5, .dispatch site, .pop, .pop]
  | _ => [.loadArg site.paramCount, .jumpIfTrue 6, .dispatch site, .pop, .pop, .ret]

end DispatchSite

namespace MethodDecl

/-- The sibling of a method, which holds its body. -/
def relaySibling [Literal α] (d : MethodDecl α) (site : DispatchSite) : MethodDecl α :=
  { d with
    name := relayBodyName d.name
    flags := (d.flags ||| MethodFlags.relayBody ||| MethodFlags.mobilized).without MethodFlags.mobile
    params := d.params ++ [relayMarker]
    body := inFrontOf site.relayFront d.body
    mobility := none
    relayBody := none
    closure := none }

/-- Hands the arguments of a method on to its sibling, without the marker. -/
def stubBody [Literal α] (type : String) (d sibling : MethodDecl α) : List (Instruction α) :=
  (List.range d.params.length).map (fun i => .loadArg (UInt16.ofNat i)) ++
    [.const (Literal.bool false), .call (sibling.reference ⟨none, type⟩), .ret]

/-- The mobile form of a method, and its sibling if it needs one. -/
def mobilize [Literal α] (d : MethodDecl α) (type : String) (site : DispatchSite) :
    MethodDecl α × Option (MethodDecl α) :=
  match site.mode with
  | .normal => ({ d with body := inFrontOf (site.normalFront d.isVoid) d.body }, none)
  | _ =>
    let sibling := d.relaySibling site
    ({ d with body := d.stubBody type sibling, locals := 0, relayBody := some sibling.name },
      some sibling)

end MethodDecl

/-- Makes the method at a position of a type mobile; a sibling goes behind all methods. -/
def TypeDecl.mobilize [Literal α] (t : TypeDecl α) (client module : String) (index : Nat)
    (a : Mobility) (closure : Closure) : Except Error (Mobilized × TypeDecl α) :=
  match t.methods[index]? with
  | none => .error (.general s!"Method index {index} out of range on '{t.fullName}'")
  | some d => do
    a.check module t d
    let (mobile, sibling?) := d.mobilize t.fullName (a.site client t.fullName d)
    let mobile := { mobile with
      flags := mobile.flags ||| MethodFlags.mobilized, mobility := some a, closure := some closure }
    return (⟨t.fullName, d.name, a.mode, sibling?.map (·.name)⟩,
      { t with methods := t.methods.set index mobile ++ sibling?.toList })

end MobileCode
