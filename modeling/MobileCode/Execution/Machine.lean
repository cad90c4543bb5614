import MobileCode.Execution.Native
import MobileCode.Execution.Arithmetic

/-! # The machine

A run is a stack of frames over the state. Each step executes the next instruction of the top
frame, which may start a frame on top of it or end it; the run ends with the bottom frame. A
dispatch instruction asks the client of its type, if one is installed, to run the call elsewhere;
what that client does within the domain is a run of its own.
-/
namespace MobileCode

structure Frame where
  method : MethodHandle
  receiver : Option Ref
  args : List Value
  locals : List Value
  /-- The evaluation stack, its top first. -/
  stack : List Value := []
  position : Nat := 0
  depth : Nat := 0
  /-- The object that the frame constructs, which then is its result. -/
  constructs : Option Ref := none
  deriving Inhabited

inductive Transition
  | next (top : Frame) (below : List Frame)
  | done (result : Value)
  deriving Inhabited

/-- Runs a frame and all that it calls to its end. -/
abbrev Runner (ω : Type) := Frame → Run (State ω) Value

inductive DispatchOutcome
  | notExecuted
  | executed (result : Value)
  deriving Inhabited

/-- A client: it is given the means to run code in the domain, the call and its arguments. -/
structure Dispatcher (ω : Type) where
  dispatch : Host ω → Runner ω → DispatchSite → Option Ref → List Value →
    Run (State ω) DispatchOutcome

structure Environment (ω : Type) where
  host : Host ω
  dispatcher? : String → Option (Dispatcher ω) := fun _ => none

def constructedOr (constructs : Option Ref) (v : Value) : Value := (constructs.map .object).getD v

namespace Frame

def push (f : Frame) (v : Value) : Frame := { f with stack := v :: f.stack }

def pop (f : Frame) : Except Error (Value × Frame) :=
  match f.stack with
  | v :: rest => .ok (v, { f with stack := rest })
  | [] => .error (.malformed .stackEmpty)

/-- The top `n` values, the deepest one first. -/
def popMany (n : Nat) (f : Frame) : Except Error (List Value × Frame) :=
  if f.stack.length < n then .error (.malformed (.stackTooShort n f.stack.length))
  else .ok ((f.stack.take n).reverse, { f with stack := f.stack.drop n })

/-- An exception thrown by the code of the frame. -/
def exception (f : Frame) (message : String) : Error :=
  .thrown f.method.owner.fullName f.method.decl.name message

def popObject (heap : Heap) (f : Frame) : Except Error (Ref × Frame) := do
  let (v, f) ← f.pop
  match v with
  | .object r => return (r, f)
  | .null => throw (f.exception "Object reference not set to an instance of an object")
  | v => throw (.invalid (.notAnObject f.method.key (heap.typeName v)))

/-- The given arguments and the defaults of the parameters that got none. -/
def bindArguments (m : MethodHandle) (args : List Value) : Except Error (List Value) := do
  let params := m.decl.params
  if params.length < args.length then
    throw (.invalid (.tooManyArguments m.key params.length args.length))
  let defaults ← (params.drop args.length).mapM fun p =>
    match p.default with
    | some v => Except.ok v
    | none => .error (.invalid (.missingArgument p.name m.key))
  return args ++ defaults

/-- The first frame of a call, within the depth limit. -/
def enter (limit depth : Nat) (m : MethodHandle) (receiver : Option Ref) (args : List Value)
    (constructs : Option Ref := none) : Except Error Frame := do
  if limit ≤ depth then throw (.recursionLimit limit)
  let args ← bindArguments m args
  if !m.decl.isStatic && receiver.isNone then throw (.invalid (.noReceiver m.key))
  return { method := m, args, depth, constructs,
           receiver := if m.decl.isStatic then none else receiver,
           locals := List.replicate m.decl.locals.toNat .null }

/-- What the caller of a frame finds on its stack when the frame returns. -/
def giveBack (finished caller : Frame) (v : Value) : Frame :=
  if finished.constructs.isSome then caller.push (constructedOr finished.constructs v)
  else if finished.method.decl.isVoid then caller
  else caller.push v

end Frame

namespace Machine
variable {ω : Type}

def truth (heap : Heap) (v : Value) : Except Error Bool :=
  match v.truth? with
  | some b => .ok b
  | none => .error (.malformed (.notACondition (heap.typeName v)))

def mismatch (heap : Heap) (op : String) (left right : Value) : Error :=
  .invalid (.operandTypes op (heap.typeName left) (heap.typeName right))

def binary (heap : Heap) (f : Frame) (op : BinaryOp) (left right : Value) : Except Error Value :=
  match op.apply heap left right with
  | .ok v => .ok v
  | .error (.fault d) => .error (f.exception d.message)
  | .error .mismatch => .error (mismatch heap op.name left right)

/-- Values without an order can still be told equal or not. -/
def compare (heap : Heap) (op : CompareOp) (left right : Value) : Run (State ω) Bool := do
  match left.compare? right with
  | some o => return op.holds o
  | none =>
    match op with
    | .eq => Run.ofOption (heap.equal left right)
    | .ne => return !(← Run.ofOption (heap.equal left right))
    | op => throw (mismatch heap ("cmp." ++ op.name) left right)

/-- A new object with the initial values of its fields, and the frame of its constructor. -/
def startConstruction (host : Host ω) (type : String) : Run (State ω) Frame := do
  let owner ← host.resolveLocal type
  match (owner.method? constructorName []).filter (·.decl.isDefaultConstructor) with
  | none => throw (.memberNotFound constructorName type owner.module.name)
  | some ctor =>
    let fields := (owner.decl.fields.filter (!·.isStatic)).map fun f => (f.name, f.initialValue)
    let r ← State.alloc ⟨type, Dict.ofList fields⟩
    Run.ofExcept (Frame.enter (← get).domain.maxDepth 0 ctor (some r) [] (some r))

/-- Calls a native method if one has that name, and else starts the frame of the method. -/
def call (host : Host ω) (f : Frame) (below : List Frame) (m : MethodRef) :
    Run (State ω) Transition := do
  match host.native? m.owner.fullName m.name with
  | some native =>
    let (args, f) ← Run.ofExcept (f.popMany m.paramTypes.length)
    let result ← native.call args
    return .next (if native.returnsValue then f.push result else f) below
  | none =>
    let callee ← host.resolveMethod m
    let (args, f) ← Run.ofExcept (f.popMany callee.decl.params.length)
    let (receiver, f) ←
      if callee.decl.isStatic then pure (none, f)
      else do
        let (r, f) ← Run.ofExcept (f.popObject (← State.getHeap))
        pure (some r, f)
    let top ← Run.ofExcept (Frame.enter (← get).domain.maxDepth (f.depth + 1) callee receiver args)
    return .next top (f :: below)

/-- The result and whether the call was run elsewhere; without a client it never is. -/
def dispatch (env : Environment ω) (run : Runner ω) (f : Frame) (site : DispatchSite) :
    Run (State ω) DispatchOutcome := do
  match env.dispatcher? site.client.fullName with
  | none => return .notExecuted
  | some dispatcher =>
    let count := site.paramCount.toNat
    if f.args.length < count then
      throw (.malformed (.dispatchArity f.method.key count f.args.length))
    else dispatcher.dispatch env.host run site f.receiver (f.args.take count)

/-- Ends a frame with a value. -/
def finish (f : Frame) (below : List Frame) (v : Value) : Transition :=
  match below with
  | [] => .done (constructedOr f.constructs v)
  | caller :: rest => .next (f.giveBack caller v) rest

/-- Executes an instruction of the frame `f`, which stands at the one behind it already. -/
def execute (env : Environment ω) (run : Runner ω) (f : Frame) (below : List Frame)
    (i : Instruction Value) : Run (State ω) Transition := do
  let go (f : Frame) : Transition := .next f below
  let pop (f : Frame) : Run (State ω) (Value × Frame) := Run.ofExcept f.pop
  match i with
  | .nop => return go f
  | .const v => return go (f.push v)
  | .loadArg n =>
    match f.args[n.toNat]? with
    | some v => return go (f.push v)
    | none => throw (.malformed (.noArgument n.toNat))
  | .storeArg n => do
    let (v, f) ← pop f
    if n.toNat < f.args.length then return go { f with args := f.args.set n.toNat v }
    else throw (.malformed (.noArgument n.toNat))
  | .loadLocal n =>
    match f.locals[n.toNat]? with
    | some v => return go (f.push v)
    | none => throw (.malformed (.noLocal n.toNat))
  | .storeLocal n => do
    let (v, f) ← pop f
    if n.toNat < f.locals.length then return go { f with locals := f.locals.set n.toNat v }
    else throw (.malformed (.noLocal n.toNat))
  | .loadThis =>
    match f.receiver with
    | some r => return go (f.push (.object r))
    | none => throw (.malformed (.thisInStatic f.method.key))
  | .loadField field => do
    let heap ← State.getHeap
    let (r, f) ← Run.ofExcept (f.popObject heap)
    match heap.field? r field.name with
    | some v => return go (f.push v)
    | none => throw (.memberNotFound field.name (heap.typeOf r) f.method.module.name)
  | .storeField field => do
    let (v, f) ← pop f
    let (r, f) ← Run.ofExcept (f.popObject (← State.getHeap))
    State.setField r field.name v
    return go f
  | .loadStatic field => do
    let owner ← env.host.resolveType field.owner
    return go (f.push (← env.host.getStatic owner.decl.fullName field.name))
  | .storeStatic field => do
    let (v, f) ← pop f
    let owner ← env.host.resolveType field.owner
    env.host.setStatic owner.decl.fullName field.name v
    return go f
  | .call m => call env.host f below m
  | .construct t => do
    let owner ← env.host.resolveType t
    return .next (← startConstruction env.host owner.decl.fullName) (f :: below)
  | .binary op => do
    let (right, f) ← pop f
    let (left, f) ← pop f
    return go (f.push (← Run.ofExcept (binary (← State.getHeap) f op left right)))
  | .compare op => do
    let (right, f) ← pop f
    let (left, f) ← pop f
    return go (f.push (.bool (← compare (← State.getHeap) op left right)))
  | .not => do
    let (v, f) ← pop f
    return go (f.push (.bool !(← Run.ofExcept (truth (← State.getHeap) v))))
  | .jump t => return go { f with position := t.toNat }
  | .jumpIfTrue t => do
    let (v, f) ← pop f
    if ← Run.ofExcept (truth (← State.getHeap) v) then return go { f with position := t.toNat }
    else return go f
  | .jumpIfFalse t => do
    let (v, f) ← pop f
    if ← Run.ofExcept (truth (← State.getHeap) v) then return go f
    else return go { f with position := t.toNat }
  | .dup =>
    match f.stack with
    | v :: _ => return go (f.push v)
    | [] => throw (.malformed .stackEmpty)
  | .pop => do
    let (_, f) ← pop f
    return go f
  | .ret =>
    if f.method.decl.isVoid then return finish f below .null
    else do
      let (v, f) ← pop f
      return finish f below v
  | .throw => do
    let (v, f) ← pop f
    throw (f.exception ((← State.getHeap).textOf v))
  | .dispatch site => do
    match ← dispatch env run f site with
    | .notExecuted => return go ((f.push .null).push (.bool false))
    | .executed v => return go ((f.push v).push (.bool true))

def step (env : Environment ω) (run : Runner ω) (f : Frame) (below : List Frame) :
    Run (State ω) Transition :=
  match f.method.decl.body[f.position]? with
  | some i => execute env run { f with position := f.position + 1 } below i
  | none => throw (.malformed (.ranPastEnd f.method.key f.position))

/-- At most `budget` steps of each run. -/
def run (env : Environment ω) : Nat → Frame → List Frame → Run (State ω) Value
  | 0, _, _ => Run.outOfBudget
  | budget + 1, f, below => fun s =>
    match step env (fun g => run env budget g []) f below s with
    | some (.ok (.next f below), s) => run env budget f below s
    | some (.ok (.done v), s) => some (.ok v, s)
    | some (.error e, s) => some (.error e, s)
    | none => none

def runner (env : Environment ω) (budget : Nat) : Runner ω := fun f => run env budget f []

end Machine
end MobileCode
