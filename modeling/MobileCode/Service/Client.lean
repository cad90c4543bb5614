import MobileCode.Execution.Transfer
import MobileCode.Service.Recovery
import MobileCode.Service.Transport
import MobileCode.Discovery
import MobileCode.Settings

/-! # The client

A client has calls of mobile methods run by a server. It sends the arguments and, in normal mode,
the state that the method reaches, and writes the state that comes back onto the receiver. When
the server does not have the module, the client sends it with the request once more.
-/
namespace MobileCode

/-- What a client remembers, and the network it uses. -/
structure Reach (ν : Type) where
  /-- The hash of each module that was called, by name. -/
  hashes : Dict String := []
  /-- The number of the next request. -/
  nextId : Nat := 0
  network : ν
  deriving Inhabited

structure Client (ν : Type) where
  settings : ClientSettings := {}
  recovery : Recovery := .direct
  clientType : String := defaultClientType
  transport : Transport ν

structure ServiceCall where
  mode : Mode := .normal
  onMainThread : Bool := false
  endpoint : Option String := none
  method : MethodRef
  receiver : Option Ref := none
  args : List Value := []
  deriving Inhabited

/-- Computations of a client in its domain. -/
abbrev Calling (ν : Type) := Run (State (Reach ν))

namespace Client
variable {ν : Type}

def onReach {α : Type} (x : Run (Reach ν) α) : Calling ν α := State.onOutside x

def onNetwork {α : Type} (x : Run ν α) : Calling ν α :=
  onReach (Run.zoom (·.network) (fun network r => { r with network }) x)

def freshId : Calling ν Uuid := do
  let n := (← get).outside.nextId
  onReach (modify fun r => { r with nextId := n + 1 })
  return Uuid.ofNat n

/-- The hash of a module. It is computed once for each name. -/
def moduleHash (c : Client ν) (m : LoadedModule) : Calling ν String := do
  match (← get).outside.hashes.find? m.name with
  | some hash => return hash
  | none => do
    let hash := c.settings.digest.digest m.bytes
    onReach (modify fun r => { r with hashes := r.hashes.insert m.name hash })
    return hash

/-- The text given for the first parameter of the address type. -/
def addressed? (c : Client ν) (call : ServiceCall) : Option String := do
  let type ← c.settings.addressType
  let (_, v) ← (call.method.paramTypes.zip call.args).find? (·.1 = type)
  v.asText?

/-- The endpoint that a call names, else the one among its arguments, else the default. -/
def endpoint (c : Client ν) (call : ServiceCall) : Except Error String :=
  match call.endpoint <|> c.addressed? call <|> c.settings.defaultEndpoint with
  | some e => .ok e
  | none => .error (.invalid (.noEndpoint call.method))

/-- Failures of a channel, apart from timeouts, are failures of the transport. -/
def asTransport (endpoint : String) : Error → Error
  | .timeout m t f d => .timeout m t f d
  | .transport e m => .transport e m
  | e => .transport endpoint e.message

def onChannel {α : Type} (endpoint : String) (x : Run ν α) : Calling ν α := do
  match ← Run.attempt (onNetwork x) with
  | .ok a => return a
  | .error e => throw (asTransport endpoint e)

/-- Sends a request through an open channel and, if the server asks for it, the module. -/
def exchange (c : Client ν) (channel : c.transport.Channel) (r : Request Value) (m : LoadedModule) :
    Calling ν (CallResult Datum) := do
  let send (r : Request Value) : Calling ν (CallResult Datum) := do
    let heap ← State.getHeap
    let answer ← onChannel (c.transport.endpoint channel)
      (c.transport.exchange channel heap r c.settings.deadline)
    Run.ofExcept answer.toCallResult
  let result ← send r
  if result.isModuleMissing then send { r with id := ← freshId, upload := some m.bytes }
  else return result

/-- One attempt at an endpoint, on a channel of its own. -/
def attempt (c : Client ν) (r : Request Value) (m : LoadedModule) (endpoint : String) :
    Calling ν (CallResult Datum) := do
  let channel ← onNetwork (c.transport.connect endpoint)
  let abort (channel : c.transport.Channel) : Calling ν Unit :=
    onNetwork (modify fun n => (c.transport.abort channel n).2)
  match ← Run.attempt (onChannel (c.transport.endpoint channel) (c.transport.start channel)) with
  | .error e => do
    abort channel
    throw e
  | .ok channel =>
    match ← Run.attempt (c.exchange channel r m) with
    | .error e => do
      abort channel
      throw e
    | .ok result => do
      let _ ← onChannel endpoint (c.transport.close channel)
      return result

/-- The request for a call: the state is captured before the endpoint is chosen. -/
def request (c : Client ν) (host : Host (Reach ν)) (run : Runner (Reach ν)) (call : ServiceCall)
    (target : MethodHandle) : Calling ν (String × Request Value) := do
  let hash ← c.moduleHash target.module
  let type := call.method.owner.fullName
  let nonLocals ←
    match call.mode, target.decl.closure with
    | .normal, some closure => Transfer.capture host run type closure call.receiver
    | _, _ => pure []
  let params := (target.decl.params.zip call.args).map fun (p, v) =>
    ({ kind := .parameter, name := p.name, type := p.type, value := v } : Variable Value)
  let endpoint ← Run.ofExcept (c.endpoint call)
  let id ← freshId
  return (endpoint, { id, mode := call.mode, onMainThread := call.onMainThread,
                      file := target.module.name, hash, type, method := call.method.name, params,
                      nonLocals })

/-- Runs a call on a server, unless the client is disabled. -/
def call (c : Client ν) (host : Host (Reach ν)) (run : Runner (Reach ν)) (call : ServiceCall) :
    Calling ν (CallResult Value) := do
  if !c.settings.enabled then return .disabled
  let target ← host.resolveMethod call.method
  let (endpoint, r) ← c.request host run call target
  let result ← c.recovery.recover (fun d => onNetwork (c.transport.wait d)) endpoint
    (c.attempt r target.module)
  let result ← result.traverse State.instantiate
  if call.mode = .normal ∧ result.isExecuted then
    Transfer.apply host run call.receiver result.nonLocals
  return result

def notExecuted (method : MethodRef) : Error :=
  .general (method.display ++ " was not executed remotely: the server still lacks module after upload")

/-- The client as the one that dispatch instructions turn to. -/
def dispatcher (c : Client ν) : Dispatcher (Reach ν) where
  dispatch host run site receiver args := do
    if !c.settings.enabled then return .notExecuted
    let result ← c.call host run ⟨site.mode, site.onMainThread, none, site.method, receiver, args⟩
    match result.result? with
    | some v => return .executed v
    | none => throw (notExecuted site.method)

end Client
end MobileCode
