import MobileCode.Execution.Transfer
import MobileCode.Service.Request
import MobileCode.Service.Storage

/-! # The server

A server runs requested methods in its domain. It runs a request only with the version of the
module that the request names by its hash, which it has loaded already, finds on its disk or is
sent. A method of an object runs on a new object onto which the state of the request is written;
in normal mode that state is read back into the answer.
-/
namespace MobileCode

/-- A server is its domain and its storage. -/
abbrev Server := State Storage

abbrev Serving := Run Server

namespace Server

def onStorage {α : Type} (x : Run Storage α) : Serving α := State.onOutside x

variable (r : Request Datum)

def validate : Except Error Unit :=
  if !isHexDigest r.hash then .error (.invalid (.notADigest r.hash))
  else if !isPlainFileName r.file then .error (.invalid (.notAFileName r.file))
  else .ok ()

/-- Keeps a module that was sent, if its hash is the one that the request names. -/
def storeUpload (bytes : Bytes) : Serving Unit := do
  let hash := (← get).domain.digest.digest bytes
  if hash = r.hash then onStorage (Storage.keep r.hash r.file bytes)
  else throw (.invalid (.uploadMismatch r.file hash r.hash))

/-- Do the bytes have the hash, or are they the server module of a client module that has it? -/
def answersTo (digest : DigestAlgorithm) (hash : String) (bytes : Bytes) : Bool :=
  digest.digest bytes = hash ||
    match Module.ofFile bytes with
    | .ok m => m.pairedHash = some hash
    | .error _ => false

/-- The first of some directories with a file that answers to the hash. -/
def probeIn (digest : DigestAlgorithm) : List String → Run Storage (Option String)
  | [] => return none
  | directory :: rest => do
    let path := joinPath directory r.file
    if ← Storage.isFile path then
      if answersTo digest r.hash (← Storage.read path) then return some path
      else probeIn digest rest
    else probeIn digest rest

def probe : Serving (Option String) := do
  let s ← get
  onStorage (probeIn r s.domain.digest (s.outside.probePaths ++ [s.outside.sandboxFor r.hash]))

def record (m : LoadedModule) : Serving Unit :=
  onStorage (modify fun s => { s with versions := s.versions.record m r.type r.hash })

/-- Loads the module from the disk, if it is there. -/
def loadProbed : Serving (Option LoadedModule) := do
  match ← probe r with
  | none => return none
  | some path => do
    let m ← State.loadFile (← onStorage (Storage.read path)) (some path)
    record r m
    return some m

/-- The module that the request names. Another version of it than the one that was served before
is refused. -/
def resolve : Serving (Option LoadedModule) := do
  let s ← get
  match s.outside.versions.hash? r.type r.file with
  | none => loadProbed r
  | some hash =>
    if hash ≠ r.hash then throw (.stale r.file r.type hash r.hash)
    else
      match s.domain.module? r.file with
      | none => loadProbed r
      | some m => do
        record r m
        return some m

/-- Reads a module from the first directory that has it. -/
def readFrom (name : String) : List String → Run Storage (Option Bytes)
  | [] => return none
  | directory :: rest => do
    let path := joinPath directory name
    if ← Storage.isFile path then return some (← Storage.read path)
    else readFrom name rest

/-- Finds a module that running code refers to: in a probe directory, or carried along by the
module that is served, which then is kept in its sandbox. -/
def findReferenced (m : LoadedModule) (hash name : String) : Run Storage (Option Bytes) := do
  if !isPlainFileName name then return none
  else
    match ← readFrom name (← get).probePaths with
    | some bytes => return some bytes
    | none =>
      match m.code.bundled? name with
      | none => return none
      | some bytes => do
        Storage.keep hash name bytes
        return some bytes

/-- The method that is run for the one that was asked for, and its arguments: with the marker set,
the sibling of a method whose calls go there. -/
def entryPoint (host : Host Storage) (asked : MethodHandle) (args : List Value) :
    Serving (MethodHandle × List Value) := do
  let relayed := asked.decl.flags.has MethodFlags.relayEntry || r.mode ≠ .normal
  match asked.decl.relayBody with
  | none => return (asked, args)
  | some name =>
    if !relayed then return (asked, args)
    else
      let owner ← host.resolveLocal r.type
      match owner.method? name (asked.decl.paramTypes ++ [TypeName.boolean]) with
      | none => throw (.memberNotFound name r.type asked.module.name)
      | some body => return (body, args.take asked.decl.params.length ++ [.bool true])

/-- Runs the requested method. -/
def invoke (host : Host Storage) (run : Runner Storage) : Serving (Answer Value) := do
  let args ← r.arguments.mapM State.instantiate
  let nonLocals ← r.nonLocals.mapM (·.traverse State.instantiate)
  let asked ← host.resolveOverload r.type r.method args
  let (entry, args) ← entryPoint r host asked args
  let receiver ←
    if entry.decl.isStatic then pure none else some <$> host.construct run r.type
  if r.mode = .normal then
    Transfer.apply host run receiver nonLocals
    let result ← Host.invokeHandle run entry receiver args
    let (nonLocals, outcome) ← Transfer.refresh host run receiver nonLocals
    Run.ofExcept outcome
    return .completed result nonLocals
  else return .completed (← Host.invokeHandle run entry receiver args) []

/-- The host of a request that has found its module. -/
def hostFor (thread : Option String) (m : LoadedModule) : Host Storage where
  thread
  natives := Native.standard thread
  resolver := some (findReferenced m r.hash)

/-- Runs a request, in at most `budget` steps of each run. -/
def serve (budget : Nat) (thread : Option String) : Serving (Answer Value) := do
  Run.ofExcept (validate r)
  if let some bytes := r.upload then storeUpload r bytes
  match ← resolve r with
  | none => return .moduleUnknown
  | some m => do
    let host := hostFor r (if r.onMainThread then some Native.mainThread else thread) m
    invoke r host (Machine.runner { host } budget)

/-- Answers a request; an error becomes a fault. -/
def execute (budget : Nat) (thread : Option String) (r : Request Datum) : Serving (Answer Value) := do
  match ← Run.attempt (serve r budget thread) with
  | .ok a => return a
  | .error e => return .fault e.toFault

end Server
end MobileCode
