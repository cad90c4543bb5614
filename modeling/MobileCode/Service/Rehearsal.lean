import MobileCode.Service.Client
import MobileCode.Service.Network

/-! # Rehearsals

A stage is a network on which clients and programs can be tried out. Transports on it are watched,
and there are stand-ins that give prepared answers: for servers, for clients, for native methods
and for the resolver of modules. Whatever is asked of them is kept as an event.
-/
namespace MobileCode

inductive Event
  | connect (endpoint : String) (failure : Option Error)
  | start (endpoint : String) (failure : Option Error)
  /-- A request with the heap it refers to; the id may be that of the request before. -/
  | exchange (endpoint : String) (heap : Heap) (request : Request Value) (sameId : Bool)
      (limit : Option Duration) (answer : Except Error (Answer Datum))
  | close (endpoint : String) (failure : Option Error)
  | abort (endpoint : String)
  | dispatch (site : DispatchSite) (receiver : Option String) (heap : Heap) (args : List Value)
  | native (type method : String) (heap : Heap) (args : List Value)
  | resolve (module : String)
  deriving Inhabited

/-- Prepared answers of channels. Without one, a channel answers no request, and all else
succeeds. -/
structure Script where
  connects : List (Option Error) := []
  starts : List (Option Error) := []
  exchanges : List (Except Error (Answer Datum)) := []
  closes : List (Option Error) := []
  deriving Inhabited

structure Stage where
  network : Network := {}
  script : Script := {}
  /-- The last event first. -/
  events : List Event := []
  lastId : Option Uuid := none
  deriving Inhabited

namespace Stage
variable {α : Type}

def note (e : Event) : Run Stage Unit := modify fun s => { s with events := e :: s.events }

/-- Notes how a computation ended. -/
def noting (event : Except Error α → Event) (x : Run Stage α) : Run Stage α := do
  let outcome ← Run.attempt x
  note (event outcome)
  Run.ofExcept outcome

def failure? : Except Error α → Option Error
  | .ok _ => none
  | .error e => some e

/-- Is the id that of the last request? It becomes the last one. -/
def isLastId (id : Uuid) : Run Stage Bool := do
  let same := (← get).lastId = some id
  modify fun s => { s with lastId := some id }
  return same

/-- A transport that notes what happens on its channels. -/
def watched (t : Transport Stage) : Transport Stage where
  Channel := t.Channel
  connect endpoint := noting (fun r => .connect endpoint (failure? r)) (t.connect endpoint)
  endpoint := t.endpoint
  start c := noting (fun r => .start (t.endpoint c) (failure? r)) (t.start c)
  exchange c heap r limit := do
    let same ← isLastId r.id
    noting (.exchange (t.endpoint c) heap r same limit) (t.exchange c heap r limit)
  close c := noting (fun r => .close (t.endpoint c) (failure? r)) (t.close c)
  abort c s :=
    let (d, s) := t.abort c s
    (d, { s with events := .abort (t.endpoint c) :: s.events })
  wait := t.wait

/-- The transports of the network, on a stage. -/
def ofNetwork (t : Transport Network) : Transport Stage :=
  t.lift (·.network) fun network s => { s with network }

def toRun : Option Error → Run Stage Unit
  | none => pure ()
  | some e => throw e

/-- Takes the next prepared answer, or the default. -/
def take (queue : Script → List α) (put : Script → List α → Script) (default : α) : Run Stage α :=
  fun s =>
    match queue s.script with
    | [] => some (.ok default, s)
    | x :: rest => some (.ok x, { s with script := put s.script rest })

/-- A transport whose channels give prepared answers. -/
def scripted : Transport Stage where
  Channel := String
  connect endpoint := do
    toRun (← take (·.connects) (fun s connects => { s with connects }) none)
    return endpoint
  endpoint c := c
  start c := do
    toRun (← take (·.starts) (fun s starts => { s with starts }) none)
    return c
  exchange _ _ _ _ := do
    Run.ofExcept (← take (·.exchanges) (fun s exchanges => { s with exchanges })
      (.error (.general "script exhausted")))
  close c := do
    toRun (← take (·.closes) (fun s closes => { s with closes }) none)
    return c
  abort c s := (c, s)

def noteOutside (e : Event) : Calling Stage Unit := Client.onNetwork (note e)

/-- A client with one prepared outcome. -/
def standIn (outcome : Except Error DispatchOutcome) : Dispatcher (Reach Stage) where
  dispatch _ _ site receiver args := do
    let heap ← State.getHeap
    noteOutside (.dispatch site (receiver.map heap.typeOf) heap args)
    Run.ofExcept outcome

/-- A native method that returns one value, or none. -/
def preparedNative (type method : String) (value : Option Value) : Native (Reach Stage) where
  returnsValue := value.isSome
  call args := do
    noteOutside (.native type method (← State.getHeap) args)
    return value.getD .null

/-- A resolver that knows some modules. -/
def preparedResolver (known : List (String × Except Error Bytes)) (name : String) :
    Run (Reach Stage) (Option Bytes) := do
  Run.zoom (·.network) (fun network r => { r with network }) (note (.resolve name))
  match known.lookup name with
  | none => return none
  | some outcome => return some (← Run.ofExcept outcome)

end Stage
end MobileCode
