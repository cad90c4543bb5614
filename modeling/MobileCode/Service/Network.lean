import MobileCode.Service.Mail
import MobileCode.Service.Server
import MobileCode.Service.Transport

/-! # Servers within reach

Two transports to servers in one process: a direct one, which knows the servers by the endpoints
they are bound to, and one by mail, in which each server looks for requests in a shared mailbox
and leaves its answers there.
-/
namespace MobileCode

structure Network where
  servers : Dict Server := []
  /-- The server bound to each endpoint. -/
  bindings : Dict String := []
  mailbox : Mailbox := {}
  deriving Inhabited

/-- What a listener did with the requests it found; for a refused one its error is kept. -/
structure PollReport where
  processed : Nat := 0
  rejected : List (Nat × Error) := []
  deriving Inhabited

def PollReport.isIdle (p : PollReport) : Bool := p.processed = 0 && p.rejected.isEmpty

namespace Network

def unreachable (endpoint : String) : Error := .transport endpoint "no server bound to endpoint"
def notOpen (endpoint : String) : Error := .transport endpoint "channel is not open"

/-- Runs on one of the servers. -/
def onServer {α : Type} (name : String) (x : Serving α) : Run Network α := fun n =>
  match n.servers.find? name with
  | none => some (.error (unreachable name), n)
  | some server =>
    match x server with
    | none => none
    | some (r, server) => some (r, { n with servers := n.servers.insert name server })

/-- What a server sends back for a request. -/
def serve (budget : Nat) (thread : Option String) (name : String) (r : Request Datum) :
    Run Network (Answer Datum) :=
  onServer name do
    let a ← Server.execute budget thread r
    a.outward (← State.getHeap)

def bind (endpoint server : String) (n : Network) : Network :=
  { n with bindings := n.bindings.insert endpoint server }

def unbind (endpoint : String) (n : Network) : Network :=
  { n with bindings := n.bindings.erase endpoint }

/-! ## The direct transport -/

/-- A channel stays with the server that its endpoint was bound to when it was made. -/
structure DirectChannel where
  endpoint : String
  server : String
  isOpen : Bool := false
  deriving DecidableEq, Inhabited, Repr

def DirectChannel.exchange (budget : Nat) (c : DirectChannel) (r : Request Datum) :
    Run Network (Answer Datum) :=
  if c.isOpen then serve budget none c.server r else throw (notOpen c.endpoint)

def direct (budget : Nat) : Transport Network where
  Channel := DirectChannel
  connect endpoint := do
    match (← get).bindings.find? endpoint with
    | none => throw (unreachable endpoint)
    | some server => return { endpoint, server }
  endpoint := (·.endpoint)
  start c := return { c with isOpen := true }
  exchange c heap r _ := do c.exchange budget (← r.outward heap)
  close c := return { c with isOpen := false }
  abort c n := ({ c with isOpen := false }, n)

/-! ## Mail -/

def send (m : Mail) : Run Network Nat := fun n =>
  let (id, mailbox) := n.mailbox.send m
  some (.ok id, { n with mailbox })

def delete (id : Nat) : Run Network Unit := do
  let mailbox ← Run.ofExcept ((← get).mailbox.delete id)
  modify fun n => { n with mailbox }

/-- Answers one request; one that cannot be read is refused, if it has an id. -/
def answerMail (budget : Nat) (thread : Option String) (address server : String) (m : Mail) :
    Run Network (Option Error) := do
  match m.toRequest with
  | .ok r => do
    let a ← serve budget thread server r
    let _ ← send (Mail.ofAnswer r.id a address m.sender)
    delete m.id
    return none
  | .error e => do
    if let .ok id := m.requestId then
      let _ ← send (Mail.ofAnswer id (.fault e.toFault) address m.sender)
    delete m.id
    return some e

def answerAll (budget : Nat) (thread : Option String) (address server : String) :
    List Mail → PollReport → Run Network PollReport
  | [], report => return report
  | m :: rest, report => do
    match ← answerMail budget thread address server m with
    | none => answerAll budget thread address server rest { report with processed := report.processed + 1 }
    | some e =>
      answerAll budget thread address server rest { report with rejected := report.rejected ++ [(m.id, e)] }

/-- One pass of a listener over the requests to its address. -/
def poll (budget : Nat) (thread : Option String) (address server : String) : Run Network PollReport := do
  let mail := (← get).mailbox.addressedTo address
  answerAll budget thread address server (mail.filter (·.isRequest)) {}

/-- One pass of a listener for every server, at the endpoint of its name. -/
def pollAll (budget : Nat) (thread : Option String) : Run Network Unit := do
  for name in (← get).servers.names do
    let _ ← poll budget thread name name

structure MailChannel where
  address : String
  endpoint : String
  isOpen : Bool := false
  deriving DecidableEq, Inhabited, Repr

/-- The first message that can be read as the answer with an id. -/
def answerIn? (id : Uuid) (mail : List Mail) : Option (Nat × Answer Datum) :=
  (mail.filter (·.isResponse)).findSome? fun m =>
    match m.toAnswer with
    | .ok (found, a) => if found = id then some (m.id, a) else none
    | .error _ => none

/-- Takes the answer with an id out of the mailbox, if it is there. -/
def takeAnswer (address : String) (id : Uuid) : Run Network (Option (Answer Datum)) := do
  match answerIn? id ((← get).mailbox.addressedTo address) with
  | none => return none
  | some (number, a) => do
    delete number
    return some a

/-- Before the client looks for its answer the others act. If it is not there then, it will not
come before the time limit; without a limit the client waits for ever. -/
def MailChannel.exchange (c : MailChannel) (others : Run Network Unit) (r : Request Datum)
    (limit : Option Duration) : Run Network (Answer Datum) := do
  if !c.isOpen then throw (notOpen c.endpoint)
  let _ ← send (← Run.ofExcept (Mail.ofRequest r c.address c.endpoint))
  others
  match ← takeAnswer c.address r.id with
  | some a => return a
  | none =>
    match limit with
    | some d => throw (r.timeoutError d)
    | none => Run.outOfBudget

def byMail (address : String) (others : Run Network Unit) : Transport Network where
  Channel := MailChannel
  connect endpoint := return { address, endpoint }
  endpoint := (·.endpoint)
  start c := return { c with isOpen := true }
  exchange c heap r limit := do c.exchange others (← r.outward heap) limit
  close c := return { c with isOpen := false }
  abort c n := ({ c with isOpen := false }, n)

end Network
end MobileCode
