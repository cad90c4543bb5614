import MobileCode.Proofs.Handshakes
import MobileCode.Proofs.Recoveries
import MobileCode.Proofs.Ways

/-! # Exceptions from a server

An exception that the run of a request raises on a server travels as a fault, over both transports, and is the same
exception again in the code that called the mobile method. It ends the attempts, whatever others would have followed, and
leaves the domain of the caller as it was when the request was sent.
-/
namespace MobileCode
open Machine

/-! ## Faults -/

namespace Server
variable {r : Request Datum} {budget : Nat} {thread : Option String} {s t : Server}

/-- A run that comes to an end of its own is no fault. -/
theorem serve_ne_fault (r : Request Datum) (budget : Nat) (thread : Option String) (s : Server) :
    (serve r budget thread).Ensures s fun a _ => ∀ f, a ≠ .fault f := by
  rw [serve_eq]
  refine .after fun found t => ?_
  cases found with
  | none => exact .pure nofun
  | some p =>
    refine .after fun result u => ?_
    unfold Prepared.finish
    split
    · exact .after fun _ _ => .after fun _ _ => .pure nofun
    · exact .pure nofun

/-- Faults are what is answered when a run has failed. -/
theorem answer_fault {f : Fault} : answer r budget thread s = some (.ok (.fault f), t) ↔
    ∃ e, serve r budget thread s = some (.error e, t) ∧ e.toFault = f := by
  constructor
  · intro h
    obtain ⟨a, found, hexecute, hfound, hsame⟩ := answer_eq_some h
    cases hsame
    rw [execute, Run.bind_apply, Run.attempt] at hexecute
    rcases hserve : serve r budget thread s with _ | ⟨e | b, u⟩ <;> rw [hserve] at hexecute <;> cases hexecute
    · cases hfound
      exact ⟨e, rfl, rfl⟩
    · cases a with
      | completed v vs =>
        obtain ⟨_, _, hfound⟩ := Option.bind_eq_some_iff.mp hfound
        obtain ⟨_, _, hfound⟩ := Option.bind_eq_some_iff.mp hfound
        cases hfound
      | moduleUnknown => cases hfound
      | fault g => exact absurd rfl (serve_ne_fault r budget thread s _ _ hserve g)
  · rintro ⟨e, hserve, rfl⟩
    refine answer_of_execute (a := .fault e.toFault) ?_ rfl
    rw [execute, Run.bind_apply, Run.attempt, hserve]
    rfl

end Server

theorem Error.toFault_eq_thrown {e : Error} {type method message : String} :
    e.toFault = (thrown type method message).toFault ↔ e = .thrown type method message := by
  constructor
  · intro h
    cases e <;> simp only [toFault, Fault.mk.injEq, FaultKind.thrown.injEq, reduceCtorEq, false_and] at h
    obtain ⟨⟨rfl, rfl⟩, rfl⟩ := h
    rfl
  · rintro rfl
    rfl

/-! ## The attempt that is answered -/

namespace Network.Way

/-- An attempt at an endpoint is settled by a fault: the request, or the request once more with the module, is answered
with it. -/
inductive Faults (w : Way) (endpoint : String) (r : Request Datum) (id : Uuid) (module : Bytes) (f : Fault) :
    Request Datum → List (Answer Datum) → Network → Network → Prop
  | once {n n' : Network} : w.Answers endpoint r (.fault f) n n' → Faults w endpoint r id module f r [.fault f] n n'
  | again {n n₁ n' : Network} : w.Answers endpoint r .moduleUnknown n n₁ →
    w.Answers endpoint { r with id, upload := some module } (.fault f) n₁ n' →
    Faults w endpoint r id module f { r with id, upload := some module } [.moduleUnknown, .fault f] n n'

/-- On the server that the endpoint is bound to, a run that raises is answered by its fault. -/
theorem answers_of_raised {budget : Nat} {endpoint server : String} {r : Request Datum} {n : Network} {s t : Server}
    {e : Error} (hbound : n.bindings.find? endpoint = some server) (hserver : n.servers.find? server = some s)
    (hserve : Server.serve r budget none s = some (.error e, t)) :
    (direct budget).Answers endpoint r (.fault e.toFault) n { n with servers := n.servers.insert server t } := by
  refine .direct hbound ?_
  rw [serve_eq hserver, Server.answer_fault.mpr ⟨e, hserve, rfl⟩]
  rfl

end Network.Way

namespace Transport
variable {ν : Type} {t : Transport ν} {x : ν × Traffic} {n : ν}

theorem recording_connect_eq {endpoint : String} {made : t.Channel} (h : t.connect endpoint x.1 = some (.ok made, n)) :
    t.recording.connect endpoint x = some (.ok made, n, x.2.connect endpoint) := by
  show Run.zoom Prod.fst (fun y x => (y, x.2)) (t.connect endpoint) (x.1, x.2.connect endpoint) = _
  rw [Run.zoom, h]
  rfl

theorem recording_start_eq {made channel : t.Channel} (h : t.start made x.1 = some (.ok channel, n)) :
    t.recording.start made x = some (.ok channel, n, x.2) := by
  show Run.zoom Prod.fst (fun y x => (y, x.2)) (t.start made) x = _
  rw [Run.zoom, h]
  rfl

theorem recording_exchange_eq {channel : t.Channel} {heap : Heap} {r : Request Value} {limit : Option Duration}
    {a : Answer Datum} (h : t.exchange channel heap r limit x.1 = some (.ok a, n)) :
    t.recording.exchange channel heap r limit x = some (.ok a, n, x.2.returned a) := by
  show (Run.zoom Prod.fst (fun y x => (y, x.2)) (t.exchange channel heap r limit) >>= fun answer => do
    modify fun x => (x.1, x.2.returned answer)
    return answer : Run (ν × Traffic) (Answer Datum)) x = _
  rw [Run.bind_apply, Run.zoom, h]
  rfl

end Transport

namespace Client
open Network (Way)

section
variable {ν : Type} {c : Client ν} {s u : State (Reach ν)} {channel : c.transport.Channel} {r : Request Value}
  {l : LoadedModule} {f : Fault} {x y : ν}

theorem exchange_faulted (h : c.transport.exchange channel s.domain.heap r c.settings.deadline s.outside.network =
    some (.ok (.fault f), x)) : c.exchange channel r l s = some (.error (Error.ofFault f), s.withNetwork x) := by
  rw [exchange_eq, Run.bind_apply, send_told h]
  rfl

/-- After the module has been asked for. -/
theorem exchange_faulted_again
    (hunknown : c.transport.exchange channel s.domain.heap r c.settings.deadline s.outside.network =
      some (.ok .moduleUnknown, x))
    (h : c.transport.exchange channel s.domain.heap
      { r with id := Uuid.ofNat s.outside.nextId, upload := some l.bytes } c.settings.deadline x =
        some (.ok (.fault f), y)) : c.exchange channel r l s =
      some (.error (Error.ofFault f),
        { s with outside := { s.outside with nextId := s.outside.nextId + 1, network := y } }) := by
  -- the client as it sends the second request
  let t : State (Reach ν) := { s with outside := { s.outside with nextId := s.outside.nextId + 1, network := x } }
  have hsecond : c.exchange channel r l s =
      c.send channel { r with id := Uuid.ofNat s.outside.nextId, upload := some l.bytes } t := by
    rw [exchange_eq, Run.bind_apply, send_told hunknown]
    rfl
  exact hsecond.trans (send_told (s := t) h)

theorem attempt_aborted {endpoint : String} {made : c.transport.Channel} {e : Error}
    (hconnect : c.transport.connect endpoint s.outside.network = some (.ok made, x))
    (hstart : c.transport.start made x = some (.ok channel, y))
    (hexchange : c.exchange channel r l (s.withNetwork y) = some (.error e, u)) : c.attempt r l endpoint s =
      some (.error e, u.withNetwork (c.transport.abort channel u.outside.network).2) := by
  rw [attempt_opened hconnect hstart, Run.bind_apply, Run.attempt, hexchange]
  rfl

end

/-- An attempt that is settled by a fault ends with its error. -/
theorem attempt_faulted {w : Way} {c : Client Network} (hway : c.transport = w.transport)
    {s : State (Reach (Network × Traffic))} {r : Request Value} {sent : Request Datum}
    (hsent : r.snapshot? s.domain.heap = some sent) {l : LoadedModule} {endpoint : String} {f : Fault}
    {last : Request Datum} {said : List (Answer Datum)} {n : Network}
    (h : w.Faults endpoint sent (Uuid.ofNat s.outside.nextId) l.bytes f last said s.outside.network.1 n) :
    ∃ o : Reach (Network × Traffic), c.recording.attempt r l endpoint s =
        some (.error (Error.ofFault f), { s with outside := o }) ∧
      o.network.1 = n ∧ o.network.2.answers = s.answers ++ said := by
  obtain ⟨settings, recovery, clientType, transport⟩ := c
  obtain rfl : transport = w.transport := hway
  let c : Client Network := ⟨settings, recovery, clientType, w.transport⟩
  -- the record and the client once the channel has been made
  let x : Traffic := s.outside.network.2.connect endpoint
  let z : State (Reach (Network × Traffic)) := s.withNetwork (s.outside.network.1, x)
  cases h with
  | once hanswers =>
    obtain ⟨made, channel, hconnect, hstart, habort, hexchange⟩ := hanswers.opens
    have htold := Transport.recording_exchange_eq (x := (_, x))
      (hexchange _ _ _ _ _ _ settings.deadline rfl hsent hanswers)
    have hexchanged := exchange_faulted (c := c.recording) (s := z) (l := l) htold
    have hends := attempt_aborted (c := c.recording) (Transport.recording_connect_eq hconnect)
      (Transport.recording_start_eq (x := (_, x)) hstart) hexchanged
    exact ⟨_, hends, habort n, rfl⟩
  | @again _ n₁ _ hunknown hanswers =>
    obtain ⟨made, channel, hconnect, hstart, habort, hexchange⟩ := hunknown.opens
    have htold := Transport.recording_exchange_eq (x := (_, x))
      (hexchange _ _ _ _ _ _ settings.deadline rfl hsent hunknown)
    have htold' := Transport.recording_exchange_eq (x := (n₁, x.returned .moduleUnknown))
      (hexchange _ _ _ _ _ _ settings.deadline hunknown.bound (Request.snapshot?_again hsent _ _) hanswers)
    have hexchanged := exchange_faulted_again (c := c.recording) (s := z) (l := l) htold htold'
    have hends := attempt_aborted (c := c.recording) (Transport.recording_connect_eq hconnect)
      (Transport.recording_start_eq (x := (_, x)) hstart) hexchanged
    exact ⟨_, hends, habort n, List.append_assoc _ _ _⟩

/-! ## Calls -/

section
variable {w : Way} {c : Client Network} (hway : c.transport = w.transport)
include hway

/-- Nothing happens between two attempts. -/
theorem between_idle (recovery : Recovery) (s : State (Reach (Network × Traffic))) :
    (recovery.between fun d => onNetwork (c.recording.transport.wait d)) s = some (.ok (), s) := by
  obtain ⟨settings, _, clientType, transport⟩ := c
  obtain rfl : transport = w.transport := hway
  rcases recovery with _ | ⟨_, _ | d⟩ | _
  · rfl
  · rfl
  · cases w <;> rfl
  · rfl

theorem Misses.fails {r : Request Value} {l : LoadedModule} {front : List String}
    {s t : State (Reach (Network × Traffic))} (h : c.Misses r l front s t) : Recovery.Fails (c.recording.attempt r l)
      (c.recording.recovery.between fun d => onNetwork (c.recording.transport.wait d)) front s t := by
  induction h with
  | none => exact .none
  | next hfails hagain _ _ ih => exact .next hfails hagain (between_idle hway _ _) ih

end

/-- What attempts at some endpoints have left behind: nothing in the domain, and in the end these answers and this
network. -/
structure Leaves (s t : State (Reach (Network × Traffic))) (endpoints : List String) (said : List (Answer Datum))
    (n : Network) : Prop where
  domain : t.domain = s.domain
  connected : t.connected = s.connected ++ endpoints
  answers : t.answers = s.answers ++ said
  network : t.outside.network.1 = n

/-- A call ends with the error of the fault that settled an attempt. -/
theorem call_faulted {w : Way} {c : Client Network} (hway : c.transport = w.transport)
    (henabled : c.settings.enabled = true) {host : Host (Reach (Network × Traffic))}
    {run : Runner (Reach (Network × Traffic))} {call : ServiceCall} {s t : State (Reach (Network × Traffic))}
    (o : Outgoing c.recording host run call s) {front rest : List String} {target : String}
    (hschedule : c.recovery.schedule o.endpoint = front ++ target :: rest)
    (hmisses : c.Misses o.request o.target.module front o.state t) {f : Fault} {last : Request Datum}
    {said : List (Answer Datum)} {n : Network}
    (hfaults : w.Faults target o.sent (Uuid.ofNat t.outside.nextId) o.target.module.bytes f last said
      t.outside.network.1 n) :
    ∃ u, c.recording.call host run call s = some (.error (Error.ofFault f), u) ∧
      Leaves o.state u (front ++ [target]) said n := by
  obtain ⟨hdomain, hconnected, hanswers⟩ := hmisses.kept
  have hsent : o.request.snapshot? t.domain.heap = some o.sent := by
    rw [hdomain]
    exact o.travels
  obtain ⟨x, hattempt, hnetwork, hsaid⟩ := attempt_faulted hway hsent hfaults
  have hfinal (e : Error) (he : (.error (Error.ofFault f) : Except Error (CallResult Datum)) = .error e) :
      e.isFinal = true := by
    cases he
    exact Error.isFinal_ofFault f
  have hrecover := Recovery.recover_settled (r := c.recording.recovery) hattempt hfinal hschedule (hmisses.fails hway)
  refine ⟨{ t with outside := x }, ?_, hdomain, ?_, hanswers ▸ hsaid, hnetwork⟩
  · rw [o.call_recovered henabled, Run.bind_apply, hrecover]
  · rw [attempt_connects target _ _ hattempt, hconnected, List.append_assoc]

theorem dispatch_failed {ν : Type} {c : Client ν} (henabled : c.settings.enabled = true) {host : Host (Reach ν)}
    {run : Runner (Reach ν)} {site : DispatchSite} {receiver : Option Ref} {args : List Value}
    {s t : State (Reach ν)} {e : Error}
    (h : c.call host run ⟨site.mode, site.onMainThread, none, site.method, receiver, args⟩ s = some (.error e, t)) :
    c.dispatcher.dispatch host run site receiver args s = some (.error e, t) := by
  simp only [dispatcher, henabled, Bool.not_true, Bool.false_eq_true, if_false]
  rw [Run.bind_apply, h]

end Client

/-- A type whose method throws an exception. -/
def stall : TypeDecl Datum where
  space := "Ops"
  name := "Stall"
  methods := [
    { name := constructorName, flags := MethodFlags.constructor, body := [.ret] },
    { name := "Sell", flags := MethodFlags.static, body := [.const (.text "sold out"), .throw] }]

namespace stall

/-- The type with that method made mobile. -/
def mobilized : Mobilized × TypeDecl Datum :=
  (stall.mobilize defaultClientType "Stall" 1 {} {}).toOption.getD default

def loaded : LoadedModule × Domain := Record.loaded { name := "Stall", types := [mobilized.2] }

def type : TypeDecl Value := loaded.1.code.types[0]?.getD default

def call : Frame := .first ⟨loaded.1, type, type.methods[1]?.getD default⟩ none [] 0

/-- A server that has the type as it was. -/
def server : Server where
  domain := (Record.loaded { name := "Stall", types := [stall] }).2
  outside := { sandbox := "", versions.modules := [("Stall", Record.knownHash)] }

/-- A client with three endpoints, of which only the second one is bound. -/
def client : Client Network where
  settings := { defaultEndpoint := some "desk" }
  recovery := .failover ["down", "desk", "spare"]
  transport := Network.direct 40

def environment : Environment (Reach (Network × Traffic)) where
  host := { thread := none, natives := Native.standard none }
  dispatcher? _ := some client.recording.dispatcher

def start : State (Reach (Network × Traffic)) where
  domain := loaded.2
  outside := {
    hashes := [("Stall", Record.knownHash)]
    network := ({ servers := [("desk", server)], bindings := [("desk", "desk")] }, {}) }

/-- The call of the method as it goes out. -/
def sale : Client.Outgoing client.recording environment.host (runner environment 40)
    { method := ⟨⟨none, "Ops.Stall"⟩, "Sell", []⟩ } start :=
  ⟨_, _, _, _, _, _, rfl, rfl, rfl⟩

end stall

end MobileCode
