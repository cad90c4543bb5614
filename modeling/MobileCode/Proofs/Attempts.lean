import MobileCode.Proofs.Counts
import MobileCode.Proofs.Uploads

/-! # Attempts

An attempt at a server within reach hands over one request, or two if the server does not have the module: the second
has an id of its own and brings the file of the module. It ends if the server comes to an end with the last one.
-/
namespace MobileCode

/-! ## What travels -/

namespace Run
variable {σ α β : Type}

theorem ofOption_bind (x : Option α) (f : α → Option β) :
    (ofOption (x >>= f) : Run σ β) = ofOption x >>= fun a => ofOption (f a) := by
  cases x <;> rfl

theorem ofOption_mapM (f : α → Option β) (xs : List α) :
    (ofOption (xs.mapM f) : Run σ (List β)) = xs.mapM fun a => ofOption (f a) := by
  induction xs with
  | nil => rfl
  | cons x xs ih =>
    rw [List.mapM_cons, List.mapM_cons, ofOption_bind]
    refine bind_congr fun y => ?_
    rw [ofOption_bind, ih]
    rfl

end Run

theorem Variable.mapM_ofOption {σ : Type} (f : Value → Option Datum) (vs : List (Variable Value)) :
    (Run.ofOption (vs.mapM (·.traverse f)) : Run σ (List (Variable Datum))) =
      vs.mapM (·.traverse fun v => Run.ofOption (f v)) := by
  rw [Run.ofOption_mapM]
  congr 1
  funext v
  exact Run.ofOption_bind _ _

theorem State.getHeap_bind {ω α : Type} (f : Heap → Run (State ω) α) (s : State ω) :
    (getHeap >>= f) s = f s.domain.heap s := rfl

namespace Request
variable {r : Request Value} {heap : Heap} {sent : Request Datum}

/-- The request with the state of its values, if none of them is on a cycle of references. -/
def snapshot? (heap : Heap) (r : Request Value) : Option (Request Datum) := r.traverse (heap.snapshot ·)

theorem outward_eq_snapshot? {ω : Type} : (r.outward heap : Run ω (Request Datum)) = Run.ofOption (r.snapshot? heap) := by
  unfold outward snapshot? traverse
  rw [Run.ofOption_bind, Variable.mapM_ofOption]
  refine bind_congr fun _ => ?_
  rw [Run.ofOption_bind, Variable.mapM_ofOption]
  rfl

/-- What a request names and brings travels as it is. -/
structure Travels (r : Request Value) (sent : Request Datum) : Prop where
  id : sent.id = r.id
  file : sent.file = r.file
  hash : sent.hash = r.hash
  type : sent.type = r.type
  upload : sent.upload = r.upload

theorem snapshot?_travels (h : r.snapshot? heap = some sent) : r.Travels sent := by
  obtain ⟨_, _, h⟩ := Option.bind_eq_some_iff.mp h
  obtain ⟨_, _, h⟩ := Option.bind_eq_some_iff.mp h
  cases h
  exact ⟨rfl, rfl, rfl, rfl, rfl⟩

/-- The request once more, with another id and another upload. -/
theorem snapshot?_again (h : r.snapshot? heap = some sent) (id : Uuid) (upload : Option Bytes) :
    ({ r with id, upload } : Request Value).snapshot? heap = some { sent with id, upload } := by
  obtain ⟨params, hparams, h⟩ := Option.bind_eq_some_iff.mp h
  obtain ⟨nonLocals, hnonLocals, h⟩ := Option.bind_eq_some_iff.mp h
  cases h
  exact Option.bind_eq_some_iff.mpr ⟨params, hparams, Option.bind_eq_some_iff.mpr ⟨nonLocals, hnonLocals, rfl⟩⟩

end Request

namespace Answer
variable {ω : Type} {heap : Heap} {a : Answer Value} {found : Answer Datum}

/-- The answer with the state of its values, if none of them is on a cycle of references. -/
def snapshot? (heap : Heap) (a : Answer Value) : Option (Answer Datum) := a.traverse (heap.snapshot ·)

theorem outward_eq_snapshot? : (a.outward heap : Run ω (Answer Datum)) = Run.ofOption (a.snapshot? heap) := by
  cases a with
  | moduleUnknown => rfl
  | fault f => rfl
  | completed v vs =>
    unfold outward snapshot? traverse
    rw [Run.ofOption_bind]
    refine bind_congr fun _ => ?_
    rw [Run.ofOption_bind, Variable.mapM_ofOption]
    rfl

theorem outward_eq_some {x y : ω} {outcome : Except Error (Answer Datum)}
    (h : (a.outward heap : Run ω (Answer Datum)) x = some (outcome, y)) :
    ∃ found, outcome = .ok found ∧ a.snapshot? heap = some found ∧ y = x := by
  rw [outward_eq_snapshot?] at h
  cases hfound : a.snapshot? heap with
  | none =>
    rw [hfound] at h
    cases h
  | some found =>
    rw [hfound] at h
    cases h
    exact ⟨found, rfl, rfl, rfl⟩

/-- What becomes of the kind of an answer on the way. -/
theorem snapshot?_kind (h : a.snapshot? heap = some found) : (found = .moduleUnknown → a = .moduleUnknown) ∧
    ((∃ v vs, found = .completed v vs) → ∃ v vs, a = .completed v vs) := by
  cases a with
  | completed v vs =>
    obtain ⟨_, _, h⟩ := Option.bind_eq_some_iff.mp h
    obtain ⟨_, _, h⟩ := Option.bind_eq_some_iff.mp h
    cases h
    simp
  | moduleUnknown | fault f =>
    cases h
    simp

end Answer

/-- Every error has become a fault, and what travels is the state of an answer. -/
theorem Server.answer_eq_some {r : Request Datum} {budget : Nat} {thread : Option String} {s t : Server}
    {outcome : Except Error (Answer Datum)} (h : answer r budget thread s = some (outcome, t)) : ∃ a found,
      execute budget thread r s = some (.ok a, t) ∧ a.snapshot? t.domain.heap = some found ∧ outcome = .ok found := by
  have hexecute : ∃ a u, execute budget thread r s = some (.ok a, u) ∧
      (a.outward u.domain.heap : Serving (Answer Datum)) u = some (outcome, t) := by
    rw [answer, execute, bind_assoc, Run.bind_apply, Run.attempt] at h
    rw [execute, Run.bind_apply, Run.attempt]
    rcases hserve : serve r budget thread s with _ | ⟨e | a, u⟩ <;> rw [hserve] at h
    · cases h
    · exact ⟨.fault e.toFault, u, rfl, h⟩
    · exact ⟨a, u, rfl, h⟩
  obtain ⟨a, u, hexecute, h⟩ := hexecute
  obtain ⟨found, houtcome, hfound, rfl⟩ := Answer.outward_eq_some h
  exact ⟨a, found, hexecute, hfound, houtcome⟩

theorem Uuid.ofNat_ne_succ (n : Nat) : ofNat (n + 1) ≠ ofNat n := by
  intro h
  have hlast := congrArg (fun id => id.bytes.getLast?) h
  simp only [ofNat, bigEndian, List.getLast?_append, List.getLast?_singleton, Option.some_or, Option.some.injEq] at hlast
  have := congrArg UInt8.toNat hlast
  simp only [UInt8.toNat_ofNat'] at this
  omega

/-! ## Servers within reach -/

/-- In some states of the network the server is within reach at an endpoint: a channel can be made and opened, carries each
request that travels, if the server comes to an end with it, and can be closed. -/
structure Connection.Reaches {ν : Type} (conn : Connection ν) (transport : Transport ν) (endpoint : String)
    (within : ν → Prop) (ready : transport.Channel → Prop) : Prop where
  opens : ∀ x, within x → ∃ made y channel z, transport.connect endpoint x = some (.ok made, y) ∧
    transport.start made y = some (.ok channel, z) ∧ ready channel ∧ within z
  answers : ∀ channel x heap r limit sent found server, ready channel → within x → Request.snapshot? heap r = some sent →
    Server.answer sent conn.budget conn.thread (conn.server x) = some (.ok found, server) →
      ∃ a y, transport.exchange channel heap r limit x = some (a, y)
  carries : ∀ channel x heap r limit a y, ready channel → within x →
    transport.exchange channel heap r limit x = some (a, y) → (∃ found, a = .ok found) ∧ within y
  closes : ∀ channel x, ready channel → within x → ∃ closed y,
    transport.close channel x = some (.ok closed, y) ∧ within y
  aborts : ∀ channel x, within x → within (transport.abort channel x).2

/-- The client's state with another state of the network. -/
def State.withNetwork {ν : Type} (s : State (Reach ν)) (x : ν) : State (Reach ν) :=
  { s with outside := { s.outside with network := x } }

namespace Client
variable {ν : Type} {c : Client ν}

theorem onNetwork_eq {α : Type} {x : Run ν α} {s : State (Reach ν)} {a : Except Error α} {y : ν}
    (h : x s.outside.network = some (a, y)) :
    onNetwork x s = some (a, s.withNetwork y) := by
  simp only [onNetwork, onReach, State.onOutside, Run.zoom, h, State.withNetwork]

theorem onChannel_eq {α : Type} {endpoint : String} {x : Run ν α} {s : State (Reach ν)} {a : α} {y : ν}
    (h : x s.outside.network = some (.ok a, y)) :
    onChannel endpoint x s = some (.ok a, s.withNetwork y) := by
  rw [onChannel, Run.bind_apply, Run.attempt, onNetwork_eq h]
  rfl

theorem onChannel_eq_some {α : Type} {endpoint : String} {x : Run ν α} {s t : State (Reach ν)} {a : Except Error α}
    (h : onChannel endpoint x s = some (a, t)) : ∃ b y, x s.outside.network = some (b, y) := by
  cases hx : x s.outside.network with
  | some p => exact ⟨p.1, p.2, rfl⟩
  | none =>
    rw [onChannel, Run.bind_apply, Run.attempt] at h
    simp only [onNetwork, onReach, State.onOutside, Run.zoom, hx] at h
    cases h

section
variable {s : State (Reach ν)} {channel : c.transport.Channel}

theorem attempt_opened {endpoint : String} {made : c.transport.Channel} {y z : ν}
    (hconnect : c.transport.connect endpoint s.outside.network = some (.ok made, y))
    (hstart : c.transport.start made y = some (.ok channel, z)) (r : Request Value) (l : LoadedModule) :
    c.attempt r l endpoint s =
      (Run.attempt (c.exchange channel r l) >>= c.settle endpoint channel) (s.withNetwork z) := by
  have hnetwork : onNetwork (c.transport.connect endpoint) s = some (.ok made, _) := onNetwork_eq hconnect
  have hchannel : onChannel (c.transport.endpoint made) (c.transport.start made) (s.withNetwork y) =
      some (.ok channel, _) := onChannel_eq hstart
  rw [attempt_eq, Run.bind_apply, hnetwork]
  dsimp only
  rw [attemptOn, Run.bind_apply, Run.attempt, hchannel]
  rfl

theorem send_told {r : Request Value} {a : Answer Datum} {y : ν}
    (h : c.transport.exchange channel s.domain.heap r c.settings.deadline s.outside.network = some (.ok a, y)) :
    c.send channel r s = some (a.toCallResult, s.withNetwork y) := by
  have hchannel : onChannel (c.transport.endpoint channel)
      (c.transport.exchange channel s.domain.heap r c.settings.deadline) s = some (.ok a, _) := onChannel_eq h
  rw [send, State.getHeap_bind, Run.bind_apply, hchannel]
  rfl

end

section Sending
variable {conn : Connection ν} (hconn : conn.Faultless c.transport) {endpoint : String} {within : ν → Prop}
  {ready : c.transport.Channel → Prop} (hreach : conn.Reaches c.transport endpoint within ready)
include hconn hreach

/-- What comes of handing a request over. -/
theorem exchange_answered {channel : c.transport.Channel} (hready : ready channel) {x : ν} (hx : within x) {heap : Heap}
    {r : Request Value} {limit : Option Duration} {sent : Request Datum} (hsent : r.snapshot? heap = some sent)
    {a : Except Error (Answer Datum)} {y : ν} (h : c.transport.exchange channel heap r limit x = some (a, y)) :
    ∃ found, a = .ok found ∧
      Server.answer sent conn.budget conn.thread (conn.server x) = some (.ok found, conn.server y) ∧
      conn.came y = conn.came x ++ [(sent, conn.server x)] ∧ within y := by
  obtain ⟨⟨found, rfl⟩, hy⟩ := hreach.carries _ _ _ _ _ _ _ hready hx h
  rcases hconn.exchange _ _ _ _ _ _ _ h with ⟨⟨e, he⟩, _⟩ | ⟨sent', z, found', hfound, hout, hanswer, hcame⟩
  · cases he
  · cases hfound
    rw [Request.outward_eq_snapshot?, hsent] at hout
    cases hout
    exact ⟨found, rfl, hanswer, hcame, hy⟩

variable {channel : c.transport.Channel} (hready : ready channel) {s : State (Reach ν)}
  (hs : within s.outside.network) {r : Request Value} {sent : Request Datum}
  (hsent : r.snapshot? s.domain.heap = some sent)
include hready hs hsent

/-- One request, one answer. -/
theorem send_answered {found : Answer Datum} {server : Server}
    (hanswer : Server.answer sent conn.budget conn.thread (conn.server s.outside.network) = some (.ok found, server)) :
    ∃ y, c.send channel r s = some (found.toCallResult, s.withNetwork y) ∧
      conn.server y = server ∧ within y ∧
      conn.came y = conn.came s.outside.network ++ [(sent, conn.server s.outside.network)] := by
  obtain ⟨a, y, hexchange⟩ :=
    hreach.answers channel _ s.domain.heap r c.settings.deadline sent found server hready hs hsent hanswer
  obtain ⟨found', rfl, hanswer', hcame, hy⟩ := exchange_answered hconn hreach hready hs hsent hexchange
  obtain ⟨rfl, rfl⟩ : found' = found ∧ conn.server y = server := by
    cases hanswer.symm.trans hanswer'
    exact ⟨rfl, rfl⟩
  exact ⟨y, send_told hexchange, rfl, hy, hcame⟩

/-- No answer, no end. -/
theorem send_ends {a : Except Error (CallResult Datum)} {t : State (Reach ν)} (h : c.send channel r s = some (a, t)) :
    ∃ found server, Server.answer sent conn.budget conn.thread (conn.server s.outside.network) =
      some (.ok found, server) := by
  rw [send, State.getHeap_bind, Run.bind_apply] at h
  have hchannel : ∃ b u, onChannel (c.transport.endpoint channel)
      (c.transport.exchange channel s.domain.heap r c.settings.deadline) s = some (b, u) := by
    rcases hx : onChannel (c.transport.endpoint channel)
      (c.transport.exchange channel s.domain.heap r c.settings.deadline) s with _ | ⟨b, u⟩
    · rw [hx] at h
      cases h
    · exact ⟨b, u, rfl⟩
  obtain ⟨b, u, hb⟩ := hchannel
  obtain ⟨_, y, hexchange⟩ := onChannel_eq_some hb
  obtain ⟨found, _, hanswer, _⟩ := exchange_answered hconn hreach hready hs hsent hexchange
  exact ⟨found, _, hanswer⟩

omit hready hsent

/-- An attempt opens a channel, and what comes of the exchange on it comes of the attempt. -/
theorem attempt_exchanges (l : LoadedModule) : ∃ channel z, ready channel ∧ within z ∧
    conn.Same s.outside.network z ∧
    (∀ outcome (u : State (Reach ν)), within u.outside.network →
      c.exchange channel r l (s.withNetwork z) = some (outcome, u) →
        ∃ y, within y ∧ conn.Same u.outside.network y ∧
          c.attempt r l endpoint s = some (outcome, u.withNetwork y)) ∧
    ∀ a t, c.attempt r l endpoint s = some (a, t) →
      ∃ b u, c.exchange channel r l (s.withNetwork z) = some (b, u) := by
  obtain ⟨made, y, channel, z, hconnect, hstart, hready, hz⟩ := hreach.opens _ hs
  have hsame : conn.Same s.outside.network z := by
    have hmade := hconn.connect _ _ _ _ hconnect
    exact trans_of conn.Same hmade (hconn.start _ _ _ _ hstart)
  have hopened := attempt_opened (c := c) hconnect hstart r l
  refine ⟨channel, z, hready, hz, hsame, fun outcome u hu hexchange => ?_, fun a t hattempt => ?_⟩
  · rw [hopened, Run.bind_apply, Run.attempt, hexchange]
    cases outcome with
    | error e =>
      exact ⟨_, hreach.aborts channel _ hu, hconn.abort channel _, rfl⟩
    | ok result =>
      obtain ⟨closed, y, hclose, hy⟩ := hreach.closes channel _ hready hu
      obtain ⟨_, hsame⟩ := hconn.close _ _ _ _ hclose
      have hchannel : onChannel endpoint (c.transport.close channel) u = some (.ok closed, _) := onChannel_eq hclose
      refine ⟨y, hy, hsame, ?_⟩
      dsimp only
      rw [settle, Run.bind_apply, hchannel]
      rfl
  · rw [hopened, Run.bind_apply, Run.attempt] at hattempt
    rcases hx : c.exchange channel r l (s.withNetwork z) with _ | ⟨b, u⟩
    · rw [hx] at hattempt
      cases hattempt
    · exact ⟨b, u, rfl⟩

end Sending

/-- The attempt hands over some requests and then a last one, each to the server as it is then. It ends if the server comes
to an end with the last one, with the answer to it. For each but the first it takes a new id. -/
def Asks (c : Client ν) (conn : Connection ν) (within : ν → Prop) (r : Request Value) (l : LoadedModule)
    (endpoint : String) (s : State (Reach ν)) (front : List (Request Datum × Server)) (last : Request Datum × Server) :
    Prop :=
  (∀ found server, Server.answer last.1 conn.budget conn.thread last.2 = some (.ok found, server) →
    ∃ x : Reach ν, c.attempt r l endpoint s = some (found.toCallResult, { s with outside := x }) ∧
      conn.server x.network = server ∧ conn.came x.network = conn.came s.outside.network ++ front ++ [last] ∧
      within x.network ∧ x.hashes = s.outside.hashes ∧ x.nextId = s.outside.nextId + front.length) ∧
  ∀ a t, c.attempt r l endpoint s = some (a, t) →
    ∃ found server, Server.answer last.1 conn.budget conn.thread last.2 = some (.ok found, server)

section Attempts
variable {conn : Connection ν} (hconn : conn.Faultless c.transport) {endpoint : String} {within : ν → Prop}
  {ready : c.transport.Channel → Prop} (hreach : conn.Reaches c.transport endpoint within ready) {s : State (Reach ν)}
  (hs : within s.outside.network) {r : Request Value} {sent : Request Datum}
  (hsent : r.snapshot? s.domain.heap = some sent) (l : LoadedModule)
include hconn hreach hs hsent

/-- A request for a module that is not unknown is the only one. -/
theorem attempt_once (hknown : ∀ found server,
    Server.answer sent conn.budget conn.thread (conn.server s.outside.network) = some (.ok found, server) →
      found ≠ .moduleUnknown) : c.Asks conn within r l endpoint s [] (sent, conn.server s.outside.network) := by
  obtain ⟨channel, z, hready, hz, ⟨hserver, hcame⟩, hends, hstarts⟩ := attempt_exchanges hconn hreach hs (r := r) l
  constructor
  · intro found server hfound
    have hanswer : Server.answer sent conn.budget conn.thread (conn.server z) = some (.ok found, server) := by
      rw [hserver]
      exact hfound
    obtain ⟨y, hsend, hserver', hy, hcame'⟩ :=
      send_answered hconn hreach hready (s := s.withNetwork z) hz hsent hanswer
    have hexchange : c.exchange channel r l (s.withNetwork z) = some (found.toCallResult, s.withNetwork y) := by
      rw [exchange_eq, Run.bind_apply, hsend]
      cases found with
      | completed v vs => rfl
      | moduleUnknown => exact absurd rfl (hknown _ _ hfound)
      | fault f => rfl
    obtain ⟨y', hy', ⟨hserver'', hcame''⟩, hattempt⟩ := hends _ (s.withNetwork y) hy hexchange
    refine ⟨_, hattempt, hserver''.trans hserver', ?_, hy', rfl, rfl⟩
    rw [List.append_nil, ← hcame, ← hserver]
    exact hcame''.trans hcame'
  · intro a t hattempt
    obtain ⟨b, u, hexchange⟩ := hstarts a t hattempt
    have hsend : ∃ b u, c.send channel r (s.withNetwork z) = some (b, u) := by
      rw [exchange_eq, Run.bind_apply] at hexchange
      rcases hx : c.send channel r (s.withNetwork z) with _ | ⟨b, u⟩
      · rw [hx] at hexchange
        cases hexchange
      · exact ⟨b, u, rfl⟩
    obtain ⟨b, u, hsend⟩ := hsend
    obtain ⟨found, server, hfound⟩ := send_ends hconn hreach hready (s := s.withNetwork z) hz hsent hsend
    exact ⟨found, server, hserver ▸ hfound⟩

/-- A request for a module that is unknown is followed by another, with the module. -/
theorem attempt_twice {server : Server} (hunknown :
    Server.answer sent conn.budget conn.thread (conn.server s.outside.network) = some (.ok .moduleUnknown, server)) :
    c.Asks conn within r l endpoint s [(sent, conn.server s.outside.network)]
      ({ sent with id := Uuid.ofNat s.outside.nextId, upload := some l.bytes }, server) := by
  obtain ⟨channel, z, hready, hz, ⟨hserver, hcame⟩, hends, hstarts⟩ := attempt_exchanges hconn hreach hs (r := r) l
  rw [← hserver] at hunknown
  obtain ⟨y, hfirst, hserver', hy, hcame'⟩ :=
    send_answered hconn hreach hready (s := s.withNetwork z) hz hsent hunknown
  -- the client as it sends the second request
  let t : State (Reach ν) := { s with outside := { s.outside with nextId := s.outside.nextId + 1, network := y } }
  have hsecond : c.exchange channel r l (s.withNetwork z) =
      c.send channel { r with id := Uuid.ofNat s.outside.nextId, upload := some l.bytes } t := by
    rw [exchange_eq, Run.bind_apply, hfirst]
    rfl
  have hagain := Request.snapshot?_again hsent (Uuid.ofNat s.outside.nextId) (some l.bytes)
  have hserver_t : conn.server t.outside.network = server := hserver'
  constructor
  · intro found last hfound
    rw [← hserver_t] at hfound
    obtain ⟨y', hsend, hlast, hy', hcame''⟩ := send_answered hconn hreach hready (s := t) hy hagain hfound
    obtain ⟨y'', hy'', ⟨hserver'', hcame₃⟩, hattempt⟩ :=
      hends _ (t.withNetwork y') hy' (hsecond.trans hsend)
    refine ⟨_, hattempt, hserver''.trans hlast, ?_, hy'', rfl, rfl⟩
    rw [← hcame, ← hserver, ← hserver_t]
    refine (hcame₃.trans hcame'').trans ?_
    exact congrArg (· ++ _) hcame'
  · intro a u hattempt
    obtain ⟨b, v, hexchange⟩ := hstarts a u hattempt
    rw [hsecond] at hexchange
    obtain ⟨found, last, hfound⟩ := send_ends hconn hreach hready (s := t) hy hagain hexchange
    exact ⟨found, last, hserver_t ▸ hfound⟩

end Attempts

end Client
end MobileCode
