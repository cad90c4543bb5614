import MobileCode.Proofs.Attempts
import MobileCode.Proofs.Digests

/-! # The module follows the request

A client that calls a method of a module that the server lacks makes two exchanges: the server asks for the module, and
the client sends the request once more, with the file of the module and an id of its own. If the second one is completed,
each later call of the module makes one exchange, whatever else the server was asked for.
-/
namespace MobileCode

namespace Client
variable {ν : Type} {c : Client ν}

/-! ## Service calls -/

/-- A service call up to the point where its request is sent. -/
structure Outgoing (c : Client ν) (host : Host (Reach ν)) (run : Runner (Reach ν)) (call : ServiceCall)
    (s : State (Reach ν)) where
  target : MethodHandle
  /-- The client when the method has been found. -/
  found : State (Reach ν)
  endpoint : String
  request : Request Value
  /-- The client when the state has been captured and the endpoint chosen. -/
  state : State (Reach ν)
  sent : Request Datum
  resolved : host.resolveMethod call.method s = some (.ok target, found)
  built : c.request host run call target found = some (.ok (endpoint, request), state)
  travels : request.snapshot? state.domain.heap = some sent

/-- What is left of a call when the answer has come. -/
def conclude (host : Host (Reach ν)) (run : Runner (Reach ν)) (call : ServiceCall) (result : CallResult Datum) :
    Calling ν (CallResult Value) := do
  let result ← result.traverse State.instantiate
  if call.mode = .normal ∧ result.isExecuted then
    Transfer.apply host run call.receiver result.nonLocals
  return result

variable {host : Host (Reach ν)} {run : Runner (Reach ν)} {call : ServiceCall} {s : State (Reach ν)}

theorem Outgoing.call_recovered (o : Outgoing c host run call s) (henabled : c.settings.enabled = true) :
    c.call host run call s = (c.recovery.recover (fun d => onNetwork (c.transport.wait d)) o.endpoint
      (c.attempt o.request o.target.module) >>= conclude host run call) o.state := by
  have hcall : c.call host run call = (do
      let target ← host.resolveMethod call.method
      let sent ← c.request host run call target
      c.recovery.recover (fun d => onNetwork (c.transport.wait d)) sent.1 (c.attempt sent.2 target.module) >>=
        conclude host run call) := by
    unfold Client.call
    rw [henabled]
    rfl
  rw [hcall, Run.bind_apply, o.resolved]
  dsimp only
  rw [Run.bind_apply, o.built]

theorem Outgoing.call_eq (o : Outgoing c host run call s) (henabled : c.settings.enabled = true)
    (hdirect : c.recovery = .direct) : c.call host run call s =
      (c.attempt o.request o.target.module o.endpoint >>= conclude host run call) o.state := by
  rw [o.call_recovered henabled, hdirect]
  rfl

theorem freshId_eq (s : State (Reach ν)) : (freshId : Calling ν Uuid) s =
    some (.ok (Uuid.ofNat s.outside.nextId), { s with outside := { s.outside with nextId := s.outside.nextId + 1 } }) := rfl

theorem moduleHash_eq {l : LoadedModule} {hash : String} {s t : State (Reach ν)}
    (h : c.moduleHash l s = some (.ok hash, t)) : hash = c.hashOf s l := by
  rw [moduleHash, Run.get_bind] at h
  unfold hashOf
  cases hknown : s.outside.hashes.find? l.name with
  | some known =>
    rw [hknown] at h
    cases h
    rfl
  | none =>
    rw [hknown] at h
    cases h
    rfl

/-- The request of a call names the module of its method and brings nothing yet. -/
structure Outgoing.Names (o : Outgoing c host run call s) : Prop where
  file : o.sent.file = o.target.module.name
  hash : o.sent.hash = c.hashOf o.found o.target.module
  upload : o.sent.upload = none
  id : ∃ n, o.sent.id = Uuid.ofNat n ∧ o.state.outside.nextId = n + 1

theorem Outgoing.names (o : Outgoing c host run call s) : o.Names := by
  have hbuilt := o.built
  rw [request_eq_captured] at hbuilt
  obtain ⟨hash, x, hhash, hbuilt⟩ := Run.bind_eq_ok.mp hbuilt
  obtain ⟨nonLocals, y, _, hbuilt⟩ := Run.bind_eq_ok.mp hbuilt
  obtain ⟨endpoint, z, _, hbuilt⟩ := Run.bind_eq_ok.mp hbuilt
  rw [Run.bind_apply, freshId_eq] at hbuilt
  have hmade := Except.ok.inj (congrArg Prod.fst (Option.some.inj hbuilt))
  have hstate := (congrArg Prod.snd (Option.some.inj hbuilt)).symm
  have hrequest := (congrArg Prod.snd hmade).symm
  have htravels := Request.snapshot?_travels o.travels
  refine ⟨htravels.file.trans (congrArg Request.file hrequest), ?_,
    htravels.upload.trans (congrArg Request.upload hrequest), z.outside.nextId,
    htravels.id.trans (congrArg Request.id hrequest), congrArg (fun s => s.outside.nextId) hstate⟩
  exact (htravels.hash.trans (congrArg Request.hash hrequest)).trans (moduleHash_eq hhash)

/-- The exchanges of a call: it hands over some requests and then a last one, each to the server as it is then. It ends if
the server comes to an end with the last one, and then goes on with the answer to it. For each but the first it has taken
a new id. -/
def Outgoing.Makes (o : Outgoing c host run call s) (conn : Connection ν) (within : ν → Prop)
    (front : List (Request Datum × Server)) (last : Request Datum × Server) : Prop :=
  (∀ found server, Server.answer last.1 conn.budget conn.thread last.2 = some (.ok found, server) →
    ∃ x : Reach ν, conn.server x.network = server ∧
      conn.came x.network = conn.came o.state.outside.network ++ front ++ [last] ∧ within x.network ∧
      x.hashes = o.state.outside.hashes ∧ x.nextId = o.state.outside.nextId + front.length ∧
      c.call host run call s =
        (Run.ofExcept found.toCallResult >>= conclude host run call) { o.state with outside := x }) ∧
  ∀ a t, c.call host run call s = some (a, t) →
    ∃ found server, Server.answer last.1 conn.budget conn.thread last.2 = some (.ok found, server)

theorem Outgoing.makes_of_asks (o : Outgoing c host run call s) (henabled : c.settings.enabled = true)
    (hdirect : c.recovery = .direct) {conn : Connection ν} {within : ν → Prop} {front : List (Request Datum × Server)}
    {last : Request Datum × Server}
    (h : c.Asks conn within o.request o.target.module o.endpoint o.state front last) : o.Makes conn within front last := by
  obtain ⟨hends, hstarts⟩ := h
  have hcall := o.call_eq henabled hdirect
  constructor
  · intro found server hfound
    obtain ⟨x, hattempt, hserver, hcame, hwithin, hhashes, hnext⟩ := hends found server hfound
    refine ⟨x, hserver, hcame, hwithin, hhashes, hnext, ?_⟩
    rw [hcall, Run.bind_apply, hattempt, Run.bind_apply]
    cases found.toCallResult <;> rfl
  · intro a t h
    rw [hcall, Run.bind_apply] at h
    rcases hattempt : c.attempt o.request o.target.module o.endpoint o.state with _ | ⟨b, u⟩
    · rw [hattempt] at h
      cases h
    · exact hstarts b u hattempt

end Client

/-- The answer that travels is that of the request. -/
theorem Server.answer_eq_ok {r : Request Datum} {budget : Nat} {thread : Option String} {s t : Server}
    {found : Answer Datum} (h : answer r budget thread s = some (.ok found, t)) : ∃ a,
      execute budget thread r s = some (.ok a, t) ∧ (found = .moduleUnknown → a = .moduleUnknown) ∧
        ((∃ v vs, found = .completed v vs) → ∃ v vs, a = .completed v vs) := by
  obtain ⟨a, _, hexecute, hsnapshot, hfound⟩ := answer_eq_some h
  cases hfound
  exact ⟨a, hexecute, Answer.snapshot?_kind hsnapshot⟩

/-! ## The module follows -/

namespace Server

/-- A server whose sandbox holds only what it has stored does not ask for a module that is sent, unless a loaded module
carries along one of that name. -/
theorem Serves.knows_uploaded {s t : Server} {turns : List Turn} (h : Serves s turns t) (hs : s.domain.Indexed)
    (hdigest : ∀ x ∈ turns, x.before.domain.digest = t.domain.digest) {r : Request Datum} {bytes : Bytes}
    (hupload : r.upload = some bytes)
    (hplace : ∀ found, s.outside.disk.fileAt? (s.outside.placeFor r.hash r.file) = some found →
      answersTo t.domain.digest r.hash found = true)
    (hcarried : ∀ found, ¬t.domain.Carries r.file found) (budget : Nat) (thread : Option String) :
    (execute budget thread r).Ensures t fun a _ => a ≠ .moduleUnknown := by
  refine execute_ne_unknown ?_
  intro found u hfind
  have hfound := hfind
  rw [find_eq_accept] at hfound
  obtain ⟨_, v, haccept, _⟩ := Run.bind_eq_ok.mp hfound
  obtain ⟨hhash, hname⟩ := validate_eq_ok (accept_valid haccept)
  exact find_uploaded hupload (fun _ hread => h.answers hs hhash hname hdigest hplace hcarried hread) found u hfind

theorem answer_of_execute {r : Request Datum} {budget : Nat} {thread : Option String} {s t : Server} {a : Answer Value}
    {found : Answer Datum} (hexecute : execute budget thread r s = some (.ok a, t))
    (houtward : (a.outward t.domain.heap : Serving (Answer Datum)) t = some (.ok found, t)) :
    answer r budget thread s = some (.ok found, t) := by
  rw [answer, Run.bind_apply, hexecute]
  exact houtward

/-- A server that lacks the module asks for it. -/
theorem answer_lacking {s : Server} {r : Request Datum} (hvalid : validate r = .ok ()) (hupload : r.upload = none)
    (hs : s.Grounded) (h : s.Lacks r) (budget : Nat) (thread : Option String) :
    answer r budget thread s = some (.ok .moduleUnknown, s.looking r) :=
  answer_of_execute (execute_lacking hvalid hupload hs h budget thread).1 rfl

/-- The module that the request names by its file and its hash, at a server that has stored it. -/
theorem Stores.knows {s : Server} {r : Request Datum} (h : s.Stores r) {budget : Nat} {thread : Option String}
    {found : Answer Datum} {t : Server} (hanswer : answer r budget thread s = some (.ok found, t)) :
    found ≠ .moduleUnknown := by
  obtain ⟨a, hexecute, hunknown, _⟩ := answer_eq_ok hanswer
  exact fun hfound => execute_ne_unknown (find_ne_none h.stocks) a t hexecute (hunknown hfound)

end Server

namespace Client
variable {ν : Type} {c : Client ν} {host : Host (Reach ν)} {run : Runner (Reach ν)} {call : ServiceCall}
  {s : State (Reach ν)}

/-- The server as it is when the request is sent. -/
def Outgoing.server (o : Outgoing c host run call s) (conn : Connection ν) : Server :=
  conn.server o.state.outside.network

/-- The request once more, with the module. -/
def Outgoing.again (o : Outgoing c host run call s) : Request Datum :=
  { o.sent with id := Uuid.ofNat o.state.outside.nextId, upload := some o.target.module.bytes }

theorem Outgoing.again_names (o : Outgoing c host run call s) : o.again.hash = o.sent.hash ∧
    o.again.file = o.sent.file ∧ o.again.upload = some o.target.module.bytes ∧ o.again.id ≠ o.sent.id := by
  obtain ⟨n, hid, hnext⟩ := o.names.id
  unfold again
  refine ⟨rfl, rfl, rfl, ?_⟩
  dsimp only
  rw [hid, hnext]
  exact Uuid.ofNat_ne_succ n

/-- The first call of an enabled client for a module, without fault recovery. The server is within reach, digests as the
client does and, when the request is sent, lacks the module. -/
structure Outgoing.First (o : Outgoing c host run call s) (conn : Connection ν) (within : ν → Prop)
    (ready : c.transport.Channel → Prop) : Prop where
  enabled : c.settings.enabled = true
  direct : c.recovery = .direct
  new : o.found.outside.hashes.find? o.target.module.name = none
  plain : isPlainFileName o.target.module.name = true
  faultless : conn.Faultless c.transport
  reach : conn.Reaches c.transport o.endpoint within ready
  near : within o.state.outside.network
  serves : ∃ start turns, Server.Serves start turns (o.server conn) ∧ start.domain.Indexed ∧
    start.outside.versions = {}
  digest : (o.server conn).domain.digest = c.settings.digest
  lacks : (o.server conn).Lacks o.sent

/-- The call makes two exchanges, of which the first leaves the server `asked`. -/
structure Outgoing.Handshake (o : Outgoing c host run call s) (conn : Connection ν) (within : ν → Prop)
    (ready : c.transport.Channel → Prop) (asked : Server) : Prop where
  makes : o.Makes conn within [(o.sent, o.server conn)] (o.again, asked)
  unknown : Server.answer o.sent conn.budget conn.thread (o.server conn) = some (.ok .moduleUnknown, asked)
  runs : Server.Executes o.sent conn.budget conn.thread (o.server conn) none .moduleUnknown asked
  /-- Only the list of paths that the server has looked at is another. -/
  stays : ∃ paths, asked = (o.server conn).touching paths
  brings : o.again.upload = some o.target.module.bytes
  renamed : o.again.id ≠ o.sent.id
  once : ∀ a after, Server.execute conn.budget conn.thread o.again asked = some (.ok a, after) →
    a ≠ .moduleUnknown ∧ ∃ ran, Server.Executes o.again conn.budget conn.thread asked ran a after
  /-- If the second request is completed, each later call makes one exchange. -/
  later : ∀ v vs after, Server.answer o.again conn.budget conn.thread asked = some (.ok (.completed v vs), after) →
    ∀ {host' run' call' s'} (o' : Outgoing c host' run' call' s') {turns}, Server.Serves after turns (o'.server conn) →
      (o'.server conn).domain.digest = c.settings.digest → o'.target.module.name = o.target.module.name →
      c.hashOf o'.found o'.target.module = c.hashOf o.found o.target.module →
      conn.Reaches c.transport o'.endpoint within ready → within o'.state.outside.network →
        o'.Makes conn within [] (o'.sent, o'.server conn)

section
variable {o : Outgoing c host run call s} {conn : Connection ν} {within : ν → Prop}
  {ready : c.transport.Channel → Prop} (h : o.First conn within ready)
include h

theorem Outgoing.First.hash : o.sent.hash = c.settings.digest.digest o.target.module.bytes := by
  rw [o.names.hash, hashOf, h.new]
  rfl

theorem Outgoing.First.plainNames : isPlainFileName o.sent.hash = true ∧ isPlainFileName o.sent.file = true :=
  ⟨isPlainFileName_of_isHexDigest (h.hash ▸ DigestAlgorithm.digest_isHexDigest _ _), o.names.file ▸ h.plain⟩

theorem Outgoing.First.handshake : ∃ asked, o.Handshake conn within ready asked := by
  obtain ⟨hhashPlain, hnamePlain⟩ := h.plainNames
  have hvalid : Server.validate o.sent = .ok () := by
    unfold Server.validate
    rw [h.hash, DigestAlgorithm.digest_isHexDigest, hnamePlain]
    rfl
  obtain ⟨start, turns, hserves, hindexed, hversions⟩ := h.serves
  have hgrounded : (o.server conn).Grounded := (Server.Settled.of_fresh hindexed hversions).toGrounded.serves hserves
  have hidle := (Server.execute_lacking hvalid o.names.upload hgrounded h.lacks conn.budget conn.thread).2
  have hunknown := Server.answer_lacking hvalid o.names.upload hgrounded h.lacks conn.budget conn.thread
  obtain ⟨hhash, hfile, hupload, hid⟩ := o.again_names
  -- there is no file in the place of the module
  have hplace (found : Bytes) (hread : ((o.server conn).looking o.sent).outside.disk.read?
      (((o.server conn).looking o.sent).outside.pathFor o.again.hash o.again.file) = some found) :
      Server.answersTo ((o.server conn).looking o.sent).domain.digest o.again.hash found = true := by
    rw [hhash, hfile] at hread
    have hthere : (o.server conn).outside.disk.isFile ((o.server conn).outside.pathFor o.sent.hash o.sent.file) = true :=
      FileTree.isFile_eq_true.mpr ⟨found, hread⟩
    cases h.lacks.kept.symm.trans hthere
  refine ⟨_, ?_, hunknown, hidle, ⟨_, rfl⟩, hupload, hid, ?_, ?_⟩
  · exact o.makes_of_asks h.enabled h.direct (attempt_twice h.faultless h.reach h.near o.travels _ hunknown)
  · intro a after hexecute
    exact ⟨Server.execute_ne_unknown (Server.find_uploaded hupload hplace) a after hexecute,
      Server.execute_executes hexecute⟩
  · intro v vs after hcompleted host' run' call' s' o' turns' hserves' hdigest hname hsame hreach hnear
    obtain ⟨a, hexecute, _, hkind⟩ := Server.answer_eq_ok hcompleted
    obtain ⟨found, hread, hanswers⟩ :=
      Server.execute_uploaded hupload hplace conn.budget conn.thread a after hexecute (hkind ⟨v, vs, rfl⟩)
    rw [hhash] at hread hanswers
    rw [hfile] at hread
    let turn : Server.Turn := ⟨conn.budget, conn.thread, o.again, (o.server conn).looking o.sent, a, after⟩
    have hturn : Server.Serves ((o.server conn).looking o.sent) [turn] after :=
      .cons (x := turn) hexecute (.nil after)
    have hlater := hserves'.reads ((hgrounded.touching _).serves hturn).indexed hhashPlain hnamePlain hread
    have hstores : (o'.server conn).Stores o'.sent := by
      have hhash' : o'.sent.hash = o.sent.hash := by rw [o'.names.hash, hsame, o.names.hash]
      have hfile' : o'.sent.file = o.sent.file := by rw [o'.names.file, hname, o.names.file]
      rw [Server.Stores, hhash', hfile']
      refine ⟨found, hlater, ?_⟩
      rw [hdigest, ← h.digest]
      exact hanswers
    refine o'.makes_of_asks h.enabled h.direct (attempt_once h.faultless hreach hnear o'.travels _ fun answer t h => ?_)
    exact hstores.knows h

end

end Client

/-! ## A server with nothing -/

namespace Record

theorem reaches (budget : Nat) (thread : Option String) (endpoint : String) :
    (conn budget thread).Reaches (transport budget thread) endpoint (fun _ => True) fun _ => True where
  opens x _ := ⟨(), x, (), x, rfl, rfl, trivial, trivial⟩
  answers _ x heap r _ sent found server _ _ hsent hanswer := by
    have houtward : (r.outward heap : Run Record (Request Datum)) x = some (.ok sent, x) := by
      rw [Request.outward_eq_snapshot?, hsent]
      rfl
    have hanswer' : Server.answer sent budget thread x.1 = some (.ok found, server) := hanswer
    simp only [transport, houtward, hanswer']
    exact ⟨_, _, rfl⟩
  carries _ x heap r _ a y _ _ h := by
    simp only [transport] at h
    split at h
    · split at h
      · cases h
        exact ⟨⟨_, rfl⟩, trivial⟩
      · cases h
    · cases h
  closes _ x _ _ := ⟨(), x, rfl, trivial⟩
  aborts _ _ _ := trivial

/-- The client with its module of the deployment, and a server with nothing. -/
def apart (m : Module Datum) : State (Reach Record) where
  domain := (loaded (deployment m).client).2
  outside := { network := (⟨{ hostName := "" }, { sandbox := "" }⟩, []) }

end Record

end MobileCode
