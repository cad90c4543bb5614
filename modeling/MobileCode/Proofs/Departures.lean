import MobileCode.Proofs.Changes
import MobileCode.Proofs.Commissions
import MobileCode.Service.Network

/-! # Calls that set out

A client that has a module of a deployment captures what the closure of the method names, and asks the server that its endpoint
is bound to. It is asked for the module at most once, and then sends it along.
-/
namespace MobileCode

/-! ## Servers in one process -/

/-- A client that makes one attempt, at servers in one process. -/
def Client.straight (settings : ClientSettings) (clientType : String) (budget : Nat) : Client Network where
  settings
  clientType
  transport := Network.direct budget

/-- An open channel carries the request to its server, and the answer back. -/
theorem Network.exchange_direct {budget : Nat} {n : Network} {name : String} {server after : Server}
    (hserver : n.servers.find? name = some server) {heap : Heap} {r : Request Value} {sent : Request Datum}
    (hsent : r.snapshot? heap = some sent) {a : Answer Datum}
    (ha : Server.answer sent budget none server = some (.ok a, after)) (endpoint : String) (limit : Option Duration) :
    (direct budget).exchange (⟨endpoint, name, true⟩ : DirectChannel) heap r limit n =
      some (.ok a, { n with servers := n.servers.insert name after }) := by
  have hserve : serve budget none name sent n = some (.ok a, { n with servers := n.servers.insert name after }) := by
    rw [Server.answer] at ha
    unfold serve onServer
    simp only [hserver]
    rw [ha]
  show (r.outward heap >>= _) n = _
  rw [Request.outward_eq_snapshot?, hsent]
  exact hserve

namespace Client
variable {settings : ClientSettings} {clientType : String} {budget : Nat} {t : State (Reach Network)} {endpoint name : String}

/-- An open channel to a server. -/
def channelTo (settings : ClientSettings) (clientType : String) (budget : Nat) (endpoint name : String) :
    (straight settings clientType budget).transport.Channel :=
  (⟨endpoint, name, true⟩ : Network.DirectChannel)

/-- An attempt ends with what the exchange comes to. -/
theorem attempt_straight (hbound : t.outside.network.bindings.find? endpoint = some name) {r : Request Value} {l : LoadedModule}
    {result : CallResult Datum} {x : Reach Network}
    (h : (straight settings clientType budget).exchange (channelTo settings clientType budget endpoint name) r l t =
      some (.ok result, { t with outside := x })) :
    (straight settings clientType budget).attempt r l endpoint t = some (.ok result, { t with outside := x }) := by
  have hconnect : (straight settings clientType budget).transport.connect endpoint t.outside.network =
      some (.ok (⟨endpoint, name, false⟩ : Network.DirectChannel), t.outside.network) := by
    unfold straight Network.direct
    dsimp only
    rw [Run.get_bind, hbound]
    rfl
  have hstart : (straight settings clientType budget).transport.start (⟨endpoint, name, false⟩ : Network.DirectChannel)
      t.outside.network = some (.ok (channelTo settings clientType budget endpoint name), t.outside.network) := rfl
  rw [attempt_opened hconnect hstart r l, show t.withNetwork t.outside.network = t from rfl, Run.bind_apply, Run.attempt, h]
  rfl

variable {server : Server} (hbound : t.outside.network.bindings.find? endpoint = some name)
  (hserver : t.outside.network.servers.find? name = some server) {r : Request Value} {sent : Request Datum}
  (hsent : r.snapshot? t.domain.heap = some sent)
include hserver hsent

theorem send_straight {a : Answer Datum} {after : Server} (ha : Server.answer sent budget none server = some (.ok a, after)) :
    (straight settings clientType budget).send (channelTo settings clientType budget endpoint name) r t =
      some (a.toCallResult, t.withNetwork { t.outside.network with
        servers := t.outside.network.servers.insert name after }) :=
  send_told (Network.exchange_direct hserver hsent ha endpoint settings.deadline)

include hbound

/-- A server that knows the module is asked once. -/
theorem attempt_known (l : LoadedModule) {d : Datum} {ds : List (Variable Datum)} {after : Server}
    (ha : Server.answer sent budget none server = some (.ok (.completed d ds), after)) :
    (straight settings clientType budget).attempt r l endpoint t = some (.ok (.executed d ds),
      t.withNetwork { t.outside.network with servers := t.outside.network.servers.insert name after }) := by
  refine attempt_straight hbound ?_
  rw [exchange_eq, Run.bind_apply, send_straight hserver hsent ha]
  rfl

/-- A server that does not know it is asked once more, and has it then. -/
theorem attempt_unknown (l : LoadedModule) {asked after : Server} {d : Datum} {ds : List (Variable Datum)}
    (hunknown : Server.answer sent budget none server = some (.ok .moduleUnknown, asked))
    (ha : Server.answer (sent.withModule (Uuid.ofNat t.outside.nextId) l.bytes) budget none asked =
      some (.ok (.completed d ds), after)) :
    (straight settings clientType budget).attempt r l endpoint t = some (.ok (.executed d ds),
      { t with outside := { t.outside with
        nextId := t.outside.nextId + 1
        network := { t.outside.network with
          servers := (t.outside.network.servers.insert name asked).insert name after } } }) := by
  -- the client as it sends the second request
  let again : State (Reach Network) := { t with outside := { t.outside with
    nextId := t.outside.nextId + 1
    network := { t.outside.network with servers := t.outside.network.servers.insert name asked } } }
  have hserver' : again.outside.network.servers.find? name = some asked :=
    (Dict.find?_insert _ _ _ _).trans (if_pos rfl)
  have hsent' := Request.snapshot?_again hsent (Uuid.ofNat t.outside.nextId) (some l.bytes)
  have hsecond : (straight settings clientType budget).exchange (channelTo settings clientType budget endpoint name) r l t =
      (straight settings clientType budget).send (channelTo settings clientType budget endpoint name)
        { r with id := Uuid.ofNat t.outside.nextId, upload := some l.bytes } again := by
    rw [exchange_eq, Run.bind_apply, send_straight hserver hsent hunknown]
    dsimp only [Answer.toCallResult]
    rw [CallResult.isModuleMissing, if_pos rfl, Run.bind_apply, freshId_eq]
    rfl
  exact attempt_straight hbound (hsecond.trans (send_straight hserver' hsent' ha))

omit hsent in
/-- Either way the attempt brings what the server answers in the end. -/
theorem attempt_answered (l : LoadedModule) {N : Nat} {d : Datum} {ds : List (Variable Datum)} {after : Server}
    (hanswers : (∀ k, Server.answer sent (N + k) none server = some (.ok (.completed d ds), after)) ∨
      ∃ asked, (∀ budget, Server.answer sent budget none server = some (.ok .moduleUnknown, asked)) ∧
        ∀ k, Server.answer (sent.withModule (Uuid.ofNat t.outside.nextId) l.bytes) (N + k) none asked =
          some (.ok (.completed d ds), after)) :
    ∃ y : Reach Network, ∀ k (r : Request Value), r.snapshot? t.domain.heap = some sent →
      (straight settings clientType (N + k)).attempt r l endpoint t = some (.ok (.executed d ds), { t with outside := y }) := by
  rcases hanswers with hknown | ⟨asked, hunknown, hknown⟩
  · exact ⟨_, fun k r hsent => attempt_known hbound hserver hsent l (hknown k)⟩
  · exact ⟨_, fun k r hsent => attempt_unknown hbound hserver hsent l (hunknown _) (hknown k)⟩

end Client

/-! ## The module of the client -/

/-- In the module of the client a method records the closure that was discovered for it. -/
theorem Deployment.main_closure {boundary : Boundary} {digest : DigestAlgorithm} {m : Module Datum}
    {dependencies : List (Module Datum)} {dep : Deployment}
    (hmake : make? boundary digest m dependencies = .ok (some dep)) {l : LoadedModule} (hl : l.code.shape = dep.client.shape)
    {t : Target Datum} (ht : t ∈ m.targets) {u : TypeDecl Value} (hu : l.code.types[t.typeIndex]? = some u)
    {e : MethodDecl Value} (he : u.methods[t.methodIndex]? = some e) {closure : Closure}
    (hclosure : (ModuleSet.ofList m dependencies).discover boundary t.type.fullName t.method = .ok closure) :
    e.closure = some closure := by
  obtain ⟨closures, hclosures, hclient⟩ := (make?_changes hmake).client
  obtain ⟨⟨htype, hmethod⟩, _⟩ := Module.mem_targets.mp ht
  have hpositions := map_position_zip (length_mapM hclosures)
  -- what the module is told to record at the position of the method
  obtain ⟨recorded, hlookup⟩ : ∃ recorded,
      (Target.movesIn t.typeIndex (m.targets.zip closures)).lookup t.methodIndex = some recorded := by
    refine Option.ne_none_iff_exists'.mp fun hnone => Target.lookup_movesIn_eq_none.mp hnone ?_
    rw [hpositions]
    exact List.mem_map_of_mem ht
  obtain rfl : recorded = closure := by
    obtain ⟨before, after, hsplit, _⟩ := List.lookup_eq_some_iff.mp hlookup
    have hmem : (t.methodIndex, recorded) ∈ Target.movesIn t.typeIndex (m.targets.zip closures) := by
      rw [hsplit]
      exact List.mem_append_right _ List.mem_cons_self
    obtain ⟨⟨t', c⟩, hzip, hsame⟩ := List.mem_map.mp hmem
    obtain ⟨hzip, hindex⟩ := List.mem_filter.mp hzip
    obtain ⟨hindex', rfl⟩ := Prod.mk.inj hsame
    have hthis : t' = t := List.inj_on_of_nodup_map (Module.nodup_targets m) (List.of_mem_zip hzip).1 ht
      (Prod.ext (of_decide_eq_true hindex) hindex')
    have hfound := (List.forall₂_iff_zip.mp (forall₂_mapM hclosures)).2 hzip
    rw [hthis, hclosure] at hfound
    exact Except.ok.inj hfound.symm
  have hplace : dep.client.types[t.typeIndex]? =
      some (t.type.withMobile boundary.clientType (Target.movesIn t.typeIndex (m.targets.zip closures))) := by
    rw [hclient]
    exact Module.getElem?_withMobile htype
  obtain ⟨u', hu', hushape⟩ := Module.types_getElem? hl hu
  cases hplace.symm.trans hu'
  obtain ⟨e', he', heshape⟩ := TypeDecl.methods_getElem? hushape he
  rw [TypeDecl.getElem?_withMobile hmethod, hlookup] at he'
  cases he'
  have hsame : e.shape.closure = (t.method.mobileForm boundary.clientType t.type.fullName recorded).shape.closure :=
    congrArg MethodDecl.closure heshape
  exact hsame

/-! ## Requests -/

/-- A method that is there is found without a change. -/
theorem Host.resolveMethod_found {ω : Type} {host : Host ω} {s : State ω} {m : MethodRef} {o : TypeHandle} {d : MethodDecl Value}
    (ho : s.domain.type? m.owner.fullName = some o) (hd : o.decl.method? m.name m.paramTypes = some d) :
    host.resolveMethod m s = some (.ok ⟨o.module, o.decl, d⟩, s) := by
  have hmethod : o.method? m.name m.paramTypes = some ⟨o.module, o.decl, d⟩ := by
    rw [TypeHandle.method?, hd]
    rfl
  unfold resolveMethod
  rw [Run.bind_apply, resolveType_found ho]
  dsimp only
  rw [hmethod]
  rfl

/-- The first digest is made from the bytes of the module, and kept. -/
theorem Client.moduleHash_unused {ν : Type} {c : Client ν} {t : State (Reach ν)} (hunused : t.outside.hashes = [])
    (l : LoadedModule) : c.moduleHash l t = some (.ok (c.settings.digest.digest l.bytes),
      { t with outside := { t.outside with
        hashes := t.outside.hashes.insert l.name (c.settings.digest.digest l.bytes) } }) := by
  have hnone : t.outside.hashes.find? l.name = none := by
    rw [hunused]
    rfl
  unfold moduleHash
  rw [Run.get_bind, hnone]
  rfl

/-- Values with a state travel. -/
theorem Variable.mapM_snapshot {k : Heap} {vs : List (Variable Value)} {xs : List Datum}
    (h : List.Forall₂ (fun v x => k.snapshot v.value = some x) vs xs) :
    ∃ ds, vs.mapM (·.traverse k.snapshot) = some ds ∧ ds.map (·.value) = xs := by
  induction h with
  | nil => exact ⟨[], rfl, rfl⟩
  | @cons v x vs xs hv _ ih =>
    obtain ⟨ds, hds, hvalues⟩ := ih
    have hd : v.traverse k.snapshot = some (v.withValue x) := by
      rw [Variable.traverse, hv]
      rfl
    refine ⟨v.withValue x :: ds, ?_, congrArg (x :: ·) hvalues⟩
    rw [List.mapM_cons, hd, hds]
    rfl

namespace Commission
variable (x : Commission)

/-- The call that is made of the method. -/
abbrev serviceCall (receiver : Option Ref) (args : List Value) : ServiceCall :=
  x.target.serviceCall x.boundary.clientType receiver args

/-- A client that has made no call yet, with its module of the deployment. -/
structure Departs (settings : ClientSettings) (l : LoadedModule) (t : State (Reach Network)) : Prop where
  enabled : settings.enabled = true
  unused : t.outside.hashes = []
  has : t.domain.Has x.deployment.client l
  file : Module.ofFile l.bytes = .ok x.deployment.client

/-- Seen through the closure, what the client has is what there is at home. -/
structure Resembles (thread : Option String) (receiver : Option Ref) (s : State Unit) (d : Domain) : Prop where
  type : ∀ r ∈ receiver, d.heap.typeOf r = x.type
  places : ∀ q ∈ (x.outing thread receiver).places, ∃ v w z, s.domain.at? q.1 = some v ∧ s.domain.heap.snapshot v = some z ∧
    d.at? q.1 = some w ∧ d.heap.snapshot w = some z

/-- As many arguments as there are parameters. They can travel, and the method is the first one that takes them. -/
structure Takes (k : Heap) (args : List Value) (xs : List Datum) : Prop where
  states : List.Forall₂ (fun v d => k.snapshot v = some d) args xs
  length : args.length = x.target.method.params.length
  selects : x.Selects xs

/-- No object is met twice in the arguments and in what goes along, and the receiver is not met. -/
structure Apart (thread : Option String) (receiver : Option Ref) (s : State Unit) (args : List Value) : Prop where
  once : (args.flatMap s.domain.heap.trail ++
    ((x.outing thread receiver).pack s.domain).flatMap fun v => s.domain.heap.trail v.value).Nodup
  receiver : ∀ r ∈ receiver, r ∉ args.flatMap s.domain.heap.trail ++
    ((x.outing thread receiver).pack s.domain).flatMap fun v => s.domain.heap.trail v.value

variable {x} {settings : ClientSettings} {thread : Option String} {receiver : Option Ref} {args : List Value} {s : State Unit}
  {l : LoadedModule} {t : State (Reach Network)}

/-- The method in the module of the client. -/
theorem recorded {d : Domain} (hl : d.Has x.deployment.client l) : ∃ u y, d.type? x.type = some ⟨l, u⟩ ∧
    u.method? x.target.method.name x.target.method.paramTypes = some y ∧ y.closure = some x.closure ∧
    y.params.length = x.target.method.params.length ∧
    ∀ name f, x.target.type.field? name = some f → ∃ g, u.field? name = some g ∧ f.shape = g.shape := by
  obtain ⟨u, hu⟩ := Deployment.loaded_type x.make (.inl rfl) hl.shape x.placedAt.1
  obtain ⟨hname, _⟩ := Deployment.loaded_methods x.make (.inl rfl) hl.shape x.placedAt.1 hu
  obtain ⟨y, hk, hy, _⟩ := x.stands_there (.inl rfl) hl.shape hu
  obtain ⟨_, _, _, hlength⟩ := Deployment.main_alike x.make (.inl rfl) hl.shape x.mem hu hk
  obtain ⟨main, siblings, hshape, _⟩ := Deployment.loadedGrown x.make (.inl rfl) hl.shape x.placedAt.1 hu
  refine ⟨u, y, ?_, hy, Deployment.main_closure x.make hl.shape x.mem hu hk x.discover, hlength, fun name f hf => ?_⟩
  · rw [← hl.types u (List.mem_of_getElem? hu), hname]
  · exact TypeDecl.field?_eq hshape.symm hf

variable (x) in
/-- What the closure names is declared. -/
theorem declares : ∀ id ∈ x.closure.fields, id.type = x.type → x.target.type.field? id.name ≠ none := by
  intro id hid _
  obtain ⟨f, hf, rfl, _⟩ := (x.walked.2.fields id).mp hid
  rw [(x.unambiguous.within _ x.stands.module _ x.stands.type).field?_eq hf]
  exact Option.some_ne_none f

theorem hosts {d : Domain} (hl : d.Has x.deployment.client l) (hresembles : x.Resembles thread receiver s d) :
    (x.outing thread receiver).Hosts d where
  type := by
    obtain ⟨u, _, hu, _, _, _, hfields⟩ := recorded hl
    exact ⟨_, hu, hfields⟩
  receiver := hresembles.type
  places q hq := by
    obtain ⟨_, w, _, _, _, hw, _⟩ := hresembles.places q hq
    rw [hw]
    exact Option.some_ne_none w

/-- The variables of a client that resembles what there is at home travel as those at home do. -/
theorem packs {d : Domain} (hresembles : x.Resembles thread receiver s d) : ∃ ds,
    ((x.outing thread receiver).pack d).mapM (·.traverse d.heap.snapshot) = some ds ∧
    List.Forall₂ (fun v z => s.domain.heap.snapshot v.value = some z.value ∧ z = v.withValue z.value)
      ((x.outing thread receiver).pack s.domain) ds := by
  unfold Outing.pack
  have hplaces := hresembles.places
  generalize (x.outing thread receiver).places = qs at hplaces
  induction qs with
  | nil => exact ⟨[], rfl, .nil⟩
  | cons q qs ih =>
    obtain ⟨⟨v, w, z, hv, hz, hw, hwz⟩, hqs⟩ := List.forall_mem_cons.mp hplaces
    obtain ⟨ds, hds, hsame⟩ := ih hqs
    have hfirst : ((x.outing thread receiver).packed d q).traverse d.heap.snapshot =
        some (((x.outing thread receiver).packed s.domain q).withValue z) := by
      rw [Outing.packed, hw, Variable.traverse]
      show Option.bind (d.heap.snapshot w) _ = _
      rw [hwz]
      rfl
    refine ⟨((x.outing thread receiver).packed s.domain q).withValue z :: ds, ?_, .cons ⟨?_, rfl⟩ hsame⟩
    · rw [List.map_cons, List.mapM_cons, hfirst, hds]
      rfl
    · rw [Outing.packed, hv]
      exact hz

/-- The call asks for the method, with all that the closure names. -/
theorem requests (hdeparts : x.Departs settings l t) (hnamed : (x.outing thread receiver).Named)
    (hresembles : x.Resembles thread receiver s t.domain) {args' : List Value} {xs : List Datum}
    (htakes : x.Takes t.domain.heap args' xs) (hargs : List.Forall₂ (fun v d => s.domain.heap.snapshot v = some d) args xs)
    (hapart : x.Apart thread receiver s args) {endpoint : String} (hendpoint : ∀ budget,
      (Client.straight settings x.boundary.clientType budget).endpoint (x.serviceCall receiver args') = .ok endpoint) :
    ∃ sent u, u.domain = t.domain ∧ u.outside.network = t.outside.network ∧ (∀ budget host run,
      ∃ o : Client.Outgoing (Client.straight settings x.boundary.clientType budget) host run (x.serviceCall receiver args') t,
        o.endpoint = endpoint ∧ o.state = u ∧ o.sent = sent ∧ o.target.module = l) ∧
      x.Asks thread receiver s args sent ∧ sent.hash = settings.digest.digest l.bytes ∧ sent.file = l.name ∧
      sent.upload = none ∧ sent.onMainThread = x.target.mobility.onMainThread := by
  obtain ⟨o, y, ho, hy, hclosure, hlength, _⟩ := recorded hdeparts.has
  have hmode : (x.serviceCall receiver args').mode = .normal := x.mode
  have hhosts := hosts hdeparts.has hresembles
  -- the variables of the request
  let params : List (Variable Value) := (y.params.zip args').map fun q =>
    { kind := .parameter, name := q.1.name, type := q.1.type, value := q.2 }
  have hparams : List.Forall₂ (fun v d => t.domain.heap.snapshot v.value = some d) params xs := by
    have hvalues : params.map (·.value) = args' := by
      rw [List.map_map]
      exact List.map_snd_zip (by rw [hlength, htakes.length])
    have hstates := htakes.states
    rw [← hvalues] at hstates
    exact List.forall₂_map_left_iff.mp hstates
  obtain ⟨ps, hps, hpsxs⟩ := Variable.mapM_snapshot hparams
  obtain ⟨ds, hds, hsame⟩ := packs hresembles
  let r : Request Value :=
    { id := Uuid.ofNat t.outside.nextId
      mode := (x.serviceCall receiver args').mode
      onMainThread := (x.serviceCall receiver args').onMainThread
      file := l.name
      hash := settings.digest.digest l.bytes
      type := x.type
      method := x.target.method.name
      params
      nonLocals := (x.outing thread receiver).pack t.domain }
  -- the client once it has the digest of its module, and once it has an id
  let v : State (Reach Network) := { t with outside := { t.outside with
    hashes := t.outside.hashes.insert l.name (settings.digest.digest l.bytes) } }
  let u : State (Reach Network) := { v with outside := { v.outside with nextId := t.outside.nextId + 1 } }
  have hsent : r.snapshot? u.domain.heap = some { r with params := ps, nonLocals := ds } :=
    Option.bind_eq_some_iff.mpr ⟨ps, hps, Option.bind_eq_some_iff.mpr ⟨ds, hds, rfl⟩⟩
  refine ⟨{ r with params := ps, nonLocals := ds }, u, rfl, rfl, fun budget host run =>
    ⟨⟨⟨l, o, y⟩, t, endpoint, r, u, _, ?_, ?_, hsent⟩, rfl, rfl, rfl, rfl⟩, ?_, rfl, rfl, rfl, rfl⟩
  · -- the method is found
    exact Host.resolveMethod_found (o := ⟨l, o⟩) ho hy
  · -- what the closure names is captured
    have hhash : (Client.straight settings x.boundary.clientType budget).moduleHash l t =
        some (.ok (settings.digest.digest l.bytes), v) := Client.moduleHash_unused hdeparts.unused l
    have hcaptured : Client.captured host run (x.serviceCall receiver args') ⟨l, o, y⟩ v =
        some (.ok ((x.outing thread receiver).pack t.domain), v) := by
      unfold Client.captured
      rw [hmode, hclosure]
      exact Outing.capture_eq (t := v) hnamed hhosts x.properties x.declares host run
    rw [Client.request_eq_captured, Run.bind_apply, hhash]
    dsimp only
    rw [Run.bind_apply, hcaptured]
    dsimp only
    rw [hendpoint budget]
    rfl
  · refine ⟨⟨hmode, rfl, ?_, hsame, hapart.once, hapart.receiver⟩, rfl, ?_⟩
    · show List.Forall₂ _ args (ps.map (·.value))
      rw [hpsxs]
      exact hargs
    · show x.Selects (ps.map (·.value))
      rw [hpsxs]
      exact htakes.selects

end Commission
end MobileCode
