import MobileCode.Proofs.Serving
import MobileCode.Service.Client

/-! # Exchanges with a server

A client at one end of a connection hands requests to the server at the other end: the request for a call and, if the
server does not have the module, the request with the module once more. A failure after which the client tries
again is one that the method did not run for.
-/
namespace MobileCode

/-! ## What computations come to -/

section
variable {σ α β : Type}

/-- Whatever the computation comes to from this state, it is such an outcome in such a state. -/
def Run.Yields (x : Run σ α) (s : σ) (Q : Except Error α → σ → Prop) : Prop := ∀ r t, x s = some (r, t) → Q r t

namespace Run.Yields
variable {x : Run σ α} {f : α → Run σ β} {s : σ} {P : Except Error α → σ → Prop} {Q : Except Error β → σ → Prop}

theorem pure {b : β} (h : Q (.ok b) s) : (Pure.pure b : Run σ β).Yields s Q := by
  intro r t hr
  cases hr
  exact h

theorem throw {e : Error} (h : Q (.error e) s) : (MonadExcept.throw e : Run σ β).Yields s Q := by
  intro r t hr
  cases hr
  exact h

theorem bind (hx : x.Yields s P) (hok : ∀ a t, P (.ok a) t → (f a).Yields t Q)
    (herror : ∀ e t, P (.error e) t → Q (.error e) t) : (x >>= f).Yields s Q := by
  intro r u h
  rw [bind_apply] at h
  rcases hxs : x s with _ | ⟨e | a, t⟩
  · rw [hxs] at h
    cases h
  · rw [hxs] at h
    cases h
    exact herror e _ (hx _ _ hxs)
  · rw [hxs] at h
    exact hok a t (hx _ _ hxs) r u h

theorem attempt_bind {f : Except Error α → Run σ β} (hx : x.Yields s P) (hf : ∀ r t, P r t → (f r).Yields t Q) :
    (Run.attempt x >>= f).Yields s Q := by
  intro r u h
  rw [bind_apply, attempt] at h
  rcases hxs : x s with _ | ⟨a, t⟩
  · rw [hxs] at h
    cases h
  · rw [hxs] at h
    exact hf a t (hx _ _ hxs) r u h

theorem get_bind {g : σ → Run σ β} (h : (g s).Yields s Q) : (get >>= g).Yields s Q := h

theorem ensures (h : x.Yields s P) : x.Ensures s fun a t => P (.ok a) t := fun _ _ ha => h _ _ ha

end Run.Yields

/-- From this state the computations do the same. If they succeed, it is with such a result in such a state. -/
def Run.Alike (x y : Run σ α) (s : σ) (Q : α → σ → Prop) : Prop := x s = y s ∧ x.Ensures s Q

namespace Run.Alike
variable {x y : Run σ α} {f g : α → Run σ β} {s : σ} {P : α → σ → Prop} {Q : β → σ → Prop}

theorem of_ensures (h : x.Ensures s P) : Alike x x s P := ⟨rfl, h⟩

theorem bind (hx : Alike x y s P) (hf : ∀ a t, P a t → Alike (f a) (g a) t Q) : Alike (x >>= f) (y >>= g) s Q := by
  obtain ⟨hsame, hensures⟩ := hx
  refine ⟨?_, hensures.bind fun a t ha => (hf a t ha).2⟩
  rw [bind_apply, bind_apply, ← hsame]
  rcases hxs : x s with _ | ⟨_ | a, t⟩
  · rfl
  · rfl
  · exact (hf a t (hensures a t hxs)).1

theorem of_twins {ω : Type} {I : State ω → Prop} {R : State ω → State ω → Prop} {x y : Run (State ω) α} {s : State ω}
    (h : Run.Twins I R x y) (hs : I s) : Alike x y s fun _ t => I t ∧ R s t := ⟨(h s hs).1, h.ensures hs⟩

theorem and {P' : α → σ → Prop} (h : Alike x y s P) (h' : x.Ensures s P') : Alike x y s fun a t => P a t ∧ P' a t :=
  ⟨h.1, fun a t ha => ⟨h.2 a t ha, h' a t ha⟩⟩

end Run.Alike

/-! ## Recovery -/

namespace Recovery
variable {attempt : String → Run σ α} {wait : Duration → Run σ Unit} {W : σ → Prop} {Q : Except Error α → σ → Prop}
  (hattempt : ∀ endpoint s, W s → (attempt endpoint).Yields s Q)
  (hagain : ∀ e s, Q (.error e) s → e.isFinal = false → W s) (hfails : ∀ e s, W s → Q (.error e) s)
include hattempt hagain hfails

theorem retryUpTo_yields {pause : Run σ Unit} (hpause : ∀ s, W s → pause.Yields s fun _ t => W t) {endpoint : String}
    (n : Nat) (failed : List Error) {s : σ} (hs : W s) : (retryUpTo (attempt endpoint) pause n failed).Yields s Q := by
  induction n generalizing failed s with
  | zero => exact .throw (hfails _ s hs)
  | succ n ih =>
    unfold retryUpTo
    refine (hattempt endpoint s hs).attempt_bind fun r t hr => ?_
    cases r with
    | ok a => exact .pure hr
    | error e =>
      dsimp only
      split
      · exact .throw hr
      · rename_i hfinal
        have ht := hagain e t hr (Bool.eq_false_iff.mpr hfinal)
        split
        · exact (hpause t ht).bind (fun _ u hu => ih _ hu) fun e u hu => hfails e u hu
        · exact ih _ ht

theorem tryEach_yields (endpoints : List String) (failed : Dict Error) {s : σ} (hs : W s) :
    (tryEach attempt endpoints failed).Yields s Q := by
  induction endpoints generalizing failed s with
  | nil => exact .throw (hfails _ s hs)
  | cons endpoint rest ih =>
    unfold tryEach
    refine (hattempt endpoint s hs).attempt_bind fun r t hr => ?_
    cases r with
    | ok a => exact .pure hr
    | error e =>
      dsimp only
      split
      · exact .throw hr
      · rename_i hfinal
        exact ih _ (hagain e t hr (Bool.eq_false_iff.mpr hfinal))

/-- What each attempt comes to, the whole comes to, if a failure after which there may be a further attempt
leaves all as it should be for one. -/
theorem recover_yields (hwait : ∀ d s, W s → (wait d).Yields s fun _ t => W t) (r : Recovery) (endpoint : String) {s : σ}
    (hs : W s) : (r.recover wait endpoint attempt).Yields s Q := by
  cases r with
  | direct => exact hattempt endpoint s hs
  | retry n pause =>
    refine retryUpTo_yields hattempt hagain hfails (fun s hs => ?_) _ _ hs
    cases pause with
    | none => exact .pure hs
    | some d => exact hwait d s hs
  | failover endpoints => exact tryEach_yields hattempt hagain hfails endpoints _ hs

end Recovery
end

/-! ## Connections -/

/-- What can be seen of a network that leads to a server: the server, how it runs requests, and the requests
that have come to it so far, each with the server as it came to it. -/
structure Connection (ν : Type) where
  server : ν → Server
  came : ν → List (Request Datum × Server)
  budget : Nat
  thread : Option String

namespace Connection
variable {ν : Type} (conn : Connection ν)

/-- Nothing has come to the server. -/
def Same (x y : ν) : Prop := conn.server y = conn.server x ∧ conn.came y = conn.came x

instance : IsPreorder ν conn.Same where
  refl _ := ⟨rfl, rfl⟩
  trans _ _ _ h h' := ⟨h'.1.trans h.1, h'.2.trans h.2⟩

/-- What is handed over comes to the server once, and its answer comes back. Nothing else comes to it. -/
structure Faultless (transport : Transport ν) : Prop where
  connect : ∀ endpoint x r y, transport.connect endpoint x = some (r, y) → conn.Same x y
  start : ∀ channel x r y, transport.start channel x = some (r, y) → conn.Same x y
  exchange : ∀ channel heap r limit x a y, transport.exchange channel heap r limit x = some (a, y) →
    (∃ e, a = .error e) ∧ conn.Same x y ∨ ∃ sent z found, a = .ok found ∧
      (r.outward heap : Run ν (Request Datum)) x = some (.ok sent, z) ∧
      Server.answer sent conn.budget conn.thread (conn.server x) = some (.ok found, conn.server y) ∧
      conn.came y = conn.came x ++ [(sent, conn.server x)]
  close : ∀ channel x r y, transport.close channel x = some (r, y) → (∃ closed, r = .ok closed) ∧ conn.Same x y
  abort : ∀ channel x, conn.Same x (transport.abort channel x).2
  wait : ∀ d x r y, transport.wait d x = some (r, y) → conn.Same x y

/-- The moves of the method that a request made the server run. -/
def moves (p : Request Datum × Server) : List Machine.Move := Server.moves p.1 conn.budget conn.thread p.2

variable (s t : State (Reach ν))

/-- Nothing has come to the server between the states. -/
def Rests : Prop := conn.Same s.outside.network t.outside.network

instance : IsPreorder (State (Reach ν)) conn.Rests where
  refl s := refl_of conn.Same s.outside.network
  trans _ _ _ h h' := trans_of conn.Same h h'

/-- Nothing has come to the server, and all modules have stayed. -/
def Unseen : Prop := State.Keeps s t ∧ conn.Rests s t

instance : IsPreorder (State (Reach ν)) conn.Unseen where
  refl s := ⟨refl_of State.Keeps s, refl_of conn.Rests s⟩
  trans _ _ _ h h' := ⟨trans_of State.Keeps h.1 h'.1, trans_of conn.Rests h.2 h'.2⟩

variable (start : State (Reach ν))

/-- So far the server lacked the module for all requests that came, and it is ready for the next one. -/
structure Waits (dep : Deployment) (name hash : String) (s : State (Reach ν)) : Prop where
  domain : s.domain = start.domain
  ready : (conn.server s.outside.network).Ready dep name hash
  came : ∃ lacking, conn.came s.outside.network = conn.came start.outside.network ++ lacking ∧
    ∀ p ∈ lacking, conn.moves p = []

/-- The last request that came ran the method, the ones before it ran nothing. -/
def Ran (t : Target Datum) (client : String) (s : State (Reach ν)) : Prop :=
  ∃ lacking p, conn.came s.outside.network = conn.came start.outside.network ++ lacking ++ [p] ∧
    (∀ q ∈ lacking, conn.moves q = []) ∧ t.RunsOnce client (conn.moves p)

/-- The method has run for the last request, and of the properties those come back that the closure carries. -/
structure Returned (t : Target Datum) (client : String) (closure : Closure) (vs : List (Variable Datum))
    (s : State (Reach ν)) : Prop where
  domain : s.domain = start.domain
  ran : conn.Ran start t client s
  carried : ∀ v ∈ vs, closure.Carries t.type.fullName v

/-- What an answer says of a request. -/
def Answered (dep : Deployment) (name hash : String) (t : Target Datum) (client : String) (closure : Closure) :
    Except Error (Answer Datum) → State (Reach ν) → Prop
  | .ok (.completed _ vs) => conn.Returned start t client closure vs
  | .ok .moduleUnknown => conn.Waits start dep name hash
  | .ok (.fault _) => fun _ => True
  | .error _ => conn.Waits start dep name hash

/-- What becomes of an attempt at a call. -/
def Attempted (dep : Deployment) (name hash : String) (t : Target Datum) (client : String) (closure : Closure) :
    Except Error (CallResult Datum) → State (Reach ν) → Prop
  | .ok (.executed _ vs) => conn.Returned start t client closure vs
  | .ok _ => conn.Waits start dep name hash
  | .error e => fun s => e.isFinal = true ∨ conn.Waits start dep name hash s

variable {conn start} {dep : Deployment} {name hash : String} {s : State (Reach ν)}

theorem Waits.moved (h : conn.Waits start dep name hash s) {x : Reach ν}
    (hx : conn.Same s.outside.network x.network) : conn.Waits start dep name hash { s with outside := x } where
  domain := h.domain
  ready := hx.1 ▸ h.ready
  came := hx.2 ▸ h.came

theorem Ran.rests {t : Target Datum} {client : String} {u : State (Reach ν)} (h : conn.Ran start t client s)
    (hu : conn.Rests s u) : conn.Ran start t client u := by
  unfold Ran
  rw [hu.2]
  exact h

theorem Attempted.moved {t : Target Datum} {client : String} {closure : Closure} {result : CallResult Datum}
    (h : conn.Attempted start dep name hash t client closure (.ok result) s) {x : Reach ν}
    (hx : conn.Same s.outside.network x.network) :
    conn.Attempted start dep name hash t client closure (.ok result) { s with outside := x } := by
  cases result with
  | executed v vs => exact ⟨h.domain, h.ran.rests hx, h.carried⟩
  | disabled | moduleMissing => exact Waits.moved h hx

end Connection

/-- A host with the standard native methods and no resolver brings nothing to the server. -/
theorem Connection.unseen_of_standard {ν : Type} (conn : Connection ν) {host : Host (Reach ν)} {thread : Option String}
    (h : host.natives = Native.standard thread) (hresolver : host.resolver = none) :
    host.Respects True conn.Unseen where
  data s d hmodules htypes htables := ⟨fun m l hd => hd.congr hmodules htypes htables, refl_of conn.Same _⟩
  loads s bytes path l d hd :=
    ⟨(host.keepsModules_of_standard h).respects.loads s bytes path l d hd, refl_of conn.Same _⟩
  resolver resolve hresolve := by
    rw [hresolver] at hresolve
    cases hresolve
  natives type method native hfound args s r t hr hcounts := by
    rw [host.unchanged_of_standard h type method native hfound args s r t hr hcounts]
    exact refl_of conn.Unseen t

theorem Error.isFinal_ofFault (f : Fault) : (ofFault f).isFinal = true := by
  unfold ofFault
  split <;> rfl

/-! ## Requests -/

theorem Target.Requested.outward {ω : Type} {t : Target Datum} {dep : Deployment} {name : String} {closure : Closure}
    {r : Request Value} (hr : t.Requested dep name closure r) {heap : Heap} {sent : Request Datum} {x y : ω}
    (h : (r.outward heap : Run ω (Request Datum)) x = some (.ok sent, y)) :
    t.Requested dep name closure sent ∧ sent.hash = r.hash := by
  obtain ⟨hmode, htype, hmethod, harguments⟩ := Request.outward_eq h
  have hcarried : (r.outward heap : Run ω (Request Datum)).Ensures x fun sent _ => sent.file = r.file ∧
      sent.hash = r.hash ∧ sent.upload = r.upload ∧ ∀ v ∈ sent.nonLocals, closure.Carries r.type v := by
    unfold Request.outward Request.traverse
    refine .after fun _ z => (Closure.Carries.traverse hr.carried z).bind fun vs _ hvs => .pure ⟨rfl, rfl, rfl, hvs⟩
  obtain ⟨hfile, hhash, hupload, hvs⟩ := hcarried _ _ h
  exact ⟨⟨hfile.trans hr.file, hmode.trans hr.mode, htype.trans hr.type, hmethod.trans hr.method,
    harguments.length_eq.symm.trans hr.full, htype ▸ hvs, hupload ▸ hr.upload⟩, hhash⟩

/-! ## Attempts -/

namespace Client
variable {ν : Type} {c : Client ν} {Q : Except Error Unit → State (Reach ν) → Prop}

theorem onNetwork_yields {α : Type} {x : Run ν α} {s : State (Reach ν)} {Q : Except Error α → State (Reach ν) → Prop}
    (h : ∀ r y, x s.outside.network = some (r, y) → Q r { s with outside := { s.outside with network := y } }) :
    (onNetwork x).Yields s Q := by
  intro r t hr
  simp only [onNetwork, onReach, State.onOutside, Run.zoom] at hr
  rcases hx : x s.outside.network with _ | ⟨a, y⟩
  · rw [hx] at hr
    cases hr
  · rw [hx] at hr
    cases hr
    exact h _ _ hx

theorem onChannel_yields {α : Type} {endpoint : String} {x : Run ν α} {s : State (Reach ν)}
    {Q : Except Error α → State (Reach ν) → Prop} (h : ∀ r y, x s.outside.network = some (r, y) →
      Q (r.mapError (asTransport endpoint)) { s with outside := { s.outside with network := y } }) :
    (onChannel endpoint x).Yields s Q := by
  unfold onChannel
  refine (onNetwork_yields (Q := fun r u => Q (r.mapError (asTransport endpoint)) u) h).attempt_bind fun r u hu => ?_
  cases r with
  | ok a => exact .pure hu
  | error e => exact .throw hu

theorem freshId_yields (conn : Connection ν) (s : State (Reach ν)) : (freshId : Calling ν Uuid).Yields s fun r t =>
    (∃ id, r = .ok id) ∧ ∃ x, conn.Same s.outside.network x.network ∧ t = { s with outside := x } := by
  intro r t h
  cases h
  exact ⟨⟨_, rfl⟩, { s.outside with nextId := s.outside.nextId + 1 }, refl_of conn.Same _, rfl⟩

/-- Sends one request. -/
def send (c : Client ν) (channel : c.transport.Channel) (r : Request Value) : Calling ν (CallResult Datum) := do
  let heap ← State.getHeap
  let answer ← onChannel (c.transport.endpoint channel) (c.transport.exchange channel heap r c.settings.deadline)
  Run.ofExcept answer.toCallResult

theorem exchange_eq (channel : c.transport.Channel) (r : Request Value) (l : LoadedModule) : c.exchange channel r l = (do
    let result ← c.send channel r
    if result.isModuleMissing then c.send channel { r with id := ← freshId, upload := some l.bytes }
    else return result) := rfl

/-- What becomes of a channel when the exchange on it is over. -/
def settle (c : Client ν) (endpoint : String) (channel : c.transport.Channel) :
    Except Error (CallResult Datum) → Calling ν (CallResult Datum)
  | .error e => do
    onNetwork (modify fun n => (c.transport.abort channel n).2)
    throw e
  | .ok result => do
    let _ ← onChannel endpoint (c.transport.close channel)
    return result

/-- An attempt once its channel has been made. -/
def attemptOn (c : Client ν) (r : Request Value) (l : LoadedModule) (endpoint : String) (made : c.transport.Channel) :
    Calling ν (CallResult Datum) := do
  match ← Run.attempt (onChannel (c.transport.endpoint made) (c.transport.start made)) with
  | .error e => c.settle endpoint made (.error e)
  | .ok channel => Run.attempt (c.exchange channel r l) >>= c.settle endpoint channel

theorem attempt_eq (c : Client ν) (r : Request Value) (l : LoadedModule) (endpoint : String) :
    c.attempt r l endpoint = onNetwork (c.transport.connect endpoint) >>= c.attemptOn r l endpoint := rfl

section Calls
variable {boundary : Boundary} {digest : DigestAlgorithm} {m : Module Datum} {dependencies : List (Module Datum)}
  {dep : Deployment} (hmake : Deployment.make? boundary digest m dependencies = .ok (some dep)) {t : Target Datum}
  (ht : t ∈ m.targets) (halone : t.Alone) (hvalid : m.Valid) (hwords : m.Addressable)
  (hrelay : t.Undirected) {conn : Connection ν}
  (hconn : conn.Faultless c.transport) {closure : Closure} {start s : State (Reach ν)} {r : Request Value}
  (hr : t.Requested dep m.name closure r) (hs : conn.Waits start dep m.name r.hash s)

include hmake ht halone hvalid hwords hrelay hconn hr hs

theorem send_yields (channel : c.transport.Channel) : (c.send channel r).Yields s
    (conn.Attempted start dep m.name r.hash t boundary.clientType closure) := by
  unfold send
  refine Run.Yields.get_bind (Run.Yields.bind (P := conn.Answered start dep m.name r.hash t boundary.clientType closure)
    (onChannel_yields fun a y ha => ?_) (fun a u hu => ?_) fun e u hu => .inr hu)
  · rcases hconn.exchange _ _ _ _ _ _ _ ha with ⟨⟨e, rfl⟩, hsame⟩ | ⟨sent, z, found, rfl, hsent, hanswer, hcame⟩
    · exact hs.moved (x := { s.outside with network := y }) hsame
    obtain ⟨hrequested, hhash⟩ := hr.outward hsent
    obtain ⟨hserved, hback⟩ := Server.answer_ensures hmake ht halone hrequested hvalid hwords hrelay
      (hhash ▸ hs.ready) conn.budget conn.thread _ _ hanswer
    obtain ⟨lacking, hlacking, hnone⟩ := hs.came
    have hnew : conn.came y = conn.came start.outside.network ++ lacking ++ [(sent, conn.server s.outside.network)] :=
      hcame.trans (congrArg (· ++ _) hlacking)
    cases found with
    | completed result vs =>
      exact ⟨hs.domain, ⟨lacking, _, hnew, hnone, hserved⟩, hrequested.type ▸ hback⟩
    | moduleUnknown =>
      obtain ⟨hmoves, hready⟩ := hserved
      refine ⟨hs.domain, hhash ▸ hready, lacking ++ [(sent, conn.server s.outside.network)], ?_, ?_⟩
      · exact hnew.trans (List.append_assoc _ _ _)
      · exact List.forall_mem_append.mpr ⟨hnone, List.forall_mem_singleton.mpr hmoves⟩
    | fault f => trivial
  · cases a with
    | completed result vs => exact .pure hu
    | moduleUnknown => exact .pure hu
    | fault f => exact .throw (.inl (Error.isFinal_ofFault f))

variable {l : LoadedModule} (hbytes : ∀ n, Module.ofFile l.bytes = .ok n → dep.Owns n)
include hbytes

theorem exchange_yields (channel : c.transport.Channel) : (c.exchange channel r l).Yields s
    (conn.Attempted start dep m.name r.hash t boundary.clientType closure) := by
  rw [exchange_eq]
  refine (send_yields hmake ht halone hvalid hwords hrelay hconn hr hs channel).bind ?_ fun e u hu => hu
  rintro (_ | _ | ⟨result, vs⟩) u hu
  · exact .pure hu
  · refine (freshId_yields conn u).bind (fun id w hw => ?_) fun e w hw => nomatch hw.1
    obtain ⟨_, x, hx, rfl⟩ := hw
    have hw := hu.moved hx
    refine send_yields hmake ht halone hvalid hwords hrelay hconn (r := { r with id, upload := some l.bytes }) ?_ hw channel
    exact { hr with upload := fun bytes hfound n hn => hbytes n (Option.some.inj hfound ▸ hn) }
  · exact .pure hu

theorem attempt_yields (endpoint : String) : (c.attempt r l endpoint).Yields s
    (conn.Attempted start dep m.name r.hash t boundary.clientType closure) := by
  -- after a failure the channel is aborted
  have haborts (channel : c.transport.Channel) (e : Error) {u : State (Reach ν)}
      (hu : e.isFinal = true ∨ conn.Waits start dep m.name r.hash u) :
      (onNetwork (modify fun n => (c.transport.abort channel n).2) >>= fun _ => MonadExcept.throw e :
        Calling ν (CallResult Datum)).Yields u
          (conn.Attempted start dep m.name r.hash t boundary.clientType closure) := by
    refine Run.Yields.bind (P := fun a w => (∃ x, a = .ok x) ∧ (e.isFinal = true ∨ conn.Waits start dep m.name r.hash w))
      (onNetwork_yields fun a y ha => ?_) (fun _ w hw => .throw hw.2) fun e' w hw => nomatch hw.1
    cases ha
    exact ⟨⟨_, rfl⟩, hu.imp_right fun hwaits => hwaits.moved (hconn.abort channel _)⟩
  unfold attempt
  refine Run.Yields.bind (P := fun _ => conn.Waits start dep m.name r.hash)
    (onNetwork_yields fun a y ha => hs.moved (hconn.connect _ _ _ _ ha)) (fun channel u hu => ?_) fun e u hu => .inr hu
  refine Run.Yields.attempt_bind (P := fun _ => conn.Waits start dep m.name r.hash)
    (onChannel_yields fun a y ha => hu.moved (hconn.start _ _ _ _ ha)) fun a w hw => ?_
  cases a with
  | error e => exact haborts channel e (.inr hw)
  | ok channel =>
    refine (exchange_yields hmake ht halone hvalid hwords hrelay hconn hr hw hbytes channel).attempt_bind fun a w hw => ?_
    cases a with
    | error e => exact haborts channel e hw
    | ok result =>
      refine Run.Yields.bind (P := fun a u => (∃ closed, a = .ok closed) ∧
        conn.Attempted start dep m.name r.hash t boundary.clientType closure (.ok result) u)
        (onChannel_yields fun a y ha => ?_) (fun _ u hu => .pure hu.2) fun e u hu => nomatch hu.1
      obtain ⟨⟨closed, rfl⟩, hsame⟩ := hconn.close _ _ _ _ ha
      exact ⟨⟨closed, rfl⟩, hw.moved (x := { w.outside with network := y }) hsame⟩

theorem recover_yields (endpoint : String) :
    (c.recovery.recover (fun d => onNetwork (c.transport.wait d)) endpoint (c.attempt r l)).Yields s
      (conn.Attempted start dep m.name r.hash t boundary.clientType closure) := by
  refine Recovery.recover_yields (W := conn.Waits start dep m.name r.hash) ?_ ?_ ?_ ?_ _ _ hs
  · exact fun endpoint u hu => attempt_yields hmake ht halone hvalid hwords hrelay hconn hr hu hbytes endpoint
  · exact fun e u hu hfinal => hu.resolve_left (by rw [hfinal]; exact Bool.false_ne_true)
  · exact fun e u hu => .inr hu
  · exact fun d u hu => onNetwork_yields fun a y ha => hu.moved (hconn.wait _ _ _ _ ha)

end Calls
end Client

/-! ## Dispatches -/

theorem Host.Respects.mono {ω : Type} {failing : Prop} {host : Host ω} {K K' : State ω → State ω → Prop}
    (h : host.Respects failing K) (hK : ∀ s t, K s t → K' s t) : host.Respects failing K' where
  data s d hmodules htypes htables := hK _ _ (h.data s d hmodules htypes htables)
  loads s bytes path l d hd := hK _ _ (h.loads s bytes path l d hd)
  resolver resolve hresolve name s r t hr hcounts := hK _ _ (h.resolver resolve hresolve name s r t hr hcounts)
  natives type method native hnative args s r t hr hcounts :=
    hK _ _ (h.natives type method native hnative args s r t hr hcounts)

/-- The call that a dispatch of the method asks the client for. -/
def Target.serviceCall (t : Target Datum) (client : String) (receiver : Option Ref) (args : List Value) : ServiceCall :=
  let site := t.method.callSite client t.type.fullName
  ⟨site.mode, site.onMainThread, none, site.method, receiver, args⟩

/-- The hash that the client knows a module by. -/
def Client.hashOf {ν : Type} (c : Client ν) (s : State (Reach ν)) (l : LoadedModule) : String :=
  (s.outside.hashes.find? l.name).getD (c.settings.digest.digest l.bytes)

/-- The values that come back become values of the domain, on its heap. -/
theorem CallResult.instantiate_ensures {ω : Type} (closure : Closure) (type : String) (result : CallResult Datum)
    (s : State ω) : (result.traverse State.instantiate).Ensures s fun found x => found.isExecuted = true →
      ∃ v vs h, result = .executed v vs ∧ x = s.withHeap h ∧
        ((∀ v ∈ vs, closure.Carries type v) → ∀ w ∈ found.nonLocals, closure.Carries type w) := by
  cases result with
  | disabled | moduleMissing => exact .pure fun h => nomatch h
  | executed v vs =>
    have hvalue : (State.instantiate v).Ensures s fun _ x => ∃ h, x = s.withHeap h := by
      intro w x h
      cases h
      exact ⟨_, rfl⟩
    refine hvalue.bind ?_
    rintro w _ ⟨h, rfl⟩
    obtain ⟨ws, k, _, hws⟩ := State.mapM_instantiate_variables vs (s.withHeap h)
    have hvariables : (vs.mapM (·.traverse State.instantiate) : Run (State ω) _).Ensures (s.withHeap h) fun found x =>
        x = s.withHeap k ∧ ((∀ v ∈ vs, closure.Carries type v) → ∀ w ∈ found, closure.Carries type w) := by
      intro found x hfound
      refine ⟨?_, fun hvs => Closure.Carries.traverse hvs _ _ _ hfound⟩
      cases hws.symm.trans hfound
      rfl
    exact hvariables.bind fun found x hx => .pure fun _ => ⟨v, vs, k, rfl, hx.1, hx.2⟩

/-- The state that a request takes along. -/
def Client.captured {ν : Type} (host : Host (Reach ν)) (run : Runner (Reach ν)) (call : ServiceCall)
    (target : MethodHandle) : Calling ν (List (Variable Value)) :=
  match call.mode, target.decl.closure with
  | .normal, some closure => Transfer.capture host run call.method.owner.fullName closure call.receiver
  | _, _ => pure []

theorem Client.request_eq_captured {ν : Type} (c : Client ν) (host : Host (Reach ν)) (run : Runner (Reach ν))
    (call : ServiceCall) (target : MethodHandle) : c.request host run call target = (do
      let hash ← c.moduleHash target.module
      let nonLocals ← captured host run call target
      let params := (target.decl.params.zip call.args).map fun (p, v) =>
        ({ kind := .parameter, name := p.name, type := p.type, value := v } : Variable Value)
      let endpoint ← Run.ofExcept (c.endpoint call)
      let id ← freshId
      return (endpoint, { id, mode := call.mode, onMainThread := call.onMainThread,
                          file := target.module.name, hash, type := call.method.owner.fullName,
                          method := call.method.name, params, nonLocals })) := by
  obtain ⟨mode, onMainThread, chosen, method, receiver, args⟩ := call
  cases mode <;> cases hclosure : target.decl.closure <;> simp only [request, captured, hclosure]

section Dispatches
variable {ν : Type} {c : Client ν} {boundary : Boundary} {digest : DigestAlgorithm} {m : Module Datum}
  {dependencies : List (Module Datum)} {dep : Deployment}
  (hmake : Deployment.make? boundary digest m dependencies = .ok (some dep)) {t : Target Datum} (ht : t ∈ m.targets)
  (halone : t.Alone) {l : LoadedModule} {u : TypeDecl Value} (hu : l.code.types[t.typeIndex]? = some u)
  {e : MethodDecl Value} (he : u.methods[t.methodIndex]? = some e) {s : State (Reach ν)} (hl : s.domain.Has dep.client l)
  {host : Host (Reach ν)}
include hmake ht halone hu he hl

/-- The dispatched method is found. -/
theorem Host.resolveMethod_alone : (host.resolveMethod (t.method.reference ⟨none, t.type.fullName⟩)).Ensures s
    fun found s' => found = ⟨l, u, e⟩ ∧ s' = s := by
  obtain ⟨⟨htype, _⟩, _⟩ := Module.mem_targets.mp ht
  obtain ⟨hname, _⟩ := Deployment.loaded_methods hmake (.inl rfl) hl.shape htype hu
  have hmem := List.mem_of_getElem? hu
  intro found s' h
  rw [resolveMethod, Run.bind_apply, resolveType_found (hname ▸ hl.types u hmem)] at h
  cases hd : u.method? t.method.name t.method.paramTypes with
  | none =>
    simp only [MethodDecl.reference, TypeHandle.method?, hd] at h
    cases h
  | some d =>
    simp only [MethodDecl.reference, TypeHandle.method?, hd] at h
    cases h
    obtain ⟨hdmem, hdname, _⟩ := TypeDecl.method?_eq_some hd
    have hd' := Deployment.loadedAlone hmake (.inl rfl) ht halone hl.shape hu hdmem hdname
    obtain rfl := Option.some.inj (he.symm.trans hd')
    exact ⟨rfl, rfl⟩

variable {conn : Connection ν} (hhost : host.Respects True conn.Unseen) {run run' : Runner (Reach ν)}
  (hrun : ∀ f, (e.closure.getD {}).Accesses l u f →
    Run.Twins (fun x => x.domain.Has dep.client l) conn.Rests (run f) (run' f))
  {receiver : Option Ref} {args : List Value} (hargs : args.length = t.method.params.length)
include hhost hrun hargs

omit halone in
theorem Client.request_alike : Run.Alike
    (c.request host run (t.serviceCall boundary.clientType receiver args) ⟨l, u, e⟩)
    (c.request host run' (t.serviceCall boundary.clientType receiver args) ⟨l, u, e⟩) s fun p x =>
      (x.domain.Has dep.client l ∧ conn.Rests s x) ∧
        t.Requested dep m.name (e.closure.getD {}) p.2 ∧ p.2.hash = c.hashOf s l := by
  obtain ⟨⟨htype, _⟩, _⟩ := Module.mem_targets.mp ht
  obtain ⟨hname, _⟩ := Deployment.loaded_methods hmake (.inl rfl) hl.shape htype hu
  obtain ⟨_, _, _, hparams⟩ := Deployment.main_alike hmake (.inl rfl) hl.shape ht hu he
  have hK : host.Respects True (State.Within (fun x => x.domain.Has dep.client l) conn.Rests) :=
    hhost.mono fun x y hxy hx => ⟨hxy.1 _ _ hx, hxy.2⟩
  have hI : ∀ x : State (Reach ν), x.domain.Has dep.client l → x.domain.type? u.fullName = some ⟨l, u⟩ :=
    fun x hx => hx.types u (List.mem_of_getElem? hu)
  have hhash : (c.moduleHash l).Ensures s fun hash x => (x.domain = s.domain ∧ conn.Rests s x) ∧ hash = c.hashOf s l := by
    intro hash x h
    unfold moduleHash at h
    rw [Run.get_bind] at h
    unfold hashOf
    cases hknown : s.outside.hashes.find? l.name with
    | some known =>
      simp only [hknown] at h
      cases h
      exact ⟨⟨rfl, refl_of conn.Rests s⟩, rfl⟩
    | none =>
      simp only [hknown] at h
      cases h
      exact ⟨⟨rfl, refl_of conn.Same _⟩, rfl⟩
  have hstate {x : State (Reach ν)} (hx : x.domain.Has dep.client l) : Run.Alike
      (captured host run (t.serviceCall boundary.clientType receiver args) ⟨l, u, e⟩)
      (captured host run' (t.serviceCall boundary.clientType receiver args) ⟨l, u, e⟩) x fun vs y =>
        (y.domain.Has dep.client l ∧ conn.Rests x y) ∧ ∀ v ∈ vs, (e.closure.getD {}).Carries t.type.fullName v := by
    unfold captured
    split
    · rename_i closure _ hclosure
      replace hclosure : e.closure = some closure := hclosure
      show Run.Alike (Transfer.capture host run t.type.fullName closure receiver)
        (Transfer.capture host run' t.type.fullName closure receiver) x _
      rw [hclosure] at hrun ⊢
      rw [← hname]
      exact (Run.Alike.of_twins (Transfer.capture_twins hK.guards hI hrun receiver) hx).and Transfer.capture_ensures
    · exact .of_ensures (.pure ⟨⟨hx, refl_of conn.Rests x⟩, by simp⟩)
  rw [request_eq_captured, request_eq_captured]
  refine Run.Alike.bind (.of_ensures hhash) ?_
  rintro hash x ⟨⟨hdomain, hrests⟩, rfl⟩
  refine Run.Alike.bind (hstate (hdomain ▸ hl)) ?_
  rintro vs y ⟨⟨hhas, hrests'⟩, hcarried⟩
  refine .of_ensures (.ofExcept_bind fun endpoint _ => ?_)
  refine (freshId_yields conn y).ensures.bind ?_
  rintro id z ⟨_, o, hsame, rfl⟩
  have hrests'' : conn.Rests y { y with outside := o } := hsame
  refine .pure ⟨⟨hhas, ?_⟩, ?_, rfl⟩
  · exact trans_of conn.Rests hrests (trans_of conn.Rests hrests' hrests'')
  · refine ⟨?_, rfl, rfl, rfl, ?_, hcarried, fun _ h => nomatch h⟩
    · exact hl.name.trans (Deployment.owned_name hmake (.inl rfl))
    · simp only [Request.arguments, List.length_map, List.length_zip]
      show min e.params.length args.length = _
      omega

variable (hvalid : m.Valid) (hwords : m.Addressable) (hrelay : t.Undirected)
  (hconn : conn.Faultless c.transport) (hready : (conn.server s.outside.network).Ready dep m.name (c.hashOf s l))
  (hbytes : ∀ n, Module.ofFile l.bytes = .ok n → dep.Owns n)
include hvalid hwords hrelay hconn hready hbytes

/-- A call that is executed ran the method once, for the last request that came to the server. It uses the code
of the client's domain for the accessors of carried properties only. -/
theorem Client.call_alike : Run.Alike (c.call host run (t.serviceCall boundary.clientType receiver args))
    (c.call host run' (t.serviceCall boundary.clientType receiver args)) s fun result x =>
      result.isExecuted = true → conn.Ran s t boundary.clientType x := by
  obtain ⟨⟨htype, _⟩, _⟩ := Module.mem_targets.mp ht
  obtain ⟨hname, _⟩ := Deployment.loaded_methods hmake (.inl rfl) hl.shape htype hu
  have hK : host.Respects True (State.Within (fun x => x.domain.Has dep.client l) conn.Rests) :=
    hhost.mono fun x y hxy hx => ⟨hxy.1 _ _ hx, hxy.2⟩
  have hI : ∀ x : State (Reach ν), x.domain.Has dep.client l → x.domain.type? u.fullName = some ⟨l, u⟩ :=
    fun x hx => hx.types u (List.mem_of_getElem? hu)
  unfold call
  split
  · exact .of_ensures (.pure fun h => nomatch h)
  refine Run.Alike.bind (.of_ensures (Host.resolveMethod_alone hmake ht halone hu he hl)) ?_
  rintro found s' ⟨rfl, rfl⟩
  refine Run.Alike.bind (request_alike hmake ht hu he hl hhost hrun hargs) ?_
  rintro ⟨endpoint, r⟩ x ⟨⟨hhas, hrests⟩, hr, hhash⟩
  have hwaits : conn.Waits x dep m.name r.hash x :=
    ⟨rfl, by rw [hhash, hrests.1]; exact hready, [], (List.append_nil _).symm, by simp⟩
  refine Run.Alike.bind (.of_ensures (recover_yields hmake ht halone hvalid hwords hrelay hconn hr hwaits hbytes
    endpoint).ensures) fun result y hy => ?_
  refine Run.Alike.bind (.of_ensures
    (CallResult.instantiate_ensures (e.closure.getD {}) t.type.fullName result y)) fun back z hz => ?_
  have hback (hexecuted : back.isExecuted = true) : (z.domain.Has dep.client l ∧ conn.Ran s' t boundary.clientType z) ∧
      ∀ w ∈ back.nonLocals, (e.closure.getD {}).Carries u.fullName w := by
    obtain ⟨v, vs, h, rfl, rfl, hcarried⟩ := hz hexecuted
    obtain ⟨hdomain, hran, hvs⟩ := hy
    refine ⟨⟨Domain.Has.withHeap ?_ h, ?_⟩, hname ▸ hcarried hvs⟩
    · rw [hdomain]
      exact hhas
    · unfold Connection.Ran
      rw [← hrests.2]
      exact hran
  split
  · rename_i hnormal
    obtain ⟨⟨hthere, hran⟩, hcarried⟩ := hback hnormal.2
    refine Run.Alike.bind (.of_twins (Transfer.apply_twins hK.guards hI hrun receiver hcarried) hthere) fun _ w hw => ?_
    exact .of_ensures (.pure fun _ => hran.rests hw.2)
  · exact .of_ensures (.pure fun hexecuted => (hback hexecuted).1.2)

theorem Client.dispatch_alike : Run.Alike
    (c.dispatcher.dispatch host run (t.method.callSite boundary.clientType t.type.fullName) receiver args)
    (c.dispatcher.dispatch host run' (t.method.callSite boundary.clientType t.type.fullName) receiver args) s
    fun outcome x => ∀ w, outcome = .executed w → conn.Ran s t boundary.clientType x := by
  unfold dispatcher
  dsimp only
  split
  · exact .of_ensures (.pure fun w h => nomatch h)
  refine Run.Alike.bind (call_alike hmake ht halone hu he hl hhost hrun hargs hvalid hwords hrelay hconn hready hbytes)
    fun result x hx => ?_
  split
  · rename_i w hw
    refine .of_ensures (.pure fun _ _ => hx ?_)
    cases result <;> cases hw
    rfl
  · exact .of_ensures .throw

end Dispatches

end MobileCode
