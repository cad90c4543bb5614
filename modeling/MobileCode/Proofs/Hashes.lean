import MobileCode.Proofs.Histories

/-! # The hashes that requests name

A client computes the hash of a module once for each name. So the requests that it sends name the code that they come
from, by whatever calls inside of calls, if the domains that it is used in agree on the version of each module.
-/
namespace MobileCode

/-! ## Requests that are sent -/

/-- A network with the requests that were handed to it, the last one first. -/
structure Recorded (ν : Type) where
  network : ν
  sent : List (Request Value) := []

section
variable {ν : Type}

namespace Recorded

def onNetwork {α : Type} (x : Run ν α) : Run (Recorded ν) α :=
  Run.zoom (·.network) (fun network x => { x with network }) x

/-- The transport with each request recorded that is handed to it. -/
def transport (t : Transport ν) : Transport (Recorded ν) where
  Channel := t.Channel
  connect endpoint := onNetwork (t.connect endpoint)
  endpoint := t.endpoint
  start c := onNetwork (t.start c)
  exchange c heap r limit := do
    modify fun x => { x with sent := r :: x.sent }
    onNetwork (t.exchange c heap r limit)
  close c := onNetwork (t.close c)
  abort c x := ((t.abort c x.network).1, { x with network := (t.abort c x.network).2 })
  wait d := onNetwork (t.wait d)

end Recorded

/-- The same client, on a network that records its requests. -/
def Client.recorded (c : Client ν) : Client (Recorded ν) where
  settings := c.settings
  recovery := c.recovery
  clientType := c.clientType
  transport := Recorded.transport c.transport

/-- The request names the module, which declares the method that it is for, by name and by hash. If it takes a module
along, then it is this one. -/
structure Request.Names (r : Request Value) (l : LoadedModule) (algorithm : DigestAlgorithm) (d : Domain) : Prop where
  module : d.module? r.file = some l
  method : ∃ u, d.type? r.type = some ⟨l, u⟩ ∧ ∃ e ∈ u.methods, e.name = r.method
  hash : r.hash = algorithm.digest l.bytes
  upload : ∀ bytes, r.upload = some bytes → bytes = l.bytes

theorem Request.Names.of_gains {r : Request Value} {l : LoadedModule} {algorithm : DigestAlgorithm} {d e : Domain}
    (h : r.Names l algorithm d) (hde : d.Gains e) : r.Names l algorithm e := by
  obtain ⟨u, hu, hmethod⟩ := h.method
  exact ⟨hde.modules _ _ h.module, ⟨u, hde.types _ _ hu, hmethod⟩, h.hash, h.upload⟩

/-- The modules that are loaded are those versions. -/
def Domain.HasVersions (d : Domain) (versions : String → Bytes) : Prop :=
  ∀ name l, d.module? name = some l → l.bytes = versions name

theorem Domain.HasVersions.of_gains {d e : Domain} {versions : String → Bytes} (h : e.HasVersions versions)
    (hde : d.Gains e) : d.HasVersions versions := fun name l hl => h name l (hde.modules name l hl)

/-- The state of a client that records its requests. -/
abbrev Recording (ν : Type) := State (Reach (Recorded ν))

/-- Neither a request is sent nor a hash computed, and what was loaded stays. -/
structure State.Silent (s t : Recording ν) : Prop where
  gains : s.domain.Gains t.domain
  hashes : t.outside.hashes = s.outside.hashes
  sent : t.outside.network.sent = s.outside.network.sent

theorem State.Silent.of_same {s t : Recording ν} (hdomain : t.domain = s.domain)
    (hhashes : t.outside.hashes = s.outside.hashes) (hsent : t.outside.network.sent = s.outside.network.sent) :
    s.Silent t := ⟨hdomain ▸ .refl s.domain, hhashes, hsent⟩

/-- A host with the standard native methods and no resolver sends nothing. -/
theorem Host.silent_of_standard {host : Host (Reach (Recorded ν))} {thread : Option String}
    (h : host.natives = Native.standard thread) (hresolver : host.resolver = none) :
    host.Respects True State.Silent where
  data s d hmodules htypes _ := ⟨.of_same hmodules htypes, rfl, rfl⟩
  loads s bytes path l d hd := ⟨Domain.loadFile_gains hd, rfl, rfl⟩
  resolver resolve hresolve := by
    rw [hresolver] at hresolve
    cases hresolve
  natives type method native hfound args s r t hr hcounts := by
    rw [host.unchanged_of_standard h type method native hfound args s r t hr hcounts]
    exact .of_same rfl rfl rfl

theorem Run.Respects.mono {ω α : Type} {failing : Prop} {K K' : State ω → State ω → Prop} {x : Run (State ω) α}
    (h : x.Respects failing K) (hK : ∀ s t, K s t → K' s t) : x.Respects failing K' :=
  fun s r t hr hcounts => hK s t (h s r t hr hcounts)

section
variable {ω α : Type} {K : State ω → State ω → Prop} {x : Run (State ω) α}

theorem Run.Respects.of_yields (h : ∀ s, x.Yields s fun _ t => K s t) : x.Respects True K := fun s r t hr _ => h s r t hr

/-- The computation comes last of what was done since the state `s`. -/
theorem Run.Respects.since [IsPreorder (State ω) K] (h : x.Respects True K) {s t : State ω} (hst : K s t) :
    x.Yields t fun _ u => K s u := fun r u hr => trans_of K hst (h t r u hr (.inl trivial))

end

/-- A type that is found is in the index then. -/
theorem Host.resolveType_indexed {ω : Type} {host : Host ω} {s : State ω} (r : TypeRef) :
    (host.resolveType r).Ensures s fun owner t => t.domain.type? r.fullName = some owner := by
  unfold resolveType
  refine .get_bind ?_
  split
  · rename_i hfound
    exact .pure hfound
  split
  · exact .throw
  refine .get_bind ?_
  split
  · exact .throw
  refine .after fun found u => ?_
  split
  · refine .get_bind ?_
    split
    · rename_i hfound
      exact .pure hfound
    · exact .throw
  · exact .throw

/-- A method that is found is declared by the type of that name. -/
theorem Host.resolveMethod_declared {ω : Type} {host : Host ω} {s : State ω} (m : MethodRef) :
    (host.resolveMethod m).Ensures s fun target t => t.domain.type? m.owner.fullName =
      some ⟨target.module, target.owner⟩ ∧ target.decl ∈ target.owner.methods ∧ target.decl.name = m.name := by
  unfold resolveMethod
  refine (resolveType_indexed m.owner).bind fun owner t howner => ?_
  split
  · rename_i target htarget
    obtain ⟨d, hd, rfl⟩ := Option.map_eq_some_iff.mp htarget
    obtain ⟨hmem, hname, _⟩ := TypeDecl.method?_eq_some hd
    exact .pure ⟨howner, hmem, hname⟩
  · exact .throw

namespace Client

/-- The client can be used in the domain: it knows the hashes of the versions, if any. -/
structure Ready (c : Client ν) (versions : String → Bytes) (s : Recording ν) : Prop where
  indexed : s.domain.Indexed
  hashes : ∀ name hash, s.outside.hashes.find? name = some hash → hash = c.settings.digest.digest (versions name)

/-- Whatever was sent in between names the code that it comes from, if the domain has those versions. -/
structure Sends (c : Client ν) (versions : String → Bytes) (s t : Recording ν) : Prop where
  gains : s.domain.Gains t.domain
  named : t.domain.HasVersions versions → c.Ready versions s → c.Ready versions t ∧
    ∃ sent, t.outside.network.sent = sent ++ s.outside.network.sent ∧
      ∀ r ∈ sent, ∃ l, r.Names l c.settings.digest t.domain

variable {c : Client ν} {versions : String → Bytes} {s t u : Recording ν}

theorem Sends.of_silent (h : s.Silent t) : c.Sends versions s t := by
  refine ⟨h.gains, fun _ hs => ⟨⟨h.gains.indexed hs.indexed, ?_⟩, [], h.sent, by simp⟩⟩
  rw [h.hashes]
  exact hs.hashes

theorem Sends.trans (h : c.Sends versions s t) (h' : c.Sends versions t u) : c.Sends versions s u := by
  refine ⟨h.gains.trans h'.gains, fun hversions hs => ?_⟩
  obtain ⟨ht, sent, hsent, hnames⟩ := h.named (hversions.of_gains h'.gains) hs
  obtain ⟨hu, sent', hsent', hnames'⟩ := h'.named hversions ht
  refine ⟨hu, sent' ++ sent, by rw [hsent', hsent, List.append_assoc], fun r hr => ?_⟩
  rcases List.mem_append.mp hr with hr | hr
  · exact hnames' r hr
  · obtain ⟨l, hl⟩ := hnames r hr
    exact ⟨l, hl.of_gains h'.gains⟩

instance : IsPreorder (Recording ν) (c.Sends versions) where
  refl _ := .of_silent (.of_same rfl rfl rfl)
  trans _ _ _ := Sends.trans

/-! ## Attempts -/

/-- Since `s` nothing was sent amiss, and the request is one that may be sent. -/
structure Poised (c : Client ν) (versions : String → Bytes) (s : Recording ν) (r : Request Value) (l : LoadedModule)
    (t : Recording ν) : Prop where
  sends : c.Sends versions s t
  names : t.domain.HasVersions versions → c.Ready versions s → r.Names l c.settings.digest t.domain

/-- As poised as before. -/
def Keeps (c : Client ν) (versions : String → Bytes) (s : Recording ν) (r : Request Value) (l : LoadedModule)
    (t u : Recording ν) : Prop := c.Poised versions s r l t → c.Poised versions s r l u

section
variable {r : Request Value} {l : LoadedModule}

instance : IsPreorder (Recording ν) (c.Keeps versions s r l) where
  refl _ h := h
  trans _ _ _ h h' ht := h' (h ht)

theorem Keeps.of_silent (h : t.Silent u) : c.Keeps versions s r l t u := fun ht =>
  ⟨ht.sends.trans (.of_silent h), fun hversions hs => (ht.names (hversions.of_gains h.gains) hs).of_gains h.gains⟩

/-- The request is sent, or the same with the module. -/
theorem Keeps.of_sent {id : Uuid} {upload : Option Bytes} (hupload : upload = r.upload ∨ upload = some l.bytes)
    (hdomain : u.domain = t.domain) (hhashes : u.outside.hashes = t.outside.hashes)
    (hsent : u.outside.network.sent = { r with id, upload } :: t.outside.network.sent) :
    c.Keeps versions s r l t u := by
  intro ht
  refine ⟨⟨hdomain ▸ ht.sends.gains, fun hversions hs => ?_⟩, hdomain ▸ ht.names⟩
  rw [hdomain] at hversions
  have hr := ht.names hversions hs
  have hnames : Request.Names { r with id, upload } l c.settings.digest u.domain := by
    rw [hdomain]
    refine ⟨hr.module, hr.method, hr.hash, fun bytes hbytes => ?_⟩
    rcases hupload with hsame | hown
    · exact hr.upload bytes (hsame.symm.trans hbytes)
    · exact (Option.some.inj (hown.symm.trans hbytes)).symm
  obtain ⟨⟨hindexed, hknown⟩, before, hbefore, hall⟩ := ht.sends.named hversions hs
  refine ⟨⟨hdomain ▸ hindexed, hhashes ▸ hknown⟩, _ :: before, by rw [hsent, hbefore, List.cons_append], ?_⟩
  exact List.forall_mem_cons.mpr ⟨⟨l, hnames⟩, hdomain ▸ hall⟩

theorem onNetwork_silent {α : Type} (x : Run ν α) :
    (onNetwork (Recorded.onNetwork x) : Calling (Recorded ν) α).Respects True State.Silent := by
  intro s a t h _
  refine onNetwork_yields (Q := fun _ t => s.Silent t) (fun a y hy => ?_) a t h
  unfold Recorded.onNetwork Run.zoom at hy
  dsimp only at hy
  split at hy
  · cases hy
    exact .of_same rfl rfl rfl
  · cases hy

theorem freshId_silent : (freshId : Calling (Recorded ν) Uuid).Respects True State.Silent := by
  intro s a t h _
  cases h
  exact .of_same rfl rfl rfl

theorem onNetwork_keeps {α : Type} (x : Run ν α) :
    (onNetwork (Recorded.onNetwork x) : Calling (Recorded ν) α).Respects True (c.Keeps versions s r l) :=
  (onNetwork_silent x).mono fun _ _ => Keeps.of_silent

theorem channels_keep : c.recorded.Channels (c.Keeps versions s r l) r l where
  fresh := freshId_silent.mono fun _ _ => .of_silent
  start _ := onNetwork_keeps _
  exchange channel heap id upload hupload := by
    intro t a u h _
    refine onNetwork_yields (Q := fun _ u => c.Keeps versions s r l t u) (fun a y hy => ?_) a u h
    simp only [recorded, Recorded.transport, Run.bind_apply, Run.modify_apply, Recorded.onNetwork, Run.zoom] at hy
    split at hy
    · cases hy
      exact .of_sent hupload rfl rfl rfl
    · cases hy
  close _ := onNetwork_keeps _
  abort _ := by
    intro t a u h _
    cases h
    exact .of_silent (.of_same rfl rfl rfl)

theorem attempt_keeps (endpoint : String) :
    (c.recorded.attempt r l endpoint).Respects True (c.Keeps versions s r l) := by
  rw [attempt_eq]
  exact (onNetwork_keeps _).bind fun made => channels_keep.attemptOn_respects endpoint made

theorem recover_poised (endpoint : String) (ht : c.Poised versions s r l t) :
    (c.recorded.recovery.recover (fun d => onNetwork (c.recorded.transport.wait d)) endpoint
      (c.recorded.attempt r l)).Yields t fun _ => c.Poised versions s r l := by
  refine Recovery.recover_yields (W := c.Poised versions s r l) ?_ ?_ ?_ ?_ _ _ ht
  · exact fun endpoint u hu a v h => attempt_keeps endpoint u a v h (.inl trivial) hu
  · exact fun e u hu _ => hu
  · exact fun e u hu => hu
  · exact fun d u hu a v h => onNetwork_keeps _ u a v h (.inl trivial) hu

end

/-! ## Calls -/

section
variable {host : Host (Reach (Recorded ν))} (hhost : host.Respects True State.Silent)

theorem host_sends (c : Client ν) (versions : String → Bytes) (hhost : host.Respects True State.Silent) :
    host.Guards True (c.Sends versions) :=
  (hhost.mono fun _ _ => .of_silent).guards

/-- The hash of a version. -/
theorem moduleHash_yields (versions : String → Bytes) (l : LoadedModule) : (c.recorded.moduleHash l).Yields s fun outcome t =>
    t.domain = s.domain ∧ t.outside.network = s.outside.network ∧ ∃ hash, outcome = .ok hash ∧
      (c.Ready versions s → l.bytes = versions l.name → c.Ready versions t ∧ hash = c.settings.digest.digest l.bytes) := by
  intro outcome t h
  unfold moduleHash at h
  rw [Run.get_bind] at h
  cases hknown : s.outside.hashes.find? l.name with
  | some hash =>
    simp only [hknown] at h
    cases h
    exact ⟨rfl, rfl, hash, rfl, fun hs hbytes => ⟨hs, hbytes ▸ hs.hashes l.name hash hknown⟩⟩
  | none =>
    simp only [hknown] at h
    cases h
    refine ⟨rfl, rfl, _, rfl, fun hs hbytes => ⟨⟨hs.indexed, fun name hash h => ?_⟩, rfl⟩⟩
    replace h : (s.outside.hashes.insert l.name (c.settings.digest.digest l.bytes)).find? name = some hash := h
    rw [Dict.find?_insert] at h
    split at h
    · rename_i hname
      cases h
      rw [hname, hbytes]
    · exact hs.hashes name hash h

/-- The request for a call is one that may be sent. -/
theorem request_yields (hhost : host.Respects True State.Silent) {run : Runner (Reach (Recorded ν))}
    (hrun : ∀ f, (run f).Respects True (c.Sends versions)) {call : ServiceCall} {target : MethodHandle}
    (htype : s.domain.type? call.method.owner.fullName = some ⟨target.module, target.owner⟩)
    (hdecl : target.decl ∈ target.owner.methods) (hname : target.decl.name = call.method.name) :
    (c.recorded.request host run call target).Yields s fun outcome t =>
      c.Sends versions s t ∧ ∀ p, outcome = .ok p → c.Poised versions s p.2 target.module t := by
  have hK := host_sends c versions hhost
  have hhash : (c.recorded.moduleHash target.module).Yields s fun outcome t => c.Sends versions s t ∧
      ∃ hash, outcome = .ok hash ∧ (s.domain.HasVersions versions → c.Ready versions s →
        hash = c.settings.digest.digest target.module.bytes) := by
    intro outcome t h
    obtain ⟨hdomain, hnetwork, hash, rfl, hready⟩ := moduleHash_yields versions target.module outcome t h
    have hbytes (hversions : s.domain.HasVersions versions) (hs : c.Ready versions s) :
        target.module.bytes = versions target.module.name :=
      hversions _ _ (hs.indexed.owners _ _ htype).1
    refine ⟨⟨hdomain ▸ .refl s.domain, fun hversions hs => ?_⟩, hash, rfl, fun hversions hs => ?_⟩
    · rw [hdomain] at hversions
      exact ⟨(hready hs (hbytes hversions hs)).1, [], by rw [hnetwork, List.nil_append], by simp⟩
    · exact (hready hs (hbytes hversions hs)).2
  have hcaptured : (captured host run call target).Respects True (c.Sends versions) := by
    unfold captured
    split
    · exact Transfer.capture_respects hK hrun _ _ _
    · exact .pure _
  rw [request_eq_captured]
  refine hhash.bind ?_ fun e t ht => ⟨ht.1, by simp⟩
  rintro hash t ⟨hst, _, he, hhash⟩
  cases he
  refine (hcaptured.since hst).bind (fun nonLocals u hsu => ?_) fun e u hsu => ⟨hsu, by simp⟩
  refine ((Run.Respects.ofExcept _).since hsu).bind (fun endpoint v hsv => ?_) fun e v hsv => ⟨hsv, by simp⟩
  have hid : (freshId : Calling (Recorded ν) Uuid).Respects True (c.Sends versions) :=
    freshId_silent.mono fun _ _ => Sends.of_silent
  refine (hid.since hsv).bind (fun id w hsw => ?_) fun e w hsw => ⟨hsw, by simp⟩
  refine .pure ⟨hsw, fun p hp => ?_⟩
  cases hp
  refine ⟨hsw, fun hversions hs => ⟨?_, ?_, hhash (hversions.of_gains hsw.gains) hs, by simp⟩⟩
  · exact hsw.gains.modules _ _ (hs.indexed.owners _ _ htype).1
  · exact ⟨target.owner, hsw.gains.types _ _ htype, target.decl, hdecl, hname⟩

variable (hhost : host.Respects True State.Silent) {run : Runner (Reach (Recorded ν))}
  (hrun : ∀ f, (run f).Respects True (c.Sends versions))
include hhost hrun

/-- Whatever a call comes to, what it sent names the code that it comes from. -/
theorem call_sends (call : ServiceCall) : (c.recorded.call host run call).Respects True (c.Sends versions) := by
  have hK := host_sends c versions hhost
  unfold Client.call
  split
  · exact .pure _
  refine .of_yields fun s => ?_
  have hfound : (host.resolveMethod call.method).Yields s fun outcome t => c.Sends versions s t ∧
      ∀ target, outcome = .ok target → t.domain.type? call.method.owner.fullName = some ⟨target.module, target.owner⟩ ∧
        target.decl ∈ target.owner.methods ∧ target.decl.name = call.method.name := by
    intro outcome t h
    refine ⟨hK.resolveMethod _ s outcome t h (.inl trivial), ?_⟩
    rintro target rfl
    exact host.resolveMethod_declared call.method target t h
  refine hfound.bind ?_ fun e t ht => ht.1
  rintro target t ⟨hst, hdeclared⟩
  obtain ⟨htype, hdecl, hname⟩ := hdeclared target rfl
  refine (request_yields hhost hrun htype hdecl hname).bind ?_ fun e u hu => hst.trans hu.1
  rintro p u ⟨_, hp⟩
  refine (recover_poised p.1 (hp p rfl)).bind ?_ fun e v hv => hst.trans hv.sends
  intro result v hv
  -- what comes back is written onto the receiver
  refine Run.Respects.since ?_ (hst.trans hv.sends)
  refine (result.traverse_respects hK.instantiate).bind fun result => ?_
  dsimp only
  split
  · exact (Transfer.apply_respects hK hrun _ _).bind fun _ => .pure _
  · exact .pure _

theorem dispatch_sends (site : DispatchSite) (receiver : Option Ref) (args : List Value) :
    (c.recorded.dispatcher.dispatch host run site receiver args).Respects True (c.Sends versions) := by
  unfold dispatcher
  dsimp only
  split
  · exact .pure _
  refine (call_sends hhost hrun _).bind fun result => ?_
  split
  · exact .pure _
  · exact .throw _

end

/-! ## Histories -/

/-- The host sends nothing on its own, and there is no other client. -/
structure Alone (c : Client ν) (env : Environment (Reach (Recorded ν))) : Prop where
  silent : env.host.Respects True State.Silent
  only : ∀ client d, env.dispatcher? client = some d → d = c.recorded.dispatcher

/-- What the client is used for: a call, or the dispatches of a program. -/
inductive Act
  | call (call : ServiceCall)
  | run (f : Frame)

def Act.perform (c : Client ν) (env : Environment (Reach (Recorded ν))) (budget : Nat) : Act → Calling (Recorded ν) Unit
  | .call x => do
    let _ ← c.recorded.call env.host (Machine.runner env budget) x
  | .run f => do
    let _ ← Machine.runner env budget f

theorem Act.perform_sends {env : Environment (Reach (Recorded ν))} (henv : c.Alone env) (budget : Nat) (act : Act) :
    (act.perform c env budget).Respects True (c.Sends versions) := by
  have hrun : ∀ f, (Machine.runner env budget f).Respects True (c.Sends versions) := by
    refine Machine.runner_respects (host_sends c versions henv.silent) (fun client d hd run hrun site receiver args => ?_) budget
    rw [henv.only client d hd]
    exact dispatch_sends henv.silent hrun site receiver args
  cases act with
  | call x => exact (call_sends henv.silent hrun x).bind fun _ => .pure _
  | run f => exact (hrun f).bind fun _ => .pure _

/-- One use of the client in some domain, with the states before and after. -/
structure Turn (ν : Type) where
  env : Environment (Reach (Recorded ν))
  budget : Nat
  act : Act
  before : Recording ν
  outcome : Except Error Unit
  after : Recording ν

/-- The client was used in domains one after the other. What it remembers and the network go on. -/
inductive Uses (c : Client ν) : Reach (Recorded ν) → List (Turn ν) → Reach (Recorded ν) → Prop
  | nil (x : Reach (Recorded ν)) : Uses c x [] x
  | cons {z : Turn ν} {turns : List (Turn ν)} {y : Reach (Recorded ν)} :
    z.act.perform c z.env z.budget z.before = some (z.outcome, z.after) → Uses c z.after.outside turns y →
    Uses c z.before.outside (z :: turns) y

theorem Uses.ready {x y : Reach (Recorded ν)} {turns : List (Turn ν)} (h : c.Uses x turns y)
    (hknown : ∀ name hash, x.hashes.find? name = some hash → hash = c.settings.digest.digest (versions name))
    (henv : ∀ z ∈ turns, c.Alone z.env) (hindexed : ∀ z ∈ turns, z.before.domain.Indexed)
    (hversions : ∀ z ∈ turns, z.after.domain.HasVersions versions) :
    ∀ z ∈ turns, c.Ready versions z.before ∧ c.Sends versions z.before z.after := by
  induction h with
  | nil x => simp
  | @cons z turns y hperform _ ih =>
    simp only [List.forall_mem_cons] at henv hindexed hversions ⊢
    have hready : c.Ready versions z.before := ⟨hindexed.1, hknown⟩
    have hsends : c.Sends versions z.before z.after :=
      Act.perform_sends henv.1 z.budget z.act _ _ _ hperform (.inl trivial)
    obtain ⟨hafter, _⟩ := hsends.named hversions.1 hready
    exact ⟨⟨hready, hsends⟩, ih hafter.hashes henv.2 hindexed.2 hversions.2⟩

/-- A new client is used in domains which have the same version of each module, if any. Then each request that is sent
names the loaded module that declares its method and the hash of the file of this module, and no other is sent along. -/
theorem Uses.sent_named {x y : Reach (Recorded ν)} {turns : List (Turn ν)} (h : c.Uses x turns y) (hnew : x.hashes = [])
    (henv : ∀ z ∈ turns, c.Alone z.env) (hindexed : ∀ z ∈ turns, z.before.domain.Indexed)
    (hversions : ∀ z ∈ turns, z.after.domain.HasVersions versions) :
    ∀ z ∈ turns, ∃ sent, z.after.outside.network.sent = sent ++ z.before.outside.network.sent ∧
      ∀ r ∈ sent, ∃ l, r.Names l c.settings.digest z.after.domain := by
  intro z hz
  have hknown : ∀ name hash, x.hashes.find? name = some hash → hash = c.settings.digest.digest (versions name) := by
    intro name hash hfound
    rw [hnew] at hfound
    cases hfound
  obtain ⟨hready, hsends⟩ := h.ready hknown henv hindexed hversions z hz
  exact (hsends.named (hversions z hz) hready).2

end Client
end

/-! ## Versions of a module -/

/-- A transport to servers that never have the module. -/
def unaware : Transport Unit where
  Channel := Unit
  connect _ := pure ()
  endpoint _ := "server"
  start := pure
  exchange _ _ _ _ := pure .moduleUnknown
  close := pure
  abort c n := (c, n)

namespace meter

def caller : Client Unit := { settings := { defaultEndpoint := some "server" }, transport := unaware }

/-- A domain in which the client is used. -/
def alone : Environment (Reach (Recorded Unit)) := { host := { thread := none, natives := Native.standard none } }

def raising : Client.Act := .call { method := ⟨⟨none, "Ops.Meter"⟩, "Raise", []⟩ }

theorem caller_alone : caller.Alone alone where
  silent := Host.silent_of_standard rfl rfl
  only client d hd := by cases hd

set_option maxRecDepth 20000 in
theorem ofFile_meter : Module.ofFile meter.toFile = .ok meter := rfl

end meter

open meter Client in
/-- Both the request and the same with the module name the module of the file. -/
theorem meter_named : ∃ l d z first second, Domain.loadFile { hostName := "client" } copy.toFile none = .ok (l, d) ∧
    caller.Uses { network := ⟨(), []⟩ } [z] z.after.outside ∧ z.after.outside.network.sent = [second, first] ∧
    second.upload = some copy.toFile ∧ ∀ r ∈ [second, first], ∃ k, r.Names k .sha1 z.after.domain := by
  obtain ⟨l, d, outcome, after, first, second, hregister, hperform, hsent, hsecond, k, hmodules, hbytes⟩ :
      ∃ l d outcome after first second, Domain.register { hostName := "client" } copy copy.toFile none = .ok (l, d) ∧
        raising.perform caller alone 10 ⟨d, { network := ⟨(), []⟩ }⟩ = some (outcome, after) ∧
        after.outside.network.sent = [second, first] ∧ second.upload = some copy.toFile ∧
        ∃ k, after.domain.modules = [("Meter", k)] ∧ k.bytes = copy.toFile :=
    ⟨_, _, _, _, _, _, rfl, rfl, rfl, rfl, _, rfl, rfl⟩
  have hload : Domain.loadFile { hostName := "client" } copy.toFile none = .ok (l, d) := by
    unfold Domain.loadFile
    rw [ofFile_copy]
    exact hregister
  let z : Turn Unit := ⟨alone, 10, raising, ⟨d, { network := ⟨(), []⟩ }⟩, outcome, after⟩
  have huses : caller.Uses { network := ⟨(), []⟩ } [z] after.outside := Uses.cons (z := z) hperform (.nil after.outside)
  have hindexed : d.Indexed := (Domain.loadFile_gains hload).indexed (Domain.indexed_of_empty rfl rfl)
  have hversions : after.domain.HasVersions fun _ => copy.toFile := by
    intro name m hm
    rw [Domain.module?, hmodules, Dict.find?, List.lookup_eq_some_iff] at hm
    obtain ⟨front, rest, hsplit, _⟩ := hm
    have hmem : (name, m) ∈ [("Meter", k)] := by
      rw [hsplit]
      simp
    have hpair := List.mem_singleton.mp hmem
    cases hpair
    exact hbytes
  obtain ⟨sent, hall, hnames⟩ := huses.sent_named rfl (List.forall_mem_singleton.mpr caller_alone)
    (List.forall_mem_singleton.mpr hindexed) (List.forall_mem_singleton.mpr hversions) z List.mem_cons_self
  have hsame : sent = [second, first] := by
    rw [← hsent, hall]
    simp [z]
  exact ⟨l, d, z, first, second, hload, huses, hsent, hsecond, hsame ▸ hnames⟩

open meter Client in
/-- With two versions of a module, a request may take along the one and have the hash of the other. -/
theorem meter_stale : ∃ l d k e first second r rest, l.bytes ≠ k.bytes ∧
    Domain.loadFile { hostName := "client" } copy.toFile none = .ok (l, d) ∧
    Domain.loadFile { hostName := "client" } meter.toFile none = .ok (k, e) ∧
    first.before.domain = d ∧ second.before.domain = e ∧
    caller.Uses { network := ⟨(), []⟩ } [first, second] second.after.outside ∧
    second.after.outside.network.sent = r :: rest ∧ r.file = k.name ∧ r.upload = some k.bytes ∧
    r.hash = DigestAlgorithm.sha1.digest l.bytes := by
  obtain ⟨l, d, k, e, hfirst, hsecond, hl, hk, outcome, after, outcome', after', r, rest, hperform, hperform', hsent, hfile,
      hupload, hhash⟩ :
      ∃ l d k e, Domain.register { hostName := "client" } copy copy.toFile none = .ok (l, d) ∧
        Domain.register { hostName := "client" } meter meter.toFile none = .ok (k, e) ∧
        l.bytes = copy.toFile ∧ k.bytes = meter.toFile ∧ ∃ outcome after outcome' after' r rest,
          raising.perform caller alone 10 ⟨d, { network := ⟨(), []⟩ }⟩ = some (outcome, after) ∧
          raising.perform caller alone 10 ⟨e, after.outside⟩ = some (outcome', after') ∧
          after'.outside.network.sent = r :: rest ∧ r.file = k.name ∧ r.upload = some meter.toFile ∧
          r.hash = DigestAlgorithm.sha1.digest copy.toFile :=
    ⟨_, _, _, _, rfl, rfl, rfl, rfl, _, _, _, _, _, _, rfl, rfl, rfl, rfl, rfl, rfl⟩
  have hload : Domain.loadFile { hostName := "client" } copy.toFile none = .ok (l, d) := by
    unfold Domain.loadFile
    rw [ofFile_copy]
    exact hfirst
  have hload' : Domain.loadFile { hostName := "client" } meter.toFile none = .ok (k, e) := by
    unfold Domain.loadFile
    rw [ofFile_meter]
    exact hsecond
  have hother : copy.toFile ≠ meter.toFile := by
    intro hsame
    have hread := ofFile_copy
    rw [hsame, ofFile_meter] at hread
    have hpaired : meter.pairedHash = copy.pairedHash := congrArg Module.pairedHash (Except.ok.inj hread)
    cases hpaired
  let x : Turn Unit := ⟨alone, 10, raising, ⟨d, { network := ⟨(), []⟩ }⟩, outcome, after⟩
  let y : Turn Unit := ⟨alone, 10, raising, ⟨e, after.outside⟩, outcome', after'⟩
  have huses : caller.Uses { network := ⟨(), []⟩ } [x, y] after'.outside :=
    Uses.cons (z := x) hperform (Uses.cons (z := y) hperform' (.nil after'.outside))
  rw [← hl, ← hk] at hother
  rw [← hk] at hupload
  rw [← hl] at hhash
  exact ⟨l, d, k, e, x, y, r, rest, hother, hload, hload', rfl, rfl, huses, hsent, hfile, hupload, hhash⟩

end MobileCode
