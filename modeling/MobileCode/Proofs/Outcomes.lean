import MobileCode.Proofs.Exchanges
import MobileCode.Proofs.Invocations
import MobileCode.Proofs.Undispatched

/-! # Outcomes of dispatches

A client that is enabled has a call executed by a server or fails; only one that is disabled leaves the call to the
method itself. What was executed is what the last answer says that a channel returned during the call.
-/
namespace MobileCode
open Machine

/-! ## Traffic -/

/-- The endpoints to which channels were connected, and the answers that channels returned. -/
structure Traffic where
  connected : List String := []
  answers : List (Answer Datum) := []

namespace Traffic

def connect (x : Traffic) (endpoint : String) : Traffic := { x with connected := x.connected ++ [endpoint] }

def returned (x : Traffic) (a : Answer Datum) : Traffic := { x with answers := x.answers ++ [a] }

end Traffic

/-- The same transport, with a record of its traffic. -/
def Transport.recording {ν : Type} (t : Transport ν) : Transport (ν × Traffic) :=
  let plain := t.lift Prod.fst fun y x => (y, x.2)
  { plain with
    connect := fun endpoint => do
      modify fun x => (x.1, x.2.connect endpoint)
      plain.connect endpoint
    exchange := fun channel heap r limit => do
      let answer ← plain.exchange channel heap r limit
      modify fun x => (x.1, x.2.returned answer)
      return answer }

theorem Run.zoom_eq_some {σ τ α : Type} {part : σ → τ} {put : τ → σ → σ} {x : Run τ α} {s t : σ}
    {r : Except Error α} : zoom part put x s = some (r, t) ↔ ∃ y, x (part s) = some (r, y) ∧ put y s = t := by
  unfold zoom
  rcases x (part s) with _ | ⟨a, y⟩ <;> simp

theorem Run.zoom_record {ν α : Type} {x : Run ν α} {a : Except Error α} {y z : ν × Traffic}
    (h : zoom Prod.fst (fun y x => (y, x.2)) x y = some (a, z)) : z.2 = y.2 := by
  obtain ⟨w, _, rfl⟩ := zoom_eq_some.mp h
  rfl

namespace Transport
variable {ν : Type} {t : Transport ν} {x y : ν × Traffic}

theorem recording_connect {endpoint : String} {r : Except Error t.Channel}
    (h : t.recording.connect endpoint x = some (r, y)) : y.2 = x.2.connect endpoint := by
  replace h : Run.zoom Prod.fst (fun y x => (y, x.2)) (t.connect endpoint) (x.1, x.2.connect endpoint) =
      some (r, y) := h
  obtain ⟨z, _, rfl⟩ := Run.zoom_eq_some.mp h
  rfl

theorem recording_exchange {channel : t.Channel} {heap : Heap} {r : Request Value} {limit : Option Duration}
    {a : Except Error (Answer Datum)} (h : t.recording.exchange channel heap r limit x = some (a, y)) :
    y.2 = { x.2 with answers := x.2.answers ++ a.toOption.toList } := by
  replace h : (Run.zoom Prod.fst (fun y x => (y, x.2)) (t.exchange channel heap r limit) >>= fun answer => do
    modify fun x => (x.1, x.2.returned answer)
    return answer : Run (ν × Traffic) (Answer Datum)) x = some (a, y) := h
  rw [Run.bind_apply] at h
  cases hzoom : Run.zoom Prod.fst (fun y x => (y, x.2)) (t.exchange channel heap r limit) x with
  | none =>
    rw [hzoom] at h
    cases h
  | some p =>
    obtain ⟨found, z⟩ := p
    rw [hzoom] at h
    obtain ⟨w, _, rfl⟩ := Run.zoom_eq_some.mp hzoom
    cases found <;> cases h
    · exact congrArg (Traffic.mk _) (List.append_nil _).symm
    · rfl

end Transport

/-- The same client, with a record of the traffic on its channels. -/
def Client.recording {ν : Type} (c : Client ν) : Client (ν × Traffic) :=
  ⟨c.settings, c.recovery, c.clientType, c.transport.recording⟩

/-! ## What is answered -/

/-- The answers that channels returned so far. -/
def State.answers {ν : Type} (s : State (Reach (ν × Traffic))) : List (Answer Datum) := s.outside.network.2.answers

namespace Client
variable {ν : Type} {c : Client ν}

/-- What is executed is what the last answer says; all answers are kept. -/
def Heard (s : State (Reach (ν × Traffic))) : Except Error (CallResult Datum) → State (Reach (ν × Traffic)) → Prop
  | .ok (.executed w vs), t => ∃ before, t.answers = s.answers ++ before ++ [.completed w vs]
  | _, t => s.answers <+: t.answers

theorem Heard.kept {s t : State (Reach (ν × Traffic))} {result : Except Error (CallResult Datum)}
    (h : Heard s result t) : s.answers <+: t.answers := by
  rcases result with e | _ | _ | ⟨w, vs⟩
  · exact h
  · exact h
  · exact h
  · obtain ⟨before, hbefore⟩ := h
    rw [hbefore, List.append_assoc]
    exact List.prefix_append _ _

theorem Heard.same {s t u : State (Reach (ν × Traffic))} {result : Except Error (CallResult Datum)}
    (h : Heard s result t) (hu : u.answers = t.answers) : Heard s result u := by
  rcases result with e | _ | _ | ⟨w, vs⟩ <;> simp only [Heard, hu] <;> exact h

theorem Heard.failed {s t u : State (Reach (ν × Traffic))} {e : Error} (h : s.answers <+: t.answers)
    (hu : u.answers = t.answers) : Heard s (.error e) u := by
  show s.answers <+: u.answers
  rw [hu]
  exact h

section Recording
variable {s t : State (Reach (ν × Traffic))} {r : Request Value}

theorem send_heard (ht : s.answers <+: t.answers) (channel : c.recording.transport.Channel) :
    (c.recording.send channel r).Yields t (Heard s) := by
  obtain ⟨before, hbefore⟩ := ht
  unfold send
  refine Run.Yields.get_bind (Run.Yields.bind (P := fun a u => u.answers = t.answers ++ a.toOption.toList)
    (onChannel_yields fun a y ha => ?_) (fun a u hu => ?_) fun e u hu => ?_)
  · have hy := congrArg Traffic.answers (Transport.recording_exchange (t := c.transport) ha)
    cases a <;> exact hy
  · replace hu : s.answers ++ before ++ [a] = u.answers := by rw [hbefore]; exact hu.symm
    cases a with
    | completed w vs => exact .pure ⟨before, hu.symm⟩
    | moduleUnknown => exact .pure ⟨_, (List.append_assoc _ _ _).symm.trans hu⟩
    | fault f => exact .throw ⟨_, (List.append_assoc _ _ _).symm.trans hu⟩
  · exact ⟨before, hbefore.trans (hu.trans (List.append_nil _)).symm⟩

theorem exchange_heard (ht : s.answers <+: t.answers) (channel : c.recording.transport.Channel) (l : LoadedModule) :
    (c.recording.exchange channel r l).Yields t (Heard s) := by
  rw [exchange_eq]
  refine (send_heard ht channel).bind ?_ fun e u hu => hu
  rintro (_ | _ | ⟨w, vs⟩) u hu
  · exact .pure hu
  · refine Run.Yields.bind (P := fun _ w => w.answers = u.answers) (fun a w ha => ?_) (fun id w hw => ?_)
      fun e w hw => ?_
    · cases ha
      rfl
    · exact send_heard (hw ▸ hu.kept) channel
    · exact hu.same hw
  · exact .pure hu

/-- Nothing that is done with a network but an exchange adds to the answers. -/
theorem kept_yields {α : Type} {x : Run (ν × Traffic) α} (hx : ∀ a y z, x y = some (a, z) → z.2.answers = y.2.answers)
    (t : State (Reach (ν × Traffic))) : (onNetwork x).Yields t fun _ u => u.answers = t.answers :=
  onNetwork_yields fun a y ha => hx a _ y ha

theorem kept_onChannel {α : Type} {x : Run (ν × Traffic) α}
    (hx : ∀ a y z, x y = some (a, z) → z.2.answers = y.2.answers) (endpoint : String)
    (t : State (Reach (ν × Traffic))) : (onChannel endpoint x).Yields t fun _ u => u.answers = t.answers :=
  onChannel_yields fun a y ha => hx a _ y ha

theorem zoom_keeps {α : Type} {x : Run ν α} (a : Except Error α) (y z : ν × Traffic)
    (h : Run.zoom Prod.fst (fun y x => (y, x.2)) x y = some (a, z)) : z.2.answers = y.2.answers := by
  rw [Run.zoom_record h]

theorem attempt_heard (ht : s.answers <+: t.answers) (l : LoadedModule) (endpoint : String) :
    (c.recording.attempt r l endpoint).Yields t (Heard s) := by
  have haborts (channel : c.recording.transport.Channel) (e : Error) {u : State (Reach (ν × Traffic))}
      (hu : s.answers <+: u.answers) :
      (onNetwork (modify fun n => (c.recording.transport.abort channel n).2) >>= fun _ => MonadExcept.throw e :
        Calling (ν × Traffic) (CallResult Datum)).Yields u (Heard s) := by
    refine Run.Yields.bind (kept_yields (fun a y z h => ?_) u) (fun _ w hw => .throw (.failed hu hw))
      fun e w hw => .failed hu hw
    cases h
    rfl
  have hconnect (a : Except Error c.transport.Channel) (y z : ν × Traffic)
      (h : c.recording.transport.connect endpoint y = some (a, z)) : z.2.answers = y.2.answers := by
    rw [Transport.recording_connect h]
    rfl
  unfold attempt
  refine Run.Yields.bind (kept_yields hconnect t) (fun channel u hu => ?_)
    fun e u hu => .failed ht hu
  refine Run.Yields.attempt_bind (kept_onChannel zoom_keeps _ u) fun a w hw => ?_
  have hkept : s.answers <+: w.answers := hw ▸ hu ▸ ht
  cases a with
  | error e => exact haborts channel e hkept
  | ok channel =>
    refine (exchange_heard hkept channel l).attempt_bind fun a x hx => ?_
    cases a with
    | error e => exact haborts channel e hx
    | ok result =>
      refine Run.Yields.bind (kept_onChannel zoom_keeps _ x) (fun _ y hy => .pure (hx.same hy)) fun e y hy => ?_
      exact .failed hx.kept hy

/-- What is executed is what the last answer says that came while the client tried. -/
theorem recover_heard (l : LoadedModule) (endpoint : String) (s : State (Reach (ν × Traffic))) :
    (c.recovery.recover (fun d => onNetwork (c.recording.transport.wait d)) endpoint
      (c.recording.attempt r l)).Yields s (Heard s) := by
  refine Recovery.recover_yields (W := fun t => s.answers <+: t.answers) ?_ ?_ ?_ ?_ _ _ (List.prefix_refl _)
  · exact fun endpoint t ht => attempt_heard ht l endpoint
  · exact fun e t ht _ => ht
  · exact fun e t ht => ht
  · intro d t ht a u hu
    have hkept : u.answers = t.answers := kept_yields zoom_keeps t a u hu
    exact hkept ▸ ht

end Recording

/-- `v` is what the last answer says that a channel returned while the call was tried. -/
def Answered (c : Client ν) (host : Host (Reach (ν × Traffic))) (run : Runner (Reach (ν × Traffic)))
    (call : ServiceCall) (s : State (Reach (ν × Traffic))) (v : Value) : Prop :=
  ∃ target endpoint r s₀ s₁ s₂ s₃ w vs before, host.resolveMethod call.method s = some (.ok target, s₀) ∧
    c.recording.request host run call target s₀ = some (.ok (endpoint, r), s₁) ∧
    c.recovery.recover (fun d => onNetwork (c.recording.transport.wait d)) endpoint
      (c.recording.attempt r target.module) s₁ = some (.ok (.executed w vs), s₂) ∧
    s₂.answers = s₁.answers ++ before ++ [.completed w vs] ∧ State.instantiate w s₂ = some (.ok v, s₃)

theorem call_answered {host : Host (Reach (ν × Traffic))} {run : Runner (Reach (ν × Traffic))} {call : ServiceCall}
    {s s' : State (Reach (ν × Traffic))} {v : Value} {vs : List (Variable Value)}
    (h : c.recording.call host run call s = some (.ok (.executed v vs), s')) : c.Answered host run call s v := by
  unfold Client.call at h
  split at h
  · cases h
  obtain ⟨target, s₀, htarget, h⟩ := Run.bind_eq_ok.mp h
  obtain ⟨⟨endpoint, r⟩, s₁, hrequest, h⟩ := Run.bind_eq_ok.mp h
  obtain ⟨result, s₂, hresult, h⟩ := Run.bind_eq_ok.mp h
  obtain ⟨back, s₃, hback, h⟩ := Run.bind_eq_ok.mp h
  have hsame : back = .executed v vs := by
    split at h
    · obtain ⟨_, _, _, h⟩ := Run.bind_eq_ok.mp h
      cases h
      rfl
    · cases h
      rfl
  subst hsame
  rcases result with _ | _ | ⟨w, ws⟩
  · cases hback
  · cases hback
  obtain ⟨found, s₄, hfound, hback⟩ := Run.bind_eq_ok.mp hback
  obtain ⟨us, _, _, hback⟩ := Run.bind_eq_ok.mp hback
  cases hback
  obtain ⟨before, hbefore⟩ := recover_heard target.module endpoint s₁ _ _ hresult
  exact ⟨target, endpoint, r, s₀, s₁, s₂, s₄, w, ws, before, htarget, hrequest, hresult, hbefore, hfound⟩

/-- A dispatch is executed as a channel answered or fails if the client is enabled, and else does nothing at all. -/
theorem dispatch_answered (host : Host (Reach (ν × Traffic))) (run : Runner (Reach (ν × Traffic))) (site : DispatchSite)
    (receiver : Option Ref) (args : List Value) {s s' : State (Reach (ν × Traffic))}
    {outcome : Except Error DispatchOutcome}
    (h : c.recording.dispatcher.dispatch host run site receiver args s = some (outcome, s')) :
    if c.settings.enabled then (∃ e, outcome = .error e) ∨ ∃ v, outcome = .ok (.executed v) ∧
      c.Answered host run ⟨site.mode, site.onMainThread, none, site.method, receiver, args⟩ s v
    else outcome = .ok .notExecuted ∧ s' = s := by
  have hsettings : c.settings.enabled = c.recording.settings.enabled := rfl
  rw [hsettings]
  cases henabled : c.recording.settings.enabled with
  | false =>
    cases (c.recording.idle_of_disabled henabled host run site receiver args s).symm.trans h
    exact ⟨rfl, rfl⟩
  | true =>
    rw [if_pos rfl]
    cases outcome with
    | error e => exact .inl ⟨e, rfl⟩
    | ok outcome =>
      simp only [dispatcher, henabled, Bool.not_true, Bool.false_eq_true, if_false] at h
      obtain ⟨result, u, hcall, hresult⟩ := Run.bind_eq_ok.mp h
      rcases result with _ | _ | ⟨v, vs⟩
      · cases hresult
      · cases hresult
      · cases hresult
        exact .inr ⟨v, rfl, call_answered hcall⟩

/-- What a step comes to that asks the client. -/
theorem asked_answered {host : Host (Reach (ν × Traffic))} {run : Runner (Reach (ν × Traffic))} {site : DispatchSite}
    {receiver : Option Ref} {args : List Value} {s s' : State (Reach (ν × Traffic))} {r : Except Error Transition}
    {f : Frame} {below : List Frame}
    (h : (c.recording.dispatcher.dispatch host run site receiver args >>= fun outcome =>
      pure (.next (f.answered outcome) below)) s = some (r, s')) :
    if c.settings.enabled then (∃ e, r = .error e) ∨ ∃ v, r = .ok (.next (f.answered (.executed v)) below) ∧
      c.Answered host run ⟨site.mode, site.onMainThread, none, site.method, receiver, args⟩ s v
    else r = .ok (.next (f.answered .notExecuted) below) ∧ s' = s := by
  rw [Run.bind_apply] at h
  cases hdispatch : c.recording.dispatcher.dispatch host run site receiver args s with
  | none =>
    rw [hdispatch] at h
    cases h
  | some answer =>
    obtain ⟨answer, z⟩ := answer
    have hanswered := dispatch_answered host run site receiver args hdispatch
    rw [hdispatch] at h
    cases henabled : c.settings.enabled with
    | true =>
      rw [henabled, if_pos rfl] at hanswered
      rw [if_pos rfl]
      obtain ⟨e, rfl⟩ | ⟨v, rfl, hsaid⟩ := hanswered
      · cases h
        exact .inl ⟨e, rfl⟩
      · cases h
        exact .inr ⟨v, rfl, hsaid⟩
    | false =>
      rw [henabled, if_neg Bool.false_ne_true] at hanswered
      rw [if_neg Bool.false_ne_true]
      obtain ⟨rfl, rfl⟩ := hanswered
      cases h
      exact ⟨rfl, rfl⟩

end Client

/-- Only where its client is disabled a call of a method in normal mode comes to the body. Else it fails, or returns
what a channel answered. -/
theorem TypeDecl.mobilize_stays_only_disabled {client module : String} {t t' t'' : TypeDecl Datum} {index : Nat}
    {a : Mobility} {closure : Closure} {done : Mobilized} {d : MethodDecl Datum}
    (hmobilize : t.mobilize client module index a closure = .ok (done, t')) (hd : t.methods[index]? = some d)
    (hmode : a.mode = .normal) (hinside : BranchesInside d.body) (hwords : d.body.length < 2 ^ 63)
    (hquiet : ∀ site, .dispatch site ∉ d.body)
    -- the type as it is loaded, and the client
    (hmore : Rewritten client module t' t'') {l : LoadedModule} {u : TypeDecl Value} (hu : u.shape = t''.shape)
    {e : MethodDecl Value} (he : u.methods[index]? = some e) {ν : Type} {c : Client ν}
    {env : Environment (Reach (ν × Traffic))} (hclient : env.dispatcher? client = some c.recording.dispatcher)
    -- a call
    {s : State (Reach (ν × Traffic))} {depth : Nat} {receiver constructs : Option Ref} {given : List Value} {f : Frame}
    (hentered : Frame.enter s.domain.maxDepth depth ⟨l, u, e⟩ receiver given constructs = .ok f) (below : List Frame) :
    ∃ site k, site.method = d.reference ⟨none, t.fullName⟩ ∧ site.mode = .normal ∧ f.position < k ∧
      f.method.decl.body[f.position]? = some (.dispatch site) ∧
      (∀ run r s', step env run f below s = some (r, s') →
        if c.settings.enabled then (∃ e, r = .error e) ∨ ∃ v, r = .ok (.next (f.answered (.executed v)) below) ∧
          c.Answered env.host run ⟨site.mode, site.onMainThread, none, site.method, f.receiver, f.args⟩ s v
        else r = .ok (.next (f.answered .notExecuted) below) ∧ s' = s) ∧
      ∀ v z, ∃ fs, (∀ x ∈ fs, x.OutsideBody f.method k) ∧ Advances env z fs (.next (f.answered (.executed v)) below)
        (finish f below (if d.isVoid then .null else v)) := by
  have hloaded := ((mobilize_places hmobilize hd).rewritten hmore).loads (l := l) hu he
  obtain ⟨args, hbind, rfl⟩ := Frame.enter_eq_ok hentered
  have hargs : args.length = d.params.length := (Frame.bindArguments_eq_ok hbind).1.trans hloaded.params
  have honce := (hloaded.dispatchesOnce_normal hmode hinside hwords hquiet hclient hargs (s := s)
    receiver depth constructs below).2
  refine ⟨(t.target index a d).method.callSite client t.fullName, ((t.target index a d).front client).length, rfl,
    hmode, honce.front, honce.stands, fun run r s' hstep => ?_, fun v z => ?_⟩
  · rw [honce.asks run s] at hstep
    exact Client.asked_answered hstep
  · obtain ⟨fs, hfs, hadvances⟩ := honce.goesOn (.executed v) z
    have hsite : ((t.target index a d).method.callSite client (t.target index a d).type.fullName).mode = .normal :=
      hmode
    rw [hsite] at hadvances
    exact ⟨fs, hfs, hadvances⟩

/-- A transport whose first exchange fails. -/
def faltering : Transport Nat where
  Channel := Unit
  connect _ := pure ()
  endpoint _ := "server"
  start := pure
  exchange _ _ _ _ n := some (if n = 0 then .error (.general "lost") else .ok (.completed (.int32 42) []), n + 1)
  close := pure
  abort c n := (c, n)

/-- A client that tries twice. -/
def persistent : Client Nat where
  settings := { defaultEndpoint := some "server" }
  recovery := .retry 2 none
  transport := faltering

def persistent.environment : Environment (Reach (Nat × Traffic)) where
  host := { thread := none, natives := Native.standard none }
  dispatcher? _ := some persistent.recording.dispatcher

/-- A domain whose client knows the hash of the module. -/
def persistent.start (d : Domain) : State (Reach (Nat × Traffic)) := ⟨d, [("Pulse", "")], 0, (0, {})⟩

open pulse in
theorem pulse_answered : ∃ site : DispatchSite, ∃ v, site.method = ⟨⟨none, "Ops.Pulse"⟩, "Beat", [TypeName.int32]⟩ ∧
    persistent.Answered persistent.environment.host (fun _ => Run.outOfBudget)
      ⟨site.mode, site.onMainThread, none, site.method, none, [.int32 3]⟩ (persistent.start (loaded {}).2) v := by
  have hmobilize : pulse.mobilize defaultClientType "Pulse" 1 {} {} = .ok (mobilized {}) := rfl
  have hclient : persistent.environment.dispatcher? defaultClientType = some persistent.recording.dispatcher := rfl
  have hentered : Frame.enter (loaded {}).2.maxDepth 0 ⟨(loaded {}).1, type {}, (type {}).methods[1]?.getD default⟩ none
      [.int32 3] = .ok (call {} [.int32 3]) := rfl
  obtain ⟨site, k, hmethod, _, _, _, honce, _⟩ := TypeDecl.mobilize_stays_only_disabled hmobilize rfl rfl
    (by simp [BranchesInside, Instruction.target?]) (by simp) (by simp) (.here _) (u := type {}) rfl rfl hclient
    (s := persistent.start (loaded {}).2) hentered []
  have hsteps : (step persistent.environment (fun _ => Run.outOfBudget) (call {} [.int32 3]) []
      (persistent.start (loaded {}).2)).any (·.1.isOk) = true := by decide +kernel
  obtain ⟨⟨r, s⟩, hstep, hok⟩ := Option.any_eq_true _ _ |>.mp hsteps
  have henabled : persistent.settings.enabled = true := rfl
  have hanswered := honce _ _ _ hstep
  rw [if_pos henabled] at hanswered
  obtain ⟨_, rfl⟩ | ⟨v, _, hsaid⟩ := hanswered
  · cases hok
  · exact ⟨site, v, hmethod, hsaid⟩

end MobileCode
