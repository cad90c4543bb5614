import MobileCode.Proofs.Exchanges
import MobileCode.Proofs.Slots

/-! # Calls that fail

Until the state that came back is written, a call whose closure has no properties adds modules and objects to the
domain of the caller, and alters nothing that was there. When it fails later than that, the variables in front of the
one that was refused have been written.
-/
namespace MobileCode

/-! ## Domains that grow -/

/-- All objects, all types and the static fields of these types are as they were. There may be more. -/
structure Domain.Retains (d e : Domain) : Prop where
  heap : d.heap.Extends e.heap
  types : ∀ name t, d.type? name = some t → e.type? name = some t
  statics : ∀ name t, d.type? name = some t → e.statics.find? name = d.statics.find? name

namespace Domain
variable {d e f : Domain}

theorem Retains.refl (d : Domain) : d.Retains d := ⟨.refl _, fun _ _ h => h, fun _ _ _ => rfl⟩

theorem Retains.trans (h : d.Retains e) (h' : e.Retains f) : d.Retains f where
  heap := h.heap.trans h'.heap
  types name t ht := h'.types name t (h.types name t ht)
  statics name t ht := (h'.statics name t (h.types name t ht)).trans (h.statics name t ht)

theorem Retains.withHeap {h : Heap} (hh : d.heap.Extends h) : d.Retains { d with heap := h } :=
  ⟨hh, fun _ _ h => h, fun _ _ _ => rfl⟩

/-- A module that is entered without a clash defines new types. -/
theorem Retains.enter {m : LoadedModule} (hclash : d.clash? m.code = none) : d.Retains (d.enter m) := by
  rw [enter_eq]
  refine ⟨.refl _, fun name t ht => type?_indexed hclash ht, fun name t ht => ?_⟩
  refine Dict.find?_foldl_insert (fun u : TypeDecl Value => u.fullName) _ _ _ fun u hu he => ?_
  have hnone := List.findSome?_eq_none_iff.mp hclash u hu
  rw [he, ht] at hnone
  cases hnone

theorem Retains.register {m : Module Datum} {bytes : Bytes} {path : Option String} {l : LoadedModule}
    (h : d.register m bytes path = .ok (l, e)) : d.Retains e := by
  rcases register_cases h with ⟨_, _, rfl⟩ | ⟨_, rfl, hclash, rfl⟩
  · exact .refl e
  · exact (Retains.withHeap (m.instantiate_grows d.heap)).trans (.enter hclash)

end Domain

/-- The same for the domains of two states. -/
def State.Retains {ω : Type} (s t : State ω) : Prop := s.domain.Retains t.domain

instance {ω : Type} : IsPreorder (State ω) State.Retains where
  refl s := .refl s.domain
  trans _ _ _ := Domain.Retains.trans

/-! ## What leaves the domain as it was -/

section
variable {ω α β : Type} {K : State ω → State ω → Prop}

theorem Run.Respects.attempt {x : Run (State ω) α} (h : x.Respects True K) : (Run.attempt x).Respects True K := by
  intro s r t hr _
  unfold Run.attempt at hr
  rcases hxs : x s with _ | ⟨r', u⟩
  · rw [hxs] at hr
    cases hr
  · rw [hxs] at hr
    cases hr
    exact h s _ _ hxs (.inl trivial)

theorem Run.Respects.mapM [IsPreorder (State ω) K] {f : α → Run (State ω) β} (xs : List α)
    (h : ∀ x ∈ xs, (f x).Respects True K) : (xs.mapM f).Respects True K := by
  induction xs with
  | nil => exact .pure _
  | cons x xs ih =>
    obtain ⟨hx, hxs⟩ := List.forall_mem_cons.mp h
    rw [List.mapM_cons]
    exact hx.bind fun _ => (ih hxs).bind fun _ => .pure _

theorem Variable.traverse_respects [IsPreorder (State ω) K] {f : α → Run (State ω) β} (h : ∀ x, (f x).Respects True K)
    (v : Variable α) : (v.traverse f).Respects True K := (h _).bind fun _ => .pure _

theorem CallResult.traverse_respects [IsPreorder (State ω) K] {f : α → Run (State ω) β} (h : ∀ x, (f x).Respects True K)
    (result : CallResult α) : (result.traverse f).Respects True K := by
  cases result with
  | disabled | moduleMissing => exact .pure _
  | executed x vs =>
    exact (h x).bind fun _ => (Run.Respects.mapM vs fun v _ => v.traverse_respects h).bind fun _ => .pure _

/-- Whatever happens outside the domain. -/
theorem State.onOutside_respects (houtside : ∀ s o, K s { s with outside := o }) (x : Run ω α) :
    (State.onOutside x).Respects True K := by
  intro s r t h _
  simp only [State.onOutside, Run.zoom] at h
  rcases hx : x s.outside with _ | ⟨_, _⟩
  · rw [hx] at h
    cases h
  · rw [hx] at h
    cases h
    exact houtside s _

theorem State.retains_outside (s : State ω) (o : ω) : State.Retains s { s with outside := o } := .refl s.domain

theorem State.instantiate_retains (x : Datum) :
    (State.instantiate x : Run (State ω) Value).Respects True State.Retains := by
  intro s r t h _
  cases h
  exact .withHeap (Heap.instantiate_grows x _)

namespace Host
variable (host : Host ω)

theorem resolveMethod_retains (r : MethodRef) : (host.resolveMethod r).Respects True State.Retains := by
  refine resolveMethod_respects (fun s bytes path l d hd => ?_) (fun resolve _ name => State.onOutside_respects State.retains_outside _) r
  obtain ⟨m, _, hm⟩ := Domain.loadFile_eq_ok hd
  exact Domain.Retains.register hm

end Host
end

/-! ## Fields that are captured -/

namespace Transfer
variable {ω : Type} {host : Host ω} {run : Runner ω}

/-- To capture fields changes nothing. -/
theorem capture_respects_eq {type : String} {closure : Closure} (hclosure : closure.properties = [])
    (receiver : Option Ref) : (capture host run type closure receiver).Respects True Eq := by
  unfold capture
  have howner : (host.resolveLocal type).Respects True Eq := by
    intro s r t h _
    rw [Host.resolveLocal_apply] at h
    exact (Prod.mk.inj (Option.some.inj h)).2
  refine howner.bind fun owner => ?_
  rw [hclosure]
  refine (Run.Respects.mapM _ fun id _ => ?_).bind fun fields => (Run.Respects.pure _).bind fun _ => .pure _
  unfold captureField
  split
  · exact .throw _
  split
  · exact .pure _
  refine Run.Respects.bind ?_ fun _ => .pure _
  intro s r t h _
  rw [Variable.copyFrom_field host run s rfl] at h
  exact (Prod.mk.inj (Option.some.inj h)).2

/-- When field variables cannot all be written, either nothing is, or the ones in front of the refused one are. -/
theorem apply_failed {target : Option Ref} {vs : List (Variable Value)} (hfields : ∀ v ∈ vs, v.kind = .field)
    {s t : State ω} {e : Error} (h : apply host run target vs s = some (.error e, t)) :
    t = s ∨ ∃ done v after, vs = done ++ v :: after ∧ done ≠ [] ∧ v.copyTo host run target s = some (.error e, s) ∧
      ∀ p, t.domain.at? p = (lastAt? target done p).or (s.domain.at? p) := by
  obtain ⟨done, rest, r, d, rfl, happly, hwritten, hend⟩ := apply_fields host run target hfields s
  cases h.symm.trans happly
  obtain ⟨-, hok⟩ | ⟨v, after, refusal, rfl, hv, herror⟩ := hend
  · cases hok
  cases herror
  have hkind := hfields v (List.mem_append_right _ List.mem_cons_self)
  cases done with
  | nil =>
    rw [List.nil_append, apply_refused host run target s hkind hv] at h
    exact .inl (Prod.mk.inj (Option.some.inj h)).2.symm
  | cons w done =>
    refine .inr ⟨w :: done, v, after, rfl, List.cons_ne_nil w done, ?_, hwritten.at?⟩
    rw [Variable.copyTo_field host run s hkind, hv]

end Transfer

/-! ## Calls -/

namespace Client
variable {ν : Type} {c : Client ν}

section
variable {K : State (Reach ν) → State (Reach ν) → Prop} [IsPreorder (State (Reach ν)) K]

theorem onChannel_respects {α : Type} {x : Run ν α} (h : (onNetwork x : Calling ν α).Respects True K)
    (endpoint : String) : (onChannel endpoint x).Respects True K := by
  unfold onChannel
  refine h.attempt.bind fun r => ?_
  split
  · exact .pure _
  · exact .throw _

variable (houtside : ∀ s o, K s { s with outside := o })
include houtside

omit [IsPreorder (State (Reach ν)) K] in
theorem onNetwork_respects {α : Type} (x : Run ν α) : (onNetwork x : Calling ν α).Respects True K :=
  State.onOutside_respects houtside _

theorem freshId_respects : (freshId : Calling ν Uuid).Respects True K :=
  Run.Respects.get.bind fun _ => (State.onOutside_respects houtside _).bind fun _ => .pure _

/-- Whatever is done on channels for a request and its module respects a relation. -/
structure Channels (c : Client ν) (K : State (Reach ν) → State (Reach ν) → Prop) (r : Request Value)
    (l : LoadedModule) : Prop where
  fresh : (freshId : Calling ν Uuid).Respects True K
  start (channel : c.transport.Channel) : (onNetwork (c.transport.start channel) : Calling ν _).Respects True K
  exchange (channel : c.transport.Channel) (heap : Heap) {id : Uuid} {upload : Option Bytes} :
    upload = r.upload ∨ upload = some l.bytes → (onNetwork (c.transport.exchange channel heap { r with id, upload }
      c.settings.deadline) : Calling ν (Answer Datum)).Respects True K
  close (channel : c.transport.Channel) : (onNetwork (c.transport.close channel) : Calling ν _).Respects True K
  abort (channel : c.transport.Channel) :
    (onNetwork (modify fun n => (c.transport.abort channel n).2) : Calling ν Unit).Respects True K

theorem Channels.of_outside (r : Request Value) (l : LoadedModule) : c.Channels K r l where
  fresh := freshId_respects houtside
  start _ := onNetwork_respects houtside _
  exchange _ _ _ _ _ := onNetwork_respects houtside _
  close _ := onNetwork_respects houtside _
  abort _ := onNetwork_respects houtside _

omit houtside

section
variable {r : Request Value} {l : LoadedModule} (h : c.Channels K r l)
include h

theorem Channels.send_respects (channel : c.transport.Channel) {id : Uuid} {upload : Option Bytes}
    (hupload : upload = r.upload ∨ upload = some l.bytes) : (c.send channel { r with id, upload }).Respects True K :=
  Run.Respects.getHeap.bind fun heap => (onChannel_respects (h.exchange channel heap hupload) _).bind fun _ => .ofExcept _

theorem Channels.exchange_respects (channel : c.transport.Channel) : (c.exchange channel r l).Respects True K := by
  have hfirst : (c.send channel r).Respects True K := h.send_respects channel (.inl rfl)
  rw [exchange_eq]
  refine hfirst.bind fun result => ?_
  split
  · exact h.fresh.bind fun id => h.send_respects channel (.inr rfl)
  · exact .pure _

theorem Channels.attemptOn_respects (endpoint : String) (made : c.transport.Channel) :
    (c.attemptOn r l endpoint made).Respects True K := by
  have hsettle (channel : c.transport.Channel) (outcome : Except Error (CallResult Datum)) :
      (c.settle endpoint channel outcome).Respects True K := by
    cases outcome with
    | error e => exact (h.abort channel).bind fun _ => .throw _
    | ok result => exact (onChannel_respects (h.close channel) _).bind fun _ => .pure _
  unfold attemptOn
  refine (onChannel_respects (h.start made) _).attempt.bind fun started => ?_
  split
  · exact hsettle made _
  · exact (h.exchange_respects _).attempt.bind fun outcome => hsettle _ outcome

end

include houtside

theorem attempt_respects (r : Request Value) (l : LoadedModule) (endpoint : String) :
    (c.attempt r l endpoint).Respects True K := by
  rw [attempt_eq]
  exact (onNetwork_respects houtside _).bind fun made => (Channels.of_outside houtside r l).attemptOn_respects endpoint made

theorem recover_respects (r : Request Value) (l : LoadedModule) (endpoint : String) :
    (c.recovery.recover (fun d => onNetwork (c.transport.wait d)) endpoint (c.attempt r l)).Respects
      True K := by
  intro s outcome t h _
  refine Recovery.recover_yields (W := K s) (Q := fun _ => K s) ?_ (fun _ _ h _ => h)
    (fun _ _ h => h) ?_ c.recovery endpoint (refl_of K s) outcome t h
  · exact fun endpoint u hu a x hx => trans_of K hu (attempt_respects houtside r l endpoint u a x hx (.inl trivial))
  · exact fun d u hu a x hx => trans_of K hu (onNetwork_respects houtside _ u a x hx (.inl trivial))

theorem moduleHash_respects (l : LoadedModule) : (c.moduleHash l).Respects True K := by
  unfold moduleHash
  refine Run.Respects.get.bind fun s => ?_
  split
  · exact .pure _
  · exact (State.onOutside_respects houtside _).bind fun _ => .pure _

end

/-- A call up to its result, with nothing written back. -/
def fetch (c : Client ν) (host : Host (Reach ν)) (run : Runner (Reach ν)) (call : ServiceCall) :
    Calling ν (CallResult Value) := do
  let target ← host.resolveMethod call.method
  let (endpoint, r) ← c.request host run call target
  let result ← c.recovery.recover (fun d => onNetwork (c.transport.wait d)) endpoint (c.attempt r target.module)
  result.traverse State.instantiate

theorem call_eq_fetch (c : Client ν) (host : Host (Reach ν)) (run : Runner (Reach ν)) (call : ServiceCall) :
    c.call host run call = if !c.settings.enabled then pure .disabled else do
      let result ← c.fetch host run call
      if call.mode = .normal ∧ result.isExecuted then
        Transfer.apply host run call.receiver result.nonLocals
      return result := by
  unfold Client.call fetch
  split
  · rfl
  · simp only [bind_assoc]

variable {host : Host (Reach ν)} {run : Runner (Reach ν)} {call : ServiceCall}

theorem request_retains {target : MethodHandle} (hfields : ∀ closure ∈ target.decl.closure, closure.properties = []) :
    (c.request host run call target).Respects True State.Retains := by
  have hcaptured : (captured host run call target).Respects True State.Retains := by
    unfold captured
    split
    · rename_i closure _ hclosure
      intro s r t h hr
      rw [Transfer.capture_respects_eq (hfields closure hclosure) call.receiver s r t h hr]
      exact refl_of State.Retains t
    · exact .pure _
  rw [request_eq_captured]
  refine (moduleHash_respects State.retains_outside _).bind fun hash => hcaptured.bind fun vs => ?_
  exact (Run.Respects.ofExcept _).bind fun endpoint => (freshId_respects State.retains_outside).bind fun id => .pure _

/-- Whatever a call comes to, before state is written back the domain has only grown. -/
theorem fetch_retains {s : State (Reach ν)}
    (hfields : ∀ target u, host.resolveMethod call.method s = some (.ok target, u) →
      ∀ closure ∈ target.decl.closure, closure.properties = []) :
    (c.fetch host run call).Yields s fun _ t => s.domain.Retains t.domain := by
  intro r t h
  have hresolve := host.resolveMethod_retains call.method
  unfold fetch at h
  rw [Run.bind_apply] at h
  rcases hx : host.resolveMethod call.method s with _ | ⟨e | target, u⟩
  · rw [hx] at h
    cases h
  · rw [hx] at h
    cases h
    exact hresolve s _ t hx (.inl trivial)
  · rw [hx] at h
    have hrest : (do
        let (endpoint, r) ← c.request host run call target
        let result ← c.recovery.recover (fun d => onNetwork (c.transport.wait d)) endpoint (c.attempt r target.module)
        result.traverse State.instantiate : Calling ν (CallResult Value)).Respects True State.Retains :=
      (request_retains (hfields target u hx)).bind fun p => (recover_respects State.retains_outside p.2 _ p.1).bind fun result =>
        result.traverse_respects State.instantiate_retains
    exact trans_of State.Retains (hresolve s _ u hx (.inl trivial)) (hrest u r t h (.inl trivial))

/-- A call that fails has only added to the domain, unless an answer came back of which some variables were written
and one was refused. -/
theorem call_failed {s t : State (Reach ν)} {e : Error}
    (hfields : ∀ target u, host.resolveMethod call.method s = some (.ok target, u) →
      ∀ closure ∈ target.decl.closure, closure.properties = [])
    (h : c.call host run call s = some (.error e, t)) :
    s.domain.Retains t.domain ∨ ∃ result vs u, c.fetch host run call s = some (.ok (.executed result vs), u) ∧
      s.domain.Retains u.domain ∧ Transfer.apply host run call.receiver vs u = some (.error e, t) ∧
      ((∀ v ∈ vs, v.kind = .field) → ∃ done v after, vs = done ++ v :: after ∧ done ≠ [] ∧
        v.copyTo host run call.receiver u = some (.error e, u) ∧
        ∀ p, t.domain.at? p = (Transfer.lastAt? call.receiver done p).or (u.domain.at? p)) := by
  have hfetch : (c.fetch host run call).Yields s fun _ t => s.domain.Retains t.domain := fetch_retains hfields
  rw [call_eq_fetch] at h
  split at h
  · cases h
  rw [Run.bind_apply] at h
  rcases hx : c.fetch host run call s with _ | ⟨e' | found, u⟩
  · rw [hx] at h
    cases h
  · rw [hx] at h
    cases h
    exact .inl (hfetch _ _ hx)
  rw [hx] at h
  replace h : (if _ then _ else _ : Calling ν (CallResult Value)) u = some (.error e, t) := h
  split at h
  · rename_i hnormal
    obtain ⟨result, vs, rfl⟩ : ∃ result vs, found = .executed result vs := by
      cases found with
      | executed result vs => exact ⟨result, vs, rfl⟩
      | _ => exact absurd hnormal.2 Bool.false_ne_true
    have happly : Transfer.apply host run call.receiver vs u = some (.error e, t) := by
      rw [Run.bind_apply] at h
      rcases ha : Transfer.apply host run call.receiver vs u with _ | ⟨e' | _, x⟩ <;>
        rw [CallResult.nonLocals, ha] at h <;> cases h
      rfl
    have hgrown := hfetch _ _ hx
    by_cases hall : ∀ v ∈ vs, v.kind = .field
    · obtain rfl | hpart := Transfer.apply_failed hall happly
      · exact .inl hgrown
      · exact .inr ⟨result, vs, u, rfl, hgrown, happly, fun _ => hpart⟩
    · exact .inr ⟨result, vs, u, rfl, hgrown, happly, fun h => absurd h hall⟩
  · cases h

end Client

/-- A transport whose exchanges all answer with this state. -/
def returning (vs : List (Variable Datum)) : Transport Unit where
  Channel := Unit
  connect _ := pure ()
  endpoint _ := "server"
  start := pure
  exchange _ _ _ _ := pure (.completed .null vs)
  close := pure
  abort c n := (c, n)

/-- A module with a method whose state is two numbers. -/
def tank : Module Datum where
  name := "Tank"
  types := [{
    space := "Ops"
    name := "Tank"
    fields := [⟨"level", TypeName.int32, .none, some (.int32 1)⟩, ⟨"note", TypeName.int32, .none, none⟩]
    methods := [
      { name := constructorName, flags := MethodFlags.constructor, body := [.ret] },
      { name := "Fill", body := [.ret],
        closure := some { fields := [⟨"Ops.Tank", "level"⟩, ⟨"Ops.Tank", "note"⟩] } }] }]

namespace tank

def client : Client Unit where
  settings := { defaultEndpoint := some "server" }
  transport := returning [⟨.field, "level", "Ops.Tank", TypeName.int32, .int32 2, false⟩,
    ⟨.field, "note", "Ops.Tank", TypeName.int32, .text "full", false⟩]

def host : Host (Reach Unit) := { thread := none, natives := Native.standard none }

def fill (receiver : Ref) : ServiceCall := { method := ⟨⟨none, "Ops.Tank"⟩, "Fill", []⟩, receiver := some receiver }

/-- An object of the type. -/
def object : Object := ⟨"Ops.Tank", [("level", .int32 1), ("note", .int32 0)]⟩

end tank

open tank in
/-- The first number was written when the second one was refused. -/
theorem tank_filled : ∃ l d r s e t, Domain.register { hostName := "client" } tank [] none = .ok (l, d) ∧
    State.alloc object ⟨d, ⟨[("Tank", "")], 0, ()⟩⟩ = some (.ok r, s) ∧
    client.call host (fun _ => Run.outOfBudget) (fill r) s = some (.error e, t) ∧
    s.domain.at? (.field r "level") = some (.int32 1) ∧ t.domain.at? (.field r "level") = some (.int32 2) ∧
    ∃ result vs u, client.fetch host (fun _ => Run.outOfBudget) (fill r) s = some (.ok (.executed result vs), u) ∧
      s.domain.Retains u.domain ∧
      Transfer.apply host (fun _ => Run.outOfBudget) (some r) vs u = some (.error e, t) := by
  obtain ⟨l, d, r, s, e, t, hd, hs, hcall, hobject, hafter, hfields⟩ : ∃ l d r s e t,
      Domain.register { hostName := "client" } tank [] none = .ok (l, d) ∧
      State.alloc object ⟨d, ⟨[("Tank", "")], 0, ()⟩⟩ = some (.ok r, s) ∧
      client.call host (fun _ => Run.outOfBudget) (fill r) s = some (.error e, t) ∧
      s.domain.heap.get? r = some object ∧ t.domain.at? (.field r "level") = some (.int32 2) ∧
      (host.resolveMethod (fill r).method s).any (fun p => (p.1.toOption.bind (·.decl.closure)).all
        (·.properties.isEmpty)) = true :=
    ⟨_, _, _, _, _, _, rfl, rfl, rfl, rfl, rfl, by decide +kernel⟩
  have hbefore : s.domain.at? (.field r "level") = some (.int32 1) := by
    simp only [Domain.at?, Heap.field?, hobject]
    rfl
  refine ⟨l, d, r, s, e, t, hd, hs, hcall, hbefore, hafter, ?_⟩
  have hclosure (target : MethodHandle) (u : State (Reach Unit))
      (hresolve : host.resolveMethod (fill r).method s = some (.ok target, u)) :
      ∀ closure ∈ target.decl.closure, closure.properties = [] := by
    intro closure hclosure
    simpa [hresolve, Except.toOption, Option.mem_def.mp hclosure] using hfields
  obtain hretains | ⟨result, vs, u, hfetch, hretains, happly, -⟩ := Client.call_failed hclosure hcall
  · have hkept := hretains.heap r object hobject
    simp only [Domain.at?, Heap.field?, hkept] at hafter
    exact absurd (Value.int32.inj (Option.some.inj hafter)) (by decide)
  · exact ⟨result, vs, u, hfetch, hretains, happly⟩

end MobileCode
